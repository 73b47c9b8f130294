import DrFed.Js.Decimal
import DrFed.Js.Value
import Mathlib.Data.Int.Notation

/-!
# Migration histories

The manifest of the bundled migrations, the raw rows of the migration history
of a database, and their classification.
-/

namespace DrFed.Migrations

/-! ## Timestamps -/

def isLeapYear (year : ℕ) : Bool :=
  year % 4 == 0 && (year % 100 != 0 || year % 400 == 0)

def monthLength (year month : ℕ) : ℕ :=
  if month = 2 then if isLeapYear year then 29 else 28
  else if [4, 6, 9, 11].contains month then 30
  else 31

def daysBeforeYear (year : ℕ) : ℕ :=
  365 * year + (year + 3) / 4 - (year + 99) / 100 + (year + 399) / 400

def daysBeforeMonth (year month : ℕ) : ℕ :=
  ((List.range (month - 1)).map fun m => monthLength year (m + 1)).sum

/-- Milliseconds since 1970 of a time in UTC; `none` unless `Date` writes the
time as it is given. -/
def utcTimestamp (year month day hour minute second : ℕ) : Option ℤ :=
  if 1 ≤ month ∧ month ≤ 12 ∧ 1 ≤ day ∧ day ≤ monthLength year month ∧
      hour < 24 ∧ minute < 60 ∧ second < 60 then
    let days : ℤ := daysBeforeYear year + daysBeforeMonth year month + (day - 1)
      - daysBeforeYear 1970
    some ((((days * 24 + hour) * 60 + minute) * 60 + second) * 1000)
  else none

/-- `[a-zA-Z0-9_-]` -/
def isNameUnit (c : UInt16) : Bool :=
  (unit 'a' ≤ c && c ≤ unit 'z') || (unit 'A' ≤ c && c ≤ unit 'Z') ||
    isDigit c || c == unit '_' || c == unit '-'

/-- `/^\d{14}_[a-zA-Z0-9_-]+$/u` -/
def isMigrationName (name : JsString) : Bool :=
  match name.drop 14 with
  | c :: label =>
      (name.take 14).all isDigit && c == unit '_' && !label.isEmpty &&
        label.all isNameUnit
  | [] => false

def migrationTimestamp (name : JsString) : Except String ℤ :=
  if isMigrationName name then
    let part (start length : ℕ) := readDecimal ((name.drop start).take length)
    match utcTimestamp (part 0 4) (part 4 2) (part 6 2) (part 8 2) (part 10 2)
        (part 12 2) with
    | some timestamp => .ok timestamp
    | none => .error "Invalid migration UTC timestamp."
  else .error "Invalid migration directory name."

/-! ## Manifests -/

structure MigrationIdentity where
  name : JsString
  sha256 : JsString
  deriving DecidableEq

structure MigrationManifest where
  migrations : List MigrationIdentity

/-- `/^[a-f0-9]{64}$/u` -/
def isSha256 (hash : JsString) : Bool :=
  hash.length == 64 &&
    hash.all fun c => isDigit c || (unit 'a' ≤ c && c ≤ unit 'f')

/-- Check the entries after one with a timestamp, if any. -/
def parseEntries : Option ℤ → List MigrationIdentity →
    Except String (List MigrationIdentity)
  | _, [] => .ok []
  | previous, entry :: rest =>
      if isSha256 entry.sha256 then do
        let timestamp ← migrationTimestamp entry.name
        if previous.any fun previous => timestamp ≤ previous then
          .error "Migration timestamps must be unique and increasing."
        else
          let migrations ← parseEntries (some timestamp) rest
          return entry :: migrations
      else .error "Invalid migration manifest entry."

def parseMigrationManifest (manifest : MigrationManifest) :
    Except String MigrationManifest :=
  (parseEntries none manifest.migrations).map MigrationManifest.mk

/-! ## Histories -/

inductive MigrationHistoryFormat where
  | current | legacy
  deriving DecidableEq

inductive MigrationStatus where
  | ready | pending | uninitialized | upgradeRequired | modified | newer
  | diverged | untrackedSchema | unsupportedFormat
  deriving DecidableEq

structure MigrationState where
  status : MigrationStatus
  format : Option MigrationHistoryFormat
  applied : ℕ
  pending : List MigrationIdentity
  deriving DecidableEq

/-- A column of a raw row. -/
inductive RawValue where
  | null
  | number (value : JsNumber)
  | bigint (value : ℤ)
  | string (value : JsString)
  /-- Any other value, and a number that is not finite. -/
  | other
  deriving DecidableEq

structure RawRow where
  id : RawValue
  createdAt : RawValue
  hash : RawValue
  name : RawValue
  appliedAt : RawValue

def maxSafeInteger : ℕ := 9007199254740991

/-- Every integer beyond the safe ones is rounded to an unsafe one. -/
def integer : RawValue → Option ℕ
  | .number .negativeZero => some 0
  | .number (.rational q) =>
      if q.den = 1 ∧ 0 ≤ q.num ∧ q.num ≤ maxSafeInteger then some q.num.toNat
      else none
  | .bigint n =>
      if 0 ≤ n ∧ n ≤ maxSafeInteger then some n.toNat else none
  | .string text =>
      if text ≠ [] ∧ text.all isDigit ∧ readDecimal text ≤ maxSafeInteger then
        some (readDecimal text)
      else none
  | _ => none

structure HistoryIdentity where
  id : ℕ
  date : ℤ
  hash : JsString
  name : RawValue

/-- Dates of legacy rows, upgraded ones included, may have milliseconds. -/
def rowDate (row : RawRow) (format : MigrationHistoryFormat) (rawDate : ℕ) :
    ℤ :=
  if format = .legacy ∨ row.appliedAt = .null then
    ((rawDate / 1000 * 1000 : ℕ) : ℤ)
  else rawDate

/-- Whether the name of a row is one of the date of the row. -/
def namesDate (name : RawValue) (date : ℤ) : Bool :=
  match name with
  | .string name =>
      match migrationTimestamp name with
      | .ok timestamp => timestamp == date
      | .error _ => false
  | _ => false

def historyIdentity (row : RawRow) (format : MigrationHistoryFormat) :
    Option HistoryIdentity :=
  match integer row.id, integer row.createdAt, row.hash with
  | some id, some rawDate, .string hash =>
      let date := rowDate row format rawDate
      if !isSha256 hash then none
      else if format = .current ∧ !namesDate row.name date then none
      else some { id, date, hash, name := row.name }
  | _, _, _ => none

/-- Whether an identity is at the place of an entry of the manifest. -/
def samePlace (format : MigrationHistoryFormat) (identity : HistoryIdentity)
    (expected : MigrationIdentity) : Bool :=
  (match migrationTimestamp expected.name with
    | .ok timestamp => identity.date == timestamp
    | .error _ => false) &&
  (format != .current || identity.name == .string expected.name)

/-- The loop over the rows.  It fails with the status of an incompatible
history, and otherwise says whether rows follow the whole manifest. -/
def checkRows (identities : List MigrationIdentity)
    (format : MigrationHistoryFormat) : ℕ → List RawRow → ℕ → ℤ → Bool →
    Except MigrationStatus Bool
  | _, [], _, _, newer => .ok newer
  | index, row :: rows, previousId, previousDate, newer =>
      match historyIdentity row format with
      | none => .error .diverged
      | some identity =>
          if identity.id ≤ previousId ∨ identity.date ≤ previousDate then
            .error .diverged
          else
            match identities[index]? with
            | none =>
                match identities.getLast?.map fun last =>
                    migrationTimestamp last.name with
                | some (.ok timestamp) =>
                    if identity.date ≤ timestamp then .error .diverged
                    else
                      checkRows identities format (index + 1) rows identity.id
                        identity.date true
                | _ => .error .diverged
            | some expected =>
                if !samePlace format identity expected then .error .diverged
                else if identity.hash ≠ expected.sha256 then .error .modified
                else
                  checkRows identities format (index + 1) rows identity.id
                    identity.date newer

def incompatible (format : MigrationHistoryFormat) (status : MigrationStatus) :
    MigrationState where
  status
  format := some format
  applied := 0
  pending := []

/-- The status of a history that is a prefix of the manifest. -/
def appliedStatus (format : MigrationHistoryFormat) (rows migrations : ℕ) :
    MigrationStatus :=
  if format = .legacy then .upgradeRequired
  else if rows = 0 then .uninitialized
  else if rows = migrations then .ready
  else .pending

/-- The state of a history of a number of rows, by the result of the loop. -/
def historyState (identities : List MigrationIdentity)
    (format : MigrationHistoryFormat) (rows : ℕ) :
    Except MigrationStatus Bool → MigrationState
  | .error status => incompatible format status
  | .ok true => incompatible format .newer
  | .ok false =>
      { status := appliedStatus format rows identities.length
        format := some format
        applied := rows
        pending := identities.drop rows }

def classifyMigrationHistory (manifest : MigrationManifest)
    (rows : List RawRow) (format : MigrationHistoryFormat) :
    Except String MigrationState := do
  let manifest ← parseMigrationManifest manifest
  let identities := manifest.migrations
  return historyState identities format rows.length
    (checkRows identities format 0 rows 0 (-1) false)

end DrFed.Migrations
