import DrFed.Migrations.History
import Mathlib.Data.List.Forall2
import Mathlib.Data.List.TakeDrop

/-!
# The classification of migration histories

What each status of a history says about its rows and the manifest.
-/

namespace DrFed.Migrations

/-! ## Rows against a manifest -/

/-- A row after another one. -/
def Later (identity other : HistoryIdentity) : Prop :=
  identity.id < other.id ∧ identity.date < other.date

/-- A row at the place of an entry: of the same date, to the second where the
row is a legacy one, and of the same name where rows have names. -/
def SamePlace (format : MigrationHistoryFormat) (identity : HistoryIdentity)
    (entry : MigrationIdentity) : Prop :=
  migrationTimestamp entry.name = .ok identity.date ∧
    (format = .current → identity.name = .string entry.name)

def Matches (format : MigrationHistoryFormat) (identity : HistoryIdentity)
    (entry : MigrationIdentity) : Prop :=
  SamePlace format identity entry ∧ identity.hash = entry.sha256

/-- A row with an identity: numbers as its id and its date, which counts to
the second in legacy and upgraded rows, the digits of a hash, and the name of a
migration of that date where rows have names. -/
structure WellFormed (format : MigrationHistoryFormat) (row : RawRow)
    (identity : HistoryIdentity) : Prop where
  id : integer row.id = some identity.id
  date : ∃ milliseconds : ℕ, integer row.createdAt = some milliseconds ∧
    if format = .legacy ∨ row.appliedAt = .null then
      1000 ∣ identity.date ∧ identity.date ≤ milliseconds ∧
        milliseconds < identity.date + 1000
    else identity.date = milliseconds
  hash : row.hash = .string identity.hash
  digits : identity.hash.length = 64 ∧ ∀ c ∈ identity.hash,
    isDigit c = true ∨ unit 'a' ≤ c ∧ c ≤ unit 'f'
  name : identity.name = row.name
  named : format = .current → ∃ name, row.name = .string name ∧
    migrationTimestamp name = .ok identity.date

/-- Well-formed rows with positive ids, in strictly increasing order of ids
and dates. -/
structure Increasing (format : MigrationHistoryFormat) (rows : List RawRow)
    (identities : List HistoryIdentity) : Prop where
  wellFormed : List.Forall₂ (WellFormed format) rows identities
  positive : ∀ identity ∈ identities, 0 < identity.id
  later : identities.Pairwise Later

/-- The rows are those of a prefix of the manifest. -/
def Applied (manifest : List MigrationIdentity)
    (format : MigrationHistoryFormat) (rows : List RawRow) : Prop :=
  ∃ identities, Increasing format rows identities ∧
    List.Forall₂ (Matches format) identities (manifest.take rows.length)

/-- Rows of the whole manifest, which has some entry, with later ones after
them. -/
def Newer (manifest : List MigrationIdentity)
    (format : MigrationHistoryFormat) (rows : List RawRow) : Prop :=
  manifest ≠ [] ∧ manifest.length < rows.length ∧
    ∃ identities, Increasing format rows identities ∧
      List.Forall₂ (Matches format) (identities.take manifest.length) manifest

/-- The first row that is not that of its entry differs from it in the hash
alone. -/
def Modified (manifest : List MigrationIdentity)
    (format : MigrationHistoryFormat) (rows : List RawRow) : Prop :=
  ∃ first row rest, rows = first ++ row :: rest ∧
    ∃ identities identity entry,
      Increasing format (first ++ [row]) (identities ++ [identity]) ∧
      List.Forall₂ (Matches format) identities (manifest.take first.length) ∧
      manifest[first.length]? = some entry ∧
      SamePlace format identity entry ∧ identity.hash ≠ entry.sha256

/-! ## The checks of a row -/

section Rows

variable {format : MigrationHistoryFormat} {manifest : List MigrationIdentity}

theorem samePlace_iff {identity : HistoryIdentity}
    {entry : MigrationIdentity} :
    samePlace format identity entry = true ↔ SamePlace format identity entry := by
  unfold samePlace SamePlace
  rw [Bool.and_eq_true]
  apply and_congr
  · cases migrationTimestamp entry.name with
    | ok timestamp =>
        dsimp only
        rw [beq_iff_eq, Except.ok.injEq, eq_comm]
    | error message =>
        apply iff_of_false
        · exact Bool.false_ne_true
        · intro h
          cases h
  · cases format with
    | current => simp
    | legacy => simp

theorem isSha256_iff {hash : JsString} :
    isSha256 hash = true ↔ hash.length = 64 ∧ ∀ c ∈ hash,
      isDigit c = true ∨ unit 'a' ≤ c ∧ c ≤ unit 'f' := by
  simp only [isSha256, Bool.and_eq_true, beq_iff_eq, List.all_eq_true,
    Bool.or_eq_true, decide_eq_true_eq]

theorem namesDate_iff {name : RawValue} {date : ℤ} :
    namesDate name date = true ↔
      ∃ text, name = .string text ∧ migrationTimestamp text = .ok date := by
  cases name with
  | string text =>
      rw [namesDate]
      cases htimestamp : migrationTimestamp text with
      | ok timestamp => simp [htimestamp]
      | error message => simp [htimestamp]
  | null => simp [namesDate]
  | number value => simp [namesDate]
  | bigint value => simp [namesDate]
  | other => simp [namesDate]

theorem rowDate_eq_iff {row : RawRow} {milliseconds : ℕ} {date : ℤ} :
    date = rowDate row format milliseconds ↔
      if format = .legacy ∨ row.appliedAt = .null then
        1000 ∣ date ∧ date ≤ milliseconds ∧ milliseconds < date + 1000
      else date = milliseconds := by
  rw [rowDate]
  split
  next => omega
  next => exact Iff.rfl

/-- The rows that the loop accepts are the well-formed ones. -/
theorem historyIdentity_eq_some {row : RawRow} {identity : HistoryIdentity} :
    historyIdentity row format = some identity ↔
      WellFormed format row identity := by
  unfold historyIdentity
  constructor
  · intro h
    split at h
    next id milliseconds hash hid hdate hhash =>
      dsimp only at h
      split at h
      next => cases h
      next hdigits =>
        split at h
        next => cases h
        next hnamed =>
          obtain rfl := Option.some.inj h
          rw [Bool.not_eq_true', Bool.not_eq_false, isSha256_iff] at hdigits
          rw [not_and, Bool.not_eq_true', Bool.not_eq_false, namesDate_iff]
            at hnamed
          exact ⟨hid, ⟨milliseconds, hdate, rowDate_eq_iff.mp rfl⟩, hhash,
            hdigits, rfl, hnamed⟩
    next => cases h
  · intro h
    obtain ⟨milliseconds, hdate, hrow⟩ := h.date
    have hsame := rowDate_eq_iff.mpr hrow
    have hdigits := isSha256_iff.mpr h.digits
    have hnamed : ¬(format = .current ∧
        (!namesDate identity.name identity.date) = true) := by
      rw [not_and, Bool.not_eq_true', Bool.not_eq_false, namesDate_iff, h.name]
      exact h.named
    rw [h.id, hdate, h.hash]
    simp only [hdigits, Bool.not_true, Bool.false_eq_true, if_false, ← hsame,
      ← h.name]
    rw [if_neg hnamed]

theorem WellFormed.date_nonneg {row : RawRow} {identity : HistoryIdentity}
    (h : WellFormed format row identity) : 0 ≤ identity.date := by
  obtain ⟨milliseconds, -, hdate⟩ := h.date
  split at hdate
  · omega
  · omega

/-! ## Rows after others -/

/-- Rows after an id and a date. -/
structure IncreasingFrom (format : MigrationHistoryFormat) (id : ℕ) (date : ℤ)
    (rows : List RawRow) (identities : List HistoryIdentity) : Prop where
  wellFormed : List.Forall₂ (WellFormed format) rows identities
  after : ∀ identity ∈ identities, id < identity.id ∧ date < identity.date
  later : identities.Pairwise Later

theorem increasingFrom_start {rows : List RawRow}
    {identities : List HistoryIdentity} :
    IncreasingFrom format 0 (-1) rows identities ↔
      Increasing format rows identities := by
  constructor
  · intro h
    exact ⟨h.wellFormed, fun identity hmem => (h.after identity hmem).1,
      h.later⟩
  · intro h
    refine ⟨h.wellFormed, fun identity hmem => ⟨h.positive identity hmem, ?_⟩,
      h.later⟩
    obtain ⟨row, hrow⟩ : ∃ row, WellFormed format row identity := by
      obtain ⟨i, rfl⟩ := List.mem_iff_get.mp hmem
      have hi : i < rows.length := by
        rw [h.wellFormed.length_eq]
        exact i.isLt
      exact ⟨_, h.wellFormed.get hi i.isLt⟩
    have := hrow.date_nonneg
    omega

theorem increasingFrom_cons {id : ℕ} {date : ℤ} {row : RawRow}
    {rows : List RawRow} {identities : List HistoryIdentity} :
    IncreasingFrom format id date (row :: rows) identities ↔
      ∃ identity rest, identities = identity :: rest ∧
        historyIdentity row format = some identity ∧
        (id < identity.id ∧ date < identity.date) ∧
        IncreasingFrom format identity.id identity.date rows rest := by
  constructor
  · intro h
    obtain ⟨identity, rest, hrow, hrows, rfl⟩ :=
      List.forall₂_cons_left_iff.mp h.wellFormed
    obtain ⟨hlater, hrest⟩ := List.pairwise_cons.mp h.later
    exact ⟨identity, rest, rfl, historyIdentity_eq_some.mpr hrow,
      h.after identity List.mem_cons_self, hrows, hlater, hrest⟩
  · rintro ⟨identity, rest, rfl, hrow, hafter, h⟩
    refine ⟨?_, ?_, List.pairwise_cons.mpr ⟨h.after, h.later⟩⟩
    · exact .cons (historyIdentity_eq_some.mp hrow) h.wellFormed
    · intro other hother
      rcases List.mem_cons.mp hother with rfl | hother
      · exact hafter
      · obtain ⟨hid, hdate⟩ := h.after other hother
        exact ⟨hafter.1.trans hid, hafter.2.trans hdate⟩

theorem increasingFrom_nil {id : ℕ} {date : ℤ}
    {identities : List HistoryIdentity} :
    IncreasingFrom format id date [] identities ↔ identities = [] := by
  constructor
  · intro h
    exact List.forall₂_nil_left_iff.mp h.wellFormed
  · rintro rfl
    exact ⟨.nil, fun _ h => absurd h List.not_mem_nil, .nil⟩

/-! ## Rows that follow the manifest -/

/-- The last entry of the manifest is not after a date. -/
def EndsBy (manifest : List MigrationIdentity) (date : ℤ) : Prop :=
  ∃ last timestamp, manifest.getLast? = some last ∧
    migrationTimestamp last.name = .ok timestamp ∧ timestamp ≤ date

theorem checkRows_beyond {index : ℕ} (hindex : manifest.length ≤ index)
    {rows : List RawRow} {id : ℕ} {date : ℤ} (hends : EndsBy manifest date) :
    checkRows manifest format index rows id date true = .error .diverged ∨
      checkRows manifest format index rows id date true = .ok true ∧
        ∃ identities, IncreasingFrom format id date rows identities := by
  induction rows generalizing index id date with
  | nil => exact .inr ⟨rfl, [], increasingFrom_nil.mpr rfl⟩
  | cons row rows ih =>
      rw [checkRows]
      split
      next => exact .inl rfl
      next identity hrow =>
        split
        next => exact .inl rfl
        next hafter =>
          obtain ⟨last, timestamp, hlast, htimestamp, hdate⟩ := hends
          rw [not_or, Nat.not_le, Int.not_le] at hafter
          have hlater : ¬ identity.date ≤ timestamp := by omega
          rw [List.getElem?_eq_none hindex, hlast]
          simp only [Option.map_some, htimestamp, if_neg hlater]
          have hnext : EndsBy manifest identity.date :=
            ⟨last, timestamp, hlast, htimestamp, by omega⟩
          rcases ih (Nat.le_succ_of_le hindex) hnext with
            hfails | ⟨hok, identities, hincreasing⟩
          · exact .inl hfails
          · exact .inr ⟨hok, identity :: identities, increasingFrom_cons.mpr
              ⟨identity, identities, rfl, hrow, hafter, hincreasing⟩⟩

theorem checkRows_beyond_ok {index : ℕ} (hindex : manifest.length ≤ index)
    {rows : List RawRow} {id : ℕ} {date : ℤ} (hends : EndsBy manifest date)
    {identities : List HistoryIdentity}
    (hincreasing : IncreasingFrom format id date rows identities) :
    checkRows manifest format index rows id date true = .ok true := by
  induction rows generalizing index id date identities with
  | nil => rfl
  | cons row rows ih =>
      obtain ⟨identity, rest, rfl, hrow, hafter, hrest⟩ :=
        increasingFrom_cons.mp hincreasing
      obtain ⟨last, timestamp, hlast, htimestamp, hdate⟩ := hends
      have hstay : ¬ (identity.id ≤ id ∨ identity.date ≤ date) := by omega
      have hlater : ¬ identity.date ≤ timestamp := by omega
      simp only [checkRows, hrow, if_neg hstay, List.getElem?_eq_none hindex,
        hlast, Option.map_some, htimestamp, if_neg hlater]
      exact ih (Nat.le_succ_of_le hindex)
        ⟨last, timestamp, hlast, htimestamp, by omega⟩ hrest

/-! ## Rows beside the manifest -/

def AppliedFrom (format : MigrationHistoryFormat) (id : ℕ) (date : ℤ)
    (entries : List MigrationIdentity) (rows : List RawRow) : Prop :=
  ∃ identities, IncreasingFrom format id date rows identities ∧
    List.Forall₂ (Matches format) identities (entries.take rows.length)

def NewerFrom (format : MigrationHistoryFormat) (id : ℕ) (date : ℤ)
    (entries : List MigrationIdentity) (rows : List RawRow) : Prop :=
  entries.length < rows.length ∧
    ∃ identities, IncreasingFrom format id date rows identities ∧
      List.Forall₂ (Matches format) (identities.take entries.length) entries

def ModifiedFrom (format : MigrationHistoryFormat) (id : ℕ) (date : ℤ)
    (entries : List MigrationIdentity) (rows : List RawRow) : Prop :=
  ∃ first row rest, rows = first ++ row :: rest ∧
    ∃ identities identity entry,
      IncreasingFrom format id date (first ++ [row])
        (identities ++ [identity]) ∧
      List.Forall₂ (Matches format) identities (entries.take first.length) ∧
      entries[first.length]? = some entry ∧
      SamePlace format identity entry ∧ identity.hash ≠ entry.sha256

variable {id : ℕ} {date : ℤ} {entry : MigrationIdentity}
  {entries : List MigrationIdentity} {row : RawRow} {rows : List RawRow}

theorem appliedFrom_cons :
    AppliedFrom format id date (entry :: entries) (row :: rows) ↔
      ∃ identity, historyIdentity row format = some identity ∧
        (id < identity.id ∧ date < identity.date) ∧
        Matches format identity entry ∧
        AppliedFrom format identity.id identity.date entries rows := by
  constructor
  · rintro ⟨identities, hincreasing, hmatches⟩
    obtain ⟨identity, rest, rfl, hrow, hafter, hrest⟩ :=
      increasingFrom_cons.mp hincreasing
    rw [List.length_cons, List.take_succ_cons, List.forall₂_cons] at hmatches
    exact ⟨identity, hrow, hafter, hmatches.1, rest, hrest, hmatches.2⟩
  · rintro ⟨identity, hrow, hafter, hmatch, rest, hrest, hmatches⟩
    refine ⟨identity :: rest, increasingFrom_cons.mpr
      ⟨identity, rest, rfl, hrow, hafter, hrest⟩, ?_⟩
    rw [List.length_cons, List.take_succ_cons, List.forall₂_cons]
    exact ⟨hmatch, hmatches⟩

theorem newerFrom_cons :
    NewerFrom format id date (entry :: entries) (row :: rows) ↔
      ∃ identity, historyIdentity row format = some identity ∧
        (id < identity.id ∧ date < identity.date) ∧
        Matches format identity entry ∧
        NewerFrom format identity.id identity.date entries rows := by
  constructor
  · rintro ⟨hlength, identities, hincreasing, hmatches⟩
    obtain ⟨identity, rest, rfl, hrow, hafter, hrest⟩ :=
      increasingFrom_cons.mp hincreasing
    rw [List.length_cons, List.take_succ_cons, List.forall₂_cons] at hmatches
    exact ⟨identity, hrow, hafter, hmatches.1, Nat.lt_of_succ_lt_succ hlength,
      rest, hrest, hmatches.2⟩
  · rintro ⟨identity, hrow, hafter, hmatch, hlength, rest, hrest, hmatches⟩
    refine ⟨Nat.succ_lt_succ hlength, identity :: rest,
      increasingFrom_cons.mpr ⟨identity, rest, rfl, hrow, hafter, hrest⟩, ?_⟩
    rw [List.length_cons, List.take_succ_cons, List.forall₂_cons]
    exact ⟨hmatch, hmatches⟩

theorem modifiedFrom_cons :
    ModifiedFrom format id date (entry :: entries) (row :: rows) ↔
      ∃ identity, historyIdentity row format = some identity ∧
        (id < identity.id ∧ date < identity.date) ∧
        SamePlace format identity entry ∧
        (identity.hash ≠ entry.sha256 ∨ identity.hash = entry.sha256 ∧
          ModifiedFrom format identity.id identity.date entries rows) := by
  constructor
  · rintro ⟨first, other, rest, hsplit, identities, identity, expected,
      hincreasing, hmatches, hentry, hplace, hhash⟩
    cases first with
    | nil =>
        -- The row itself is the one with another hash.
        obtain ⟨rfl, rfl⟩ := List.cons.inj hsplit
        obtain rfl := List.forall₂_nil_right_iff.mp hmatches
        obtain ⟨_, _, heq, hrow, hafter, -⟩ :=
          increasingFrom_cons.mp hincreasing
        obtain ⟨rfl, -⟩ := List.cons.inj heq
        obtain rfl := Option.some.inj hentry
        exact ⟨identity, hrow, hafter, hplace, .inl hhash⟩
    | cons head tail =>
        obtain ⟨rfl, rfl⟩ := List.cons.inj hsplit
        rw [List.length_cons, List.take_succ_cons] at hmatches
        obtain ⟨before, others, hmatch, hothers, rfl⟩ :=
          List.forall₂_cons_right_iff.mp hmatches
        obtain ⟨_, _, heq, hrow, hafter, hrest⟩ :=
          increasingFrom_cons.mp hincreasing
        obtain ⟨rfl, rfl⟩ := List.cons.inj heq
        exact ⟨before, hrow, hafter, hmatch.1, .inr ⟨hmatch.2, tail, other,
          rest, rfl, others, identity, expected, hrest, hothers, hentry,
          hplace, hhash⟩⟩
  · rintro ⟨identity, hrow, hafter, hplace, hhash | ⟨hhash, first, other, rest,
      rfl, identities, differing, expected, hincreasing, hmatches, hentry,
      hother, hdiffers⟩⟩
    · exact ⟨[], row, rows, rfl, [], identity, entry, increasingFrom_cons.mpr
        ⟨identity, [], rfl, hrow, hafter, increasingFrom_nil.mpr rfl⟩,
        .nil, rfl, hplace, hhash⟩
    · refine ⟨row :: first, other, rest, rfl, identity :: identities, differing,
        expected, increasingFrom_cons.mpr
          ⟨identity, _, rfl, hrow, hafter, hincreasing⟩, ?_, hentry, hother,
        hdiffers⟩
      rw [List.length_cons, List.take_succ_cons, List.forall₂_cons]
      exact ⟨⟨hplace, hhash⟩, hmatches⟩

theorem modifiedFrom_nil :
    ¬ ModifiedFrom format id date [] rows := by
  rintro ⟨first, row, rest, -, identities, identity, entry, -, -, hentry, -⟩
  cases hentry

theorem not_modifiedFrom_empty :
    ¬ ModifiedFrom format id date entries [] := by
  rintro ⟨first, row, rest, hsplit, -⟩
  exact List.append_ne_nil_of_right_ne_nil _ (List.cons_ne_nil _ _)
    hsplit.symm

theorem appliedFrom_empty : AppliedFrom format id date entries [] :=
  ⟨[], increasingFrom_nil.mpr rfl, .nil⟩

theorem exists_identity
    (h : AppliedFrom format id date entries (row :: rows) ∨
      NewerFrom format id date entries (row :: rows) ∨
      ModifiedFrom format id date entries (row :: rows)) :
    ∃ identity, historyIdentity row format = some identity ∧
      id < identity.id ∧ date < identity.date := by
  rcases h with ⟨identities, h, -⟩ | ⟨-, identities, h, -⟩ | h
  · obtain ⟨identity, -, -, hrow, hafter, -⟩ := increasingFrom_cons.mp h
    exact ⟨identity, hrow, hafter⟩
  · obtain ⟨identity, -, -, hrow, hafter, -⟩ := increasingFrom_cons.mp h
    exact ⟨identity, hrow, hafter⟩
  · cases entries with
    | nil => exact absurd h modifiedFrom_nil
    | cons entry entries =>
        obtain ⟨identity, hrow, hafter, -⟩ := modifiedFrom_cons.mp h
        exact ⟨identity, hrow, hafter⟩

/-! ## The loop -/

/-- Which results of the loop mean what. -/
structure Decides (result : Except MigrationStatus Bool)
    (applied newer modified : Prop) : Prop where
  applied : result = .ok false ↔ applied
  newer : result = .ok true ↔ newer
  modified : result = .error .modified ↔ modified
  other : ∀ status, result = .error status →
    status = .modified ∨ status = .diverged

theorem Decides.diverged {applied newer modified : Prop}
    (h : ¬ (applied ∨ newer ∨ modified)) :
    Decides (.error .diverged) applied newer modified := by
  rw [not_or, not_or] at h
  constructor
  · exact iff_of_false (fun heq => by cases heq) h.1
  · exact iff_of_false (fun heq => by cases heq) h.2.1
  · exact iff_of_false (fun heq => by cases heq) h.2.2
  · intro status hstatus
    exact .inr (Except.error.inj hstatus).symm

/-- One more row, that of its entry. -/
theorem Decides.cons {result : Except MigrationStatus Bool}
    {identity : HistoryIdentity}
    (h : Decides result
      (AppliedFrom format identity.id identity.date entries rows)
      (NewerFrom format identity.id identity.date entries rows)
      (ModifiedFrom format identity.id identity.date entries rows))
    (hrow : historyIdentity row format = some identity)
    (hafter : id < identity.id ∧ date < identity.date)
    (hmatch : Matches format identity entry) :
    Decides result
      (AppliedFrom format id date (entry :: entries) (row :: rows))
      (NewerFrom format id date (entry :: entries) (row :: rows))
      (ModifiedFrom format id date (entry :: entries) (row :: rows)) where
  applied := by
    rw [h.applied, appliedFrom_cons]
    simp only [hrow, Option.some.injEq, exists_eq_left', hafter, hmatch,
      and_self, true_and]
  newer := by
    rw [h.newer, newerFrom_cons]
    simp only [hrow, Option.some.injEq, exists_eq_left', hafter, hmatch,
      and_self, true_and]
  modified := by
    rw [h.modified, modifiedFrom_cons]
    simp only [hrow, Option.some.injEq, exists_eq_left', hafter, hmatch.1,
      hmatch.2, and_self, true_and, ne_eq, not_true_eq_false, false_or]
  other := h.other

/-- The first row that follows the whole manifest. -/
theorem decides_beyond {identity : HistoryIdentity}
    (hrow : historyIdentity row format = some identity)
    (hafter : id < identity.id ∧ date < identity.date)
    (hends : EndsBy manifest date) :
    Decides
      (match manifest[manifest.length]? with
        | none =>
            match manifest.getLast?.map fun last =>
                migrationTimestamp last.name with
            | some (.ok timestamp) =>
                if identity.date ≤ timestamp then .error .diverged
                else
                  checkRows manifest format (manifest.length + 1) rows
                    identity.id identity.date true
            | _ => .error .diverged
        | some expected =>
            if !samePlace format identity expected then .error .diverged
            else if identity.hash ≠ expected.sha256 then .error .modified
            else
              checkRows manifest format (manifest.length + 1) rows identity.id
                identity.date false)
      (AppliedFrom format id date [] (row :: rows))
      (NewerFrom format id date [] (row :: rows))
      (ModifiedFrom format id date [] (row :: rows)) := by
  obtain ⟨last, timestamp, hlast, htimestamp, hdate⟩ := hends
  have hlater : ¬ identity.date ≤ timestamp := by omega
  have hnext : EndsBy manifest identity.date :=
    ⟨last, timestamp, hlast, htimestamp, by omega⟩
  rw [List.getElem?_eq_none (Nat.le_refl _), hlast]
  simp only [Option.map_some, htimestamp, if_neg hlater]
  have hnone : ¬ AppliedFrom format id date [] (row :: rows) := by
    rintro ⟨identities, hincreasing, hmatches⟩
    obtain ⟨_, _, rfl, -⟩ := increasingFrom_cons.mp hincreasing
    cases hmatches
  have hnewer : NewerFrom format id date [] (row :: rows) ↔
      ∃ rest, IncreasingFrom format identity.id identity.date rows rest := by
    constructor
    · rintro ⟨-, identities, hincreasing, -⟩
      obtain ⟨other, rest, -, hother, -, hrest⟩ :=
        increasingFrom_cons.mp hincreasing
      rw [hrow] at hother
      obtain rfl := Option.some.inj hother
      exact ⟨rest, hrest⟩
    · rintro ⟨rest, hrest⟩
      exact ⟨Nat.succ_pos _, identity :: rest, increasingFrom_cons.mpr
        ⟨identity, rest, rfl, hrow, hafter, hrest⟩, .nil⟩
  rcases checkRows_beyond (Nat.le_succ _) hnext with
    hfails | ⟨hok, hidentities⟩
  · rw [hfails]
    apply Decides.diverged
    rintro (h | h | h)
    · exact hnone h
    · obtain ⟨rest, hrest⟩ := hnewer.mp h
      have hok := checkRows_beyond_ok (Nat.le_succ _) hnext hrest
      rw [hfails] at hok
      cases hok
    · exact modifiedFrom_nil h
  · rw [hok]
    constructor
    · apply iff_of_false _ hnone
      intro h
      cases h
    · exact iff_of_true rfl (hnewer.mpr hidentities)
    · apply iff_of_false _ modifiedFrom_nil
      intro h
      cases h
    · intro status hstatus
      cases hstatus

/-- After a part of the manifest, the loop compares the rows with the rest. -/
theorem checkRows_from {done : List MigrationIdentity}
    (hmanifest : manifest = done ++ entries)
    (hends : entries = [] → EndsBy manifest date) :
    Decides (checkRows manifest format done.length rows id date false)
      (AppliedFrom format id date entries rows)
      (NewerFrom format id date entries rows)
      (ModifiedFrom format id date entries rows) := by
  induction rows generalizing done entries id date with
  | nil =>
      constructor
      · exact iff_of_true rfl appliedFrom_empty
      · apply iff_of_false
        · intro h
          cases h
        · rintro ⟨hlength, -⟩
          exact Nat.not_lt_zero _ hlength
      · apply iff_of_false
        · intro h
          cases h
        · exact not_modifiedFrom_empty
      · intro status h
        cases h
  | cons row rows ih =>
      rw [checkRows]
      split
      next hrow =>
        apply Decides.diverged
        intro h
        obtain ⟨identity, hidentity, -⟩ := exists_identity h
        rw [hrow] at hidentity
        cases hidentity
      next identity hrow =>
        have hsame : ∀ {other : HistoryIdentity},
            historyIdentity row format = some other → other = identity := by
          intro other hother
          rw [hrow] at hother
          exact (Option.some.inj hother).symm
        split
        next hstays =>
          apply Decides.diverged
          intro h
          obtain ⟨other, hother, hafter⟩ := exists_identity h
          obtain rfl := hsame hother
          omega
        next hafter =>
          rw [not_or, Nat.not_le, Int.not_le] at hafter
          cases entries with
          | nil =>
              obtain rfl : manifest = done := by
                rw [hmanifest, List.append_nil]
              exact decides_beyond hrow hafter (hends rfl)
          | cons entry entries =>
              have hentry : manifest[done.length]? = some entry := by
                rw [hmanifest, List.getElem?_append_right (Nat.le_refl _),
                  Nat.sub_self]
                rfl
              rw [hentry]
              dsimp only
              split
              next hplace =>
                rw [Bool.not_eq_true', ← Bool.not_eq_true, samePlace_iff]
                  at hplace
                apply Decides.diverged
                rintro (h | h | h)
                · obtain ⟨other, hother, -, hmatch, -⟩ := appliedFrom_cons.mp h
                  exact hplace (hsame hother ▸ hmatch.1)
                · obtain ⟨other, hother, -, hmatch, -⟩ := newerFrom_cons.mp h
                  exact hplace (hsame hother ▸ hmatch.1)
                · obtain ⟨other, hother, -, hother', -⟩ :=
                    modifiedFrom_cons.mp h
                  exact hplace (hsame hother ▸ hother')
              next hplace =>
                rw [Bool.not_eq_true', Bool.not_eq_false, samePlace_iff]
                  at hplace
                split
                next hhash =>
                  constructor
                  · apply iff_of_false (fun heq => by cases heq)
                    intro h
                    obtain ⟨other, hother, -, hmatch, -⟩ := appliedFrom_cons.mp h
                    exact hhash (hsame hother ▸ hmatch.2)
                  · apply iff_of_false (fun heq => by cases heq)
                    intro h
                    obtain ⟨other, hother, -, hmatch, -⟩ := newerFrom_cons.mp h
                    exact hhash (hsame hother ▸ hmatch.2)
                  · apply iff_of_true rfl
                    exact modifiedFrom_cons.mpr
                      ⟨identity, hrow, hafter, hplace, .inl hhash⟩
                  · intro status hstatus
                    exact .inl (Except.error.inj hstatus).symm
                next hhash =>
                  rw [not_not] at hhash
                  have hnext : entries = [] → EndsBy manifest identity.date := by
                    rintro rfl
                    refine ⟨entry, identity.date, ?_, hplace.1, Int.le_refl _⟩
                    rw [hmanifest, List.getLast?_append]
                    rfl
                  have hsplit : manifest = (done ++ [entry]) ++ entries := by
                    rw [hmanifest, List.append_assoc]
                    rfl
                  have hrest := @ih identity.id identity.date _ _ hsplit hnext
                  rw [List.length_append, List.length_singleton] at hrest
                  exact hrest.cons hrow hafter ⟨hplace, hhash⟩

end Rows

/-! ## The classification -/

theorem parseEntries_eq_ok {entries parsed : List MigrationIdentity}
    {previous : Option ℤ} (h : parseEntries previous entries = .ok parsed) :
    parsed = entries := by
  induction entries generalizing previous parsed with
  | nil => exact (Except.ok.inj h).symm
  | cons entry entries ih =>
      rw [parseEntries] at h
      split at h
      · cases htimestamp : migrationTimestamp entry.name with
        | error message =>
            rw [htimestamp] at h
            cases h
        | ok timestamp =>
            rw [htimestamp] at h
            change (if _ then _ else _) = _ at h
            split at h
            · cases h
            · cases hrest : parseEntries (some timestamp) entries with
              | error message =>
                  rw [hrest] at h
                  cases h
              | ok rest =>
                  rw [hrest] at h
                  obtain rfl := Except.ok.inj h
                  rw [ih hrest]
      · cases h

theorem parseMigrationManifest_eq_ok {manifest parsed : MigrationManifest}
    (h : parseMigrationManifest manifest = .ok parsed) : parsed = manifest := by
  unfold parseMigrationManifest at h
  cases hentries : parseEntries none manifest.migrations with
  | error message =>
      rw [hentries] at h
      cases h
  | ok entries =>
      rw [hentries] at h
      obtain rfl := Except.ok.inj h
      rw [parseEntries_eq_ok hentries]

/-- What the state of a history says. -/
structure Classified (manifest : List MigrationIdentity)
    (format : MigrationHistoryFormat) (rows : List RawRow)
    (state : MigrationState) : Prop where
  ofFormat : state.format = some format
  upgradeRequired : state.status = .upgradeRequired ↔
    Applied manifest format rows ∧ format = .legacy
  uninitialized : state.status = .uninitialized ↔
    Applied manifest format rows ∧ format = .current ∧ rows = []
  pending : state.status = .pending ↔
    Applied manifest format rows ∧ format = .current ∧ rows ≠ [] ∧
      rows.length < manifest.length
  ready : state.status = .ready ↔
    Applied manifest format rows ∧ format = .current ∧ rows ≠ [] ∧
      rows.length = manifest.length
  newer : state.status = .newer ↔ Newer manifest format rows
  modified : state.status = .modified ↔ Modified manifest format rows
  diverged : state.status = .diverged ↔ ¬ Applied manifest format rows ∧
    ¬ Newer manifest format rows ∧ ¬ Modified manifest format rows
  /-- The applied entries and the pending ones are the manifest. -/
  listed : Applied manifest format rows → state.applied = rows.length ∧
    state.applied ≤ manifest.length ∧
    manifest.take state.applied ++ state.pending = manifest
  unlisted : ¬ Applied manifest format rows →
    state.applied = 0 ∧ state.pending = []

section Classification

variable {format : MigrationHistoryFormat} {manifest : List MigrationIdentity}
  {rows : List RawRow}

theorem Applied.length_le (h : Applied manifest format rows) :
    rows.length ≤ manifest.length := by
  obtain ⟨identities, hincreasing, hmatches⟩ := h
  have hlength := hincreasing.wellFormed.length_eq
  have htake := hmatches.length_eq
  rw [List.length_take] at htake
  omega

theorem appliedFrom_start :
    AppliedFrom format 0 (-1) manifest rows ↔ Applied manifest format rows := by
  unfold AppliedFrom Applied
  simp only [increasingFrom_start]

theorem newerFrom_start :
    manifest ≠ [] ∧ NewerFrom format 0 (-1) manifest rows ↔
      Newer manifest format rows := by
  unfold NewerFrom Newer
  simp only [increasingFrom_start]

theorem modifiedFrom_start :
    ModifiedFrom format 0 (-1) manifest rows ↔
      Modified manifest format rows := by
  unfold ModifiedFrom Modified
  simp only [increasingFrom_start]

/-- Without a manifest, every row diverges. -/
theorem checkRows_of_empty :
    Decides (checkRows [] format 0 rows 0 (-1) false)
      (Applied [] format rows) (Newer [] format rows)
      (Modified [] format rows) := by
  have hnewer : ¬ Newer [] format rows := fun h => h.1 rfl
  have hmodified : ¬ Modified [] format rows := by
    rw [← modifiedFrom_start]
    exact modifiedFrom_nil
  cases rows with
  | nil =>
      refine ⟨iff_of_true rfl (appliedFrom_start.mp appliedFrom_empty),
        iff_of_false ?_ hnewer, iff_of_false ?_ hmodified, ?_⟩
      · intro h
        cases h
      · intro h
        cases h
      · intro status h
        cases h
  | cons row rows =>
      have hdiverged : checkRows [] format 0 (row :: rows) 0 (-1) false =
          .error .diverged := by
        rw [checkRows]
        split
        next => rfl
        next =>
          split
          next => rfl
          next => rfl
      rw [hdiverged]
      apply Decides.diverged
      rintro (h | h | h)
      · exact Nat.not_succ_le_zero _ h.length_le
      · exact hnewer h
      · exact hmodified h

theorem checkRows_decides :
    Decides (checkRows manifest format 0 rows 0 (-1) false)
      (Applied manifest format rows) (Newer manifest format rows)
      (Modified manifest format rows) := by
  by_cases hempty : manifest = []
  · subst hempty
    exact checkRows_of_empty
  · have hsplit : manifest = [] ++ manifest := rfl
    have h : Decides (checkRows manifest format 0 rows 0 (-1) false)
        (AppliedFrom format 0 (-1) manifest rows)
        (NewerFrom format 0 (-1) manifest rows)
        (ModifiedFrom format 0 (-1) manifest rows) :=
      checkRows_from hsplit fun hnil => absurd hnil hempty
    rw [← appliedFrom_start, ← newerFrom_start, ← modifiedFrom_start]
    refine ⟨h.applied, ?_, h.modified, h.other⟩
    rw [and_iff_right hempty]
    exact h.newer

theorem appliedStatus_mem (format : MigrationHistoryFormat)
    (rows migrations : ℕ) :
    appliedStatus format rows migrations ∈
      [.upgradeRequired, .uninitialized, .pending, .ready] := by
  unfold appliedStatus
  split
  · simp
  · split
    · simp
    · split <;> simp

section Status

variable {length migrations : ℕ}

theorem appliedStatus_eq_upgradeRequired :
    appliedStatus format length migrations = .upgradeRequired ↔
      format = .legacy := by
  rw [appliedStatus]
  cases format with
  | legacy => simp
  | current =>
      rw [if_neg (by simp)]
      split_ifs
      all_goals simp

theorem appliedStatus_eq_uninitialized :
    appliedStatus format length migrations = .uninitialized ↔
      format = .current ∧ length = 0 := by
  rw [appliedStatus]
  cases format with
  | legacy => simp
  | current =>
      rw [if_neg (by simp)]
      by_cases hzero : length = 0
      · simp [hzero]
      · rw [if_neg hzero]
        split_ifs
        all_goals simp [hzero]

theorem appliedStatus_eq_pending (h : length ≤ migrations) :
    appliedStatus format length migrations = .pending ↔
      format = .current ∧ length ≠ 0 ∧ length < migrations := by
  rw [appliedStatus]
  cases format with
  | legacy => simp
  | current =>
      rw [if_neg (by simp)]
      by_cases hzero : length = 0
      · simp [hzero]
      · by_cases hwhole : length = migrations
        · rw [if_neg hzero, if_pos hwhole]
          simp [hwhole]
        · simp [hzero, hwhole, Nat.lt_of_le_of_ne h hwhole]

theorem appliedStatus_eq_ready :
    appliedStatus format length migrations = .ready ↔
      format = .current ∧ length ≠ 0 ∧ length = migrations := by
  rw [appliedStatus]
  cases format with
  | legacy => simp
  | current =>
      rw [if_neg (by simp)]
      by_cases hzero : length = 0
      · simp [hzero]
      · by_cases hwhole : length = migrations
        · rw [if_neg hzero, if_pos hwhole]
          exact iff_of_true rfl ⟨rfl, hzero, hwhole⟩
        · simp [hzero, hwhole]

end Status

/-- The state of an applied prefix. -/
theorem Applied.classified (h : Applied manifest format rows)
    (hnewer : ¬ Newer manifest format rows)
    (hmodified : ¬ Modified manifest format rows) :
    Classified manifest format rows
      (historyState manifest format rows.length (.ok false)) := by
  have hlength := h.length_le
  have hrows : rows = [] ↔ rows.length = 0 := List.length_eq_zero_iff.symm
  have hnot : ∀ {status : MigrationStatus}, status ∉
      [MigrationStatus.upgradeRequired, .uninitialized, .pending, .ready] →
      appliedStatus format rows.length manifest.length ≠ status := by
    rintro _ hmem rfl
    exact hmem (appliedStatus_mem _ _ _)
  constructor
  · rfl
  · rw [and_iff_right h]
    exact appliedStatus_eq_upgradeRequired
  · rw [and_iff_right h, hrows]
    exact appliedStatus_eq_uninitialized
  · rw [and_iff_right h, ne_eq, hrows]
    exact appliedStatus_eq_pending hlength
  · rw [and_iff_right h, ne_eq, hrows]
    exact appliedStatus_eq_ready
  · exact iff_of_false (hnot (by simp)) hnewer
  · exact iff_of_false (hnot (by simp)) hmodified
  · exact iff_of_false (hnot (by simp)) fun hother => hother.1 h
  · exact fun _ => ⟨rfl, hlength, List.take_append_drop _ _⟩
  · exact fun hother => absurd h hother

/-- The state of any other history. -/
theorem classified_incompatible (h : ¬ Applied manifest format rows)
    {status : MigrationStatus}
    (hstatus : status ∈ [.newer, .modified, .diverged])
    (hnewer : status = .newer ↔ Newer manifest format rows)
    (hmodified : status = .modified ↔ Modified manifest format rows) :
    Classified manifest format rows (incompatible format status) := by
  have hnot : ∀ other ∈ [MigrationStatus.upgradeRequired, .uninitialized,
      .pending, .ready], (incompatible format status).status ≠ other := by
    rintro other hother rfl
    revert hstatus hother
    cases status <;> simp [incompatible]
  constructor
  · rfl
  · exact iff_of_false (hnot _ (by simp)) fun hand => h hand.1
  · exact iff_of_false (hnot _ (by simp)) fun hand => h hand.1
  · exact iff_of_false (hnot _ (by simp)) fun hand => h hand.1
  · exact iff_of_false (hnot _ (by simp)) fun hand => h hand.1
  · exact hnewer
  · exact hmodified
  · rw [and_iff_right h, ← hnewer, ← hmodified]
    revert hstatus
    cases status <;> simp [incompatible]
  · exact fun happlied => absurd happlied h
  · exact fun _ => ⟨rfl, rfl⟩

/-- The classification, by what the loop over the rows decides. -/
theorem Decides.classified {result : Except MigrationStatus Bool}
    (h : Decides result (Applied manifest format rows)
      (Newer manifest format rows) (Modified manifest format rows)) :
    Classified manifest format rows
      (historyState manifest format rows.length result) := by
  obtain ⟨happlied, hnewer, hmodified, hother⟩ := h
  rcases result with status | newer
  · have hnot : ¬ Applied manifest format rows :=
      fun h => by cases happlied.mpr h
    have hnotNewer : ¬ Newer manifest format rows :=
      fun h => by cases hnewer.mpr h
    rw [Except.error.injEq] at hmodified
    rcases hother status rfl with rfl | rfl
    · exact classified_incompatible hnot (by simp)
        (iff_of_false (by simp) hnotNewer) hmodified
    · exact classified_incompatible hnot (by simp)
        (iff_of_false (by simp) hnotNewer) hmodified
  · have hnotModified : ¬ Modified manifest format rows :=
      fun h => by cases hmodified.mpr h
    cases newer with
    | false =>
        exact (happlied.mp rfl).classified (fun h => by cases hnewer.mpr h)
          hnotModified
    | true =>
        exact classified_incompatible (fun h => by cases happlied.mpr h)
          (by simp) (iff_of_true rfl (hnewer.mp rfl))
          (iff_of_false (by simp) hnotModified)

end Classification

/-- A valid manifest classifies every history by its rows. -/
theorem classifyMigrationHistory_classified
    {manifest parsed : MigrationManifest}
    (hvalid : parseMigrationManifest manifest = .ok parsed)
    (rows : List RawRow) (format : MigrationHistoryFormat) :
    ∃ state, classifyMigrationHistory manifest rows format = .ok state ∧
      Classified manifest.migrations format rows state := by
  obtain rfl := parseMigrationManifest_eq_ok hvalid
  refine ⟨historyState parsed.migrations format rows.length
    (checkRows parsed.migrations format 0 rows 0 (-1) false), ?_,
    checkRows_decides.classified⟩
  unfold classifyMigrationHistory
  rw [hvalid]
  rfl

/-! ## Two migrations -/

def initHash : JsString := List.replicate 64 (unit 'a')

def initEntry : MigrationIdentity := ⟨js "20240101000000_init", initHash⟩

def indexEntry : MigrationIdentity :=
  ⟨js "20240102000000_index", List.replicate 64 (unit 'b')⟩

def twoMigrations : MigrationManifest where
  migrations := [initEntry, indexEntry]

def initRow (id : ℤ) : RawRow where
  id := .bigint id
  createdAt := .bigint 1704067200000
  hash := .string initHash
  name := .string (js "20240101000000_init")
  appliedAt := .other

/-- The first migration is applied and the second one is pending. -/
theorem classifyMigrationHistory_classified_pending :
    classifyMigrationHistory twoMigrations [initRow 1] .current =
        .ok ⟨.pending, some .current, 1, [indexEntry]⟩ ∧
      Applied twoMigrations.migrations .current [initRow 1] := by
  have hvalid : parseMigrationManifest twoMigrations = .ok twoMigrations := by
    rfl
  have hpending : classifyMigrationHistory twoMigrations [initRow 1] .current =
      .ok ⟨.pending, some .current, 1, [indexEntry]⟩ := by
    rfl
  obtain ⟨state, hstate, hclassified⟩ :=
    classifyMigrationHistory_classified hvalid [initRow 1] .current
  rw [hpending] at hstate
  obtain rfl := Except.ok.inj hstate
  exact ⟨hpending, (hclassified.pending.mp rfl).1⟩

/-- A row with the id 0 and the place and hash of its entry, and a row after
an empty manifest: both histories diverge. -/
theorem classifyMigrationHistory_diverged :
    (∃ identity, WellFormed .current (initRow 0) identity ∧
        List.Forall₂ (Matches .current) [identity]
          (twoMigrations.migrations.take 1) ∧
        classifyMigrationHistory twoMigrations [initRow 0] .current =
          .ok (incompatible .current .diverged)) ∧
      (∃ identity, Increasing .current [initRow 1] [identity]) ∧
      classifyMigrationHistory ⟨[]⟩ [initRow 1] .current =
        .ok (incompatible .current .diverged) := by
  have hwellFormed : ∀ {id : ℤ} {identity : HistoryIdentity},
      historyIdentity (initRow id) .current = some identity →
        WellFormed .current (initRow id) identity :=
    historyIdentity_eq_some.mp
  refine ⟨⟨⟨0, 1704067200000, initHash,
    .string (js "20240101000000_init")⟩, hwellFormed rfl, ?_, by rfl⟩, ?_,
    by rfl⟩
  · exact .cons ⟨⟨by rfl, fun _ => rfl⟩, rfl⟩ .nil
  · exact ⟨⟨1, 1704067200000, initHash, .string (js "20240101000000_init")⟩,
      .cons (hwellFormed rfl) .nil, by simp, List.pairwise_singleton _ _⟩

end DrFed.Migrations
