import Mathlib.Data.List.Basic
import Mathlib.Data.List.Sort

/-!
# JavaScript strings

A JavaScript string is a list of UTF-16 code units, lone surrogates included.
The regular expressions of the source are written out as functions on such
lists.  With the flags `iu`, the class `[a-z]` also matches the two code
points that fold to an ASCII letter, `ſ` (U+017F) and the Kelvin sign
(U+212A).
-/

namespace DrFed

abbrev JsString := List UInt16

/-- The code unit of an ASCII character. -/
def unit (c : Char) : UInt16 := c.toNat.toUInt16

/-- An ASCII literal as a JavaScript string. -/
def js (text : String) : JsString := text.toList.map unit

/-- A JavaScript string in a message. -/
def showJs (text : JsString) : String :=
  String.ofList (text.map fun c => Char.ofNat c.toNat)

/-! ## Splitting at the first colon -/

/-- The parts of a string before and after its first colon. -/
def cutColon : JsString → Option (JsString × JsString)
  | [] => none
  | c :: rest =>
      if c = unit ':' then some ([], rest)
      else (cutColon rest).map fun parts => (c :: parts.1, parts.2)

theorem cutColon_eq_some {value name suffix : JsString}
    (h : cutColon value = some (name, suffix)) :
    value = name ++ unit ':' :: suffix ∧ unit ':' ∉ name := by
  induction value generalizing name with
  | nil => simp [cutColon] at h
  | cons c rest ih =>
      rw [cutColon] at h
      split at h
      next hc =>
        obtain ⟨rfl, rfl⟩ := Prod.mk.inj (Option.some.inj h)
        simp [hc]
      next hc =>
        obtain ⟨⟨name', suffix'⟩, hcut, heq⟩ := Option.map_eq_some_iff.mp h
        obtain ⟨rfl, rfl⟩ := Prod.mk.inj heq
        obtain ⟨hrest, hname⟩ := ih hcut
        refine ⟨by simp [hrest], ?_⟩
        intro hmem
        rcases List.mem_cons.mp hmem with heq | hmem
        · exact hc heq.symm
        · exact hname hmem

theorem cutColon_append {name : JsString} (hname : unit ':' ∉ name)
    (suffix : JsString) :
    cutColon (name ++ unit ':' :: suffix) = some (name, suffix) := by
  induction name with
  | nil => simp [cutColon]
  | cons c rest ih =>
      rw [List.mem_cons, not_or] at hname
      have hc : c ≠ unit ':' := fun h => hname.1 h.symm
      simp [cutColon, hc, ih hname.2]

theorem cutColon_eq_none_iff {value : JsString} :
    cutColon value = none ↔ unit ':' ∉ value := by
  induction value with
  | nil => simp [cutColon]
  | cons c rest ih =>
      by_cases hc : c = unit ':'
      · simp [cutColon, hc]
      · have hne : unit ':' ≠ c := fun h => hc h.symm
        simp [cutColon, hc, ih, hne]

/-! ## Character classes -/

/-- `[a-z]` under the flags `iu`. -/
def isLetter (c : UInt16) : Bool :=
  (unit 'a' ≤ c && c ≤ unit 'z') || (unit 'A' ≤ c && c ≤ unit 'Z') ||
    c == 0x17f || c == 0x212a

def isDigit (c : UInt16) : Bool :=
  unit '0' ≤ c && c ≤ unit '9'

def isHexDigit (c : UInt16) : Bool :=
  isDigit c || (unit 'a' ≤ c && c ≤ unit 'f') ||
    (unit 'A' ≤ c && c ≤ unit 'F')

/-- `[a-z\d+.-]` under the flags `iu`. -/
def isSchemeUnit (c : UInt16) : Bool :=
  isLetter c || isDigit c || (js "+.-").contains c

/-- `/^[a-z][a-z\d+.-]*:/iu` -/
def hasScheme : JsString → Bool
  | [] => false
  | c :: rest =>
      isLetter c && (rest.dropWhile isSchemeUnit).head? == some (unit ':')

def isControlOrSpace (c : UInt16) : Bool :=
  c ≤ 0x20 || c == 0x7f

/-- The printable ASCII characters that no IRI contains. -/
def isIriDelimiter (c : UInt16) : Bool :=
  [unit '<', unit '>', 0x22, 0x7b, 0x7d, unit '|', 0x5c, unit '^',
    0x60].contains c

/-- `/%(?![\da-f]{2})/iu` -/
def hasBarePercent : JsString → Bool
  | [] => false
  | c :: rest =>
      (c == unit '%' && !(rest.length ≥ 2 && (rest.take 2).all isHexDigit)) ||
        hasBarePercent rest

/-- `String.prototype.isWellFormed`: no lone surrogate. -/
def isWellFormed : JsString → Bool
  | [] => true
  | [u] => !(0xd800 ≤ u && u ≤ 0xdfff)
  | u :: v :: rest =>
      if 0xd800 ≤ u && u ≤ 0xdbff then
        (0xdc00 ≤ v && v ≤ 0xdfff) && isWellFormed rest
      else !(0xdc00 ≤ u && u ≤ 0xdfff) && isWellFormed (v :: rest)

/-! ## Whole-string patterns -/

/-- `/^[a-z]{1,8}(?:-[a-z\d]{1,8})*$/iu` -/
def isLanguageTag (value : JsString) : Bool :=
  match value.splitOn (unit '-') with
  | [] => false
  | first :: rest =>
      first.all isLetter && 1 ≤ first.length && first.length ≤ 8 &&
        rest.all fun part =>
          part.all (fun c => isLetter c || isDigit c) &&
            1 ≤ part.length && part.length ≤ 8

/-- The alternatives of `hasMarkup` after a `<`. -/
def opensMarkup : JsString → Bool
  | [] => false
  | c :: rest =>
      (isLetter c && rest.contains (unit '>')) ||
        (c == unit '/' &&
          match rest with
          | [] => false
          | d :: tail => isLetter d && tail.contains (unit '>')) ||
        (js "!--").isPrefixOf (c :: rest)

/-- `/<(?:[a-z][^>]*>|\/[a-z][^>]*>|!--)/iu` -/
def hasMarkup : JsString → Bool
  | [] => false
  | c :: rest => (c == unit '<' && opensMarkup rest) || hasMarkup rest

/-- `/^[a-z][a-z\d.-]*$/iu` -/
def isRelationToken : JsString → Bool
  | [] => false
  | c :: rest =>
      isLetter c &&
        rest.all fun d => isLetter d || isDigit d || (js ".-").contains d

/-- The groups of the date-time pattern of ActivityStreams. -/
structure DateTimeParts where
  minute : JsString
  second : Option JsString
  fraction : Option JsString
  offset : JsString

/-- Read a fixed template, in which `0` stands for any digit. -/
def readTemplate : List Char → JsString → Option (JsString × JsString)
  | [], rest => some ([], rest)
  | _ :: _, [] => none
  | t :: template, c :: rest =>
      if (if t = '0' then isDigit c else c == unit t) then
        (readTemplate template rest).map fun parts => (c :: parts.1, parts.2)
      else none

/-- `(?<fraction>\.\d+)?` -/
def readFraction (value : JsString) : Option JsString × JsString :=
  match value with
  | [] => (none, value)
  | c :: rest =>
      let digits := rest.takeWhile isDigit
      if c = unit '.' ∧ digits ≠ [] then
        (some (c :: digits), rest.dropWhile isDigit)
      else (none, value)

/-- `(?<offset>Z|[+-]\d{2}:\d{2})$` -/
def isOffset (value : JsString) : Bool :=
  value == js "Z" ||
    ["+00:00", "-00:00"].any fun template =>
      match readTemplate template.toList value with
      | some (_, rest) => rest.isEmpty
      | none => false

def matchDateTime (value : JsString) : Option DateTimeParts :=
  match readTemplate "0000-00-00T00:00".toList value with
  | none => none
  | some (minute, rest) =>
      let (second, rest) :=
        match readTemplate ":00".toList rest with
        | some (second, rest) => (some second, rest)
        | none => (none, rest)
      let (fraction, offset) := readFraction rest
      if isOffset offset then some ⟨minute, second, fraction, offset⟩
      else none

/-! ## Property keys -/

/-- The decimal spelling of an array index. -/
def natText (n : ℕ) : JsString := (Nat.toDigits 10 n).map unit

/-- The number an integer-like property key spells: a canonical decimal
below `2^32 - 1`. -/
def arrayIndex? (key : JsString) : Option ℕ :=
  if key.all isDigit && (1 ≤ key.length && key.length ≤ 10) then
    let n := key.foldl (fun acc c => 10 * acc + (c.toNat - 48)) 0
    if natText n = key ∧ n < 4294967295 then some n else none
  else none

/-- The code-unit order of `Array.prototype.sort`. -/
def keyLe (left right : JsString) : Prop :=
  right.lex left (fun a b => a.toNat < b.toNat) = false

instance : DecidableRel keyLe := fun left right =>
  inferInstanceAs (Decidable
    (right.lex left (fun a b => a.toNat < b.toNat) = false))

/-- Entries sorted by key, as `Object.keys(…).sort()` orders them. -/
def sortByKey {α : Type} (entries : List (JsString × α)) :
    List (JsString × α) :=
  entries.insertionSort fun a b => keyLe a.1 b.1

/-- Entries in the order in which `Object.keys` lists the properties of a
record they were assigned to one after the other: integer-like keys first, in
numeric order. -/
def propertyOrder {α : Type} (entries : List (JsString × α)) :
    List (JsString × α) :=
  ((entries.filter fun e => (arrayIndex? e.1).isSome).insertionSort
      fun a b => (arrayIndex? a.1).getD 0 ≤ (arrayIndex? b.1).getD 0) ++
    entries.filter fun e => (arrayIndex? e.1).isNone

theorem sortByKey_perm {α : Type} (entries : List (JsString × α)) :
    (sortByKey entries).Perm entries :=
  List.perm_insertionSort _ _

theorem propertyOrder_perm {α : Type} (entries : List (JsString × α)) :
    (propertyOrder entries).Perm entries := by
  have hsplit := List.filter_append_perm
    (fun e : JsString × α => (arrayIndex? e.1).isSome) entries
  refine ((List.perm_insertionSort _ _).append_right _).trans ?_
  simpa [propertyOrder] using hsplit

end DrFed
