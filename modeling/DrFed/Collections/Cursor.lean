import DrFed.Js.Buffer
import DrFed.Js.Syntax
import DrFed.Js.Uuid

/-!
# Collection cursors

A cursor of a collection is a pair of a position and an item, as JSON in
Base64.
-/

namespace DrFed.Collections

/-- A position, null while it is unknown, and the text of an item's id. -/
structure CollectionCursor where
  position : Option ℤ
  itemId : JsString
  deriving DecidableEq

/-! ## Encoding -/

def positionText : Option ℤ → JsonText
  | none => .null
  | some n => .num (integerNumeral n)

def encodeCollectionCursor (cursor : CollectionCursor) : JsString :=
  encodeBase64 (encodeUtf8
    (JsonText.arr [positionText cursor.position, .str cursor.itemId]).write)

/-! ## Parsing -/

def invalidCursor : String := "Invalid collection cursor."

/-- An integer of the database. -/
def IsInt4 (n : ℤ) : Prop := -2147483648 ≤ n ∧ n ≤ 2147483647

instance : DecidablePred IsInt4 := fun _ => inferInstanceAs (Decidable (_ ∧ _))

/-- The double that a number of a JSON text stands for, if it is finite. -/
def doubleValue (n : Numeral) : Option ℚ :=
  (nearestDouble n.magnitude).map fun q => if n.negative then -q else q

/-- A position that the check on it accepts. -/
def readPosition : JsonText → Option (Option ℤ)
  | .null => some none
  | .num n =>
      (doubleValue n).bind fun q =>
        if q.den = 1 ∧ IsInt4 q.num then some (some q.num) else none
  | _ => none

section Validation

variable (validateUuid : JsString → Bool)

def readItemId : JsonText → Option JsString
  | .str text => if validateUuid text then some text else none
  | _ => none

/-- The last check, once the cursor is read as JSON. -/
def checkCollectionCursor : Option JsonText → Except String CollectionCursor
  | some (.arr [position, itemId]) =>
      match readPosition position, readItemId validateUuid itemId with
      | some position, some itemId => .ok ⟨position, itemId⟩
      | _, _ => .error invalidCursor
  | _ => .error invalidCursor

def parseCollectionCursor (cursor : JsString) : Except String CollectionCursor :=
  if cursor = [] || !matchesBase64 cursor then .error invalidCursor
  else
    let decoded := decodeBase64 cursor
    if encodeBase64 decoded ≠ cursor then .error invalidCursor
    else checkCollectionCursor validateUuid (JsonText.read (decodeUtf8 decoded))

end Validation

/-! ## ASCII -/

theorem isAscii_append {a b : JsString} (ha : IsAscii a) (hb : IsAscii b) :
    IsAscii (a ++ b) := by
  intro c hc
  rcases List.mem_append.mp hc with hc | hc
  · exact ha c hc
  · exact hb c hc

theorem isAscii_cons {c : UInt16} {text : JsString} (hc : c < 0x80) (h : IsAscii text) :
    IsAscii (c :: text) := by
  intro d hd
  rcases List.mem_cons.mp hd with rfl | hd
  · exact hc
  · exact h d hd

theorem isAscii_nil : IsAscii [] := fun _ hc => absurd hc List.not_mem_nil

theorem hexUnit_ascii {d : ℕ} (h : d < 16) : hexUnit d < 0x80 := by
  interval_cases d <;> decide

theorem escapeLetter_ascii {c letter : UInt16} (h : escapeLetter c = some letter) :
    letter < 0x80 := by
  unfold escapeLetter at h
  split_ifs at h
  all_goals
    obtain rfl := Option.some.inj h
    decide

theorem quoteUnit_ascii {c : UInt16} (h : c < 0x80) : IsAscii (quoteUnit c) := by
  unfold quoteUnit
  cases hletter : escapeLetter c with
  | some letter =>
      exact isAscii_cons (by decide) (isAscii_cons (escapeLetter_ascii hletter) isAscii_nil)
  | none =>
      split_ifs
      · refine isAscii_cons (by decide) (isAscii_cons (by decide) ?_)
        intro d hd
        obtain ⟨digit, hdigit, rfl⟩ := mem_hexText hd
        exact hexUnit_ascii hdigit
      · exact isAscii_cons h isAscii_nil

theorem quoteUnits_ascii {text : JsString} (h : IsAscii text) : IsAscii (quoteUnits text) := by
  induction text using quoteUnits.induct with
  | case1 => exact isAscii_nil
  | case2 c =>
      rw [quoteUnits]
      exact quoteUnit_ascii (h c List.mem_cons_self)
  | case3 c d rest hpair ih =>
      rw [quoteUnits, if_pos hpair]
      refine isAscii_cons (h c List.mem_cons_self) (isAscii_cons (h d ?_) (ih ?_))
      · exact List.mem_cons_of_mem c List.mem_cons_self
      · exact fun e he => h e (List.mem_cons_of_mem c (List.mem_cons_of_mem d he))
  | case4 c d rest hpair ih =>
      rw [quoteUnits, if_neg hpair]
      exact isAscii_append (quoteUnit_ascii (h c List.mem_cons_self))
        (ih fun e he => h e (List.mem_cons_of_mem c he))

theorem quote_ascii {text : JsString} (h : IsAscii text) : IsAscii (quote text) :=
  isAscii_append (isAscii_cons (by decide) (quoteUnits_ascii h))
    (isAscii_cons (by decide) isAscii_nil)

theorem uuidText_ascii (id : BitVec 128) : IsAscii (uuidText id) := by
  intro c hc
  rcases mem_uuidText hc with rfl | ⟨d, hd, rfl⟩
  · decide
  · exact hexUnit_ascii hd

theorem natText_ascii (n : ℕ) : IsAscii (natText n) := by
  intro c hc
  have hdigit := JsonText.isDigit_toNat (isDigit_natText hc)
  have hlt : c.toNat < 0x80 := by omega
  exact hlt

theorem integerNumeral_ascii (n : ℤ) : IsAscii (integerNumeral n).text := by
  rw [Numeral.text]
  refine isAscii_append ?_ (isAscii_append (natText_ascii _) isAscii_nil)
  split_ifs
  · exact isAscii_cons (by decide) isAscii_nil
  · exact isAscii_nil

theorem positionText_ascii (position : Option ℤ) : IsAscii (positionText position).write := by
  cases position with
  | none => decide
  | some n => exact integerNumeral_ascii n

/-! ## Round trip -/

theorem doubleValue_integerNumeral {n : ℤ} (h : IsInt4 n) :
    doubleValue (integerNumeral n) = some (n : ℚ) := by
  have habs : |(n.natAbs : ℤ)| < 2 ^ 53 := by
    obtain ⟨hlow, hhigh⟩ := h
    rw [abs_of_nonneg (Int.natCast_nonneg _)]
    omega
  have hmagnitude : (integerNumeral n).magnitude = ((n.natAbs : ℤ) : ℚ) :=
    (magnitude_integerNumeral n).trans (Int.cast_natCast n.natAbs).symm
  rw [doubleValue, hmagnitude, nearestDouble_intCast habs, Option.map_some]
  rcases lt_or_ge n 0 with hneg | hpos
  · rw [integerNumeral, if_pos (decide_eq_true hneg), ← Int.cast_neg]
    congr
    omega
  · rw [integerNumeral, if_neg (by simpa using hpos)]
    congr
    omega

theorem readPosition_positionText {position : Option ℤ}
    (h : ∀ n, position = some n → IsInt4 n) :
    readPosition (positionText position) = some position := by
  cases position with
  | none => rfl
  | some n =>
      have hint4 : (n : ℚ).den = 1 ∧ IsInt4 (n : ℚ).num := by
        rw [Rat.den_intCast, Rat.num_intCast]
        exact ⟨rfl, h n rfl⟩
      rw [positionText, readPosition, doubleValue_integerNumeral (h n rfl),
        Option.bind_some, if_pos hint4, Rat.num_intCast]

/-- Parsing a cursor gives back what was encoded. -/
theorem parseCollectionCursor_encode {validateUuid : JsString → Bool}
    {position : Option ℤ} {itemId : BitVec 128}
    (hposition : ∀ n, position = some n → IsInt4 n)
    (hvalid : validateUuid (uuidText itemId) = true) :
    parseCollectionCursor validateUuid
      (encodeCollectionCursor ⟨position, uuidText itemId⟩) =
        .ok ⟨position, uuidText itemId⟩ := by
  have hformed : (JsonText.arr [positionText position, .str (uuidText itemId)]).Formed := by
    refine ⟨?_, trivial, trivial⟩
    cases position with
    | none => trivial
    | some n => exact integerNumeral_formed n
  have hascii :
      IsAscii (JsonText.arr [positionText position, .str (uuidText itemId)]).write := by
    refine isAscii_cons (by decide) (isAscii_append (positionText_ascii position) ?_)
    exact isAscii_cons (by decide) (isAscii_append (quote_ascii (uuidText_ascii itemId))
      (isAscii_cons (by decide) isAscii_nil))
  rw [parseCollectionCursor, encodeCollectionCursor, matchesBase64_encodeBase64]
  have hne : encodeBase64 (encodeUtf8
      (JsonText.arr [positionText position, .str (uuidText itemId)]).write) ≠ [] := by
    intro hnil
    have hback := decodeUtf8_encodeUtf8 hascii
    rw [← decodeBase64_encodeBase64 (encodeUtf8 _), hnil] at hback
    exact List.cons_ne_nil _ _ hback.symm
  rw [if_neg (by simp [hne])]
  simp only [decodeBase64_encodeBase64, ne_eq, not_true_eq_false, if_false,
    decodeUtf8_encodeUtf8 hascii, JsonText.read_write hformed, checkCollectionCursor,
    readPosition_positionText hposition, readItemId, hvalid, if_true]

end DrFed.Collections
