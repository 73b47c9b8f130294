import DrFed.Js.Hex

/-!
# UUIDs

The text of a UUID, as the database writes it, and the UUID that such a text
spells.
-/

namespace DrFed

def hyphen : UInt16 := unit '-'

/-- The 32 digits of a UUID. -/
def uuidDigits (id : BitVec 128) : JsString := hexText 32 id.toNat

/-- `xxxxxxxx-xxxx-xxxx-xxxx-xxxxxxxxxxxx` -/
def uuidText (id : BitVec 128) : JsString :=
  let d := uuidDigits id
  d.take 8 ++ hyphen :: ((d.drop 8).take 4 ++ hyphen :: ((d.drop 12).take 4 ++
    hyphen :: ((d.drop 16).take 4 ++ hyphen :: d.drop 20)))

/-- The UUID that a text spells, hyphens aside. -/
def readUuid (text : JsString) : Option (BitVec 128) :=
  (readHex (text.filter fun c => c ≠ hyphen)).map fun n => BitVec.ofNat 128 n

/-- The versions and the variant of RFC 9562, with its nil and max UUIDs. -/
def IsRfcUuid (id : BitVec 128) : Prop :=
  (1 ≤ id.toNat / 2 ^ 76 % 16 ∧ id.toNat / 2 ^ 76 % 16 ≤ 8 ∧ id.toNat / 2 ^ 62 % 4 = 2) ∨
    id.toNat = 0 ∨ id.toNat = 2 ^ 128 - 1

instance : DecidablePred IsRfcUuid := fun _ =>
  inferInstanceAs (Decidable (_ ∨ _))

theorem hexUnit_ne_hyphen {d : ℕ} (h : d < 16) : hexUnit d ≠ hyphen := by
  interval_cases d <;> decide

theorem filter_group {digits : JsString} (h : ∀ c ∈ digits, c ≠ hyphen) (rest : JsString) :
    (digits ++ hyphen :: rest).filter (fun c => c ≠ hyphen) =
      digits ++ rest.filter fun c => c ≠ hyphen := by
  have hdigits : digits.filter (fun c => c ≠ hyphen) = digits :=
    List.filter_eq_self.mpr fun c hc => decide_eq_true (h c hc)
  rw [List.filter_append, hdigits, List.filter_cons_of_neg (by decide)]

theorem mem_uuidDigits {id : BitVec 128} {c : UInt16} (h : c ∈ uuidDigits id) :
    ∃ d < 16, c = hexUnit d :=
  mem_hexText h

theorem filter_uuidText (id : BitVec 128) :
    (uuidText id).filter (fun c => c ≠ hyphen) = uuidDigits id := by
  have hdigits : ∀ c ∈ uuidDigits id, c ≠ hyphen := by
    intro c hc
    obtain ⟨d, hd, rfl⟩ := mem_uuidDigits hc
    exact hexUnit_ne_hyphen hd
  have hdrop : ∀ n, ∀ c ∈ (uuidDigits id).drop n, c ≠ hyphen :=
    fun n c hc => hdigits c (List.mem_of_mem_drop hc)
  have hgroup : ∀ n m, ∀ c ∈ ((uuidDigits id).drop n).take m, c ≠ hyphen :=
    fun n m c hc => hdrop n c (List.mem_of_mem_take hc)
  have hlast : ((uuidDigits id).drop 20).filter (fun c => c ≠ hyphen) =
      (uuidDigits id).drop 20 :=
    List.filter_eq_self.mpr fun c hc => decide_eq_true (hdrop 20 c hc)
  have hsplit : ∀ n, ((uuidDigits id).drop n).take 4 ++ (uuidDigits id).drop (n + 4) =
      (uuidDigits id).drop n := by
    intro n
    rw [← List.drop_drop, List.take_append_drop]
  rw [uuidText, filter_group fun c hc => hdigits c (List.mem_of_mem_take hc),
    filter_group (hgroup 8 4), filter_group (hgroup 12 4), filter_group (hgroup 16 4),
    hlast, hsplit 16, hsplit 12, hsplit 8, List.take_append_drop]

/-- A UUID is what its text spells. -/
theorem readUuid_uuidText (id : BitVec 128) : readUuid (uuidText id) = some id := by
  have hlt : id.toNat < 16 ^ 32 := id.isLt
  rw [readUuid, filter_uuidText, uuidDigits, readHex_hexText_of_lt hlt, Option.map_some,
    BitVec.ofNat_toNat, BitVec.setWidth_eq]

/-- The code units of a UUID. -/
theorem mem_uuidText {id : BitVec 128} {c : UInt16} (h : c ∈ uuidText id) :
    c = hyphen ∨ ∃ d < 16, c = hexUnit d := by
  rcases eq_or_ne c hyphen with hc | hc
  · exact .inl hc
  · right
    apply @mem_uuidDigits id
    rw [← filter_uuidText, List.mem_filter]
    exact ⟨h, decide_eq_true hc⟩

end DrFed
