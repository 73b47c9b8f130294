import Mathlib.Data.List.MinMax
import Mathlib.Data.List.Nodup

/-!
# Numbered lists

Lists whose entries carry the numbers 1, 2, 3, … in order, such as the
revisions of one resource.
-/

namespace List

variable {α : Type} {number : α → ℕ} {l : List α} {a b : α}

/-- The entries are numbered from 1 without a gap. -/
def Numbered (number : α → ℕ) (l : List α) : Prop :=
  l.map number = List.range' 1 l.length

theorem numbered_nil : ([] : List α).Numbered number := rfl

theorem numbered_concat :
    (l ++ [a]).Numbered number ↔ l.Numbered number ∧ number a = l.length + 1 := by
  rw [Numbered, Numbered, map_append, length_append, length_singleton,
    range'_1_concat]
  constructor
  · intro h
    obtain ⟨hl, ha⟩ := append_inj' h rfl
    refine ⟨hl, ?_⟩
    rw [Nat.add_comm]
    simpa using ha
  · rintro ⟨hl, ha⟩
    rw [hl, map_singleton, ha, Nat.add_comm]

namespace Numbered

/-- The last entry carries the length of the list. -/
theorem number_getLast? (h : l.Numbered number) (ha : l.getLast? = some a) :
    number a = l.length := by
  obtain ⟨front, rfl⟩ := getLast?_eq_some_iff.mp ha
  rw [(numbered_concat.mp h).2, length_append, length_singleton]

theorem number_bounds (h : l.Numbered number) (ha : a ∈ l) :
    1 ≤ number a ∧ number a ≤ l.length := by
  have hmem : number a ∈ List.range' 1 l.length :=
    h ▸ mem_map_of_mem ha
  rw [mem_range'_1] at hmem
  omega

/-- Two entries with one number are the same. -/
theorem eq_of_number (h : l.Numbered number) (ha : a ∈ l) (hb : b ∈ l)
    (hab : number a = number b) : a = b := by
  have hnodup : (l.map number).Nodup := by
    rw [h]
    exact nodup_range'
  exact inj_on_of_nodup_map hnodup ha hb hab

/-- The entry that carries the length, or more, is the last one. -/
theorem getLast?_of_le (h : l.Numbered number) (ha : a ∈ l)
    (hle : l.length ≤ number a) : l.getLast? = some a := by
  have hne : l ≠ [] := ne_nil_of_mem ha
  have hlast := getLast?_eq_some_getLast hne
  have heq := h.number_getLast? hlast
  have hbound := (h.number_bounds ha).2
  rw [hlast, h.eq_of_number (getLast_mem hne) ha (by omega)]

/-- The entry with the greatest number is the last one. -/
theorem argmax_eq (h : l.Numbered number) :
    l.argmax number = l.getLast? := by
  cases hmax : l.argmax number with
  | none => rw [argmax_eq_none.mp hmax, getLast?_nil]
  | some a =>
      have ha : a ∈ l := argmax_mem hmax
      have hne : l ≠ [] := ne_nil_of_mem ha
      have hlast := getLast?_eq_some_getLast hne
      have hle := le_of_mem_argmax (getLast_mem hne) hmax
      rw [h.number_getLast? hlast] at hle
      exact (h.getLast?_of_le ha hle).symm

end Numbered

end List
