import Mathlib.Data.List.Forall2
import Mathlib.Data.List.Nodup

/-!
# Splitting and mapping lists

Splits of a list at an element of interest, alone or together with a list that
is related to it position by position, and keys that stay distinct.
-/

namespace ListSplit

variable {α β γ : Type}

/-- The last element with a property splits a list. -/
theorem exists_last {p : α → Prop} {l : List α} (h : ∃ a ∈ l, p a) :
    ∃ first a second, l = first ++ a :: second ∧ p a ∧
      ∀ b ∈ second, ¬ p b := by
  induction l with
  | nil => simp at h
  | cons x rest ih =>
      by_cases hrest : ∃ a ∈ rest, p a
      · obtain ⟨first, a, second, rfl, ha, hsecond⟩ := ih hrest
        exact ⟨x :: first, a, second, rfl, ha, hsecond⟩
      · obtain ⟨a, hmem, ha⟩ := h
        rcases List.mem_cons.mp hmem with rfl | hmem
        · exact ⟨[], a, rest, rfl, ha, fun b hb hpb => hrest ⟨b, hb, hpb⟩⟩
        · exact absurd ⟨a, hmem, ha⟩ hrest

/-- Related lists split at a common position. -/
theorem forall₂_split {R : α → β → Prop} {l : List α} {m : List β}
    (h : List.Forall₂ R l m) {a : α} (ha : a ∈ l) :
    ∃ l₁ l₂ m₁ b m₂, l = l₁ ++ a :: l₂ ∧ m = m₁ ++ b :: m₂ ∧ R a b ∧
      List.Forall₂ R l₁ m₁ ∧ List.Forall₂ R l₂ m₂ := by
  induction h with
  | nil => simp at ha
  | @cons x y l m hxy hrest ih =>
      rcases List.mem_cons.mp ha with rfl | ha
      · exact ⟨[], l, [], y, m, rfl, rfl, hxy, .nil, hrest⟩
      · obtain ⟨l₁, l₂, m₁, b, m₂, rfl, rfl, hab, h₁, h₂⟩ := ih ha
        exact ⟨x :: l₁, l₂, y :: m₁, b, m₂, rfl, rfl, hab, .cons hxy h₁, h₂⟩

/-- Every element of the second of two related lists has a partner. -/
theorem exists_of_mem_right {R : α → β → Prop} {l : List α} {m : List β}
    (h : List.Forall₂ R l m) {b : β} (hb : b ∈ m) : ∃ a ∈ l, R a b := by
  induction h with
  | nil => simp at hb
  | cons hxy _ ih =>
      rcases List.mem_cons.mp hb with rfl | hb
      · exact ⟨_, List.mem_cons_self, hxy⟩
      · obtain ⟨a, ha, hab⟩ := ih hb
        exact ⟨a, List.mem_cons_of_mem _ ha, hab⟩

/-! ## Distinct keys -/

/-- Keys that a partial map takes over stay distinct. -/
theorem nodup_map_filterMap {l : List α} {f : α → Option β} {g : β → γ}
    {k : α → γ} (hkey : ∀ a b, f a = some b → g b = k a)
    (h : (l.map k).Nodup) : ((l.filterMap f).map g).Nodup := by
  induction l with
  | nil => exact List.nodup_nil
  | cons a rest ih =>
      rw [List.map_cons, List.nodup_cons] at h
      rw [List.filterMap_cons]
      split
      next => exact ih h.2
      next b hb =>
        rw [List.map_cons, List.nodup_cons, hkey a b hb]
        refine ⟨fun hmem => h.1 ?_, ih h.2⟩
        obtain ⟨b', hb', heq⟩ := List.mem_map.mp hmem
        obtain ⟨a', ha', hf⟩ := List.mem_filterMap.mp hb'
        exact List.mem_map.mpr ⟨a', ha', by rw [← hkey a' b' hf, heq]⟩

/-- Keys of concatenated lists are distinct when they are within each list and
between any two of them. -/
theorem nodup_map_flatMap {l : List α} {f : α → List β} {g : β → γ}
    (h : l.Nodup) (hwithin : ∀ a ∈ l, ((f a).map g).Nodup)
    (hbetween : ∀ a ∈ l, ∀ b ∈ l, a ≠ b →
      ∀ x ∈ f a, ∀ y ∈ f b, g x ≠ g y) :
    ((l.flatMap f).map g).Nodup := by
  rw [List.map_flatMap, List.nodup_flatMap]
  refine ⟨hwithin, h.pairwise_of_forall_ne fun a ha b hb hne => ?_⟩
  intro key hkey hkey'
  obtain ⟨x, hx, rfl⟩ := List.mem_map.mp hkey
  obtain ⟨y, hy, heq⟩ := List.mem_map.mp hkey'
  exact hbetween a ha b hb hne x hx y hy heq.symm

end ListSplit
