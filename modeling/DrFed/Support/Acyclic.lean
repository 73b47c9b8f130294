import Mathlib.Data.Set.Finite.List
import Mathlib.Logic.Relation
import Mathlib.Order.WellFounded

/-!
# Acyclic relations

Relations in which nothing leads back to itself: a finite list has an element
that leads to no other of it, and elements that lead only to settled ones can
be settled.
-/

namespace Relation

variable {α : Type} {r : α → α → Prop}

/-- Nothing leads back to itself. -/
def Acyclic (r : α → α → Prop) : Prop := ∀ a, ¬ TransGen r a a

/-- A list has an element that leads to none of the list. -/
theorem Acyclic.exists_last (h : Acyclic r) {l : List α} (hne : l ≠ []) :
    ∃ a ∈ l, ∀ b ∈ l, ¬ r a b := by
  let s : {a // a ∈ l} → {a // a ∈ l} → Prop := fun b a => TransGen r a.1 b.1
  have hfinite : Finite {a // a ∈ l} := l.finite_toSet.to_subtype
  have htrans : IsTrans {a // a ∈ l} s := ⟨fun _ _ _ hcb hba => hba.trans hcb⟩
  have hirrefl : Std.Irrefl s := ⟨fun a => h a.1⟩
  obtain ⟨first, hfirst⟩ := List.exists_mem_of_ne_nil l hne
  obtain ⟨a, -, ha⟩ := (Finite.wellFounded_of_trans_of_irrefl s).has_min Set.univ
    ⟨⟨first, hfirst⟩, trivial⟩
  exact ⟨a.1, a.2, fun b hb hr => ha ⟨b, hb⟩ trivial (.single hr)⟩

/-- Elements that lead only to one another, and not back to themselves. -/
structure Settled (r : α → α → Prop) (s : Set α) : Prop where
  closed : ∀ a ∈ s, ∀ b, r a b → b ∈ s
  acyclic : ∀ a ∈ s, ¬ TransGen r a a

theorem Settled.leads {s : Set α} (h : Settled r s) {a b : α} (ha : a ∈ s)
    (hab : ReflTransGen r a b) : b ∈ s := by
  induction hab with
  | refl => exact ha
  | tail _ hstep ih => exact h.closed _ ih _ hstep

/-- An element that leads to settled ones only is settled with them. -/
theorem Settled.insert {s : Set α} (h : Settled r s) {a : α} (hfresh : a ∉ s)
    (hnext : ∀ b, r a b → b ∈ s) : Settled r (insert a s) := by
  constructor
  · intro b hb c hbc
    rcases hb with rfl | hb
    · exact .inr (hnext c hbc)
    · exact .inr (h.closed b hb c hbc)
  · intro b hb hcycle
    rcases hb with rfl | hb
    · obtain ⟨c, hfirst, hrest⟩ := TransGen.head'_iff.mp hcycle
      exact hfresh (h.leads (hnext c hfirst) hrest)
    · exact h.acyclic b hb hcycle

theorem Settled.acyclic_univ (h : Settled r Set.univ) : Acyclic r :=
  fun a => h.acyclic a trivial

end Relation
