import Mathlib.Data.List.Nodup

/-!
# Lists with a key

Rows of a table whose primary key is distinct: the first row with a key is the
row with that key. Rows that refer to distinct keys are the rows of each key.
-/

namespace Keyed

variable {α κ : Type} [BEq κ] [LawfulBEq κ] {key : α → κ} {rows : List α}

theorem find?_eq_some (h : (rows.map key).Nodup) {k : κ} {row : α} :
    (rows.find? fun row => key row == k) = some row ↔
      row ∈ rows ∧ key row = k := by
  constructor
  · intro hfind
    have hkey := List.find?_some hfind
    exact ⟨List.mem_of_find?_eq_some hfind, eq_of_beq hkey⟩
  · rintro ⟨hrow, rfl⟩
    cases hfind : rows.find? fun other => key other == key row with
    | none =>
        have hnone := List.find?_eq_none.mp hfind row hrow
        exact absurd (beq_self_eq_true (key row)) hnone
    | some other =>
        have hmem := List.mem_of_find?_eq_some hfind
        have hkey := List.find?_some hfind
        rw [List.inj_on_of_nodup_map h hmem hrow (eq_of_beq hkey)]

/-- Rows grouped by their keys. -/
theorem perm_flatMap_filter {α κ : Type} [DecidableEq κ] {key : α → κ}
    {keys : List κ} (h : keys.Nodup) {rows : List α}
    (howned : ∀ row ∈ rows, key row ∈ keys) :
    rows.Perm (keys.flatMap fun k => rows.filter fun row => key row = k) := by
  induction keys generalizing rows with
  | nil =>
      have hnone : rows = [] := List.eq_nil_iff_forall_not_mem.mpr
        fun row hrow => List.not_mem_nil (howned row hrow)
      rw [hnone]
      exact .nil
  | cons k keys ih =>
      obtain ⟨hk, hkeys⟩ := List.nodup_cons.mp h
      have hrest : ∀ row ∈ rows.filter fun row => !decide (key row = k),
          key row ∈ keys := by
        intro row hrow
        obtain ⟨hmem, hne⟩ := List.mem_filter.mp hrow
        rcases List.mem_cons.mp (howned row hmem) with hsame | hin
        · simp [hsame] at hne
        · exact hin
      have hfilter : (keys.flatMap fun k' =>
          (rows.filter fun row => !decide (key row = k)).filter
            fun row => key row = k') =
          keys.flatMap fun k' => rows.filter fun row => key row = k' := by
        refine List.flatMap_congr fun k' hk' => ?_
        rw [List.filter_filter]
        refine List.filter_congr fun row _ => ?_
        by_cases hrow : key row = k'
        · have hne : k' ≠ k := fun hsame => hk (hsame ▸ hk')
          simp [hrow, hne]
        · simp [hrow]
      rw [List.flatMap_cons, ← hfilter]
      exact (List.filter_append_perm (fun row => decide (key row = k)) rows).symm.trans
        ((ih hkeys hrest).append_left _)

end Keyed
