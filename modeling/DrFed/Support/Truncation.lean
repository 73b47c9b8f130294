import Mathlib.Data.List.Induction
import Mathlib.Data.List.Nodup
import Mathlib.Data.List.Perm.Subperm

/-!
# Bounded lists

Lists that are kept up to a limit, where the last place of a list that is too
long holds a marker, and lists that take up only elements with a new key.
Cutting a list off before its new elements are taken up makes no difference to
what is kept, as long as its keys are distinct.
-/

namespace Truncation

section Cut

variable {α : Type} {limit : ℕ} {marker : α} {xs : List α}

/-- A list up to a limit, with a marker in the last place when elements are
left out. -/
def cut (limit : ℕ) (marker : α) (xs : List α) : List α :=
  if xs.length ≤ limit then xs else xs.take (limit - 1) ++ [marker]

theorem cut_of_le (h : xs.length ≤ limit) : cut limit marker xs = xs :=
  if_pos h

theorem cut_of_lt (h : limit < xs.length) :
    cut limit marker xs = xs.take (limit - 1) ++ [marker] :=
  if_neg (Nat.not_le_of_lt h)

theorem length_cut_le (hlimit : 0 < limit) :
    (cut limit marker xs).length ≤ limit := by
  unfold cut
  split
  next h => exact h
  next =>
    rw [List.length_append, List.length_take, List.length_singleton]
    omega

theorem mem_cut {x : α} (h : x ∈ cut limit marker xs) :
    x ∈ xs ∨ (x = marker ∧ limit < xs.length) := by
  unfold cut at h
  split at h
  next => exact .inl h
  next hlong =>
    rcases List.mem_append.mp h with hmem | hmem
    · exact .inl (List.mem_of_mem_take hmem)
    · exact .inr ⟨List.mem_singleton.mp hmem, Nat.lt_of_not_le hlong⟩

variable {p : α → Prop} (hmarker : p marker) (hxs : ∀ x ∈ xs, ¬ p x)

include hmarker hxs

/-- The marker tells whether elements are left out. -/
theorem exists_marker_iff :
    (∃ x ∈ cut limit marker xs, p x) ↔ limit < xs.length := by
  constructor
  · rintro ⟨x, hx, hp⟩
    rcases mem_cut hx with hmem | ⟨-, hlong⟩
    · exact absurd hp (hxs x hmem)
    · exact hlong
  · intro hlong
    refine ⟨marker, ?_, hmarker⟩
    rw [cut_of_lt hlong]
    exact List.mem_append_right _ (List.mem_singleton_self _)

omit hmarker in
/-- The marker is in the last place only. -/
theorem marker_last {i : ℕ} {x : α}
    (hget : (cut limit marker xs)[i]? = some x) (hp : p x) :
    i = limit - 1 := by
  by_cases hlong : limit < xs.length
  · rw [cut_of_lt hlong] at hget
    have hlength : (xs.take (limit - 1)).length = limit - 1 := by
      rw [List.length_take]
      omega
    rcases Nat.lt_or_ge i (limit - 1) with hlt | hge
    · rw [List.getElem?_append_left (by omega)] at hget
      exact absurd hp (hxs x (List.mem_of_mem_take (List.mem_of_getElem? hget)))
    · rw [List.getElem?_append_right (by omega), hlength] at hget
      obtain ⟨hbound, -⟩ := List.getElem?_eq_some_iff.mp hget
      rw [List.length_singleton] at hbound
      omega
  · rw [cut_of_le (by omega)] at hget
    exact absurd hp (hxs x (List.mem_of_getElem? hget))

end Cut

section New

variable {α κ : Type} [DecidableEq κ] (key : α → κ)

/-- Take up the elements whose key is not there yet. -/
def addNew (there xs : List α) : List α :=
  xs.foldl
    (fun there x =>
      if there.any fun y => key y == key x then there else there ++ [x]) there

@[simp] theorem addNew_nil (there : List α) : addNew key there [] = there :=
  rfl

theorem addNew_append (there xs ys : List α) :
    addNew key there (xs ++ ys) = addNew key (addNew key there xs) ys :=
  List.foldl_append

variable {key} {there xs : List α}

theorem any_key_iff {x : α} :
    (there.any fun y => key y == key x) = true ↔
      key x ∈ there.map key := by
  rw [List.any_eq_true, List.mem_map]
  simp only [beq_iff_eq]

theorem addNew_of_mem {x : α} (h : key x ∈ there.map key) :
    addNew key there [x] = there :=
  if_pos (any_key_iff.mpr h)

theorem addNew_of_notMem {x : α} (h : key x ∉ there.map key) :
    addNew key there [x] = there ++ [x] :=
  if_neg fun hany => h (any_key_iff.mp hany)

variable (key) in
/-- What is taken up are elements with keys that were not there before. -/
theorem exists_addNew (there xs : List α) :
    ∃ added, addNew key there xs = there ++ added ∧ added.Sublist xs ∧
      ∀ before x after, added = before ++ x :: after →
        key x ∉ (there ++ before).map key := by
  induction xs using List.reverseRecOn with
  | nil => exact ⟨[], by simp, List.Sublist.refl _, by simp⟩
  | append_singleton xs x ih =>
      obtain ⟨added, hadded, hsub, hnew⟩ := ih
      rw [addNew_append, hadded]
      by_cases hmem : key x ∈ (there ++ added).map key
      · exact ⟨added, addNew_of_mem hmem,
          hsub.trans (List.sublist_append_left _ _), hnew⟩
      · refine ⟨added ++ [x], ?_, hsub.append (List.Sublist.refl _), ?_⟩
        · rw [addNew_of_notMem hmem, List.append_assoc]
        · intro before y after heq
          rcases List.eq_nil_or_concat after with rfl | ⟨rest, z, rfl⟩
          · obtain ⟨rfl, hyx⟩ := List.append_inj' heq rfl
            obtain rfl := List.singleton_inj.mp hyx
            exact hmem
          · rw [List.concat_eq_append, ← List.cons_append,
              ← List.append_assoc] at heq
            obtain ⟨rfl, -⟩ := List.append_inj' heq rfl
            exact hnew before y rest rfl

/-- The keys of all elements are there afterwards. -/
theorem key_mem_addNew {x : α} (hx : x ∈ there ∨ x ∈ xs) :
    key x ∈ (addNew key there xs).map key := by
  induction xs using List.reverseRecOn with
  | nil => exact List.mem_map_of_mem (hx.resolve_right List.not_mem_nil)
  | append_singleton xs y ih =>
      rw [addNew_append]
      by_cases hmem : key y ∈ (addNew key there xs).map key
      · rw [addNew_of_mem hmem]
        rcases hx with hthere | hx
        · exact ih (.inl hthere)
        rcases List.mem_append.mp hx with hxs | hy
        · exact ih (.inr hxs)
        · exact List.mem_singleton.mp hy ▸ hmem
      · rw [addNew_of_notMem hmem, List.map_append, List.mem_append]
        rcases hx with hthere | hx
        · exact .inl (ih (.inl hthere))
        rcases List.mem_append.mp hx with hxs | hy
        · exact .inl (ih (.inr hxs))
        · exact .inr (List.mem_map_of_mem hy)

/-- Nothing is taken up when all keys are there. -/
theorem addNew_of_subset (h : ∀ x ∈ xs, key x ∈ there.map key) :
    addNew key there xs = there := by
  induction xs using List.reverseRecOn with
  | nil => rfl
  | append_singleton xs x ih =>
      rw [addNew_append, ih fun y hy => h y (List.mem_append_left _ hy)]
      exact addNew_of_mem (h x (by simp))

/-- Elements with distinct keys all count. -/
theorem length_le_addNew (h : (xs.map key).Nodup) :
    xs.length ≤ (addNew key there xs).length := by
  have hsubset : xs.map key ⊆ (addNew key there xs).map key := by
    intro k hk
    obtain ⟨x, hx, rfl⟩ := List.mem_map.mp hk
    exact key_mem_addNew (.inr hx)
  simpa using (h.subperm hsubset).length_le

variable {limit : ℕ} {marker : α}

/-- Elements that are cut off before the others are taken up make no
difference to what is kept, unless their keys are not distinct. -/
theorem cut_addNew_cut (hlimit : 0 < limit)
    (hmarker : key marker ∉ (there ++ xs).map key)
    (hkeys : xs.length ≤ limit ∨ (xs.map key).Nodup) :
    cut limit marker (addNew key there (cut limit marker xs)) =
      cut limit marker (addNew key there xs) := by
  by_cases hlong : limit < xs.length
  · have hnodup := hkeys.resolve_left (by omega)
    rw [cut_of_lt hlong]
    generalize hfirst : xs.take (limit - 1) = first
    generalize hrest : xs.drop (limit - 1) = rest
    have hsplit : xs = first ++ rest := by
      rw [← hfirst, ← hrest, List.take_append_drop]
    have hlength : first.length = limit - 1 := by
      rw [← hfirst, List.length_take]
      omega
    have hall : xs.length ≤ (addNew key there xs).length :=
      length_le_addNew hnodup
    rw [hsplit, addNew_append] at hall
    rw [hsplit, addNew_append, addNew_append]
    rw [hsplit, List.map_append] at hnodup
    have hmany : first.length ≤ (addNew key there first).length :=
      length_le_addNew (List.nodup_append.mp hnodup).1
    have hnew : key marker ∉ (addNew key there first).map key := by
      obtain ⟨added, hadded, hsub, -⟩ := exists_addNew key there first
      rw [hadded]
      intro hmem
      refine hmarker ?_
      rw [List.map_append, List.mem_append] at hmem ⊢
      refine hmem.imp id fun hmem => List.map_subset key ?_ hmem
      rw [hsplit]
      exact List.Subset.trans hsub.subset (List.subset_append_left _ _)
    obtain ⟨added, hadded, -⟩ :=
      exists_addNew key (addNew key there first) rest
    have hlongSplit : limit < (first ++ rest).length := hsplit ▸ hlong
    rw [addNew_of_notMem hnew, cut_of_lt (by omega : limit <
      (addNew key (addNew key there first) rest).length), hadded,
      List.take_append_of_le_length (by omega)]
    unfold cut
    split
    next hfit =>
      rw [List.length_append, List.length_singleton] at hfit
      rw [List.take_of_length_le (by omega)]
    next =>
      rw [List.take_append_of_le_length (by omega)]
  · have hfit : cut limit marker xs = xs := cut_of_le (by omega)
    rw [hfit]

end New

end Truncation
