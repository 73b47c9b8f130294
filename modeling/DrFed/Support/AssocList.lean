import Mathlib.Data.List.Lookmap
import Mathlib.Data.List.Nodup
import Mathlib.Data.List.Basic

/-!
# Association lists with insertion order

Insertion-ordered maps as lists of pairs: an update keeps the position of a
key that is already present and appends a new one, and a lookup reads the
first pair of a key.  Only lookups are specified; the order of the pairs is
the order in which an iteration over the map visits them.
-/

namespace AssocList

variable {κ ν : Type} [DecidableEq κ]

/-- Set the value of a key, in place when the key is present. -/
def put (key : κ) (value : ν) : List (κ × ν) → List (κ × ν)
  | [] => [(key, value)]
  | entry :: rest =>
      if entry.1 = key then (key, value) :: rest
      else entry :: put key value rest

/-- Remove every entry of a key. -/
def remove (key : κ) (entries : List (κ × ν)) : List (κ × ν) :=
  entries.filter fun entry => !decide (entry.1 = key)

/-- Remove the entries of every key in a list. -/
def removeAll (keys : List κ) (entries : List (κ × ν)) : List (κ × ν) :=
  entries.filter fun entry => keys.all fun key => !decide (entry.1 = key)

/-- Set the values of several keys, one after the other. -/
def putAll (updates : List (κ × ν)) (entries : List (κ × ν)) :
    List (κ × ν) :=
  updates.foldl (fun acc update => put update.1 update.2 acc) entries

theorem mem_put {key : κ} {value : ν} {entries : List (κ × ν)}
    {entry : κ × ν} (h : entry ∈ put key value entries) :
    entry = (key, value) ∨ entry ∈ entries := by
  induction entries with
  | nil => simpa [put] using h
  | cons head rest ih =>
      rw [put] at h
      split at h
      · rcases List.mem_cons.mp h with heq | hmem
        · exact .inl heq
        · exact .inr (List.mem_cons_of_mem _ hmem)
      · rcases List.mem_cons.mp h with heq | hmem
        · exact .inr (heq ▸ List.mem_cons_self)
        · exact (ih hmem).imp id (List.mem_cons_of_mem _)

theorem put_of_notMem {key : κ} {value : ν}
    {entries : List (κ × ν)} (h : key ∉ entries.map Prod.fst) :
    put key value entries = entries ++ [(key, value)] := by
  induction entries with
  | nil => rfl
  | cons entry rest ih =>
      rw [List.map_cons, List.mem_cons, not_or] at h
      rw [put, if_neg (Ne.symm h.1), ih h.2]
      rfl

theorem nodup_put {key : κ} {value : ν} {entries : List (κ × ν)}
    (h : (entries.map Prod.fst).Nodup) :
    ((put key value entries).map Prod.fst).Nodup := by
  induction entries with
  | nil => simp [put]
  | cons head rest ih =>
      rw [List.map_cons, List.nodup_cons] at h
      rw [put]
      split
      next heq => simpa [← heq] using h
      next hne =>
        rw [List.map_cons, List.nodup_cons]
        refine ⟨fun hmem => ?_, ih h.2⟩
        obtain ⟨entry, hentry, hkey⟩ := List.mem_map.mp hmem
        rcases mem_put hentry with rfl | hrest
        · exact hne hkey.symm
        · exact h.1 (hkey ▸ List.mem_map_of_mem hrest)

theorem nodup_removeAll {keys : List κ} {entries : List (κ × ν)}
    (h : (entries.map Prod.fst).Nodup) :
    ((removeAll keys entries).map Prod.fst).Nodup :=
  (List.filter_sublist.map Prod.fst).nodup h

theorem nodup_putAll {updates entries : List (κ × ν)}
    (h : (entries.map Prod.fst).Nodup) :
    ((putAll updates entries).map Prod.fst).Nodup :=
  List.foldlRecOn (motive := fun acc : List (κ × ν) =>
    (acc.map Prod.fst).Nodup) _ _ h fun _ hacc _ _ => nodup_put hacc

section Lookup

variable [BEq κ] [LawfulBEq κ]

theorem lookup_cons_eq (key : κ) (entry : κ × ν) (rest : List (κ × ν)) :
    (entry :: rest).lookup key =
      if key = entry.1 then some entry.2 else rest.lookup key := by
  obtain ⟨name, value⟩ := entry
  by_cases h : key = name
  · subst h
    simp
  · have hbeq : (key == name) = false := by simpa using h
    simp [List.lookup_cons, hbeq, h]

@[simp] theorem lookup_put (key other : κ) (value : ν)
    (entries : List (κ × ν)) :
    (put key value entries).lookup other =
      if other = key then some value else entries.lookup other := by
  induction entries with
  | nil => simp [put, lookup_cons_eq]
  | cons entry rest ih =>
      by_cases hentry : entry.1 = key
      · by_cases hother : other = key
        · simp [put, hentry, lookup_cons_eq, hother]
        · simp [put, hentry, lookup_cons_eq, hother]
      · by_cases hother : other = entry.1
        · simp [put, lookup_cons_eq, hother, hentry]
        · simp [put, hentry, lookup_cons_eq, hother, ih]

@[simp] theorem lookup_removeAll (keys : List κ) (other : κ)
    (entries : List (κ × ν)) :
    (removeAll keys entries).lookup other =
      if other ∈ keys then none else entries.lookup other := by
  induction entries with
  | nil => simp [removeAll]
  | cons entry rest ih =>
      have hkeep : (keys.all fun key => !decide (entry.1 = key)) = true ↔
          entry.1 ∉ keys := by
        simp only [List.all_eq_true, Bool.not_eq_true', decide_eq_false_iff_not]
        exact ⟨fun h hmem => h _ hmem rfl,
          fun h key hkey heq => h (heq ▸ hkey)⟩
      unfold removeAll at ih ⊢
      by_cases hmem : entry.1 ∈ keys
      · rw [List.filter_cons_of_neg (by rw [hkeep]; simpa using hmem), ih]
        by_cases hother : other = entry.1
        · simp [hother, hmem]
        · simp [lookup_cons_eq, hother]
      · rw [List.filter_cons_of_pos (by rw [hkeep]; exact hmem),
          lookup_cons_eq, lookup_cons_eq, ih]
        by_cases hother : other = entry.1
        · simp [hother, hmem]
        · simp [hother]

@[simp] theorem lookup_remove (key other : κ) (entries : List (κ × ν)) :
    (remove key entries).lookup other =
      if other = key then none else entries.lookup other := by
  have h := lookup_removeAll [key] other entries
  simpa [removeAll, remove] using h

/-- A lookup after several updates reads the last update of the key. -/
theorem lookup_putAll (updates entries : List (κ × ν)) (key : κ) :
    (putAll updates entries).lookup key =
      (updates.reverse.lookup key).or (entries.lookup key) := by
  induction updates generalizing entries with
  | nil => simp [putAll]
  | cons update rest ih =>
      have hfold : putAll (update :: rest) entries =
          putAll rest (put update.1 update.2 entries) := rfl
      rw [hfold, ih, lookup_put, List.reverse_cons, List.lookup_append]
      by_cases h : key = update.1
      · cases hr : rest.reverse.lookup key <;> simp [h, lookup_cons_eq]
      · cases hr : rest.reverse.lookup key <;> simp [h, lookup_cons_eq]

/-- With distinct keys, a pair of the list is what a lookup reads. -/
theorem lookup_map {μ : Type} (f : ν → μ) (entries : List (κ × ν)) (key : κ) :
    (entries.map fun entry => (entry.1, f entry.2)).lookup key =
      (entries.lookup key).map f := by
  induction entries with
  | nil => rfl
  | cons entry rest ih =>
      rw [List.map_cons, lookup_cons_eq, lookup_cons_eq, ih]
      split <;> rfl

theorem lookup_eq_some_of_mem {entries : List (κ × ν)}
    (hnodup : (entries.map Prod.fst).Nodup) {key : κ} {value : ν}
    (hmem : (key, value) ∈ entries) : entries.lookup key = some value := by
  induction entries with
  | nil => simp at hmem
  | cons entry rest ih =>
      rw [List.map_cons, List.nodup_cons] at hnodup
      rw [lookup_cons_eq]
      rcases List.mem_cons.mp hmem with heq | hrest
      · simp [← heq]
      · have hne : key ≠ entry.1 := by
          intro h
          exact hnodup.1 (h ▸ List.mem_map_of_mem (f := Prod.fst) hrest)
        rw [if_neg hne]
        exact ih hnodup.2 hrest

theorem mem_of_lookup_eq_some {entries : List (κ × ν)} {key : κ} {value : ν}
    (h : entries.lookup key = some value) : (key, value) ∈ entries := by
  induction entries with
  | nil => simp at h
  | cons entry rest ih =>
      rw [lookup_cons_eq] at h
      by_cases hkey : key = entry.1
      · rw [if_pos hkey] at h
        have : entry = (key, value) := by
          ext1
          · exact hkey.symm
          · exact Option.some.inj h
        simp [this]
      · rw [if_neg hkey] at h
        exact List.mem_cons_of_mem _ (ih h)

theorem lookup_eq_none_iff {entries : List (κ × ν)} {key : κ} :
    entries.lookup key = none ↔ key ∉ entries.map Prod.fst := by
  induction entries with
  | nil => simp
  | cons entry rest ih =>
      rw [lookup_cons_eq, List.map_cons, List.mem_cons]
      by_cases hkey : key = entry.1
      · simp [hkey]
      · simp [hkey, ih]

/-- Lookups with distinct keys do not depend on the order of the pairs. -/
theorem lookup_perm {entries others : List (κ × ν)}
    (hperm : entries.Perm others)
    (hnodup : (entries.map Prod.fst).Nodup) (key : κ) :
    entries.lookup key = others.lookup key := by
  have hnodup' : (others.map Prod.fst).Nodup :=
    (hperm.map Prod.fst).nodup_iff.mp hnodup
  cases h : entries.lookup key with
  | none =>
      rw [lookup_eq_none_iff] at h
      refine (lookup_eq_none_iff.mpr fun hmem => h ?_).symm
      exact (hperm.map Prod.fst).mem_iff.mpr hmem
  | some value =>
      have hmem := hperm.mem_iff.mp (mem_of_lookup_eq_some h)
      exact (lookup_eq_some_of_mem hnodup' hmem).symm

end Lookup

end AssocList
