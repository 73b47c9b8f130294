import Mathlib.Data.List.Lex
import Mathlib.Order.Lex
import DrFed.Js.Text

/-!
# Orders of record keys

The two orders in which the entries of a record are listed.  Both depend on
the keys alone, so entries that are dropped or get another value leave the
order of the others as it is.
-/

namespace DrFed

/-! ## The code-unit order -/

theorem keyLe_iff {left right : JsString} : keyLe left right ↔ left ≤ right := by
  have h : List.lex right left = false ↔ left ≤ right :=
    List.lex_eq_false_iff_ge
  rw [← h]
  rfl

theorem keyLe_trans {a b c : JsString} (h : keyLe a b) (h' : keyLe b c) :
    keyLe a c := by
  rw [keyLe_iff] at *
  exact List.le_trans h h'

theorem keyLe_total (a b : JsString) : keyLe a b ∨ keyLe b a := by
  rw [keyLe_iff, keyLe_iff]
  exact List.le_total _ _

theorem keyLe_antisymm {a b : JsString} (h : keyLe a b) (h' : keyLe b a) :
    a = b := by
  rw [keyLe_iff] at *
  exact List.le_antisymm h h'

theorem sortByKey_pairwise {α : Type} (entries : List (JsString × α)) :
    (sortByKey entries).Pairwise fun a b => keyLe a.1 b.1 := by
  have : Std.Total fun a b : JsString × α => keyLe a.1 b.1 :=
    ⟨fun a b => keyLe_total a.1 b.1⟩
  have : IsTrans (JsString × α) fun a b => keyLe a.1 b.1 :=
    ⟨fun _ _ _ => keyLe_trans⟩
  exact List.pairwise_insertionSort _ _

/-- A key is the only spelling of its index. -/
theorem arrayIndex?_injective {a b : JsString} {n : ℕ}
    (ha : arrayIndex? a = some n) (hb : arrayIndex? b = some n) : a = b := by
  have htext : ∀ {key : JsString}, arrayIndex? key = some n →
      natText n = key := by
    intro key hkey
    unfold arrayIndex? at hkey
    split at hkey
    · dsimp only at hkey
      split at hkey
      next htext =>
        obtain rfl := Option.some.inj hkey
        exact htext.1
      next => cases hkey
    · cases hkey
  rw [← htext ha, ← htext hb]

/-! ## Functions that keep keys -/

section KeepsKeys

variable {α β : Type}

/-- A function on entries that may drop some of them but renames none. -/
def KeepsKeys (f : JsString × α → Option (JsString × β)) : Prop :=
  ∀ entry other, f entry = some other → other.1 = entry.1

variable {f : JsString × α → Option (JsString × β)}
  {entries : List (JsString × α)}

theorem KeepsKeys.nodup (hf : KeepsKeys f)
    (hnodup : (entries.map Prod.fst).Nodup) :
    ((entries.filterMap f).map Prod.fst).Nodup := by
  refine hnodup.sublist ?_
  clear hnodup
  induction entries with
  | nil => exact List.Sublist.slnil
  | cons entry rest ih =>
      rw [List.filterMap_cons, List.map_cons]
      cases hentry : f entry with
      | none => exact ih.cons _
      | some other =>
          rw [List.map_cons, hf entry other hentry]
          exact ih.cons_cons _

/-- A filter on keys may be applied before or after. -/
theorem KeepsKeys.filter (hf : KeepsKeys f) (p : JsString → Bool) :
    (entries.filter fun e => p e.1).filterMap f =
      (entries.filterMap f).filter fun e => p e.1 := by
  rw [List.filterMap_filter, List.filter_filterMap]
  refine List.filterMap_congr fun entry _ => ?_
  cases hentry : f entry with
  | none => simp
  | some other =>
      by_cases hp : p entry.1 = true <;>
        simp [Option.filter, hf entry other hentry, hp]

/-- Sorting by a total order on the keys that occur. -/
theorem KeepsKeys.insertionSort (hf : KeepsKeys f)
    (le : JsString → JsString → Prop) [DecidableRel le]
    (htotal : ∀ a b, le a b ∨ le b a)
    (htrans : ∀ a b c, le a b → le b c → le a c)
    (hnodup : (entries.map Prod.fst).Nodup)
    (hantisymm : ∀ a ∈ entries, ∀ b ∈ entries, le a.1 b.1 → le b.1 a.1 →
      a.1 = b.1) :
    (entries.insertionSort fun a b => le a.1 b.1).filterMap f =
      (entries.filterMap f).insertionSort fun a b => le a.1 b.1 := by
  have total {γ : Type} : Std.Total fun a b : JsString × γ => le a.1 b.1 :=
    ⟨fun a b => htotal a.1 b.1⟩
  have trans {γ : Type} : IsTrans (JsString × γ) fun a b => le a.1 b.1 :=
    ⟨fun a b c => htrans a.1 b.1 c.1⟩
  have hperm : ((entries.insertionSort fun a b => le a.1 b.1).filterMap
      f).Perm (entries.filterMap f) :=
    (List.perm_insertionSort _ _).filterMap f
  -- Both sides list the same entries in the order of their keys.
  refine @List.Perm.eq_of_pairwise _ (fun a b => le a.1 b.1) _ _ ?_ ?_
    (List.pairwise_insertionSort _ _)
    (hperm.trans (List.perm_insertionSort _ _).symm)
  · intro a b ha hb hab hba
    have ha' := hperm.mem_iff.mp ha
    have hb' := (List.perm_insertionSort _ _).mem_iff.mp hb
    obtain ⟨source, hsource, hfa⟩ := List.mem_filterMap.mp ha'
    obtain ⟨source', hsource', hfb⟩ := List.mem_filterMap.mp hb'
    have hkey : a.1 = b.1 := by
      rw [hf _ _ hfa, hf _ _ hfb] at hab hba ⊢
      exact hantisymm _ hsource _ hsource' hab hba
    exact List.inj_on_of_nodup_map (hf.nodup hnodup) ha' hb' hkey
  · refine List.Pairwise.filterMap f ?_ (List.pairwise_insertionSort _ _)
    intro a a' hle b hb b' hb'
    rw [hf _ _ hb, hf _ _ hb']
    exact hle

theorem KeepsKeys.sortByKey (hf : KeepsKeys f)
    (hnodup : (entries.map Prod.fst).Nodup) :
    (sortByKey entries).filterMap f = DrFed.sortByKey (entries.filterMap f) :=
  hf.insertionSort keyLe keyLe_total (fun _ _ _ => keyLe_trans) hnodup
    fun _ _ _ _ => keyLe_antisymm

theorem KeepsKeys.propertyOrder (hf : KeepsKeys f)
    (hnodup : (entries.map Prod.fst).Nodup) :
    (propertyOrder entries).filterMap f =
      DrFed.propertyOrder (entries.filterMap f) := by
  unfold DrFed.propertyOrder
  rw [List.filterMap_append,
    hf.filter fun key => (arrayIndex? key).isNone]
  congr 1
  rw [← hf.filter fun key => (arrayIndex? key).isSome]
  refine hf.insertionSort
    (fun a b => (arrayIndex? a).getD 0 ≤ (arrayIndex? b).getD 0)
    (fun a b => Nat.le_total _ _) (fun a b c => Nat.le_trans)
    (hnodup.sublist (List.filter_sublist.map _)) ?_
  intro a ha b hb hab hba
  obtain ⟨n, hn⟩ := Option.isSome_iff_exists.mp (List.mem_filter.mp ha).2
  obtain ⟨m, hm⟩ := Option.isSome_iff_exists.mp (List.mem_filter.mp hb).2
  rw [hn, hm] at hab hba
  obtain rfl : n = m := Nat.le_antisymm hab hba
  exact arrayIndex?_injective hn hm

end KeepsKeys

end DrFed
