import Mathlib.Data.List.Sort
import Mathlib.Data.Nat.Notation
import Mathlib.Order.Basic

/-!
# Queries

The three-valued logic of SQL, the order of a nullable column, and the rows
that a query returns in a strict order of its keys.
-/

namespace DrFed

/-! ## Truth values -/

/-- A truth value of SQL: null is unknown. -/
abbrev Truth := Option Bool

namespace Truth

def and : Truth → Truth → Truth
  | some false, _ => some false
  | _, some false => some false
  | some true, some true => some true
  | _, _ => none

def or : Truth → Truth → Truth
  | some true, _ => some true
  | _, some true => some true
  | some false, some false => some false
  | _, _ => none

/-- `WHERE` keeps the rows of which the condition is true. -/
def Holds (t : Truth) : Prop := t = some true

instance : DecidablePred Holds := fun t => inferInstanceAs (Decidable (t = some true))

@[simp] theorem holds_and {a b : Truth} : (a.and b).Holds ↔ a.Holds ∧ b.Holds := by
  rcases a with _ | (_ | _) <;> rcases b with _ | (_ | _) <;> decide

@[simp] theorem holds_or {a b : Truth} : (a.or b).Holds ↔ a.Holds ∨ b.Holds := by
  rcases a with _ | (_ | _) <;> rcases b with _ | (_ | _) <;> decide

@[simp] theorem holds_some {b : Bool} : Holds (some b) ↔ b = true := by
  rw [Holds, Option.some.injEq]

@[simp] theorem not_holds_none : ¬ Holds none := by decide

/-- The conjunction of some conditions. -/
def all (conditions : List Truth) : Truth := conditions.foldr and (some true)

@[simp] theorem holds_all {conditions : List Truth} :
    (all conditions).Holds ↔ ∀ t ∈ conditions, t.Holds := by
  induction conditions with
  | nil => simp [all]
  | cons t rest ih =>
      rw [all, List.foldr_cons, holds_and, List.forall_mem_cons]
      exact and_congr_right fun _ => ih

variable {α : Type}

/-- A comparison with a null is unknown. -/
def compare (p : α → α → Bool) : Option α → Option α → Truth
  | some a, some b => some (p a b)
  | _, _ => none

@[simp] theorem compare_some {p : α → α → Bool} {a b : α} :
    compare p (some a) (some b) = some (p a b) := rfl

@[simp] theorem compare_none {p : α → α → Bool} {a : Option α} :
    compare p none a = none := rfl

def isNull (a : Option α) : Truth := some a.isNone

def isNotNull (a : Option α) : Truth := some a.isSome

end Truth

/-! ## Orders -/

inductive Direction where
  | asc | desc
  deriving DecidableEq

def Direction.apply : Direction → Ordering → Ordering
  | .asc, o => o
  | .desc, o => o.swap

/-- The order of a nullable column: nulls come last when ascending and first
when descending. -/
def compareColumn {α : Type} (direction : Direction) (cmp : α → α → Ordering) :
    Option α → Option α → Ordering
  | some a, some b => direction.apply (cmp a b)
  | some _, none => direction.apply .lt
  | none, some _ => direction.apply .gt
  | none, none => .eq

/-! ## Rows in order -/

section Rows

variable {ρ κ : Type} [LinearOrder κ] {key : ρ → κ} {le : ρ → ρ → Prop} [DecidableRel le]
  {rows : List ρ}

/-- `ORDER BY` a column list that amounts to a key sorts by the key. -/
theorem pairwise_orderBy (hle : ∀ a b, le a b ↔ key a ≤ key b)
    (hrows : (rows.map key).Nodup) :
    (rows.insertionSort le).Pairwise fun a b => key a < key b := by
  have htotal : Std.Total le := ⟨fun a b => by
    rw [hle, hle]
    exact le_total (key a) (key b)⟩
  have htrans : IsTrans ρ le := ⟨fun a b c hab hbc => by
    rw [hle] at hab hbc ⊢
    exact hab.trans hbc⟩
  have hsorted : (rows.insertionSort le).Pairwise le := List.pairwise_insertionSort le rows
  have hperm : (rows.insertionSort le).Perm rows := List.perm_insertionSort le rows
  have hkeys : (rows.insertionSort le).Pairwise fun a b => key a ≠ key b :=
    List.pairwise_map.mp ((hperm.map key).nodup_iff.mpr hrows)
  exact (hsorted.and hkeys).imp fun hab => lt_of_le_of_ne ((hle _ _).mp hab.1) hab.2

omit [LinearOrder κ] in
theorem orderBy_congr {le' : ρ → ρ → Prop} [DecidableRel le']
    (h : ∀ a b, le a b ↔ le' a b) : rows.insertionSort le = rows.insertionSort le' := by
  obtain rfl : le = le' := by
    funext a b
    exact propext (h a b)
  congr!

/-- Sorting commutes with filtering. -/
theorem filter_orderBy (hle : ∀ a b, le a b ↔ key a ≤ key b)
    (hrows : (rows.map key).Nodup) (p : ρ → Bool) :
    (rows.filter p).insertionSort le = (rows.insertionSort le).filter p := by
  have hfiltered : ((rows.filter p).map key).Nodup :=
    hrows.sublist (List.filter_sublist.map key)
  refine List.Perm.eq_of_pairwise ?_ (pairwise_orderBy hle hfiltered)
    ((pairwise_orderBy hle hrows).filter p) ?_
  · intro a b _ _ hab hba
    exact absurd (hab.trans hba) (lt_irrefl _)
  · exact (List.perm_insertionSort le _).trans
      ((List.perm_insertionSort le rows).symm.filter p)

/-- The descending order is the ascending one backwards. -/
theorem orderBy_reverse {ge : ρ → ρ → Prop} [DecidableRel ge]
    (hle : ∀ a b, le a b ↔ key a ≤ key b) (hge : ∀ a b, ge a b ↔ key b ≤ key a)
    (hrows : (rows.map key).Nodup) :
    rows.insertionSort ge = (rows.insertionSort le).reverse := by
  have hdual : (rows.map fun row => OrderDual.toDual (key row)).Nodup := hrows
  refine List.Perm.eq_of_pairwise ?_
    (@pairwise_orderBy ρ κᵒᵈ _ (fun row => OrderDual.toDual (key row)) ge _ rows hge hdual)
    (List.pairwise_reverse.mpr (pairwise_orderBy hle hrows)) ?_
  · intro a b _ _ hab hba
    have hkey : key b < key a := hab
    exact absurd (hkey.trans hba) (lt_irrefl _)
  · exact (List.perm_insertionSort ge rows).trans
      ((List.perm_insertionSort le rows).symm.trans (List.reverse_perm _).symm)

end Rows

end DrFed
