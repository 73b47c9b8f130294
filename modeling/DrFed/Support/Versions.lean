import Mathlib.Data.List.Basic

/-!
# Rows of open transactions

A table whose rows remember the transaction that wrote them until it ends.
Under read committed isolation a statement sees the committed rows and those
of its own transaction.
-/

namespace Versions

structure Version (α ι : Type) where
  value : α
  /-- The open transaction that inserted the row. -/
  writer : Option ι

abbrev Table (α ι : Type) := List (Version α ι)

variable {α ι : Type} [DecidableEq ι]

namespace Table

/-- A table of committed rows. -/
def ofRows (rows : List α) : Table α ι := rows.map fun value => ⟨value, none⟩

def committed (table : Table α ι) : List α :=
  (table.filter fun row => row.writer.isNone).map Version.value

/-- What a statement of transaction `i` sees. -/
def visible (table : Table α ι) (i : ι) : List α :=
  (table.filter fun row => row.writer.all (· = i)).map Version.value

def insert (table : Table α ι) (i : ι) (value : α) : Table α ι :=
  table ++ [⟨value, some i⟩]

def commit (table : Table α ι) (i : ι) : Table α ι :=
  table.map fun row => if row.writer = some i then { row with writer := none }
    else row

def rollBack (table : Table α ι) (i : ι) : Table α ι :=
  table.filter fun row => row.writer ≠ some i

/-- A row that another open transaction inserted. -/
def heldByOther (table : Table α ι) (i : ι) (p : α → Bool) : Bool :=
  table.any fun row => row.writer.any (· ≠ i) && p row.value

omit [DecidableEq ι] in
@[simp] theorem committed_ofRows (rows : List α) :
    committed (ofRows rows : Table α ι) = rows := by
  induction rows with
  | nil => rfl
  | cons value rest ih => exact congrArg (value :: ·) ih

omit [DecidableEq ι] in
@[simp] theorem committed_insert (table : Table α ι) (i : ι) (value : α) :
    (table.insert i value).committed = table.committed := by
  simp [committed, insert]

/-- A commit makes visible to all what its transaction saw. -/
@[simp] theorem committed_commit (table : Table α ι) (i : ι) :
    (table.commit i).committed = table.visible i := by
  induction table with
  | nil => rfl
  | cons row rest ih =>
      obtain ⟨value, writer⟩ := row
      simp only [committed, visible, commit] at ih ⊢
      cases writer with
      | none => simpa using ih
      | some j =>
          by_cases hj : j = i
          · simpa [hj] using ih
          · simpa [hj] using ih

@[simp] theorem committed_rollBack (table : Table α ι) (i : ι) :
    (table.rollBack i).committed = table.committed := by
  rw [committed, rollBack, List.filter_filter]
  refine congrArg _ (List.filter_congr fun row _ => ?_)
  cases row.writer <;> simp

/-- The rows that an open transaction inserted. -/
def own (table : Table α ι) (i : ι) : List α :=
  (table.filter fun row => row.writer = some i).map Version.value

/-- A transaction sees the committed rows and its own. -/
theorem length_visible (table : Table α ι) (i : ι) :
    (table.visible i).length =
      table.committed.length + (table.own i).length := by
  induction table with
  | nil => rfl
  | cons row rest ih =>
      obtain ⟨value, writer⟩ := row
      simp only [committed, visible, own, List.length_map] at ih ⊢
      cases writer with
      | none =>
          simp [ih]
          omega
      | some j =>
          by_cases hj : j = i
          · simp [hj, ih]
            omega
          · simp [hj, ih]

theorem own_insert_of_ne (table : Table α ι) {i j : ι} (h : j ≠ i)
    (value : α) : (table.insert j value).own i = table.own i := by
  simp [own, insert, h]

theorem own_rollBack_of_ne (table : Table α ι) {i j : ι} (h : j ≠ i) :
    (table.rollBack j).own i = table.own i := by
  rw [own, rollBack, List.filter_filter]
  refine congrArg _ (List.filter_congr fun row _ => ?_)
  by_cases hi : row.writer = some i
  · simp [hi, h.symm]
  · simp [hi]

theorem own_commit_of_ne (table : Table α ι) {i j : ι} (h : j ≠ i) :
    (table.commit j).own i = table.own i := by
  induction table with
  | nil => rfl
  | cons row rest ih =>
      obtain ⟨value, writer⟩ := row
      simp only [own, commit] at ih ⊢
      by_cases hj : writer = some j
      · simpa [hj, h] using ih
      · by_cases hi : writer = some i
        · simpa [hi, h.symm] using ih
        · simpa [hj, hi] using ih

end Table

end Versions
