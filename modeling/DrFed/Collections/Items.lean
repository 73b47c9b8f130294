import DrFed.Collections.Cursor
import DrFed.Support.Paging
import DrFed.Support.Query
import Mathlib

/-!
# The items of a collection

A connection over the items of a collection: the query for a page, its cursors,
and what reading pages forwards or backwards visits.
-/

namespace DrFed.Collections

/-- A row of a collection.  The ids of resources are UUIDs of RFC 9562: they
are generated as such, and that of the Public collection is one. -/
structure CollectionItem where
  itemId : BitVec 128
  position : Option ℤ
  int4 : ∀ n, position = some n → IsInt4 n
  rfc : IsRfcUuid itemId
  deriving DecidableEq

namespace CollectionItem

/-- The cursor of an item. -/
def cursor (item : CollectionItem) : CollectionCursor :=
  ⟨item.position, uuidText item.itemId⟩

/-- A position among the positions, null after every other. -/
def positionKey : Option ℤ → WithTop ℤ
  | none => ⊤
  | some n => n

/-- The order of the items: by position with nulls last, then by id. -/
def key (item : CollectionItem) : WithTop ℤ ×ₗ ℕ :=
  toLex (positionKey item.position, item.itemId.toNat)

end CollectionItem

/-! ## The query of a page -/

section Predicate

variable (item : CollectionItem) (cursor : CollectionCursor)

/-- A comparison of the item's id with that of a cursor. -/
def compareId (p : ℕ → ℕ → Bool) : Truth :=
  Truth.compare p (some item.itemId.toNat) ((readUuid cursor.itemId).map BitVec.toNat)

def comparePosition (p : ℤ → ℤ → Bool) (position : ℤ) : Truth :=
  Truth.compare p item.position (some position)

def afterPredicate : Truth :=
  match cursor.position with
  | none => (Truth.isNull item.position).and (compareId item cursor fun a b => a > b)
  | some p =>
      ((comparePosition item (fun a b => a > b) p).or
        ((comparePosition item (fun a b => a == b) p).and
          (compareId item cursor fun a b => a > b))).or (Truth.isNull item.position)

def beforePredicate : Truth :=
  match cursor.position with
  | none =>
      (Truth.isNotNull item.position).or
        ((Truth.isNull item.position).and (compareId item cursor fun a b => a < b))
  | some p =>
      (comparePosition item (fun a b => a < b) p).or
        ((comparePosition item (fun a b => a == b) p).and
          (compareId item cursor fun a b => a < b))

end Predicate

def collectionCursorPredicate (item : CollectionItem)
    (before after : Option CollectionCursor) : Truth :=
  Truth.all ((after.map (afterPredicate item)).toList ++
    (before.map (beforePredicate item)).toList)

def direction (inverted : Bool) : Direction := if inverted then .desc else .asc

/-- `ORDER BY` the position and the id, in one direction. -/
def collectionItemsOrder (inverted : Bool) (a b : CollectionItem) : Prop :=
  ((compareColumn (direction inverted) compare a.position b.position).then
    ((direction inverted).apply (compare a.itemId.toNat b.itemId.toNat))).isLE = true

instance (inverted : Bool) : DecidableRel (collectionItemsOrder inverted) := fun _ _ =>
  inferInstanceAs (Decidable (_ = true))

section Resolver

variable (validateUuid : JsString → Bool)
  (visibleResource readableResource : BitVec 128 → Truth) (rows : List CollectionItem)

/-- The condition on a row of the collection. -/
def selectsItem (before after : Option CollectionCursor) (item : CollectionItem) : Bool :=
  decide (Truth.all [visibleResource item.itemId, readableResource item.itemId,
    collectionCursorPredicate item before after]).Holds

def findItems (before after : Option CollectionCursor) (limit : ℕ) (inverted : Bool) :
    List CollectionItem :=
  ((rows.filter (selectsItem visibleResource readableResource before after)).insertionSort
    (collectionItemsOrder inverted)).take limit

def parseOptional : Option JsString → Except String (Option CollectionCursor)
  | none => .ok none
  | some cursor => (parseCollectionCursor validateUuid cursor).map some

/-- The cursor of an item whose position the resolver has kept. -/
def toCursor (positions : List (BitVec 128 × Option ℤ)) (itemId : BitVec 128) :
    Except String JsString :=
  match positions.lookup itemId with
  | some position => .ok (encodeCollectionCursor ⟨position, uuidText itemId⟩)
  | none => .error "Missing collection item position."

/-- A page with its cursors, and whether more rows follow in the direction of
reading. -/
structure Connection where
  edges : List (JsString × CollectionItem)
  hasMore : Bool

/-- The connection helper asks for one row more than the page, in inverted
order for a backward page, and reverses such a page. -/
def resolveItems (size : ℕ) (inverted : Bool) (before after : Option JsString) :
    Except String Connection :=
  (parseOptional validateUuid before).bind fun parsedBefore =>
    (parseOptional validateUuid after).bind fun parsedAfter =>
      let items := findItems visibleResource readableResource rows parsedBefore parsedAfter
        (size + 1) inverted
      let positions := items.map fun item => (item.itemId, item.position)
      let page := items.take size
      let nodes := if inverted then page.reverse else page
      (nodes.mapM fun item =>
        (toCursor positions item.itemId).map fun cursor => (cursor, item)).map fun edges =>
          ⟨edges, size < items.length⟩

/-- Reading on after the last cursor of a page. -/
def forwardPage (sizes : ℕ → ℕ) (n : ℕ) (after : Option JsString) :
    Option (List CollectionItem × Option JsString) :=
  (resolveItems validateUuid visibleResource readableResource rows (sizes n) false none
    after).toOption.map fun connection =>
      (connection.edges.map Prod.snd,
        if connection.hasMore then connection.edges.getLast?.map Prod.fst else none)

/-- Reading back before the first cursor of a page. -/
def backwardPage (sizes : ℕ → ℕ) (n : ℕ) (before : Option JsString) :
    Option (List CollectionItem × Option JsString) :=
  (resolveItems validateUuid visibleResource readableResource rows (sizes n) true before
    none).toOption.map fun connection =>
      (connection.edges.map Prod.snd,
        if connection.hasMore then connection.edges.head?.map Prod.fst else none)

/-- The visible items in order. -/
def visibleItems : List CollectionItem :=
  (rows.filter fun item => decide ((visibleResource item.itemId).and
    (readableResource item.itemId)).Holds).insertionSort fun a b => a.key ≤ b.key

end Resolver

/-! ## The order -/

section Order

variable {item other : CollectionItem}

theorem key_lt_iff : item.key < other.key ↔
    CollectionItem.positionKey item.position < CollectionItem.positionKey other.position ∨
      (CollectionItem.positionKey item.position =
          CollectionItem.positionKey other.position ∧
        item.itemId.toNat < other.itemId.toNat) :=
  Prod.Lex.toLex_lt_toLex

theorem compareId_cursor {p : ℕ → ℕ → Bool} :
    compareId item other.cursor p = some (p item.itemId.toNat other.itemId.toNat) := by
  rw [compareId, CollectionItem.cursor, readUuid_uuidText]
  rfl

/-- The condition of a cursor selects the items after its item. -/
theorem afterPredicate_holds :
    (afterPredicate item other.cursor).Holds ↔ other.key < item.key := by
  rw [key_lt_iff, afterPredicate]
  have hposition : other.cursor.position = other.position := rfl
  rw [hposition]
  cases hother : other.position with
  | none =>
      cases hitem : item.position with
      | none => simp [CollectionItem.positionKey, Truth.isNull, compareId_cursor]
      | some n => simp [CollectionItem.positionKey, Truth.isNull, compareId_cursor]
  | some p =>
      cases hitem : item.position with
      | none => simp [CollectionItem.positionKey, Truth.isNull, comparePosition, hitem]
      | some n =>
          simp [CollectionItem.positionKey, Truth.isNull, comparePosition,
            compareId_cursor, hitem, @eq_comm ℤ n p]

theorem beforePredicate_holds :
    (beforePredicate item other.cursor).Holds ↔ item.key < other.key := by
  rw [key_lt_iff, beforePredicate]
  have hposition : other.cursor.position = other.position := rfl
  rw [hposition]
  cases hother : other.position with
  | none =>
      cases hitem : item.position with
      | none =>
          simp [CollectionItem.positionKey, Truth.isNull, Truth.isNotNull,
            compareId_cursor]
      | some n => simp [CollectionItem.positionKey, Truth.isNull, Truth.isNotNull]
  | some p =>
      cases hitem : item.position with
      | none => simp [CollectionItem.positionKey, comparePosition, hitem]
      | some n =>
          simp [CollectionItem.positionKey, comparePosition, compareId_cursor, hitem]

theorem compareColumn_asc (a b : Option ℤ) :
    compareColumn .asc compare a b =
      compare (CollectionItem.positionKey a) (CollectionItem.positionKey b) := by
  symm
  cases a with
  | none =>
      cases b with
      | none => exact compare_eq_iff_eq.mpr rfl
      | some p => exact compare_gt_iff_gt.mpr (WithTop.coe_lt_top p)
  | some n =>
      cases b with
      | none => exact compare_lt_iff_lt.mpr (WithTop.coe_lt_top n)
      | some p =>
          change compare (n : WithTop ℤ) p = compare n p
          rcases lt_trichotomy n p with h | rfl | h
          · rw [compare_lt_iff_lt.mpr h]
            exact compare_lt_iff_lt.mpr (WithTop.coe_lt_coe.mpr h)
          · rw [compare_eq_iff_eq.mpr rfl, compare_eq_iff_eq.mpr rfl]
          · rw [compare_gt_iff_gt.mpr h]
            exact compare_gt_iff_gt.mpr (WithTop.coe_lt_coe.mpr h)

theorem compareColumn_desc (a b : Option ℤ) :
    compareColumn .desc compare a b = compareColumn .asc compare b a := by
  cases a with
  | none => cases b <;> rfl
  | some n =>
      cases b with
      | none => rfl
      | some p => exact Std.OrientedCmp.eq_swap.symm

/-- Comparing two columns is comparing lexicographically. -/
theorem isLE_then_iff {α β : Type} [LinearOrder α] [LinearOrder β] {a b : α} {c d : β} :
    ((compare a b).then (compare c d)).isLE = true ↔ toLex (a, c) ≤ toLex (b, d) := by
  rw [Prod.Lex.toLex_le_toLex]
  rcases lt_trichotomy a b with h | rfl | h
  · rw [compare_lt_iff_lt.mpr h]
    simp [Ordering.then, h]
  · rw [compare_eq_iff_eq.mpr rfl]
    simp [Ordering.then, ← Ordering.ne_gt_iff_isLE, compare_le_iff_le]
  · rw [compare_gt_iff_gt.mpr h]
    simp [Ordering.then, h.not_gt, h.ne']

theorem collectionItemsOrder_asc :
    collectionItemsOrder false item other ↔ item.key ≤ other.key := by
  rw [collectionItemsOrder, direction, if_neg Bool.false_ne_true, compareColumn_asc]
  exact isLE_then_iff

theorem collectionItemsOrder_desc :
    collectionItemsOrder true item other ↔ other.key ≤ item.key := by
  rw [collectionItemsOrder, direction, if_pos rfl, compareColumn_desc, compareColumn_asc,
    Direction.apply, ← Std.OrientedCmp.eq_swap]
  exact isLE_then_iff

end Order

end DrFed.Collections
