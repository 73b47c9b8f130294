import DrFed.Collections.Timestamp
import DrFed.Js.Uuid
import DrFed.Store.Tables
import DrFed.Support.Paging
import DrFed.Support.Query
import Mathlib.Data.Prod.Lex

/-!
# The outbox

The pages of the outbox of an actor: its served activities from the latest on,
cut by publication time and id.
-/

namespace DrFed.Collections

open Store (Uuid StoredActivity Tables)

def publicResourceId : Uuid := 0x00000000000040008000000000000000

def outboxPageSize : ℕ := 20

/-! ## Cursors -/

structure Boundary where
  published : JsString
  id : JsString
  deriving DecidableEq

def pipe : UInt16 := unit '|'

/-- The timestamps that a cursor may hold. -/
def isCursorTimestamp (published : JsString) : Bool :=
  !(js "0000-").isPrefixOf published && matchesTimestamp published &&
    decide (IsInstant (readCivil published))

section Parsing

variable (validateUuid : JsString → Bool)

/-- The boundary of a cursor: there is none on the first page, and an invalid
cursor gives nothing. -/
def parseOutboxCursor : Option JsString → Option (Option Boundary)
  | none => some none
  | some cursor =>
      if cursor = [] then some none
      else
        match cursor.splitOn pipe with
        | [published, id] =>
            if isCursorTimestamp published && validateUuid id then
              some (some ⟨published, id⟩)
            else none
        | _ => none

end Parsing

def activityBoundary (activity : StoredActivity) : Boundary :=
  ⟨toChar activity.published, uuidText activity.id⟩

/-- The cursor of a page that ends with an activity. -/
def activityCursor (activity : StoredActivity) : JsString :=
  toChar activity.published ++ pipe :: uuidText activity.id

/-! ## Visibility -/

section Visibility

variable (t : Tables)

def publicAddressing (sourceId : Uuid) : Bool :=
  t.addressing.any fun row =>
    row.sourceId == sourceId && row.targetId == publicResourceId &&
      (row.property == js "to" || row.property == js "cc")

/-- Every stored activity is a `Create`. -/
def servedActivity (activity : StoredActivity) : Bool :=
  publicAddressing t activity.id &&
    match activity.objectId with
    | none => false
    | some objectId => t.objects.any fun object =>
        object.id == objectId && object.deleted.isNone

end Visibility

/-! ## Pages -/

/-- The row comparison `(published, id) < (…, …)` of a boundary. -/
def beforeBoundary (activity : StoredActivity) (boundary : Boundary) : Truth :=
  let instant := (readCivil boundary.published).instant
  Truth.or (some (activity.published < instant))
    (Truth.and (some (activity.published == instant))
      (Truth.compare (fun a b => a < b) (some activity.id.toNat)
        ((readUuid boundary.id).map BitVec.toNat)))

/-- `ORDER BY` publication time and id, descending. -/
def outboxOrder (a b : StoredActivity) : Prop :=
  ((Direction.desc.apply (compare a.published b.published)).then
    (Direction.desc.apply (compare a.id.toNat b.id.toNat))).isLE = true

instance : DecidableRel outboxOrder := fun _ _ => inferInstanceAs (Decidable (_ = true))

structure OutboxPage where
  items : List StoredActivity
  nextCursor : Option JsString

section Dispatcher

variable (validateUuid : JsString → Bool) (t : Tables) (actor : Option Uuid)

def ownServed (actorId : Uuid) (activity : StoredActivity) : Bool :=
  activity.actorId == actorId && servedActivity t activity

def outboxRows (actorId : Uuid) (boundary : Option Boundary) : List StoredActivity :=
  ((t.activities.filter fun activity =>
    decide (Truth.all (some (ownServed t actorId activity) ::
      (boundary.map (beforeBoundary activity)).toList)).Holds).insertionSort
        outboxOrder).take (outboxPageSize + 1)

/-- The dispatcher of the outbox of an active actor. -/
def outboxDispatcher (cursor : Option JsString) : Option OutboxPage :=
  actor.bind fun actorId =>
    (parseOutboxCursor validateUuid cursor).map fun boundary =>
      let rows := outboxRows t actorId boundary
      let page := rows.take outboxPageSize
      ⟨page, if outboxPageSize < rows.length then page.getLast?.map activityCursor else none⟩

def firstCursor : Option JsString := actor.map fun _ => []

def outboxCounter : Option ℕ :=
  actor.map fun actorId => (t.activities.filter (ownServed t actorId)).length

/-- The page after a cursor, or the first one. -/
def outboxPage (_ : ℕ) (cursor : Option JsString) :
    Option (List StoredActivity × Option JsString) :=
  (cursor.or (firstCursor actor)).bind fun cursor =>
    (outboxDispatcher validateUuid t actor (some cursor)).map fun page =>
      (page.items, page.nextCursor)

end Dispatcher

end DrFed.Collections
