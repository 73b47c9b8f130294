import DrFed.Store.Revision

/-!
# Capture of legacy state

The SQL function that copies the typed state of an object or activity into its
first revisions, and its repeated calls.
-/

namespace DrFed.Store

open Transactions

/-- The typed state that a capture copies. -/
structure LegacyState where
  document : Option Json
  created : Instant
  deleted : Option Instant
  formerTypes : Option (List JsString)
  capture : RevisionCapture
  deriving DecidableEq

/-- `type::text` -/
def ObjectType.text : ObjectType → JsString
  | .article => js "Article"
  | .note => js "Note"

/-- The typed row of a resource, joined with its author. -/
def Tables.legacyState (t : Tables) (kind : ResourceKind) (id : Uuid) :
    Option LegacyState :=
  match kind with
  | .object =>
      (t.object? id).bind fun stored =>
        (t.actor? stored.actorId).map fun author =>
          { document := stored.document
            created := stored.created
            deleted := stored.deleted
            formerTypes := some [stored.type.text]
            capture :=
              if author.localId.isSome then .locally
              else if stored.fetched then .fetched
              else .embedded }
  | _ =>
      (t.activity? id).bind fun stored =>
        (t.actor? stored.actorId).map fun author =>
          { document := stored.document
            created := stored.created
            deleted := none
            formerTypes := none
            capture :=
              if author.localId.isSome then .locally else .received }

namespace LegacyState

variable (legacy : LegacyState)

def expectedKind : RevisionKind :=
  if legacy.document.isSome then .snapshot else .unavailable

def expectedSequence : ℕ :=
  if legacy.deleted.isSome then 2 else 1

/-- The retained revisions are those that a capture of this state made. -/
def agrees (first current : ResourceRevision) (related : Bool) : Bool :=
  first.kind = legacy.expectedKind ∧
    first.capture = legacy.capture ∧
    first.projection = .partially ∧
    first.document = legacy.document ∧
    current.sequence = legacy.expectedSequence ∧
    current.capture = legacy.capture ∧
    current.projection = .partially ∧
    (legacy.expectedSequence = 1 → current.id = first.id) ∧
    (legacy.expectedSequence = 2 →
      current.kind = .whiteout ∧ current.deleted = legacy.deleted ∧
        current.formerTypes = legacy.formerTypes) ∧
    related = false

/-- The first revision of a capture. -/
def firstRevision (resourceId id : Uuid) (backfilled : Bool) :
    ResourceRevision where
  id := id
  resourceId := resourceId
  sequence := 1
  kind := legacy.expectedKind
  capture := legacy.capture
  backfilled := backfilled
  document := legacy.document
  formerTypes := none
  deleted := none
  projection := .partially
  created := legacy.created

/-- The whiteout of a capture. -/
def whiteoutRevision (resourceId id : Uuid) (backfilled : Bool)
    (deleted : Instant) : ResourceRevision where
  id := id
  resourceId := resourceId
  sequence := 2
  kind := .whiteout
  capture := legacy.capture
  backfilled := backfilled
  document := none
  formerTypes := legacy.formerTypes
  deleted := some deleted
  projection := .partially
  created := deleted

end LegacyState

/-- The refusal that capture raises itself. -/
def refuseCapture {α : Type} (resourceId : Uuid) : Tx α :=
  .fail (.revision (.legacy resourceId))

/-- Compare retained revisions with the typed state. -/
def compareCapture (resourceId : Uuid) (legacy : LegacyState)
    (first current : ResourceRevision) : Tx Uuid := do
  let related ← Program.read fun t =>
    !(t.relationsOf first.id).isEmpty || !(t.relationsOf current.id).isEmpty
  if !legacy.agrees first current related then refuseCapture resourceId
  else
    let same ← Program.read fun t =>
      sameRows (t.addressingOf first.id) (t.declaredAddressing resourceId) &&
        sameRows (t.addressingOf current.id) (t.declaredAddressing resourceId)
    if !same then refuseCapture resourceId else return first.id

/-- Publish the captured revisions, the last of which is `finalId`. -/
def publishCapture (resourceId : Uuid) (revisionIds : List Uuid)
    (firstId finalId : Uuid) : Tx Uuid := do
  let declared ← Program.read fun t => t.declaredAddressing resourceId
  Program.send (.insert .addressing (revisionIds.flatMap fun id =>
    declared.map (RevisionAddressing.mk id)))
  Program.send (.insert .heads [(⟨resourceId, finalId⟩ : ResourceHead)])
  return firstId

/-- Insert the revisions of a first capture. -/
def insertCapture (resourceId : Uuid) (legacy : LegacyState)
    (backfilled : Bool) (firstId whiteoutId : Uuid) : Tx Uuid := do
  Program.send (.insert .revisions
    [legacy.firstRevision resourceId firstId backfilled])
  match legacy.deleted with
  | none => publishCapture resourceId [firstId] firstId firstId
  | some deleted => do
      Program.send (.insert .revisions
        [legacy.whiteoutRevision resourceId whiteoutId backfilled deleted])
      publishCapture resourceId [firstId, whiteoutId] firstId whiteoutId

/-- `drfed_capture_legacy_resource`, with the ids that it generates. -/
def captureLegacyResource (resourceId : Uuid) (backfilled : Bool)
    (firstId whiteoutId : Uuid) : Tx Uuid := do
  match ← Program.locked fun t => t.resource? resourceId with
  | none => refuseCapture resourceId
  | some resource =>
      if resource.kind ≠ .object ∧ resource.kind ≠ .activity then
        refuseCapture resourceId
      else
        match ← Program.read fun t => t.legacyState resource.kind resourceId
          with
        | none => refuseCapture resourceId
        | some legacy =>
            let current ← Program.read fun t => t.current resourceId
            let first ← Program.read fun t =>
              (t.historyOf resourceId).find? fun row => row.sequence == 1
            match first, current with
            | some first, some current =>
                compareCapture resourceId legacy first current
            | none, none =>
                let orphaned ← Program.read fun t =>
                  !(t.historyOf resourceId).isEmpty
                if orphaned then refuseCapture resourceId
                else
                  insertCapture resourceId legacy backfilled firstId
                    whiteoutId
            | _, _ => refuseCapture resourceId

end DrFed.Store
