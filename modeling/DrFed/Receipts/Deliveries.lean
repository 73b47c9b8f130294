import DrFed.Delivery.Reception
import DrFed.Inbox.FirstProof

/-!
# Deliveries and revision receipts

The deliveries of `activity-delivery.ts` beside the tables that `store` fills,
with the receipts that `decideCarried` writes and the triggers of the revision
migration remove. Every operation is one transaction.
-/

namespace DrFed.Receipts

open Store Inbox Delivery

inductive RevisionReceiptRole where
  | activity | object
  deriving DecidableEq

structure RevisionReceipt where
  deliveryId : Uuid
  revisionId : Uuid
  role : RevisionReceiptRole
  deriving DecidableEq

/-- The direction of a delivery, with the columns that are read of it. -/
inductive Details where
  | inbound (row : ActivityDelivery)
  | outbound (activityId : Option Uuid)

structure DeliveryRow where
  id : Uuid
  details : Details

structure State where
  tables : Inbox.Tables
  deliveries : List DeliveryRow
  receipts : List RevisionReceipt

/-! ## Rows of deliveries -/

namespace Details

def activityId : Details → Option Uuid
  | .inbound row => row.activityId
  | .outbound activityId => activityId

def inbound? : Details → Option ActivityDelivery
  | .inbound row => some row
  | .outbound _ => none

def updateInbound (f : ActivityDelivery → ActivityDelivery) :
    Details → Details
  | .inbound row => .inbound (f row)
  | .outbound activityId => .outbound activityId

/-- `ON DELETE SET NULL` of the link to an activity. -/
def unlink (activityId : Uuid) : Details → Details
  | .inbound row =>
      .inbound { row with
        activityId := row.activityId.filter fun id => id ≠ activityId }
  | .outbound linked => .outbound (linked.filter fun id => id ≠ activityId)

end Details

namespace State

variable (s : State)

/-- The inbound delivery with an id. -/
def inbound? (id : Uuid) : Option ActivityDelivery :=
  (s.deliveries.find? fun delivery => delivery.id == id).bind fun delivery =>
    delivery.details.inbound?

def updateInbound (id : Uuid) (f : ActivityDelivery → ActivityDelivery) :
    State :=
  { s with
    deliveries := s.deliveries.map fun delivery =>
      if delivery.id = id then
        { delivery with details := delivery.details.updateInbound f }
      else delivery }

def removeReceipts (id : Uuid) : State :=
  { s with
    receipts := s.receipts.filter fun receipt => receipt.deliveryId ≠ id }

end State

/-! ## What a delivery carried -/

/-- `isDeepStrictEqual` on two columns: SQL `NULL` is read as `null`. -/
def sameDocument (first second : Option Json) : Bool :=
  isDeepStrictEqual (first.getD .null) (second.getD .null)

/-- The object stored with an activity. -/
def storedWith? (t : Inbox.Tables) (activityId : Uuid) :
    Option ActivityPubObject :=
  t.objects.find? fun object => object.activityId == some activityId

def carriedSnapshot (row : ActivityDelivery) (activity : StoredActivity) :
    Bool :=
  carries row.payload activity.document

def carriedObjectSnapshot (row : ActivityDelivery) (activity : StoredActivity)
    (object : ActivityPubObject) : Bool :=
  carriedSnapshot row activity &&
    (!object.fetched || carries row.fetchedObject object.document)

def mark (activity : StoredActivity) (object : Option ActivityPubObject)
    (row : ActivityDelivery) : ActivityDelivery :=
  { row with
    carriedSnapshot := carriedSnapshot row activity
    carriedObjectSnapshot := object.any (carriedObjectSnapshot row activity) }

def firstSnapshots (t : Inbox.Tables) (ids : List Uuid) :
    List ResourceRevision :=
  t.revisions.filter fun revision =>
    ids.contains revision.resourceId && revision.sequence == 1 &&
      revision.kind == .snapshot

def objectReceipt (deliveryId : Uuid) (row : ActivityDelivery)
    (activity : StoredActivity) (object : ActivityPubObject)
    (revisions : List ResourceRevision) : List RevisionReceipt :=
  match revisions.find? fun revision => revision.resourceId == object.id with
  | none => []
  | some revision =>
      if carriedObjectSnapshot row activity object &&
          sameDocument revision.document object.document then
        [⟨deliveryId, revision.id, .object⟩]
      else []

/-- The receipts that `decideCarried` inserts. -/
def carriedReceipts (t : Inbox.Tables) (deliveryId : Uuid)
    (row : ActivityDelivery) (activity : StoredActivity)
    (object : Option ActivityPubObject) : List RevisionReceipt :=
  if !carriedSnapshot row activity then []
  else
    let revisions := firstSnapshots t
      (activity.id :: (object.map ActivityPubObject.id).toList)
    match revisions.find? fun revision => revision.resourceId == activity.id
      with
    | none => []
    | some revision =>
        if !sameDocument revision.document activity.document then []
        else ⟨deliveryId, revision.id, .activity⟩ ::
          object.toList.flatMap fun object =>
            objectReceipt deliveryId row activity object revisions

/-- Decide anew what a linked inbound delivery carried. -/
def decideCarried (s : State) (deliveryId : Uuid) : State :=
  match s.inbound? deliveryId with
  | none => s
  | some row =>
      let cleared := s.removeReceipts deliveryId
      match row.activityId.bind s.tables.activity? with
      | none => cleared
      | some activity =>
          let object := storedWith? s.tables activity.id
          let marked := cleared.updateInbound deliveryId (mark activity object)
          { marked with
            receipts := marked.receipts ++
              carriedReceipts s.tables deliveryId row activity object }

/-! ## Operations on deliveries -/

structure InboundDeliveryEntry where
  id : Uuid
  status : ActivityDeliveryStatus
  verificationResult : ActivityDeliveryVerificationResult
  activityIri : Option JsString
  payload : Option Json
  fetchedObject : Option Json

/-- The row that `recordInbound` inserts. -/
def InboundDeliveryEntry.row (entry : InboundDeliveryEntry) :
    ActivityDelivery where
  status := entry.status
  verificationResult := entry.verificationResult
  activityIri := entry.activityIri
  activityId := none
  payload := jsonb entry.payload
  fetchedObject := storedObject entry.fetchedObject
  carriedSnapshot := false
  carriedObjectSnapshot := false

/-- `none` when the id is taken. -/
def recordInbound (s : State) (entry : InboundDeliveryEntry) : Option State :=
  if s.deliveries.any fun delivery => delivery.id == entry.id then none
  else some { s with
    deliveries := s.deliveries ++ [⟨entry.id, .inbound entry.row⟩] }

/-- Whether an acknowledged inbound delivery was found, and what is left. -/
def receiveInbound (s : State) (id : Uuid) : Bool × State :=
  match s.inbound? id with
  | none => (false, s)
  | some row =>
      if row.status = .acknowledged then
        (true, s.updateInbound id fun row => { row with status := .received })
      else (false, s)

/-- The stored activity that the IRI of a delivery names. -/
def namedActivity? (t : Inbox.Tables) (row : ActivityDelivery) :
    Option StoredActivity :=
  (row.activityIri.bind t.resourceAt?).bind fun resource =>
    if resource.kind = .activity then t.activity? resource.id else none

/-- Whether the delivery was linked, and what is left. -/
def linkInboundActivity (s : State) (id : Uuid) : Bool × State :=
  match s.inbound? id with
  | none => (false, s)
  | some row =>
      match namedActivity? s.tables row with
      | none => (false, s)
      | some activity =>
          if linkable row then
            let linked := s.updateInbound id fun row =>
              { row with activityId := some activity.id }
            -- The trigger on the link.
            (true, decideCarried (linked.removeReceipts id) id)
          else (false, s)

/-- Whether the inbound delivery was found, and what is left. -/
def recordFetchedObject (s : State) (id : Uuid) (document : Option Json) :
    Bool × State :=
  match s.inbound? id with
  | none => (false, s)
  | some _ =>
      (true, decideCarried
        (s.updateInbound id fun row =>
          { row with fetchedObject := storedObject document }) id)

/-! ## Removal -/

/-- The receipts go with their delivery. -/
def deleteDelivery (s : State) (id : Uuid) : State :=
  { s.removeReceipts id with
    deliveries := s.deliveries.filter fun delivery => delivery.id ≠ id }

/-- Whether a revision is of a resource. -/
def isRevisionOf (t : Inbox.Tables) (revisionId resourceId : Uuid) : Bool :=
  t.revisions.any fun revision =>
    revision.id == revisionId && revision.resourceId == resourceId

/-- The trigger removes the receipts for revisions of the object. -/
def deleteObject (s : State) (id : Uuid) : State :=
  if (s.tables.object? id).isNone then s
  else
    { s with
      tables := { s.tables with
        objects := s.tables.objects.filter fun object => object.id ≠ id }
      receipts := s.receipts.filter fun receipt =>
        !(receipt.role == .object &&
          isRevisionOf s.tables receipt.revisionId id) }

/-- The deliveries that are linked to an activity. -/
def linkedTo (s : State) (activityId : Uuid) : List Uuid :=
  (s.deliveries.filter fun delivery =>
    delivery.details.activityId == some activityId).map DeliveryRow.id

/-- The links are set to `NULL`, and the trigger on them removes the receipts
of their deliveries. -/
def deleteActivity (s : State) (id : Uuid) : State :=
  { s with
    tables := { s.tables with
      activities := s.tables.activities.filter fun activity =>
        activity.id ≠ id }
    deliveries := s.deliveries.map fun delivery =>
      { delivery with details := delivery.details.unlink id }
    receipts := s.receipts.filter fun receipt =>
      !(linkedTo s id).contains receipt.deliveryId }

/-! ## Inbox stores -/

/-- One call of `persistCreate`. -/
structure CreateCall where
  activity : Create
  actorIri : Option JsString
  receipt : Option Receipt
  ids : Ids
  now : Instant

def isLocalActor (t : Inbox.Tables) (actorIri : JsString) : Bool :=
  t.actors.any fun actor => actor.localId.isSome &&
    (t.resource? actor.id).any fun resource => resource.iri == actorIri

/-- A transaction that fails leaves the tables as they are. -/
def transact (env : Environment) (t : Inbox.Tables) (call : StoreCall) :
    Inbox.Tables :=
  match ((service env).program call).run control.engine t with
  | .error _ => t
  | .ok (_, after) => if (service env).accepts t after then after else t

/-- The tables that `persistCreate` leaves, whether it stores the activity,
refuses it or throws. -/
def persistCreate (env : Environment) (t : Inbox.Tables) (call : CreateCall) :
    Inbox.Tables :=
  match call.actorIri with
  | none => t
  | some actorIri =>
      if isLocalActor t actorIri then t
      else
        match call.receipt with
        | none => t
        | some receipt =>
            match accept env call.activity actorIri receipt with
            | .error _ => t
            | .ok accepted => transact env t ⟨accepted, call.ids, call.now⟩

/-! ## Runs -/

inductive Operation where
  | persistCreate (call : CreateCall)
  | recordInbound (entry : InboundDeliveryEntry)
  | receiveInbound (id : Uuid)
  | linkInboundActivity (id : Uuid)
  | recordFetchedObject (id : Uuid) (document : Option Json)
  | deleteObject (id : Uuid)
  | deleteActivity (id : Uuid)
  | deleteDelivery (id : Uuid)

def State.step (env : Environment) (s : State) : Operation → State
  | .persistCreate call =>
      { s with tables := Receipts.persistCreate env s.tables call }
  | .recordInbound entry => (Receipts.recordInbound s entry).getD s
  | .receiveInbound id => (Receipts.receiveInbound s id).2
  | .linkInboundActivity id => (Receipts.linkInboundActivity s id).2
  | .recordFetchedObject id document =>
      (Receipts.recordFetchedObject s id document).2
  | .deleteObject id => Receipts.deleteObject s id
  | .deleteActivity id => Receipts.deleteActivity s id
  | .deleteDelivery id => Receipts.deleteDelivery s id

def State.steps (env : Environment) (s : State) (operations : List Operation) :
    State :=
  operations.foldl (State.step env) s

end DrFed.Receipts
