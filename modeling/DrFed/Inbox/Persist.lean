import DrFed.Inbox.Create
import DrFed.Store.Capture
import DrFed.Support.Isolation

/-!
# Storing an accepted activity

The transaction that stores an accepted `Create` with its actor and object, as
a program over the tables, and the keys that its statements hold until the
transaction ends.
-/

namespace DrFed.Inbox

open Store Transactions ReadCommitted

structure Instance where
  id : Uuid
  host : JsString
  localId : Option Uuid
  deriving DecidableEq

/-- The columns of a remote actor that the inbox writes. -/
structure RemoteActor where
  id : Uuid
  type : ActorType
  username : Option JsString
  instanceId : Uuid
  inboxUrl : JsString
  followersUrl : Option JsString
  document : Json

structure Tables extends Store.Tables where
  instances : List Instance
  remoteActors : List RemoteActor

namespace Tables

def instanceAt? (t : Tables) (host : JsString) : Option Instance :=
  t.instances.find? fun row => row.host == host

end Tables

/-! ## Statements -/

inductive Statement where
  | registry (statement : Store.Statement)
  /-- A host that is registered is left as it is. -/
  | insertInstance (row : Instance)
  /-- `FOR NO KEY UPDATE` of a resource. -/
  | lock (resourceId : Uuid)
  | insertActor (row : RemoteActor)
  | insertObject (row : ActivityPubObject)

namespace Statement

def effect : Statement → Tables → Tables
  | .registry statement, t =>
      { t with toTables := statement.effect t.toTables }
  | .insertInstance row, t =>
      if (t.instanceAt? row.host).isSome then t
      else { t with instances := t.instances ++ [row] }
  | .lock _, t => t
  | .insertActor row, t =>
      { t with
        actors := t.actors ++ [⟨row.id, none⟩]
        remoteActors := t.remoteActors ++ [row] }
  | .insertObject row, t => { t with objects := t.objects ++ [row] }

def constraint {α : Type} (name : String) : Except Failure α :=
  .error (.store (.constraint name))

def execute : Statement → Tables → Except Failure Tables
  | .registry statement, t =>
      match statement.execute t.toTables with
      | .error refusal => .error (.store refusal)
      | .ok _ => .ok ((registry statement).effect t)
  | .insertInstance row, t =>
      if (t.instanceAt? row.host).isNone ∧
          (t.instances.any fun other => other.id == row.id) then
        constraint "instances_pkey"
      else .ok ((insertInstance row).effect t)
  | .lock id, t => .ok ((lock id).effect t)
  | .insertActor row, t =>
      if (t.actor? row.id).isSome then constraint "actors_pkey"
      else .ok ((insertActor row).effect t)
  | .insertObject row, t =>
      if (t.object? row.id).isSome then constraint "objects_pkey"
      else if t.objects.any fun other =>
          other.activityId.isSome && other.activityId == row.activityId then
        constraint "objects_activity_id_key"
      else .ok ((insertObject row).effect t)

theorem execute_effect {s : Statement} {t after : Tables}
    (h : s.execute t = .ok after) : after = s.effect t := by
  cases s with
  | registry statement =>
      rw [execute] at h
      cases hexecute : statement.execute t.toTables with
      | error refusal =>
          rw [hexecute] at h
          cases h
      | ok middle =>
          rw [hexecute] at h
          exact (Except.ok.inj h).symm
  | insertInstance row =>
      rw [execute] at h
      split_ifs at h
      · cases h
      · exact (Except.ok.inj h).symm
  | lock id => exact (Except.ok.inj h).symm
  | insertActor row =>
      rw [execute] at h
      split_ifs at h
      · cases h
      · exact (Except.ok.inj h).symm
  | insertObject row =>
      rw [execute] at h
      split_ifs at h
      · cases h
      · cases h
      · exact (Except.ok.inj h).symm

end Statement

/-! ## Keys -/

/-- What a transaction holds until it ends: the row of a resource, which its
typed row shares, or a unique value that it has inserted. -/
inductive Key where
  | row (resourceId : Uuid)
  | iri (iri : JsString)
  | host (host : JsString)
  | instanceId (id : Uuid)
  deriving DecidableEq

namespace Statement

def keys : Statement → Tables → List Key
  | .registry (.insertResource row), t =>
      if (t.resourceAt? row.iri).isSome then [] else [.iri row.iri, .row row.id]
  | .registry (.setKind id _), _ => [.row id]
  | .registry (.insertActivity row), _ => [.row row.id]
  -- The guard of the revisions locks their resources.
  | .registry (.insert .revisions rows), _ =>
      rows.map fun row => .row (ResourceRevision.resourceId row)
  | .registry _, _ => []
  | .insertInstance row, t =>
      if (t.instanceAt? row.host).isSome then []
      else [.host row.host, .instanceId row.id]
  | .lock id, _ => [.row id]
  | .insertActor row, _ => [.row row.id]
  | .insertObject row, _ => [.row row.id]

/-- A registered value that is inserted again leaves no row, nor does a
lock. -/
def writes : Statement → Tables → Bool
  | .registry (.insertResource row), t => (t.resourceAt? row.iri).isNone
  | .insertInstance row, t => (t.instanceAt? row.host).isNone
  | .lock _, _ => false
  | _, _ => true

theorem effect_of_not_writes {s : Statement} {t : Tables}
    (h : s.writes t = false) : s.effect t = t := by
  cases s with
  | registry statement =>
      cases statement with
      | insertResource row =>
          have hsome : (t.resourceAt? row.iri).isSome = true := by
            simpa [writes] using h
          rw [effect, Store.Statement.effect, if_pos hsome]
      | _ => cases h
  | insertInstance row =>
      have hsome : (t.instanceAt? row.host).isSome = true := by
        simpa [writes] using h
      rw [effect, if_pos hsome]
  | lock id => rfl
  | insertActor row => cases h
  | insertObject row => cases h

end Statement

def control : Control Tables Statement Failure Key where
  engine := ⟨Statement.execute, Statement.effect, Statement.execute_effect⟩
  keys := Statement.keys
  writes := Statement.writes
  idle := Statement.effect_of_not_writes

/-! ## The transaction -/

abbrev Tx := Program Tables Statement Failure

/-- A program over the registry, as part of a transaction of the inbox. -/
def onRegistry {α : Type} (program : Store.Tx α) : Tx α :=
  program.lift Tables.toTables Statement.registry Failure.store

/-- The ids that a transaction draws. -/
structure Ids where
  /-- For the registration of an IRI and for the rows of addressing. -/
  fresh : FreshIds
  remoteInstance : Uuid
  objectRevision : Uuid
  activityRevision : Uuid
  whiteout : Uuid

/-- The instance of a host, unless it is a local one. -/
def ensureRemoteInstance (host : JsString) (id : Uuid) :
    Tx (Option Instance) := do
  Program.send (.insertInstance ⟨id, host, none⟩)
  match ← Program.read fun t => t.instanceAt? host with
  | none => .fail (.missing "Instance insertion returned no row.")
  | some row => return if row.localId.isNone then some row else none

/-- Locks resources for promotion in the order of their IRIs. -/
def lockResources (collation : JsString → JsString → Bool)
    (iris : List JsString) : Tx Unit := do
  let rows ← Program.read fun t =>
    (t.resources.filter fun row => iris.contains row.iri).insertionSort
      fun first second => collation first.iri second.iri
  Program.sendAll (rows.map fun row => .lock row.id)

/-- Promotes an unknown IRI and inserts its typed row.  An IRI that already is
of the kind is passed to `reuse` instead. -/
def promoteResource {α : Type} (iri : JsString) (kind : ResourceKind)
    (id : Uuid) (insert : Resource → Tx α) (reuse : Option (Resource → Tx α)) :
    Tx α := do
  let ensured ← onRegistry (ensureResource iri id)
  Program.send (.lock ensured.id)
  -- The kind is read again after the lock.
  match ← Program.read fun t => t.resource? ensured.id with
  | none => .fail (.missing "Resource disappeared during promotion.")
  | some resource =>
      if resource.kind = kind then
        match reuse with
        | none => .fail (.promoted iri)
        | some reuse => reuse resource
      else if resource.kind ≠ .unknown then
        .fail (.kindConflict iri resource.kind kind)
      else do
        Program.send (.registry (.setKind resource.id kind))
        insert { resource with kind }

def storeAddressing (ids : FreshIds) (sourceId : Uuid) (n : ℕ)
    (input : AddressingInput) : Tx Unit :=
  onRegistry do
    let targets ← ensureResources ids
      ((addressedIris input).dedup.insertionSort keyLe)
    insertOccurrences ids sourceId targets n (occurrences input)

def captureLegacyResourceRevision (resourceId firstId whiteoutId : Uuid) :
    Tx Unit := do
  Program.send (.lock resourceId)
  let _ ← onRegistry (captureLegacyResource resourceId false firstId whiteoutId)
  return ()

/-- An object stored before, which a `Create` of its own actor may refer
to. -/
def reuseObject (id actorId : Uuid) : Tx (Uuid × Instant) := do
  match ← Program.read fun t => t.object? id with
  | none => .fail (.refusal "its object has no supported typed details")
  | some row =>
      if row.actorId ≠ actorId then
        .fail (.refusal "its object is already another actor's")
      else return (row.id, row.published)

section Store

variable (env : Environment) (ids : Ids) (now : Instant) (accepted : Accepted)

def actorRow (instanceId resourceId : Uuid) : RemoteActor where
  id := resourceId
  type := accepted.actorType
  username := accepted.username
  instanceId
  inboxUrl := accepted.inboxUrl
  followersUrl := accepted.followersUrl
  document := reparsed accepted.actorDocument

def objectRow (resourceId actorId activityId : Uuid) : ActivityPubObject where
  id := resourceId
  actorId
  activityId := some activityId
  fetched := accepted.objectFetched
  type := accepted.objectType
  document := accepted.objectDocument.map reparsed
  url := none
  name := accepted.name
  summary := accepted.summary
  contentHtml := accepted.contentHtml
  language := accepted.language
  sensitive := accepted.sensitive.getD false
  published := accepted.objectPublished.getD accepted.receipt.received
  updated := now
  created := now
  deleted := none

/-- The activity as its origin sent it, not as Fedify serializes it. -/
def activityRow (resourceId actorId objectId : Uuid)
    (objectPublished : Instant) : StoredActivity where
  id := resourceId
  actorId
  objectId := some objectId
  published := accepted.activityPublished.getD objectPublished
  document := some (reparsed accepted.receipt.payload)
  created := now

def storeActor (instanceId : Uuid) : Tx Uuid :=
  promoteResource accepted.actorIri .actor (ids.fresh.resource accepted.actorIri)
    (fun resource => do
      Program.send (.insertActor (actorRow accepted instanceId resource.id))
      return resource.id)
    (some fun resource => pure resource.id)

def storeObject (actorId activityId : Uuid) : Tx (Uuid × Instant) :=
  promoteResource accepted.objectIri .object
    (ids.fresh.resource accepted.objectIri)
    (fun resource => do
      let row := objectRow now accepted resource.id actorId activityId
      Program.send (.insertObject row)
      storeAddressing ids.fresh row.id 0 accepted.objectAddressing
      return (row.id, row.published))
    (some fun resource => reuseObject resource.id actorId)

def storeActivity (actorId objectId : Uuid) (objectPublished : Instant) :
    Tx Unit :=
  promoteResource accepted.activityIri .activity
    (ids.fresh.resource accepted.activityIri)
    (fun resource => do
      Program.send (.registry (.insertActivity
        (activityRow now accepted resource.id actorId objectId
          objectPublished)))
      storeAddressing ids.fresh resource.id
        (occurrences accepted.objectAddressing).length
        accepted.activityAddressing)
    none

/-- The IRIs that the transaction registers, in one order. -/
def storedIris : List JsString :=
  ([accepted.actorIri, accepted.objectIri, accepted.activityIri] ++
    addressedIris accepted.objectAddressing ++
    addressedIris accepted.activityAddressing).dedup.insertionSort keyLe

/-- The rows of an activity that is not stored yet. -/
def storeRows (instanceId activityId : Uuid) : Tx Unit := do
  let actorId ← storeActor ids accepted instanceId
  let stored ← storeObject ids now accepted actorId activityId
  storeActivity ids now accepted actorId stored.1 stored.2
  captureLegacyResourceRevision stored.1 ids.objectRevision ids.whiteout
  captureLegacyResourceRevision activityId ids.activityRevision ids.whiteout

def store : Tx Unit := do
  match ← ensureRemoteInstance (env.canonicalHost accepted.actorIri)
      ids.remoteInstance with
  | none => .fail (.refusal "its actor is on a local instance")
  | some row => do
      let _ ← onRegistry (ensureResources ids.fresh (storedIris accepted))
      lockResources env.collation
        [accepted.actorIri, accepted.objectIri, accepted.activityIri]
      let resource ← onRegistry (ensureResource accepted.activityIri
        (ids.fresh.resource accepted.activityIri))
      if resource.kind = .activity then
        .fail (.refusal "it is already stored")
      else storeRows ids now accepted row.id resource.id

end Store

/-- A call of `store`, with the ids and the time of its transaction. -/
structure StoreCall where
  accepted : Accepted
  ids : Ids
  now : Instant

def service (env : Environment) :
    Service Tables Statement Failure Key Unit StoreCall where
  control := control
  program call := store env call.ids call.now call.accepted
  accepts before after :=
    (before.toTables.unpublished after.toTables).isEmpty

end DrFed.Inbox
