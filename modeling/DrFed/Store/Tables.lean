import Mathlib.Data.List.MinMax
import DrFed.Js.Path

/-!
# The tables of the store

The registry of canonical resources, the typed rows of objects and activities
with their current addressing, and the retained revisions with their heads and
projections.  A table lists its rows in insertion order.  A `json` column holds
a document as its JSON text; equal texts are equal values here.
-/

namespace DrFed.Store

abbrev Uuid := BitVec 128

/-- Microseconds since the epoch. -/
abbrev Instant := ℤ

inductive ResourceKind where
  | actor | object | activity | collection | unknown
  deriving DecidableEq

structure Resource where
  id : Uuid
  iri : JsString
  kind : ResourceKind
  deriving DecidableEq

/-- The columns of an actor that the history reads. -/
structure Actor where
  id : Uuid
  localId : Option Uuid
  deriving DecidableEq

inductive ObjectType where
  | article | note
  deriving DecidableEq

structure ActivityPubObject where
  id : Uuid
  actorId : Uuid
  activityId : Option Uuid
  fetched : Bool
  type : ObjectType
  document : Option Json
  url : Option JsString
  name : Option JsString
  summary : Option JsString
  contentHtml : JsString
  language : Option JsString
  sensitive : Bool
  published : Instant
  updated : Instant
  created : Instant
  deleted : Option Instant
  deriving DecidableEq

structure StoredActivity where
  id : Uuid
  actorId : Uuid
  objectId : Option Uuid
  published : Instant
  document : Option Json
  created : Instant
  deriving DecidableEq

/-- One occurrence of the current addressing of a resource. -/
structure Addressing where
  id : Uuid
  sourceId : Uuid
  property : JsString
  position : ℕ
  targetId : Uuid
  deriving DecidableEq

inductive RevisionKind where
  | snapshot | unavailable | whiteout
  deriving DecidableEq

inductive RevisionCapture where
  | locally | received | embedded | fetched
  deriving DecidableEq

inductive RevisionProjection where
  | partially | complete
  deriving DecidableEq

structure ResourceRevision where
  id : Uuid
  resourceId : Uuid
  sequence : ℕ
  kind : RevisionKind
  capture : RevisionCapture
  backfilled : Bool
  document : Option Json
  formerTypes : Option (List JsString)
  deleted : Option Instant
  projection : RevisionProjection
  created : Instant
  deriving DecidableEq

/-- The current revision of one canonical resource. -/
structure ResourceHead where
  resourceId : Uuid
  revisionId : Uuid
  deriving DecidableEq

/-- An addressing occurrence at its source position. -/
structure AddressingOccurrence where
  property : JsString
  position : ℕ
  iri : JsString
  deriving DecidableEq

structure RevisionAddressing where
  revisionId : Uuid
  occurrence : AddressingOccurrence
  deriving DecidableEq

inductive Representation where
  | reference | embedded | link
  deriving DecidableEq

/-- A relation row without the revision it belongs to. -/
structure RelationOccurrence where
  occurrence : ℕ
  property : JsString
  path : Option FieldPath
  representation : Representation
  targetIri : Option JsString
  deriving DecidableEq

structure RevisionRelation where
  revisionId : Uuid
  relation : RelationOccurrence
  deriving DecidableEq

structure Tables where
  resources : List Resource
  actors : List Actor
  objects : List ActivityPubObject
  activities : List StoredActivity
  addressing : List Addressing
  revisions : List ResourceRevision
  heads : List ResourceHead
  revisionAddressing : List RevisionAddressing
  revisionRelations : List RevisionRelation
  deriving DecidableEq

namespace Tables

variable (t : Tables)

/-! ## Queries -/

def resource? (id : Uuid) : Option Resource :=
  t.resources.find? fun row => row.id == id

def resourceAt? (iri : JsString) : Option Resource :=
  t.resources.find? fun row => row.iri == iri

def actor? (id : Uuid) : Option Actor :=
  t.actors.find? fun row => row.id == id

def object? (id : Uuid) : Option ActivityPubObject :=
  t.objects.find? fun row => row.id == id

def activity? (id : Uuid) : Option StoredActivity :=
  t.activities.find? fun row => row.id == id

/-- The retained revisions of a resource. -/
def historyOf (resourceId : Uuid) : List ResourceRevision :=
  t.revisions.filter fun row => row.resourceId == resourceId

/-- The revision with the highest sequence of a resource. -/
def latest (resourceId : Uuid) : Option ResourceRevision :=
  (t.historyOf resourceId).argmax ResourceRevision.sequence

def revision? (id : Uuid) : Option ResourceRevision :=
  t.revisions.find? fun row => row.id == id

/-- A revision of one resource. -/
def revisionOf? (resourceId id : Uuid) : Option ResourceRevision :=
  (t.historyOf resourceId).find? fun row => row.id == id

/-- The revision that the head of a resource names. -/
def current (resourceId : Uuid) : Option ResourceRevision :=
  (t.heads.find? fun head => head.resourceId == resourceId).bind fun head =>
    t.revisionOf? resourceId head.revisionId

/-- The addressing projection of a revision. -/
def addressingOf (revisionId : Uuid) : List AddressingOccurrence :=
  (t.revisionAddressing.filter fun row => row.revisionId == revisionId).map
    RevisionAddressing.occurrence

/-- The relation projection of a revision. -/
def relationsOf (revisionId : Uuid) : List RelationOccurrence :=
  (t.revisionRelations.filter fun row => row.revisionId == revisionId).map
    RevisionRelation.relation

/-- The current addressing of a resource, with the addressed IRIs. -/
def declaredAddressing (sourceId : Uuid) : List AddressingOccurrence :=
  (t.addressing.filter fun row => row.sourceId == sourceId).flatMap fun row =>
    (t.resources.filter fun target => target.id == row.targetId).map
      fun target => ⟨row.property, row.position, target.iri⟩

end Tables

end DrFed.Store
