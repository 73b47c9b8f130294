import DrFed.Store.Registry

/-!
# Appending revisions

The append of one revision with its projections under the lock of its
resource, for resources without a typed row and for typed objects.
-/

namespace DrFed.Store

open Transactions

/-! ## Inputs -/

/-- A relation that a caller projects from a document. -/
structure RevisionRelationInput where
  property : JsString
  path : Option FieldPath
  representation : Representation
  targetIri : Option JsString
  deriving DecidableEq

inductive RevisableKind where
  | object | activity
  deriving DecidableEq

def RevisableKind.resourceKind : RevisableKind → ResourceKind
  | .object => .object
  | .activity => .activity

inductive AppendContent where
  | snapshot (document : Json) (capture : RevisionCapture)
      (addressing : Option (List (JsString × List JsString)))
      (addressingOccurrences : Option (List AddressingOccurrence))
      (relations : List RevisionRelationInput)
      (projection : Option RevisionProjection)
  | whiteout (deleted : Instant) (formerTypes : List JsString)

structure AppendResourceRevisionInput where
  resourceId : Uuid
  resourceKind : RevisableKind
  expectedRevisionId : Option Uuid
  content : AppendContent

structure PreparedRevision where
  resourceId : Uuid
  resourceKind : RevisableKind
  expectedRevisionId : Option Uuid
  kind : RevisionKind
  serialized : Option Json
  capture : Option RevisionCapture
  projection : Option RevisionProjection
  addressing : List AddressingOccurrence
  relations : List RelationOccurrence
  deleted : Option Instant
  formerTypes : Option (List JsString)

/-! ## Preparation -/

/-- Refuse text that cannot be stored as it is. -/
def text (value : JsString) : Except RevisionError Unit :=
  if storableText value then .ok ()
  else .error (.invalid
    "A projection must contain losslessly storable text.")

/-- Number the values of one addressing property. -/
def propertyRows (property : JsString) (values : List JsString) :
    Except RevisionError (List AddressingOccurrence) :=
  values.zipIdx.mapM fun (iri, position) => do
    text iri
    return ⟨property, position, iri⟩

def projectionRows (input : List (JsString × List JsString)) :
    Except RevisionError (List AddressingOccurrence) :=
  if input.any fun entry => !Document.addressingProperties.contains entry.1
  then .error (.invalid "Unknown addressing projection property.")
  else do
    let rows ← Document.addressingProperties.mapM fun property =>
      match input.lookup property with
      | none => .ok []
      | some values => propertyRows property values
    return rows.flatten

def relationRow (relation : RevisionRelationInput) (occurrence : ℕ) :
    Except RevisionError RelationOccurrence := do
  text relation.property
  match relation.targetIri with
  | none =>
      if relation.representation = .reference then
        .error (.invalid "Invalid relation representation.")
      else .ok ()
  | some targetIri => text targetIri
  return ⟨occurrence, relation.property, relation.path,
    relation.representation, relation.targetIri⟩

def relationRows (input : List RevisionRelationInput) :
    Except RevisionError (List RelationOccurrence) :=
  input.zipIdx.mapM fun (relation, occurrence) =>
    relationRow relation occurrence

/-- The addressing rows of a snapshot. -/
def snapshotAddressing (addressing : Option (List (JsString × List JsString)))
    (addressingOccurrences : Option (List AddressingOccurrence)) :
    Except RevisionError (List AddressingOccurrence) :=
  match addressingOccurrences with
  | none => projectionRows (addressing.getD [])
  | some occurrences =>
      if addressing.isSome then
        .error (.invalid "Pass addressing or its occurrences, not both.")
      else
        match checkAddressingOccurrences occurrences [] with
        | some error => .error error
        | none => do
            let _ ← occurrences.mapM fun occurrence => text occurrence.iri
            return occurrences

def isJsonObject : Json → Bool
  | .obj _ => true
  | _ => false

def prepareRevision (input : AppendResourceRevisionInput) :
    Except RevisionError PreparedRevision :=
  match input.content with
  | .snapshot document capture addressing occurrences relations projection =>
      if !isJsonObject document then
        .error (.invalid "A new resource document must be a JSON object.")
      else do
        let addressing ← snapshotAddressing addressing occurrences
        let relations ← relationRows relations
        return {
          resourceId := input.resourceId
          resourceKind := input.resourceKind
          expectedRevisionId := input.expectedRevisionId
          kind := .snapshot
          serialized := some document
          capture := some capture
          projection := some (projection.getD .partially)
          addressing
          relations
          deleted := none
          formerTypes := none }
  | .whiteout deleted formerTypes => do
      let _ ← formerTypes.mapM text
      return {
        resourceId := input.resourceId
        resourceKind := input.resourceKind
        expectedRevisionId := input.expectedRevisionId
        kind := .whiteout
        serialized := none
        capture := none
        projection := none
        addressing := []
        relations := []
        deleted := some deleted
        formerTypes := some formerTypes }

/-! ## Appending -/

/-- A revision with its projections. -/
structure StoredResourceRevision where
  revision : ResourceRevision
  addressing : List AddressingOccurrence
  relations : List RelationOccurrence
  deriving DecidableEq

def hydrate (revision : ResourceRevision) : Tx StoredResourceRevision :=
  Program.read fun t =>
    ⟨revision, t.addressingOf revision.id, t.relationsOf revision.id⟩

/-- Why a locked resource cannot take a revision after the current one. -/
def checkTarget (input : PreparedRevision) (typed legacy : Bool)
    (resource : Resource) (previous : Option ResourceRevision) :
    Option RevisionError :=
  -- A typed append has verified and changes the typed row itself.
  if !typed && legacy then some (.legacy input.resourceId)
  else if resource.kind ≠ .unknown ∧
      resource.kind ≠ input.resourceKind.resourceKind then
    some (.kindConflict resource.iri resource.kind
      input.resourceKind.resourceKind)
  else if previous.isSome ∧ input.resourceKind = .activity then
    some .activityImmutable
  else if previous.map ResourceRevision.kind = some .whiteout then
    some .deleted
  else if input.kind = .whiteout ∧ previous = none then
    some .initialWhiteout
  else none

/-- Promote an unknown resource to the kind of its first revision. -/
def promote (resource : Resource) (kind : ResourceKind) : Tx Unit :=
  if resource.kind = .unknown then Program.send (.setKind resource.id kind)
  else return ()

def lockRevisionTarget (input : PreparedRevision) (typed : Bool) :
    Tx (Option ResourceRevision) := do
  match ← Program.locked fun t => t.resource? input.resourceId with
  | none => .fail (.revision .unregistered)
  | some resource =>
      -- The head is read separately after the resource lock.
      let previous ← Program.read fun t => t.current input.resourceId
      if previous.map ResourceRevision.id ≠ input.expectedRevisionId then
        .fail (.revision (.conflict input.resourceId input.expectedRevisionId
          (previous.map ResourceRevision.id)))
      else
        let legacy ← Program.read fun t =>
          (t.object? input.resourceId).isSome ||
            (t.activity? input.resourceId).isSome
        Program.require ((checkTarget input typed legacy resource previous).map
          Refusal.revision)
        promote resource input.resourceKind.resourceKind
        return previous

/-- The row that an append inserts after `previous`. -/
def revisionRow (input : PreparedRevision)
    (previous : Option ResourceRevision) (id : Uuid) (now : Instant) :
    ResourceRevision where
  id := id
  resourceId := input.resourceId
  sequence := (previous.map ResourceRevision.sequence).getD 0 + 1
  kind := input.kind
  capture := (input.capture.or (previous.map ResourceRevision.capture)).getD
    .locally
  backfilled := false
  document := input.serialized
  formerTypes := input.formerTypes
  deleted := input.deleted
  projection := (input.projection.or
    (previous.map ResourceRevision.projection)).getD .partially
  created := now

/-- The projections that a whiteout takes over from the revision before it. -/
def inheritedProjections (input : PreparedRevision)
    (previous : Option ResourceRevision) :
    Tx (List AddressingOccurrence × List RelationOccurrence) :=
  match input.kind, previous with
  | .whiteout, some previous => do
      let inherited ← hydrate previous
      return (inherited.addressing, inherited.relations)
  | _, _ => return ([], [])

/-- Insert projection rows, when there are any. -/
def insertProjections (table : RevisionTable) (rows : List (Row table)) :
    Tx Unit :=
  if rows.isEmpty then return () else Program.send (.insert table rows)

/-- Let the head of a resource name a revision. -/
def publish (resourceId : Uuid) (previous : Option ResourceRevision)
    (id : Uuid) : Tx Unit :=
  match previous with
  | none => Program.send (.insert .heads [(⟨resourceId, id⟩ : ResourceHead)])
  | some _ =>
      Program.send (.update .heads
        (fun head : ResourceHead => head.resourceId == resourceId)
        fun head : ResourceHead => { head with revisionId := id })

/-- Insert a revision with its projections after `previous`, and publish it. -/
def appendRow (input : PreparedRevision) (previous : Option ResourceRevision)
    (revision : ResourceRevision) : Tx StoredResourceRevision := do
  Program.send (.insert .revisions [revision])
  let inherited ← inheritedProjections input previous
  insertProjections .addressing
    ((input.addressing ++ inherited.1).map (RevisionAddressing.mk revision.id))
  insertProjections .relations
    ((input.relations ++ inherited.2).map (RevisionRelation.mk revision.id))
  publish input.resourceId previous revision.id
  hydrate revision

def appendPrepared (input : PreparedRevision) (typed : Bool) (id : Uuid)
    (now : Instant) : Tx StoredResourceRevision := do
  let previous ← lockRevisionTarget input typed
  appendRow input previous (revisionRow input previous id now)

/-- Append one current object version or saved activity, atomically with its
projections. -/
def appendResourceRevision (input : AppendResourceRevisionInput) (id : Uuid)
    (now : Instant) : Tx StoredResourceRevision :=
  match prepareRevision input with
  | .error error => .fail (.revision error)
  | .ok prepared => appendPrepared prepared false id now

/-! ## Typed objects -/

/-- The typed columns that an edit sets; the type only when it is given. -/
structure TypedObjectColumns where
  type : Option ObjectType
  url : Option JsString
  name : Option JsString
  summary : Option JsString
  contentHtml : JsString
  language : Option JsString
  sensitive : Bool
  published : Instant
  updated : Instant
  deriving DecidableEq

inductive TypedContent where
  | snapshot (document : Json) (columns : TypedObjectColumns)
      (addressingOccurrences : List AddressingOccurrence)
      (relations : List RevisionRelationInput)
      (projection : Option RevisionProjection)
  | whiteout (deleted : Instant) (formerTypes : List JsString)

structure TypedResourceRevisionInput where
  resourceId : Uuid
  expectedRevisionId : Uuid
  content : TypedContent

/-- The append that a typed write makes. -/
def TypedResourceRevisionInput.append (input : TypedResourceRevisionInput) :
    AppendResourceRevisionInput where
  resourceId := input.resourceId
  resourceKind := .object
  expectedRevisionId := some input.expectedRevisionId
  content :=
    match input.content with
    | .snapshot document _ occurrences relations projection =>
        .snapshot document .locally none (some occurrences) relations
          projection
    | .whiteout deleted formerTypes => .whiteout deleted formerTypes

/-- `EXCEPT ALL` in both directions leaves nothing. -/
def sameRows (left right : List AddressingOccurrence) : Bool :=
  (left.diff right).isEmpty && (right.diff left).isEmpty

/-- The live typed row has the document and addressing of the head. -/
def sameTypedState (t : Tables) (resourceId : Uuid)
    (head : ResourceRevision) : Bool :=
  match t.object? resourceId with
  | none => false
  | some row =>
      row.deleted.isNone && row.document == head.document &&
        sameRows (t.addressingOf head.id) (t.declaredAddressing resourceId)

/-- Set the columns that an edit gives. -/
def TypedObjectColumns.set (columns : TypedObjectColumns)
    (document : Option Json) (row : ActivityPubObject) : ActivityPubObject :=
  { row with
    type := columns.type.getD row.type
    url := columns.url
    name := columns.name
    summary := columns.summary
    contentHtml := columns.contentHtml
    language := columns.language
    sensitive := columns.sensitive
    published := columns.published
    updated := columns.updated
    -- The edited document is local, not a copy fetched from its IRI.
    fetched := false
    document }

/-- The change of the typed row and its addressing. -/
def writeTypedState (input : TypedResourceRevisionInput)
    (prepared : PreparedRevision) (ids : FreshIds) : Tx Unit :=
  match input.content with
  | .snapshot _ columns occurrences _ _ => do
      Program.send (.updateObject input.resourceId
        (columns.set prepared.serialized))
      replaceAddressing ids input.resourceId occurrences
  | .whiteout deleted _ => do
      -- The update hook must not move `updated` past the deletion.
      match ← Program.read fun t => t.object? input.resourceId with
      | none => .fail (.revision (.invalid "Missing typed row."))
      | some row =>
          Program.send (.updateObject input.resourceId fun old =>
            { old with deleted := some deleted, updated := row.updated })

/-- Edit or delete an object that has a typed row, keeping the typed row, its
current addressing, and the history in step. -/
def writeTypedResourceRevision (input : TypedResourceRevisionInput)
    (ids : FreshIds) (id : Uuid) (now : Instant) :
    Tx StoredResourceRevision :=
  match prepareRevision input.append with
  | .error error => .fail (.revision error)
  | .ok prepared => do
      let resource ← Program.locked fun t => t.resource? input.resourceId
      let typed ← Program.read fun t => t.object? input.resourceId
      if resource.map Resource.kind ≠ some .object ∨ typed.isNone then
        .fail (.revision (.legacy input.resourceId))
      else
        match ← Program.read fun t => t.current input.resourceId with
        | none =>
            .fail (.revision (.conflict input.resourceId
              (some input.expectedRevisionId) none))
        | some head =>
            if head.id ≠ input.expectedRevisionId then
              .fail (.revision (.conflict input.resourceId
                (some input.expectedRevisionId) (some head.id)))
            else if head.kind = .whiteout then .fail (.revision .deleted)
            else if head.kind ≠ .snapshot then
              .fail (.revision (.legacy input.resourceId))
            else
              let same ← Program.read fun t =>
                sameTypedState t input.resourceId head
              if !same then .fail (.revision (.legacy input.resourceId))
              else
                writeTypedState input prepared ids
                appendPrepared prepared true id now

end DrFed.Store
