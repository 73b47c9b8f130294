import DrFed.Document.Prepare
import DrFed.Instances.Origin
import DrFed.Js.Stringify
import DrFed.LocalWrite.Indexing

/-!
# Preparing a create

What a create request would save: every new resource with the values the
server gives it, each in a document of its own, with the index of that
document.  Preparing writes nothing; a commit runs it again under its locks.
-/

namespace DrFed.LocalWrite

open Document Store Instances

/-! ## Requests and outcomes -/

inductive LocalWriteErrorType where
  | invalidRequest | invalidDocument | actorNotFound | invalidInstanceHost
  | stalePreview | revisionConflict | resourceConflict | unsupportedEdit
  deriving DecidableEq

structure LocalWriteError where
  type : LocalWriteErrorType
  message : String
  diagnostics : List Diagnostic

def writeError (type : LocalWriteErrorType) (message : String) :
    LocalWriteError :=
  ⟨type, message, []⟩

/-- How a preparation ends without a result: it refuses the write, or it
throws. -/
inductive Failure where
  | refused (error : LocalWriteError)
  | thrown (error : TypeError)

abbrev Prepares (α : Type) := Except Failure α

def refuse {α : Type} (error : LocalWriteError) : Prepares α :=
  .error (.refused error)

def refuseWith {α : Type} (type : LocalWriteErrorType) (message : String)
    (diagnostics : List Diagnostic) : Prepares α :=
  refuse ⟨type, message, diagnostics⟩

/-- Refuse a write that a condition does not hold of. -/
def demand (condition : Bool) (error : LocalWriteError) : Prepares Unit :=
  if condition then .ok () else refuse error

inductive NewRepresentation where
  | embedded | reference
  deriving DecidableEq

/-- A document in the request to save as a new local resource. -/
structure NewResource where
  path : FieldPath
  kind : RevisableKind
  representation : Option NewRepresentation
  deriving DecidableEq

structure CreateRequest where
  actorId : Uuid
  document : JsonObject
  resources : List NewResource
  publish : Bool

def CreateRequest.value (request : CreateRequest) : Json :=
  .obj request.document.members

/-- The server values a preview showed. -/
structure Allocation where
  ids : List (JsString × Uuid)
  timestamp : Instant
  distinct : (ids.map Prod.fst).Nodup

structure WritingActor where
  id : Uuid
  iri : JsString
  instanceId : Uuid
  origin : Url

/-- A resource as a commit would save it. -/
structure PreparedResource where
  path : FieldPath
  generated : Bool
  kind : RevisableKind
  id : Uuid
  iri : JsString
  document : Json
  addressing : List AddressingOccurrence
  relations : List RevisionRelationInput

structure PreparedWrite where
  diagnostics : List Diagnostic
  changes : List Change
  resources : List PreparedResource

/-- The answers of the database about identities, as sets of IRIs. -/
structure IdentityLookups where
  localActors : List JsString → List JsString
  registered : List JsString → List JsString

/-- The IRIs that the router of the federation composes. -/
inductive ObjectRoute where
  | object (identifier id : Uuid)
  | create (id : Uuid)
  | activity (id : Uuid)

/-- The running server, as far as a preparation asks it: its router, URLs,
and the texts of instants and numbers. -/
structure Server where
  getObjectUri : Url → ObjectRoute → JsString
  parseUrl : JsString → Option Url
  rootOrigin : Url
  instantText : Instant → JsString
  numeral : ℚ → Numeral

def segmentText : Segment → JsonText
  | .key name => .str name
  | .index i => .num (integerNumeral i)

/-- `JSON.stringify(path)` -/
def pathKey (path : FieldPath) : JsString :=
  (JsonText.arr (path.map segmentText)).write

/-! ## Descriptors -/

def nestingProperties : List JsString :=
  [js "object", js "target", js "origin", js "result", js "instrument"]

/-- The document that embeds the value at a path: a list on the way is
skipped. -/
def parentPath (path : FieldPath) : FieldPath :=
  match path.getLast? with
  | some (.index _) => path.dropLast.dropLast
  | _ => path.dropLast

section Platform

variable (P : Platform)

def savableAs (kind : RevisableKind) (node : DocumentNode) : Bool :=
  match kind with
  | .activity => node.kind == .activity
  | .object => node.kind == .object || node.type == P.typeId .question

def listedTwice : List FieldPath → List NewResource → Option FieldPath
  | _, [] => none
  | seen, resource :: rest =>
      if resource.path ∈ seen then some resource.path
      else listedTwice (resource.path :: seen) rest

def checkPublication (request : CreateRequest) (nodes : List DocumentNode) :
    Prepares Unit :=
  let rootKind :=
    (request.resources.find? fun resource => resource.path.isEmpty).map
      NewResource.kind
  if !request.publish ||
      ((nodeAt nodes []).map DocumentNode.kind == some .activity &&
        rootKind == some .activity) then
    .ok ()
  else refuse (writeError .invalidRequest "Only an activity can be published.")

def checkDescriptor (nodes : List DocumentNode) (paths : List FieldPath)
    (resource : NewResource) : Prepares Unit :=
  match nodeAt nodes resource.path with
  | none =>
      refuse (writeError .invalidRequest
        (showJs (pathKey resource.path) ++ " is not an embedded document."))
  | some node =>
      if !savableAs P resource.kind node then
        refuse (writeError .invalidRequest
          (showJs (pathKey resource.path) ++ " is not " ++
            (if resource.kind = .activity then "an activity"
              else "an object") ++
            " that can be saved as a local resource."))
      else if resource.path.isEmpty then
        if resource.representation.isSome then
          refuse (writeError .invalidRequest
            "The root document has no representation.")
        else .ok ()
      else if !node.property.any nestingProperties.contains ||
          !paths.contains (parentPath resource.path) then
        refuse (writeError .invalidRequest
          (showJs (pathKey resource.path) ++
            " must be embedded in a new resource's object, target, " ++
            "origin, result, or instrument."))
      else .ok ()

def checkDescriptors (request : CreateRequest) (nodes : List DocumentNode) :
    Prepares Unit := do
  let paths := request.resources.map NewResource.path
  match listedTwice [] request.resources with
  | some path =>
      refuse (writeError .invalidRequest
        ("The resource " ++ showJs (pathKey path) ++ " is listed twice."))
  | none =>
      if !paths.contains [] then
        refuse (writeError .invalidRequest
          "The root document must be one of the new resources.")
      else do
        let _ ← request.resources.mapM (checkDescriptor P nodes paths)
        checkPublication request nodes

end Platform

/-! ## Values at paths -/

/-- The value at a path of own properties. -/
def valueAt (document : Json) : FieldPath → Option Json
  | [] => some document
  | segment :: rest =>
      (ownProperty document segment).bind fun value => valueAt value rest

/-- `Object.defineProperty` on the value that holds a path. -/
def setAt (document : Json) (path : FieldPath) (value : Json) :
    Prepares Json :=
  match valueAt document path.dropLast, path.getLast? with
  | some (.obj _), some segment | some (.arr _), some segment =>
      .ok (document.update path.dropLast fun parent =>
        parent.setChild segment value)
  | _, _ =>
      .error (.thrown "The parent of a nested resource is not a document.")

/-! ## Identity claims -/

structure ClaimedIdentity where
  iri : JsString
  path : FieldPath

section Claims

variable (server : Server)

def onInstanceHost (iri : JsString) : Bool :=
  (server.parseUrl iri).any fun url =>
    classifyHost url server.rootOrigin == .ofInstance

def ownedAttribution : RevisableKind → JsString
  | .activity => js "actor"
  | .object => js "attributedTo"

def isAttribution (property : JsString) : Bool :=
  property == js "actor" || property == js "attributedTo"

/-- The identifiers of a node that claim an actor or another identity.  A new
resource's id and author are server-owned; its other attribution property is
a claim. -/
def claimsOf (created : List (FieldPath × RevisableKind)) (actors : Bool)
    (node : DocumentNode) : List ClaimedIdentity :=
  let createdKind := created.reverse.lookup node.path
  let embedsActor := node.property.any isAttribution
  node.identifiers.filterMap fun entry =>
    let owned := createdKind.any fun kind =>
      entry.property == js "id" || entry.property == ownedAttribution kind
    let isActor := isAttribution entry.property ||
      (entry.property == js "id" && embedsActor)
    if owned then none
    else if !isActor && entry.property != js "id" then none
    else if !onInstanceHost server entry.iri then none
    else if isActor == actors then some ⟨entry.iri, entry.path⟩
    else none

/-- The claims on instance hosts that are denied: actors that are not local
actors of the acting actor's instance, and ids that are neither registered nor
allocated in this write. -/
def deniedClaims (nodes : List DocumentNode)
    (created : List (FieldPath × RevisableKind)) (allocated : List JsString)
    (lookups : IdentityLookups) : List DocumentAuthority :=
  let actors := nodes.flatMap (claimsOf server created true)
  let ids := nodes.flatMap (claimsOf server created false)
  let localActors :=
    lookups.localActors (actors.map ClaimedIdentity.iri).eraseDups
  let registered := lookups.registered (ids.map ClaimedIdentity.iri).eraseDups
  ((actors.filter fun claim => !localActors.contains claim.iri) ++
    (ids.filter fun claim =>
      !registered.contains claim.iri && !allocated.contains claim.iri)).map
    fun claim => ⟨false, claim.path⟩

/-! ## Server values -/

structure PlannedResource extends NewResource where
  id : Uuid
  iri : JsString

variable (P : Platform)

def resourceIri (actor : WritingActor) (kind : RevisableKind)
    (type : JsString) (id : Uuid) : JsString :=
  server.getObjectUri actor.origin
    (match kind with
    | .object => .object actor.id id
    | .activity => if type = P.typeId .create then .create id else .activity id)

/-- A descriptor with the id it is allocated and the IRI of that id.  Both
lookups succeed once the descriptors and the allocation are checked. -/
def planResource (actor : WritingActor) (allocation : Allocation)
    (nodes : List DocumentNode) (resource : NewResource) :
    Prepares PlannedResource :=
  match allocation.ids.lookup (pathKey resource.path),
      nodeAt nodes resource.path with
  | some id, some node =>
      .ok { resource with
        id
        iri := resourceIri server P actor resource.kind node.type id }
  | _, _ => .error (.thrown "Cannot read properties of undefined.")

def ownedFields (actor : WritingActor) (published : JsString)
    (planned : PlannedResource) : List ServerOwnedField :=
  [⟨planned.path ++ [.key (js "id")], planned.iri⟩,
    ⟨planned.path ++ [.key (ownedAttribution planned.kind)], actor.iri⟩,
    ⟨planned.path ++ [.key (js "published")], published⟩]

/-! ## Nested resources -/

def contextEntries : Option Json → List Json
  | none => []
  | some (.arr items) => items
  | some value => [value]

/-- The entries of the contexts of all documents that enclose a path, from
the outside in. -/
def contextChain (prepared : Json) (preparedNodes : List FieldPath)
    (path : FieldPath) : List Json :=
  let chain := (List.range (path.length + 1)).flatMap fun length =>
    if preparedNodes.contains (path.take length) then
      contextEntries
        (valueAt prepared (path.take length ++ [.key (js "@context")]))
    else []
  -- The validator reads a document without a context as ActivityStreams.
  if (prepared.member? (js "@context")).isNone then
    .str activityStreamsContext :: chain
  else chain

def chainContext : List Json → Json
  | [entry] => entry
  | entries => .arr entries

/-- The document of a nested resource on its own: it states the context it
inherited, unless it states the same already. -/
def materialize (chain : List Json) (ms : List (JsString × Json))
    (path : FieldPath) : List (JsString × Json) × List Change :=
  let own := ms.lookup (js "@context")
  let context := chainContext chain
  if chain.isEmpty ||
      Json.stringify server.numeral context =
        Json.stringify server.numeral (own.getD .null) then
    (ms, [])
  else
    let message := "The saved resource states the context it inherited."
    let contextPath := path ++ [.key (js "@context")]
    (AssocList.put (js "@context") context ms,
      [match own with
      | none =>
          .add "materialize_effective_context" contextPath context message
      | some own =>
          .replace "materialize_effective_context" contextPath own context
            message])

def Diagnostic.below (path : FieldPath) (d : Diagnostic) : Diagnostic :=
  { d with path := path ++ d.path }

/-- A nested new resource split out of the prepared document: its embedded
value, its standalone document and the context change. -/
def extractNested (prepared : Json) (preparedNodes : List FieldPath)
    (working : Json) (path : FieldPath) :
    Prepares (Json × Json × List Change) :=
  match valueAt working path with
  | some (.obj ms) =>
      let result :=
        materialize server (contextChain prepared preparedNodes path) ms path
      let standalone := Json.obj result.1
      let checked := validateDocument P standalone
      if checked.accepts then .ok (.obj ms, standalone, result.2)
      else
        refuseWith .invalidDocument "A nested resource is not valid on its own."
          (checked.diagnostics.map (Diagnostic.below path))
  | _ => .error (.thrown "Cannot read properties of undefined.")

def prepareResource (planned : PlannedResource) (document : Json) :
    PreparedResource :=
  let index := indexDocument P document
  { path := planned.path
    generated := false
    kind := planned.kind
    id := planned.id
    iri := planned.iri
    document
    addressing := index.addressing
    relations := index.relations }

/-- The working parent and what has been split out of it. -/
structure SaveState where
  working : Json
  changes : List Change
  resources : List PreparedResource

def SaveState.save (s : SaveState) (planned : PlannedResource)
    (document : Json) : SaveState :=
  { s with resources := s.resources ++ [prepareResource P planned document] }

def refersTo (planned : PlannedResource) (before : Json) : Change :=
  .replace "reference_created_resource" planned.path before (.str planned.iri)
    "The parent refers to the new resource by its IRI."

/-- One round of the loop over the planned resources. -/
def saveResource (prepared : Json) (preparedNodes : List FieldPath)
    (s : SaveState) (planned : PlannedResource) : Prepares SaveState := do
  if planned.path.isEmpty then
    return s.save P planned s.working
  else
    let (value, standalone, changes) ←
      extractNested server P prepared preparedNodes s.working planned.path
    let s := { s with changes := s.changes ++ changes }
    let unindexable := checkIndexable P standalone
    if !unindexable.isEmpty then
      refuseWith .invalidDocument
        "A nested resource cannot be saved as submitted."
        (unindexable.map (Diagnostic.below planned.path))
    else if planned.representation = some .reference then
      let working ← setAt s.working planned.path (.str planned.iri)
      let s : SaveState :=
        { s with working, changes := s.changes ++ [refersTo planned value] }
      return s.save P planned standalone
    else return s.save P planned standalone

/-- The planned resources, deepest first, so that a parent embeds or refers
to its saved children. -/
def deepestFirst (planned : List PlannedResource) : List PlannedResource :=
  planned.insertionSort fun left right =>
    right.path.length ≤ left.path.length

def describeSubmitted (submitted : Json) : Prepares (List DocumentNode) :=
  match describeDocument P submitted with
  | some nodes => .ok nodes
  | none =>
      refuseWith .invalidDocument "The document is not valid."
        (validateDocument P submitted).diagnostics

/-- The allocation names exactly the resources of the request. -/
def allocates (allocation : Allocation) (request : CreateRequest) : Bool :=
  allocation.ids.length == request.resources.length &&
    request.resources.all fun resource =>
      (allocation.ids.map Prod.fst).contains (pathKey resource.path)

/-- Every new resource of a create with its server values and its document,
or why the request cannot be written. -/
def prepareCreate (actor : WritingActor) (request : CreateRequest)
    (allocation : Allocation) (lookups : IdentityLookups) :
    Prepares PreparedWrite := do
  let submitted := request.value
  let nodes ← describeSubmitted P submitted
  checkDescriptors P request nodes
  demand (allocates allocation request)
    (writeError .stalePreview "The preview no longer matches.")
  let planned ← request.resources.mapM
    (planResource server P actor allocation nodes)
  let denied := deniedClaims server nodes
    (planned.map fun resource => (resource.path, resource.kind))
    (planned.map PlannedResource.iri) lookups
  let result ← (prepareDocument P submitted
    { authority := ⟨true, []⟩ :: denied
      serverOwnedFields := planned.flatMap
        (ownedFields actor (server.instantText allocation.timestamp)) }).mapError
      Failure.thrown
  demand result.accepts ⟨.invalidDocument,
    "The document cannot be saved as submitted.", result.diagnostics⟩
  let prepared := result.normalizedDocument.getD submitted
  demand (checkIndexable P prepared).isEmpty ⟨.invalidDocument,
    "The document cannot be saved as submitted.", checkIndexable P prepared⟩
  let preparedNodes :=
    ((describeDocument P prepared).getD []).map DocumentNode.path
  let saved ← (deepestFirst planned).foldlM
    (saveResource server P prepared preparedNodes)
    ⟨prepared, result.changes, []⟩
  return ⟨result.diagnostics, saved.changes, saved.resources⟩

end Claims

end DrFed.LocalWrite
