import DrFed.Js.Equal
import DrFed.Store.Registry

/-!
# Accepting a received activity

The rules that a received `Create` has to meet before it is stored.  What
Fedify reads of the activity, and what dereferencing its object and its actor
gives, is data here; JSON-LD expansion and the comparison of origins are
parameters.
-/

namespace DrFed.Inbox

open Store

inductive ActorType where
  | application | group | organization | person | service
  deriving DecidableEq

/-- The IRIs that an activity or an object is addressed to, by property. -/
abbrev AddressingInput := List (JsString × List JsString)

def addressedIris (input : AddressingInput) : List JsString :=
  input.flatMap Prod.snd

/-- Every occurrence, duplicates included, at its position. -/
def occurrences (input : AddressingInput) : List AddressingOccurrence :=
  Document.addressingProperties.flatMap fun property =>
    ((input.lookup property).getD []).zipIdx.map fun item =>
      ⟨property, item.2, item.1⟩

/-- What an inbox request carried. -/
structure Receipt where
  payload : Json
  received : Instant

structure LoadedObject where
  id : Option JsString
  /-- `none` for a type that is not supported. -/
  type : Option ObjectType
  attributionIds : List JsString
  content : Option JsString
  name : Option JsString
  summary : Option JsString
  /-- The canonical tag of the first content that has a language. -/
  language : Option JsString
  sensitive : Option Bool
  published : Option Instant
  addressing : AddressingInput

structure LoadedActor where
  id : Option JsString
  type : Option ActorType
  inboxId : Option JsString
  followersId : Option JsString
  preferredUsername : Option JsString
  /-- The actor as Fedify serializes it. -/
  document : Json

/-- A received `Create`, with what dereferencing its object and its actor
gives. -/
structure Create where
  id : Option JsString
  published : Option Instant
  addressing : AddressingInput
  getObject : Except String (Option LoadedObject)
  /-- The document of the object, when it had to be fetched. -/
  fetched : Option Json
  getActor : Except String (Option LoadedActor)

/-- Why a `Create` is not stored. -/
inductive Failure where
  | refusal (reason : String)
  | kindConflict (iri : JsString) (kind requested : ResourceKind)
  | promoted (iri : JsString)
  | missing (message : String)
  | store (refusal : Store.Refusal)
  deriving DecidableEq

/-- A `Create` that passed every rule, with what storing it needs. -/
structure Accepted where
  activityIri : JsString
  activityPublished : Option Instant
  activityAddressing : AddressingInput
  actorIri : JsString
  actorDocument : Json
  actorType : ActorType
  inboxUrl : JsString
  followersUrl : Option JsString
  objectIri : JsString
  objectPublished : Option Instant
  objectAddressing : AddressingInput
  objectType : ObjectType
  contentHtml : JsString
  name : Option JsString
  summary : Option JsString
  language : Option JsString
  sensitive : Option Bool
  username : Option JsString
  /-- The object as received, or as fetched when only its IRI was. -/
  objectDocument : Option Json
  objectFetched : Bool
  receipt : Receipt

/-! ## The object of an activity as received -/

mutual

def height : Json → ℕ
  | .arr items => heightItems items + 1
  | .obj ms => heightMembers ms + 1
  | _ => 1

def heightItems : List Json → ℕ
  | [] => 0
  | item :: rest => max (height item) (heightItems rest)

def heightMembers : List (JsString × Json) → ℕ
  | [] => 0
  | (_, item) :: rest => max (height item) (heightMembers rest)

end

def isRecord : Json → Bool
  | .obj _ => true
  | _ => false

/-- The values one step below, but those of contexts. -/
def children : Json × FieldPath → List (Json × FieldPath)
  | (.arr items, path) =>
      items.zipIdx.map fun item => (item.1, path ++ [.index item.2])
  | (.obj ms, path) =>
      (ms.filter fun m => m.1 ≠ js "@context").map fun m =>
        (m.2, path ++ [.key m.1])
  | _ => []

/-- The objects of a level and of those below it. -/
def levelPaths : ℕ → List (Json × FieldPath) → List FieldPath
  | 0, _ => []
  | n + 1, level =>
      (level.filter fun entry => isRecord entry.1).map Prod.snd ++
        levelPaths n (level.flatMap children)

/-- Every JSON object in a document, shallowest first, but those of
contexts. -/
def objectPaths (document : Json) : List FieldPath :=
  levelPaths (height document) [(document, [])]

def probe : JsString := js "urn:drfed:embedded-object"

/-- How many places of a document are tried for its object. -/
def maxProbes : ℕ := 64

/-- What stands outside the repository. -/
structure Environment where
  /-- The `@id` of the first `as:object` of the first expanded node. -/
  expandedObject : Json → Option JsString
  haveSameFe34Origin : JsString → JsString → Bool
  /-- The canonical authority of an IRI. -/
  canonicalHost : JsString → JsString
  /-- The order in which the database sorts IRIs. -/
  collation : JsString → JsString → Bool

variable (env : Environment)

/-- The JSON object at a path is what Fedify reads as the object of the
activity. -/
def isObjectAt (payload : Json) (path : FieldPath) : Bool :=
  env.expandedObject
    (payload.update path fun _ => .obj [(js "@id", .str probe)]) = some probe

/-- The object of a received activity, as it was received. -/
def embeddedObject (payload : Json) : Option Json :=
  -- The document itself is the activity, never its object.
  let paths := (objectPaths payload).filter fun path => 0 < path.length
  ((paths.take maxProbes).find? (isObjectAt env payload)).bind payload.get?

/-! ## The rules -/

/-- What `trim` removes. -/
def isWhiteSpace (c : UInt16) : Bool :=
  [9, 10, 11, 12, 13, 32, 160, 0x1680, 0x2028, 0x2029, 0x202f, 0x205f,
    0x3000, 0xfeff].contains c || (0x2000 ≤ c && c ≤ 0x200a)

/-- The first member whose text a text column would refuse or alter. -/
def unstorable (texts : List (String × Option JsString)) : Option String :=
  (texts.find? fun entry =>
    entry.2.any fun value => !storableText value).map Prod.fst

def checkStorable (texts : List (String × Option JsString)) :
    Except Failure Unit :=
  match unstorable texts with
  | some member => .error (.refusal
      s!"its {member} holds text that cannot be stored as is")
  | none => .ok ()

def loadObject (activity : Create) (receipt : Receipt) :
    Except Failure (LoadedObject × Option Json × Bool) :=
  match activity.getObject with
  | .error error => .error (.refusal
      s!"its object could not be fetched: {error}")
  | .ok none => .error (.refusal "it has no object")
  | .ok (some object) =>
      match activity.fetched with
      | none => .ok (object, embeddedObject env receipt.payload, false)
      | some document => .ok (object, some document, true)

def loadActor (activity : Create) (actorIri : JsString) :
    Except Failure LoadedActor :=
  match activity.getActor with
  | .error error => .error (.refusal
      s!"its actor could not be fetched: {error}")
  | .ok none => .error (.refusal "its actor could not be fetched")
  | .ok (some actor) =>
      if actor.id = some actorIri then .ok actor
      else .error (.refusal "its actor could not be fetched")

/-- A value that a rule needs. -/
def required {α : Type} (value : Option α) (reason : String) :
    Except Failure α :=
  match value with
  | some value => .ok value
  | none => .error (.refusal reason)

def demand (condition : Bool) (reason : String) : Except Failure Unit :=
  if condition then .ok () else .error (.refusal reason)

def accept (activity : Create) (actorIri : JsString) (receipt : Receipt) :
    Except Failure Accepted := do
  let activityIri ← required activity.id "it has no ID"
  let (object, document, fetched) ← loadObject env activity receipt
  let objectType ← required object.type "its object is not supported"
  let objectIri ← required object.id "its object has no ID"
  demand (object.attributionIds.contains actorIri)
    "its object is not attributed to its actor"
  demand (env.haveSameFe34Origin objectIri actorIri)
    "its object is not on the origin of its actor"
  let contentHtml ← required
    (object.content.filter fun content => !content.all isWhiteSpace)
    "its object has no content"
  checkStorable [("object's content", some contentHtml),
    ("object's name", object.name), ("object's summary", object.summary)]
  let actor ← loadActor activity actorIri
  let actorType ← required actor.type "its actor is not supported"
  let inboxUrl ← required actor.inboxId "its actor has no inbox"
  checkStorable [("actor's preferredUsername", actor.preferredUsername)]
  return {
    activityIri
    activityPublished := activity.published
    activityAddressing := activity.addressing
    actorIri
    actorDocument := actor.document
    actorType
    inboxUrl
    followersUrl := actor.followersId
    objectIri
    objectPublished := object.published
    objectAddressing := object.addressing
    objectType
    contentHtml
    name := object.name
    summary := object.summary
    language := object.language.filter fun tag => tag.length ≤ 35
    sensitive := object.sensitive
    username := actor.preferredUsername
    objectDocument := document
    objectFetched := fetched
    receipt }

end DrFed.Inbox
