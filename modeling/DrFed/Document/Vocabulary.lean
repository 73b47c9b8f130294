import DrFed.Document.Diagnostics

/-!
# The runtime and the vocabulary

The URL, locale, media-type and instant parsers of the runtime, the contexts
bundled with the vocabulary package and its class hierarchy are not part of
the repository.  They are the fields of `Runtime`.
-/

namespace DrFed.Document

/-- The vocabulary classes that the checker covers. -/
inductive VocabularyType where
  | note | object | article | application | group | organization | person
  | service | collection | orderedCollection | collectionPage
  | orderedCollectionPage | link | mention | activity | like | create | undo
  | accept | follow | intransitiveActivity | arrive | travel | add | announce
  | block | delete | dislike | flag | ignore | invite | join | leave | listen
  | move | offer | question | read | reject | remove | tentativeAccept
  | tentativeReject | update | view
  deriving DecidableEq

/-- The class names that diagnostics mention. -/
def VocabularyType.name : VocabularyType → String
  | .note => "Note"
  | .object => "Object"
  | .article => "Article"
  | .application => "Application"
  | .group => "Group"
  | .organization => "Organization"
  | .person => "Person"
  | .service => "Service"
  | .collection => "Collection"
  | .orderedCollection => "OrderedCollection"
  | .collectionPage => "CollectionPage"
  | .orderedCollectionPage => "OrderedCollectionPage"
  | .link => "Link"
  | .mention => "Mention"
  | .activity => "Activity"
  | .like => "Like"
  | .create => "Create"
  | .undo => "Undo"
  | .accept => "Accept"
  | .follow => "Follow"
  | .intransitiveActivity => "IntransitiveActivity"
  | .arrive => "Arrive"
  | .travel => "Travel"
  | .add => "Add"
  | .announce => "Announce"
  | .block => "Block"
  | .delete => "Delete"
  | .dislike => "Dislike"
  | .flag => "Flag"
  | .ignore => "Ignore"
  | .invite => "Invite"
  | .join => "Join"
  | .leave => "Leave"
  | .listen => "Listen"
  | .move => "Move"
  | .offer => "Offer"
  | .question => "Question"
  | .read => "Read"
  | .reject => "Reject"
  | .remove => "Remove"
  | .tentativeAccept => "TentativeAccept"
  | .tentativeReject => "TentativeReject"
  | .update => "Update"
  | .view => "View"

/-- What the checker takes from its runtime and its vocabulary package. -/
structure Runtime where
  /-- `URL.canParse` -/
  canParseUrl : JsString → Bool
  /-- `new Intl.Locale` raises no range error. -/
  isLocale : JsString → Bool
  /-- `new MIMEType` raises no type error. -/
  isMimeType : JsString → Bool
  /-- `Temporal.Instant.from`, in nanoseconds since the epoch. -/
  parseInstant : JsString → Option ℤ
  /-- `Type.typeId.href` -/
  typeId : VocabularyType → JsString
  /-- `getEntityTypeById`, as far as its result is a covered class. -/
  getEntityTypeById : JsString → Option VocabularyType
  /-- `Type.prototype instanceof Base` -/
  extendsType : VocabularyType → VocabularyType → Bool
  /-- The `@context` object of a bundled context document. -/
  preloadedContexts : JsString → JsonObject

def actorTypes : List VocabularyType :=
  [.application, .group, .organization, .person, .service]

/-- The ActivityStreams properties that address a document's recipients. -/
def addressingProperties : List JsString :=
  [js "to", js "cc", js "bto", js "bcc", js "audience"]

/-- AS2 vocabulary properties of `Object` that do not also apply to `Link`. -/
def objectOnlyProperties : List JsString :=
  [js "attachment", js "attributedTo", js "audience", js "content",
    js "contentMap", js "context", js "endTime", js "generator", js "icon",
    js "image", js "inReplyTo", js "location", js "published", js "replies",
    js "startTime", js "summary", js "summaryMap", js "tag", js "updated",
    js "url", js "to", js "bto", js "cc", js "bcc", js "duration"]

namespace Runtime

def isTypeOrSubtype (R : Runtime) (type base : VocabularyType) : Bool :=
  type == base || R.extendsType type base

def isActor (R : Runtime) (type : VocabularyType) : Bool :=
  actorTypes.any (R.isTypeOrSubtype type)

end Runtime

/-- A proposed transformation; validation never applies it to the input. -/
inductive NormalizationChange (ι : Type) where
  | add (reason : String) (path : FieldPath) (after : Json) (message : String)
  | replace (reason : String) (path : FieldPath) (before : ι) (after : Json)
      (message : String)
  | remove (reason : String) (path : FieldPath) (before : ι)
      (message : String)

namespace NormalizationChange

variable {ι : Type}

def reason : NormalizationChange ι → String
  | .add reason _ _ _ => reason
  | .replace reason _ _ _ _ => reason
  | .remove reason _ _ _ => reason

def path : NormalizationChange ι → FieldPath
  | .add _ path _ _ => path
  | .replace _ path _ _ _ => path
  | .remove _ path _ _ => path

/-- The value that a change leaves at its path. -/
def after? : NormalizationChange ι → Option Json
  | .add _ _ after _ => some after
  | .replace _ _ _ after _ => some after
  | .remove .. => none

def isRemove : NormalizationChange ι → Bool
  | .remove .. => true
  | _ => false

def isReplace : NormalizationChange ι → Bool
  | .replace .. => true
  | _ => false

end NormalizationChange

end DrFed.Document
