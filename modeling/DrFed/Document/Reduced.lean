import DrFed.Document.Context

/-!
# A reduced vocabulary

A platform whose contexts define some of the covered classes and of their
properties, with simple parsers.  It shows that the assumptions on a
platform can be met, and the examples run on it.
-/

namespace DrFed.Document

/-- A URL has a scheme, and a host where the scheme needs one. -/
def reducedCanParse (value : JsString) : Bool :=
  match cutColon value with
  | none => false
  | some (scheme, rest) =>
      if scheme = js "http" ∨ scheme = js "https" then
        (js "//").isPrefixOf rest &&
          ((rest.drop 2).head?.any fun c => isLetter c || isDigit c)
      else hasScheme value

/-- The direct superclass of a class. -/
def reducedSuperclass : VocabularyType → Option VocabularyType
  | .object | .link => none
  | .mention => some .link
  | .orderedCollection | .collectionPage => some .collection
  | .orderedCollectionPage => some .collectionPage
  | .arrive | .travel | .question => some .intransitiveActivity
  | .tentativeAccept => some .accept
  | .tentativeReject => some .reject
  | .invite => some .offer
  | .block => some .ignore
  | .like | .create | .undo | .accept | .follow | .intransitiveActivity | .add
  | .announce | .delete | .dislike | .flag | .ignore | .join | .leave | .listen
  | .move | .offer | .read | .reject | .remove | .update | .view =>
      some .activity
  | _ => some .object

def reducedExtends : ℕ → VocabularyType → VocabularyType → Bool
  | 0, _, _ => false
  | depth + 1, type, base =>
      match reducedSuperclass type with
      | none => false
      | some parent => parent == base || reducedExtends depth parent base

/-- The classes that the reduced context names. -/
def reducedTypes : List VocabularyType :=
  [.note, .article, .person, .activity, .create, .update, .delete, .link,
    .mention]

def reducedTypeId (type : VocabularyType) : JsString :=
  activityStreamsContext ++ unit '#' :: js type.name

/-- Properties whose values are references. -/
def reducedReferences : List JsString :=
  ["actor", "attributedTo", "object", "to", "cc", "bto", "bcc", "audience",
    "href"].map js

/-- Properties whose values are date-times. -/
def reducedTimes : List JsString :=
  ["published", "updated"].map js

/-- Properties whose values are texts or tokens. -/
def reducedTexts : List JsString :=
  ["content", "name", "mediaType"].map js

def reducedDefinition (name : JsString) (coercion : Option JsString) :
    JsString × Json :=
  let id := Json.str (js "as:" ++ name)
  match coercion with
  | none => (name, id)
  | some type => (name, .obj [(js "@id", id), (js "@type", .str type)])

def reducedContext : List (JsString × Json) :=
  [(js "@vocab", .str (js "_:")),
    (js "xsd", .str (js "http://www.w3.org/2001/XMLSchema#")),
    (js "as", .str (activityStreamsContext ++ js "#")),
    (js "id", .str (js "@id")),
    (js "type", .str (js "@type"))] ++
  (reducedTypes.map fun type => reducedDefinition (js type.name) none) ++
  (reducedTexts.map fun name => reducedDefinition name none) ++
  [(js "contentMap", .obj [(js "@id", .str (js "as:content")),
    (js "@container", .str (js "@language"))])] ++
  (reducedReferences.map fun name =>
    reducedDefinition name (some (js "@id"))) ++
  reducedTimes.map fun name =>
    reducedDefinition name (some (js "xsd:dateTime"))

def reducedSecurityContext : List (JsString × Json) :=
  [(js "sec", .str (js "https://w3id.org/security#"))]

/-- The instants that the examples mention, in nanoseconds. -/
def reducedInstant (text : JsString) : Option ℤ :=
  if text = js "2026-01-01T00:00:00Z" then some 1767225600000000000
  else if text = js "2026-01-02T00:00:00Z" then some 1767312000000000000
  else none

def reducedRuntime : Runtime where
  canParseUrl := reducedCanParse
  isLocale := isLanguageTag
  isMimeType := fun value => value.contains (unit '/')
  parseInstant := reducedInstant
  typeId := reducedTypeId
  getEntityTypeById := fun iri =>
    (reducedTypes.filter fun type => type ≠ .link ∧ type ≠ .mention).find?
      fun type => reducedTypeId type == iri
  extendsType := reducedExtends 4
  preloadedContexts := fun url =>
    if url = activityStreamsContext then
      ⟨reducedContext, by decide +kernel⟩
    else ⟨reducedSecurityContext, by decide +kernel⟩

/-- The term of a definition by `reducedDefinition`. -/
def reducedTerm (name : JsString) (coercion : Option JsString) :
    JsString × ContextTerm :=
  (name, ⟨activityStreamsContext ++ unit '#' :: name, coercion, none, false⟩)

def reducedTerms : Terms :=
  [(js "xsd", ⟨js "http://www.w3.org/2001/XMLSchema#", none, none, true⟩),
    (js "as", ⟨activityStreamsContext ++ js "#", none, none, true⟩),
    (js "id", ⟨js "@id", none, none, false⟩),
    (js "type", ⟨js "@type", none, none, false⟩)] ++
  (reducedTypes.map fun type => reducedTerm (js type.name) none) ++
  (reducedTexts.map fun name => reducedTerm name none) ++
  [(js "contentMap", ⟨activityStreamsContext ++ js "#content", none,
    some (js "@language"), false⟩)] ++
  (reducedReferences.map fun name => reducedTerm name (some (js "@id"))) ++
  reducedTimes.map fun name =>
    reducedTerm name (some (js "http://www.w3.org/2001/XMLSchema#dateTime"))

def reducedTables : ContextTables where
  bundledContexts :=
    [(activityStreamsContext, reducedTerms),
      (securityContext,
        [(js "sec", ⟨js "https://w3id.org/security#", none, none, true⟩)])]
  standardTerms := reducedTerms

theorem getContextTables_reduced :
    getContextTables reducedRuntime = some reducedTables := by
  decide +kernel

def reducedPlatform : Platform where
  toRuntime := reducedRuntime
  tables := reducedTables
  tables_eq := getContextTables_reduced

instance : Inhabited Platform := ⟨reducedPlatform⟩

end DrFed.Document
