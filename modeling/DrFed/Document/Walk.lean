import DrFed.Document.Context

/-!
# The walk over a document

The depth-first traversal of vocabulary documents and opaque extension
values.  The source keeps closures on a work stack; one closure is one *item*
here, the list of the events it causes, and the items are listed in the order
in which the stack runs them.  A run stops between two items once the
reporter is cut off.
-/

namespace DrFed.Document

section Rules

variable (R : Runtime)

/-! ## Rules of a type -/

def checkEmbeddedFedifyRange (type : VocabularyType)
    (expected : Option (List VocabularyType)) (path : FieldPath) :
    List Diagnostic :=
  match expected with
  | none => []
  | some types =>
      if types.all fun base => !R.isTypeOrSubtype type base then
        [⟨.unsupportedValueForm, path,
          "Fedify cannot preserve this embedded type for this property. " ++
            "Use " ++ ", ".intercalate (types.map VocabularyType.name) ++
            " or an IRI reference."⟩]
      else []

def getEmbeddedFedifyRange (property : JsString)
    (collectionRange : Option (List VocabularyType)) :
    Option (List VocabularyType) :=
  if property = js "actor" ∨ property = js "attributedTo" then
    some actorTypes
  else collectionRange.map fun types => types.filter (· ≠ .link)

/-- Collection navigation and actor collection links each identify one
resource. -/
def getCollectionRange (type : VocabularyType) (property : JsString) :
    Option (List VocabularyType) :=
  if R.isTypeOrSubtype type .collection &&
      [js "current", js "first", js "last"].contains property then
    some [.collectionPage, .link]
  else if R.isTypeOrSubtype type .collectionPage && property == js "partOf" then
    some [.collection, .link]
  else if R.isTypeOrSubtype type .collectionPage &&
      [js "next", js "prev"].contains property then
    some [.collectionPage, .link]
  else if R.isActor type && [js "inbox", js "outbox"].contains property then
    some [.orderedCollection, .orderedCollectionPage]
  else if R.isActor type &&
      [js "following", js "followers", js "liked"].contains property then
    some [.collection]
  else none

def isFunctionalProperty (type : VocabularyType) (property : JsString) :
    Bool :=
  if [js "id", js "mediaType"].contains property then true
  else if (getCollectionRange R type property).isSome then true
  else if R.isTypeOrSubtype type .link then
    [js "href", js "height", js "width", js "hreflang"].contains property
  else if [js "published", js "updated", js "startTime",
      js "endTime"].contains property then true
  else if R.isTypeOrSubtype type .collection && property == js "totalItems" then
    true
  else
    R.isTypeOrSubtype type .orderedCollectionPage && property == js "startIndex"

def linkProperties (type : VocabularyType) : List JsString :=
  if R.isTypeOrSubtype type .link then
    [js "href", js "mediaType", js "hreflang", js "rel"]
  else []

def integerProperties (type : VocabularyType) : List JsString :=
  if R.isTypeOrSubtype type .link then [js "height", js "width"]
  else if R.isTypeOrSubtype type .orderedCollectionPage then
    [js "totalItems", js "startIndex"]
  else if R.isTypeOrSubtype type .collection then [js "totalItems"]
  else []

def referenceProperties (type : VocabularyType) : List JsString :=
  [js "preview"] ++
  (if R.isTypeOrSubtype type .object then
    [js "attributedTo", js "location"] ++ addressingProperties
  else []) ++
  (if R.isTypeOrSubtype type .activity then
    [js "actor", js "object", js "target", js "origin", js "result",
      js "instrument"]
  else []) ++
  (if R.isTypeOrSubtype type .collection then
    [js "items", js "orderedItems"]
  else [])

def omittableProperties (type : VocabularyType) : List JsString :=
  integerProperties R type ++ linkProperties R type ++
    referenceProperties R type

def getInapplicableProperties (type : VocabularyType) : List JsString :=
  if R.isTypeOrSubtype type .link then objectOnlyProperties else []

def maximumPathDepth : ℕ := 64

def depthFinding (path : FieldPath) : Diagnostic :=
  ⟨.processingLimitExceeded, path,
    "Nesting exceeds the supported limit of 64 path segments."⟩

def cycleFinding (path : FieldPath) : Diagnostic :=
  ⟨.nonJsonValue, path, "JSON documents cannot contain cycles."⟩

end Rules

/-! ## Nodes and events -/

/-- A source property with its value. -/
structure Field (ι : Type) extends SourceProperty where
  value : ι

/-- A vocabulary document that the walk reads. -/
structure Node (ι : Type) where
  values : List (JsString × ι)
  path : FieldPath
  context : Terms
  type : VocabularyType
  fields : List (Field ι)

inductive Event (ι : Type) where
  | report (diagnostic : Diagnostic)
  | change (change : NormalizationChange ι)
  | visit (node : Node ι)
  | unavailable (path : FieldPath)

/-- The events of one closure of the work stack. -/
abbrev Item (ι : Type) := List (Event ι)

section Fields

variable (P : Platform) {ι : Type} (H : Values ι)

def readFields (values : List (JsString × ι)) (context : Terms) :
    List (Field ι) :=
  (sortByKey (values.filter fun entry => entry.1 ≠ js "@context")).map
    fun entry =>
      { toSourceProperty := resolveProperty P entry.1 context
        value := entry.2 }

def checkDocumentType (values : List (JsString × ι))
    (fields : List (Field ι)) (path : FieldPath) (context : Terms) :
    Except (List Diagnostic) VocabularyType :=
  let types := fields.filter fun field => field.name == some (js "type")
  if types.length > 1 then
    .error (types.map fun field =>
      ⟨.unsupportedValueForm, path ++ [.key field.source],
        "Multiple type declarations are not supported. Provide a single " ++
          "type field."⟩)
  else
    let source := (types.head?.map fun field => field.source).getD (js "type")
    match checkType P H (values.lookup source) (path ++ [.key source])
        context with
    | .ok type => .ok type
    | .error d => .error [d]

/-- Count data slots without reading accessors; null entries do not count. -/
def countValues (value : ι) : ℕ :=
  match H.look value with
  | .null => 0
  | .array entries _ _ =>
      (entries.filter fun
        | some (.data entry _) => !isNull H entry
        | _ => false).length
  | _ => 1

/-- The fields that supply a value of a functional property. -/
def functionalSuppliers (type : VocabularyType) (fields : List (Field ι)) :
    List (Field ι) :=
  fields.filter fun field =>
    field.iri.isSome &&
      field.name.any (isFunctionalProperty P.toRuntime type) &&
      countValues H field.value ≠ 0

def findMultipleAliases (type : VocabularyType) (fields : List (Field ι)) :
    List JsString :=
  let suppliers := functionalSuppliers P H type fields
  (suppliers.filter fun field =>
    2 ≤ (suppliers.filter fun other => other.iri == field.iri).length &&
      countValues H field.value ≤ 1).map fun field => field.source

/-- What is left to run after the immediate events of a field. -/
inductive FollowUp (ι : Type) where
  | nothing
  | extension (value : ι) (path : FieldPath)
  | references (visits : List (Visit ι)) (key : JsString)
      (collectionRange : Option (List VocabularyType))

def reports (findings : List Diagnostic) : Item ι :=
  findings.map .report

/-- The rules of a property that resolves to a standard name and applies to
the type, after multiplicity and omission. -/
def checkValueRules (type : VocabularyType) (key : JsString) (value : ι)
    (path : FieldPath) : List Diagnostic × FollowUp ι :=
  let R := P.toRuntime
  let collectionRange := getCollectionRange R type key
  let commonKind := getCommonPropertyKind R type key
  if (integerProperties R type).contains key then
    (runVisits (checkNonNegativeInteger H) (checkSingleValue H value path),
      .nothing)
  else if (linkProperties R type).contains key then
    (if key = js "rel" then checkLinkProperty R H key value path
    else
      runVisits (checkLinkProperty R H key) (checkSingleValue H value path),
      .nothing)
  else
    match checkCommonProperty R H commonKind key value path with
    | some findings => (findings, .nothing)
    | none =>
        if R.isTypeOrSubtype type .intransitiveActivity &&
            key == js "object" then
          (runVisits
            (fun entry entryPath =>
              if isNull H entry then []
              else
                [⟨.propertyNotApplicable, entryPath,
                  "The object property does not apply to intransitive " ++
                    "activities."⟩])
            (checkReferenceValues H value path), .nothing)
        else if collectionRange.isSome then
          ([], .references (checkSingleValue H value path) key
            collectionRange)
        else if (referenceProperties R type).contains key then
          ([], .references (checkReferenceValues H value path) key none)
        else
          ([⟨.unsupportedProperty, path,
            "This property is not checked by the initial implementation."⟩],
            .nothing)

/-- Whether an empty value of a property can be omitted. -/
def isSupported (type : VocabularyType) (key : JsString) : Bool :=
  (omittableProperties P.toRuntime type).contains key ||
    (getCollectionRange P.toRuntime type key).isSome ||
    (getCommonPropertyKind P.toRuntime type key).isSome

/-- A field whose key resolves to the standard name `key`. -/
def checkNamedField (type : VocabularyType) (multipleAliases : List JsString)
    (field : Field ι) (key : JsString) (path : FieldPath) :
    Item ι × FollowUp ι :=
  if !field.compatible then
    ([.report ⟨.unsupportedValueForm, path,
      "This spelling's type coercion differs from the supported vocabulary " ++
        "term."⟩], .nothing)
  else if (getInapplicableProperties P.toRuntime type).contains key then
    if isNull H field.value then ([], .nothing)
    else
      ([.report ⟨.propertyNotApplicable, path,
        "This property applies to Object documents, not Link documents."⟩],
        .nothing)
  else
    let multiple : Item ι :=
      if multipleAliases.contains field.source then
        [.report ⟨.invalidMultiplicity, path,
          "Multiple aliases supply values for one functional property."⟩]
      else []
    let omission :=
      if isSupported P type key then
        proposePropertyOmission H field.value path
          (getCommonPropertyKind P.toRuntime type key == some .id)
      else none
    match omission with
    | some (findings, change) =>
        (multiple ++ reports findings ++ change.toList.map .change, .nothing)
    | none =>
        let result := checkValueRules P H type key field.value path
        (multiple ++ reports result.1, result.2)

/-- The immediate events of a field's closure. -/
def checkField (type : VocabularyType) (multipleAliases : List JsString)
    (path : FieldPath) (field : Field ι) : Item ι × FollowUp ι :=
  let fieldPath := path ++ [.key field.source]
  match field.name with
  | none =>
      if isOpaqueExtension P field.toSourceProperty then
        ([.report ⟨.extensionPropertyUnchecked, fieldPath,
          "This custom property's data is preserved; its semantics were not " ++
            "checked."⟩], .extension field.value fieldPath)
      else
        ([.report ⟨.unsupportedProperty, fieldPath,
          "This property is outside the checker's Fedify vocabulary " ++
            "coverage."⟩], .nothing)
  | some key => checkNamedField P H type multipleAliases field key fieldPath

/-! ## Extension values -/

/-- Check the JSON safety of an extension value.  The first component is
reported by the closure that reached the value. -/
def checkExtension : ℕ → List ι → ι → FieldPath → Bool →
    List Diagnostic × List (Item ι)
  | 0, _, _, path, _ => ([depthFinding path], [])
  | fuel + 1, ancestors, value, path, keywords =>
      if path.length > maximumPathDepth then ([depthFinding path], [])
      else
        let child (entry : ι) (entryPath : FieldPath) (keywords : Bool) :
            List (Item ι) :=
          let result := checkExtension fuel (value :: ancestors) entry
            entryPath keywords
          reports result.1 :: result.2
        match H.look value with
        | .foreign => ([⟨.nonJsonValue, path, "Expected a JSON value."⟩], [])
        | .array entries named symbols =>
            if ancestors.any (H.same value) then ([cycleFinding path], [])
            else
              let visits := visitList entries named symbols path
              (visits.filterMap Visit.finding?,
                visits.flatMap fun
                  | .finding _ => []
                  | .entry entry entryPath => child entry entryPath keywords)
        | .object .. =>
            if ancestors.any (H.same value) then ([cycleFinding path], [])
            else
              match readDocument H value path with
              | .error d => ([d], [])
              | .ok values =>
                  let checked :=
                    if keywords then checkExtensionKeywords H values path
                    else ([], false)
                  (checked.1,
                    values.flatMap fun entry =>
                      child entry.2 (path ++ [.key entry.1])
                        (keywords && !(checked.2 && entry.1 == js "@value")))
        | _ => ([], [])

/-! ## Documents -/

def isContainer (value : ι) : Bool :=
  match H.look value with
  | .array .. | .object .. => true
  | _ => false

def isRecord (value : ι) : Bool :=
  match H.look value with
  | .object .. => true
  | _ => false

/-- Read the node at a path, up to the callback of the walk, and the findings
that precede it. -/
def readNode (value : ι) (path : FieldPath) (inherited : Option Terms)
    (expectedTypes : Option (List VocabularyType)) :
    List Diagnostic × Option (Node ι) :=
  match readDocument H value path with
  | .error d => ([d], none)
  | .ok values =>
      match checkContext P H values path inherited with
      | (findings, none) => (findings, none)
      | (findings, some context) =>
          let fields := readFields P values context
          match checkDocumentType P H values fields path context with
          | .error ds => (findings ++ ds, none)
          | .ok type =>
              if expectedTypes.any fun types =>
                  types.all fun base => !P.isTypeOrSubtype type base then
                (findings ++ [⟨.invalidValueShape, path,
                  "The embedded type is outside this property's collection " ++
                    "range."⟩], none)
              else (findings, some { values, path, context, type, fields })

/-- The fields whose closures a node puts on the work stack. -/
def Node.checkedFields (node : Node ι) : List (Field ι) :=
  node.fields.filter fun field => field.name != some (js "type")

/-- The items of one visit of a reference property, given the walk over an
embedded document. -/
def visitItems
    (embedded : ι → FieldPath → Option (List VocabularyType) → JsString →
      Item ι × List (Item ι))
    (key : JsString) (collectionRange : Option (List VocabularyType)) :
    Visit ι → List (Item ι)
  | .finding d => [[.report d]]
  | .entry entry path =>
      if isRecord H entry then
        let result := embedded entry path collectionRange key
        result.1 :: result.2
      else [reports (checkReference P.toRuntime H entry path)]

/-- The items of one field, given the walks over what it holds. -/
def fieldItems
    (embedded : ι → FieldPath → Option (List VocabularyType) → JsString →
      Item ι × List (Item ι))
    (extension : ι → FieldPath → List Diagnostic × List (Item ι))
    (checked : Item ι × FollowUp ι) : List (Item ι) :=
  match checked.2 with
  | .nothing => [checked.1]
  | .extension entry path =>
      let result := extension entry path
      (checked.1 ++ reports result.1) :: result.2
  | .references visits key collectionRange =>
      checked.1 ::
        visits.flatMap (visitItems P H embedded key collectionRange)

/-- The immediate events of one field of a node. -/
def Node.check (node : Node ι) (field : Field ι) : Item ι × FollowUp ι :=
  checkField P H node.type (findMultipleAliases P H node.type node.fields)
    node.path field

/-- Walk one document.  The first component is what the closure that reached
it causes at once. -/
def checkDocument : ℕ → List ι → ι → FieldPath → Option Terms →
    Option (List VocabularyType) → Option (List VocabularyType) →
    Item ι × List (Item ι)
  | 0, _, _, path, _, _, _ =>
      ([.report (depthFinding path), .unavailable path], [])
  | fuel + 1, ancestors, value, path, inherited, expectedTypes, fedifyTypes =>
      if path.length > maximumPathDepth then
        ([.report (depthFinding path), .unavailable path], [])
      else if isContainer H value && ancestors.any (H.same value) then
        ([.report (cycleFinding path), .unavailable path], [])
      else
        match readNode P H value path inherited expectedTypes with
        | (findings, none) => (reports findings ++ [.unavailable path], [])
        | (findings, some node) =>
            (reports findings ++
                reports (checkEmbeddedFedifyRange P.toRuntime node.type
                  fedifyTypes path) ++ [.visit node],
              node.checkedFields.flatMap fun field =>
                fieldItems P H
                  (fun entry entryPath range key =>
                    checkDocument fuel (value :: ancestors) entry entryPath
                      (some node.context) range
                      (getEmbeddedFedifyRange key range))
                  (fun entry entryPath =>
                    checkExtension H fuel (value :: ancestors) entry entryPath
                      true)
                  (node.check P H field))

/-! ## Running the work stack -/

structure WalkState (ι : Type) where
  reporter : Reporter
  changes : List (NormalizationChange ι)
  visited : List (Node ι)
  unavailable : List FieldPath

def WalkState.start : WalkState ι where
  reporter := createReporter
  changes := []
  visited := []
  unavailable := []

def WalkState.apply (s : WalkState ι) : Event ι → WalkState ι
  | .report d => { s with reporter := s.reporter.report d }
  | .change change => { s with changes := s.changes ++ [change] }
  | .visit node => { s with visited := s.visited ++ [node] }
  | .unavailable path => { s with unavailable := s.unavailable ++ [path] }

def WalkState.runItem (s : WalkState ι) (item : Item ι) : WalkState ι :=
  item.foldl WalkState.apply s

/-- Run items until the reporter is cut off. -/
def WalkState.runItems (s : WalkState ι) : List (Item ι) → WalkState ι
  | [] => s
  | item :: rest =>
      if s.reporter.truncated then s else (s.runItem item).runItems rest

/-- Every level of nesting adds a path segment, so the depth limit is also
the number of levels. -/
def walkFuel : ℕ := maximumPathDepth + 1

def checkDocumentValue (document : ι) : WalkState ι :=
  let walk := checkDocument P H walkFuel [] document [] none none none
  (WalkState.start.runItem walk.1).runItems walk.2

end Fields

end DrFed.Document
