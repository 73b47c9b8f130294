import DrFed.Document.Vocabulary

/-!
# Checks of single values

The scalar checks of the validator.  A check returns its diagnostics in the
order in which the source reports them.  The list helpers return a plan: the
diagnostics of the list itself, interleaved with the entries on which the
caller's check runs, at once or later on the work stack.
-/

namespace DrFed.Document

variable {ι : Type} (R : Runtime) (H : Values ι)

/-! ## Reading values -/

def isJsonValueShape (value : ι) : Bool :=
  match H.look value with
  | .foreign => false
  | _ => true

/-- The enumerable data properties of a record, in the given order. -/
def readMembers (path : FieldPath) :
    List (JsString × Slot ι) → Except Diagnostic (List (JsString × ι))
  | [] => .ok []
  | (key, slot) :: rest =>
      match slot with
      | .data value true =>
          if isJsonValueShape H value then
            (readMembers path rest).map fun values => (key, value) :: values
          else
            .error ⟨.nonJsonValue, path ++ [.key key],
              "Expected a JSON value."⟩
      | _ =>
          .error ⟨.nonJsonValue, path ++ [.key key],
            "Expected an enumerable data property."⟩

/-- Read a plain record without invoking accessors.  The result lists its
properties in the order of `Object.keys`. -/
def readDocument (document : ι) (path : FieldPath) :
    Except Diagnostic (List (JsString × ι)) :=
  match H.look document with
  | .foreign => .error ⟨.nonJsonValue, path, "Expected a JSON value."⟩
  | .object plain members symbols =>
      if !plain then
        .error ⟨.nonJsonValue, path, "Expected a plain JSON data object."⟩
      else if symbols ≠ 0 then
        .error ⟨.nonJsonValue, path,
          "JSON objects cannot have symbol properties."⟩
      else (readMembers H path (sortByKey members)).map propertyOrder
  | _ => .error ⟨.invalidDocumentRoot, path, "Expected a document object."⟩

/-- One step of a plan: a diagnostic, or a value to check. -/
inductive Visit (ι : Type) where
  | finding (diagnostic : Diagnostic)
  | entry (value : ι) (path : FieldPath)

namespace Visit

def finding? : Visit ι → Option Diagnostic
  | .finding d => some d
  | .entry .. => none

/-- The findings of a step whose check is not deferred. -/
def run (check : ι → FieldPath → List Diagnostic) :
    Visit ι → List Diagnostic
  | .finding d => [d]
  | .entry value path => check value path

end Visit

/-- Run a plan whose checks are not deferred. -/
def runVisits (check : ι → FieldPath → List Diagnostic)
    (visits : List (Visit ι)) : List Diagnostic :=
  visits.flatMap (Visit.run check)

/-- Visit the data entries of an array and construct their paths. -/
def visitList (entries : List (Option (Slot ι)))
    (named : List (JsString × Slot ι)) (symbols : ℕ) (path : FieldPath) :
    List (Visit ι) :=
  if (entries.filter Option.isSome).length + named.length + symbols >
      entries.length then
    [.finding ⟨.nonJsonValue, path,
      "Expected a JSON array without extra properties."⟩]
  else
    entries.zipIdx.map fun
      | (some (.data value true), i) => .entry value (path ++ [.index i])
      | (_, i) => .finding ⟨.nonJsonValue, path ++ [.index i],
          "Expected an enumerable array entry."⟩

/-! ## References -/

/-- The string case of `checkReference`. -/
def checkReferenceText (text : JsString) (path : FieldPath) :
    List Diagnostic :=
  if !isWellFormed text || text.any isControlOrSpace ||
      text.any isIriDelimiter || hasBarePercent text then
    [⟨.invalidIri, path, "Expected a syntactically valid IRI reference."⟩]
  else if !hasScheme text then
    [⟨.unsupportedValueForm, path,
      "Relative references need a base-IRI policy."⟩]
  else if !R.canParseUrl text then
    [⟨.unsupportedValueForm, path,
      "This IRI cannot be represented by the current URL parser."⟩]
  else []

def checkReference (value : ι) (path : FieldPath) : List Diagnostic :=
  match H.look value with
  | .null => []
  | .string text => checkReferenceText R text path
  | .array .. | .object .. =>
      [⟨.unsupportedValueForm, path,
        "Embedded values are not checked yet."⟩]
  | _ =>
      [⟨.invalidValueShape, path,
        "Expected a resource reference, embedded object, or allowed list."⟩]

/-- The list-entry policy, independently of list traversal. -/
def checkReferenceEntry (value : ι) (path : FieldPath) : List (Visit ι) :=
  match H.look value with
  | .null => []
  | .foreign => [.finding ⟨.nonJsonValue, path, "Expected a JSON value."⟩]
  | .array .. =>
      [.finding ⟨.unsupportedValueForm, path,
        "Nested lists are not checked yet."⟩]
  | _ => [.entry value path]

def checkReferenceValues (value : ι) (path : FieldPath) : List (Visit ι) :=
  match H.look value with
  | .array entries named symbols =>
      if entries.isEmpty then
        [.finding ⟨.unsupportedValueForm, path,
          "Empty lists are not supported in this value position."⟩]
      else
        (visitList entries named symbols path).flatMap fun
          | .finding d => [.finding d]
          | .entry entry entryPath => checkReferenceEntry H entry entryPath
  | _ => [.entry value path]

def isNull (value : ι) : Bool :=
  match H.look value with
  | .null => true
  | _ => false

/-- The non-null entries of a visited list. -/
def presentEntries (visits : List (Visit ι)) : List (ι × FieldPath) :=
  visits.filterMap fun
    | .finding _ => none
    | .entry value path => if isNull H value then none else some (value, path)

/-- Functional properties count non-null values but retain source indexes. -/
def checkSingleValue (value : ι) (path : FieldPath) : List (Visit ι) :=
  match H.look value with
  | .array entries named symbols =>
      if entries.isEmpty then
        [.finding ⟨.unsupportedValueForm, path,
          "Empty lists are not supported in this value position."⟩]
      else
        let visits := visitList entries named symbols path
        let present := presentEntries H visits
        (visits.filter fun visit => visit.finding?.isSome) ++
        (if present.length > 1 then
          [.finding ⟨.invalidMultiplicity, path,
            "Expected at most one non-null value."⟩]
        else []) ++
        present.flatMap fun entry => checkReferenceEntry H entry.1 entry.2
  | _ => [.entry value path]

/-! ## Scalars -/

def checkNonNegativeInteger (value : ι) (path : FieldPath) :
    List Diagnostic :=
  match H.look value with
  | .null => []
  | .number n =>
      if n.isNonNegativeInteger then []
      else
        [⟨.invalidValueShape, path, "Expected a non-negative integer."⟩]
  | _ => [⟨.invalidValueShape, path, "Expected a non-negative integer."⟩]

def checkLanguageTagText (tag : JsString) (path : FieldPath) :
    List Diagnostic :=
  if !isLanguageTag tag then
    [⟨.invalidValueShape, path, "Expected a language tag."⟩]
  else if !R.isLocale tag then
    [⟨.unsupportedValueForm, path,
      "This language tag is outside the current locale parser's support."⟩]
  else []

def checkLanguageTag (value : ι) (path : FieldPath) : List Diagnostic :=
  match H.look value with
  | .string tag => checkLanguageTagText R tag path
  | _ => [⟨.invalidValueShape, path, "Expected a language tag."⟩]

/-- The string case of `checkText`. -/
def checkPlainText (text : JsString) (path : FieldPath) (plain : Bool) :
    List Diagnostic :=
  if plain && hasMarkup text then
    [⟨.invalidValueShape, path,
      "Names must be plain text without HTML markup."⟩]
  else []

/-- The attributes of an explicit text value. -/
def checkTextMembers (path : FieldPath) (plain : Bool)
    (values : List (JsString × ι)) : List Diagnostic :=
  (sortByKey values).flatMap fun (key, value) =>
    let fieldPath := path ++ [.key key]
    if key = js "@value" then
      match H.look value with
      | .string text => checkPlainText text fieldPath plain
      | _ => [⟨.invalidValueShape, fieldPath, "Expected a text value."⟩]
    else if key = js "@language" then checkLanguageTag R H value fieldPath
    else
      [⟨.unsupportedValueForm, fieldPath,
        "This text-value attribute is not supported yet."⟩]

def checkText (value : ι) (path : FieldPath) (plain : Bool) :
    List Diagnostic :=
  match H.look value with
  | .null => []
  | .string text => checkPlainText text path plain
  | .object .. =>
      match readDocument H value path with
      | .error d => [d]
      | .ok values =>
          if values.lookup (js "@value") |>.isNone then
            [⟨.unsupportedValueForm, path,
              "Use a language-map property or an explicit @value object " ++
                "for localized text."⟩]
          else checkTextMembers R H path plain values
  | _ => [⟨.invalidValueShape, path, "Expected text."⟩]

def checkLanguageMap (value : ι) (path : FieldPath) (plain : Bool) :
    List Diagnostic :=
  match H.look value with
  | .null => []
  | .object .. =>
      match readDocument H value path with
      | .error d => [d]
      | .ok values =>
          (sortByKey values).flatMap fun (language, entry) =>
            let fieldPath := path ++ [.key language]
            checkLanguageTagText R language fieldPath ++
              match H.look entry with
              | .null => []
              | .string text => checkPlainText text fieldPath plain
              | _ =>
                  [⟨.invalidValueShape, fieldPath,
                    "Expected a language-map string."⟩]
  | _ => [⟨.invalidValueShape, path, "Expected a language map."⟩]

/-- Check the calendar components apart from representation support. -/
def checkDateTimeText (text : JsString) (path : FieldPath) :
    List Diagnostic :=
  match matchDateTime text with
  | none =>
      [⟨.invalidDatetime, path,
        "Expected an ActivityStreams date-time with a timezone."⟩]
  | some parts =>
      let whole := parts.minute ++ parts.second.getD (js ":00") ++ parts.offset
      if (R.parseInstant whole).isNone then
        [⟨.invalidDatetime, path,
          "Expected a valid calendar date, time, and offset."⟩]
      else if parts.second = some (js ":60") then
        [⟨.unsupportedValueForm, path,
          "Leap-second timestamps are not checked by the current " ++
            "date-time parser."⟩]
      else if parts.second.isNone then
        [⟨.unsupportedValueForm, path,
          if parts.fraction.isSome then
            "ActivityStreams permits fractions without seconds, but Fedify " ++
              "requires explicit seconds before a fractional component."
          else
            "ActivityStreams permits omitted seconds, but Fedify requires " ++
              "explicit seconds, such as 12:34:00Z."⟩]
      else if (parts.fraction.getD []).length > 10 then
        [⟨.unsupportedValueForm, path,
          "Fractional seconds exceeding nine digits cannot be preserved " ++
            "through Fedify parsing; provide at most nine fractional digits."⟩]
      else if (R.parseInstant text).isNone then
        [⟨.unsupportedValueForm, path,
          "This date-time matches the ActivityStreams format, but cannot be " ++
            "parsed as an instant without rewriting; provide a timestamp " ++
            "such as 2024-01-01T12:34:00Z."⟩]
      else []

def checkDateTime (value : ι) (path : FieldPath) : List Diagnostic :=
  match H.look value with
  | .null => []
  | .string text => checkDateTimeText R text path
  | _ => [⟨.invalidValueShape, path, "Expected a date-time string."⟩]

/-! ## Link metadata -/

def checkLinkRelation (value : ι) (path : FieldPath) : List Diagnostic :=
  match H.look value with
  | .null => []
  | .string text =>
      if text.isEmpty ||
          text.any (fun c => isControlOrSpace c || c == unit ',') then
        [⟨.invalidValueShape, path,
          "Expected a relation token or absolute IRI without whitespace " ++
            "or commas."⟩]
      else if hasScheme text then checkReference R H value path
      else if !isRelationToken text then
        [⟨.invalidValueShape, path,
          "Expected a relation token or absolute IRI."⟩]
      else []
  | _ =>
      [⟨.invalidValueShape, path,
        "Expected a relation token or absolute IRI without whitespace " ++
          "or commas."⟩]

/-- `checkLinkProperty` for a property other than `rel`. -/
def checkLinkScalar (property : JsString) (value : ι) (path : FieldPath) :
    List Diagnostic :=
  match H.look value with
  | .null => []
  | .string text =>
      if property = js "href" then checkReference R H value path
      else if property = js "mediaType" then
        if R.isMimeType text then []
        else [⟨.invalidValueShape, path, "Expected a MIME media type."⟩]
      else checkLanguageTag R H value path
  | _ => [⟨.invalidValueShape, path, "Expected a string."⟩]

def checkLinkProperty (property : JsString) (value : ι) (path : FieldPath) :
    List Diagnostic :=
  if property = js "rel" then
    runVisits (checkLinkRelation R H) (checkReferenceValues H value path)
  else checkLinkScalar R H property value path

/-! ## Common properties -/

inductive CommonPropertyKind where
  | text | languageMap | datetime | id | mediaType
  deriving DecidableEq

/-- The text properties of a type. -/
def textProperties (type : VocabularyType) : List JsString :=
  (if R.isTypeOrSubtype type .object then
    [js "name", js "summary", js "content"]
  else [js "name"]) ++
  (if R.isActor type then [js "preferredUsername"] else [])

def getCommonPropertyKind (type : VocabularyType) (property : JsString) :
    Option CommonPropertyKind :=
  if (textProperties R type).contains property then some .text
  else if (textProperties R type).any fun name =>
      property == name ++ js "Map" && name != js "preferredUsername" then
    some .languageMap
  else if R.isTypeOrSubtype type .object &&
      [js "published", js "updated", js "startTime", js "endTime"].contains
        property then
    some .datetime
  else if property = js "id" then some .id
  else if property = js "mediaType" then some .mediaType
  else none

/-- Scalar and common properties share checks.  The result is `none` where
the source answers that no rule of these applies. -/
def checkCommonProperty (kind : Option CommonPropertyKind)
    (property : JsString) (value : ι) (path : FieldPath) :
    Option (List Diagnostic) :=
  match kind with
  | some .text =>
      some (runVisits
        (fun entry entryPath =>
          checkText R H entry entryPath (property == js "name"))
        (checkReferenceValues H value path))
  | some .languageMap =>
      some (checkLanguageMap R H value path (property == js "nameMap"))
  | some .datetime =>
      some (runVisits (checkDateTime R H) (checkSingleValue H value path))
  | some .id =>
      match H.look value with
      | .string _ => some (checkReference R H value path)
      | _ =>
          some [⟨.invalidValueShape, path,
            "Expected an IRI identifier string."⟩]
  | some .mediaType =>
      some (runVisits (checkLinkProperty R H property)
        (checkSingleValue H value path))
  | none => if isNull H value then some [] else none

/-- Preview the omission of an empty array or an absent identifier.  The
result is `none` where the source goes on to check the value. -/
def proposePropertyOmission (value : ι) (path : FieldPath)
    (identifier : Bool) :
    Option (List Diagnostic × Option (NormalizationChange ι)) :=
  let propose (emptyArray : Bool) :
      List Diagnostic × Option (NormalizationChange ι) :=
    ([⟨if emptyArray then .emptyPropertyList else .absentIdentifier, path,
        if emptyArray then
          "ActivityStreams represents empty property arrays by omission or " ++
            "null; the preview omits this property."
        else
          "This identifier is absent; the preview omits it so Fedify " ++
            "receives no non-string identifier."⟩],
      some (.remove
        (if emptyArray then "omit_empty_property_list"
        else "omit_absent_identifier")
        path value
        (if emptyArray then
          "Omit an empty property array from the wire representation."
        else "Omit an absent identifier from the wire representation.")))
  match H.look value with
  | .null => if identifier then some (propose false) else none
  | .array entries named symbols =>
      if !entries.isEmpty && !identifier then none
      else
        let visits := visitList entries named symbols path
        let findings := visits.filterMap Visit.finding?
        if !findings.isEmpty then some (findings, none)
        else if !(presentEntries H visits).isEmpty then none
        else some (propose entries.isEmpty)
  | _ => none

/-! ## Extension values -/

/-- The findings on a `@type` keyword and whether it declares literal JSON. -/
def checkExtensionType (value : ι) (path : FieldPath) :
    List Diagnostic × Bool :=
  match H.look value with
  | .string text => ([], text == js "@json")
  | .array entries named symbols =>
      let visits := visitList entries named symbols path
      (visits.flatMap fun
          | .finding d => [d]
          | .entry entry entryPath =>
              match H.look entry with
              | .string _ => []
              | _ =>
                  [⟨.invalidValueShape, entryPath,
                    "Expected a JSON-LD type string."⟩],
        visits.any fun
          | .finding _ => false
          | .entry entry _ =>
              entries.length == 1 &&
                match H.look entry with
                | .string text => text == js "@json"
                | _ => false)
  | _ =>
      ([⟨.invalidValueShape, path,
        "Expected a JSON-LD type string or array of strings."⟩], false)

/-- Check explicit keyword shapes.  The flag tells whether `@value` contains
literal JSON rather than nested JSON-LD. -/
def checkExtensionKeywords (values : List (JsString × ι))
    (path : FieldPath) : List Diagnostic × Bool :=
  let idFindings : List Diagnostic :=
    match values.lookup (js "@id") with
    | none => []
    | some id =>
        match H.look id with
        | .string _ => []
        | _ =>
            [⟨.invalidValueShape, path ++ [.key (js "@id")],
              "Expected a string JSON-LD identifier."⟩]
  let typeFindings : List Diagnostic × Bool :=
    match values.lookup (js "@type") with
    | none => ([], false)
    | some type => checkExtensionType H type (path ++ [.key (js "@type")])
  let languageFindings : List Diagnostic :=
    match values.lookup (js "@value"), values.lookup (js "@language") with
    | some value, some language =>
        match H.look language with
        | .null => []
        | .string _ =>
            match H.look value with
            | .null | .string _ => []
            | _ =>
                [⟨.invalidValueShape, path ++ [.key (js "@value")],
                  "A JSON-LD language-tagged value must have a string " ++
                    "@value or null absence."⟩]
        | _ =>
            [⟨.invalidValueShape, path ++ [.key (js "@language")],
              "Expected a string language tag or null."⟩] ++
            match H.look value with
            | .null | .string _ => []
            | _ =>
                [⟨.invalidValueShape, path ++ [.key (js "@value")],
                  "A JSON-LD language-tagged value must have a string " ++
                    "@value or null absence."⟩]
    | _, _ => []
  (idFindings ++ typeFindings.1 ++ languageFindings, typeFindings.2)

end DrFed.Document
