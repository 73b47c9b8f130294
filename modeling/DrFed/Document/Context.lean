import DrFed.Document.Values

/-!
# Contexts, terms and types

The bounded interpretation of JSON-LD contexts: the sweep that resolves the
definitions of one inline context, the entries of a `@context`, and the
resolution of property keys and type strings under the resulting terms.
-/

namespace DrFed.Document

structure ContextTerm where
  iri : JsString
  type : Option JsString
  container : Option JsString
  prefixFlag : Bool
  deriving DecidableEq

/-- A term map, in insertion order. -/
abbrev Terms := List (JsString × ContextTerm)

def activityStreamsContext : JsString :=
  js "https://www.w3.org/ns/activitystreams"

def securityContext : JsString := js "https://w3id.org/security/v1"

/-! ## Resolving one term -/

section Runtime

variable (R : Runtime)

/-- URL parsing alone accepts characters that JSON-LD IRI mappings forbid. -/
def isSupportedContextUri (value : JsString) : Bool :=
  hasScheme value &&
    !(value.any fun c =>
      c ≤ 0x20 || (0x7f ≤ c && c ≤ 0x9f) || isIriDelimiter c) &&
    R.canParseUrl value

def supportedUri? (value : JsString) : Option JsString :=
  if isSupportedContextUri R value then some value else none

/-- Resolve explicit terms, defined prefixes, keywords and absolute IRIs.  A
term or prefix that is still pending does not resolve. -/
def resolveTerm (value : JsString) (terms : Terms)
    (pending : List JsString) : Option JsString :=
  if value = js "@id" ∨ value = js "@type" then some value
  else if value ∈ pending then none
  else
    match terms.lookup value with
    | some term => some term.iri
    | none =>
        match cutColon value with
        | none => none
        | some (name, suffix) =>
            if name ∈ pending then none
            else
              match terms.lookup name with
              | some term =>
                  if term.prefixFlag then supportedUri? R (term.iri ++ suffix)
                  else supportedUri? R value
              | none => supportedUri? R value

/-! ## Reading one definition -/

variable {ι : Type} (H : Values ι)

/-- `/[#/:]$/u` -/
def endsLikePrefix (iri : JsString) : Bool :=
  match iri.getLast? with
  | some c => (js "#/:").contains c
  | none => false

def startsWithAt (value : JsString) : Bool :=
  value.head? == some (unit '@')

def stringOf (value : ι) : Option JsString :=
  match H.look value with
  | .string text => some text
  | _ => none

/-- The container entry of a definition, or why it is not supported. -/
def readContainer (values : List (JsString × ι)) (path : FieldPath) :
    Except (Option Diagnostic) (Option JsString) :=
  match values.lookup (js "@container") with
  | none => .ok none
  | some value =>
      let container := stringOf H value
      if container = some (js "@language") ∧
          (values.lookup (js "@type")).isSome then
        .error (some ⟨.unsupportedContextForm, path,
          "Language containers with type coercion are not supported."⟩)
      else if container = some (js "@language") ∨
          container = some (js "@list") then .ok container
      else
        .error (some ⟨.unsupportedContextForm, path,
          "This container form is not supported."⟩)

/-- The explicit prefix flag of a definition. -/
def readPrefixFlag (values : List (JsString × ι)) (path : FieldPath) :
    Except (Option Diagnostic) Bool :=
  match values.lookup (js "@prefix") with
  | none => .ok false
  | some value =>
      match H.look value with
      | .bool flag => .ok flag
      | _ =>
          .error (some ⟨.invalidContext, path,
            "Expected a boolean @prefix flag."⟩)

/-- The expanded type coercion of a definition.  A coercion that does not
resolve leaves the definition unresolved. -/
def readCoercion (values : List (JsString × ι)) (path : FieldPath)
    (terms : Terms) (pending : List JsString) :
    Except (Option Diagnostic) (Option JsString) :=
  match values.lookup (js "@type") with
  | none => .ok none
  | some value =>
      match stringOf H value with
      | none => .error none
      | some type =>
          if startsWithAt type ∧ type ≠ js "@id" then
            .error (some ⟨.unsupportedContextForm, path,
              "This type coercion is outside the supported profile."⟩)
          else
            match resolveTerm R type terms pending with
            | none => .error none
            | some expanded => .ok (some expanded)

/-- `error none` is a definition that does not resolve yet. -/
def resolveContextTerm (id : JsString) (values : List (JsString × ι))
    (implicitPrefix : Bool) (path : FieldPath) (terms : Terms)
    (pending : List JsString) : Except (Option Diagnostic) ContextTerm :=
  match resolveTerm R id terms pending with
  | none => .error none
  | some iri =>
      if startsWithAt iri ∧ (values.any fun entry => entry.1 ≠ js "@id") then
        .error (some ⟨.unsupportedContextForm, path,
          "Keyword aliases with additional coercion or container options " ++
            "are not supported."⟩)
      else do
        let type ← readCoercion R H values path terms pending
        let container ← readContainer H values path
        let flag ← readPrefixFlag H values path
        return {
          iri
          type
          container
          prefixFlag := flag || (implicitPrefix && endsLikePrefix iri) }

/-- Check the `@id` of a definition, then resolve it. -/
def readDefinition (values : List (JsString × ι)) (implicitPrefix : Bool)
    (path : FieldPath) (terms : Terms) (pending : List JsString)
    (id : Option JsString) : Except (Option Diagnostic) ContextTerm :=
  match id with
  | none =>
      .error (some ⟨.invalidContext, path,
        "Expected a string @id mapping."⟩)
  | some id =>
      if (id.head?.any fun c => (js "#/.").contains c) ∨
          (js "_:").isPrefixOf id then
        .error (some ⟨.unsupportedContextForm, path,
          "Relative and blank-node term mappings are outside the supported " ++
            "profile."⟩)
      else if startsWithAt id ∧ id ≠ js "@id" ∧ id ≠ js "@type" then
        .error (some ⟨.unsupportedContextForm, path,
          "This keyword alias is outside the supported profile."⟩)
      else
        resolveContextTerm R H id values implicitPrefix path terms pending

/-- Keys that a simple term definition may have. -/
def definitionKeys : List JsString :=
  [js "@id", js "@type", js "@container", js "@prefix"]

/-- An expanded term definition. -/
def readExpandedTerm (values : List (JsString × ι)) (path : FieldPath)
    (terms : Terms) (pending : List JsString) :
    Except (Option Diagnostic) ContextTerm :=
  if values.any fun entry => !definitionKeys.contains entry.1 then
    .error (some ⟨.unsupportedContextForm, path,
      "Scoped contexts, reverse properties, and complex term definitions " ++
        "are not supported."⟩)
  else
    match values.lookup (js "@id") with
    | none =>
        .error (some ⟨.unsupportedContextForm, path,
          "Inline term definitions require an explicit @id in this " ++
            "profile."⟩)
    | some id =>
        readDefinition R H values false path terms pending (stringOf H id)

def readContextTerm (definition : ι) (path : FieldPath) (terms : Terms)
    (pending : List JsString) : Except (Option Diagnostic) ContextTerm :=
  match H.look definition with
  | .string id =>
      readDefinition R H [(js "@id", definition)] true path terms pending
        (some id)
  | .object .. =>
      match readDocument H definition path with
      | .error d => .error (some d)
      | .ok values => readExpandedTerm R H values path terms pending
  | .null =>
      .error (some ⟨.unsupportedContextForm, path,
        "Only string and simple term definitions are supported."⟩)
  | _ =>
      .error (some ⟨.invalidContext, path,
        "Only string and simple term definitions are supported."⟩)

/-! ## The sweep over one inline context -/

/-- The mutable state of `applyContextTerms`.  A context is valid as long as
there is no finding. -/
structure Sweep where
  terms : Terms
  pending : List JsString
  findings : List Diagnostic
  resolved : Bool

def Sweep.find (s : Sweep) (d : Diagnostic) : Sweep :=
  { s with findings := s.findings ++ [d] }

/-- The findings on a name that no definition may have; `none` for a name
whose definition is read. -/
def checkTermName (isBundled : Bool) (values : List (JsString × ι))
    (path : FieldPath) (name : JsString) : Option (Option Diagnostic) :=
  if name.isEmpty then
    some (some ⟨.invalidContext, path, "A context term cannot be empty."⟩)
  else if name.contains (unit ':') then
    some (some ⟨.unsupportedContextForm, path,
      "IRI-shaped term definitions are outside the supported inline " ++
        "profile."⟩)
  else if startsWithAt name then
    if isBundled ∧ name = js "@vocab" ∧
        (values.lookup name).bind (stringOf H) = some (js "_:") then
      some none
    else
      some (some ⟨.unsupportedContextForm, path,
        "This context directive is outside the supported profile."⟩)
  else none

/-- One turn of the loop over the pending names. -/
def sweepName (values : List (JsString × ι)) (path : FieldPath)
    (protectedTerms : Option Terms) (s : Sweep) (name : JsString) : Sweep :=
  let fieldPath := path ++ [.key name]
  match checkTermName H protectedTerms.isNone values fieldPath name with
  | some (some d) => s.find d
  | some none => { s with pending := s.pending.erase name }
  | none =>
      match values.lookup name with
      | none => s
      | some definition =>
          match readContextTerm R H definition fieldPath s.terms s.pending with
          | .error none => s
          | .error (some d) => s.find d
          | .ok term =>
              let original := protectedTerms.bind fun terms => terms.lookup name
              if original.isSome ∧ original ≠ some term then
                s.find ⟨.unsupportedContextForm, fieldPath,
                  "The standard ActivityStreams context cannot be overridden."⟩
              else
                { terms := AssocList.put name term s.terms
                  pending := s.pending.erase name
                  findings := s.findings
                  resolved := true }

def sweepPending (values : List (JsString × ι)) (path : FieldPath)
    (protectedTerms : Option Terms) (s : Sweep) : Sweep :=
  s.pending.foldl (sweepName R H values path protectedTerms)
    { s with resolved := false }

/-- Report every name that is left when a sweep resolved none of them. -/
def reportUnresolved (path : FieldPath) (s : Sweep) : Sweep :=
  s.pending.foldl
    (fun acc name => acc.find ⟨.invalidContext, path ++ [.key name],
      "The term has an unresolved or cyclic IRI mapping."⟩) s

/-- Sweep until nothing is pending, something is wrong, or nothing more
resolves.  Every sweep but the last resolves a name, so the number of names
bounds the number of sweeps. -/
def sweepAll (values : List (JsString × ι)) (path : FieldPath)
    (protectedTerms : Option Terms) : ℕ → Sweep → Sweep
  | 0, s => if s.pending.isEmpty then s else reportUnresolved path s
  | fuel + 1, s =>
      if s.pending.isEmpty then s
      else
        let swept := sweepPending R H values path protectedTerms s
        if !swept.findings.isEmpty then swept
        else if swept.resolved ∨ swept.pending.isEmpty then
          sweepAll values path protectedTerms fuel swept
        else reportUnresolved path swept

/-- Resolve the definitions of one context object.  They shadow the outer
terms of their names from the start. -/
def applyContextTerms (values : List (JsString × ι)) (path : FieldPath)
    (terms : Terms) (protectedTerms : Option Terms) :
    List Diagnostic × Terms :=
  let names := values.map Prod.fst
  let swept := sweepAll R H values path protectedTerms names.length
    { terms := AssocList.removeAll names terms
      pending := names
      findings := []
      resolved := false }
  (swept.findings, swept.terms)

/-! ## Bundled contexts -/

structure ContextTables where
  bundledContexts : List (JsString × Terms)
  standardTerms : Terms
  deriving DecidableEq

/-- Interpret one bundled context; `none` when the source throws. -/
def interpretBundled (url : JsString) : Option Terms :=
  match applyContextTerms R Json.tree (R.preloadedContexts url).members [] []
      none with
  | ([], terms) => some terms
  | _ => none

def getContextTables : Option ContextTables := do
  let standard ← interpretBundled R activityStreamsContext
  let security ← interpretBundled R securityContext
  return {
    bundledContexts :=
      [(activityStreamsContext, standard), (securityContext, security)]
    standardTerms := standard }

end Runtime

/-- A runtime whose bundled contexts are within the profile, so that the
tables were interpreted without an error. -/
structure Platform extends Runtime where
  tables : ContextTables
  tables_eq : getContextTables toRuntime = some tables

section Platform

variable (P : Platform) {ι : Type} (H : Values ι)

def Platform.standardTerms : Terms := P.tables.standardTerms

def applyContextEntry (value : ι) (path : FieldPath) (terms : Terms) :
    List Diagnostic × Terms :=
  match H.look value with
  | .string text =>
      let url :=
        if text = js "http://www.w3.org/ns/activitystreams" then
          activityStreamsContext
        else text
      match P.tables.bundledContexts.lookup url with
      | none =>
          ([⟨.contextUnavailableOffline, path,
            "This context is outside the offline allowlist."⟩], terms)
      | some bundled => ([], AssocList.putAll bundled terms)
  | .object .. =>
      match readDocument H value path with
      | .error d => ([d], terms)
      | .ok definitions =>
          applyContextTerms P.toRuntime H definitions path terms
            (some P.standardTerms)
  | .null | .array .. =>
      ([⟨.unsupportedContextForm, path,
        "Expected an allowlisted context or a simple inline context."⟩], terms)
  | _ =>
      ([⟨.invalidContext, path,
        "Expected an allowlisted context or a simple inline context."⟩], terms)

/-- Apply the entries of a context list in order. -/
def applyContextList : List (Visit ι) → Terms → List Diagnostic × Terms
  | [], terms => ([], terms)
  | .finding d :: rest, terms =>
      let result := applyContextList rest terms
      (d :: result.1, result.2)
  | .entry entry entryPath :: rest, terms =>
      let applied := applyContextEntry P H entry entryPath terms
      let result := applyContextList rest applied.2
      (applied.1 ++ result.1, result.2)

/-- Apply the value of a `@context`. -/
def applyContext (context : ι) (path : FieldPath) (terms : Terms) :
    List Diagnostic × Terms :=
  match H.look context with
  | .array entries named symbols =>
      applyContextList P H (visitList entries named symbols path) terms
  | _ => applyContextEntry P H context path terms

/-- Each child gets its parent's understood context; overrides never affect
siblings. -/
def checkContext (values : List (JsString × ι)) (path : FieldPath)
    (inherited : Option Terms) : List Diagnostic × Option Terms :=
  let contextPath := path ++ [.key (js "@context")]
  match values.lookup (js "@context") with
  | none =>
      match inherited with
      | some terms => ([], some terms)
      | none =>
          ([⟨.implicitActivitystreamsContext, contextPath,
            "Assuming the ActivityStreams context for this document."⟩],
            some P.standardTerms)
  | some context =>
      match applyContext P H context contextPath (inherited.getD []) with
      | ([], terms) =>
          if P.standardTerms.all fun entry =>
              terms.lookup entry.1 == some entry.2 then ([], some terms)
          else
            ([⟨.unsupportedContextForm, contextPath,
              "The context must include the standard ActivityStreams " ++
                "vocabulary."⟩], none)
      | (findings, _) => (findings, none)

/-! ## Properties and types -/

structure SourceProperty where
  source : JsString
  name : Option JsString
  iri : Option JsString
  compatible : Bool

/-- Retain one entry per source field; aliases are never merged. -/
def resolveProperty (source : JsString) (context : Terms) : SourceProperty :=
  let term := context.lookup source
  let iri := (term.map ContextTerm.iri).or
    (resolveTerm P.toRuntime source context [])
  match P.standardTerms.find? fun standard =>
      iri == some standard.2.iri &&
        term.bind ContextTerm.container == standard.2.container with
  | some (name, standard) =>
      { source
        name := some name
        iri := some standard.iri
        compatible := term.bind ContextTerm.type == standard.type }
  | none =>
      if iri = some (js "@id") then
        { source, name := some (js "id"), iri := some (js "@id"),
          compatible := true }
      else if iri = some (js "@type") then
        { source, name := some (js "type"), iri := some (js "@type"),
          compatible := true }
      else { source, name := none, iri, compatible := false }

def isOpaqueExtension (field : SourceProperty) : Bool :=
  !startsWithAt field.source && !(field.iri.any startsWithAt) &&
    !(P.standardTerms.any fun term => some term.2.iri == field.iri)

def isTypeCombination (value : ι) : Bool :=
  match H.look value with
  | .array entries _ _ =>
      1 < entries.length &&
        entries.all fun
          | some (.data entry _) => (stringOf H entry).isSome
          | _ => false
  | _ => false

/-- The class that an IRI names. -/
def typeOfIri (iri : JsString) : Option VocabularyType :=
  if iri = P.typeId .link then some .link
  else if iri = P.typeId .mention then some .mention
  else P.getEntityTypeById iri

def checkType (value : Option ι) (path : FieldPath) (context : Terms) :
    Except Diagnostic VocabularyType :=
  let iri := (value.bind (stringOf H)).bind fun text =>
    resolveTerm P.toRuntime text context []
  match iri.bind (typeOfIri P) with
  | some type => .ok type
  | none =>
      let isArray := value.any fun v =>
        match H.look v with
        | .array .. => true
        | _ => false
      let isAbsentOrText := value.all fun v =>
        match H.look v with
        | .null | .string _ => true
        | _ => false
      .error ⟨
        if isArray then .unsupportedValueForm
        else if isAbsentOrText then .unsupportedType
        else .invalidValueShape,
        path,
        if value.any (isTypeCombination H) then
          "Type combinations are not supported. Provide a single supported " ++
            "type."
        else if isArray then
          "Type arrays are not supported. Provide a single type string."
        else "This type is not supported by the checker yet."⟩

end Platform

end DrFed.Document
