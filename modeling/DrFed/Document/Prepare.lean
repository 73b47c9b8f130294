import DrFed.Document.Walk

/-!
# Previews, validation and preparation

Validation re-checks the preview of the omissions it proposes.  Preparation
adds the values that the server owns to the proposals of the walk and
re-checks the resulting preview.
-/

namespace DrFed.Document

abbrev Change := NormalizationChange Json

structure ValidationResult where
  complete : Bool
  diagnostics : List Diagnostic
  normalizedDocument : Option Json
  changes : List Change

def ValidationResult.accepts (r : ValidationResult) : Bool :=
  r.complete && !hasError r.diagnostics

def Reporter.result (r : Reporter) : ValidationResult where
  complete := r.complete
  diagnostics := r.diagnostics
  normalizedDocument := none
  changes := []

/-! ## The preview -/

/-- Apply a function to the container of a change and its last segment. -/
def updateParent (document : Json) (path : FieldPath)
    (f : Json → Segment → Json) : Json :=
  match path.getLast? with
  | none => document
  | some segment =>
      document.update path.dropLast fun parent => f parent segment

/-- Define or delete the child that a change is about. -/
def editChild (change : Change) (parent : Json) (segment : Segment) : Json :=
  match change.after? with
  | some after => parent.setChild segment after
  | none => parent.removeChild segment

def applyChange (document : Json) (change : Change) : Json :=
  updateParent document change.path (editChild change)

/-- The clone of a JSON tree is the tree itself; the changes apply to it one
after the other. -/
def createPreview (document : Json) (changes : List Change) : Json :=
  changes.foldl applyChange document

/-! ## Validation -/

/-- Preview checks retain source diagnostics without repeating unchanged
findings.  The original result shares its list with the reporter, so a finding
that was just added counts as present too. -/
def reportPreviewDiagnostics (checked : List Diagnostic)
    (reporter : Reporter) : Reporter :=
  checked.foldl
    (fun r d =>
      if r.diagnostics.any fun existing =>
          existing.reason == d.reason && existing.path == d.path then r
      else r.report d) reporter

section Platform

variable (P : Platform)

/-- Validation with a bound on the number of nested previews. -/
def validateWithin : ℕ → Json → ValidationResult
  | 0, _ =>
      { complete := false
        diagnostics := [limitDiagnostic]
        normalizedDocument := none
        changes := [] }
  | fuel + 1, document =>
      let walk := checkDocumentValue P Json.tree document
      let result := walk.reporter.result
      if !result.accepts || walk.changes.isEmpty then result
      else
        let preview := createPreview document walk.changes
        let checked := validateWithin fuel preview
        let reporter :=
          reportPreviewDiagnostics checked.diagnostics walk.reporter
        if !checked.complete || !reporter.result.accepts then
          { reporter.result with
            complete := checked.complete && reporter.complete }
        else
          { reporter.result with
            changes := walk.changes
            normalizedDocument := some preview }

mutual

/-- The number of members in a tree. -/
def memberCount : Json → ℕ
  | .arr items => memberCountItems items
  | .obj ms => memberCountMembers ms
  | _ => 0

def memberCountItems : List Json → ℕ
  | [] => 0
  | item :: rest => memberCount item + memberCountItems rest

def memberCountMembers : List (JsString × Json) → ℕ
  | [] => 0
  | entry :: rest => 1 + memberCount entry.2 + memberCountMembers rest

end

/-- Every preview has fewer members than the document it was made from. -/
def validateDocument (document : Json) : ValidationResult :=
  validateWithin P (memberCount document + 1) document

/-! ## Trusted options -/

/-- A permission outcome established by server code. -/
structure DocumentAuthority where
  allowed : Bool
  path : FieldPath

/-- An authoritative value allocated by the caller, never the editor. -/
structure ServerOwnedField where
  path : FieldPath
  value : JsString

structure DocumentPreparationOptions where
  authority : List DocumentAuthority
  serverOwnedFields : List ServerOwnedField

/-- A caller mistake, by its message. -/
abbrev TypeError := String

def checkPreparationOptions (options : DocumentPreparationOptions) :
    Except TypeError Unit :=
  if options.authority.isEmpty ||
      options.serverOwnedFields.any fun field =>
        match field.path.getLast? with
        | some (.key _) => false
        | _ => true then
    .error ("Expected explicit trusted authority outcomes and " ++
      "server-owned fields.")
  else .ok ()

/-- `Object.getOwnPropertyDescriptor(value, part)`, whose key may be spelled
as a name or as an index. -/
def ownProperty (value : Json) (part : Segment) : Option Json :=
  match value, part with
  | .obj ms, .key name => ms.lookup name
  | .obj ms, .index i => ms.lookup (natText i)
  | .arr items, .index i => items[i]?
  | .arr items, .key name =>
      if name = js "length" then some (.num (.rational items.length))
      else (arrayIndex? name).bind fun i => items[i]?
  | _, _ => none

def isMissingPreparationParent (document : Json) : FieldPath → Bool
  | [] => false
  | part :: rest =>
      match ownProperty document part with
      | none => true
      | some value => isMissingPreparationParent value rest

/-- The parent path, the last segment as a key. -/
def ServerOwnedField.parent (field : ServerOwnedField) : FieldPath :=
  field.path.dropLast

def ServerOwnedField.source (field : ServerOwnedField) : JsString :=
  match field.path.getLast? with
  | some (.key name) => name
  | _ => []

def ownableProperties : List JsString :=
  [js "id", js "actor", js "attributedTo", js "published", js "updated"]

/-- The semantic fields that have been seen, by parent and property. -/
abbrev SeenFields := List (FieldPath × JsString)

/-- Validate caller configuration before document errors can stop
preparation. -/
def checkServerOwnedField (field : ServerOwnedField) (context : Terms)
    (seen : SeenFields) : Except TypeError (JsString × SeenFields) :=
  let resolved := resolveProperty P field.source context
  match resolved.name with
  | none =>
      .error ("Server-owned fields must identify a supported identity or " ++
        "timestamp property.")
  | some property =>
      if !resolved.compatible || !ownableProperties.contains property then
        .error ("Server-owned fields must identify a supported identity or " ++
          "timestamp property.")
      else if seen.contains (field.parent, property) then
        .error ("Specify each server-owned semantic field only once, " ++
          "including aliases.")
      else
        let findings :=
          if property = js "published" ∨ property = js "updated" then
            checkDateTimeText P.toRuntime field.value field.path
          else checkReferenceText P.toRuntime field.value field.path
        if findings.isEmpty then
          .ok (property, (field.parent, property) :: seen)
        else
          .error ("Invalid server-owned value for " ++ showJs property ++ ".")

/-- A field with the document that it belongs to. -/
structure CheckedField where
  field : ServerOwnedField
  target : Node Json
  property : JsString

/-- The last document that the walk read at a path. -/
def targetAt (visited : List (Node Json)) (path : FieldPath) :
    Option (Node Json) :=
  visited.reverse.find? fun node => node.path == path

def checkServerOwnedFields (document : Json) (visited : List (Node Json))
    (unavailable : List FieldPath) (truncated : Bool) :
    List ServerOwnedField → SeenFields → Except TypeError (List CheckedField)
  | [], _ => .ok []
  | field :: rest, seen =>
      if isMissingPreparationParent document field.parent then
        .error "Server-owned field parent path does not exist."
      else
        match targetAt visited field.parent with
        | none =>
            if (unavailable.any fun path => path.isPrefixOf field.parent) ||
                truncated then
              if (resolveProperty P field.source P.standardTerms).name.isSome
              then do
                let (_, seen) ←
                  checkServerOwnedField P field P.standardTerms seen
                checkServerOwnedFields document visited unavailable truncated
                  rest seen
              else
                checkServerOwnedFields document visited unavailable truncated
                  rest seen
            else
              .error ("Server-owned field parents must be existing supported " ++
                "documents, not references or opaque data.")
        | some target => do
            let (property, seen) ←
              checkServerOwnedField P field target.context seen
            let checked ← checkServerOwnedFields document visited unavailable
              truncated rest seen
            return { field, target, property } :: checked

/-! ## Proposals -/

/-- The keys of a record that resolve to a property. -/
def aliasesOf (values : List (JsString × Json)) (context : Terms)
    (property : JsString) : List (JsString × Json) :=
  values.filter fun entry =>
    (resolveProperty P entry.1 context).name == some property

/-- A list entry with its path, when the entry is not null. -/
def suppliedItem (path : FieldPath) (item : Json × ℕ) :
    Option (Json × FieldPath) :=
  match item.1 with
  | .null => none
  | entry => some (entry, path ++ [.index item.2])

/-- The non-null values of a property value, with their paths. -/
def suppliedValues (value : Json) (path : FieldPath) :
    List (Json × FieldPath) :=
  match value with
  | .arr items => items.zipIdx.filterMap (suppliedItem path)
  | .null => []
  | value => [(value, path)]

def isText (value : Json) (text : JsString) : Bool :=
  match value with
  | .str s => s == text
  | _ => false

/-- A proposed omission that a server-owned value replaces. -/
def isOmissionAt (path : FieldPath) (change : Change) : Bool :=
  change.isRemove &&
    (change.reason == "omit_empty_property_list" ||
      change.reason == "omit_absent_identifier") &&
    change.path == path

/-- Compare a checked server-owned value without rewriting a submitted
claim. -/
def proposeServerField (checked : CheckedField) (changes : List Change) :
    List Diagnostic × List Change :=
  let ⟨field, target, property⟩ := checked
  let aliases := aliasesOf P target.values target.context property
  let supplied := aliases.flatMap fun entry =>
    suppliedValues entry.2 (field.parent ++ [.key entry.1])
  match supplied with
  | [] =>
      -- The requested spelling comes first, even beside another null alias.
      let key :=
        if (target.values.lookup field.source).isSome then field.source
        else (aliases.head?.map Prod.fst).getD field.source
      let path := field.parent ++ [.key key]
      let message := "Use the server-proposed " ++
        showJs property ++ " for this creation operation."
      ([], changes.eraseP (isOmissionAt path) ++ [
        match target.values.lookup key with
        | some before =>
            .replace "assign_server_owned_field" path before
              (.str field.value) message
        | none =>
            .add "assign_server_owned_field" path (.str field.value) message])
  | [(entry, path)] =>
      if isText entry field.value then ([], changes)
      else
        ([⟨.serverOwnedFieldConflict, path,
          "This field must match the server-owned value for this creation " ++
            "operation."⟩], changes)
  | several =>
      (several.map fun supplied =>
        ⟨.serverOwnedFieldConflict, supplied.2,
          "This field must match the server-owned value for this creation " ++
            "operation."⟩, changes)

/-- Compare the fields one after the other. -/
def proposeServerFields : List CheckedField → List Change →
    List Diagnostic × List Change
  | [], changes => ([], changes)
  | checked :: rest, changes =>
      let proposed := proposeServerField P checked changes
      let result := proposeServerFields rest proposed.2
      (proposed.1 ++ result.1, result.2)

def authorityFindings (authority : List DocumentAuthority) :
    List Diagnostic :=
  authority.filterMap fun outcome =>
    if outcome.allowed then none
    else some ⟨.unauthorizedLocalIdentity, outcome.path,
      "The server denied use of this local identity for the requested " ++
        "operation."⟩

/-- Warnings describe the final replacement, not an omission. -/
def describeReplacement (changes : List Change) (d : Diagnostic) :
    Diagnostic :=
  if (d.reason == .emptyPropertyList || d.reason == .absentIdentifier) &&
      changes.any fun change => change.isReplace && change.path == d.path then
    { d with
      message := "This absent value is replaced by the trusted " ++
        "server-owned value in the preview." }
  else d

/-- Re-check the preview of the proposed changes. -/
def checkProposal (document : Json) (changes : List Change)
    (reporter : Reporter) : ValidationResult :=
  let preview := createPreview document changes
  let checked := validateDocument P preview
  let reporter := reportPreviewDiagnostics checked.diagnostics reporter
  if !checked.complete || !reporter.result.accepts then
    { reporter.result with
      complete := checked.complete && reporter.complete }
  else
    { reporter.result with
      diagnostics := reporter.diagnostics.map (describeReplacement changes)
      changes
      normalizedDocument := some preview }

/-- What preparation does once the trusted options have been checked. -/
def prepareChecked (document : Json) (walk : WalkState Json)
    (authority : List DocumentAuthority) (checkedFields : List CheckedField) :
    ValidationResult :=
  let reporter := walk.reporter.reportAll (authorityFindings authority)
  if !reporter.result.accepts then reporter.result
  else
    let proposed := proposeServerFields P checkedFields walk.changes
    let reporter := reporter.reportAll proposed.1
    if !reporter.result.accepts || proposed.2.isEmpty then reporter.result
    else checkProposal P document proposed.2 reporter

def prepareDocument (document : Json) (options : DocumentPreparationOptions) :
    Except TypeError ValidationResult := do
  checkPreparationOptions options
  let walk := checkDocumentValue P Json.tree document
  let checkedFields ← checkServerOwnedFields P document walk.visited
    walk.unavailable
    (walk.reporter.diagnostics.any fun d =>
      d.reason == .diagnosticLimitReached)
    options.serverOwnedFields []
  return prepareChecked P document walk options.authority checkedFields

end Platform

end DrFed.Document
