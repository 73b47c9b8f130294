import DrFed.Document.Describe
import DrFed.Js.Heap

/-!
# Validation and description of any value

The callers pass values that nothing is known about.  The walk reads them
through property descriptors; the preview is a copy of a value that the walk
has accepted, and the description reads the values of accepted documents.
-/

namespace DrFed

section Values

variable {ι : Type} (H : Values ι)

/-- The value of an enumerable data property. -/
def Slot.value? : Slot ι → Option ι
  | .data value true => some value
  | _ => none

/-- Copy a value, nested as deep as the fuel allows.  There is no copy of what
is not JSON data. -/
def Values.clone : ℕ → ι → Option Json
  | 0, _ => none
  | fuel + 1, value =>
      match H.look value with
      | .foreign => none
      | .null => some .null
      | .bool b => some (.bool b)
      | .number n => some (.num n)
      | .string text => some (.str text)
      | .array entries _ _ =>
          (entries.mapM fun (entry : Option (Slot ι)) =>
            (entry.bind Slot.value?).bind (Values.clone fuel)).map .arr
      | .object _ members _ =>
          (members.mapM fun (m : JsString × Slot ι) =>
            (m.2.value?.bind (Values.clone fuel)).map fun copy =>
              (m.1, copy)).map .obj

end Values

namespace Document

/-- The copy of a proposed change. -/
def NormalizationChange.copy {ι : Type} (clone : ι → Option Json) :
    NormalizationChange ι → Option Change
  | .add reason path after message => some (.add reason path after message)
  | .replace reason path before after message =>
      (clone before).map fun before =>
        .replace reason path before after message
  | .remove reason path before message =>
      (clone before).map fun before => .remove reason path before message

section Platform

variable (P : Platform) {ι : Type} (H : Values ι)

/-- The result of a walk with changes, once its preview has been checked. -/
def checkPreview (reporter : Reporter) (changes : List Change)
    (preview : Json) (checked : ValidationResult) : ValidationResult :=
  let reporter := reportPreviewDiagnostics checked.diagnostics reporter
  if !checked.complete || !reporter.result.accepts then
    { reporter.result with
      complete := checked.complete && reporter.complete }
  else
    { reporter.result with
      changes
      normalizedDocument := some preview }

/-- `validateDocument` on any value; the fuel is for the copy. -/
def validateValue (fuel : ℕ) (value : ι) : Option ValidationResult :=
  let walk := checkDocumentValue P H value
  let result := walk.reporter.result
  if !result.accepts || walk.changes.isEmpty then some result
  else do
    let document ← H.clone fuel value
    let changes ← walk.changes.mapM (NormalizationChange.copy (H.clone fuel))
    let preview := createPreview document changes
    return checkPreview walk.reporter changes preview
      (validateDocument P preview)

/-- What validation of a value results in, however long the copy takes. -/
def Validates (value : ι) (result : ValidationResult) : Prop :=
  ∃ fuel, validateValue P H fuel value = some result

/-! ## Description -/

/-- The strings of a property value, with their paths. -/
def textEntries (value : ι) (path : FieldPath) :
    List (JsString × FieldPath) :=
  match H.look value with
  | .string text => [(text, path)]
  | .array entries _ _ =>
      entries.zipIdx.filterMap fun (entry, i) =>
        ((entry.bind Slot.value?).bind (stringOf H)).map fun text =>
          (text, path ++ [.index i])
  | _ => []

/-- The identifiers that one field supplies. -/
def identifiersIn (path : FieldPath) (context : Terms) (field : Field ι) :
    List DocumentIdentifier :=
  match field.name with
  | some name =>
      if field.compatible ∧ identifierProperties.contains name then
        (textEntries H field.value (path ++ [.key field.source])).map
          fun (text, entryPath) =>
            { property := name
              path := entryPath
              value := text
              iri := expandIdentifier text context }
      else []
  | none => []

def describeRecord (node : Node ι) : DocumentNode where
  path := node.path
  property := none
  type := P.typeId node.type
  kind := nodeKind P node.type
  properties := nodeProperties node.fields
  identifiers :=
    node.fields.flatMap (identifiersIn H node.path node.context)

/-- `describeDocument` on any value. -/
def describeValue (value : ι) : Option (List DocumentNode) :=
  let walk := checkDocumentValue P H value
  if walk.reporter.accepts then
    let nodes := walk.visited.map (describeRecord P H)
    some (nodes.map (assignProperty nodes))
  else none

/-- Only an accepted walk leads to a complete result without errors. -/
theorem accepts_of_validates {value : ι} {result : ValidationResult}
    (h : Validates P H value result) (haccepts : result.accepts = true) :
    (checkDocumentValue P H value).reporter.accepts = true := by
  obtain ⟨fuel, h⟩ := h
  unfold validateValue at h
  dsimp only at h
  split at h
  next =>
    obtain rfl := Option.some.inj h
    exact haccepts
  next hproposes =>
    simp only [Bool.or_eq_true, Bool.not_eq_true', not_or,
      Bool.not_eq_false] at hproposes
    exact hproposes.1

end Platform

end Document

end DrFed
