import DrFed.Document.Agreement
import DrFed.Document.Assignment
import DrFed.Document.Fixpoint

/-!
# Preparation of values

Preparation over values in memory, which may be of any shape.  What it reads
of a value that spells a tree is what it reads of the tree, so the proposals
are the same and the preview of the value spells the preview of the tree.
-/

namespace DrFed

/-- `Object.getOwnPropertyDescriptor(object, part)`. -/
def JsObject.ownProperty? (object : JsObject) (part : Segment) :
    Option JsProperty :=
  match object with
  | .record _ members _ _ => members.lookup part.name
  | .array entries named _ =>
      match part with
      | .index i => entries[i]?.bind id
      | .key name =>
          if name = js "length" then
            some (.data (.number (.rational entries.length)) false)
          else
            match arrayIndex? name with
            | some i => entries[i]?.bind id
            | none => named.lookup name

/-- Inspect source paths without executing accessors, even on invalid
documents. -/
def Heap.isMissingPreparationParent (h : Heap) : JsValue → FieldPath → Bool
  | _, [] => false
  | .ref address, part :: rest =>
      match (h address).ownProperty? part with
      | none => true
      | some (.accessor ..) => false
      | some (.data value _) => h.isMissingPreparationParent value rest
  | _, _ :: _ => true

namespace Document

/-! ## Server-owned fields -/

section Fields

variable (P : Platform) {ι : Type}

/-- A server-owned field with the document that it belongs to. -/
structure CheckedTarget (ι : Type) where
  field : ServerOwnedField
  target : Node ι
  property : JsString

def CheckedTarget.checkedField (checked : CheckedTarget Json) : CheckedField :=
  ⟨checked.field, checked.target, checked.property⟩

/-- The targets by path, where a later document replaces an earlier one. -/
def targetIn (visited : List (Node ι)) (path : FieldPath) : Option (Node ι) :=
  visited.reverse.find? fun node => node.path == path

/-- `checkServerOwnedFields`, over any test for missing parents. -/
def checkOwnedFields (missing : FieldPath → Bool) (visited : List (Node ι))
    (unavailable : List FieldPath) (truncated : Bool) :
    List ServerOwnedField → SeenFields →
      Except TypeError (List (CheckedTarget ι))
  | [], _ => .ok []
  | field :: rest, seen =>
      if missing field.parent then
        .error "Server-owned field parent path does not exist."
      else
        match targetIn visited field.parent with
        | none =>
            -- A failed type or context check cannot establish the target.
            if (unavailable.any fun path => path.isPrefixOf field.parent) ||
                truncated then
              if (resolveProperty P field.source P.standardTerms).name.isSome
              then do
                let (_, seen) ←
                  checkServerOwnedField P field P.standardTerms seen
                checkOwnedFields missing visited unavailable truncated rest
                  seen
              else
                checkOwnedFields missing visited unavailable truncated rest
                  seen
            else
              .error ("Server-owned field parents must be existing supported " ++
                "documents, not references or opaque data.")
        | some target => do
            let (property, seen) ←
              checkServerOwnedField P field target.context seen
            let checked ← checkOwnedFields missing visited unavailable
              truncated rest seen
            return { field, target, property } :: checked

/-- The entries that a supplied value stands for.  An accepted array has data
entries only. -/
def suppliedEntry (H : Values ι) (path : FieldPath) :
    Option (Slot ι) × ℕ → Option (ι × FieldPath)
  | (some (.data entry _), i) =>
      if isNull H entry then none else some (entry, path ++ [.index i])
  | _ => none

def suppliedEntries (H : Values ι) (value : ι) (path : FieldPath) :
    List (ι × FieldPath) :=
  match H.look value with
  | .array entries _ _ => entries.zipIdx.filterMap (suppliedEntry H path)
  | .null => []
  | _ => [(value, path)]

/-- An omission that a change at a path takes the place of. -/
def NormalizationChange.omits (path : FieldPath)
    (change : NormalizationChange ι) : Bool :=
  change.isRemove &&
    (change.reason == "omit_empty_property_list" ||
      change.reason == "omit_absent_identifier") &&
    change.path == path

def assignment (checked : CheckedTarget ι) (key : JsString) :
    NormalizationChange ι :=
  let path := checked.field.parent ++ [.key key]
  let message := "Use the server-proposed " ++
    showJs checked.property ++ " for this creation operation."
  match checked.target.values.lookup key with
  | some before =>
      .replace "assign_server_owned_field" path before
        (.str checked.field.value) message
  | none =>
      .add "assign_server_owned_field" path (.str checked.field.value) message

def fieldConflict (path : FieldPath) : Diagnostic :=
  ⟨.serverOwnedFieldConflict, path,
    "This field must match the server-owned value for this creation " ++
      "operation."⟩

/-- `proposeServerField`: compare a checked server-owned value without
rewriting a submitted claim. -/
def proposeField (H : Values ι) (checked : CheckedTarget ι)
    (changes : List (NormalizationChange ι)) :
    List Diagnostic × List (NormalizationChange ι) :=
  let aliases := checked.target.values.filter fun entry =>
    (resolveProperty P entry.1 checked.target.context).name ==
      some checked.property
  let supplied := aliases.flatMap fun entry =>
    suppliedEntries H entry.2 (checked.field.parent ++ [.key entry.1])
  match supplied with
  | [] =>
      -- The requested spelling comes first, even beside another null alias.
      let key :=
        if (checked.target.values.lookup checked.field.source).isSome then
          checked.field.source
        else (aliases.head?.map Prod.fst).getD checked.field.source
      ([], changes.eraseP (NormalizationChange.omits
          (checked.field.parent ++ [.key key])) ++
        [assignment checked key])
  | [(entry, path)] =>
      if stringOf H entry == some checked.field.value then ([], changes)
      else ([fieldConflict path], changes)
  | several =>
      (several.map fun supplied => fieldConflict supplied.2, changes)

def proposeFields (H : Values ι) :
    List (CheckedTarget ι) → List (NormalizationChange ι) →
      List Diagnostic × List (NormalizationChange ι)
  | [], changes => ([], changes)
  | checked :: rest, changes =>
      let proposed := proposeField P H checked changes
      let result := proposeFields H rest proposed.2
      (proposed.1 ++ result.1, result.2)

end Fields

/-! ## Images of the documents -/

section Moved

variable {P : Platform} {ι κ : Type} {f : ι → κ}

variable (f) in
def CheckedTarget.moved (checked : CheckedTarget ι) : CheckedTarget κ :=
  ⟨checked.field, checked.target.moved f [], checked.property⟩

theorem targetIn_moved (visited : List (Node ι)) (path : FieldPath) :
    targetIn (visited.map (Node.moved f [])) path =
      (targetIn visited path).map (Node.moved f []) := by
  unfold targetIn
  rw [← List.map_reverse, List.find?_map]
  rfl

variable (P) in
/-- Which fields are accepted, and why others are not, does not depend on the
representation of the documents. -/
theorem checkOwnedFields_moved {missing other : FieldPath → Bool}
    (hmissing : ∀ path, missing path = other path) (visited : List (Node ι))
    (unavailable : List FieldPath) (truncated : Bool)
    (fields : List ServerOwnedField) (seen : SeenFields) :
    checkOwnedFields P missing (visited.map (Node.moved f [])) unavailable
        truncated fields seen =
      (checkOwnedFields P other visited unavailable truncated fields
        seen).map (List.map (CheckedTarget.moved f)) := by
  induction fields generalizing seen with
  | nil => rfl
  | cons field rest ih =>
      rw [checkOwnedFields, checkOwnedFields, hmissing, targetIn_moved]
      split
      · rfl
      cases targetIn visited field.parent with
      | none =>
          rw [Option.map_none]
          dsimp only
          split
          · split
            · cases checkServerOwnedField P field P.standardTerms seen with
              | error e => rfl
              | ok found => exact ih found.2
            · exact ih seen
          · rfl
      | some target =>
          rw [Option.map_some]
          dsimp only [Node.moved]
          cases checkServerOwnedField P field target.context seen with
          | error e => rfl
          | ok found =>
              have hrest := ih found.2
              simp only [bind, Except.bind, pure, Except.pure] at hrest ⊢
              rw [hrest]
              cases checkOwnedFields P other visited unavailable truncated
                rest found.2 <;> rfl

section Reads

variable {H : Values ι} {G : Values κ} (hreads : H.Reads G f)

include hreads

theorem suppliedEntries_moved (value : ι) (path : FieldPath) :
    suppliedEntries G (f value) path =
      (suppliedEntries H value path).map fun entry =>
        (f entry.1, entry.2) := by
  unfold suppliedEntries
  rw [hreads value]
  cases H.look value with
  | array entries named symbols =>
      simp only [Shape.map, List.zipIdx_map, List.filterMap_map,
        List.map_filterMap]
      refine List.filterMap_congr fun entry _ => ?_
      obtain ⟨slot, i⟩ := entry
      rcases slot with - | ⟨entry, enumerable⟩ | -
      · rfl
      · simp only [Function.comp_apply, Prod.map_apply, Option.map_some,
          Slot.map_data, suppliedEntry, isNull_moved hreads, id_eq]
        split <;> rfl
      · rfl
  | _ => rfl

theorem proposeField_moved (checked : CheckedTarget ι)
    (changes : List (NormalizationChange ι)) :
    proposeField P G (checked.moved f)
        (changes.map (NormalizationChange.moved f [])) =
      ((proposeField P H checked changes).1,
        (proposeField P H checked changes).2.map
          (NormalizationChange.moved f [])) := by
  obtain ⟨field, target, property⟩ := checked
  have haliases : (moveMembers f target.values).filter (fun entry =>
      (resolveProperty P entry.1 target.context).name == some property) =
        moveMembers f (target.values.filter fun entry =>
          (resolveProperty P entry.1 target.context).name ==
            some property) := by
    rw [moveMembers, List.filter_map]
    rfl
  have hhead : ∀ aliases : List (JsString × ι),
      (moveMembers f aliases).head?.map Prod.fst =
        aliases.head?.map Prod.fst := by
    intro aliases
    cases aliases <;> rfl
  have hsupplied : ∀ aliases : List (JsString × ι),
      ((moveMembers f aliases).flatMap fun entry =>
        suppliedEntries G entry.2 (field.parent ++ [.key entry.1])) =
      (aliases.flatMap fun entry => suppliedEntries H entry.2
        (field.parent ++ [.key entry.1])).map fun entry =>
          (f entry.1, entry.2) := by
    intro aliases
    simp only [moveMembers, List.flatMap_map, List.map_flatMap,
      suppliedEntries_moved hreads]
  have hassignment : ∀ key, assignment
      ((⟨field, target, property⟩ : CheckedTarget ι).moved f) key =
        (assignment ⟨field, target, property⟩ key).moved f [] := by
    intro key
    simp only [assignment, CheckedTarget.moved, Node.moved, lookup_moveMembers]
    cases target.values.lookup key <;> rfl
  have herase : ∀ path, (changes.map (NormalizationChange.moved f [])).eraseP
      (NormalizationChange.omits path) =
        (changes.eraseP (NormalizationChange.omits path)).map
          (NormalizationChange.moved f []) := by
    intro path
    rw [List.eraseP_map]
    congr 2
    funext change
    cases change <;> rfl
  unfold proposeField
  rw [CheckedTarget.moved] at hassignment ⊢
  simp only [Node.moved, haliases, hsupplied, hhead, lookup_moveMembers,
    Option.isSome_map] at hassignment ⊢
  split
  next hnil =>
    rw [List.map_eq_nil_iff.mp hnil]
    simp only [hassignment, herase, List.map_append, List.map_singleton]
  next entry path hone =>
    obtain ⟨⟨value, _⟩, hvalue, heq⟩ := List.map_eq_singleton_iff.mp hone
    obtain ⟨rfl, rfl⟩ := Prod.mk.inj heq
    simp only [hvalue, stringOf_moved hreads]
    split <;> rfl
  next several hnil hone =>
    split
    next heq => exact absurd (by rw [heq]; rfl) hnil
    next heq => exact absurd (by rw [heq]; rfl) (hone _ _)
    next => simp [Function.comp_def]

theorem proposeFields_moved (checked : List (CheckedTarget ι))
    (changes : List (NormalizationChange ι)) :
    proposeFields P G (checked.map (CheckedTarget.moved f))
        (changes.map (NormalizationChange.moved f [])) =
      ((proposeFields P H checked changes).1,
        (proposeFields P H checked changes).2.map
          (NormalizationChange.moved f [])) := by
  induction checked generalizing changes with
  | nil => rfl
  | cons first rest ih =>
      rw [List.map_cons, proposeFields, proposeFields,
        proposeField_moved hreads, ih]

end Reads

end Moved

/-! ## Preparation of trees -/

section Trees

variable {P : Platform}

theorem checkServerOwnedField_ownable {field : ServerOwnedField}
    {context : Terms} {seen after : SeenFields} {property : JsString}
    (h : checkServerOwnedField P field context seen = .ok (property, after)) :
    property ∈ ownableProperties := by
  unfold checkServerOwnedField at h
  dsimp only at h
  split at h
  · cases h
  next name hname =>
    split at h
    · cases h
    next hownable =>
      rw [Bool.or_eq_true, not_or, Bool.not_eq_true', Bool.not_eq_false]
        at hownable
      split at h
      · cases h
      · have hresult : name = property := by
          split at h <;> split at h <;>
            first
            | exact congrArg Prod.fst (Except.ok.inj h)
            | cases h
        have hcontains := hownable.2
        rw [Bool.not_eq_true', Bool.not_eq_false, hresult] at hcontains
        exact List.contains_iff_mem.mp hcontains

/-- Only identities and timestamps are owned by the server. -/
theorem checkOwnedFields_ownable {ι : Type} {missing : FieldPath → Bool}
    {visited : List (Node ι)} {unavailable : List FieldPath}
    {truncated : Bool} {fields : List ServerOwnedField} {seen : SeenFields}
    {checked : List (CheckedTarget ι)}
    (h : checkOwnedFields P missing visited unavailable truncated fields seen =
      .ok checked) :
    ∀ c ∈ checked, c.property ∈ ownableProperties := by
  induction fields generalizing seen checked with
  | nil =>
      cases h
      simp
  | cons field rest ih =>
      rw [checkOwnedFields] at h
      split at h
      · cases h
      cases htarget : targetIn visited field.parent with
      | none =>
          simp only [htarget] at h
          split at h
          · split at h
            · obtain ⟨found, -, hrest⟩ := exists_of_bind_ok h
              exact ih hrest
            · exact ih h
          · cases h
      | some target =>
          simp only [htarget] at h
          obtain ⟨⟨property, after⟩, hfield, h⟩ := exists_of_bind_ok h
          obtain ⟨others, hrest, h⟩ := exists_of_bind_ok h
          obtain rfl := Except.ok.inj h
          intro c hc
          rcases List.mem_cons.mp hc with rfl | hc
          · exact checkServerOwnedField_ownable hfield
          · exact ih hrest c hc

/-- The fields of a tree are checked as the values that it stands for. -/
theorem checkOwnedFields_tree (document : Json) (visited : List (Node Json))
    (unavailable : List FieldPath) (truncated : Bool)
    (fields : List ServerOwnedField) (seen : SeenFields) :
    (checkOwnedFields P (isMissingPreparationParent document) visited
        unavailable truncated fields seen).map
          (List.map CheckedTarget.checkedField) =
      checkServerOwnedFields P document visited unavailable truncated fields
        seen := by
  induction fields generalizing seen with
  | nil => rfl
  | cons field rest ih =>
      have htarget : targetIn visited field.parent =
          targetAt visited field.parent := rfl
      rw [checkOwnedFields, checkServerOwnedFields, htarget]
      split
      · rfl
      cases targetAt visited field.parent with
      | none =>
          dsimp only
          split
          · split
            · cases checkServerOwnedField P field P.standardTerms seen with
              | error e => rfl
              | ok found => exact ih found.2
            · exact ih seen
          · rfl
      | some target =>
          dsimp only
          cases checkServerOwnedField P field target.context seen with
          | error e => rfl
          | ok found =>
              have hrest := ih found.2
              simp only [bind, Except.bind, pure, Except.pure] at hrest ⊢
              rw [← hrest]
              cases checkOwnedFields P (isMissingPreparationParent document)
                visited unavailable truncated rest found.2 <;> rfl

theorem suppliedEntries_tree (value : Json) (path : FieldPath) :
    suppliedEntries Json.tree value path = suppliedValues value path := by
  cases value with
  | arr items =>
      simp only [suppliedEntries, Json.look_tree, Json.shape,
        List.zipIdx_map, List.filterMap_map, suppliedValues]
      refine List.filterMap_congr fun entry _ => ?_
      obtain ⟨item, i⟩ := entry
      cases item <;> rfl
  | _ => rfl

theorem proposeField_tree (checked : CheckedTarget Json)
    (changes : List Change) :
    proposeField P Json.tree checked changes =
      proposeServerField P checked.checkedField changes := by
  obtain ⟨field, target, property⟩ := checked
  have htext : ∀ entry : Json, (stringOf Json.tree entry ==
      some field.value) = isText entry field.value := by
    intro entry
    cases entry <;> rfl
  have homits : (NormalizationChange.omits : FieldPath → Change → Bool) =
      isOmissionAt := rfl
  rw [CheckedTarget.checkedField]
  unfold proposeField proposeServerField
  simp only [suppliedEntries_tree, aliasesOf]
  split
  next h =>
    simp only [h, homits, assignment]
    generalize (if (target.values.lookup field.source).isSome = true then
      field.source else _) = key
    cases target.values.lookup key <;> rfl
  next entry path h =>
    simp only [h, htext]
    rfl
  next several hnil hone =>
    split
    next heq => exact absurd heq hnil
    next heq => exact absurd heq (hone _ _)
    next => rfl

theorem proposeFields_tree (checked : List (CheckedTarget Json))
    (changes : List Change) :
    proposeFields P Json.tree checked changes =
      proposeServerFields P (checked.map CheckedTarget.checkedField)
        changes := by
  induction checked generalizing changes with
  | nil => rfl
  | cons first rest ih =>
      rw [List.map_cons, proposeFields, proposeServerFields,
        proposeField_tree, ih]

end Trees

/-! ## Preparation -/

def replacedPaths {ι : Type} (changes : List (NormalizationChange ι)) :
    List FieldPath :=
  (changes.filter NormalizationChange.isReplace).map NormalizationChange.path

/-- Warnings at replaced positions describe the server-owned replacement, not
an omission. -/
def describeReplaced (replaced : List FieldPath) (d : Diagnostic) :
    Diagnostic :=
  if (d.reason == .emptyPropertyList || d.reason == .absentIdentifier) &&
      replaced.contains d.path then
    { d with
      message := "This absent value is replaced by the trusted " ++
        "server-owned value in the preview." }
  else d

/-- The result for a document with a creation preview. -/
def mergeProposal (reporter : Reporter)
    (changes : List (NormalizationChange JsValue)) (preview : JsValue)
    (checked : DocumentValidationResult) : DocumentValidationResult :=
  let reporter := reportPreviewDiagnostics checked.diagnostics reporter
  if !checked.complete || !reporter.accepts then
    { reporter.validationResult with
      complete := checked.complete && reporter.complete }
  else
    { complete := reporter.complete
      diagnostics :=
        reporter.diagnostics.map (describeReplaced (replacedPaths changes))
      changes
      normalizedDocument := some preview }

section Preparation

variable (P : Platform)

section Steps

variable {ι : Type}

/-- The options with the fields that they ask for, checked against the
walk. -/
def checkOptions (missing : FieldPath → Bool) (walk : WalkState ι)
    (options : DocumentPreparationOptions) :
    Except TypeError (List (CheckedTarget ι)) := do
  checkPreparationOptions options
  checkOwnedFields P missing walk.visited walk.unavailable
    (walk.reporter.diagnostics.any fun d =>
      d.reason == .diagnosticLimitReached)
    options.serverOwnedFields []

/-- What is reported and proposed before a preview is made.  A document with
errors, or one that the server denies, is returned without proposals. -/
def proposals (H : Values ι) (walk : WalkState ι)
    (authority : List DocumentAuthority) (checked : List (CheckedTarget ι)) :
    Reporter × List (NormalizationChange ι) :=
  let reporter := walk.reporter.reportAll (authorityFindings authority)
  if reporter.accepts then
    let proposed := proposeFields P H checked walk.changes
    (reporter.reportAll proposed.1, proposed.2)
  else (reporter, [])

end Steps

/-- The fields that `prepareDocument` checks of a value. -/
def checkedTargets (h : Heap) (value : JsValue)
    (options : DocumentPreparationOptions) :
    Except TypeError (List (CheckedTarget JsValue)) :=
  checkOptions P (h.isMissingPreparationParent value)
    (checkDocumentValue P h.values value) options

/-- What `prepareDocument` reports and proposes of a value. -/
def valueProposals (h : Heap) (value : JsValue)
    (authority : List DocumentAuthority)
    (checked : List (CheckedTarget JsValue)) :
    Reporter × List (NormalizationChange JsValue) :=
  proposals P h.values (checkDocumentValue P h.values value) authority checked

/-- The runs of `prepareDocument`. -/
inductive Preparation (m : Memory) (value : JsValue)
    (options : DocumentPreparationOptions) :
    Memory → Except TypeError DocumentValidationResult → Prop
  | refused (error : TypeError)
      (hoptions : checkedTargets P m.heap value options = .error error) :
      Preparation m value options m (.error error)
  | stopped (checked : List (CheckedTarget JsValue))
      (hoptions : checkedTargets P m.heap value options = .ok checked)
      (reporter : Reporter) (changes : List (NormalizationChange JsValue))
      (hproposals : valueProposals P m.heap value options.authority checked =
        (reporter, changes))
      (hstop : ¬ (reporter.accepts = true ∧ changes ≠ [])) :
      Preparation m value options m (.ok reporter.validationResult)
  | preview (checked : List (CheckedTarget JsValue))
      (hoptions : checkedTargets P m.heap value options = .ok checked)
      (reporter : Reporter) (changes : List (NormalizationChange JsValue))
      (hproposals : valueProposals P m.heap value options.authority checked =
        (reporter, changes))
      (haccepts : reporter.accepts = true) (hchanges : changes ≠ [])
      (source : Address) (hvalue : value = .ref source)
      (m' : Memory) (preview : JsValue)
      (hpreview : CreatesPreview m source changes m' preview)
      (m'' : Memory) (result : DocumentValidationResult)
      (hresult : Validation P m' preview m'' result) :
      Preparation m value options m''
        (.ok (mergeProposal reporter changes preview result))

end Preparation

/-! ## Images and trees of the steps -/

section Steps

variable {P : Platform} {ι κ : Type} {f : ι → κ}

theorem checkOptions_moved {missing other : FieldPath → Bool}
    (hmissing : ∀ path, missing path = other path) (walk : WalkState ι)
    (options : DocumentPreparationOptions) :
    checkOptions P missing (walk.carry f) options =
      (checkOptions P other walk options).map
        (List.map (CheckedTarget.moved f)) := by
  unfold checkOptions
  cases checkPreparationOptions options with
  | error e => rfl
  | ok u => exact checkOwnedFields_moved P hmissing _ _ _ _ _

theorem proposals_moved {H : Values ι} {G : Values κ} (hreads : H.Reads G f)
    (walk : WalkState ι) (authority : List DocumentAuthority)
    (checked : List (CheckedTarget ι)) :
    proposals P G (walk.carry f) authority
        (checked.map (CheckedTarget.moved f)) =
      ((proposals P H walk authority checked).1,
        (proposals P H walk authority checked).2.map
          (NormalizationChange.moved f [])) := by
  have hfields := @proposeFields_moved P _ _ _ _ _ hreads checked walk.changes
  unfold proposals
  simp only [WalkState.carry, hfields]
  split <;> rfl

/-- What preparation makes of a tree, with the steps spelled out. -/
theorem prepareChecked_eq (document : Json)
    (authority : List DocumentAuthority)
    (checked : List (CheckedTarget Json)) :
    let walk := checkDocumentValue P Json.tree document
    let proposed := proposals P Json.tree walk authority checked
    prepareChecked P document walk authority
        (checked.map CheckedTarget.checkedField) =
      if proposed.1.accepts = true ∧ proposed.2 ≠ [] then
        checkProposal P document proposed.2 proposed.1
      else proposed.1.result := by
  intro walk proposed
  simp only [proposed, walk, proposals, prepareChecked, proposeFields_tree,
    Reporter.result_accepts]
  generalize (checkDocumentValue P Json.tree document).reporter.reportAll
    (authorityFindings authority) = reporter
  generalize proposeServerFields P (checked.map CheckedTarget.checkedField)
    (checkDocumentValue P Json.tree document).changes = changed
  by_cases haccepts : reporter.accepts = true
  · by_cases hproposed : (reporter.reportAll changed.1).accepts = true <;>
      simp [haccepts, hproposed]
  · simp [haccepts]

theorem prepareDocument_eq (document : Json)
    (options : DocumentPreparationOptions) :
    let walk := checkDocumentValue P Json.tree document
    prepareDocument P document options =
      (checkOptions P (isMissingPreparationParent document) walk options).map
        fun checked => prepareChecked P document walk options.authority
          (checked.map CheckedTarget.checkedField) := by
  intro walk
  unfold prepareDocument checkOptions
  cases checkPreparationOptions options with
  | error e => rfl
  | ok u =>
      have hfields := fun truncated => @checkOwnedFields_tree P document
        (checkDocumentValue P Json.tree document).visited
        (checkDocumentValue P Json.tree document).unavailable truncated
        options.serverOwnedFields []
      simp only [bind, Except.bind, pure, Except.pure, ← hfields, walk]
      generalize checkOwnedFields P (isMissingPreparationParent document)
        (checkDocumentValue P Json.tree document).visited
        (checkDocumentValue P Json.tree document).unavailable _
        options.serverOwnedFields [] = outcome
      cases outcome <;> rfl

end Steps

end Document

end DrFed
