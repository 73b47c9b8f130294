import DrFed.Document.Kept
import DrFed.Js.Heap
import DrFed.LocalWrite.Tree

/-!
# Accepted creates

What the checks of a create fix once all of them have passed: the descriptors
name embedded documents of the submitted one, each with its parent, and the
prepared document is valid, keeps these documents where they were and owns
the values of the server.
-/

namespace DrFed.LocalWrite

open Document Store

/-! ## The prepared document -/

section Documents

variable {P : Platform}

theorem checkProposal_valid {document preview : Json} {changes : List Change}
    {reporter : Reporter} (h : reporter.Sound)
    (hsome : (checkProposal P document changes reporter).normalizedDocument =
      some preview) : (validateDocument P preview).accepts = true := by
  have hsound := @reportPreviewDiagnostics_sound
    (validateDocument P (createPreview document changes)).diagnostics _ h
  rw [checkProposal] at hsome
  split at hsome
  · cases hsome
  next hgood =>
    obtain rfl := Option.some.inj hsome
    rw [Bool.or_eq_true, not_or, Bool.not_eq_true', Bool.not_eq_false,
      Bool.not_eq_true', Bool.not_eq_false, accepts_result] at hgood
    have hquiet := hsound.accepts_iff.mp hgood.2
    have hchecked : hasError (validateDocument P
        (createPreview document changes)).diagnostics = false := by
      by_contra herror
      rw [Bool.not_eq_false] at herror
      rw [hasError_reportPreviewDiagnostics h (by rw [herror, Bool.or_true])]
        at hquiet
      cases hquiet
    rw [ValidationResult.accepts, hgood.1, hchecked]
    rfl

theorem prepareChecked_valid {document preview : Json}
    {authority : List DocumentAuthority} {checked : List CheckedField}
    (hsome : (prepareChecked P document
      (checkDocumentValue P Json.tree document) authority
        checked).normalizedDocument = some preview) :
    (validateDocument P preview).accepts = true := by
  have hauthority :=
    (checkDocumentValue_sound P document).reportAll
      (authorityFindings authority)
  simp only [prepareChecked] at hsome
  split at hsome
  · cases hsome
  · split at hsome
    · cases hsome
    · exact checkProposal_valid (hauthority.reportAll _) hsome

variable (P) in
/-- A document prepared without an error from a submitted one. -/
structure PreparedFrom (submitted : Json) (authority : List DocumentAuthority)
    (fields : List ServerOwnedField) (prepared : Json) : Prop where
  distinct : prepared.Distinct
  accepts : (checkDocumentValue P Json.tree prepared).reporter.accepts = true
  allowed : ∀ outcome ∈ authority, outcome.allowed = true
  reached : ∀ root root', Accepted P submitted root → Accepted P prepared root' →
    ∀ node, Reaches P root node → ∃ node', Reaches P root' node' ∧
      node'.path = node.path ∧ node'.context = node.context ∧
      node'.type = node.type
  owns : ∀ field ∈ fields, Owns P prepared field

theorem preparedFrom (document : JsonDocument)
    {options : DocumentPreparationOptions} {result : ValidationResult}
    (h : prepareDocument P document.value options = .ok result)
    (haccepts : result.accepts = true) :
    PreparedFrom P document.value options.authority options.serverOwnedFields
      (result.normalizedDocument.getD document.value) := by
  have hquiet : hasError result.diagnostics = false := by
    simpa using (Bool.and_eq_true_iff.mp haccepts).2
  obtain ⟨howns, hkeeps, -⟩ :=
    prepareDocument_owns P document options result h
  obtain ⟨-, checked, hchecked, rfl⟩ := prepareDocument_eq_ok P h
  have hcases := prepareChecked_cases P document.value options.authority checked
  dsimp only at hcases
  rcases hcases with ⟨herror, -⟩ | ⟨-, hallowed, hprepared⟩
  · rw [hquiet] at herror
    cases herror
  · obtain ⟨hfields, root, kept, assigned, hproposal, hchanges⟩ :=
      hprepared.proposal document.distinct hchecked
    have hroot : ∀ other, Accepted P document.value other → other = root :=
      fun other hother => hother.root_unique document.distinct
        hproposal.accepted
    rcases hprepared.outcome with ⟨-, hnone⟩ | ⟨-, hdocument⟩
    · rw [hnone, Option.getD_none]
      refine ⟨document.distinct, hprepared.walk, hallowed, ?_,
        hkeeps hnone hquiet⟩
      intro first second hfirst hsecond node hreach
      rw [hroot first hfirst, ← hroot second hsecond] at hreach
      exact ⟨node, hreach, rfl, rfl, rfl⟩
    · have hvalid := prepareChecked_valid hdocument
      rw [hdocument, Option.getD_some]
      refine ⟨?_, validateDocument_accepts P hvalid, hallowed, ?_,
        (howns _ hdocument).1⟩
      · rw [hchanges]
        exact createPreview_distinct document.distinct hproposal.after_distinct
      · intro first second hfirst hsecond node hreach
        rw [hroot first hfirst] at hreach
        rw [hchanges] at hsecond
        exact hproposal.reaches (checkServerOwnedFields_ownable hchecked)
          hsecond hreach

end Documents

/-! ## The descriptors -/

theorem nodup_of_listedTwice {resources : List NewResource}
    {seen : List FieldPath} (h : listedTwice seen resources = none) :
    (resources.map NewResource.path).Nodup ∧
      ∀ resource ∈ resources, resource.path ∉ seen := by
  induction resources generalizing seen with
  | nil => exact ⟨List.nodup_nil, by simp⟩
  | cons resource rest ih =>
      rw [listedTwice] at h
      split at h
      · cases h
      next hnew =>
        obtain ⟨hnodup, hrest⟩ := ih h
        refine ⟨List.nodup_cons.mpr ⟨?_, hnodup⟩, ?_⟩
        · intro hmem
          obtain ⟨other, hother, hpath⟩ := List.mem_map.mp hmem
          exact hrest other hother (hpath ▸ List.mem_cons_self)
        · intro other hother
          rcases List.mem_cons.mp hother with rfl | hother
          · exact hnew
          · exact fun hmem => hrest other hother (List.mem_cons_of_mem _ hmem)

section Descriptors

variable {P : Platform} {request : CreateRequest} {nodes : List DocumentNode}

variable (P) in
/-- A descriptor that names an embedded document of a kind it can be saved
as, together with its parent. -/
structure Described (nodes : List DocumentNode) (paths : List FieldPath)
    (resource : NewResource) (node : DocumentNode) : Prop where
  found : nodeAt nodes resource.path = some node
  savable : savableAs P resource.kind node = true
  root : resource.path = [] → resource.representation = none
  nested : resource.path ≠ [] →
    (∃ property ∈ nestingProperties, node.property = some property) ∧
      parentPath resource.path ∈ paths

theorem checkDescriptor_eq_ok {paths : List FieldPath} {resource : NewResource}
    (h : checkDescriptor P nodes paths resource = .ok ()) :
    ∃ node, Described P nodes paths resource node := by
  rw [checkDescriptor] at h
  split at h
  · cases h
  next node hnode =>
    refine ⟨node, hnode, ?_, fun hroot => ?_, fun hne => ?_⟩ <;>
      split at h
    · cases h
    next hsavable => simpa using hsavable
    · cases h
    · rw [if_pos (by simpa using hroot)] at h
      split at h
      · cases h
      next hnone => simpa using hnone
    · cases h
    · rw [if_neg (by simpa using hne)] at h
      split at h
      · cases h
      next hnested =>
        rw [Bool.or_eq_true, not_or, Bool.not_eq_true', Bool.not_eq_false,
          Bool.not_eq_true', Bool.not_eq_false] at hnested
        obtain ⟨hproperty, hparent⟩ := hnested
        refine ⟨?_, by simpa using hparent⟩
        cases hname : node.property with
        | none => simp [hname] at hproperty
        | some property =>
            exact ⟨property, by simpa [hname] using hproperty, rfl⟩

theorem forall_of_mapM {α β : Type} {f : α → Prepares β} {entries : List α}
    {results : List β} (h : entries.mapM f = .ok results) :
    List.Forall₂ (fun a b => f a = .ok b) entries results := by
  induction entries generalizing results with
  | nil =>
      rw [List.mapM_nil] at h
      obtain rfl := Except.ok.inj h
      exact .nil
  | cons a rest ih =>
      rw [List.mapM_cons] at h
      obtain ⟨b, hb, h⟩ := exists_of_bind_ok h
      obtain ⟨bs, hbs, h⟩ := exists_of_bind_ok h
      obtain rfl := Except.ok.inj h
      exact .cons hb (ih hbs)

theorem checkDescriptors_eq_ok (h : checkDescriptors P request nodes = .ok ()) :
    (request.resources.map NewResource.path).Nodup ∧
      [] ∈ request.resources.map NewResource.path ∧
      ∀ resource ∈ request.resources, ∃ node,
        Described P nodes (request.resources.map NewResource.path) resource
          node := by
  rw [checkDescriptors] at h
  split at h
  · cases h
  next hlisted =>
    split at h
    · cases h
    next hroot =>
      obtain ⟨units, hunits, -⟩ := exists_of_bind_ok h
      refine ⟨(nodup_of_listedTwice hlisted).1, by simpa using hroot,
        fun resource hmem => ?_⟩
      obtain ⟨checked, -, hok⟩ := exists_of_forall₂ (forall_of_mapM hunits).flip hmem
      exact checkDescriptor_eq_ok hok

theorem demand_eq_ok {condition : Bool} {error : LocalWriteError}
    (h : demand condition error = .ok ()) : condition = true := by
  rw [demand] at h
  split at h
  · assumption
  · cases h

theorem describeSubmitted_eq_ok {submitted : Json}
    (h : describeSubmitted P submitted = .ok nodes) :
    describeDocument P submitted = some nodes := by
  rw [describeSubmitted] at h
  split at h
  next hsome =>
    rw [hsome, Except.ok.inj h]
  · cases h

theorem prepareDocument_of_mapError {document : Json}
    {options : DocumentPreparationOptions} {result : ValidationResult}
    (h : (prepareDocument P document options).mapError Failure.thrown =
      .ok result) : prepareDocument P document options = .ok result := by
  cases hprepare : prepareDocument P document options with
  | error e =>
      rw [hprepare] at h
      cases h
  | ok value =>
      rw [hprepare] at h
      exact congrArg Except.ok (Except.ok.inj h)

/-- What a create asks of the preparation of its document. -/
def createOptions (server : Server) (actor : WritingActor)
    (allocation : Allocation) (lookups : IdentityLookups)
    (nodes : List DocumentNode) (planned : List PlannedResource) :
    DocumentPreparationOptions where
  authority := ⟨true, []⟩ :: deniedClaims server nodes
    (planned.map fun resource => (resource.path, resource.kind))
    (planned.map PlannedResource.iri) lookups
  serverOwnedFields := planned.flatMap
    (ownedFields actor (server.instantText allocation.timestamp))

variable (P) in
/-- An accepted create, step by step. -/
structure Creates (server : Server) (actor : WritingActor)
    (request : CreateRequest) (allocation : Allocation)
    (lookups : IdentityLookups) (nodes : List DocumentNode)
    (planned : List PlannedResource) (prepared : Json) (write : PreparedWrite) :
    Prop where
  described : describeDocument P request.value = some nodes
  paths : (request.resources.map NewResource.path).Nodup
  root : [] ∈ request.resources.map NewResource.path
  descriptors : ∀ resource ∈ request.resources, ∃ node,
    Described P nodes (request.resources.map NewResource.path) resource node
  plans : List.Forall₂ (fun resource planned =>
    planResource server P actor allocation nodes resource = .ok planned)
    request.resources planned
  outcome : ∃ result, prepareDocument P request.value
      (createOptions server actor allocation lookups nodes planned) =
        .ok result ∧
    result.accepts = true ∧
    prepared = result.normalizedDocument.getD request.value
  indexable : checkIndexable P prepared = []
  saved : ∃ changes saved, (deepestFirst planned).foldlM
      (saveResource server P prepared
        (((describeDocument P prepared).getD []).map DocumentNode.path))
      ⟨prepared, changes, []⟩ = .ok saved ∧
    write.resources = saved.resources

theorem prepareCreate_eq_ok {server : Server} {actor : WritingActor}
    {allocation : Allocation} {lookups : IdentityLookups}
    {write : PreparedWrite}
    (h : prepareCreate server P actor request allocation lookups =
      .ok write) :
    ∃ nodes planned prepared,
      Creates P server actor request allocation lookups nodes planned prepared
        write := by
  rw [prepareCreate] at h
  obtain ⟨nodes, hdescribed, h⟩ := exists_of_bind_ok h
  obtain ⟨⟨⟩, hdescriptors, h⟩ := exists_of_bind_ok h
  obtain ⟨⟨⟩, hallocated, h⟩ := exists_of_bind_ok h
  obtain ⟨planned, hplanned, h⟩ := exists_of_bind_ok h
  obtain ⟨result, hresult, h⟩ := exists_of_bind_ok h
  obtain ⟨⟨⟩, haccepts, h⟩ := exists_of_bind_ok h
  obtain ⟨⟨⟩, hindexable, h⟩ := exists_of_bind_ok h
  obtain ⟨saved, hsaved, h⟩ := exists_of_bind_ok h
  obtain rfl := Except.ok.inj h
  obtain ⟨hpaths, hroot, hdescriptors⟩ := checkDescriptors_eq_ok hdescriptors
  exact ⟨nodes, planned, result.normalizedDocument.getD request.value,
    describeSubmitted_eq_ok hdescribed, hpaths, hroot, hdescriptors,
    forall_of_mapM hplanned,
    ⟨result, prepareDocument_of_mapError hresult, demand_eq_ok haccepts, rfl⟩,
    List.isEmpty_iff.mp (demand_eq_ok hindexable),
    result.changes, saved, hsaved, rfl⟩

theorem planResource_eq_ok {server : Server} {actor : WritingActor}
    {allocation : Allocation} {resource : NewResource}
    {planned : PlannedResource}
    (h : planResource server P actor allocation nodes resource =
      .ok planned) :
    planned.toNewResource = resource ∧
      allocation.ids.lookup (pathKey planned.path) = some planned.id ∧
      ∃ node, nodeAt nodes planned.path = some node ∧
        planned.iri =
          resourceIri server P actor planned.kind node.type planned.id := by
  rw [planResource] at h
  split at h
  next id node hid hnode =>
    obtain rfl := Except.ok.inj h
    exact ⟨rfl, hid, node, hnode, rfl⟩
  · cases h

namespace Creates

variable {server : Server} {actor : WritingActor} {allocation : Allocation}
  {lookups : IdentityLookups} {planned : List PlannedResource}
  {prepared : Json} {write : PreparedWrite}
  (h : Creates P server actor request allocation lookups nodes planned prepared
    write)

include h

theorem prepares : PreparedFrom P request.value
    (createOptions server actor allocation lookups nodes planned).authority
    (createOptions server actor allocation lookups nodes
      planned).serverOwnedFields prepared := by
  obtain ⟨result, hresult, haccepts, rfl⟩ := h.outcome
  exact preparedFrom ⟨request.value, request.document.distinct⟩ hresult
    haccepts

/-- A planned resource is a descriptor with the id allocated for its path and
the IRI the router composes of it. -/
theorem plan {resource : PlannedResource} (hmem : resource ∈ planned) :
    resource.toNewResource ∈ request.resources ∧
      allocation.ids.lookup (pathKey resource.path) = some resource.id ∧
      ∃ node, Described P nodes (request.resources.map NewResource.path)
          resource.toNewResource node ∧
        resource.iri = resourceIri server P actor resource.kind node.type
          resource.id := by
  obtain ⟨descriptor, hdescriptor, hplan⟩ := exists_of_forall₂ h.plans hmem
  obtain ⟨node, hnode⟩ := h.descriptors descriptor hdescriptor
  obtain ⟨rfl, hid, other, hother, hiri⟩ := planResource_eq_ok hplan
  obtain rfl := Option.some.inj (hnode.found.symm.trans hother)
  exact ⟨hdescriptor, hid, node, hnode, hiri⟩

theorem toNewResource : planned.map PlannedResource.toNewResource =
    request.resources := by
  have heq := h.plans.imp fun _ _ hplan => (planResource_eq_ok hplan).1.symm
  rw [← List.forall₂_map_right_iff (R := Eq), List.forall₂_eq_eq_eq] at heq
  exact heq.symm

theorem paths_planned : planned.map (fun r => r.path) =
    request.resources.map NewResource.path := by
  rw [← h.toNewResource, List.map_map]
  rfl

/-- The document of a planned resource is one of the prepared document. -/
theorem exists_node {resource : PlannedResource} (hmem : resource ∈ planned)
    {root : Node Json} (haccepted : Accepted P prepared root) :
    ∃ node, Reaches P root node ∧ node.path = resource.path := by
  obtain ⟨-, -, described, hdescribed, -⟩ := h.plan hmem
  obtain ⟨haccepts, hnodes⟩ := describeDocument_eq_some h.described
  obtain ⟨submitted, hsubmitted⟩ := exists_accepted P haccepts
  have hfound := hdescribed.found
  rw [hnodes] at hfound
  obtain ⟨node, hreach, hpath, -⟩ :=
    (nodeAt_eq_some request.document.distinct hsubmitted).mp hfound
  obtain ⟨node', hreach', hpath', -, -⟩ :=
    h.prepares.reached submitted root hsubmitted haccepted node hreach
  exact ⟨node', hreach', hpath'.trans hpath⟩

end Creates

end Descriptors

end DrFed.LocalWrite
