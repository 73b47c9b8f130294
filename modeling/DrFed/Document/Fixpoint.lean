import DrFed.Document.Agreement
import DrFed.Document.Omission

/-!
# Normalization is a fixpoint

Validation with its effects on memory: the walk reads the value, the preview
is built beside it and is validated in turn.  That validation proposes no
change, so one preview is enough, and the value itself is left as it was.
-/

namespace DrFed.Document

/-- The result of validating a value. -/
structure DocumentValidationResult where
  complete : Bool
  diagnostics : List Diagnostic
  normalizedDocument : Option JsValue
  changes : List (NormalizationChange JsValue)

/-- The result of a walk that leads to no preview. -/
def Reporter.validationResult (r : Reporter) : DocumentValidationResult where
  complete := r.complete
  diagnostics := r.diagnostics
  normalizedDocument := none
  changes := []

/-- The result of a walk with changes, given that of its preview. -/
def mergePreview (reporter : Reporter)
    (changes : List (NormalizationChange JsValue)) (preview : JsValue)
    (checked : DocumentValidationResult) : DocumentValidationResult :=
  let reporter := reportPreviewDiagnostics checked.diagnostics reporter
  if !checked.complete || !reporter.result.accepts then
    { reporter.validationResult with
      complete := checked.complete && reporter.complete }
  else
    { reporter.validationResult with
      changes := changes
      normalizedDocument := some preview }

section Platform

variable (P : Platform)

/-- The walk of a value leads to a preview: it is complete, without errors and
with changes. -/
def HasPreview (m : Memory) (value : JsValue) : Prop :=
  (checkDocumentValue P m.heap.values value).reporter.accepts = true ∧
    (checkDocumentValue P m.heap.values value).changes ≠ []

/-- What `validateDocument` does: to memory, and with which result.  A
derivation is a call that ends. -/
inductive Validation : Memory → JsValue → Memory →
    DocumentValidationResult → Prop
  | walk (m : Memory) (value : JsValue) (h : ¬ HasPreview P m value) :
      Validation m value m
        (checkDocumentValue P m.heap.values value).reporter.validationResult
  | preview (m : Memory) (source : Address)
      (h : HasPreview P m (.ref source)) (m' : Memory) (preview : JsValue)
      (hpreview : CreatesPreview m source
        (checkDocumentValue P m.heap.values (.ref source)).changes m' preview)
      (m'' : Memory) (checked : DocumentValidationResult)
      (hchecked : Validation m' preview m'' checked) :
      Validation m (.ref source) m''
        (mergePreview
          (checkDocumentValue P m.heap.values (.ref source)).reporter
          (checkDocumentValue P m.heap.values (.ref source)).changes preview
          checked)

variable {P} {m m' : Memory} {value : JsValue}
  {result : DocumentValidationResult}

/-- A call has one outcome. -/
theorem Validation.unique (h : Validation P m value m' result)
    {m'' : Memory} {other : DocumentValidationResult}
    (hother : Validation P m value m'' other) :
    m' = m'' ∧ result = other := by
  induction h generalizing m'' other with
  | walk m value hnone =>
      cases hother with
      | walk => exact ⟨rfl, rfl⟩
      | preview _ _ hpreviewed => exact absurd hpreviewed hnone
  | preview m source hpreviewed m' preview hpreview m₁ checked _ ih =>
      cases hother with
      | walk _ _ hnone => exact absurd hpreviewed hnone
      | preview _ _ _ m₂ preview₂ hpreview₂ m₃ checked₂ hchecked₂ =>
          obtain ⟨rfl, rfl⟩ := hpreview.unique hpreview₂
          obtain ⟨rfl, rfl⟩ := ih hchecked₂
          exact ⟨rfl, rfl⟩

/-! ## The preview -/

/-- Both changes are images of a change of values with their trees. -/
theorem sameChange_spelled {H : Values JsValue}
    (changes : List (NormalizationChange (Spelled H))) :
    List.Forall₂ (SameChange H)
      (changes.map (NormalizationChange.moved (fun x => x.1.1) []))
      (changes.map (NormalizationChange.moved (fun x => x.1.2) [])) := by
  rw [List.forall₂_map_left_iff, List.forall₂_map_right_iff]
  refine List.forall₂_same.mpr fun change _ => ?_
  cases change with
  | add reason path after message => exact .add reason path after message
  | replace reason path before after message =>
      exact .replace reason path _ _ after message before.2
  | remove reason path before message =>
      exact .remove reason path _ _ message before.2

variable (P) in
/-- The walk over a spelled value is the walk over its tree. -/
theorem exists_same_walk {h : Heap} {json : Json}
    (hspells : json.Spells h.values value) :
    (checkDocumentValue P h.values value).reporter =
        (checkDocumentValue P Json.tree json).reporter ∧
      List.Forall₂ (SameChange h.values)
        (checkDocumentValue P h.values value).changes
        (checkDocumentValue P Json.tree json).changes := by
  obtain ⟨walk, hvalue, htree⟩ := exists_spelled_walk P hspells
    (.inr (fresh_of_spells h.lawful hspells))
  rw [hvalue, htree]
  exact ⟨rfl, sameChange_spelled walk.changes⟩

variable (P) in
/-- A document that proposes changes, with its tree and the changes of it. -/
structure Proposed (m : Memory) (source : Address) (json : Json)
    (copies : List Change) : Prop where
  spells : json.Spells m.heap.values (.ref source)
  copyable : Copyable m source
  object : ∃ members, ∃ distinct : (members.map Prod.fst).Nodup,
    m.heap source = .ofMembers members distinct
  same : List.Forall₂ (SameChange m.heap.values)
    (checkDocumentValue P m.heap.values (.ref source)).changes copies
  removes : ∀ copy ∈ copies, Removes json copy
  apart : copies.Pairwise fun copy other => copy.path ≠ other.path ∧
    ¬ copy.path <+: other.path ∧ ¬ other.path <+: copy.path

theorem Proposed.createPreview {source : Address} {json : Json}
    {copies : List Change} (h : Proposed P m source json copies)
    {order : List (NormalizationChange JsValue)}
    (hperm : order.Perm
      (checkDocumentValue P m.heap.values (.ref source)).changes) :
    ∃ m' copied, CreatesPreview m source order m' (.ref m.next) ∧
      copied.Perm copies ∧
      Copied m (createPreview json copied) m' m.next := by
  obtain ⟨members, distinct, hobject⟩ := h.object
  obtain ⟨s, hsteps, hend, hcopied⟩ := copy_ends hobject h.copyable h.spells
  obtain ⟨copied, hsame, hcopies⟩ := List.perm_comp_forall₂ hperm h.same
  obtain ⟨m', hchanges, hall⟩ := hcopied.omitAll hsame
    (fun copy hcopy => h.removes copy (hcopies.mem_iff.mp hcopy))
    ((hcopies.symm.pairwise h.apart fun hapart =>
      ⟨hapart.1.symm, hapart.2.2, hapart.2.1⟩).imp fun hapart => hapart.2.1)
  exact ⟨m', copied, .copied s m' hsteps hend hchanges, hcopies, hall⟩

/-- The order of the changes makes no difference. -/
theorem createPreview_perm {json : Json} (hdistinct : json.Distinct)
    {copies order : List Change} (hperm : order.Perm copies)
    (hremoves : ∀ copy ∈ copies, Removes json copy)
    (hapart : copies.Pairwise fun copy other => copy.path ≠ other.path ∧
      ¬ copy.path <+: other.path ∧ ¬ other.path <+: copy.path) :
    createPreview json order = createPreview json copies := by
  have hlast : ∀ copy ∈ copies, copy.after? = none ∧
      ∃ path key, copy.path = path ++ [.key key] := by
    intro copy hcopy
    obtain ⟨hafter, path, name, -, hpath, -⟩ := hremoves copy hcopy
    exact ⟨hafter, path, name, hpath⟩
  rw [createPreview_eq_amend hdistinct hlast (hapart.imp fun h => h.2.1),
    createPreview_eq_amend hdistinct
      (fun copy hcopy => hlast copy (hperm.mem_iff.mp hcopy))
      ((hperm.symm.pairwise hapart fun h =>
        ⟨h.1.symm, h.2.2, h.2.1⟩).imp fun h => h.2.1)]
  congr 1
  funext path
  have hany : (order.any fun change => change.path == path) =
      copies.any fun change => change.path == path := by
    rw [Bool.eq_iff_iff, List.any_eq_true, List.any_eq_true]
    exact exists_congr fun change => and_congr_left' hperm.mem_iff
  rw [omissions, omissions, hany]

/-! ## Its validation -/

/-- A tree without a change to propose is validated by one walk. -/
theorem validation_of_quiet {json : Json}
    (hspells : json.Spells m.heap.values value)
    (haccepts :
      (checkDocumentValue P Json.tree json).reporter.accepts = true)
    (hchanges : (checkDocumentValue P Json.tree json).changes = []) :
    Validation P m value m
      { complete := true
        diagnostics := (checkDocumentValue P Json.tree json).reporter.diagnostics
        normalizedDocument := none
        changes := [] } := by
  obtain ⟨hreporter, hsame⟩ := exists_same_walk P hspells
  rw [hchanges] at hsame
  have hnone : ¬ HasPreview P m value :=
    fun hpreview => hpreview.2 (List.forall₂_nil_right_iff.mp hsame)
  have hwalk := Validation.walk (P := P) m value hnone
  rw [hreporter] at hwalk
  have hcomplete : (checkDocumentValue P Json.tree json).reporter.complete =
      true := (Bool.and_eq_true_iff.mp haccepts).1
  rw [Reporter.validationResult, hcomplete] at hwalk
  exact hwalk

variable (P) in
/-- A document with a preview, as a tree. -/
theorem HasPreview.proposed (h : HasPreview P m value)
    (hallocated : ∀ address, m.heap.values.Leads value (.ref address) →
      address < m.next) :
    ∃ source json, value = .ref source ∧ json.Distinct ∧
      (checkDocumentValue P Json.tree json).reporter =
        (checkDocumentValue P m.heap.values value).reporter ∧
      Proposed P m source json (checkDocumentValue P Json.tree json).changes := by
  obtain ⟨haccepts, hchanges⟩ := h
  obtain ⟨json, hdistinct, hspells⟩ := plain_of_document m.heap.lawful _
    (quietWalk_of_accepts haccepts)
  obtain ⟨hreporter, hsame⟩ := exists_same_walk P hspells
  have htree : (checkDocumentValue P Json.tree json).reporter.accepts =
      true := hreporter ▸ haccepts
  obtain ⟨root, haccepted⟩ := exists_accepted P htree
  obtain ⟨findings, hread⟩ := haccepted.read
  obtain ⟨ms, rfl, -⟩ := (readNode_eq_some P hread).values
  obtain ⟨source, members, distinct, rfl, hobject⟩ := exists_object hspells
  refine ⟨source, .obj ms, rfl, hdistinct, hreporter.symm, hspells, ?_,
    ⟨members, distinct, hobject⟩, hsame, ?_,
    changes_apart hdistinct htree haccepted⟩
  · intro address hleads
    obtain ⟨child, hchild, -⟩ := hspells.leads hleads
    exact ⟨hallocated address hleads, child, hchild⟩
  · intro change hchange
    obtain ⟨-, hafter, node, key, before, hnode, hpath, -⟩ :=
      haccepted.omission hdistinct hchange
    obtain ⟨fields, hget⟩ := hnode.get?
    exact ⟨hafter, node.path, key, fields, hpath, hget⟩

/-- Nothing stands at or below a removed position. -/
theorem createPreview_removed {json : Json} {copies : List Change}
    (hremoves : ∀ copy ∈ copies, Removes json copy)
    (hapart : copies.Pairwise fun copy other => copy.path ≠ other.path ∧
      ¬ copy.path <+: other.path ∧ ¬ other.path <+: copy.path)
    {copy : Change} (hcopy : copy ∈ copies) {path : FieldPath}
    (hpath : copy.path <+: path) :
    (createPreview json copies).get? path = none := by
  obtain ⟨first, second, rfl⟩ := List.append_of_mem hcopy
  obtain ⟨hafter, parent, name, ms, hlast, hget⟩ := hremoves copy hcopy
  rw [List.pairwise_append, List.pairwise_cons] at hapart
  obtain ⟨-, ⟨hsecond, -⟩, hfirst⟩ := hapart
  have hremoved := createPreview_last hlast hget
    (fun other hother hprefix =>
      (hfirst other hother copy List.mem_cons_self).2.1
        (hlast ▸ hprefix.trans (List.prefix_append _ _)))
    fun other hother => ⟨(hsecond other hother).2.2, (hsecond other hother).2.1⟩
  obtain ⟨rest, rfl⟩ := hpath
  rw [Json.get?_append, hremoved, hafter]
  rfl

/-! ## The result -/

variable (P) in
/-- A normalized document, as it is in memory after the call: nothing of it is
shared with the value, a further validation accepts it as it is, and it is the
value without the positions that the changes name, in whatever order these are
applied. -/
structure Normalizes (m : Memory) (value : JsValue) (m' : Memory)
    (preview : JsValue) (changes : List (NormalizationChange JsValue)) :
    Prop where
  again : ∃ findings, hasError findings = false ∧
    ∀ m'' result, Validation P m' preview m'' result ↔
      m'' = m' ∧ result =
        { complete := true
          diagnostics := findings
          normalizedDocument := none
          changes := [] }
  apart : changes.Pairwise fun change other => change.path ≠ other.path ∧
    ¬ change.path <+: other.path ∧ ¬ other.path <+: change.path
  fresh : ∀ address, m'.heap.values.Leads preview (.ref address) →
    m.next ≤ address
  trees : ∃ source json normalized, value = .ref source ∧
    json.Spells m.heap.values value ∧
    normalized.Spells m'.heap.values preview ∧
    (validateDocument P json).normalizedDocument = some normalized ∧
    (∀ order, order.Perm changes → ∃ m'' copy,
      CreatesPreview m source order m'' copy ∧
        normalized.Spells m''.heap.values copy) ∧
    (∀ path, (∃ change ∈ changes, change.path <+: path) →
      normalized.get? path = none) ∧
    ∀ path, (∀ change ∈ changes, ¬ change.path <+: path) →
      (normalized.get? path).map Json.label = (json.get? path).map Json.label

theorem map_path_of_same {H : Values JsValue}
    {changes : List (NormalizationChange JsValue)} {copies : List Change}
    (h : List.Forall₂ (SameChange H) changes copies) :
    copies.map NormalizationChange.path =
      changes.map NormalizationChange.path := by
  induction h with
  | nil => rfl
  | cons hsame _ ih => rw [List.map_cons, List.map_cons, hsame.path, ih]

/-- A preview without new findings is returned with the findings of the
walk. -/
theorem mergePreview_of_subset {reporter : Reporter}
    (haccepts : reporter.accepts = true)
    {changes : List (NormalizationChange JsValue)} {preview : JsValue}
    {checked : DocumentValidationResult} (hcomplete : checked.complete = true)
    (hsubset : checked.diagnostics ⊆ reporter.diagnostics) :
    mergePreview reporter changes preview checked =
      { complete := true
        diagnostics := reporter.diagnostics
        normalizedDocument := some preview
        changes := changes } := by
  have hreporter : reporter.complete = true :=
    (Bool.and_eq_true_iff.mp haccepts).1
  rw [mergePreview, reportPreviewDiagnostics_of_subset hsubset]
  simp only [Reporter.result_accepts, haccepts, hcomplete, Bool.not_true,
    Bool.or_self, Bool.false_eq_true, if_false, Reporter.validationResult,
    hreporter]

variable (P m value) in
/-- Validation of any value ends, with one result, and leaves the value as it
was; a normalized document of it is a fixpoint. -/
theorem validateDocument_normalizes
    (hallocated : ∀ address, m.heap.values.Leads value (.ref address) →
      address < m.next) :
    ∃ m' result,
      (∀ m'' other, Validation P m value m'' other ↔
        m'' = m' ∧ other = result) ∧
      (∀ address < m.next, m'.heap address = m.heap address) ∧
      ∀ preview, result.normalizedDocument = some preview →
        Normalizes P m value m' preview result.changes := by
  have hdetermined : ∀ {m₀ : Memory} {value : JsValue} {m' : Memory}
      {result : DocumentValidationResult}, Validation P m₀ value m' result →
        ∀ m'' other, Validation P m₀ value m'' other ↔
          m'' = m' ∧ other = result := by
    intro m₀ value m' result h m'' other
    constructor
    · intro hother
      obtain ⟨rfl, rfl⟩ := h.unique hother
      exact ⟨rfl, rfl⟩
    · rintro ⟨rfl, rfl⟩
      exact h
  by_cases hpreview : HasPreview P m value
  · obtain ⟨source, json, rfl, hdistinct, hreporter, hproposed⟩ :=
      hpreview.proposed P hallocated
    have haccepts : (checkDocumentValue P Json.tree json).reporter.accepts =
        true := hreporter ▸ hpreview.1
    obtain ⟨hagain, hdiagnostics, hnone⟩ := recheck hdistinct haccepts
    obtain ⟨m', copied, hcreates, hperm, hcopied⟩ :=
      hproposed.createPreview (List.Perm.refl _)
    have hordered : ∀ {order : List Change}, order.Perm
        (checkDocumentValue P Json.tree json).changes →
        createPreview json order =
          createPreview json (checkDocumentValue P Json.tree json).changes :=
      fun horder => createPreview_perm hdistinct horder hproposed.removes
        hproposed.apart
    rw [hordered hperm] at hcopied
    have hchecked := validation_of_quiet hcopied.spells hagain hnone
    have hvalidation := Validation.preview m source hpreview m' _ hcreates m'
      _ hchecked
    rw [mergePreview_of_subset hpreview.1 rfl (hreporter ▸ hdiagnostics)]
      at hvalidation
    have hpaths := map_path_of_same hproposed.same
    refine ⟨m', _, hdetermined hvalidation, hcopied.kept, ?_⟩
    rintro preview ⟨⟩
    have hquiet := (Bool.and_eq_true_iff.mp hagain).2
    rw [Bool.not_eq_true'] at hquiet
    refine ⟨⟨_, hquiet, hdetermined hchecked⟩, ?_,
      fun address hleads => (hcopied.fresh address hleads).1, source, json, _,
      rfl, hproposed.spells, hcopied.spells, ?_, ?_, ?_, ?_⟩
    · have hapart := hproposed.apart
      rw [← List.pairwise_map (f := NormalizationChange.path)
        (R := fun p q : FieldPath => p ≠ q ∧ ¬ p <+: q ∧ ¬ q <+: p), hpaths,
        List.pairwise_map] at hapart
      exact hapart
    · rw [validateDocument_of_accepts hdistinct haccepts]
      refine if_neg fun hnil => hpreview.2 ?_
      rw [hnil] at hpaths
      exact List.map_eq_nil_iff.mp hpaths.symm
    · intro order horder
      obtain ⟨m'', others, hothers, hothersPerm, hothersCopied⟩ :=
        hproposed.createPreview horder
      rw [hordered hothersPerm] at hothersCopied
      exact ⟨m'', _, hothers, hothersCopied.spells⟩
    · rintro path ⟨change, hchange, hprefix⟩
      obtain ⟨copy, hcopy, heq⟩ := List.mem_map.mp
        (hpaths ▸ List.mem_map_of_mem hchange)
      exact createPreview_removed hproposed.removes hproposed.apart hcopy
        (heq ▸ hprefix)
    · intro path hpath
      refine createPreview_label (fun copy hcopy hprefix => ?_) json
      obtain ⟨change, hchange, heq⟩ := List.mem_map.mp
        (hpaths ▸ List.mem_map_of_mem hcopy)
      exact hpath change hchange (heq ▸ hprefix)
  · refine ⟨m, _, hdetermined (.walk m value hpreview), fun _ _ => rfl, ?_⟩
    intro preview hnormalized
    cases hnormalized

/-- A note with one empty list for two properties. -/
def sharedMembers : List (JsString × JsProperty) :=
  [(js "@context", .data (.string activityStreamsContext) true),
    (js "type", .data (.string (js "Note")) true),
    (js "to", .data (.ref 1) true),
    (js "cc", .data (.ref 1) true)]

theorem sharedMembers_distinct : (sharedMembers.map Prod.fst).Nodup := by
  decide +kernel

def sharedHeap : Heap
  | 0 => .record true sharedMembers [] sharedMembers_distinct
  | _ => .array [] [] []

def sharedMemory : Memory := ⟨sharedHeap, 2⟩

theorem sharedMemory_holds {value : JsValue} {address : Address}
    (h : sharedMemory.heap.values.Holds value (.ref address)) :
    address = 1 := by
  cases h with
  | item entries named symbols hlook _ enumerable hmem =>
      cases value with
      | ref a =>
          cases a with
          | zero => cases hlook
          | succ a =>
              obtain ⟨rfl, -⟩ := Shape.array.inj hlook
              cases hmem
      | _ => cases hlook
  | member plain members symbols hlook key _ enumerable hmem =>
      cases value with
      | ref a =>
          cases a with
          | zero =>
              obtain ⟨-, rfl, -⟩ := Shape.object.inj hlook
              simp [sharedMembers, JsProperty.descriptor] at hmem
              rcases hmem with hmem | hmem <;> exact hmem.2.1
          | succ a => cases hlook
      | _ => cases hlook

theorem validateDocument_normalizes_shared :
    HasPreview reducedPlatform sharedMemory (.ref 0) ∧
      ∃ m' result,
        (∀ m'' other,
          Validation reducedPlatform sharedMemory (.ref 0) m'' other ↔
            m'' = m' ∧ other = result) ∧
        (∀ address < sharedMemory.next,
          m'.heap address = sharedMemory.heap address) ∧
        ∀ preview, result.normalizedDocument = some preview →
          Normalizes reducedPlatform sharedMemory (.ref 0) m' preview
            result.changes := by
  have hchanges : (checkDocumentValue reducedPlatform sharedMemory.heap.values
      (.ref 0)).changes.isEmpty = false := by decide +kernel
  refine ⟨⟨by decide +kernel, by simpa using hchanges⟩, ?_⟩
  refine validateDocument_normalizes reducedPlatform sharedMemory (.ref 0) ?_
  intro address hleads
  rcases hleads.cases_tail with heq | ⟨value, -, hheld⟩
  · obtain rfl := JsValue.ref.inj heq
    decide
  · obtain rfl := sharedMemory_holds hheld
    decide

end Platform

end DrFed.Document
