import DrFed.Document.Coherence

/-!
# Results of validation and preparation

What a run of validation or preparation reports, with everything that a
reporter may leave out, and that its result is coherent with it.
-/

namespace DrFed.Document

open Truncation

/-! ## What a run reports -/

section Platform

variable (P : Platform)

/-- What a validation reports, first without the findings of its preview. -/
inductive ValidationReports :
    Memory → JsValue → List Diagnostic → List Diagnostic → Prop
  | walk (m : Memory) (value : JsValue) (h : ¬ HasPreview P m value) :
      ValidationReports m value (walkFindings P m.heap.values value)
        (walkFindings P m.heap.values value)
  | preview (m : Memory) (source : Address)
      (h : HasPreview P m (.ref source)) (m' : Memory) (preview : JsValue)
      (hpreview : CreatesPreview m source
        (checkDocumentValue P m.heap.values (.ref source)).changes m' preview)
      (before inner : List Diagnostic)
      (hinner : ValidationReports m' preview before inner) :
      ValidationReports m (.ref source)
        (walkFindings P m.heap.values (.ref source))
        (addFindings (walkFindings P m.heap.values (.ref source)) inner)

/-- What a preparation reports before its preview. -/
def proposalFindings (h : Heap) (value : JsValue)
    (authority : List DocumentAuthority)
    (checked : List (CheckedTarget JsValue)) : List Diagnostic :=
  let findings := walkFindings P h.values value ++ authorityFindings authority
  if (createReporter.reportAll findings).accepts then
    findings ++ (proposeFields P h.values checked
      (checkDocumentValue P h.values value).changes).1
  else findings

/-- What a preparation reports, first without the findings of its preview. -/
inductive PreparationReports (m : Memory) (value : JsValue)
    (options : DocumentPreparationOptions) :
    List Diagnostic → List Diagnostic → Prop
  | stopped (checked : List (CheckedTarget JsValue))
      (hoptions : checkedTargets P m.heap value options = .ok checked)
      (reporter : Reporter) (changes : List (NormalizationChange JsValue))
      (hproposals : valueProposals P m.heap value options.authority checked =
        (reporter, changes))
      (hstop : ¬ (reporter.accepts = true ∧ changes ≠ [])) :
      PreparationReports m value options
        (proposalFindings P m.heap value options.authority checked)
        (proposalFindings P m.heap value options.authority checked)
  | preview (checked : List (CheckedTarget JsValue))
      (hoptions : checkedTargets P m.heap value options = .ok checked)
      (reporter : Reporter) (changes : List (NormalizationChange JsValue))
      (hproposals : valueProposals P m.heap value options.authority checked =
        (reporter, changes))
      (haccepts : reporter.accepts = true) (hchanges : changes ≠ [])
      (source : Address) (hvalue : value = .ref source)
      (m' : Memory) (preview : JsValue)
      (hpreview : CreatesPreview m source changes m' preview)
      (before inner : List Diagnostic)
      (hinner : ValidationReports P m' preview before inner) :
      PreparationReports m value options
        (proposalFindings P m.heap value options.authority checked)
        (addFindings
          (proposalFindings P m.heap value options.authority checked) inner)

variable {P} {m m' : Memory} {value : JsValue}
  {options : DocumentPreparationOptions}

/-! ## Validation -/

theorem reportsOf_moved {ι κ : Type} (f : ι → κ) (events : Item ι) :
    reportsOf (events.map (Event.moved f [])) = reportsOf events := by
  unfold reportsOf
  rw [List.filterMap_map]
  refine List.filterMap_congr fun event _ => ?_
  cases event <;> rfl

theorem walkFindings_moved {ι κ : Type} {f : ι → κ} {H : Values ι}
    {G : Values κ} (hreads : H.Reads G f)
    (hsame : ∀ a b, H.same a b = false) {value : ι}
    (hfresh : Fresh G [] (f value)) :
    walkFindings P G (f value) = walkFindings P H value := by
  have hwalk : checkDocument P G walkFuel [] (f value) [] none none none =
      carryWalk f (checkDocument P H walkFuel [] value [] none none none) :=
    checkDocument_carried P hreads hsame walkFuel (.inr hfresh)
  have hevents : ∀ walk : Item ι × List (Item ι),
      walkEvents (carryWalk f walk) =
        (walkEvents walk).map (Event.moved f []) := by
    intro walk
    simp [walkEvents, carryWalk, List.map_flatten]
  rw [walkFindings, hwalk, hevents, reportsOf_moved]
  rfl

variable (P) in
/-- The walk over a value finds what the walk over its tree finds. -/
theorem walkFindings_spelled {h : Heap} {json : Json}
    (hspells : json.Spells h.values value) :
    walkFindings P h.values value = walkFindings P Json.tree json := by
  let pair : Spelled h.values := ⟨(value, json), hspells⟩
  have hvalue : walkFindings P h.values value =
      walkFindings P (spelledValues h.values) pair :=
    @walkFindings_moved P _ _ (fun x : Spelled h.values => x.1.1) _ h.values
      spelledValues_fst (fun _ _ => rfl) pair
      (fresh_of_spells h.lawful hspells)
  have htree : walkFindings P Json.tree json =
      walkFindings P (spelledValues h.values) pair :=
    @walkFindings_moved P _ _ (fun x : Spelled h.values => x.1.2) _ Json.tree
      spelledValues_snd (fun _ _ => rfl) pair (fresh_of_never fun _ _ => rfl)
  rw [hvalue, htree]

theorem walkFindings_of_accepts {ι : Type} {H : Values ι} {value : ι}
    (haccepts : (checkDocumentValue P H value).reporter.accepts = true) :
    (checkDocumentValue P H value).reporter.diagnostics =
      walkFindings P H value := by
  rw [checkDocumentValue_reporter] at haccepts ⊢
  rw [Reporter.reportAll_diagnostics, cutFindings,
    cut_of_le (Reporter.createReporter_accepts.mp haccepts).2]

variable (P) in
/-- Validation ends with what the walk found, and offers the preview that the
walk proposes. -/
theorem exists_validation
    (hallocated : ∀ address, m.heap.values.Leads value (.ref address) →
      address < m.next) :
    ∃ m' result, Validation P m value m' result ∧
      (∀ address < m.next, m'.heap address = m.heap address) ∧
      result.diagnostics =
        (checkDocumentValue P m.heap.values value).reporter.diagnostics ∧
      result.complete =
        (checkDocumentValue P m.heap.values value).reporter.complete ∧
      ((result.normalizedDocument = none ∧ result.changes = []) ∨
        (HasPreview P m value ∧ result.normalizedDocument.isSome ∧
          result.changes ≠ [])) ∧
      ValidationReports P m value (walkFindings P m.heap.values value)
        (walkFindings P m.heap.values value) := by
  by_cases hpreview : HasPreview P m value
  · obtain ⟨source, json, rfl, hdistinct, hreporter, hproposed⟩ :=
      hpreview.proposed P hallocated
    have haccepts : (checkDocumentValue P Json.tree json).reporter.accepts =
        true := hreporter ▸ hpreview.1
    obtain ⟨hagain, hdiagnostics, hnone⟩ := recheck hdistinct haccepts
    obtain ⟨m', copied, hcreates, hperm, hcopied⟩ :=
      hproposed.createPreview (List.Perm.refl _)
    rw [createPreview_perm hdistinct hperm hproposed.removes hproposed.apart]
      at hcopied
    have hchecked := validation_of_quiet hcopied.spells hagain hnone
    have hvalidation := Validation.preview m source hpreview m' _ hcreates m'
      _ hchecked
    rw [mergePreview_of_subset hpreview.1 rfl (hreporter ▸ hdiagnostics)]
      at hvalidation
    refine ⟨m', _, hvalidation, hcopied.kept, rfl, ?_,
      .inr ⟨hpreview, rfl, hpreview.2⟩, ?_⟩
    · exact ((Bool.and_eq_true_iff.mp hpreview.1).1).symm
    · have hquiet : ¬ HasPreview P m' (.ref m.next) := by
        intro hagainPreview
        obtain ⟨-, hsame⟩ := exists_same_walk P hcopied.spells
        rw [hnone] at hsame
        exact hagainPreview.2 (List.forall₂_nil_right_iff.mp hsame)
      have hreports := ValidationReports.preview m source hpreview m' _
        hcreates _ _ (.walk m' _ hquiet)
      rw [walkFindings_of_accepts hagain, walkFindings_of_accepts haccepts]
        at hdiagnostics
      have hadd : addFindings (walkFindings P m.heap.values (.ref source))
          (walkFindings P m'.heap.values (.ref m.next)) =
            walkFindings P m.heap.values (.ref source) := by
        refine addNew_of_subset fun d hd => List.mem_map_of_mem ?_
        rw [walkFindings_spelled P hcopied.spells] at hd
        rw [walkFindings_spelled P hproposed.spells]
        exact hdiagnostics hd
      rwa [hadd] at hreports
  · exact ⟨m, _, .walk m value hpreview, fun _ _ => rfl, rfl, rfl,
      .inl ⟨rfl, rfl⟩, .walk m value hpreview⟩

/-- The result of a validation without a preview. -/
theorem coherent_validationResult {reported : List Diagnostic}
    (hunmarked : Unmarked reported) :
    Coherent reported reported
      (createReporter.reportAll reported).validationResult := by
  have hall := @coherent_of_reporter reported [] (by simpa using hunmarked)
    (by simp) (createReporter.reportAll reported).validationResult
  rw [List.append_nil] at hall
  exact hall (by rw [← Reporter.reportAll_diagnostics]; rfl) rfl
    (.inl ⟨rfl, rfl⟩)

variable (P) in
/-- Validation is coherent with what its walk finds. -/
theorem validation_coherent
    (hallocated : ∀ address, m.heap.values.Leads value (.ref address) →
      address < m.next) :
    ∃ m' result, Validation P m value m' result ∧
      ValidationReports P m value (walkFindings P m.heap.values value)
        (walkFindings P m.heap.values value) ∧
      Coherent (walkFindings P m.heap.values value)
        (walkFindings P m.heap.values value) result := by
  obtain ⟨m', result, hvalidation, -, hdiagnostics, hcomplete, hoffer,
    hreports⟩ := exists_validation P hallocated
  refine ⟨m', result, hvalidation, hreports, ?_⟩
  rw [checkDocumentValue_reporter] at hdiagnostics hcomplete
  have hall := @coherent_of_reporter (walkFindings P m.heap.values value) []
    (by simpa using (ordinary_walkFindings (P := P) value).unmarked)
    (by simp) result
  rw [List.append_nil] at hall
  refine hall ?_ hcomplete (hoffer.imp_right fun ⟨hpreview, hsome⟩ => ?_)
  · rw [hdiagnostics, Reporter.reportAll_diagnostics]
  · refine ⟨?_, hsome⟩
    rw [← checkDocumentValue_reporter]
    exact hpreview.1

/-! ## Preparation -/

theorem unmarked_authorityFindings (authority : List DocumentAuthority) :
    Unmarked (authorityFindings authority) := by
  intro d hd
  obtain ⟨outcome, -, hsome⟩ := List.mem_filterMap.mp hd
  split at hsome
  · cases hsome
  · obtain rfl := Option.some.inj hsome
    exact DiagnosticReason.noConfusion

theorem unmarked_proposeFields {ι : Type} {H : Values ι}
    (checked : List (CheckedTarget ι))
    (changes : List (NormalizationChange ι)) :
    Unmarked (proposeFields P H checked changes).1 := by
  have hconflict : ∀ path, (fieldConflict path).reason ≠
      .diagnosticLimitReached := fun _ => DiagnosticReason.noConfusion
  have hone : ∀ (c : CheckedTarget ι) (changes : List (NormalizationChange ι)),
      Unmarked (proposeField P H c changes).1 := by
    intro c changes
    unfold proposeField
    dsimp only
    split
    next => simp [Unmarked]
    next entry path _ =>
      split
      · simp [Unmarked]
      · simpa [Unmarked] using hconflict path
    next several _ _ =>
      intro d hd
      obtain ⟨supplied, -, rfl⟩ := List.mem_map.mp hd
      exact hconflict _
  induction checked generalizing changes with
  | nil => simp [Unmarked, proposeFields]
  | cons c rest ih =>
      rw [proposeFields]
      exact (hone c changes).append (ih _)

theorem unmarked_proposalFindings (h : Heap) (value : JsValue)
    (authority : List DocumentAuthority)
    (checked : List (CheckedTarget JsValue)) :
    Unmarked (proposalFindings P h value authority checked) := by
  have hfindings := (ordinary_walkFindings (P := P) (H := h.values)
    value).unmarked.append (unmarked_authorityFindings authority)
  unfold proposalFindings
  dsimp only
  split
  · exact hfindings.append (unmarked_proposeFields checked _)
  · exact hfindings

theorem valueProposals_reporter (h : Heap) (value : JsValue)
    (authority : List DocumentAuthority)
    (checked : List (CheckedTarget JsValue)) :
    (valueProposals P h value authority checked).1 =
      createReporter.reportAll
        (proposalFindings P h value authority checked) := by
  have hauthority : (checkDocumentValue P h.values value).reporter.reportAll
      (authorityFindings authority) = createReporter.reportAll
        (walkFindings P h.values value ++ authorityFindings authority) := by
    rw [checkDocumentValue_reporter, Reporter.reportAll_append]
  unfold valueProposals proposals proposalFindings
  simp only [hauthority]
  split
  · exact (Reporter.reportAll_append _ _ _).symm
  · rfl

/-- No two findings of a prepared preview are alike. -/
theorem nodup_preview {json : Json} {root : Node Json} {copies : List Change}
    (h : Previews P json root copies)
    (haccepts : (checkDocumentValue P Json.tree json).reporter.accepts = true) :
    ((walkFindings P Json.tree (createPreview json copies)).map
      Diagnostic.key).Nodup := by
  obtain ⟨findings, hread⟩ := h.accepted.read
  have hquiet : Quiet (documentEvents P json) :=
    quiet_iff.mpr (checkDocumentValue_accepts.mp haccepts).1
  exact (h.documented hquiet hread .refl rfl).apart.nodup

theorem describeReplaced_key (paths : List FieldPath) (d : Diagnostic) :
    (describeReplaced paths d).key = d.key := by
  unfold describeReplaced
  split <;> rfl

variable (P) in
/-- Preparation ends, and is coherent with what it reports. -/
theorem preparation_coherent
    (hallocated : ∀ address, m.heap.values.Leads value (.ref address) →
      address < m.next)
    {checked : List (CheckedTarget JsValue)}
    (hchecked : checkedTargets P m.heap value options = .ok checked) :
    ∃ m' result before reported,
      Preparation P m value options m' (.ok result) ∧
      PreparationReports P m value options before reported ∧
      Coherent before reported result := by
  generalize hproposals : valueProposals P m.heap value options.authority
    checked = proposed
  obtain ⟨reporter, changes⟩ := proposed
  have hunmarked := unmarked_proposalFindings (P := P) m.heap value
    options.authority checked
  have hreporter : reporter = createReporter.reportAll
      (proposalFindings P m.heap value options.authority checked) := by
    rw [← valueProposals_reporter, hproposals]
  by_cases hgoes : reporter.accepts = true ∧ changes ≠ []
  · obtain ⟨haccepts, hchanges⟩ := hgoes
    obtain ⟨source, json, copies, rfl, hprepares⟩ :=
      exists_prepares P hallocated hchecked hproposals haccepts
    obtain ⟨m', hcreates, hcopied⟩ := hprepares.createPreview
    obtain ⟨m'', result, hvalidation, -, hdiagnostics, hcomplete, -,
      hreports⟩ := exists_validation P fun address hleads =>
        (hcopied.fresh address hleads).2
    rw [checkDocumentValue_reporter] at hdiagnostics hcomplete
    have hwalk := (walk_of_proposals (walk_sound m.heap.values (.ref source))
      hproposals haccepts).1
    rw [(exists_same_walk P hprepares.spells).1] at hwalk
    obtain ⟨root, hpreviews⟩ := hprepares.previews
    have hmerges : Merges
        (proposalFindings P m.heap (.ref source) options.authority checked)
        (walkFindings P m'.heap.values (.ref m.next)) result := by
      refine ⟨hunmarked, (ordinary_walkFindings _).unmarked, .inr ?_, ?_,
        hcomplete⟩
      · rw [walkFindings_spelled P hcopied.spells]
        exact nodup_preview hpreviews hwalk
      · rw [hdiagnostics, Reporter.reportAll_diagnostics]
    refine ⟨m'', _, _, _, .preview checked hchecked reporter changes hproposals
      haccepts hchanges source rfl m' _ hcreates m'' result hvalidation,
      .preview checked hchecked reporter changes hproposals haccepts hchanges
        source rfl m' _ hcreates _ _ hreports, ?_⟩
    rw [hreporter]
    generalize hafter : reportPreviewDiagnostics result.diagnostics
      (createReporter.reportAll (proposalFindings P m.heap (.ref source)
        options.authority checked)) = after
    refine hmerges.coherent ?_ ?_ ?_ <;> rw [hafter] <;>
      simp only [mergeProposal, hafter]
    · split
      · rfl
      · rw [List.map_map]
        exact List.map_congr_left fun d _ => describeReplaced_key _ d
    · split
      · rfl
      next hmerged =>
        rw [Bool.or_eq_true, not_or, Bool.not_eq_true', Bool.not_eq_false]
          at hmerged
        rw [hmerged.1, Bool.true_and]
    · split
      · exact .inl ⟨rfl, rfl⟩
      next hmerged =>
        rw [Bool.or_eq_true, not_or, Bool.not_eq_true', Bool.not_eq_true',
          Bool.not_eq_false, Bool.not_eq_false] at hmerged
        exact .inr ⟨hmerged.2, rfl, hchanges⟩
  · refine ⟨m, _, _, _, .stopped checked hchecked reporter changes hproposals
      hgoes, .stopped checked hchecked reporter changes hproposals hgoes, ?_⟩
    rw [hreporter]
    exact coherent_validationResult hunmarked

/-! ## Every result -/

theorem Preparation.unique {outcome : Except TypeError DocumentValidationResult}
    (h : Preparation P m value options m' outcome) {m'' : Memory}
    {other : Except TypeError DocumentValidationResult}
    (hother : Preparation P m value options m'' other) :
    m' = m'' ∧ outcome = other := by
  cases h with
  | refused error hoptions =>
      cases hother <;> simp_all
  | stopped checked hoptions reporter changes hproposals hstop =>
      cases hother with
      | refused error hoptions' =>
          rw [hoptions] at hoptions'
          cases hoptions'
      | stopped checked' hoptions' reporter' changes' hproposals' hstop' =>
          obtain rfl := Except.ok.inj (hoptions.symm.trans hoptions')
          obtain ⟨rfl, -⟩ := Prod.mk.inj (hproposals.symm.trans hproposals')
          exact ⟨rfl, rfl⟩
      | preview checked' hoptions' reporter' changes' hproposals' haccepts
          hchanges =>
          obtain rfl := Except.ok.inj (hoptions.symm.trans hoptions')
          obtain ⟨rfl, rfl⟩ := Prod.mk.inj (hproposals.symm.trans hproposals')
          exact absurd ⟨haccepts, hchanges⟩ hstop
  | preview checked hoptions reporter changes hproposals haccepts hchanges
      source hvalue m₁ preview hpreview _ result hresult =>
      cases hother with
      | refused error hoptions' =>
          rw [hoptions] at hoptions'
          cases hoptions'
      | stopped checked' hoptions' reporter' changes' hproposals' hstop =>
          obtain rfl := Except.ok.inj (hoptions.symm.trans hoptions')
          obtain ⟨rfl, rfl⟩ := Prod.mk.inj (hproposals.symm.trans hproposals')
          exact absurd ⟨haccepts, hchanges⟩ hstop
      | preview checked' hoptions' reporter' changes' hproposals' _ _ source'
          hvalue' m₂ preview' hpreview' _ result' hresult' =>
          obtain rfl := Except.ok.inj (hoptions.symm.trans hoptions')
          obtain ⟨rfl, rfl⟩ := Prod.mk.inj (hproposals.symm.trans hproposals')
          obtain rfl := JsValue.ref.inj (hvalue.symm.trans hvalue')
          obtain ⟨rfl, rfl⟩ := hpreview.unique hpreview'
          obtain ⟨rfl, rfl⟩ := hresult.unique hresult'
          exact ⟨rfl, rfl⟩

variable (P m value options) in
/-- Validation and preparation of any value end, and their results are
coherent with what they report. -/
theorem results_coherent
    (hallocated : ∀ address, m.heap.values.Leads value (.ref address) →
      address < m.next) :
    (∃ m' result before reported,
      (∀ m'' other, Validation P m value m'' other ↔
        m'' = m' ∧ other = result) ∧
      ValidationReports P m value before reported ∧
      Coherent before reported result) ∧
    ((∃ error, checkedTargets P m.heap value options = .error error ∧
      ∀ m'' other, Preparation P m value options m'' other ↔
        m'' = m ∧ other = .error error) ∨
      ∃ m' result before reported,
        (∀ m'' other, Preparation P m value options m'' other ↔
          m'' = m' ∧ other = .ok result) ∧
        PreparationReports P m value options before reported ∧
        Coherent before reported result) := by
  constructor
  · obtain ⟨m', result, hvalidation, hreports, hcoherent⟩ :=
      validation_coherent P hallocated
    refine ⟨m', result, _, _, fun m'' other => ⟨fun hother => ?_, ?_⟩,
      hreports, hcoherent⟩
    · obtain ⟨rfl, rfl⟩ := hvalidation.unique hother
      exact ⟨rfl, rfl⟩
    · rintro ⟨rfl, rfl⟩
      exact hvalidation
  cases hchecked : checkedTargets P m.heap value options with
  | error error =>
      have hrefused : Preparation P m value options m (.error error) :=
        .refused error hchecked
      refine .inl ⟨error, rfl, fun m'' other => ⟨fun hother => ?_, ?_⟩⟩
      · obtain ⟨rfl, rfl⟩ := hrefused.unique hother
        exact ⟨rfl, rfl⟩
      · rintro ⟨rfl, rfl⟩
        exact hrefused
  | ok checked =>
      obtain ⟨m', result, before, reported, hprepared, hreports, hcoherent⟩ :=
        preparation_coherent P hallocated hchecked
      refine .inr ⟨m', result, before, reported,
        fun m'' other => ⟨fun hother => ?_, ?_⟩, hreports, hcoherent⟩
      · obtain ⟨rfl, rfl⟩ := hprepared.unique hother
        exact ⟨rfl, rfl⟩
      · rintro ⟨rfl, rfl⟩
        exact hprepared

/-- A preparation that the server allows, without server-owned fields. -/
def allowingOptions : DocumentPreparationOptions where
  authority := [⟨true, []⟩]
  serverOwnedFields := []

theorem sharedMemory_allocated (address : Address)
    (hleads : sharedMemory.heap.values.Leads (.ref 0) (.ref address)) :
    address < sharedMemory.next := by
  rcases hleads.cases_tail with heq | ⟨value, -, hheld⟩
  · obtain rfl := JsValue.ref.inj heq
    decide
  · obtain rfl := sharedMemory_holds hheld
    decide

theorem results_coherent_shared :
    ∃ m' result before reported,
      Preparation reducedPlatform sharedMemory (.ref 0) allowingOptions m'
        (.ok result) ∧
      PreparationReports reducedPlatform sharedMemory (.ref 0)
        allowingOptions before reported ∧
      Coherent before reported result := by
  have hall := results_coherent reducedPlatform sharedMemory (.ref 0)
    allowingOptions sharedMemory_allocated
  rcases hall.2 with ⟨error, herror, -⟩ | ⟨m', result, before, reported,
    hprepared, hreports, hcoherent⟩
  · cases herror
  · exact ⟨m', result, before, reported, (hprepared m' _).mpr ⟨rfl, rfl⟩,
      hreports, hcoherent⟩

end Platform

end DrFed.Document
