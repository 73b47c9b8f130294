import DrFed.Document.Prepare

/-!
# Outcomes of validation and preparation

How the results relate to the walk.  An error found on the way is still in the
result, a result without errors comes from an accepted walk, and a preview is
offered only together with a result without errors.
-/

namespace DrFed.Document

/-! ## Preview diagnostics -/

theorem isError_congr {d e : Diagnostic} (h : d.reason = e.reason) :
    d.isError = e.isError := by
  simp [Diagnostic.isError, Diagnostic.severity, h]

theorem reportPreviewDiagnostics_sound {checked : List Diagnostic}
    {reporter : Reporter} (h : reporter.Sound) :
    (reportPreviewDiagnostics checked reporter).Sound := by
  refine List.foldlRecOn (motive := Reporter.Sound) _ _ h fun r hr d _ => ?_
  split
  · exact hr
  · exact hr.report d

/-- Errors of the original result and of the checked preview are kept. -/
theorem hasError_reportPreviewDiagnostics {checked : List Diagnostic}
    {reporter : Reporter} (h : reporter.Sound)
    (herror : (hasError reporter.diagnostics || hasError checked) = true) :
    hasError (reportPreviewDiagnostics checked reporter).diagnostics =
      true := by
  induction checked generalizing reporter with
  | nil => simpa [reportPreviewDiagnostics] using herror
  | cons d rest ih =>
      rw [hasError_cons, ← Bool.or_assoc] at herror
      have hstep : reportPreviewDiagnostics (d :: rest) reporter =
          reportPreviewDiagnostics rest
            (if reporter.diagnostics.any fun existing =>
                existing.reason == d.reason && existing.path == d.path then
              reporter
            else reporter.report d) := rfl
      rw [hstep]
      split
      next hany =>
        refine ih h ?_
        obtain ⟨existing, hmem, hsame⟩ := List.any_eq_true.mp hany
        have hreason : existing.reason = d.reason := by
          simpa using (Bool.and_eq_true_iff.mp hsame).1
        by_cases hd : d.isError = true
        · rw [hasError_of_mem hmem ((isError_congr hreason).trans hd)]
          rfl
        · rw [Bool.not_eq_true] at hd
          simpa [hd] using herror
      next =>
        refine ih (h.report d) ?_
        rw [Bool.or_eq_true] at herror ⊢
        exact herror.imp (Reporter.hasError_report h d) id

section Platform

variable (P : Platform)

theorem WalkState.runItem_sound {ι : Type} {s : WalkState ι}
    (hs : s.reporter.Sound) (item : Item ι) :
    (s.runItem item).reporter.Sound := by
  refine List.foldlRecOn (motive := fun s : WalkState ι => s.reporter.Sound)
    _ _ hs fun s hs event _ => ?_
  cases event with
  | report d => exact Reporter.Sound.report hs d
  | _ => exact hs

theorem WalkState.runItems_sound {ι : Type} {s : WalkState ι}
    (hs : s.reporter.Sound) (items : List (Item ι)) :
    (s.runItems items).reporter.Sound := by
  induction items generalizing s with
  | nil => exact hs
  | cons item rest ih =>
      rw [WalkState.runItems]
      split
      · exact hs
      · exact ih (runItem_sound hs item)

theorem checkDocumentValue_sound (document : Json) :
    (checkDocumentValue P Json.tree document).reporter.Sound :=
  WalkState.runItems_sound
    (WalkState.runItem_sound Reporter.createReporter_sound _) _

/-! ## Validation -/

theorem accepts_result {r : Reporter} : r.result.accepts = r.accepts := rfl

/-- An incomplete validation reports an error. -/
theorem validateWithin_incomplete {fuel : ℕ} {document : Json}
    (h : (validateWithin P fuel document).complete = false) :
    hasError (validateWithin P fuel document).diagnostics = true := by
  induction fuel generalizing document with
  | zero => rfl
  | succ fuel ih =>
      have hsound := checkDocumentValue_sound P document
      rw [validateWithin] at h ⊢
      dsimp only at h ⊢
      split at h
      next hstop =>
        rw [if_pos hstop]
        exact hsound.incomplete h
      next hstop =>
        rw [if_neg hstop]
        split at h
        next hbad =>
          rw [if_pos hbad]
          have hpreview := @reportPreviewDiagnostics_sound
            (validateWithin P fuel (createPreview document
              (checkDocumentValue P Json.tree document).changes)).diagnostics
            _ hsound
          rcases Bool.and_eq_false_iff.mp h with hchecked | hreporter
          · refine hasError_reportPreviewDiagnostics hsound ?_
            rw [ih hchecked, Bool.or_true]
          · exact hpreview.incomplete hreporter
        next hgood =>
          rw [if_neg hgood]
          rw [Bool.or_eq_true, not_or, Bool.not_eq_true', Bool.not_eq_true',
            Bool.not_eq_false, Bool.not_eq_false] at hgood
          have hcomplete := (Bool.and_eq_true_iff.mp hgood.2).1
          exact absurd (hcomplete.symm.trans h) (by decide)

theorem validateDocument_incomplete {document : Json}
    (h : (validateDocument P document).complete = false) :
    hasError (validateDocument P document).diagnostics = true :=
  validateWithin_incomplete P h

/-- A validated document has an accepted walk. -/
theorem validateDocument_accepts {document : Json}
    (h : (validateDocument P document).accepts = true) :
    (checkDocumentValue P Json.tree document).reporter.accepts = true := by
  by_contra hwalk
  rw [Bool.not_eq_true] at hwalk
  rw [validateDocument, validateWithin] at h
  simp only [accepts_result, hwalk, Bool.not_false, Bool.true_or, if_true] at h
  contradiction

/-! ## Preparation -/

/-- What a preparation without errors in its result went through. -/
structure Prepared (document : Json) (checkedFields : List CheckedField)
    (result : ValidationResult) : Prop where
  walk : (checkDocumentValue P Json.tree document).reporter.accepts = true
  proposals : hasError (proposeServerFields P checkedFields
    (checkDocumentValue P Json.tree document).changes).1 = false
  outcome :
    ((proposeServerFields P checkedFields
        (checkDocumentValue P Json.tree document).changes).2 = [] ∧
      result.normalizedDocument = none) ∨
    (result.changes = (proposeServerFields P checkedFields
        (checkDocumentValue P Json.tree document).changes).2 ∧
      result.normalizedDocument = some (createPreview document
        (proposeServerFields P checkedFields
          (checkDocumentValue P Json.tree document).changes).2))

theorem hasError_describeReplacement (changes : List Change)
    (ds : List Diagnostic) :
    hasError (ds.map (describeReplacement changes)) = hasError ds := by
  induction ds with
  | nil => rfl
  | cons d rest ih =>
      have hd : (describeReplacement changes d).isError = d.isError := by
        refine isError_congr ?_
        unfold describeReplacement
        split <;> rfl
      rw [List.map_cons, hasError_cons, hasError_cons, hd, ih]

/-- Re-checking a preview either reports an error or accepts the preview. -/
theorem checkProposal_cases (document : Json) (changes : List Change)
    {reporter : Reporter} (h : reporter.Sound) :
    (hasError (checkProposal P document changes reporter).diagnostics = true ∧
      (checkProposal P document changes reporter).normalizedDocument = none) ∨
    (hasError (checkProposal P document changes reporter).diagnostics =
        false ∧
      (checkProposal P document changes reporter).changes = changes ∧
      (checkProposal P document changes reporter).normalizedDocument =
        some (createPreview document changes)) := by
  have hpreview := @reportPreviewDiagnostics_sound
    (validateDocument P (createPreview document changes)).diagnostics _ h
  unfold checkProposal
  dsimp only
  split
  next hbad =>
    refine .inl ⟨?_, rfl⟩
    rw [Bool.or_eq_true] at hbad
    rcases hbad with hchecked | hreporter
    · refine hasError_reportPreviewDiagnostics h ?_
      rw [validateDocument_incomplete P (by simpa using hchecked),
        Bool.or_true]
    · rw [accepts_result, Bool.not_eq_true'] at hreporter
      by_contra hnone
      rw [Bool.not_eq_true] at hnone
      rw [hpreview.accepts_iff.mpr hnone] at hreporter
      contradiction
  next hgood =>
    refine .inr ⟨?_, rfl, rfl⟩
    rw [Bool.or_eq_true, not_or] at hgood
    have haccepts := hgood.2
    rw [accepts_result, Bool.not_eq_true', Bool.not_eq_false] at haccepts
    have hnone := hpreview.accepts_iff.mp haccepts
    exact (hasError_describeReplacement _ _).trans hnone

/-- A result of preparation has an error and no preview, or it comes from an
accepted walk and proposals without conflict. -/
theorem prepareChecked_cases (document : Json)
    (authority : List DocumentAuthority) (checkedFields : List CheckedField) :
    let result := prepareChecked P document
      (checkDocumentValue P Json.tree document) authority checkedFields
    (hasError result.diagnostics = true ∧ result.normalizedDocument = none) ∨
    (hasError result.diagnostics = false ∧
      (∀ outcome ∈ authority, outcome.allowed = true) ∧
      Prepared P document checkedFields result) := by
  intro result
  have hwalk := checkDocumentValue_sound P document
  have hauthority := hwalk.reportAll (authorityFindings authority)
  have hstop : ∀ r : Reporter, r.Sound → r.result.accepts = false →
      hasError r.result.diagnostics = true := by
    intro r hr haccepts
    by_contra hnone
    rw [Bool.not_eq_true] at hnone
    rw [accepts_result, hr.accepts_iff.mpr hnone] at haccepts
    contradiction
  simp only [result, prepareChecked]
  split
  next hrefused =>
    exact .inl ⟨hstop _ hauthority (by simpa using hrefused), rfl⟩
  next hallowed =>
    rw [Bool.not_eq_true', Bool.not_eq_false, accepts_result] at hallowed
    obtain ⟨hwalkQuiet, hauthorityQuiet⟩ :=
      Reporter.accepts_reportAll hwalk hallowed
    have hproposed := hauthority.reportAll (proposeServerFields P checkedFields
      (checkDocumentValue P Json.tree document).changes).1
    have houtcomes : ∀ outcome ∈ authority, outcome.allowed = true := by
      intro outcome houtcome
      by_contra hdenied
      rw [Bool.not_eq_true] at hdenied
      have hmem : (⟨.unauthorizedLocalIdentity, outcome.path,
          "The server denied use of this local identity for the requested " ++
            "operation."⟩ : Diagnostic) ∈ authorityFindings authority :=
        List.mem_filterMap.mpr ⟨outcome, houtcome, by simp [hdenied]⟩
      rw [hasError_of_mem hmem rfl] at hauthorityQuiet
      contradiction
    have hwalkAccepts := hwalk.accepts_iff.mpr hwalkQuiet
    split
    next hstopped =>
      by_cases haccepts : (((checkDocumentValue P Json.tree
          document).reporter.reportAll (authorityFindings authority)).reportAll
          (proposeServerFields P checkedFields (checkDocumentValue P Json.tree
            document).changes).1).accepts = true
      · have hquiet := (Reporter.accepts_reportAll hauthority haccepts).2
        refine .inr ⟨hproposed.accepts_iff.mp haccepts, houtcomes,
          hwalkAccepts, hquiet, .inl ⟨?_, rfl⟩⟩
        rw [accepts_result, haccepts] at hstopped
        simpa using hstopped
      · rw [Bool.not_eq_true] at haccepts
        exact .inl ⟨hstop _ hproposed haccepts, rfl⟩
    next hgoes =>
      rw [Bool.or_eq_true, not_or, Bool.not_eq_true', Bool.not_eq_false,
        accepts_result] at hgoes
      have hquiet := (Reporter.accepts_reportAll hauthority hgoes.1).2
      rcases checkProposal_cases P document (proposeServerFields P
          checkedFields (checkDocumentValue P Json.tree document).changes).2
          hproposed with ⟨herror, hnone⟩ | ⟨hnone, hchanges, hdocument⟩
      · exact .inl ⟨herror, hnone⟩
      · exact .inr ⟨hnone, houtcomes, hwalkAccepts, hquiet,
          .inr ⟨hchanges, hdocument⟩⟩

/-- Preparation that does not throw has checked its options and fields. -/
theorem prepareDocument_eq_ok {document : Json}
    {options : DocumentPreparationOptions} {result : ValidationResult}
    (h : prepareDocument P document options = .ok result) :
    checkPreparationOptions options = .ok () ∧
    ∃ checkedFields, checkServerOwnedFields P document
        (checkDocumentValue P Json.tree document).visited
        (checkDocumentValue P Json.tree document).unavailable
        ((checkDocumentValue P Json.tree document).reporter.diagnostics.any
          fun d => d.reason == .diagnosticLimitReached)
        options.serverOwnedFields [] = .ok checkedFields ∧
      result = prepareChecked P document
        (checkDocumentValue P Json.tree document) options.authority
        checkedFields := by
  unfold prepareDocument at h
  cases hoptions : checkPreparationOptions options with
  | error e =>
      rw [hoptions] at h
      cases h
  | ok u =>
      rw [hoptions] at h
      refine ⟨rfl, ?_⟩
      cases hfields : checkServerOwnedFields P document
          (checkDocumentValue P Json.tree document).visited
          (checkDocumentValue P Json.tree document).unavailable
          ((checkDocumentValue P Json.tree document).reporter.diagnostics.any
            fun d => d.reason == .diagnosticLimitReached)
          options.serverOwnedFields [] with
      | error e =>
          simp only [bind, Except.bind, hfields] at h
          cases h
      | ok checkedFields =>
          simp only [bind, Except.bind, hfields, pure, Except.pure] at h
          exact ⟨checkedFields, rfl, (Except.ok.inj h).symm⟩

end Platform

end DrFed.Document
