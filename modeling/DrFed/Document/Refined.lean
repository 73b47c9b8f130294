import DrFed.Document.Results

/-!
# Preparation refines the preparation of trees

On a value that spells a tree, preparation in memory gives the outcome of
preparation on the tree.  The objects of the value stay as they were, and the
preview is made of new ones.
-/

namespace DrFed

section Heaps

variable {h h' : Heap} {value other : JsValue}

/-- What can be reached is read in the objects that can be reached. -/
theorem leads_of_same
    (hsame : ∀ address, h.values.Leads value (.ref address) →
      h' address = h address) (hleads : h'.values.Leads value other) :
    h.values.Leads value other := by
  induction hleads with
  | refl => exact .refl
  | @tail middle other _ hholds ih =>
      cases middle with
      | ref address =>
          have hlook : h'.values.look (.ref address) =
              h.values.look (.ref address) :=
            congrArg JsObject.shape (hsame address ih)
          refine ih.tail ?_
          cases hholds with
          | item entries named symbols hshape _ enumerable hmem =>
              exact .item entries named symbols (hlook ▸ hshape) _ enumerable
                hmem
          | member plain members symbols hshape key _ enumerable hmem =>
              exact .member plain members symbols (hlook ▸ hshape) key _
                enumerable hmem
      | _ => exact absurd hholds (JsValue.not_holds (by simp) other)

/-- A spelled tree has distinct keys. -/
theorem Json.Spells.distinct {json : Json}
    (hspells : json.Spells h.values value) : json.Distinct := by
  induction hsize : sizeOf json using Nat.strong_induction_on
    generalizing json value with
  | _ n ih =>
    subst hsize
    cases json with
    | arr items =>
        obtain ⟨entries, -, hitems⟩ := Json.spells_arr.mp hspells
        rw [Json.distinct_arr]
        intro item hitem
        obtain ⟨entry, -, hentry⟩ :=
          exists_of_forall₂ hitems.flip hitem
        exact ih _ (Json.sizeOf_item hitem) hentry rfl
    | obj ms =>
        obtain ⟨members, hlook, hms⟩ := Json.spells_obj.mp hspells
        have hkeys := h.lawful.keys _ _ _ _ hlook
        rw [List.map_map] at hkeys
        rw [Json.distinct_obj, Document.forall₂_map_fst hms]
        refine ⟨hkeys, fun m hm => ?_⟩
        obtain ⟨member, -, hspelled⟩ := exists_of_forall₂ hms.flip hm
        exact ih _ (Json.sizeOf_member hm) hspelled.2 rfl
    | _ => simp [Json.Distinct]

end Heaps

namespace Document

variable {P : Platform} {m m' : Memory} {value : JsValue} {json : Json}
  {options : DocumentPreparationOptions}

/-! ## Results of trees -/

/-- Validation of a tree reports what the walk reports. -/
theorem validateDocument_walk (hdistinct : json.Distinct) :
    (validateDocument P json).diagnostics =
        (checkDocumentValue P Json.tree json).reporter.diagnostics ∧
      (validateDocument P json).complete =
        (checkDocumentValue P Json.tree json).reporter.complete := by
  by_cases haccepts :
      (checkDocumentValue P Json.tree json).reporter.accepts = true
  · rw [validateDocument_of_accepts hdistinct haccepts]
    exact ⟨rfl, ((Bool.and_eq_true_iff.mp haccepts).1).symm⟩
  · rw [Bool.not_eq_true] at haccepts
    rw [validateDocument, validateWithin]
    simp only [Reporter.result_accepts, haccepts, Bool.not_false,
      Bool.true_or, if_true]
    exact ⟨rfl, rfl⟩

theorem describeReplacement_eq (changes : List Change) :
    describeReplacement changes = describeReplaced (replacedPaths changes) := by
  funext d
  have hany : (changes.any fun change =>
      change.isReplace && change.path == d.path) =
        (replacedPaths changes).contains d.path := by
    rw [Bool.eq_iff_iff, List.any_eq_true, List.contains_iff_mem,
      replacedPaths, List.mem_map]
    simp [and_assoc]
  rw [describeReplacement, describeReplaced, hany]

/-- A result in memory that is the result of a tree, with a preview that
shares nothing with what there was. -/
structure ResultRefines (m m' : Memory) (result : DocumentValidationResult)
    (tree : ValidationResult) : Prop where
  complete : result.complete = tree.complete
  diagnostics : result.diagnostics = tree.diagnostics
  changes : List.Forall₂ (SameChange m.heap.values) result.changes tree.changes
  normalized : Option.Rel
    (fun preview normalized => normalized.Spells m'.heap.values preview ∧
      ∀ address, m'.heap.values.Leads preview (.ref address) →
        m.next ≤ address)
    result.normalizedDocument tree.normalizedDocument

/-- A call that fails alike, or succeeds with a result of the tree. -/
inductive OutcomeRefines (m m' : Memory) :
    Except TypeError DocumentValidationResult →
      Except TypeError ValidationResult → Prop
  | error (error : TypeError) : OutcomeRefines m m' (.error error) (.error error)
  | ok (result : DocumentValidationResult) (tree : ValidationResult)
      (h : ResultRefines m m' result tree) :
      OutcomeRefines m m' (.ok result) (.ok tree)

theorem stopped_refines (reporter : Reporter) :
    ResultRefines m m reporter.validationResult reporter.result :=
  ⟨rfl, rfl, .nil, .none⟩

/-- The merged result of a preview refines that of its tree. -/
theorem mergeProposal_refines {m₁ : Memory} {root : Address}
    {changes : List (NormalizationChange JsValue)} {copies : List Change}
    (hsame : List.Forall₂ (SameChange m.heap.values) changes copies)
    (hreplaced : replacedPaths changes = replacedPaths copies)
    (hcopied : Copied m (createPreview json copies) m₁ root)
    (hkept : ∀ address < m₁.next, m'.heap address = m₁.heap address)
    {result : DocumentValidationResult}
    (hdiagnostics : result.diagnostics =
      (validateDocument P (createPreview json copies)).diagnostics)
    (hcomplete : result.complete =
      (validateDocument P (createPreview json copies)).complete)
    (reporter : Reporter) :
    ResultRefines m m' (mergeProposal reporter changes (.ref root) result)
      (checkProposal P json copies reporter) := by
  have hsameObjects : ∀ address,
      m₁.heap.values.Leads (.ref root) (.ref address) →
        m'.heap address = m₁.heap address :=
    fun address hleads => hkept address (hcopied.fresh address hleads).2
  have hpreview : (createPreview json copies).Spells m'.heap.values
        (.ref root) ∧
      ∀ address, m'.heap.values.Leads (.ref root) (.ref address) →
        m.next ≤ address :=
    ⟨hcopied.spells.frame hsameObjects, fun address hleads =>
      (hcopied.fresh address (leads_of_same hsameObjects hleads)).1⟩
  unfold mergeProposal checkProposal
  simp only [hdiagnostics, hcomplete, Reporter.result_accepts,
    describeReplacement_eq, hreplaced]
  split
  · exact ⟨rfl, rfl, .nil, .none⟩
  · exact ⟨rfl, rfl, hsame, .some hpreview⟩

variable (P m value options) in
/-- Preparation of a value is preparation of its tree. -/
theorem preparation_refines
    (hspells : json.Spells m.heap.values value)
    (hallocated : ∀ address, m.heap.values.Leads value (.ref address) →
      address < m.next) :
    ∃ m' outcome,
      (∀ m'' other, Preparation P m value options m'' other ↔
        m'' = m' ∧ other = outcome) ∧
      (∀ address < m.next, m'.heap address = m.heap address) ∧
      OutcomeRefines m m' outcome (prepareDocument P json options) := by
  have hdetermined : ∀ {m' outcome}, Preparation P m value options m' outcome →
      ∀ m'' other, Preparation P m value options m'' other ↔
        m'' = m' ∧ other = outcome := by
    intro m' outcome hrun m'' other
    constructor
    · intro hother
      obtain ⟨rfl, rfl⟩ := hrun.unique hother
      exact ⟨rfl, rfl⟩
    · rintro ⟨rfl, rfl⟩
      exact hrun
  have hdistinct := hspells.distinct
  rw [prepareDocument_eq]
  cases hchecked : checkedTargets P m.heap value options with
  | error error =>
      obtain ⟨outcome, hvalue, htree, -⟩ :=
        exists_spelled_targets P hspells options
      rw [hchecked] at hvalue
      refine ⟨m, _, hdetermined (.refused error hchecked), fun _ _ => rfl, ?_⟩
      rw [htree]
      cases outcome with
      | error other =>
          obtain rfl := Except.error.inj hvalue
          exact .error error
      | ok pairs => cases hvalue
  | ok checked =>
      generalize hproposals : valueProposals P m.heap value options.authority
        checked = proposed
      obtain ⟨reporter, changes⟩ := proposed
      obtain ⟨targets, copies, htargets, htreeProposals, hnonempty,
        hprepares⟩ := prepares_of_spells P hdistinct hspells hallocated
          hchecked hproposals
      have hprepareChecked := @prepareChecked_eq P json options.authority
        targets
      dsimp only at hprepareChecked
      rw [htreeProposals] at hprepareChecked
      rw [htargets, Except.map, hprepareChecked]
      by_cases hgoes : reporter.accepts = true ∧ changes ≠ []
      · rw [if_pos ⟨hgoes.1, hnonempty.mp hgoes.2⟩]
        obtain ⟨source, rfl, hprepared⟩ := hprepares hgoes.1
        obtain ⟨m₁, hcreates, hcopied⟩ := hprepared.createPreview
        obtain ⟨m₂, result, hvalidation, hkept, hdiagnostics, hcomplete, -⟩ :=
          exists_validation P fun address hleads =>
            (hcopied.fresh address hleads).2
        obtain ⟨htreeDiagnostics, htreeComplete⟩ :=
          validateDocument_walk (P := P) hcopied.spells.distinct
        obtain ⟨hreporter, -⟩ := exists_same_walk P hcopied.spells
        refine ⟨m₂, _, hdetermined (.preview checked hchecked reporter changes
          hproposals hgoes.1 hgoes.2 source rfl m₁ _ hcreates m₂ result
          hvalidation), fun address hlt => ?_, .ok _ _ ?_⟩
        · have hnext : m.next < m₁.next := (hcopied.fresh m.next .refl).2
          rw [hkept address (hlt.trans hnext), hcopied.kept address hlt]
        · exact mergeProposal_refines hprepared.same hprepared.replaced hcopied
            hkept (by rw [hdiagnostics, hreporter, htreeDiagnostics])
            (by rw [hcomplete, hreporter, htreeComplete]) reporter
      · rw [if_neg fun hgo => hgoes ⟨hgo.1, hnonempty.mpr hgo.2⟩]
        exact ⟨m, _, hdetermined (.stopped checked hchecked reporter changes
          hproposals hgoes), fun _ _ => rfl, .ok _ _ (stopped_refines reporter)⟩

def sharedTree : Json :=
  .obj [(js "@context", .str activityStreamsContext),
    (js "type", .str (js "Note")), (js "to", .arr []), (js "cc", .arr [])]

theorem sharedTree_spells :
    sharedTree.Spells sharedMemory.heap.values (.ref 0) := by
  have hlist : (Json.arr []).Spells sharedMemory.heap.values (.ref 1) :=
    Json.spells_arr.mpr ⟨[], rfl, .nil⟩
  exact Json.spells_obj.mpr ⟨[(js "@context", .string activityStreamsContext),
    (js "type", .string (js "Note")), (js "to", .ref 1), (js "cc", .ref 1)],
    rfl, .cons ⟨rfl, rfl⟩ (.cons ⟨rfl, rfl⟩ (.cons ⟨rfl, hlist⟩
      (.cons ⟨rfl, hlist⟩ .nil)))⟩

theorem preparation_refines_shared :
    (prepareDocument reducedPlatform sharedTree allowingOptions).toOption.map
        (fun tree => tree.changes.map NormalizationChange.path) =
      some [[.key (js "cc")], [.key (js "to")]] ∧
    ∃ m' outcome,
      (∀ m'' other, Preparation reducedPlatform sharedMemory (.ref 0)
          allowingOptions m'' other ↔ m'' = m' ∧ other = outcome) ∧
      (∀ address < sharedMemory.next,
        m'.heap address = sharedMemory.heap address) ∧
      OutcomeRefines sharedMemory m' outcome
        (prepareDocument reducedPlatform sharedTree allowingOptions) :=
  ⟨by decide +kernel, preparation_refines reducedPlatform sharedMemory (.ref 0)
    allowingOptions sharedTree_spells sharedMemory_allocated⟩

end Document

end DrFed
