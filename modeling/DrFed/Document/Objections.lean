import DrFed.Document.Recheck

/-!
# What the checks of a walk object to

The reasons of the findings of a walk.  A check of values, contexts, types or
extensions finds only errors; the four warnings come from a context that is
assumed, from an extension and from an omission.  No check reports that the
limit of diagnostics is reached: only a reporter does.
-/

namespace DrFed.Document

/-- The reasons for which a check of a document refuses it. -/
def objections : List DiagnosticReason :=
  [.invalidDocumentRoot, .nonJsonValue, .invalidValueShape, .invalidIri,
    .invalidDatetime, .invalidMultiplicity, .propertyNotApplicable,
    .invalidContext, .contextUnavailableOffline, .unsupportedContextForm,
    .unsupportedType, .unsupportedProperty, .unsupportedValueForm,
    .processingLimitExceeded]

/-- The reasons for which a check of a document warns. -/
def warnings : List DiagnosticReason :=
  [.implicitActivitystreamsContext, .extensionPropertyUnchecked,
    .emptyPropertyList, .absentIdentifier]

theorem isError_of_objection {d : Diagnostic} (h : d.reason ∈ objections) :
    d.isError = true := by
  have hall : ∀ reason ∈ objections,
      (diagnosticReasons reason).2 = .error := by decide
  unfold Diagnostic.isError Diagnostic.severity
  rw [hall d.reason h]
  rfl

/-- All findings object to something. -/
def Objects (findings : List Diagnostic) : Prop :=
  ∀ d ∈ findings, d.reason ∈ objections

section Lists

variable {findings others : List Diagnostic} {d : Diagnostic}

@[simp] theorem objects_nil : Objects [] := by
  simp [Objects]

@[simp] theorem objects_cons :
    Objects (d :: findings) ↔ d.reason ∈ objections ∧ Objects findings :=
  List.forall_mem_cons

@[simp] theorem objects_append :
    Objects (findings ++ others) ↔ Objects findings ∧ Objects others :=
  List.forall_mem_append

theorem Objects.flatMap {α : Type} {entries : List α}
    {f : α → List Diagnostic} (h : ∀ entry ∈ entries, Objects (f entry)) :
    Objects (entries.flatMap f) := by
  intro d hd
  obtain ⟨entry, hentry, hmem⟩ := List.mem_flatMap.mp hd
  exact h entry hentry d hmem

theorem Objects.allErrors (h : Objects findings) : AllErrors findings :=
  fun d hd => isError_of_objection (h d hd)

/-- Without an error there is no objection. -/
theorem Objects.eq_nil (h : Objects findings)
    (hquiet : hasError findings = false) : findings = [] := by
  by_contra hne
  rw [h.allErrors.hasError hne] at hquiet
  cases hquiet

end Lists

section Checks

variable {ι : Type} {H : Values ι} {R : Runtime}

/-! ## Values -/

theorem readMembers_objects {path : FieldPath}
    {members : List (JsString × Slot ι)} {d : Diagnostic}
    (h : readMembers H path members = .error d) : d.reason ∈ objections := by
  induction members with
  | nil => cases h
  | cons m rest ih =>
      unfold readMembers at h
      split at h
      · split at h
        · cases hrest : readMembers H path rest with
          | error e =>
              rw [hrest] at h
              obtain rfl := Except.error.inj h
              exact ih hrest
          | ok others =>
              rw [hrest] at h
              cases h
        · cases h
          simp [objections]
      · cases h
        simp [objections]

theorem readDocument_objects {value : ι} {path : FieldPath} {d : Diagnostic}
    (h : readDocument H value path = .error d) : d.reason ∈ objections := by
  unfold readDocument at h
  split at h
  · cases h
    simp [objections]
  · split_ifs at h
    · cases h
      simp [objections]
    · cases h
      simp [objections]
    next members _ _ _ _ =>
      cases hmembers : readMembers H path (sortByKey members) with
      | error e =>
          rw [hmembers] at h
          obtain rfl := Except.error.inj h
          exact readMembers_objects hmembers
      | ok values =>
          rw [hmembers] at h
          cases h
  · cases h
    simp [objections]

/-- All findings of a plan object to something. -/
def VisitsObject (visits : List (Visit ι)) : Prop :=
  ∀ d, .finding d ∈ visits → d.reason ∈ objections

theorem visitList_objects {entries : List (Option (Slot ι))}
    {named : List (JsString × Slot ι)} {symbols : ℕ} {path : FieldPath} :
    VisitsObject (visitList entries named symbols path) := by
  intro d hd
  unfold visitList at hd
  split_ifs at hd
  · cases List.mem_singleton.mp hd
    simp [objections]
  · obtain ⟨entry, -, heq⟩ := List.mem_map.mp hd
    split at heq
    · cases heq
    · cases heq
      simp [objections]

theorem VisitsObject.findings {visits : List (Visit ι)}
    (h : VisitsObject visits) :
    Objects (visits.filterMap Visit.finding?) := by
  intro d hd
  obtain ⟨visit, hvisit, heq⟩ := List.mem_filterMap.mp hd
  cases visit with
  | finding e =>
      obtain rfl := Option.some.inj heq
      exact h _ hvisit
  | entry value path => cases heq

theorem checkReferenceEntry_objects (value : ι) (path : FieldPath) :
    VisitsObject (checkReferenceEntry H value path) := by
  intro d hd
  unfold checkReferenceEntry at hd
  split at hd <;> simp at hd
  · rw [hd]
    simp [objections]
  · rw [hd]
    simp [objections]

theorem checkReferenceValues_objects (value : ι) (path : FieldPath) :
    VisitsObject (checkReferenceValues H value path) := by
  intro d hd
  unfold checkReferenceValues at hd
  split at hd
  · split at hd
    · cases List.mem_singleton.mp hd
      simp [objections]
    · obtain ⟨visit, hvisit, hmem⟩ := List.mem_flatMap.mp hd
      cases visit with
      | finding e =>
          cases List.mem_singleton.mp hmem
          exact visitList_objects _ hvisit
      | entry value path => exact checkReferenceEntry_objects _ _ d hmem
  · cases List.mem_singleton.mp hd

theorem checkSingleValue_objects (value : ι) (path : FieldPath) :
    VisitsObject (checkSingleValue H value path) := by
  intro d hd
  unfold checkSingleValue at hd
  split at hd
  · split at hd
    · cases List.mem_singleton.mp hd
      simp [objections]
    · dsimp only at hd
      rw [List.mem_append, List.mem_append] at hd
      rcases hd with (hd | hd) | hd
      · exact visitList_objects _ (List.mem_of_mem_filter hd)
      · split at hd
        · cases List.mem_singleton.mp hd
          simp [objections]
        · cases hd
      · obtain ⟨entry, -, hmem⟩ := List.mem_flatMap.mp hd
        exact checkReferenceEntry_objects _ _ d hmem
  · cases List.mem_singleton.mp hd

/-- A plan whose checks run at once. -/
theorem VisitsObject.run {visits : List (Visit ι)}
    {check : ι → FieldPath → List Diagnostic} (h : VisitsObject visits)
    (hcheck : ∀ value path, Objects (check value path)) :
    Objects (runVisits check visits) := by
  apply Objects.flatMap
  intro visit hvisit
  cases visit with
  | finding d => simpa [Visit.run] using h d hvisit
  | entry value path => exact hcheck value path

theorem checkReferenceText_objects (text : JsString) (path : FieldPath) :
    Objects (checkReferenceText R text path) := by
  unfold checkReferenceText
  split_ifs <;> simp [objections]

theorem checkReference_objects (value : ι) (path : FieldPath) :
    Objects (checkReference R H value path) := by
  unfold checkReference
  split
  · exact objects_nil
  · exact checkReferenceText_objects _ path
  all_goals simp [objections]

theorem checkNonNegativeInteger_objects (value : ι) (path : FieldPath) :
    Objects (checkNonNegativeInteger H value path) := by
  unfold checkNonNegativeInteger
  split
  · exact objects_nil
  · split <;> simp [objections]
  · simp [objections]

theorem checkLanguageTagText_objects (tag : JsString) (path : FieldPath) :
    Objects (checkLanguageTagText R tag path) := by
  unfold checkLanguageTagText
  split_ifs <;> simp [objections]

theorem checkLanguageTag_objects (value : ι) (path : FieldPath) :
    Objects (checkLanguageTag R H value path) := by
  unfold checkLanguageTag
  split
  · exact checkLanguageTagText_objects _ path
  · simp [objections]

theorem checkPlainText_objects (text : JsString) (path : FieldPath)
    (plain : Bool) : Objects (checkPlainText text path plain) := by
  unfold checkPlainText
  split <;> simp [objections]

theorem checkTextMembers_objects (path : FieldPath) (plain : Bool)
    (values : List (JsString × ι)) :
    Objects (checkTextMembers R H path plain values) := by
  apply Objects.flatMap
  rintro ⟨key, value⟩ -
  dsimp only
  split
  · split
    · exact checkPlainText_objects _ _ plain
    · simp [objections]
  · split
    · exact checkLanguageTag_objects value _
    · simp [objections]

theorem checkText_objects (value : ι) (path : FieldPath) (plain : Bool) :
    Objects (checkText R H value path plain) := by
  unfold checkText
  split
  · exact objects_nil
  · exact checkPlainText_objects _ path plain
  · split
    next d hread => simpa using readDocument_objects hread
    next =>
      split
      · simp [objections]
      · exact checkTextMembers_objects path plain _
  · simp [objections]

theorem checkLanguageMap_objects (value : ι) (path : FieldPath)
    (plain : Bool) : Objects (checkLanguageMap R H value path plain) := by
  unfold checkLanguageMap
  split
  · exact objects_nil
  · split
    next d hread => simpa using readDocument_objects hread
    next values hread =>
      apply Objects.flatMap
      rintro ⟨language, entry⟩ -
      dsimp only
      refine objects_append.mpr ⟨checkLanguageTagText_objects _ _, ?_⟩
      split
      · exact objects_nil
      · exact checkPlainText_objects _ _ plain
      · simp [objections]
  · simp [objections]

theorem checkDateTimeText_objects (text : JsString) (path : FieldPath) :
    Objects (checkDateTimeText R text path) := by
  unfold checkDateTimeText
  split
  · simp [objections]
  · dsimp only
    split_ifs <;> simp [objections]

theorem checkDateTime_objects (value : ι) (path : FieldPath) :
    Objects (checkDateTime R H value path) := by
  unfold checkDateTime
  split
  · exact objects_nil
  · exact checkDateTimeText_objects _ path
  · simp [objections]

theorem checkLinkRelation_objects (value : ι) (path : FieldPath) :
    Objects (checkLinkRelation R H value path) := by
  unfold checkLinkRelation
  split
  · exact objects_nil
  · split
    · simp [objections]
    · split
      · exact checkReference_objects value path
      · split <;> simp [objections]
  · simp [objections]

theorem checkLinkProperty_objects (property : JsString) (value : ι)
    (path : FieldPath) : Objects (checkLinkProperty R H property value path) := by
  unfold checkLinkProperty
  split
  · exact (checkReferenceValues_objects value path).run
      checkLinkRelation_objects
  · unfold checkLinkScalar
    split
    · exact objects_nil
    · split
      · exact checkReference_objects value path
      · split
        · split <;> simp [objections]
        · exact checkLanguageTag_objects value path
    · simp [objections]

theorem checkCommonProperty_objects {kind : Option CommonPropertyKind}
    {property : JsString} {value : ι} {path : FieldPath}
    {findings : List Diagnostic}
    (h : checkCommonProperty R H kind property value path = some findings) :
    Objects findings := by
  unfold checkCommonProperty at h
  split at h
  · obtain rfl := Option.some.inj h
    exact (checkReferenceValues_objects value path).run fun entry p =>
      checkText_objects entry p _
  · obtain rfl := Option.some.inj h
    exact checkLanguageMap_objects value path _
  · obtain rfl := Option.some.inj h
    exact (checkSingleValue_objects value path).run checkDateTime_objects
  · split at h
    · obtain rfl := Option.some.inj h
      exact checkReference_objects value path
    · obtain rfl := Option.some.inj h
      simp [objections]
  · obtain rfl := Option.some.inj h
    exact (checkSingleValue_objects value path).run
      (checkLinkProperty_objects property)
  · split at h
    · obtain rfl := Option.some.inj h
      exact objects_nil
    · cases h

/-! ## Extension values -/

theorem checkExtensionType_objects (value : ι) (path : FieldPath) :
    Objects (checkExtensionType H value path).1 := by
  unfold checkExtensionType
  split
  · exact objects_nil
  · apply Objects.flatMap
    intro visit hvisit
    cases visit with
    | finding d => simpa using visitList_objects d hvisit
    | entry entry p =>
        dsimp only
        split <;> simp [objections]
  · simp [objections]

theorem checkExtensionKeywords_objects (values : List (JsString × ι))
    (path : FieldPath) : Objects (checkExtensionKeywords H values path).1 := by
  unfold checkExtensionKeywords
  dsimp only
  refine objects_append.mpr ⟨objects_append.mpr ⟨?_, ?_⟩, ?_⟩
  · split
    · exact objects_nil
    · split <;> simp [objections]
  · split
    · exact objects_nil
    · exact checkExtensionType_objects _ _
  · split
    · split
      · exact objects_nil
      · split <;> simp [objections]
      · refine objects_append.mpr ⟨by simp [objections], ?_⟩
        split <;> simp [objections]
    · exact objects_nil

/-- All findings of a walk object to something. -/
def WalkObjects (walk : List Diagnostic × List (Item ι)) : Prop :=
  Objects walk.1 ∧ ∀ item ∈ walk.2, Objects (reportsOf item)

theorem reportsOf_reports (findings : List Diagnostic) :
    reportsOf (reports findings : Item ι) = findings := by
  unfold reportsOf reports
  rw [List.filterMap_map]
  exact List.filterMap_some

theorem checkExtension_objects (fuel : ℕ) (ancestors : List ι) (value : ι)
    (path : FieldPath) (keywords : Bool) :
    WalkObjects (checkExtension H fuel ancestors value path keywords) := by
  have hsingle : ∀ {d : Diagnostic}, d.reason ∈ objections →
      WalkObjects (([d], []) : List Diagnostic × List (Item ι)) :=
    fun hd => ⟨by simpa using hd, by simp⟩
  induction fuel generalizing ancestors value path keywords with
  | zero => exact hsingle (by simp [depthFinding, objections])
  | succ fuel ih =>
      have hchild : ∀ entry p k, ∀ item ∈
          (reports (checkExtension H fuel (value :: ancestors) entry p k).1 ::
            (checkExtension H fuel (value :: ancestors) entry p k).2 :
              List (Item ι)), Objects (reportsOf item) := by
        intro entry p k item hitem
        rcases List.mem_cons.mp hitem with rfl | hitem
        · rw [reportsOf_reports]
          exact (ih _ entry p k).1
        · exact (ih _ entry p k).2 item hitem
      unfold checkExtension
      split
      · exact hsingle (by simp [depthFinding, objections])
      · dsimp only
        split
        · exact hsingle (by simp [objections])
        · split
          · exact hsingle (by simp [cycleFinding, objections])
          · refine ⟨visitList_objects.findings, fun item hitem => ?_⟩
            obtain ⟨visit, -, hmem⟩ := List.mem_flatMap.mp hitem
            cases visit with
            | finding d => cases hmem
            | entry entry p => exact hchild entry p _ item hmem
        · split
          · exact hsingle (by simp [cycleFinding, objections])
          · split
            next d hread => exact hsingle (readDocument_objects hread)
            next values hread =>
              refine ⟨?_, fun item hitem => ?_⟩
              · dsimp only
                split
                · exact checkExtensionKeywords_objects values path
                · exact objects_nil
              · obtain ⟨entry, -, hmem⟩ := List.mem_flatMap.mp hitem
                exact hchild _ _ _ item hmem
        · exact ⟨objects_nil, by simp⟩

/-! ## Contexts -/

/-- A reading that fails only with objections. -/
def Declines {α : Type} (result : Except (Option Diagnostic) α) : Prop :=
  ∀ d, result = .error (some d) → d.reason ∈ objections

theorem Declines.bind {α β : Type} {x : Except (Option Diagnostic) α}
    {f : α → Except (Option Diagnostic) β} (hx : Declines x)
    (hf : ∀ a, Declines (f a)) : Declines (x >>= f) := by
  intro d hd
  cases x with
  | error e =>
      cases hd
      exact hx d rfl
  | ok a => exact hf a d hd

theorem declines_error {α : Type} {d : Diagnostic}
    (h : d.reason ∈ objections) :
    Declines (.error (some d) : Except (Option Diagnostic) α) := by
  rintro e ⟨⟩
  exact h

theorem declines_pending {α : Type} :
    Declines (.error none : Except (Option Diagnostic) α) := by
  rintro d ⟨⟩

theorem declines_ok {α : Type} (a : α) :
    Declines (.ok a : Except (Option Diagnostic) α) := by
  rintro d ⟨⟩

section Definitions

variable (values : List (JsString × ι)) (path : FieldPath) (terms : Terms)
  (pending : List JsString)

theorem readContainer_declines : Declines (readContainer H values path) := by
  unfold readContainer
  split
  · exact declines_ok _
  · dsimp only
    split_ifs
    · exact declines_error (by simp [objections])
    · exact declines_ok _
    · exact declines_error (by simp [objections])

theorem readPrefixFlag_declines : Declines (readPrefixFlag H values path) := by
  unfold readPrefixFlag
  split
  · exact declines_ok _
  · split
    · exact declines_ok _
    · exact declines_error (by simp [objections])

theorem readCoercion_declines :
    Declines (readCoercion R H values path terms pending) := by
  unfold readCoercion
  split
  · exact declines_ok _
  · split
    · exact declines_pending
    · split
      · exact declines_error (by simp [objections])
      · split
        · exact declines_pending
        · exact declines_ok _

theorem readDefinition_declines (implicitPrefix : Bool)
    (id : Option JsString) :
    Declines (readDefinition R H values implicitPrefix path terms pending
      id) := by
  unfold readDefinition
  split
  · exact declines_error (by simp [objections])
  · split_ifs
    · exact declines_error (by simp [objections])
    · exact declines_error (by simp [objections])
    · unfold resolveContextTerm
      split
      · exact declines_pending
      · split
        · exact declines_error (by simp [objections])
        · refine (readCoercion_declines values path terms pending).bind
            fun _ => ?_
          refine (readContainer_declines values path).bind fun _ => ?_
          refine (readPrefixFlag_declines values path).bind fun _ => ?_
          exact declines_ok _

theorem readContextTerm_declines (definition : ι) :
    Declines (readContextTerm R H definition path terms pending) := by
  unfold readContextTerm
  split
  · exact readDefinition_declines _ path terms pending _ _
  · split
    next d hread => exact declines_error (readDocument_objects hread)
    next values hread =>
      unfold readExpandedTerm
      split
      · exact declines_error (by simp [objections])
      · split
        · exact declines_error (by simp [objections])
        · exact readDefinition_declines _ path terms pending _ _
  · exact declines_error (by simp [objections])
  · exact declines_error (by simp [objections])

end Definitions

section Sweeps

variable {values : List (JsString × ι)} {path : FieldPath}
  {protectedTerms : Option Terms} {s : Sweep}

theorem Sweep.find_objects (h : Objects s.findings) {d : Diagnostic}
    (hd : d.reason ∈ objections) : Objects (s.find d).findings :=
  objects_append.mpr ⟨h, by simpa using hd⟩

theorem checkTermName_objects {isBundled : Bool} {name : JsString}
    {d : Diagnostic}
    (h : checkTermName H isBundled values path name = some (some d)) :
    d.reason ∈ objections := by
  unfold checkTermName at h
  split_ifs at h <;> cases h <;> simp [objections]

theorem sweepName_objects (h : Objects s.findings) (name : JsString) :
    Objects (sweepName R H values path protectedTerms s name).findings := by
  unfold sweepName
  dsimp only
  split
  next d hname => exact Sweep.find_objects h (checkTermName_objects hname)
  next => exact h
  next =>
    split
    · exact h
    · split
      next => exact h
      next d hread =>
        exact Sweep.find_objects h (readContextTerm_declines _ _ _ _ d hread)
      next =>
        split
        · exact Sweep.find_objects h (by simp [objections])
        · exact h

theorem sweepPending_objects (h : Objects s.findings) :
    Objects (sweepPending R H values path protectedTerms s).findings :=
  List.foldlRecOn (motive := fun s : Sweep => Objects s.findings) _ _ h
    fun _ hs name _ => sweepName_objects hs name

theorem reportUnresolved_objects (h : Objects s.findings) :
    Objects (reportUnresolved path s).findings :=
  List.foldlRecOn (motive := fun s : Sweep => Objects s.findings) _ _ h
    fun _ hs _ _ => Sweep.find_objects hs (by simp [objections])

theorem sweepAll_objects {fuel : ℕ} (h : Objects s.findings) :
    Objects (sweepAll R H values path protectedTerms fuel s).findings := by
  induction fuel generalizing s with
  | zero =>
      unfold sweepAll
      split
      · exact h
      · exact reportUnresolved_objects h
  | succ fuel ih =>
      have hswept : Objects (sweepPending R H values path
          protectedTerms s).findings := sweepPending_objects h
      unfold sweepAll
      split
      · exact h
      · dsimp only
        split
        · exact hswept
        · split
          · exact ih hswept
          · exact reportUnresolved_objects hswept

end Sweeps

end Checks

section Platform

variable {P : Platform} {ι : Type} {H : Values ι}

theorem applyContextEntry_objects (value : ι) (path : FieldPath)
    (terms : Terms) : Objects (applyContextEntry P H value path terms).1 := by
  unfold applyContextEntry
  split
  · dsimp only
    split
    · simp [objections]
    · exact objects_nil
  · split
    next d hread => simpa using readDocument_objects hread
    next => exact sweepAll_objects objects_nil
  all_goals simp [objections]

theorem applyContextList_objects {visits : List (Visit ι)}
    (hvisits : VisitsObject visits) (terms : Terms) :
    Objects (applyContextList P H visits terms).1 := by
  induction visits generalizing terms with
  | nil => exact objects_nil
  | cons visit rest ih =>
      have hrest := ih fun d hd => hvisits d (List.mem_cons_of_mem _ hd)
      cases visit with
      | finding d =>
          exact objects_cons.mpr ⟨hvisits d List.mem_cons_self, hrest terms⟩
      | entry value p =>
          exact objects_append.mpr
            ⟨applyContextEntry_objects value p terms, hrest _⟩

theorem applyContext_objects (context : ι) (path : FieldPath)
    (terms : Terms) : Objects (applyContext P H context path terms).1 := by
  unfold applyContext
  split
  · exact applyContextList_objects visitList_objects terms
  · exact applyContextEntry_objects context path terms

/-- What a walk may report. -/
def Ordinary (findings : List Diagnostic) : Prop :=
  ∀ d ∈ findings, d.reason ∈ objections ++ warnings

theorem Objects.ordinary {findings : List Diagnostic} (h : Objects findings) :
    Ordinary findings :=
  fun d hd => List.mem_append_left _ (h d hd)

theorem Ordinary.append {findings others : List Diagnostic}
    (h : Ordinary findings) (h' : Ordinary others) :
    Ordinary (findings ++ others) :=
  List.forall_mem_append.mpr ⟨h, h'⟩

/-- The findings on a context are objections, or the one assumption at the
place of the context. -/
theorem checkContext_findings (values : List (JsString × ι))
    (path : FieldPath) (inherited : Option Terms) :
    Objects (checkContext P H values path inherited).1 ∨
      ∃ message, (checkContext P H values path inherited).1 =
        [⟨.implicitActivitystreamsContext, path ++ [.key (js "@context")],
          message⟩] := by
  unfold checkContext
  dsimp only
  split
  · split
    · exact .inl objects_nil
    · exact .inr ⟨_, rfl⟩
  next context _ =>
    have happly : Objects (applyContext P H context
        (path ++ [.key (js "@context")]) (inherited.getD [])).1 :=
      applyContext_objects _ _ _
    split
    · split
      · exact .inl objects_nil
      · exact .inl (by simp [objections])
    next heq =>
      rw [heq] at happly
      exact .inl happly

theorem checkContext_ordinary (values : List (JsString × ι))
    (path : FieldPath) (inherited : Option Terms) :
    Ordinary (checkContext P H values path inherited).1 := by
  rcases checkContext_findings values path inherited with h | ⟨message, h⟩
  · exact h.ordinary
  · rw [h]
    simp [Ordinary, warnings]

theorem checkDocumentType_objects {values : List (JsString × ι)}
    {fields : List (Field ι)} {path : FieldPath} {context : Terms}
    {ds : List Diagnostic}
    (h : checkDocumentType P H values fields path context = .error ds) :
    Objects ds := by
  unfold checkDocumentType at h
  dsimp only at h
  split at h
  · cases h
    intro d hd
    obtain ⟨field, -, rfl⟩ := List.mem_map.mp hd
    simp [objections]
  · split at h
    · cases h
    next d hcheck =>
      cases h
      unfold checkType at hcheck
      dsimp only at hcheck
      split at hcheck
      · cases hcheck
      · cases hcheck
        simp only [objects_cons, objects_nil, and_true]
        split_ifs <;> simp [objections]

theorem readNode_ordinary (value : ι) (path : FieldPath)
    (inherited : Option Terms) (expected : Option (List VocabularyType)) :
    Ordinary (readNode P H value path inherited expected).1 := by
  unfold readNode
  split
  next d hread =>
    have hd : Objects [d] := by simpa using readDocument_objects hread
    exact hd.ordinary
  next values hread =>
    have hcontext := checkContext_ordinary (P := P) (H := H) values path
      inherited
    split
    next heq =>
      rw [heq] at hcontext
      exact hcontext
    next heq =>
      rw [heq] at hcontext
      dsimp only
      split
      next htype => exact hcontext.append (checkDocumentType_objects htype).ordinary
      next =>
        split
        · refine hcontext.append (Objects.ordinary ?_)
          simp [objections]
        · exact hcontext

/-! ## Fields -/

theorem checkValueRules_objects (type : VocabularyType) (key : JsString)
    (value : ι) (path : FieldPath) :
    Objects (checkValueRules P H type key value path).1 := by
  unfold checkValueRules
  dsimp only
  split
  · exact (checkSingleValue_objects value path).run
      checkNonNegativeInteger_objects
  · split
    · split
      · exact checkLinkProperty_objects key value path
      · exact (checkSingleValue_objects value path).run
          (checkLinkProperty_objects key)
    · split
      next hcommon => exact checkCommonProperty_objects hcommon
      next =>
        split
        · apply (checkReferenceValues_objects value path).run
          intro entry p
          split <;> simp [objections]
        · split
          · exact objects_nil
          · split
            · exact objects_nil
            · simp [objections]

theorem checkValueRules_visits {type : VocabularyType} {name key : JsString}
    {value : ι} {path : FieldPath} {visits : List (Visit ι)}
    {range : Option (List VocabularyType)}
    (h : (checkValueRules P H type name value path).2 =
      .references visits key range) : VisitsObject visits := by
  unfold checkValueRules at h
  dsimp only at h
  split at h
  · cases h
  · split at h
    · cases h
    · split at h
      · cases h
      · split at h
        · cases h
        · split at h
          · cases h
            exact checkSingleValue_objects value path
          · split at h
            · cases h
              exact checkReferenceValues_objects value path
            · cases h

/-- Objections, or one warning about the place itself. -/
def Remarks (path : FieldPath) (findings : List Diagnostic) : Prop :=
  Objects findings ∨ ∃ reason message, findings = [⟨reason, path, message⟩] ∧
    reason ∈ warnings

theorem Remarks.ordinary {path : FieldPath} {findings : List Diagnostic}
    (h : Remarks path findings) : Ordinary findings := by
  rcases h with h | ⟨reason, message, rfl, hreason⟩
  · exact h.ordinary
  · intro d hd
    rw [List.mem_singleton.mp hd]
    exact List.mem_append_right _ hreason

/-- An omission warns about its field alone, or objects to its entries. -/
theorem proposePropertyOmission_findings {value : ι} {path : FieldPath}
    {identifier : Bool} {findings : List Diagnostic}
    {change : Option (NormalizationChange ι)}
    (h : proposePropertyOmission H value path identifier =
      some (findings, change)) :
    Remarks path findings := by
  unfold proposePropertyOmission at h
  dsimp only at h
  split at h
  · split at h
    · cases h
      exact .inr ⟨_, _, rfl, by simp [warnings]⟩
    · cases h
  · split at h
    · cases h
    · split at h
      · cases h
        exact .inl visitList_objects.findings
      · split at h
        · cases h
        · cases h
          refine .inr ⟨_, _, rfl, ?_⟩
          split <;> simp [warnings]
  · cases h

theorem reportsOf_changes (changes : List (NormalizationChange ι)) :
    reportsOf (changes.map Event.change) = [] := by
  unfold reportsOf
  rw [List.filterMap_map]
  exact List.filterMap_eq_nil_iff.mpr fun _ _ => rfl

/-- The finding that several spellings supply one functional property. -/
def aliasFinding (path : FieldPath) : Diagnostic :=
  ⟨.invalidMultiplicity, path,
    "Multiple aliases supply values for one functional property."⟩

/-- The other spellings of a property decide only whether the check of a field
begins with the finding on them. -/
theorem checkField_cases (type : VocabularyType) (path : FieldPath)
    (field : Field ι) :
    ∃ shown rest follow, (∀ multipleAliases,
        checkField P H type multipleAliases path field =
          ((if shown && multipleAliases.contains field.source then
            [.report (aliasFinding (path ++ [.key field.source]))]
          else []) ++ rest, follow)) ∧
      Remarks (path ++ [.key field.source]) (reportsOf rest) := by
  unfold checkField
  dsimp only
  split
  · split
    · exact ⟨false, _, _, fun _ => rfl, .inr ⟨_, _, rfl, by simp [warnings]⟩⟩
    · exact ⟨false, _, _, fun _ => rfl,
        .inl (by simp [reportsOf, objections])⟩
  next key hname =>
    unfold checkNamedField
    split
    · exact ⟨false, _, _, fun _ => rfl,
        .inl (by simp [reportsOf, objections])⟩
    · split
      · split
        · exact ⟨false, [], _, fun _ => rfl, .inl objects_nil⟩
        · exact ⟨false, _, _, fun _ => rfl,
            .inl (by simp [reportsOf, objections])⟩
      · dsimp only
        split
        next findings change homission =>
          refine ⟨true, reports findings ++ change.toList.map .change,
            .nothing, fun multipleAliases => ?_, ?_⟩
          · rw [← List.append_assoc]
            rfl
          · rw [reportsOf_append, reportsOf_reports, reportsOf_changes,
              List.append_nil]
            split at homission
            · exact proposePropertyOmission_findings homission
            · cases homission
        next =>
          refine ⟨true, _, _, fun multipleAliases => rfl, .inl ?_⟩
          rw [reportsOf_reports]
          exact checkValueRules_objects type key field.value _

theorem checkField_ordinary (type : VocabularyType)
    (multipleAliases : List JsString) (path : FieldPath) (field : Field ι) :
    Ordinary (reportsOf
      (checkField P H type multipleAliases path field).1) := by
  obtain ⟨shown, rest, follow, heq, hrest⟩ :=
    checkField_cases (P := P) (H := H) type path field
  rw [heq, reportsOf_append]
  refine Ordinary.append ?_ hrest.ordinary
  split <;> simp [Ordinary, reportsOf, aliasFinding, objections]

/-! ## Walks -/

/-- All items of a walk report what a walk may report. -/
def WalkOrdinary (walk : Item ι × List (Item ι)) : Prop :=
  Ordinary (reportsOf walk.1) ∧ ∀ item ∈ walk.2, Ordinary (reportsOf item)

theorem checkEmbeddedFedifyRange_objects {R : Runtime} (type : VocabularyType)
    (expected : Option (List VocabularyType)) (path : FieldPath) :
    Objects (checkEmbeddedFedifyRange R type expected path) := by
  unfold checkEmbeddedFedifyRange
  split
  · exact objects_nil
  · split <;> simp [objections]

theorem visitItems_ordinary
    {embedded : ι → FieldPath → Option (List VocabularyType) → JsString →
      Item ι × List (Item ι)}
    (hembedded : ∀ entry p range key, WalkOrdinary (embedded entry p range key))
    (key : JsString) (range : Option (List VocabularyType))
    {visit : Visit ι} (hvisit : ∀ d, visit = .finding d →
      d.reason ∈ objections) {item : Item ι}
    (hitem : item ∈ visitItems P H embedded key range visit) :
    Ordinary (reportsOf item) := by
  unfold visitItems at hitem
  split at hitem
  next d =>
    rw [List.mem_singleton.mp hitem]
    apply Objects.ordinary
    simpa [reportsOf] using hvisit d rfl
  next entry p =>
    split at hitem
    · rcases List.mem_cons.mp hitem with rfl | hitem
      · exact (hembedded entry p range key).1
      · exact (hembedded entry p range key).2 item hitem
    · rw [List.mem_singleton.mp hitem, reportsOf_reports]
      exact (checkReference_objects entry p).ordinary

theorem fieldItems_ordinary
    {embedded : ι → FieldPath → Option (List VocabularyType) → JsString →
      Item ι × List (Item ι)}
    {extension : ι → FieldPath → List Diagnostic × List (Item ι)}
    (hembedded : ∀ entry p range key, WalkOrdinary (embedded entry p range key))
    (hextension : ∀ entry p, WalkObjects (extension entry p))
    {checked : Item ι × FollowUp ι} (hchecked : Ordinary (reportsOf checked.1))
    (hvisits : ∀ visits key range, checked.2 = .references visits key range →
      VisitsObject visits) {item : Item ι}
    (hitem : item ∈ fieldItems P H embedded extension checked) :
    Ordinary (reportsOf item) := by
  unfold fieldItems at hitem
  split at hitem
  · rw [List.mem_singleton.mp hitem]
    exact hchecked
  next entry p _ =>
    rcases List.mem_cons.mp hitem with rfl | hitem
    · rw [reportsOf_append, reportsOf_reports]
      exact hchecked.append (hextension entry p).1.ordinary
    · exact ((hextension entry p).2 item hitem).ordinary
  next visits key range hfollow =>
    rcases List.mem_cons.mp hitem with rfl | hitem
    · exact hchecked
    · obtain ⟨visit, hvisit, hmem⟩ := List.mem_flatMap.mp hitem
      refine visitItems_ordinary hembedded key range ?_ hmem
      rintro d rfl
      exact hvisits visits key range hfollow d hvisit

theorem check_visits {node : Node ι} {field : Field ι}
    {visits : List (Visit ι)} {key : JsString}
    {range : Option (List VocabularyType)}
    (h : (node.check P H field).2 = .references visits key range) :
    VisitsObject visits := by
  unfold Node.check checkField at h
  dsimp only at h
  split at h
  · split at h <;> cases h
  · unfold checkNamedField at h
    split at h
    · cases h
    · split at h
      · split at h <;> cases h
      · dsimp only at h
        split at h
        · cases h
        · exact checkValueRules_visits h

theorem checkDocument_ordinary (fuel : ℕ) (ancestors : List ι) (value : ι)
    (path : FieldPath) (inherited : Option Terms)
    (expected fedify : Option (List VocabularyType)) :
    WalkOrdinary (checkDocument P H fuel ancestors value path inherited
      expected fedify) := by
  have hstop : ∀ {d : Diagnostic}, d.reason ∈ objections →
      WalkOrdinary (([.report d, .unavailable path], []) :
        Item ι × List (Item ι)) := fun hd =>
    ⟨Objects.ordinary (by simpa [reportsOf] using hd), by simp⟩
  induction fuel generalizing ancestors value path inherited expected fedify with
  | zero => exact hstop (by simp [depthFinding, objections])
  | succ fuel ih =>
      have hread := readNode_ordinary (P := P) (H := H) value path inherited
        expected
      unfold checkDocument
      split
      · exact hstop (by simp [depthFinding, objections])
      · split
        · exact hstop (by simp [cycleFinding, objections])
        · split
          next heq =>
            rw [heq] at hread
            refine ⟨?_, by simp⟩
            rw [reportsOf_append, reportsOf_reports]
            exact hread.append (by simp [Ordinary, reportsOf])
          next node heq =>
            rw [heq] at hread
            refine ⟨?_, fun item hitem => ?_⟩
            · simp only [reportsOf_append, reportsOf_reports]
              refine (hread.append ?_).append (by simp [Ordinary, reportsOf])
              exact (checkEmbeddedFedifyRange_objects _ _ path).ordinary
            · obtain ⟨field, -, hmem⟩ := List.mem_flatMap.mp hitem
              refine fieldItems_ordinary ?_ ?_
                (checkField_ordinary _ _ _ field) ?_ hmem
              · exact fun entry p range key => ih _ _ _ _ _ _ fun hd =>
                  ⟨Objects.ordinary (by simpa [reportsOf] using hd), by simp⟩
              · exact fun entry p => checkExtension_objects fuel _ _ p true
              · exact fun visits key range => check_visits

variable (P H) in
/-- Everything that the walk over a value finds. -/
def walkFindings (value : ι) : List Diagnostic :=
  reportsOf (walkEvents
    (checkDocument P H walkFuel [] value [] none none none))

theorem ordinary_walkFindings (value : ι) :
    Ordinary (walkFindings P H value) := by
  have hwalk := checkDocument_ordinary (P := P) (H := H) walkFuel [] value []
    none none none
  unfold walkFindings walkEvents
  rw [reportsOf_append]
  refine hwalk.1.append ?_
  intro d hd
  rw [mem_reportsOf, List.mem_flatten] at hd
  obtain ⟨item, hitem, hmem⟩ := hd
  exact hwalk.2 item hitem d (mem_reportsOf.mpr hmem)

end Platform

end DrFed.Document
