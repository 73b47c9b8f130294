import Mathlib.Logic.Relation
import DrFed.Document.Reading

/-!
# Accepted walks

What an accepted walk over a JSON tree has seen.  Every document that
vocabulary properties reach from the root was read and visited, every field of
such a document passed its checks, and the proposed changes are those of these
fields.
-/

namespace DrFed.Document

/-! ## Events of a run -/

section Events

variable {ι : Type}

def reportsOf (events : Item ι) : List Diagnostic :=
  events.filterMap fun
    | .report d => some d
    | _ => none

def changesOf (events : Item ι) : List (NormalizationChange ι) :=
  events.filterMap fun
    | .change change => some change
    | _ => none

def visitsOf (events : Item ι) : List (Node ι) :=
  events.filterMap fun
    | .visit node => some node
    | _ => none

def unavailableOf (events : Item ι) : List FieldPath :=
  events.filterMap fun
    | .unavailable path => some path
    | _ => none

@[simp] theorem mem_reportsOf {events : Item ι} {d : Diagnostic} :
    d ∈ reportsOf events ↔ .report d ∈ events := by
  simp only [reportsOf, List.mem_filterMap]
  constructor
  · rintro ⟨event, hmem, heq⟩
    cases event <;> simp_all
  · exact fun hmem => ⟨_, hmem, rfl⟩

@[simp] theorem mem_changesOf {events : Item ι}
    {change : NormalizationChange ι} :
    change ∈ changesOf events ↔ .change change ∈ events := by
  simp only [changesOf, List.mem_filterMap]
  constructor
  · rintro ⟨event, hmem, heq⟩
    cases event <;> simp_all
  · exact fun hmem => ⟨_, hmem, rfl⟩

@[simp] theorem mem_visitsOf {events : Item ι} {node : Node ι} :
    node ∈ visitsOf events ↔ .visit node ∈ events := by
  simp only [visitsOf, List.mem_filterMap]
  constructor
  · rintro ⟨event, hmem, heq⟩
    cases event <;> simp_all
  · exact fun hmem => ⟨_, hmem, rfl⟩

@[simp] theorem mem_unavailableOf {events : Item ι} {path : FieldPath} :
    path ∈ unavailableOf events ↔ .unavailable path ∈ events := by
  simp only [unavailableOf, List.mem_filterMap]
  constructor
  · rintro ⟨event, hmem, heq⟩
    cases event <;> simp_all
  · exact fun hmem => ⟨_, hmem, rfl⟩

@[simp] theorem mem_reports {findings : List Diagnostic} {event : Event ι} :
    event ∈ (reports findings : Item ι) ↔
      ∃ d ∈ findings, .report d = event := by
  simp [reports]

/-- The events report no error. -/
def Quiet (events : Item ι) : Prop :=
  ∀ d, .report d ∈ events → d.isError = false

theorem quiet_iff {events : Item ι} :
    Quiet events ↔ hasError (reportsOf events) = false := by
  simp [Quiet, hasError]

theorem Quiet.of_subset {events others : Item ι} (h : Quiet events)
    (hsub : ∀ event ∈ others, event ∈ events) : Quiet others :=
  fun d hd => h d (hsub _ hd)

@[simp] theorem quiet_reports {findings : List Diagnostic} :
    Quiet (reports findings : Item ι) ↔ hasError findings = false := by
  simp [Quiet, hasError]

theorem WalkState.runItem_eq (s : WalkState ι) (events : Item ι) :
    s.runItem events =
      { reporter := s.reporter.reportAll (reportsOf events)
        changes := s.changes ++ changesOf events
        visited := s.visited ++ visitsOf events
        unavailable := s.unavailable ++ unavailableOf events } := by
  induction events generalizing s with
  | nil =>
      simp [WalkState.runItem, reportsOf, changesOf, visitsOf, unavailableOf,
        Reporter.reportAll]
  | cons event rest ih =>
      have hstep : s.runItem (event :: rest) = (s.apply event).runItem rest :=
        rfl
      rw [hstep, ih]
      cases event <;>
        simp [WalkState.apply, reportsOf, changesOf, visitsOf, unavailableOf,
          Reporter.reportAll]

theorem WalkState.runItem_append (s : WalkState ι) (events others : Item ι) :
    s.runItem (events ++ others) = (s.runItem events).runItem others :=
  List.foldl_append

/-- A run that ends accepted was not cut off. -/
theorem WalkState.runItems_of_accepts {s : WalkState ι}
    (hs : s.reporter.Sound) {items : List (Item ι)}
    (haccepts : (s.runItems items).reporter.accepts = true) :
    s.runItems items = s.runItem items.flatten := by
  induction items generalizing s with
  | nil => rfl
  | cons item rest ih =>
      rw [WalkState.runItems] at haccepts ⊢
      split at haccepts
      next htruncated =>
        have herror := hs.truncated htruncated
        rw [hs.accepts_iff, herror] at haccepts
        contradiction
      next htruncated =>
        rw [if_neg htruncated, List.flatten_cons, WalkState.runItem_append]
        refine ih ?_ haccepts
        rw [WalkState.runItem_eq]
        exact hs.reportAll _

end Events

/-! ## Embedded documents -/

section Platform

variable (P : Platform)

/-- The document that an entry of a reference property holds. -/
def Embedded (parent child : Node Json) : Prop :=
  ∃ field ∈ parent.checkedFields, ∃ visits key range,
    (parent.check P Json.tree field).2 = .references visits key range ∧
      ∃ entry path findings, .entry entry path ∈ visits ∧
        isRecord Json.tree entry = true ∧
        readNode P Json.tree entry path (some parent.context) range =
          (findings, some child)

/-- Documents reached through vocabulary properties. -/
abbrev Reaches : Node Json → Node Json → Prop :=
  Relation.ReflTransGen (Embedded P)

/-- What an accepted walk established about an entry. -/
def EntryAccepted (node : Node Json) (range : Option (List VocabularyType))
    (entry : Json) (path : FieldPath) : Prop :=
  if isRecord Json.tree entry then
    ∃ findings child,
      readNode P Json.tree entry path (some node.context) range =
        (findings, some child)
  else hasError (checkReference P.toRuntime Json.tree entry path) = false

/-- What an accepted walk established about a field. -/
structure FieldAccepted (node : Node Json) (field : Field Json) : Prop where
  quiet : Quiet (node.check P Json.tree field).1
  findings : ∀ visits key range,
    (node.check P Json.tree field).2 = .references visits key range →
      ∀ d, .finding d ∈ visits → d.isError = false
  entries : ∀ visits key range,
    (node.check P Json.tree field).2 = .references visits key range →
      ∀ entry path, .entry entry path ∈ visits →
        EntryAccepted P node range entry path

def NodeAccepted (node : Node Json) : Prop :=
  ∀ field ∈ node.checkedFields, FieldAccepted P node field

/-! ## The events of one field -/

theorem check_events {node : Node Json} {field : Field Json}
    {event : Event Json} (h : event ∈ (node.check P Json.tree field).1) :
    (∃ d, event = .report d) ∨ ∃ change, event = .change change := by
  unfold Node.check checkField at h
  split at h
  · split at h <;> simp at h <;> exact .inl ⟨_, h⟩
  · unfold checkNamedField at h
    split at h
    · simp at h
      exact .inl ⟨_, h⟩
    · split at h
      · split at h <;> simp at h
        exact .inl ⟨_, h⟩
      · dsimp only at h
        split at h
        · rcases List.mem_append.mp h with h | h
          · rcases List.mem_append.mp h with h | h
            · split at h <;> simp at h
              exact .inl ⟨_, h⟩
            · obtain ⟨d, -, rfl⟩ := mem_reports.mp h
              exact .inl ⟨_, rfl⟩
          · obtain ⟨change, -, rfl⟩ := List.mem_map.mp h
            exact .inr ⟨_, rfl⟩
        · rcases List.mem_append.mp h with h | h
          · split at h <;> simp at h
            exact .inl ⟨_, h⟩
          · obtain ⟨d, -, rfl⟩ := mem_reports.mp h
            exact .inl ⟨_, rfl⟩

theorem checkExtension_events {fuel : ℕ} {ancestors : List Json} {value : Json}
    {path : FieldPath} {keywords : Bool} {item : Item Json}
    (hitem : item ∈
      (checkExtension Json.tree fuel ancestors value path keywords).2)
    {event : Event Json} (h : event ∈ item) : ∃ d, event = .report d := by
  induction fuel generalizing ancestors value path keywords item with
  | zero => simp [checkExtension] at hitem
  | succ fuel ih =>
      have hchild : ∀ (entry : Json) (p : FieldPath) (k : Bool),
          item ∈ (reports (checkExtension Json.tree fuel (value :: ancestors)
              entry p k).1 : Item Json) ::
            (checkExtension Json.tree fuel (value :: ancestors) entry p k).2 →
          ∃ d, event = .report d := by
        intro entry p k hmem
        rcases List.mem_cons.mp hmem with rfl | hmem
        · obtain ⟨d, -, rfl⟩ := mem_reports.mp h
          exact ⟨d, rfl⟩
        · exact ih hmem h
      rw [checkExtension] at hitem
      split at hitem
      · simp at hitem
      · dsimp only at hitem
        split at hitem
        · simp at hitem
        · split at hitem
          · simp at hitem
          · obtain ⟨visit, -, hmem⟩ := List.mem_flatMap.mp hitem
            cases visit with
            | finding d => simp at hmem
            | entry entry p => exact hchild _ _ _ hmem
        · split at hitem
          · simp at hitem
          · split at hitem
            · simp at hitem
            · obtain ⟨entry, -, hmem⟩ := List.mem_flatMap.mp hitem
              exact hchild _ _ _ hmem
        · simp at hitem

/-! ## The events of a walk -/

/-- All events of a walk, in order. -/
def walkEvents {ι : Type} (walk : Item ι × List (Item ι)) : Item ι :=
  walk.1 ++ walk.2.flatten

theorem mem_walkEvents {ι : Type} {walk : Item ι × List (Item ι)}
    {event : Event ι} :
    event ∈ walkEvents walk ↔
      event ∈ walk.1 ∨ ∃ item ∈ walk.2, event ∈ item := by
  simp [walkEvents]

section Items

variable {embedded : Json → FieldPath → Option (List VocabularyType) →
    JsString → Item Json × List (Item Json)}
  {key : JsString} {range : Option (List VocabularyType)} {event : Event Json}

theorem mem_visitItems_finding {d : Diagnostic} :
    (∃ item ∈ visitItems P Json.tree embedded key range (.finding d),
        event ∈ item) ↔ event = .report d := by
  simp [visitItems]

theorem mem_visitItems_entry {entry : Json} {path : FieldPath} :
    (∃ item ∈ visitItems P Json.tree embedded key range (.entry entry path),
        event ∈ item) ↔
      if isRecord Json.tree entry then
        event ∈ walkEvents (embedded entry path range key)
      else event ∈ (reports
        (checkReference P.toRuntime Json.tree entry path) : Item Json) := by
  by_cases hrecord : isRecord Json.tree entry = true
  · simp [visitItems, hrecord, mem_walkEvents]
  · simp [visitItems, hrecord]

/-- The events of a field are its own, those of the extension value it holds,
and those of the entries of a reference property. -/
theorem mem_fieldItems
    {extension : Json → FieldPath → List Diagnostic × List (Item Json)}
    {checked : Item Json × FollowUp Json} :
    (∃ item ∈ fieldItems P Json.tree embedded extension checked,
        event ∈ item) ↔
      event ∈ checked.1 ∨
      (∃ entry path, checked.2 = .extension entry path ∧
        (event ∈ (reports (extension entry path).1 : Item Json) ∨
          ∃ item ∈ (extension entry path).2, event ∈ item)) ∨
      ∃ visits key range, checked.2 = .references visits key range ∧
        ∃ visit ∈ visits, ∃ item ∈ visitItems P Json.tree embedded key range
          visit, event ∈ item := by
  obtain ⟨events, followUp⟩ := checked
  cases followUp with
  | nothing => simp [fieldItems]
  | extension entry path => simp [fieldItems, or_assoc]
  | references visits key range =>
      simp only [fieldItems, List.mem_cons, exists_eq_or_imp, List.mem_flatMap,
        reduceCtorEq, false_and, exists_false, false_or,
        FollowUp.references.injEq]
      refine or_congr_right ⟨?_, ?_⟩
      · rintro ⟨item, ⟨visit, hvisit, hitem⟩, hevent⟩
        exact ⟨_, _, _, ⟨rfl, rfl, rfl⟩, visit, hvisit, item, hitem, hevent⟩
      · rintro ⟨_, _, _, ⟨rfl, rfl, rfl⟩, visit, hvisit, item, hitem, hevent⟩
        exact ⟨item, ⟨visit, hvisit, hitem⟩, hevent⟩

end Items

/-! ## Findings that stop a document -/

/-- A definition that is refused is refused with an error. -/
def Refuses {α : Type} (result : Except (Option Diagnostic) α) : Prop :=
  ∀ d, result = .error (some d) → d.isError = true

theorem Refuses.bind {α β : Type} {x : Except (Option Diagnostic) α}
    {f : α → Except (Option Diagnostic) β} (hx : Refuses x)
    (hf : ∀ a, Refuses (f a)) : Refuses (x >>= f) := by
  intro d hd
  cases x with
  | error e =>
      cases hd
      exact hx d rfl
  | ok a => exact hf a d hd

section Definitions

variable {ι : Type} {H : Values ι} (R : Runtime)
  (values : List (JsString × ι)) (path : FieldPath) (terms : Terms)
  (pending : List JsString)

omit R values terms pending in
theorem readMembers_error {members : List (JsString × Slot ι)}
    {d : Diagnostic} (h : readMembers H path members = .error d) :
    d.isError = true := by
  induction members with
  | nil => cases h
  | cons m rest ih =>
      unfold readMembers at h
      split at h
      · split at h
        · cases hrest : readMembers H path rest with
          | error e =>
              rw [hrest] at h
              obtain rfl := Except.error.inj h
              exact ih hrest
          | ok others =>
              rw [hrest] at h
              cases h
        · cases h
          rfl
      · cases h
        rfl

omit R values terms pending in
theorem readDocument_error {value : ι} {d : Diagnostic}
    (h : readDocument H value path = .error d) : d.isError = true := by
  unfold readDocument at h
  split at h
  · cases h
    rfl
  · split_ifs at h
    · cases h
      rfl
    · cases h
      rfl
    next members _ _ _ _ =>
      cases hmembers : readMembers H path (sortByKey members) with
      | error e =>
          rw [hmembers] at h
          obtain rfl := Except.error.inj h
          exact readMembers_error path hmembers
      | ok values =>
          rw [hmembers] at h
          cases h
  · cases h
    rfl

omit R values terms pending in
theorem visitList_error {entries : List (Option (Slot ι))}
    {named : List (JsString × Slot ι)} {symbols : ℕ} {d : Diagnostic}
    (h : .finding d ∈ visitList entries named symbols path) :
    d.isError = true := by
  unfold visitList at h
  split_ifs at h
  · cases List.mem_singleton.mp h
    rfl
  · obtain ⟨entry, -, heq⟩ := List.mem_map.mp h
    split at heq
    · cases heq
    · cases heq
      rfl

theorem readContainer_refuses :
    Refuses (readContainer H values path) := by
  intro d hd
  unfold readContainer at hd
  split at hd
  · cases hd
  · dsimp only at hd
    split at hd
    · cases hd
      rfl
    · split at hd
      · cases hd
      · cases hd
        rfl

theorem readPrefixFlag_refuses :
    Refuses (readPrefixFlag H values path) := by
  intro d hd
  unfold readPrefixFlag at hd
  split at hd
  · cases hd
  · split at hd
    · cases hd
    · cases hd
      rfl

theorem readCoercion_refuses :
    Refuses (readCoercion R H values path terms pending) := by
  intro d hd
  unfold readCoercion at hd
  split at hd
  · cases hd
  · split at hd
    · cases hd
    · split at hd
      · cases hd
        rfl
      · split at hd <;> cases hd

theorem resolveContextTerm_refuses (id : JsString) (implicitPrefix : Bool) :
    Refuses (resolveContextTerm R H id values implicitPrefix path
      terms pending) := by
  unfold resolveContextTerm
  split
  · intro d hd
    cases hd
  · split
    · intro d hd
      cases hd
      rfl
    · refine (readCoercion_refuses R values path terms pending).bind fun _ => ?_
      refine (readContainer_refuses values path).bind fun _ => ?_
      refine (readPrefixFlag_refuses values path).bind fun _ => ?_
      intro d hd
      cases hd

theorem readDefinition_refuses (implicitPrefix : Bool)
    (id : Option JsString) :
    Refuses (readDefinition R H values implicitPrefix path terms
      pending id) := by
  unfold readDefinition
  split
  · intro d hd
    cases hd
    rfl
  · split
    · intro d hd
      cases hd
      rfl
    · split
      · intro d hd
        cases hd
        rfl
      · exact resolveContextTerm_refuses R values path terms pending _ _

theorem readContextTerm_refuses (definition : ι) :
    Refuses (readContextTerm R H definition path terms pending) := by
  unfold readContextTerm
  split
  · exact readDefinition_refuses R _ path terms pending _ _
  · split
    next d hread =>
      intro e he
      cases he
      exact readDocument_error path hread
    next values hread =>
      unfold readExpandedTerm
      split
      · intro d hd
        cases hd
        rfl
      · split
        · intro d hd
          cases hd
          rfl
        · exact readDefinition_refuses R _ path terms pending _ _
  · intro d hd
    cases hd
    rfl
  · intro d hd
    cases hd
    rfl

end Definitions

/-- All findings are errors. -/
def AllErrors (findings : List Diagnostic) : Prop :=
  ∀ d ∈ findings, d.isError = true

theorem AllErrors.hasError {findings : List Diagnostic}
    (h : AllErrors findings) (hne : findings ≠ []) :
    hasError findings = true := by
  obtain ⟨d, rest, rfl⟩ := List.exists_cons_of_ne_nil hne
  simp [h d List.mem_cons_self]

theorem AllErrors.append {xs ys : List Diagnostic} (hx : AllErrors xs)
    (hy : AllErrors ys) : AllErrors (xs ++ ys) := by
  intro d hd
  exact (List.mem_append.mp hd).elim (hx d) (hy d)

section Sweeps

variable {ι : Type} {H : Values ι} (R : Runtime)
  {values : List (JsString × ι)} {path : FieldPath}
  {protectedTerms : Option Terms}

theorem Sweep.find_allErrors {s : Sweep} (h : AllErrors s.findings)
    {d : Diagnostic} (hd : d.isError = true) :
    AllErrors (s.find d).findings := by
  refine h.append ?_
  intro e he
  rw [List.mem_singleton.mp he]
  exact hd

theorem checkTermName_error {isBundled : Bool} {name : JsString}
    {d : Diagnostic}
    (h : checkTermName H isBundled values path name = some (some d)) :
    d.isError = true := by
  unfold checkTermName at h
  split at h
  · cases h
    rfl
  · split at h
    · cases h
      rfl
    · split at h
      · split at h
        · cases h
        · cases h
          rfl
      · cases h

theorem sweepName_allErrors {s : Sweep} (h : AllErrors s.findings)
    (name : JsString) :
    AllErrors
      (sweepName R H values path protectedTerms s name).findings := by
  unfold sweepName
  dsimp only
  split
  next d hname => exact Sweep.find_allErrors h (checkTermName_error hname)
  next => exact h
  next =>
    split
    · exact h
    · split
      next => exact h
      next d hread =>
        exact Sweep.find_allErrors h
          (readContextTerm_refuses R _ _ _ _ d hread)
      next =>
        split
        · exact Sweep.find_allErrors h rfl
        · exact h

theorem sweepPending_allErrors {s : Sweep} (h : AllErrors s.findings) :
    AllErrors
      (sweepPending R H values path protectedTerms s).findings := by
  unfold sweepPending
  exact List.foldlRecOn (motive := fun s : Sweep => AllErrors s.findings) _ _ h
    fun s hs name _ => sweepName_allErrors R hs name

theorem reportUnresolved_allErrors {s : Sweep} (h : AllErrors s.findings) :
    AllErrors (reportUnresolved path s).findings := by
  unfold reportUnresolved
  exact List.foldlRecOn (motive := fun s : Sweep => AllErrors s.findings) _ _ h
    fun s hs name _ => Sweep.find_allErrors hs rfl

theorem sweepAll_allErrors {fuel : ℕ} {s : Sweep}
    (h : AllErrors s.findings) :
    AllErrors
      (sweepAll R H values path protectedTerms fuel s).findings := by
  induction fuel generalizing s with
  | zero =>
      unfold sweepAll
      split
      · exact h
      · exact reportUnresolved_allErrors h
  | succ fuel ih =>
      have hswept : AllErrors (sweepPending R H values path
          protectedTerms s).findings := sweepPending_allErrors R h
      unfold sweepAll
      split
      · exact h
      · dsimp only
        split
        · exact hswept
        · split
          · exact ih hswept
          · exact reportUnresolved_allErrors hswept

theorem applyContextTerms_allErrors (terms : Terms) :
    AllErrors (applyContextTerms R H values path terms
      protectedTerms).1 :=
  sweepAll_allErrors R (by simp [AllErrors])

end Sweeps

section Values

variable {ι : Type} {H : Values ι}

theorem applyContextEntry_allErrors (value : ι) (path : FieldPath)
    (terms : Terms) :
    AllErrors (applyContextEntry P H value path terms).1 := by
  have hsingle : ∀ {d : Diagnostic}, d.isError = true → AllErrors [d] := by
    intro d hd e he
    rw [List.mem_singleton.mp he]
    exact hd
  have hnone : AllErrors [] := fun _ h => nomatch h
  unfold applyContextEntry
  split
  · dsimp only
    split
    · exact hsingle rfl
    · exact hnone
  · split
    next d hread => exact hsingle (readDocument_error path hread)
    next => exact applyContextTerms_allErrors _ _
  · exact hsingle rfl
  · exact hsingle rfl
  · exact hsingle rfl

theorem applyContextList_allErrors {visits : List (Visit ι)}
    (hvisits : ∀ d, .finding d ∈ visits → d.isError = true) (terms : Terms) :
    AllErrors (applyContextList P H visits terms).1 := by
  induction visits generalizing terms with
  | nil => exact fun _ h => nomatch h
  | cons visit rest ih =>
      have hrest := ih fun d hd => hvisits d (List.mem_cons_of_mem _ hd)
      cases visit with
      | finding d =>
          intro e he
          rcases List.mem_cons.mp he with rfl | he
          · exact hvisits _ List.mem_cons_self
          · exact hrest terms e he
      | entry value path =>
          exact (applyContextEntry_allErrors P value path terms).append
            (hrest _)

theorem applyContext_allErrors (context : ι) (path : FieldPath)
    (terms : Terms) :
    AllErrors (applyContext P H context path terms).1 := by
  unfold applyContext
  split
  · exact applyContextList_allErrors P
      (fun d hd => visitList_error path hd) terms
  · exact applyContextEntry_allErrors P _ path terms

/-- A context that is not understood is reported as an error. -/
theorem checkContext_none {values : List (JsString × ι)} {path : FieldPath}
    {inherited : Option Terms} {findings : List Diagnostic}
    (h : checkContext P H values path inherited = (findings, none)) :
    hasError findings = true := by
  unfold checkContext at h
  dsimp only at h
  split at h
  · split at h <;> cases h
  next context _ =>
    have herrors := applyContext_allErrors (H := H) P context
      (path ++ [.key (js "@context")]) (inherited.getD [])
    split at h
    · split at h
      · cases h
      · cases h
        rfl
    next hne heq =>
      rw [heq] at herrors
      obtain ⟨rfl, -⟩ := Prod.mk.inj h
      exact herrors.hasError hne

theorem checkDocumentType_error {values : List (JsString × ι)}
    {fields : List (Field ι)} {path : FieldPath} {context : Terms}
    {ds : List Diagnostic}
    (h : checkDocumentType P H values fields path context =
      .error ds) : hasError ds = true := by
  unfold checkDocumentType at h
  dsimp only at h
  split at h
  next hlength =>
    cases h
    obtain ⟨field, rest, heq⟩ := List.exists_cons_of_length_pos
      (Nat.lt_trans Nat.zero_lt_one hlength)
    rw [heq]
    rfl
  next =>
    split at h
    · cases h
    next d hcheck =>
      cases h
      unfold checkType at hcheck
      dsimp only at hcheck
      split at hcheck
      · cases hcheck
      · cases hcheck
        simp only [hasError_cons, hasError_nil, Bool.or_false]
        split
        · rfl
        · split <;> rfl

theorem readNode_none {value : ι} {path : FieldPath}
    {inherited : Option Terms} {expected : Option (List VocabularyType)}
    {findings : List Diagnostic}
    (h : readNode P H value path inherited expected =
      (findings, none)) : hasError findings = true := by
  unfold readNode at h
  split at h
  next d hread =>
    cases h
    simp [readDocument_error path hread]
  next values hread =>
    split at h
    next hcontext =>
      cases h
      exact checkContext_none P hcontext
    next findings context hcontext =>
      dsimp only at h
      split at h
      next ds htype =>
        cases h
        simp [checkDocumentType_error P htype]
      next type htype =>
        split at h
        · cases h
          simp only [hasError_append, Bool.or_eq_true]
          exact .inr rfl
        · cases h

end Values

/-! ## The main theorem on accepted walks -/

/-- What the events of an accepted walk from `root` are. -/
structure WalkAccepted (root : Node Json) (events : Item Json) : Prop where
  visits : ∀ node, .visit node ∈ events ↔ Reaches P root node
  accepted : ∀ node, Reaches P root node → NodeAccepted P node
  changes : ∀ change, .change change ∈ events ↔
    ∃ node, Reaches P root node ∧ ∃ field ∈ node.checkedFields,
      .change change ∈ (node.check P Json.tree field).1
  available : ∀ path, .unavailable path ∉ events

theorem reaches_iff {root node : Node Json} :
    Reaches P root node ↔
      root = node ∨ ∃ child, Embedded P root child ∧ Reaches P child node :=
  Relation.ReflTransGen.cases_head_iff

section Step

variable {node : Node Json} {findings : List Diagnostic} {event : Event Json}
  {embedded : Json → FieldPath → Option (List VocabularyType) → JsString →
    Item Json × List (Item Json)}
  {extension : Json → FieldPath → List Diagnostic × List (Item Json)}

/-- The walk of a node, given the walks below it. -/
def stepWalk (node : Node Json) (findings : List Diagnostic)
    (embedded : Json → FieldPath → Option (List VocabularyType) → JsString →
      Item Json × List (Item Json))
    (extension : Json → FieldPath → List Diagnostic × List (Item Json)) :
    Item Json × List (Item Json) :=
  (reports findings ++ [.visit node],
    node.checkedFields.flatMap fun field =>
      fieldItems P Json.tree embedded extension
        (node.check P Json.tree field))

theorem mem_stepWalk :
    event ∈ walkEvents (stepWalk P node findings embedded extension) ↔
      (∃ d ∈ findings, .report d = event) ∨ event = .visit node ∨
      ∃ field ∈ node.checkedFields, ∃ item ∈ fieldItems P Json.tree embedded
        extension (node.check P Json.tree field), event ∈ item := by
  simp only [mem_walkEvents, stepWalk, List.mem_append, mem_reports,
    List.mem_singleton, List.mem_flatMap, or_assoc]
  refine or_congr_right (or_congr_right ?_)
  constructor
  · rintro ⟨item, ⟨field, hfield, hitem⟩, hevent⟩
    exact ⟨field, hfield, item, hitem, hevent⟩
  · rintro ⟨field, hfield, item, hitem, hevent⟩
    exact ⟨item, ⟨field, hfield, hitem⟩, hevent⟩

/-- The own events of a field are events of the walk. -/
theorem mem_stepWalk_of_check {field : Field Json}
    (hfield : field ∈ node.checkedFields)
    (hevent : event ∈ (node.check P Json.tree field).1) :
    event ∈ walkEvents (stepWalk P node findings embedded extension) :=
  (mem_stepWalk P).mpr (.inr (.inr
    ⟨field, hfield, (mem_fieldItems P).mpr (.inl hevent)⟩))

/-- The events of the entries of a reference property are events of the
walk. -/
theorem mem_stepWalk_of_visit {field : Field Json}
    (hfield : field ∈ node.checkedFields) {visits : List (Visit Json)}
    {key : JsString} {range : Option (List VocabularyType)}
    (hfollow : (node.check P Json.tree field).2 = .references visits key range)
    {visit : Visit Json} (hvisit : visit ∈ visits)
    (hevent : ∃ item ∈ visitItems P Json.tree embedded key range visit,
      event ∈ item) :
    event ∈ walkEvents (stepWalk P node findings embedded extension) := by
  obtain ⟨item, hitem, hmem⟩ := hevent
  exact (mem_stepWalk P).mpr (.inr (.inr ⟨field, hfield, (mem_fieldItems P).mpr
    (.inr (.inr ⟨visits, key, range, hfollow, visit, hvisit, item, hitem,
      hmem⟩))⟩))

/-- Apart from findings, an event is the visit of the node, an own event of a
field, or an event of an embedded document. -/
theorem mem_stepWalk_of_ne_report (hreport : ∀ d, event ≠ .report d)
    (hextension : ∀ entry path, ∀ item ∈ (extension entry path).2,
      ∀ e ∈ item, ∃ d, e = .report d) :
    event ∈ walkEvents (stepWalk P node findings embedded extension) ↔
      event = .visit node ∨
      ∃ field ∈ node.checkedFields,
        event ∈ (node.check P Json.tree field).1 ∨
        ∃ visits key range, (node.check P Json.tree field).2 =
            .references visits key range ∧
          ∃ entry path, .entry entry path ∈ visits ∧
            isRecord Json.tree entry = true ∧
            event ∈ walkEvents (embedded entry path range key) := by
  constructor
  · intro hevent
    rcases (mem_stepWalk P).mp hevent with ⟨d, -, hd⟩ | hvisit |
      ⟨field, hfield, hitems⟩
    · exact absurd hd.symm (hreport d)
    · exact .inl hvisit
    · refine .inr ⟨field, hfield, ?_⟩
      rcases (mem_fieldItems P).mp hitems with hown |
        ⟨entry, path, -, hext⟩ |
        ⟨visits, key, range, hfollow, visit, hvisit, hitem⟩
      · exact .inl hown
      · rcases hext with hext | ⟨item, hitem, hmem⟩
        · obtain ⟨d, -, hd⟩ := mem_reports.mp hext
          exact absurd hd.symm (hreport d)
        · obtain ⟨d, hd⟩ := hextension entry path item hitem event hmem
          exact absurd hd (hreport d)
      · refine .inr ⟨visits, key, range, hfollow, ?_⟩
        cases visit with
        | finding d =>
            exact absurd ((mem_visitItems_finding P).mp hitem) (hreport d)
        | entry entry path =>
            have hentry := (mem_visitItems_entry P).mp hitem
            by_cases hrecord : isRecord Json.tree entry = true
            · rw [if_pos hrecord] at hentry
              exact ⟨entry, path, hvisit, hrecord, hentry⟩
            · rw [if_neg hrecord] at hentry
              obtain ⟨d, -, hd⟩ := mem_reports.mp hentry
              exact absurd hd.symm (hreport d)
  · rintro (hvisit | ⟨field, hfield, hown | ⟨visits, key, range, hfollow,
      entry, path, hvisit, hrecord, hevent⟩⟩)
    · exact (mem_stepWalk P).mpr (.inr (.inl hvisit))
    · exact mem_stepWalk_of_check P hfield hown
    · refine mem_stepWalk_of_visit P hfield hfollow hvisit ?_
      rw [mem_visitItems_entry, if_pos hrecord]
      exact hevent

/-- A step of the main theorem: a quiet walk is accepted when the walks below
it are. -/
theorem stepWalk_accepted
    (hquiet : Quiet (walkEvents (stepWalk P node findings embedded extension)))
    (hextension : ∀ entry path, ∀ item ∈ (extension entry path).2,
      ∀ e ∈ item, ∃ d, e = .report d)
    (hembedded : ∀ entry path range key,
      Quiet (walkEvents (embedded entry path range key)) →
      ∃ findings child, readNode P Json.tree entry path (some node.context)
          range = (findings, some child) ∧
        WalkAccepted P child (walkEvents (embedded entry path range key))) :
    WalkAccepted P node
      (walkEvents (stepWalk P node findings embedded extension)) := by
  -- The walk over an embedded document is quiet, so it is accepted.
  have hbelow : ∀ field ∈ node.checkedFields, ∀ visits key range,
      (node.check P Json.tree field).2 = .references visits key range →
      ∀ entry path, .entry entry path ∈ visits →
      isRecord Json.tree entry = true →
      ∃ findings child, readNode P Json.tree entry path (some node.context)
          range = (findings, some child) ∧
        WalkAccepted P child (walkEvents (embedded entry path range key)) := by
    intro field hfield visits key range hfollow entry path hvisit hrecord
    refine hembedded entry path range key (hquiet.of_subset ?_)
    intro event hevent
    refine mem_stepWalk_of_visit P hfield hfollow hvisit ?_
    rw [mem_visitItems_entry, if_pos hrecord]
    exact hevent
  have hchild : ∀ child, Embedded P node child →
      ∃ field ∈ node.checkedFields, ∃ visits key range,
        (node.check P Json.tree field).2 = .references visits key range ∧
        ∃ entry path, .entry entry path ∈ visits ∧
          isRecord Json.tree entry = true ∧
          WalkAccepted P child
            (walkEvents (embedded entry path range key)) := by
    rintro child ⟨field, hfield, visits, key, range, hfollow, entry, path,
      readFindings, hvisit, hrecord, hread⟩
    obtain ⟨_, other, hother, haccepted⟩ :=
      hbelow field hfield visits key range hfollow entry path hvisit hrecord
    rw [hread] at hother
    obtain ⟨-, heq⟩ := Prod.mk.inj hother
    cases heq
    exact ⟨field, hfield, visits, key, range, hfollow, entry, path, hvisit,
      hrecord, haccepted⟩
  have hembeds : ∀ field ∈ node.checkedFields, ∀ visits key range,
      (node.check P Json.tree field).2 = .references visits key range →
      ∀ entry path, .entry entry path ∈ visits →
      isRecord Json.tree entry = true →
      ∃ child, Embedded P node child ∧
        WalkAccepted P child (walkEvents (embedded entry path range key)) := by
    intro field hfield visits key range hfollow entry path hvisit hrecord
    obtain ⟨readFindings, child, hread, haccepted⟩ :=
      hbelow field hfield visits key range hfollow entry path hvisit hrecord
    exact ⟨child, ⟨field, hfield, visits, key, range, hfollow, entry, path,
      readFindings, hvisit, hrecord, hread⟩, haccepted⟩
  constructor
  case visits =>
    intro other
    rw [mem_stepWalk_of_ne_report P (by simp) hextension, reaches_iff]
    constructor
    · rintro (hself | ⟨field, hfield, hown | ⟨visits, key, range, hfollow,
        entry, path, hvisit, hrecord, hevent⟩⟩)
      · exact .inl (Event.visit.inj hself).symm
      · rcases check_events P hown with ⟨d, hd⟩ | ⟨change, hchange⟩
        · cases hd
        · cases hchange
      · obtain ⟨child, hembed, haccepted⟩ := hembeds field hfield visits key
          range hfollow entry path hvisit hrecord
        exact .inr ⟨child, hembed, (haccepted.visits other).mp hevent⟩
    · rintro (rfl | ⟨child, hembed, hreach⟩)
      · exact .inl rfl
      · obtain ⟨field, hfield, visits, key, range, hfollow, entry, path,
          hvisit, hrecord, haccepted⟩ := hchild child hembed
        exact .inr ⟨field, hfield, .inr ⟨visits, key, range, hfollow, entry,
          path, hvisit, hrecord, (haccepted.visits other).mpr hreach⟩⟩
  case accepted =>
    intro other hreach
    rcases (reaches_iff P).mp hreach with rfl | ⟨child, hembed, hreach⟩
    · intro field hfield
      constructor
      · exact hquiet.of_subset fun event hevent =>
          mem_stepWalk_of_check P hfield hevent
      · intro visits key range hfollow d hd
        refine hquiet d (mem_stepWalk_of_visit P hfield hfollow hd ?_)
        rw [mem_visitItems_finding]
      · intro visits key range hfollow entry path hvisit
        unfold EntryAccepted
        by_cases hrecord : isRecord Json.tree entry = true
        · rw [if_pos hrecord]
          obtain ⟨readFindings, child, hread, -⟩ :=
            hbelow field hfield visits key range hfollow entry path hvisit
              hrecord
          exact ⟨readFindings, child, hread⟩
        · rw [if_neg hrecord, ← quiet_reports (ι := Json)]
          refine hquiet.of_subset fun event hevent => ?_
          refine mem_stepWalk_of_visit P hfield hfollow hvisit ?_
          rw [mem_visitItems_entry, if_neg hrecord]
          exact hevent
    · obtain ⟨_, _, _, _, _, _, _, _, _, _, haccepted⟩ := hchild child hembed
      exact haccepted.accepted other hreach
  case changes =>
    intro change
    rw [mem_stepWalk_of_ne_report P (by simp) hextension]
    constructor
    · rintro (hself | ⟨field, hfield, hown | ⟨visits, key, range, hfollow,
        entry, path, hvisit, hrecord, hevent⟩⟩)
      · cases hself
      · exact ⟨node, .refl, field, hfield, hown⟩
      · obtain ⟨child, hembed, haccepted⟩ := hembeds field hfield visits key
          range hfollow entry path hvisit hrecord
        obtain ⟨other, hreach, hother⟩ := (haccepted.changes change).mp hevent
        exact ⟨other, (reaches_iff P).mpr (.inr ⟨child, hembed, hreach⟩),
          hother⟩
    · rintro ⟨other, hreach, field, hfield, hown⟩
      rcases (reaches_iff P).mp hreach with rfl | ⟨child, hembed, hreach⟩
      · exact .inr ⟨field, hfield, .inl hown⟩
      · obtain ⟨field', hfield', visits, key, range, hfollow, entry, path,
          hvisit, hrecord, haccepted⟩ := hchild child hembed
        exact .inr ⟨field', hfield', .inr ⟨visits, key, range, hfollow, entry,
          path, hvisit, hrecord, (haccepted.changes change).mpr
            ⟨other, hreach, field, hfield, hown⟩⟩⟩
  case available =>
    intro path hevent
    rw [mem_stepWalk_of_ne_report P (by simp) hextension] at hevent
    rcases hevent with hself | ⟨field, hfield, hown | ⟨visits, key, range,
      hfollow, entry, entryPath, hvisit, hrecord, hevent⟩⟩
    · cases hself
    · rcases check_events P hown with ⟨d, hd⟩ | ⟨change, hchange⟩
      · cases hd
      · cases hchange
    · obtain ⟨child, -, haccepted⟩ := hembeds field hfield visits key range
        hfollow entry entryPath hvisit hrecord
      exact haccepted.available path hevent

end Step

/-- A walk whose findings are no errors is accepted. -/
theorem checkDocument_accepted {fuel : ℕ} {ancestors : List Json}
    {value : Json} {path : FieldPath} {inherited : Option Terms}
    {expected fedify : Option (List VocabularyType)}
    (hquiet : Quiet (walkEvents (checkDocument P Json.tree fuel ancestors value
      path inherited expected fedify))) :
    ∃ findings root, readNode P Json.tree value path inherited expected =
        (findings, some root) ∧
      WalkAccepted P root (walkEvents (checkDocument P Json.tree fuel ancestors
        value path inherited expected fedify)) ∧
      visitsOf (checkDocument P Json.tree fuel ancestors value path inherited
        expected fedify).1 = [root] := by
  induction fuel generalizing ancestors value path inherited expected fedify with
  | zero =>
      have := hquiet (depthFinding path)
        (by simp [mem_walkEvents, checkDocument])
      cases this
  | succ fuel ih =>
      rw [checkDocument] at hquiet ⊢
      split at hquiet
      next =>
        have := hquiet (depthFinding path) (by simp [mem_walkEvents])
        cases this
      next hdepth =>
        have hcycle : (isContainer Json.tree value &&
            ancestors.any (Json.tree.same value)) = false := by
          simp
        rw [if_neg hdepth]
        simp only [hcycle, Bool.false_eq_true, if_false] at hquiet ⊢
        split at hquiet
        next findings hread =>
          have herror := readNode_none P hread
          have hnone : hasError findings = false := by
            rw [← quiet_reports (ι := Json)]
            exact hquiet.of_subset fun event hevent => by
              simp only [mem_walkEvents, List.mem_append]
              exact .inl (.inl hevent)
          rw [herror] at hnone
          contradiction
        next findings node hread =>
          have hshape : ∀ F G : List Diagnostic,
              (reports F ++ reports G : Item Json) = reports (F ++ G) := by
            simp [reports]
          rw [hshape] at hquiet ⊢
          refine ⟨findings, node, hread, stepWalk_accepted P hquiet ?_ ?_, ?_⟩
          · intro entry entryPath item hitem event hevent
            exact checkExtension_events hitem hevent
          · intro entry entryPath range key hwalk
            obtain ⟨_, child, hchild, haccepted, -⟩ := ih hwalk
            exact ⟨_, child, hchild, haccepted⟩
          · simp [visitsOf, reports]

/-- What an accepted walk over a document has read, from its root on. -/
structure Accepted (document : Json) (root : Node Json) : Prop where
  read : ∃ findings, readNode P Json.tree document [] none none =
    (findings, some root)
  head : ∃ rest, (checkDocumentValue P Json.tree document).visited =
    root :: rest
  visited : ∀ node, node ∈ (checkDocumentValue P Json.tree document).visited ↔
    Reaches P root node
  accepted : ∀ node, Reaches P root node → NodeAccepted P node
  changes : ∀ change,
    change ∈ (checkDocumentValue P Json.tree document).changes ↔
      ∃ node, Reaches P root node ∧ ∃ field ∈ node.checkedFields,
        .change change ∈ (node.check P Json.tree field).1
  unavailable : (checkDocumentValue P Json.tree document).unavailable = []

/-- A walk without an error in its result has an accepted root. -/
theorem exists_accepted {document : Json}
    (haccepts :
      (checkDocumentValue P Json.tree document).reporter.accepts = true) :
    ∃ root, Accepted P document root := by
  let walk := checkDocument P Json.tree walkFuel [] document [] none none none
  have hsound : (WalkState.start.runItem walk.1).reporter.Sound := by
    rw [WalkState.runItem_eq]
    exact Reporter.createReporter_sound.reportAll _
  have hrun : checkDocumentValue P Json.tree document =
      WalkState.start.runItem (walkEvents walk) := by
    rw [walkEvents, WalkState.runItem_append]
    exact WalkState.runItems_of_accepts hsound haccepts
  have hstate := hrun.trans (WalkState.runItem_eq _ _)
  have hquiet : Quiet (walkEvents walk) := by
    rw [quiet_iff]
    rw [hstate] at haccepts
    exact (Reporter.accepts_reportAll Reporter.createReporter_sound haccepts).2
  obtain ⟨findings, root, hread, haccepted, hvisits⟩ :=
    checkDocument_accepted P hquiet
  refine ⟨root, ⟨findings, hread⟩, ?_, ?_, haccepted.accepted, ?_, ?_⟩
  · refine ⟨visitsOf walk.2.flatten, ?_⟩
    have hsplit : visitsOf (walkEvents walk) =
        visitsOf walk.1 ++ visitsOf walk.2.flatten :=
      List.filterMap_append
    rw [hstate]
    simp only [WalkState.start, List.nil_append, hsplit, walk, hvisits]
    rfl
  · intro node
    rw [hstate, ← haccepted.visits node]
    simp [WalkState.start, walk]
  · intro change
    rw [hstate, ← haccepted.changes change]
    simp [WalkState.start, walk]
  · rw [hstate]
    simp only [WalkState.start, List.nil_append]
    rw [List.eq_nil_iff_forall_not_mem]
    intro path hpath
    exact haccepted.available path (mem_unavailableOf.mp hpath)

end Platform

end DrFed.Document
