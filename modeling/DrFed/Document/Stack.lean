import DrFed.Document.Walk
import DrFed.Js.Heap

/-!
# The work stack

The walk as the source runs it: a last-in first-out stack of closures and one
set of ancestors, which a closure enters and a later one leaves.  The run of
the stack ends in the state that the recursive walk describes.
-/

namespace DrFed.Document

/-- A closure on the work stack. -/
inductive Work (ι : Type) where
  | leave (value : ι)
  | field (node : Node ι) (field : Field ι)
  | finding (diagnostic : Diagnostic)
  | reference (node : Node ι) (key : JsString)
      (collectionRange : Option (List VocabularyType)) (value : ι)
      (path : FieldPath)
  | extension (value : ι) (path : FieldPath) (keywords : Bool)

/-- What one closure does: its reports, the ancestor that it adds, and the
closures that it puts on the stack, the next one first. -/
structure Turn (ι : Type) where
  events : Item ι
  entered : Option ι
  pushed : List (Work ι)

def Turn.quiet {ι : Type} (events : Item ι) : Turn ι := ⟨events, none, []⟩

/-- The state of `checkDocumentValue`. -/
structure StackState (ι : Type) where
  walk : WalkState ι
  ancestors : List ι
  pending : List (Work ι)

section Platform

variable (P : Platform) {ι : Type} (H : Values ι)

/-- The closures over the entries of an extension array. -/
def extensionEntry (keywords : Bool) : Visit ι → Option (Work ι)
  | .finding _ => none
  | .entry entry path => some (.extension entry path keywords)

/-- `checkExtension` -/
def extensionTurn (ancestors : List ι) (value : ι) (path : FieldPath)
    (keywords : Bool) : Turn ι :=
  if path.length > maximumPathDepth then .quiet [.report (depthFinding path)]
  else
    match H.look value with
    | .foreign =>
        .quiet [.report ⟨.nonJsonValue, path, "Expected a JSON value."⟩]
    | .array entries named symbols =>
        if ancestors.any (H.same value) then
          .quiet [.report (cycleFinding path)]
        else
          let visits := visitList entries named symbols path
          ⟨reports (visits.filterMap Visit.finding?), some value,
            visits.filterMap (extensionEntry keywords)⟩
    | .object .. =>
        if ancestors.any (H.same value) then
          .quiet [.report (cycleFinding path)]
        else
          match readDocument H value path with
          | .error d => ⟨[.report d], some value, []⟩
          | .ok values =>
              let checked :=
                if keywords then checkExtensionKeywords H values path
                else ([], false)
              ⟨reports checked.1, some value,
                values.map fun entry =>
                  .extension entry.2 (path ++ [.key entry.1])
                    (keywords && !(checked.2 && entry.1 == js "@value"))⟩
    | _ => .quiet []

/-- `checkDocument` -/
def documentTurn (ancestors : List ι) (value : ι) (path : FieldPath)
    (inherited : Option Terms)
    (expectedTypes fedifyTypes : Option (List VocabularyType)) : Turn ι :=
  if path.length > maximumPathDepth then
    .quiet [.report (depthFinding path), .unavailable path]
  else if isContainer H value && ancestors.any (H.same value) then
    .quiet [.report (cycleFinding path), .unavailable path]
  else
    match readNode P H value path inherited expectedTypes with
    | (findings, none) => .quiet (reports findings ++ [.unavailable path])
    | (findings, some node) =>
        ⟨reports findings ++
            reports (checkEmbeddedFedifyRange P.toRuntime node.type
              fedifyTypes path) ++ [.visit node],
          some value, node.checkedFields.map (.field node)⟩

/-- The closure that a reference property schedules for one visit. -/
def visitWork (node : Node ι) (key : JsString)
    (collectionRange : Option (List VocabularyType)) : Visit ι → Work ι
  | .finding d => .finding d
  | .entry entry path => .reference node key collectionRange entry path

/-- What a closure does when the given ancestors have been entered. -/
def Work.turn (ancestors : List ι) : Work ι → Turn ι
  | .leave _ => .quiet []
  | .field node source =>
      let checked := node.check P H source
      match checked.2 with
      | .nothing => .quiet checked.1
      | .extension entry path =>
          let turn := extensionTurn H ancestors entry path true
          { turn with events := checked.1 ++ turn.events }
      | .references visits key collectionRange =>
          ⟨checked.1, none, visits.map (visitWork node key collectionRange)⟩
  | .finding d => .quiet [.report d]
  | .reference node key collectionRange entry path =>
      if isRecord H entry then
        documentTurn P H ancestors entry path (some node.context)
          collectionRange (getEmbeddedFedifyRange key collectionRange)
      else .quiet (reports (checkReference P.toRuntime H entry path))
  | .extension entry path keywords =>
      extensionTurn H ancestors entry path keywords

/-- Take a turn. -/
def StackState.take (s : StackState ι) (turn : Turn ι) : StackState ι where
  walk := s.walk.runItem turn.events
  ancestors := turn.entered.toList ++ s.ancestors
  pending := turn.pushed ++ turn.entered.toList.map .leave ++ s.pending

/-- Pop one closure and run it. -/
def StackState.run (s : StackState ι) (work : Work ι) (rest : List (Work ι)) :
    StackState ι :=
  match work with
  | .leave value =>
      { s with
        ancestors := s.ancestors.filter fun other => !H.same value other
        pending := rest }
  | work => { s with pending := rest }.take (work.turn P H s.ancestors)

/-- The loop `while (pending.length > 0 && !isFull())`. -/
def StackState.step (s : StackState ι) : Option (StackState ι) :=
  match s.pending with
  | [] => none
  | work :: rest =>
      if s.walk.reporter.truncated then none else some (s.run P H work rest)

/-- The state in which the loop starts. -/
def StackState.start (document : ι) : StackState ι :=
  StackState.take ⟨WalkState.start, [], []⟩
    (documentTurn P H [] document [] none none none)

/-- Some turns of the loop. -/
abbrev StackState.Steps : StackState ι → StackState ι → Prop :=
  Relation.ReflTransGen fun s s' => s.step P H = some s'

/-! ## The run of the stack -/

/-- A list of closures takes the walk through given items, and leaves the
ancestors and the rest of the stack as they were. -/
def RunsAs (ancestors : List ι) (works : List (Work ι))
    (items : List (Item ι)) : Prop :=
  ∀ walk rest, ∃ s, StackState.Steps P H ⟨walk, ancestors, works ++ rest⟩ s ∧
    s.walk = walk.runItems items ∧
    (s.walk.reporter.truncated = true ∨
      (s.ancestors = ancestors ∧ s.pending = rest))

variable {P H}

theorem WalkState.runItems_of_truncated {s : WalkState ι}
    (h : s.reporter.truncated = true) (items : List (Item ι)) :
    s.runItems items = s := by
  cases items with
  | nil => rfl
  | cons item rest => rw [WalkState.runItems, if_pos h]

theorem WalkState.runItems_append (s : WalkState ι)
    (items others : List (Item ι)) :
    s.runItems (items ++ others) = (s.runItems items).runItems others := by
  induction items generalizing s with
  | nil => rfl
  | cons item rest ih =>
      rw [List.cons_append, WalkState.runItems, WalkState.runItems]
      split
      next htruncated =>
        rw [WalkState.runItems_of_truncated htruncated]
      next => exact ih _

section RunsAs

variable {ancestors : List ι}

theorem RunsAs.nil : RunsAs P H ancestors [] [] := fun walk rest =>
  ⟨⟨walk, ancestors, rest⟩, .refl, rfl, .inr ⟨rfl, rfl⟩⟩

theorem RunsAs.append {works others : List (Work ι)}
    {items more : List (Item ι)} (h : RunsAs P H ancestors works items)
    (h' : RunsAs P H ancestors others more) :
    RunsAs P H ancestors (works ++ others) (items ++ more) := by
  intro walk rest
  obtain ⟨s, hsteps, hwalk, hend⟩ := h walk (others ++ rest)
  rw [List.append_assoc, WalkState.runItems_append, ← hwalk]
  rcases hend with htruncated | ⟨hancestors, hpending⟩
  · refine ⟨s, hsteps, ?_, .inl htruncated⟩
    rw [WalkState.runItems_of_truncated htruncated]
  · obtain ⟨s', hsteps', hwalk', hend'⟩ := h' s.walk rest
    rw [← hancestors, ← hpending] at hsteps'
    refine ⟨s', hsteps.trans hsteps', hwalk', ?_⟩
    exact hend'

theorem RunsAs.filterMap {α : Type} {entries : List α}
    {f : α → Option (Work ι)} {g : α → List (Item ι)}
    (h : ∀ entry ∈ entries,
      RunsAs P H ancestors (f entry).toList (g entry)) :
    RunsAs P H ancestors (entries.filterMap f) (entries.flatMap g) := by
  induction entries with
  | nil => exact .nil
  | cons entry rest ih =>
      have hrest := ih fun other hother => h other (List.mem_cons_of_mem _ hother)
      have hboth := (h entry List.mem_cons_self).append hrest
      rw [List.flatMap_cons, List.filterMap_cons]
      cases hentry : f entry with
      | none => simpa [hentry] using hboth
      | some work => simpa [hentry] using hboth

theorem RunsAs.map {α : Type} {entries : List α} {f : α → Work ι}
    {g : α → List (Item ι)}
    (h : ∀ entry ∈ entries, RunsAs P H ancestors [f entry] (g entry)) :
    RunsAs P H ancestors (entries.map f) (entries.flatMap g) := by
  rw [← List.filterMap_eq_map]
  exact RunsAs.filterMap h

variable (P H ancestors) in
/-- The ancestor that a turn adds is a new one, and the closures that it puts
on the stack run as given items. -/
structure Turn.Runs (turn : Turn ι) (items : List (Item ι)) : Prop where
  fresh : ∀ value, turn.entered = some value →
    H.same value value = true ∧ ancestors.any (H.same value) = false
  pushed : RunsAs P H (turn.entered.toList ++ ancestors) turn.pushed items

theorem Turn.runs_quiet (events : Item ι) :
    Turn.Runs P H ancestors (.quiet events) [] :=
  ⟨(fun _ h => nomatch h), .nil⟩

theorem eq_run_of_step {s s' : StackState ι} {work : Work ι}
    {rest : List (Work ι)} (hpending : s.pending = work :: rest)
    (hstep : s.step P H = some s') : s' = s.run P H work rest := by
  simp only [StackState.step, hpending] at hstep
  split at hstep
  · cases hstep
  · exact (Option.some.inj hstep).symm

/-- Leaving a value leaves the values that are other objects. -/
theorem filter_same_of_fresh {ancestors : List ι} {value : ι}
    (hfresh : ancestors.any (H.same value) = false) :
    ancestors.filter (fun other => !H.same value other) = ancestors :=
  List.filter_eq_self.mpr fun other hother => by
    simpa using List.any_eq_false.mp hfresh other hother

/-- After a turn, what it put on the stack runs, and the added ancestor is
left again. -/
theorem Turn.Runs.take {turn : Turn ι} {items : List (Item ι)}
    (hturn : turn.Runs P H ancestors items) (walk : WalkState ι)
    (rest : List (Work ι)) :
    ∃ s, StackState.Steps P H
        (StackState.take ⟨walk, ancestors, rest⟩ turn) s ∧
      s.walk = (walk.runItem turn.events).runItems items ∧
      (s.walk.reporter.truncated = true ∨
        (s.ancestors = ancestors ∧ s.pending = rest)) := by
  obtain ⟨s, hsteps, hwalk, hend⟩ := hturn.pushed (walk.runItem turn.events)
    (turn.entered.toList.map .leave ++ rest)
  rw [← List.append_assoc] at hsteps
  rcases hend with hend | ⟨hancestors, hpending⟩
  · exact ⟨s, hsteps, hwalk, .inl hend⟩
  · cases hentered : turn.entered with
    | none =>
        rw [hentered] at hancestors hpending
        exact ⟨s, hsteps, hwalk, .inr ⟨hancestors, hpending⟩⟩
    | some value =>
        rw [hentered] at hancestors hpending
        cases hs : s.walk.reporter.truncated with
        | true => exact ⟨s, hsteps, hwalk, .inl hs⟩
        | false =>
            obtain ⟨hself, hothers⟩ := hturn.fresh value hentered
            have hleave : s.step P H = some ⟨s.walk, ancestors, rest⟩ := by
              simp [StackState.step, StackState.run, hpending, hancestors, hs,
                hself, filter_same_of_fresh hothers]
            exact ⟨_, hsteps.tail hleave, hwalk, .inr ⟨rfl, rfl⟩⟩

/-- A closure that is not a `leave` runs as its turn and what it puts on the
stack. -/
theorem RunsAs.turn {work : Work ι} {items : List (Item ι)}
    (hwork : ∀ value, work ≠ .leave value)
    (hturn : (work.turn P H ancestors).Runs P H ancestors items) :
    RunsAs P H ancestors [work]
      ((work.turn P H ancestors).events :: items) := by
  intro walk rest
  cases htruncated : walk.reporter.truncated with
  | true =>
      refine ⟨_, .refl, ?_, .inl htruncated⟩
      rw [WalkState.runItems_of_truncated htruncated]
  | false =>
      have hstep : StackState.step P H ⟨walk, ancestors, work :: rest⟩ =
          some (StackState.take ⟨walk, ancestors, rest⟩
            (work.turn P H ancestors)) := by
        simp only [StackState.step, htruncated, Bool.false_eq_true, if_false]
        cases work with
        | leave value => exact absurd rfl (hwork value)
        | _ => rfl
      obtain ⟨s, hsteps, hwalk, hend⟩ := hturn.take walk rest
      refine ⟨s, .head hstep hsteps, ?_, hend⟩
      rw [WalkState.runItems, htruncated]
      exact hwalk

end RunsAs

/-! ## What a field leaves to run -/

section Fields

variable {node : Node ι} {field : Field ι} {visits : List (Visit ι)}
  {key : JsString} {range : Option (List VocabularyType)}

variable (H) in
/-- The visits that a reference property schedules. -/
def scheduledVisits (range : Option (List VocabularyType)) (value : ι)
    (path : FieldPath) : List (Visit ι) :=
  if range.isSome then checkSingleValue H value path
  else checkReferenceValues H value path

theorem checkValueRules_scheduled {type : VocabularyType} {name : JsString}
    {value : ι} {path : FieldPath}
    (h : (checkValueRules P H type name value path).2 =
      .references visits key range) :
    key = name ∧ visits = scheduledVisits H range value path := by
  unfold checkValueRules at h
  dsimp only at h
  split at h
  next => cases h
  next =>
    split at h
    next => cases h
    next =>
      split at h
      next => cases h
      next =>
        split at h
        next => cases h
        next =>
          split at h
          next hrange =>
            cases h
            exact ⟨rfl, by rw [scheduledVisits, if_pos hrange]⟩
          next =>
            split at h
            next => cases h; exact ⟨rfl, rfl⟩
            next => cases h

theorem checkValueRules_extension {type : VocabularyType} {name : JsString}
    {value entry : ι} {path p : FieldPath} :
    (checkValueRules P H type name value path).2 ≠ .extension entry p := by
  unfold checkValueRules
  intro h
  dsimp only at h
  split_ifs at h <;> first | cases h | (split at h <;> cases h)

theorem checkNamedField_follow (type : VocabularyType)
    (aliases : List JsString) (field : Field ι) (name : JsString)
    (path : FieldPath) :
    (checkNamedField P H type aliases field name path).2 = .nothing ∨
      (checkNamedField P H type aliases field name path).2 =
        (checkValueRules P H type name field.value path).2 := by
  unfold checkNamedField
  split_ifs <;> first
    | exact .inl rfl
    | exact .inr rfl
    | (dsimp only; split <;> first | exact .inl rfl | exact .inr rfl)

/-- Only a field with a standard name schedules references. -/
theorem check_scheduled
    (h : (node.check P H field).2 = .references visits key range) :
    field.name = some key ∧ visits = scheduledVisits H range field.value
      (node.path ++ [.key field.source]) := by
  unfold Node.check checkField at h
  cases hname : field.name with
  | none =>
      simp only [hname] at h
      split at h <;> cases h
  | some name =>
      simp only [hname] at h
      rcases checkNamedField_follow node.type
        (findMultipleAliases P H node.type node.fields) field name
        (node.path ++ [.key field.source]) with hnone | hrules
      · rw [hnone] at h
        cases h
      · rw [hrules] at h
        obtain ⟨rfl, hvisits⟩ := checkValueRules_scheduled h
        exact ⟨rfl, hvisits⟩

/-- Only an opaque field leads to an extension value, its own. -/
theorem check_extension {entry : ι} {path : FieldPath}
    (h : (node.check P H field).2 = .extension entry path) :
    field.name = none ∧ entry = field.value ∧
      path = node.path ++ [.key field.source] := by
  unfold Node.check checkField at h
  cases hname : field.name with
  | none =>
      simp only [hname] at h
      split at h
      · obtain ⟨rfl, rfl⟩ := FollowUp.extension.inj h
        exact ⟨rfl, rfl, rfl⟩
      · cases h
  | some name =>
      simp only [hname] at h
      rcases checkNamedField_follow node.type
        (findMultipleAliases P H node.type node.fields) field name
        (node.path ++ [.key field.source]) with hnone | hrules
      · rw [hnone] at h
        cases h
      · rw [hrules] at h
        exact absurd h checkValueRules_extension

theorem mem_visitList_path {entries : List (Option (Slot ι))}
    {named : List (JsString × Slot ι)} {symbols : ℕ} {path entryPath : FieldPath}
    {entry : ι}
    (h : .entry entry entryPath ∈ visitList entries named symbols path) :
    ∃ i, entryPath = path ++ [.index i] := by
  unfold visitList at h
  split_ifs at h with hextra
  · simp at h
  · obtain ⟨⟨slot, i⟩, -, heq⟩ := List.mem_map.mp h
    refine ⟨i, ?_⟩
    cases slot with
    | none => cases heq
    | some slot =>
        cases slot with
        | accessor => cases heq
        | data value enumerable =>
            cases enumerable with
            | false => cases heq
            | true => exact (Visit.entry.inj heq).2.symm

theorem mem_checkReferenceEntry {value entry : ι} {path p : FieldPath}
    (h : .entry entry p ∈ checkReferenceEntry H value path) :
    entry = value ∧ p = path := by
  unfold checkReferenceEntry at h
  split at h <;> simp_all

theorem mem_presentEntries {visits : List (Visit ι)} {entry : ι}
    {p : FieldPath} (h : (entry, p) ∈ presentEntries H visits) :
    .entry entry p ∈ visits := by
  obtain ⟨visit, hvisit, heq⟩ := List.mem_filterMap.mp h
  cases visit with
  | finding d => cases heq
  | entry value path =>
      by_cases hnull : isNull H value = true
      · simp [hnull] at heq
      · simp only [hnull, Bool.false_eq_true, if_false, Option.some.injEq,
          Prod.mk.injEq] at heq
        obtain ⟨rfl, rfl⟩ := heq
        exact hvisit

/-- A scheduled value is the value of the field or an entry of its list. -/
theorem mem_scheduledVisits {value entry : ι} {path p : FieldPath}
    (h : .entry entry p ∈ scheduledVisits H range value path) :
    (entry = value ∧ p = path ∧
      ∀ entries named symbols, H.look value ≠ .array entries named symbols) ∨
    ∃ entries named symbols, H.look value = .array entries named symbols ∧
      .entry entry p ∈ visitList entries named symbols path := by
  unfold scheduledVisits checkSingleValue checkReferenceValues at h
  cases hlook : H.look value with
  | array entries named symbols =>
      refine .inr ⟨_, _, _, rfl, ?_⟩
      simp only [hlook] at h
      by_cases hempty : entries.isEmpty = true
      · simp [hempty] at h
      · rw [if_neg hempty, if_neg hempty] at h
        by_cases hrange : range.isSome = true
        · rw [if_pos hrange] at h
          rcases List.mem_append.mp h with h | h
          · rcases List.mem_append.mp h with h | h
            · exact List.mem_of_mem_filter h
            · split at h <;> simp at h
          · obtain ⟨⟨other, q⟩, hother, hentry⟩ := List.mem_flatMap.mp h
            obtain ⟨rfl, rfl⟩ := mem_checkReferenceEntry hentry
            exact mem_presentEntries hother
        · rw [if_neg hrange] at h
          obtain ⟨visit, hvisit, hentry⟩ := List.mem_flatMap.mp h
          cases visit with
          | finding d => simp at hentry
          | entry other q =>
              obtain ⟨rfl, rfl⟩ := mem_checkReferenceEntry hentry
              exact hvisit
  | _ =>
      simp only [hlook, ite_self, List.mem_singleton] at h
      obtain ⟨rfl, rfl⟩ := Visit.entry.inj h
      exact .inl ⟨rfl, rfl, fun _ _ _ hother => nomatch hother⟩

end Fields

/-! ## The recursion as a run -/

section Recursion

theorem runsAs_events {ancestors : List ι} {work : Work ι} {events : Item ι}
    (hwork : ∀ value, work ≠ .leave value)
    (hturn : work.turn P H ancestors = .quiet events) :
    RunsAs P H ancestors [work] [events] := by
  have hruns : (work.turn P H ancestors).Runs P H ancestors [] :=
    hturn ▸ Turn.runs_quiet events
  have hrun := RunsAs.turn hwork hruns
  simpa [hturn, Turn.quiet] using hrun

/-- A closure that runs one item and the items of what it puts on the stack. -/
theorem runsAs_extension {ancestors : List ι} {value : ι} {path : FieldPath}
    {keywords : Bool} {result : List Diagnostic × List (Item ι)}
    (hevents : (extensionTurn H ancestors value path keywords).events =
      reports result.1)
    (hruns : (extensionTurn H ancestors value path keywords).Runs P H ancestors
      result.2) :
    RunsAs P H ancestors [.extension value path keywords]
      (reports result.1 :: result.2) := by
  rw [← hevents]
  exact RunsAs.turn (fun _ => by simp) hruns

theorem fresh_of_not_any {ancestors : List ι} {value : ι}
    (hself : H.same value value = true)
    (hany : ¬ ancestors.any (H.same value) = true) :
    ∀ other, some value = some other →
      H.same other other = true ∧ ancestors.any (H.same other) = false := by
  rintro other heq
  obtain rfl := Option.some.inj heq
  exact ⟨hself, by simpa using hany⟩

variable (hlawful : H.Lawful)

include hlawful in
theorem extensionTurn_runs (fuel : ℕ) {ancestors : List ι} {value : ι}
    {path : FieldPath} {keywords : Bool}
    (hdepth : maximumPathDepth < fuel + path.length) :
    (extensionTurn H ancestors value path keywords).events =
        reports (checkExtension H fuel ancestors value path keywords).1 ∧
      (extensionTurn H ancestors value path keywords).Runs P H ancestors
        (checkExtension H fuel ancestors value path keywords).2 := by
  induction fuel generalizing ancestors value path keywords with
  | zero =>
      have hdeep : path.length > maximumPathDepth := by omega
      rw [extensionTurn, checkExtension, if_pos hdeep]
      exact ⟨rfl, Turn.runs_quiet _⟩
  | succ fuel ih =>
      have hbelow (segment : Segment) :
          maximumPathDepth < fuel + (path ++ [segment]).length := by
        rw [List.length_append, List.length_singleton]
        omega
      rw [extensionTurn, checkExtension]
      by_cases hdeep : path.length > maximumPathDepth
      · rw [if_pos hdeep, if_pos hdeep]
        exact ⟨rfl, Turn.runs_quiet _⟩
      · rw [if_neg hdeep, if_neg hdeep]
        cases hlook : H.look value with
        | array entries named symbols =>
            by_cases hany : ancestors.any (H.same value) = true
            · simp only [hany, if_true]
              exact ⟨rfl, Turn.runs_quiet _⟩
            · simp only [hany, Bool.false_eq_true, if_false]
              refine ⟨trivial, fresh_of_not_any
                (hlawful.array value _ _ _ hlook) hany, ?_⟩
              refine RunsAs.filterMap fun visit hvisit => ?_
              cases visit with
              | finding d => exact .nil
              | entry entry entryPath =>
                  obtain ⟨i, rfl⟩ := mem_visitList_path hvisit
                  exact (ih (hbelow (.index i))).elim runsAs_extension
        | object plain members symbols =>
            by_cases hany : ancestors.any (H.same value) = true
            · simp only [hany, if_true]
              exact ⟨rfl, Turn.runs_quiet _⟩
            · simp only [hany, Bool.false_eq_true, if_false]
              cases hread : readDocument H value path with
              | error d =>
                  exact ⟨rfl, fresh_of_not_any
                    (hlawful.object value _ _ _ hlook) hany, .nil⟩
              | ok values =>
                  refine ⟨rfl, fresh_of_not_any
                    (hlawful.object value _ _ _ hlook) hany, ?_⟩
                  refine RunsAs.map fun entry _ => ?_
                  exact (ih (hbelow (.key entry.1))).elim runsAs_extension
        | _ => exact ⟨rfl, Turn.runs_quiet _⟩

theorem mem_scheduledVisits_length {range : Option (List VocabularyType)}
    {value entry : ι} {path p : FieldPath}
    (h : .entry entry p ∈ scheduledVisits H range value path) :
    path.length ≤ p.length := by
  rcases mem_scheduledVisits h with ⟨-, rfl, -⟩ | ⟨_, _, _, -, hentry⟩
  · exact le_refl _
  · obtain ⟨i, rfl⟩ := mem_visitList_path hentry
    simp

/-- The closure of one field runs the items of the field. -/
theorem runsAs_field {ancestors : List ι} {node : Node ι} {field : Field ι}
    {embedded : ι → FieldPath → Option (List VocabularyType) → JsString →
      Item ι × List (Item ι)}
    {extension : ι → FieldPath → List Diagnostic × List (Item ι)}
    (hembedded : ∀ entry path range key,
      node.path.length < path.length →
      (documentTurn P H ancestors entry path (some node.context) range
          (getEmbeddedFedifyRange key range)).events =
        (embedded entry path range key).1 ∧
      (documentTurn P H ancestors entry path (some node.context) range
          (getEmbeddedFedifyRange key range)).Runs P H ancestors
        (embedded entry path range key).2)
    (hextension : ∀ entry path, node.path.length < path.length →
      (extensionTurn H ancestors entry path true).events =
          reports (extension entry path).1 ∧
        (extensionTurn H ancestors entry path true).Runs P H ancestors
          (extension entry path).2) :
    RunsAs P H ancestors [.field node field]
      (fieldItems P H embedded extension (node.check P H field)) := by
  have hturn : ∀ turn : Turn ι, ∀ items,
      (Work.field node field).turn P H ancestors = turn →
      turn.Runs P H ancestors items →
      RunsAs P H ancestors [.field node field] (turn.events :: items) := by
    rintro turn items rfl hruns
    exact RunsAs.turn (by simp) hruns
  have hlength : node.path.length <
      (node.path ++ [Segment.key field.source]).length := by simp
  cases hchecked : node.check P H field with
  | mk events follow =>
    cases follow with
    | nothing =>
        exact hturn (.quiet events) [] (by simp [Work.turn, hchecked])
          (Turn.runs_quiet events)
    | extension entry path =>
        have hfollow : (node.check P H field).2 = .extension entry path := by
          rw [hchecked]
        obtain ⟨-, -, rfl⟩ := check_extension hfollow
        obtain ⟨hevents, hruns⟩ := hextension entry _ hlength
        have hrun := hturn { extensionTurn H ancestors entry
            (node.path ++ [.key field.source]) true with
          events := events ++ (extensionTurn H ancestors entry
            (node.path ++ [.key field.source]) true).events }
          _ (by simp [Work.turn, hchecked]) ⟨hruns.fresh, hruns.pushed⟩
        rw [hevents] at hrun
        exact hrun
    | references visits key range =>
        have hfollow : (node.check P H field).2 =
            .references visits key range := by
          rw [hchecked]
        obtain ⟨-, hvisits⟩ := check_scheduled hfollow
        refine hturn ⟨events, none, visits.map (visitWork node key range)⟩ _
          (by simp [Work.turn, hchecked]) ⟨by simp, ?_⟩
        refine RunsAs.map fun visit hvisit => ?_
        cases visit with
        | finding d => exact runsAs_events (by simp [visitWork]) rfl
        | entry entry path =>
            rw [visitItems, visitWork]
            by_cases hrecord : isRecord H entry = true
            · rw [if_pos hrecord]
              have hpath := mem_scheduledVisits_length (hvisits ▸ hvisit)
              obtain ⟨hevents, hruns⟩ := hembedded entry path range key
                (lt_of_lt_of_le hlength hpath)
              dsimp only
              rw [← hevents]
              have hwork : (Work.reference node key range entry path).turn P H
                  ancestors = documentTurn P H ancestors entry path
                    (some node.context) range
                    (getEmbeddedFedifyRange key range) := by
                rw [Work.turn, if_pos hrecord]
              rw [← hwork] at hruns ⊢
              exact RunsAs.turn (by simp) hruns
            · rw [if_neg hrecord]
              refine runsAs_events (by simp) ?_
              rw [Work.turn, if_neg hrecord]

theorem readDocument_look {value : ι} {path : FieldPath}
    {values : List (JsString × ι)}
    (h : readDocument H value path = .ok values) :
    ∃ members, H.look value = .object true members 0 ∧
      (readMembers H path (sortByKey members)).map propertyOrder =
        .ok values := by
  unfold readDocument at h
  split at h
  next => cases h
  next plain members symbols hlook =>
    split_ifs at h with hplain hsymbols
    · cases plain with
      | false => exact absurd rfl hplain
      | true =>
          obtain rfl : symbols = 0 := by simpa using hsymbols
          exact ⟨members, hlook, h⟩
  next => cases h

/-- What a document that the walk visits was read from. -/
theorem readNode_ok {value : ι} {path : FieldPath}
    {inherited : Option Terms} {expected : Option (List VocabularyType)}
    {findings : List Diagnostic} {node : Node ι}
    (h : readNode P H value path inherited expected = (findings, some node)) :
    node.path = path ∧ readDocument H value path = .ok node.values ∧
      checkContext P H node.values path inherited =
        (findings, some node.context) ∧
      node.fields = readFields P node.values node.context ∧
      checkDocumentType P H node.values node.fields path node.context =
        .ok node.type := by
  unfold readNode at h
  split at h
  next => cases h
  next values hread =>
    split at h
    next => cases h
    next others context hcontext =>
      dsimp only at h
      split at h
      next => cases h
      next type htype =>
        split at h
        next => cases h
        next =>
          obtain ⟨rfl, heq⟩ := Prod.mk.inj h
          obtain rfl := Option.some.inj heq
          exact ⟨rfl, hread, hcontext, rfl, htype⟩

include hlawful in
theorem documentTurn_runs (fuel : ℕ) {ancestors : List ι} {value : ι}
    {path : FieldPath} {inherited : Option Terms}
    {expected fedify : Option (List VocabularyType)}
    (hdepth : maximumPathDepth < fuel + path.length) :
    (documentTurn P H ancestors value path inherited expected fedify).events =
        (checkDocument P H fuel ancestors value path inherited expected
          fedify).1 ∧
      (documentTurn P H ancestors value path inherited expected fedify).Runs
        P H ancestors
        (checkDocument P H fuel ancestors value path inherited expected
          fedify).2 := by
  induction fuel generalizing ancestors value path inherited expected fedify with
  | zero =>
      have hdeep : path.length > maximumPathDepth := by omega
      rw [documentTurn, checkDocument, if_pos hdeep]
      exact ⟨rfl, Turn.runs_quiet _⟩
  | succ fuel ih =>
      rw [documentTurn, checkDocument]
      by_cases hdeep : path.length > maximumPathDepth
      · rw [if_pos hdeep, if_pos hdeep]
        exact ⟨rfl, Turn.runs_quiet _⟩
      rw [if_neg hdeep, if_neg hdeep]
      by_cases hcycle :
          (isContainer H value && ancestors.any (H.same value)) = true
      · rw [if_pos hcycle, if_pos hcycle]
        exact ⟨rfl, Turn.runs_quiet _⟩
      rw [if_neg hcycle, if_neg hcycle]
      cases hread : readNode P H value path inherited expected with
      | mk findings node? =>
        cases node? with
        | none => exact ⟨rfl, Turn.runs_quiet _⟩
        | some node =>
            obtain ⟨rfl, hdocument, -⟩ := readNode_ok hread
            obtain ⟨members, hlook, -⟩ := readDocument_look hdocument
            have hany : ¬ ancestors.any (H.same value) = true := by
              simpa [isContainer, hlook] using hcycle
            refine ⟨rfl, fresh_of_not_any
              (hlawful.object value _ _ _ hlook) hany, RunsAs.map fun field _ =>
                runsAs_field (fun entry path range key hlt => ?_)
                  fun entry path hlt => ?_⟩
            · exact ih (by omega)
            · exact extensionTurn_runs hlawful fuel (by omega)

include hlawful in
/-- The loop ends, in the state that the recursive walk describes, whatever
bound above the depth limit the recursion has. -/
theorem stack_runs_of_fuel (document : ι) {fuel : ℕ}
    (hfuel : maximumPathDepth < fuel) :
    ∃ s, StackState.Steps P H (StackState.start P H document) s ∧
      s.step P H = none ∧
      s.walk = (WalkState.start.runItem (checkDocument P H fuel [] document []
          none none none).1).runItems
        (checkDocument P H fuel [] document [] none none none).2 := by
  obtain ⟨hevents, hruns⟩ := @documentTurn_runs P _ H hlawful fuel []
    document [] none none none hfuel
  obtain ⟨s, hsteps, hwalk, hend⟩ := hruns.take WalkState.start []
  refine ⟨s, hsteps, ?_, ?_⟩
  · unfold StackState.step
    rcases hend with htruncated | ⟨-, hpending⟩
    · split
      · rfl
      · rw [if_pos htruncated]
    · rw [hpending]
  · rw [hwalk, hevents]

include hlawful in
theorem stack_runs (document : ι) :
    ∃ s, StackState.Steps P H (StackState.start P H document) s ∧
      s.step P H = none ∧ s.walk = checkDocumentValue P H document :=
  stack_runs_of_fuel hlawful document (by decide)

end Recursion

end Platform

end DrFed.Document
