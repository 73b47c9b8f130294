import DrFed.Document.Enclosing

/-!
# Reports of cycles

Turning to a document or an extension value, the walk reports a cycle exactly
when that value is one of the documents and extension values around it.
-/

namespace DrFed.Document

section Platform

variable (P : Platform) {ι : Type} (H : Values ι)

/-- The document or extension value that a closure turns to. -/
def Work.position : Work ι → Option (ι × FieldPath)
  | .field node source =>
      match (node.check P H source).2 with
      | .extension entry path => some (entry, path)
      | _ => none
  | .reference _ _ _ entry path =>
      if isRecord H entry then some (entry, path) else none
  | .extension entry path _ => some (entry, path)
  | _ => none

/-- A closure reports a cycle at a path. -/
def Turn.ReportsCycle {ι : Type} (turn : Turn ι) (path : FieldPath) : Prop :=
  .report (cycleFinding path) ∈ turn.events

variable {P H}

/-! ## Other findings -/

theorem readMembers_ne_cycle {path p : FieldPath}
    {ms : List (JsString × Slot ι)} {d : Diagnostic}
    (h : readMembers H path ms = .error d) : d ≠ cycleFinding p := by
  induction ms with
  | nil => cases h
  | cons m rest ih =>
      obtain ⟨key, slot⟩ := m
      unfold readMembers at h
      split at h
      next =>
        split at h
        next =>
          cases hrest : readMembers H path rest with
          | error e =>
              rw [hrest] at h
              obtain rfl := Except.error.inj h
              exact ih hrest
          | ok others => rw [hrest] at h; cases h
        next =>
          obtain rfl := Except.error.inj h
          simp [cycleFinding]
      next =>
        obtain rfl := Except.error.inj h
        simp [cycleFinding]

theorem readDocument_ne_cycle {value : ι} {path p : FieldPath} {d : Diagnostic}
    (h : readDocument H value path = .error d) : d ≠ cycleFinding p := by
  unfold readDocument at h
  split at h
  next =>
    obtain rfl := Except.error.inj h
    simp [cycleFinding]
  next plain members symbols hlook =>
    split_ifs at h with hplain hsymbols
    · obtain rfl := Except.error.inj h
      simp [cycleFinding]
    · obtain rfl := Except.error.inj h
      simp [cycleFinding]
    · cases hmembers : readMembers H path (sortByKey members) with
      | error e =>
          rw [hmembers] at h
          obtain rfl := Except.error.inj h
          exact readMembers_ne_cycle hmembers
      | ok values => rw [hmembers] at h; cases h
  next =>
    obtain rfl := Except.error.inj h
    simp [cycleFinding]

theorem visitList_ne_cycle {entries : List (Option (Slot ι))}
    {named : List (JsString × Slot ι)} {symbols : ℕ} {path p : FieldPath}
    {d : Diagnostic}
    (h : .finding d ∈ visitList entries named symbols path) :
    d ≠ cycleFinding p := by
  unfold visitList at h
  split_ifs at h with hextra
  · obtain rfl := Visit.finding.inj (List.mem_singleton.mp h)
    simp [cycleFinding]
  · obtain ⟨⟨slot, i⟩, -, heq⟩ := List.mem_map.mp h
    split at heq
    · cases heq
    · obtain rfl := Visit.finding.inj heq
      simp [cycleFinding]

/-- The findings on a context are at the context or below. -/
theorem checkContext_path {values : List (JsString × ι)} {path : FieldPath}
    {inherited : Option Terms} {d : Diagnostic}
    (h : d ∈ (checkContext P H values path inherited).1) :
    path ++ [.key (js "@context")] <+: d.path := by
  unfold checkContext at h
  dsimp only at h
  split at h
  next =>
    split at h
    · cases h
    · obtain rfl := List.mem_singleton.mp h
      exact List.prefix_refl _
  next context hlookup =>
    have hmoved := applyContext_moved H.reads_id
      (path ++ [Segment.key (js "@context")]) P context []
      (inherited.getD [])
    rw [List.append_nil, id] at hmoved
    split at h
    next =>
      split at h
      · cases h
      · obtain rfl := List.mem_singleton.mp h
        exact List.prefix_refl _
    next findings _ _ happly =>
      rw [hmoved] at happly
      obtain ⟨rfl, -⟩ := Prod.mk.inj happly
      obtain ⟨other, -, rfl⟩ := List.mem_map.mp h
      exact List.prefix_append _ _

theorem checkDocumentType_path {values : List (JsString × ι)}
    {fields : List (Field ι)} {path : FieldPath} {context : Terms}
    {ds : List Diagnostic}
    (h : checkDocumentType P H values fields path context = .error ds)
    {d : Diagnostic} (hd : d ∈ ds) : ∃ key, d.path = path ++ [.key key] := by
  unfold checkDocumentType at h
  dsimp only at h
  split at h
  · obtain rfl := Except.error.inj h
    obtain ⟨field, -, rfl⟩ := List.mem_map.mp hd
    exact ⟨_, rfl⟩
  · split at h
    · cases h
    next e he =>
      obtain rfl := Except.error.inj h
      obtain rfl := List.mem_singleton.mp hd
      unfold checkType at he
      dsimp only at he
      split at he
      · cases he
      · obtain rfl := Except.error.inj he
        exact ⟨_, rfl⟩

theorem readNode_ne_cycle {value : ι} {path : FieldPath}
    {inherited : Option Terms} {expected : Option (List VocabularyType)}
    {d : Diagnostic} (h : d ∈ (readNode P H value path inherited expected).1) :
    d ≠ cycleFinding path := by
  have hlonger : ∀ {q : FieldPath}, path ++ [.key (js "@context")] <+: q →
      q ≠ path := by
    rintro q hq rfl
    have hlength := hq.length_le
    rw [List.length_append, List.length_singleton] at hlength
    omega
  have hcontext : ∀ {values : List (JsString × ι)} {findings context},
      checkContext P H values path inherited = (findings, context) →
      ∀ e ∈ findings, e ≠ cycleFinding path := by
    rintro values findings context heq e he rfl
    have hmem : cycleFinding path ∈
        (checkContext P H values path inherited).1 := by rwa [heq]
    exact hlonger (checkContext_path hmem) rfl
  unfold readNode at h
  split at h
  next e hread =>
    obtain rfl := List.mem_singleton.mp h
    exact readDocument_ne_cycle hread
  next values hread =>
    split at h
    next findings hfindings => exact hcontext hfindings d h
    next findings context hfindings =>
      dsimp only at h
      split at h
      next ds htype =>
        rcases List.mem_append.mp h with h | h
        · exact hcontext hfindings d h
        · rintro rfl
          obtain ⟨key, hkey⟩ := checkDocumentType_path htype h
          simp [cycleFinding] at hkey
      next type htype =>
        split at h
        · rcases List.mem_append.mp h with h | h
          · exact hcontext hfindings d h
          · obtain rfl := List.mem_singleton.mp h
            simp [cycleFinding]
        · exact hcontext hfindings d h

theorem checkEmbeddedFedifyRange_ne_cycle {type : VocabularyType}
    {range : Option (List VocabularyType)} {path p : FieldPath}
    {d : Diagnostic}
    (h : d ∈ checkEmbeddedFedifyRange P.toRuntime type range path) :
    d ≠ cycleFinding p := by
  unfold checkEmbeddedFedifyRange at h
  split at h
  · cases h
  · split at h
    · obtain rfl := List.mem_singleton.mp h
      simp [cycleFinding]
    · cases h

theorem checkExtensionKeywords_ne_cycle {values : List (JsString × ι)}
    {path p : FieldPath} {d : Diagnostic}
    (h : d ∈ (checkExtensionKeywords H values path).1) :
    d ≠ cycleFinding p := by
  have hshape : ∀ e : Diagnostic, e.reason = .invalidValueShape →
      e ≠ cycleFinding p := by
    rintro _ he rfl
    cases he
  unfold checkExtensionKeywords at h
  rcases List.mem_append.mp h with h | h
  · rcases List.mem_append.mp h with h | h
    · split at h
      · cases h
      · split at h
        · cases h
        · exact hshape d (List.mem_singleton.mp h ▸ rfl)
    · split at h
      · cases h
      next type _ =>
        unfold checkExtensionType at h
        split at h
        · cases h
        · obtain ⟨visit, hvisit, hd⟩ := List.mem_flatMap.mp h
          cases visit with
          | finding e =>
              obtain rfl := List.mem_singleton.mp hd
              exact visitList_ne_cycle hvisit
          | entry entry q =>
              dsimp only at hd
              split at hd
              · cases hd
              · exact hshape d (List.mem_singleton.mp hd ▸ rfl)
        · exact hshape d (List.mem_singleton.mp h ▸ rfl)
  · split at h
    · split at h
      · cases h
      · split at h
        · cases h
        · cases h
        · exact hshape d (List.mem_singleton.mp h ▸ rfl)
      · rcases List.mem_append.mp h with h | h
        · exact hshape d (List.mem_singleton.mp h ▸ rfl)
        · split at h
          · cases h
          · cases h
          · exact hshape d (List.mem_singleton.mp h ▸ rfl)
    · cases h

/-! ## The turns that look for a cycle -/

@[simp] theorem reportsCycle_quiet {events : Item ι} {path : FieldPath} :
    (Turn.quiet events).ReportsCycle path ↔
      .report (cycleFinding path) ∈ events := Iff.rfl

theorem not_mem_reports {findings : List Diagnostic} {d : Diagnostic}
    (h : ∀ e ∈ findings, e ≠ d) :
    .report d ∉ (reports findings : Item ι) := by
  intro hmem
  obtain ⟨e, he, heq⟩ := List.mem_map.mp hmem
  exact h e he (Event.report.inj heq)

variable {ancestors : List ι} {value : ι} {path : FieldPath}

theorem extensionTurn_reportsCycle {keywords : Bool}
    (hdepth : path.length ≤ maximumPathDepth) :
    (extensionTurn H ancestors value path keywords).ReportsCycle path ↔
      isContainer H value = true ∧ ancestors.any (H.same value) = true := by
  rw [extensionTurn, if_neg (by omega)]
  cases hlook : H.look value with
  | array entries named symbols =>
      by_cases hany : ancestors.any (H.same value) = true
      · simp [hany, isContainer, hlook]
      · simp only [hany, Bool.false_eq_true, if_false, and_false, iff_false]
        refine not_mem_reports fun e he => ?_
        obtain ⟨visit, hvisit, hfinding⟩ := List.mem_filterMap.mp he
        cases visit with
        | finding d =>
            obtain rfl := Option.some.inj hfinding
            exact visitList_ne_cycle hvisit
        | entry entry p => cases hfinding
  | object plain members symbols =>
      by_cases hany : ancestors.any (H.same value) = true
      · simp [hany, isContainer, hlook]
      · simp only [hany, Bool.false_eq_true, if_false, and_false, iff_false]
        cases hread : readDocument H value path with
        | error d =>
            intro hmem
            have heq := Event.report.inj (List.mem_singleton.mp hmem)
            exact readDocument_ne_cycle hread heq.symm
        | ok values =>
            refine not_mem_reports fun e he => ?_
            split at he
            · exact checkExtensionKeywords_ne_cycle he
            · cases he
  | foreign => simp [isContainer, hlook, cycleFinding]
  | _ => simp [isContainer, hlook]

theorem documentTurn_reportsCycle {inherited : Option Terms}
    {expected fedify : Option (List VocabularyType)}
    (hdepth : path.length ≤ maximumPathDepth) :
    (documentTurn P H ancestors value path inherited expected
        fedify).ReportsCycle path ↔
      isContainer H value = true ∧ ancestors.any (H.same value) = true := by
  rw [documentTurn, if_neg (by omega), ← Bool.and_eq_true]
  by_cases hcycle :
      (isContainer H value && ancestors.any (H.same value)) = true
  · rw [if_pos hcycle]
    simp [hcycle]
  · rw [if_neg hcycle]
    refine iff_of_false ?_ hcycle
    have hfindings : ∀ e ∈ (readNode P H value path inherited expected).1,
        e ≠ cycleFinding path := fun e he => readNode_ne_cycle he
    generalize readNode P H value path inherited expected = result at hfindings
    obtain ⟨findings, node?⟩ := result
    cases node? with
    | none =>
        intro hmem
        rcases List.mem_append.mp hmem with hmem | hmem
        · exact not_mem_reports hfindings hmem
        · cases List.mem_singleton.mp hmem
    | some node =>
        intro hmem
        rcases List.mem_append.mp hmem with hmem | hmem
        · rcases List.mem_append.mp hmem with hmem | hmem
          · exact not_mem_reports hfindings hmem
          · exact not_mem_reports
              (fun e he => checkEmbeddedFedifyRange_ne_cycle he) hmem
        · cases List.mem_singleton.mp hmem

/-- The events that precede an opaque value are no reports of cycles. -/
theorem check_extension_events {node : Node ι} {field : Field ι} {entry : ι}
    {p : FieldPath} (h : (node.check P H field).2 = .extension entry p)
    {q : FieldPath} :
    .report (cycleFinding q) ∉ (node.check P H field).1 := by
  obtain ⟨hname, -, -⟩ := check_extension h
  unfold Node.check checkField at h ⊢
  simp only [hname] at h ⊢
  split at h
  next hopaque =>
    rw [if_pos hopaque]
    simp [cycleFinding]
  next => cases h

/-- Every closure that turns to a document or an extension value reports a
cycle there exactly when the value is among the ancestors. -/
theorem Work.turn_reportsCycle {work : Work ι}
    (hposition : work.position P H = some (value, path))
    (hdepth : path.length ≤ maximumPathDepth) :
    (work.turn P H ancestors).ReportsCycle path ↔
      isContainer H value = true ∧ ancestors.any (H.same value) = true := by
  cases work with
  | field node field =>
      simp only [Work.position] at hposition
      split at hposition
      next entry p hfollow =>
        obtain ⟨rfl, rfl⟩ := Prod.mk.inj (Option.some.inj hposition)
        have hturn : (extensionTurn H ancestors entry p
            true).ReportsCycle p ↔ _ := extensionTurn_reportsCycle hdepth
        rw [← hturn]
        simp only [Work.turn, hfollow, Turn.ReportsCycle, List.mem_append,
          check_extension_events hfollow, false_or]
      next => cases hposition
  | reference node key range entry p =>
      simp only [Work.position] at hposition
      split at hposition
      next hrecord =>
        obtain ⟨rfl, rfl⟩ := Prod.mk.inj (Option.some.inj hposition)
        rw [Work.turn, if_pos hrecord]
        exact documentTurn_reportsCycle hdepth
      next => cases hposition
  | extension entry p keywords =>
      obtain ⟨rfl, rfl⟩ := Prod.mk.inj (Option.some.inj hposition)
      exact extensionTurn_reportsCycle hdepth
  | _ => cases hposition

end Platform

/-! ## The ancestors at every moment of a run -/

section Runs

variable (P : Platform) {ι : Type} (H : Values ι) (root : ι)

/-- A closure belongs to the position around which a chain lies. -/
def Work.Within (above : Chain ι) : Work ι → Prop
  | .leave _ => False
  | .field node source =>
      ∃ rest value path inherited expected findings,
        above = (path, value) :: rest ∧
        Encloses P H root rest value path (.document inherited expected) ∧
        readNode P H value path inherited expected = (findings, some node) ∧
        source ∈ node.checkedFields
  | .finding _ => True
  | .reference node _ range entry path =>
      Encloses P H root above entry path (.document (some node.context) range)
  | .extension entry path _ => Encloses P H root above entry path .extension

/-- The stack in layers: the closures of a position, the closure that leaves
the position, and the layers around it. -/
inductive Layered : Chain ι → List (Work ι) → List ι → Prop
  | nil : Layered [] [] []
  | work {above : Chain ι} {pending : List (Work ι)} {ancestors : List ι}
      (work : Work ι) (hwork : work.Within P H root above)
      (h : Layered above pending ancestors) :
      Layered above (work :: pending) ancestors
  | leave {above : Chain ι} {pending : List (Work ι)} {ancestors : List ι}
      (path : FieldPath) (value : ι)
      (hself : H.same value value = true)
      (hfresh : ancestors.any (H.same value) = false)
      (h : Layered above pending ancestors) :
      Layered ((path, value) :: above) (.leave value :: pending)
        (value :: ancestors)

/-- A turn enters at most the position that it is about, and what it puts on
the stack belongs to that position. -/
structure Turn.Layers (above : Chain ι) (ancestors : List ι) (turn : Turn ι) :
    Prop where
  pushed : ∃ path, ∀ work ∈ turn.pushed, work.Within P H root
    (turn.entered.toList.map (fun value => (path, value)) ++ above)
  fresh : ∀ value, turn.entered = some value →
    H.same value value = true ∧ ancestors.any (H.same value) = false

variable {P H root} {above : Chain ι} {ancestors : List ι} {value : ι}
  {path : FieldPath}

theorem Layered.ancestors_eq {pending : List (Work ι)}
    (h : Layered P H root above pending ancestors) :
    ancestors = above.map Prod.snd := by
  induction h with
  | nil => rfl
  | work work hwork h ih => exact ih
  | leave path value hself hfresh h ih => rw [ih, List.map_cons]

theorem Layered.append {works pending : List (Work ι)}
    (h : Layered P H root above pending ancestors)
    (hworks : ∀ work ∈ works, work.Within P H root above) :
    Layered P H root above (works ++ pending) ancestors := by
  induction works with
  | nil => exact h
  | cons work rest ih =>
      exact .work work (hworks work List.mem_cons_self)
        (ih fun other hother => hworks other (List.mem_cons_of_mem _ hother))

theorem Turn.layers_quiet (events : Item ι) :
    Turn.Layers P H root above ancestors (.quiet events) :=
  ⟨⟨[], fun _ h => nomatch h⟩, fun _ h => nomatch h⟩

theorem extensionTurn_layers (hlawful : H.Lawful) {keywords : Bool}
    (h : Encloses P H root above value path .extension) :
    (extensionTurn H ancestors value path keywords).Layers P H root above
      ancestors := by
  rw [extensionTurn]
  by_cases hdeep : path.length > maximumPathDepth
  · rw [if_pos hdeep]
    exact Turn.layers_quiet _
  rw [if_neg hdeep]
  cases hlook : H.look value with
  | array entries named symbols =>
      by_cases hany : ancestors.any (H.same value) = true
      · simp only [hany, if_true]
        exact Turn.layers_quiet _
      · simp only [hany, Bool.false_eq_true, if_false]
        refine ⟨⟨path, fun work hwork => ?_⟩, fresh_of_not_any
          (hlawful.array value _ _ _ hlook) hany⟩
        obtain ⟨visit, hvisit, heq⟩ := List.mem_filterMap.mp hwork
        cases visit with
        | finding d => cases heq
        | entry entry p =>
            obtain rfl := Option.some.inj heq
            exact h.item entries named symbols hlook entry p hvisit
  | object plain members symbols =>
      by_cases hany : ancestors.any (H.same value) = true
      · simp only [hany, if_true]
        exact Turn.layers_quiet _
      · simp only [hany, Bool.false_eq_true, if_false]
        have hfresh := fresh_of_not_any
          (hlawful.object value _ _ _ hlook) hany
        cases hread : readDocument H value path with
        | error d => exact ⟨⟨path, by simp⟩, hfresh⟩
        | ok values =>
            refine ⟨⟨path, fun work hwork => ?_⟩, hfresh⟩
            obtain ⟨entry, hentry, rfl⟩ := List.mem_map.mp hwork
            exact h.member values hread entry hentry
  | _ => exact Turn.layers_quiet _

theorem documentTurn_layers (hlawful : H.Lawful) {inherited : Option Terms}
    {expected fedify : Option (List VocabularyType)}
    (h : Encloses P H root above value path
      (.document inherited expected)) :
    (documentTurn P H ancestors value path inherited expected fedify).Layers
      P H root above ancestors := by
  rw [documentTurn]
  by_cases hdeep : path.length > maximumPathDepth
  · rw [if_pos hdeep]
    exact Turn.layers_quiet _
  rw [if_neg hdeep]
  by_cases hcycle :
      (isContainer H value && ancestors.any (H.same value)) = true
  · rw [if_pos hcycle]
    exact Turn.layers_quiet _
  rw [if_neg hcycle]
  cases hread : readNode P H value path inherited expected with
  | mk findings node? =>
    cases node? with
    | none => exact Turn.layers_quiet _
    | some node =>
        obtain ⟨-, hdocument, -⟩ := readNode_ok hread
        obtain ⟨members, hlook, -⟩ := readDocument_look hdocument
        have hany : ¬ ancestors.any (H.same value) = true := by
          simpa [isContainer, hlook] using hcycle
        refine ⟨⟨path, fun work hwork => ?_⟩, fresh_of_not_any
          (hlawful.object value _ _ _ hlook) hany⟩
        obtain ⟨field, hfield, rfl⟩ := List.mem_map.mp hwork
        exact ⟨above, value, path, inherited, expected, findings, rfl, h,
          hread, hfield⟩

theorem Work.turn_layers (hlawful : H.Lawful) {work : Work ι}
    (hwork : work.Within P H root above) :
    (work.turn P H ancestors).Layers P H root above ancestors := by
  cases work with
  | leave value => exact hwork.elim
  | finding d => exact Turn.layers_quiet _
  | extension entry p keywords => exact extensionTurn_layers hlawful hwork
  | reference node key range entry p =>
      rw [Work.turn]
      by_cases hrecord : isRecord H entry = true
      · rw [if_pos hrecord]
        exact documentTurn_layers hlawful hwork
      · rw [if_neg hrecord]
        exact Turn.layers_quiet _
  | field node field =>
      obtain ⟨rest, value, path, inherited, expected, findings, rfl, h, hread,
        hfield⟩ := hwork
      rw [Work.turn]
      dsimp only
      split
      next => exact Turn.layers_quiet _
      next entry p hfollow =>
        have hlayers : (extensionTurn H ancestors entry p true).Layers P H root
            ((path, value) :: rest) ancestors :=
          extensionTurn_layers hlawful
            (h.opaqueField findings node hread field hfield entry p hfollow)
        exact ⟨hlayers.pushed, hlayers.fresh⟩
      next visits key range hfollow =>
        refine ⟨⟨path, fun work hwork => ?_⟩, by simp⟩
        obtain ⟨visit, hvisit, rfl⟩ := List.mem_map.mp hwork
        cases visit with
        | finding d => exact trivial
        | entry entry p =>
            exact h.embedded findings node hread field hfield visits key range
              hfollow entry p hvisit

theorem Turn.Layers.take {turn : Turn ι}
    (hturn : turn.Layers P H root above ancestors) {rest : List (Work ι)}
    (h : Layered P H root above rest ancestors) (walk : WalkState ι) :
    let s := StackState.take ⟨walk, ancestors, rest⟩ turn
    ∃ above, Layered P H root above s.pending s.ancestors := by
  obtain ⟨path, hpushed⟩ := hturn.pushed
  cases hentered : turn.entered with
  | none =>
      rw [hentered] at hpushed
      refine ⟨above, ?_⟩
      simpa [StackState.take, hentered] using h.append hpushed
  | some value =>
      rw [hentered] at hpushed
      obtain ⟨hself, hfresh⟩ := hturn.fresh value hentered
      refine ⟨(path, value) :: above, ?_⟩
      simpa [StackState.take, hentered] using
        (Layered.leave path value hself hfresh h).append hpushed

/-- One turn of the loop keeps the stack in layers. -/
theorem Layered.step (hlawful : H.Lawful) {s s' : StackState ι}
    (h : Layered P H root above s.pending s.ancestors)
    (hstep : s.step P H = some s') :
    ∃ above, Layered P H root above s'.pending s'.ancestors := by
  cases hpending : s.pending with
  | nil => simp [StackState.step, hpending] at hstep
  | cons work rest =>
      obtain rfl := eq_run_of_step hpending hstep
      rw [hpending] at h
      generalize hancestors : s.ancestors = ancestors at h
      cases h with
      | work _ hwork h =>
          have htake := (Work.turn_layers hlawful hwork).take h s.walk
          cases work with
          | leave value => exact hwork.elim
          | _ => subst hancestors; exact htake
      | @leave above _ _ path value hself hfresh h =>
          refine ⟨above, ?_⟩
          simpa [StackState.run, hancestors, hself,
            filter_same_of_fresh hfresh] using h

/-- At every moment of a run the ancestors are those of one position. -/
theorem layered_of_steps (hlawful : H.Lawful) {s : StackState ι}
    (hsteps : StackState.Steps P H (StackState.start P H root) s) :
    ∃ above, Layered P H root above s.pending s.ancestors := by
  induction hsteps with
  | refl =>
      exact (documentTurn_layers hlawful .root).take .nil WalkState.start
  | tail _ hstep ih =>
      obtain ⟨above, h⟩ := ih
      exact h.step hlawful hstep

theorem Work.Within.encloses {work : Work ι}
    (hwork : work.Within P H root above)
    (hposition : work.position P H = some (value, path)) :
    ∃ around place, Encloses P H root around value path place ∧
      around = above := by
  cases work with
  | field node field =>
      obtain ⟨rest, outer, p, inherited, expected, findings, rfl, h, hread,
        hfield⟩ := hwork
      simp only [Work.position] at hposition
      split at hposition
      next entry q hfollow =>
        obtain ⟨rfl, rfl⟩ := Prod.mk.inj (Option.some.inj hposition)
        exact ⟨_, _, h.opaqueField findings node hread field hfield _ _
          hfollow, rfl⟩
      next => cases hposition
  | reference node key range entry p =>
      simp only [Work.position] at hposition
      split at hposition
      next hrecord =>
        obtain ⟨rfl, rfl⟩ := Prod.mk.inj (Option.some.inj hposition)
        exact ⟨_, _, hwork, rfl⟩
      next => cases hposition
  | extension entry p keywords =>
      obtain ⟨rfl, rfl⟩ := Prod.mk.inj (Option.some.inj hposition)
      exact ⟨_, _, hwork, rfl⟩
  | _ => cases hposition

/-- Whenever the loop turns to a document or an extension value, it reports a
cycle there exactly when the value is one of those that enclose it. -/
theorem reportsCycle_iff (hlawful : H.Lawful) {s : StackState ι}
    (hsteps : StackState.Steps P H (StackState.start P H root) s)
    {work : Work ι} {rest : List (Work ι)}
    (hpending : s.pending = work :: rest)
    (hposition : work.position P H = some (value, path))
    (hdepth : path.length ≤ maximumPathDepth) :
    ∃ above place, Encloses P H root above value path place ∧
      ((work.turn P H s.ancestors).ReportsCycle path ↔
        ∃ entry ∈ above, H.same value entry.2 = true) := by
  obtain ⟨above, hlayered⟩ := layered_of_steps hlawful hsteps
  rw [hpending] at hlayered
  have hancestors := hlayered.ancestors_eq
  generalize s.ancestors = ancestors at *
  cases hlayered with
  | leave path value hself hfresh h => cases hposition
  | work _ hwork h =>
      obtain ⟨_, place, hencloses, rfl⟩ := hwork.encloses hposition
      refine ⟨_, place, hencloses, ?_⟩
      rw [Work.turn_reportsCycle hposition hdepth, hancestors, List.any_map,
        List.any_eq_true]
      constructor
      · rintro ⟨-, entry, hentry, hsame⟩
        exact ⟨entry, hentry, hsame⟩
      · rintro ⟨entry, hentry, hsame⟩
        refine ⟨?_, entry, hentry, hsame⟩
        rw [hlawful.eq _ _ hsame]
        exact ((hencloses.around hlawful).on entry hentry).2.2.2

end Runs

end DrFed.Document
