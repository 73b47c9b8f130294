import DrFed.Document.Graph
import DrFed.Document.Plain
import DrFed.Document.Reduced

/-!
# Admission of arbitrary values

The safety of validation on any graph of values: it does not depend on what
accessors return, it reports a cycle where a value lies inside itself, and
what it accepts is a finite tree of plain data.
-/

namespace DrFed.Document

/-! ## Accepted walks over any value -/

section Values

variable {P : Platform} {ι : Type} {H : Values ι} {root value : ι}
  {path : FieldPath} {above : Chain ι} {place : Place}

theorem checkDocumentValue_runItem
    (h : (checkDocumentValue P H root).reporter.accepts = true) :
    checkDocumentValue P H root = WalkState.start.runItem
      (walkEvents (checkDocument P H walkFuel [] root [] none none none)) := by
  rw [walkEvents, WalkState.runItem_append]
  refine WalkState.runItems_of_accepts ?_ h
  rw [WalkState.runItem_eq]
  exact Reporter.createReporter_sound.reportAll _

/-- An accepted walk reports no error. -/
theorem quietWalk_of_accepts
    (h : (checkDocumentValue P H root).reporter.accepts = true) :
    QuietWalk (checkDocument P H walkFuel [] root [] none none none) := by
  have hquiet : Quiet
      (walkEvents (checkDocument P H walkFuel [] root [] none none none)) := by
    rw [quiet_iff]
    rw [checkDocumentValue_runItem h, WalkState.runItem_eq] at h
    exact (Reporter.accepts_reportAll Reporter.createReporter_sound h).2
  exact ⟨hquiet.of_subset fun event hevent =>
      mem_walkEvents.mpr (.inl hevent),
    fun item hitem => hquiet.of_subset fun event hevent =>
      mem_walkEvents.mpr (.inr ⟨item, hitem, hevent⟩)⟩

/-- What an accepted walk leaves at a position that it reaches: a value that
it goes through without an error. -/
inductive QuietAt (P : Platform) (H : Values ι) (value : ι)
    (path : FieldPath) : Place → Prop
  | document (fuel : ℕ) (ancestors : List ι) (inherited : Option Terms)
      (expected fedify : Option (List VocabularyType))
      (h : QuietWalk (checkDocument P H fuel ancestors value path inherited
        expected fedify)) : QuietAt P H value path (.document inherited expected)
  | reference (inherited : Option Terms)
      (expected : Option (List VocabularyType))
      (h : isRecord H value = false) :
      QuietAt P H value path (.document inherited expected)
  | extension (fuel : ℕ) (ancestors : List ι) (keywords : Bool)
      (h : QuietExtension
        (checkExtension H fuel ancestors value path keywords)) :
      QuietAt P H value path .extension

/-- A document that can be read at a quiet position is quiet. -/
theorem QuietAt.field {inherited : Option Terms}
    {expected : Option (List VocabularyType)} {findings : List Diagnostic}
    {node : Node ι} {field : Field ι}
    (h : QuietAt P H value path (.document inherited expected))
    (hread : readNode P H value path inherited expected =
      (findings, some node)) (hfield : field ∈ node.checkedFields) :
    ∃ n ancestors, QuietField H P n ancestors node field := by
  cases h with
  | document fuel ancestors _ _ fedify hquiet =>
      obtain ⟨-, n, -, -, findings', node', hread', hfields⟩ := hquiet.inv
      rw [hread] at hread'
      obtain ⟨-, heq⟩ := Prod.mk.inj hread'
      obtain rfl := Option.some.inj heq
      exact ⟨n, _, hfields field hfield⟩
  | reference _ _ hrecord =>
      obtain ⟨members, hlook, -⟩ := readDocument_look (readNode_ok hread).2.1
      simp [isRecord, hlook] at hrecord

theorem Encloses.quietAt
    (haccepts : (checkDocumentValue P H root).reporter.accepts = true)
    (h : Encloses P H root above value path place) :
    QuietAt P H value path place := by
  induction h with
  | root => exact .document _ _ _ _ _ (quietWalk_of_accepts haccepts)
  | embedded h findings node hread field hfield visits key range hfollow entry
      p hentry ih =>
      obtain ⟨n, ancestors, hquiet⟩ := ih.field hread hfield
      have hbelow := hquiet.entries visits key range hfollow entry p hentry
      unfold QuietEntry at hbelow
      split at hbelow
      next => exact .document _ _ _ _ _ hbelow
      next hrecord => exact .reference _ _ (by simpa using hrecord)
  | opaqueField h findings node hread field hfield entry p hfollow ih =>
      obtain ⟨n, ancestors, hquiet⟩ := ih.field hread hfield
      exact .extension _ _ _ (hquiet.extension entry p hfollow)
  | item h entries named symbols hlook entry p hentry ih =>
      cases ih with
      | extension fuel ancestors keywords hquiet =>
          obtain ⟨-, n, -, -, harray, -⟩ := hquiet.inv
          exact .extension _ _ _ ((harray _ _ _ hlook).2 entry p hentry)
  | member h values hread entry hentry ih =>
      cases ih with
      | extension fuel ancestors keywords hquiet =>
          obtain ⟨-, n, -, -, -, hobject, -⟩ := hquiet.inv
          obtain ⟨members, hlook, -⟩ := readDocument_look hread
          obtain ⟨values', hread', hvalues⟩ := hobject _ _ _ hlook
          rw [hread] at hread'
          obtain rfl := Except.ok.inj hread'
          exact .extension _ _ _ (hvalues entry hentry)

/-- In an accepted value, documents and extension values lie within the depth
limit. -/
theorem Encloses.length_le
    (haccepts : (checkDocumentValue P H root).reporter.accepts = true)
    (h : Encloses P H root above value path place)
    (hplace : isRecord H value = true ∨ place = .extension) :
    path.length ≤ maximumPathDepth := by
  cases h.quietAt haccepts with
  | document fuel ancestors inherited expected fedify hquiet =>
      exact hquiet.inv.1
  | reference inherited expected hrecord =>
      rcases hplace with hplace | hplace
      · rw [hrecord] at hplace
        cases hplace
      · cases hplace
  | extension fuel ancestors keywords hquiet => exact hquiet.inv.1

theorem same_above_iff (hlawful : H.Lawful)
    (h : Encloses P H root above value path place) :
    (∃ entry ∈ above, H.same value entry.2 = true) ↔
      ∃ entry ∈ above, entry.2 = value := by
  refine exists_congr fun entry => and_congr_right fun hentry => ?_
  constructor
  · exact fun hsame => (hlawful.eq _ _ hsame).symm
  · rintro rfl
    obtain ⟨-, -, -, hcontainer⟩ := (h.around hlawful).on entry hentry
    unfold isContainer at hcontainer
    split at hcontainer
    next hlook => exact hlawful.array _ _ _ _ hlook
    next hlook => exact hlawful.object _ _ _ _ hlook
    next => cases hcontainer

end Values

/-! ## Heaps -/

section Heaps

variable (P : Platform) (h : Heap) (root : JsValue)

/-- A turn of the loop on a graph of values, for the value at a path. -/
def ReachesPosition (s : StackState JsValue) (work : Work JsValue)
    (value : JsValue) (path : FieldPath) : Prop :=
  StackState.Steps P h.values (StackState.start P h.values root) s ∧
    (∃ rest, s.pending = work :: rest) ∧
    work.position P h.values = some (value, path)

/-- Validation of any graph of values never invokes an accessor: no value
that an accessor returns changes what it does.  The loop reports a cycle where
the value is one of the documents and extension values that enclose it, which
are the containers on its path but for the lists of vocabulary properties.  What is
accepted is a finite tree of plain data, whose documents and extension values
lie within the depth limit. -/
theorem validateValue_safe :
    (∀ other : Heap, other.withoutGetters = h.withoutGetters →
      checkDocumentValue P other.values root =
          checkDocumentValue P h.values root ∧
        ∀ result, Validates P other.values root result ↔
          Validates P h.values root result) ∧
    (∃ s, StackState.Steps P h.values (StackState.start P h.values root) s ∧
      s.step P h.values = none ∧
      s.walk = checkDocumentValue P h.values root) ∧
    (∀ s work value path, ReachesPosition P h root s work value path →
      path.length ≤ maximumPathDepth →
      ∃ above place, Encloses P h.values root above value path place ∧
        Around h.values root path P above ∧
        ((work.turn P h.values s.ancestors).ReportsCycle path ↔
          ∃ entry ∈ above, entry.2 = value) ∧
        ((∀ q, q <+: path → q ≠ path → h.values.at root q ≠ some value) →
          ¬ (work.turn P h.values s.ancestors).ReportsCycle path)) ∧
    ∀ result, Validates P h.values root result → result.accepts = true →
      (∃ json : Json, json.Distinct ∧ json.Spells h.values root) ∧
      (∀ other held, h.values.Leads root other → h.values.Holds other held →
        ¬ h.values.Leads held other) ∧
      ∀ above value path place,
        Encloses P h.values root above value path place →
        isRecord h.values value = true ∨ place = .extension →
        path.length ≤ maximumPathDepth := by
  refine ⟨fun other hother => ?_, stack_runs h.lawful root, ?_, ?_⟩
  · rw [values_of_withoutGetters hother]
    exact ⟨rfl, fun _ => Iff.rfl⟩
  · rintro s work value path ⟨hsteps, ⟨rest, hpending⟩, hposition⟩ hdepth
    obtain ⟨above, place, hencloses, hreports⟩ :=
      reportsCycle_iff h.lawful hsteps hpending hposition hdepth
    rw [same_above_iff h.lawful hencloses] at hreports
    refine ⟨above, place, hencloses, hencloses.around h.lawful, hreports, ?_⟩
    intro hshared hcycle
    obtain ⟨entry, hentry, rfl⟩ := hreports.mp hcycle
    obtain ⟨hbelow, hne, hat, -⟩ := (hencloses.around h.lawful).on entry hentry
    exact hshared entry.1 hbelow hne hat
  · intro result hvalidates haccepts
    have hwalk := accepts_of_validates P h.values hvalidates haccepts
    obtain ⟨json, hdistinct, hspells⟩ := plain_of_document h.lawful _
      (quietWalk_of_accepts hwalk)
    exact ⟨⟨json, hdistinct, hspells⟩,
      fun other held hleads hheld => hspells.acyclic hleads hheld,
      fun above value path place hencloses => hencloses.length_le hwalk⟩

/-- An activity with the same note twice. -/
def twiceHeap : Heap
  | 0 => .record true
      [(js "type", .data (.string (js "Create")) true),
        (js "object", .data (.ref 1) true)] [] (by decide +kernel)
  | 1 => .array [some (.data (.ref 2) true), some (.data (.ref 2) true)] [] []
  | _ => .record true
      [(js "type", .data (.string (js "Note")) true),
        (js "content", .data (.string (js "a")) true)] [] (by decide +kernel)

/-- Two places of one note are accepted. -/
theorem validateValue_safe_twice :
    twiceHeap.values.at (.ref 0) [.key (js "object"), .index 0] =
        some (.ref 2) ∧
      twiceHeap.values.at (.ref 0) [.key (js "object"), .index 1] =
        some (.ref 2) ∧
      ∃ result, Validates reducedPlatform twiceHeap.values (.ref 0) result ∧
        result.accepts = true ∧
        (∃ json : Json, json.Distinct ∧
          json.Spells twiceHeap.values (.ref 0)) ∧
        ∀ other held, twiceHeap.values.Leads (.ref 0) other →
          twiceHeap.values.Holds other held →
          ¬ twiceHeap.values.Leads held other := by
  have hany : (validateValue reducedPlatform twiceHeap.values 8 (.ref 0)).any
      ValidationResult.accepts = true := by
    decide +kernel
  obtain ⟨result, hresult, haccepts⟩ := (Option.any_eq_true _ _).mp hany
  have hvalidates : Validates reducedPlatform twiceHeap.values (.ref 0)
      result := ⟨8, hresult⟩
  obtain ⟨-, -, -, haccepted⟩ :=
    validateValue_safe reducedPlatform twiceHeap (.ref 0)
  obtain ⟨hspelled, hacyclic, -⟩ := haccepted result hvalidates haccepts
  exact ⟨rfl, rfl, result, hvalidates, haccepts, hspelled, hacyclic⟩

/-- An activity whose object, in a list, refers to that list. -/
def listedHeap : Heap
  | 0 => .record true
      [(js "@context", .data (.string activityStreamsContext) true),
        (js "type", .data (.string (js "Create")) true),
        (js "object", .data (.ref 1) true)] [] (by decide +kernel)
  | 1 => .array [some (.data (.ref 2) true)] [] []
  | _ => .record true
      [(js "type", .data (.string (js "Note")) true),
        (js "siblings", .data (.ref 1) true)] [] (by decide +kernel)

/-- The state after some turns. -/
def StackState.turns : ℕ → StackState JsValue → Option (StackState JsValue)
  | 0, s => some s
  | n + 1, s => (s.step P h.values).bind (StackState.turns n)

theorem StackState.steps_of_turns {n : ℕ} {s s' : StackState JsValue}
    (hturns : s.turns P h n = some s') :
    StackState.Steps P h.values s s' := by
  induction n generalizing s with
  | zero =>
      obtain rfl := Option.some.inj hturns
      exact .refl
  | succ n ih =>
      obtain ⟨next, hstep, hnext⟩ := Option.bind_eq_some_iff.mp hturns
      exact .head hstep (ih hnext)

/-- A list of a vocabulary property is not an ancestor: the extension value at
`siblings` is the list at `object`, and no cycle is reported there. -/
theorem validateValue_list_of_reference :
    let path := [Segment.key (js "object"), .index 0, .key (js "siblings")]
    ∃ s work,
      ReachesPosition reducedPlatform listedHeap (.ref 0) s work (.ref 1) path ∧
      path.length ≤ maximumPathDepth ∧
      listedHeap.values.at (.ref 0) [.key (js "object")] = some (.ref 1) ∧
      isContainer listedHeap.values (.ref 1) = true ∧
      ¬ (work.turn reducedPlatform listedHeap.values s.ancestors).ReportsCycle
        path := by
  intro path
  have hrun : ((StackState.start reducedPlatform listedHeap.values
      (.ref 0)).turns reducedPlatform listedHeap 2).any (fun s =>
        (s.pending.head?.bind fun work =>
          work.position reducedPlatform listedHeap.values) ==
            some (JsValue.ref 1, path) &&
          !s.ancestors.any (listedHeap.values.same (.ref 1))) = true := by
    decide +kernel
  obtain ⟨s, hs, hchecked⟩ :=
    (Option.any_eq_true _ _).mp hrun
  obtain ⟨hposition, hancestors⟩ := (Bool.and_eq_true _ _).mp hchecked
  obtain ⟨work, hhead, hposition⟩ :=
    Option.bind_eq_some_iff.mp (beq_iff_eq.mp hposition)
  obtain ⟨rest, hpending⟩ := List.head?_eq_some_iff.mp hhead
  have hdepth : path.length ≤ maximumPathDepth := by decide
  refine ⟨s, work, ⟨StackState.steps_of_turns _ _ hs, ⟨rest, hpending⟩,
    hposition⟩, hdepth, rfl, rfl, ?_⟩
  rw [Work.turn_reportsCycle hposition hdepth]
  rintro ⟨-, hany⟩
  rw [hany] at hancestors
  cases hancestors

end Heaps

end DrFed.Document
