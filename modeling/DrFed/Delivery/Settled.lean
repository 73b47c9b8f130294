import DrFed.Delivery.Progress

/-!
# What the two processes leave behind

Whatever the order of their statements, the recorder and the worker leave the
row of the delivery as if the recorder had run to its end first.
-/

namespace DrFed.Delivery

open Interleaving

variable {d : Scenario}

/-! ## What is left to do -/

/-- The version of the row that counts: that of the transaction that holds it,
else the committed one. -/
def Reception.latest (s : Reception) : Option ActivityDelivery :=
  match s.held with
  | some (_, version) => some version
  | none => s.row

/-- What the row says at last, or which command is left to write it. -/
structure Settling (d : Scenario) (s : ReceptionState) : Prop where
  status : d.status = .acknowledged → d.listened = true →
    (∃ row, s.shared.row = some row ∧ row.status = .received) ∨
      Pending s .receivedMeanwhile ∨ Pending s .receiveInbound ∨
        Pending s (.update .receive)
  fetched : d.status = .acknowledged → ∀ document,
    d.reported = some document →
    (∃ row, s.shared.latest = some row ∧
      row.fetchedObject = storedObject (some document)) ∨
      Pending s .fetchedMeanwhile ∨
        Pending s (.recordFetchedObject document) ∨
          Pending s (.update (.fetchedObject document))
  linked : d.Accepted → ∀ activity,
    activityOf d.activities d.recorded = some activity →
    (∃ row, s.shared.latest = some row ∧
      row.activityId = some activity.id) ∨
      Pending s .linkInboundActivity ∨
        Pending s (.update (.link activity.id))

theorem Settling.start (d : Scenario) : Settling d d.start := by
  constructor
  case status =>
    intro hacknowledged _
    refine .inr (.inl ⟨.recorder, ?_⟩)
    simp [Scenario.start, Scenario.recorder, hacknowledged]
  case fetched =>
    intro hacknowledged document _
    refine .inr (.inl ⟨.recorder, ?_⟩)
    simp [Scenario.start, Scenario.recorder, hacknowledged]
  case linked =>
    intro _ activity _
    refine .inr (.inl ⟨.recorder, ?_⟩)
    simp [Scenario.start, Scenario.recorder]

section Step

variable {s after : ReceptionState} {i : Thread} {command : Command}
  {more rest : List Command}

/-- While nothing is recorded, the whole code of the recorder is left. -/
theorem Progress.unrecorded (h : Progress d s) (hrow : s.shared.row = none) :
    Pending s .linkInboundActivity ∧
      (d.status = .acknowledged →
        Pending s .receivedMeanwhile ∧ Pending s .fetchedMeanwhile) := by
  obtain ⟨hcode, -⟩ := h.recording hrow
  refine ⟨⟨.recorder, ?_⟩, fun hstatus => ⟨⟨.recorder, ?_⟩, .recorder, ?_⟩⟩
  all_goals
    rw [hcode]
    simp [Scenario.recorder, *]

/-- The committed status of an acknowledged delivery only becomes received. -/
theorem Progress.received_step (h : Progress d s) (hdecided : Decided s)
    (hran : Ran d s after i command more rest) {row : ActivityDelivery}
    (hrow : s.shared.row = some row) (hreceived : row.status = .received) :
    ∃ row, after.shared.row = some row ∧ row.status = .received := by
  have hhead : command ∈ s.threads i := by
    rw [hran.before]
    exact List.mem_cons_self
  have heffect := hran.effect
  generalize after.shared = shared at heffect ⊢
  cases heffect
  case recordInbound =>
    rw [(h.once i hhead).1] at hrow
    cases hrow
  case commit holder version hheld =>
    obtain ⟨other, hother, hstatus, -⟩ := hdecided.held holder version hheld
    obtain rfl := Option.some.inj (hrow.symm.trans hother)
    exact ⟨version, rfl, hstatus.trans hreceived⟩
  case receive => exact ⟨_, rfl, rfl⟩
  all_goals exact ⟨row, hrow, hreceived⟩

theorem Settling.status_step (h : Settling d s) (hprogress : Progress d s)
    (hdecided : Decided s) (hran : Ran d s after i command more rest)
    (hacknowledged : d.status = .acknowledged) (hlistened : d.listened = true) :
    (∃ row, after.shared.row = some row ∧ row.status = .received) ∨
      Pending after .receivedMeanwhile ∨ Pending after .receiveInbound ∨
        Pending after (.update .receive) := by
  have hstatus : ∀ row, s.shared.row = some row →
      row.status ≠ .acknowledged → row.status = .received := by
    intro row hrow hne
    rcases (hprogress.versions row (.inl hrow)).status with heq | ⟨-, -, heq⟩
    · exact absurd (heq.trans hacknowledged) hne
    · exact heq
  have hunrecorded : s.shared.row = none → command ≠ .receivedMeanwhile →
      Pending after .receivedMeanwhile := fun hrow hne =>
    hran.pending ((hprogress.unrecorded hrow).2 hacknowledged).1 hne.symm
  by_cases hcommand : command = .receivedMeanwhile ∨
      command = .receiveInbound ∨ command = .update .receive
  · have heffect := hran.effect
    rcases hcommand with rfl | rfl | rfl
    · -- A request that finds no mark leaves the row to the worker.
      cases heq : s.shared.received with
      | true =>
          refine .inr (.inr (.inl (hran.pending_more ?_)))
          generalize after.shared = shared at heffect
          cases heffect
          case receivedMeanwhile => exact List.mem_singleton_self _
          case notReceivedMeanwhile hnone => simp [heq] at hnone
      | false =>
          rcases hprogress.marking hlistened with hmarked | hbefore
          · simp [heq] at hmarked
          · refine .inr (.inr (.inl (hran.pending ⟨.worker, ?_⟩ (by simp))))
            exact hbefore.mem (List.mem_singleton_self _)
    · generalize hshared : after.shared = shared at heffect ⊢
      cases heffect
      case findReceived =>
        exact .inr (.inr (.inr (hran.pending_more (List.mem_singleton_self _))))
      case missReceived hmiss =>
        cases hrow : s.shared.row with
        | none => exact .inr (.inl (hunrecorded hrow (by simp)))
        | some row => exact .inl ⟨row, rfl, hstatus row hrow (hmiss row hrow)⟩
    · generalize hshared : after.shared = shared at heffect ⊢
      cases heffect
      case missUpdate _ hrow => exact .inr (.inl (hunrecorded hrow (by simp)))
      case receive => exact .inl ⟨_, rfl, rfl⟩
      case passReceive row _ hrow hne =>
        exact .inl ⟨row, hrow, hstatus row hrow hne⟩
  · simp only [not_or] at hcommand
    rcases h.status hacknowledged hlistened with ⟨row, hrow, hreceived⟩ |
      hpending | hpending | hpending
    · exact .inl (hprogress.received_step hdecided hran hrow hreceived)
    · exact .inr (.inl (hran.pending hpending (Ne.symm hcommand.1)))
    · exact .inr (.inr (.inl (hran.pending hpending (Ne.symm hcommand.2.1))))
    · exact .inr (.inr (.inr (hran.pending hpending (Ne.symm hcommand.2.2))))

/-- The version that counts keeps what it fetched until another object is
recorded, and its link for good. -/
theorem Effect.latest {t shared : Reception}
    (h : Effect d i t command shared more) {row : ActivityDelivery}
    (hrow : t.latest = some row) (hne : command ≠ .recordInbound) :
    ∃ version, shared.latest = some version ∧
      (version.fetchedObject = row.fetchedObject ∨ ∃ document,
        command = .update (.fetchedObject document) ∧
          version.fetchedObject = storedObject (some document)) ∧
      ∀ id, row.activityId = some id → version.activityId = some id := by
  unfold Reception.latest at hrow ⊢
  cases h <;> simp_all [Reception.hold, linkable]

theorem Progress.latest_step (h : Progress d s)
    (hran : Ran d s after i command more rest) {row : ActivityDelivery}
    (hrow : s.shared.latest = some row) :
    ∃ version, after.shared.latest = some version ∧
      (∀ document, d.reported = some document →
        row.fetchedObject = storedObject (some document) →
        version.fetchedObject = storedObject (some document)) ∧
      ∀ id, row.activityId = some id → version.activityId = some id := by
  have hhead : command ∈ s.threads i := by
    rw [hran.before]
    exact List.mem_cons_self
  have hne : command ≠ .recordInbound := by
    rintro rfl
    have hnone := (h.once i hhead).1
    have hfree := (h.recording hnone).2
    simp [Reception.latest, hnone, hfree] at hrow
  obtain ⟨version, hversion, hfetched, hlinked⟩ := hran.effect.latest hrow hne
  refine ⟨version, hversion, fun document hreported hsame => ?_, hlinked⟩
  rcases hfetched with heq | ⟨other, rfl, heq⟩
  · exact heq.trans hsame
  · have hother : d.reported = some other := h.known i _ hhead
    obtain rfl := Option.some.inj (hreported.symm.trans hother)
    exact heq

theorem Settling.fetched_step (h : Settling d s) (hprogress : Progress d s)
    (hran : Ran d s after i command more rest)
    (hacknowledged : d.status = .acknowledged) {document : Json}
    (hreported : d.reported = some document) :
    (∃ row, after.shared.latest = some row ∧
      row.fetchedObject = storedObject (some document)) ∨
      Pending after .fetchedMeanwhile ∨
        Pending after (.recordFetchedObject document) ∨
          Pending after (.update (.fetchedObject document)) := by
  have hunrecorded : s.shared.row = none → command ≠ .fetchedMeanwhile →
      Pending after .fetchedMeanwhile := fun hrow hne =>
    hran.pending ((hprogress.unrecorded hrow).2 hacknowledged).2 hne.symm
  by_cases hcommand : command = .fetchedMeanwhile ∨
      command = .recordFetchedObject document ∨
        command = .update (.fetchedObject document)
  · have heffect := hran.effect
    rcases hcommand with rfl | rfl | rfl
    · cases heq : s.shared.fetchedObject with
      | some other =>
          have hother := hprogress.left other heq
          obtain rfl := Option.some.inj (hreported.symm.trans hother)
          refine .inr (.inr (.inl (hran.pending_more ?_)))
          generalize after.shared = shared at heffect
          cases heffect
          case fetchedMeanwhile other hsome =>
            obtain rfl := Option.some.inj (heq.symm.trans hsome)
            exact List.mem_singleton_self _
          case notFetchedMeanwhile hnone => simp [heq] at hnone
      | none =>
          rcases hprogress.leaving document hreported with hleft | hbefore
          · simp [heq] at hleft
          · refine .inr (.inr (.inl (hran.pending ⟨.worker, ?_⟩ (by simp))))
            exact hbefore.mem (List.mem_singleton_self _)
    · generalize hshared : after.shared = shared at heffect ⊢
      cases heffect
      case findFetched =>
        exact .inr (.inr (.inr (hran.pending_more (List.mem_singleton_self _))))
      case missFetched hrow => exact .inr (.inl (hunrecorded hrow (by simp)))
    · generalize hshared : after.shared = shared at heffect ⊢
      cases heffect
      case missUpdate _ hrow => exact .inr (.inl (hunrecorded hrow (by simp)))
      case holdFetched => exact .inl ⟨_, rfl, rfl⟩
  · simp only [not_or] at hcommand
    rcases h.fetched hacknowledged document hreported with
      ⟨row, hrow, hfetched⟩ | hpending | hpending | hpending
    · obtain ⟨version, hversion, hkeeps, -⟩ := hprogress.latest_step hran hrow
      exact .inl ⟨version, hversion, hkeeps document hreported hfetched⟩
    · exact .inr (.inl (hran.pending hpending (Ne.symm hcommand.1)))
    · exact .inr (.inr (.inl (hran.pending hpending (Ne.symm hcommand.2.1))))
    · exact .inr (.inr (.inr (hran.pending hpending (Ne.symm hcommand.2.2))))

/-- An accepted version that is linked names the stored activity. -/
theorem Progress.linked_eq (h : Progress d s) {row : ActivityDelivery}
    (hrow : s.shared.Version row) (haccepted : d.Accepted)
    (hlinkable : linkable row = false) {activity : ReceivedActivity}
    (hfound : activityOf d.activities d.recorded = some activity) :
    row.activityId = some activity.id := by
  have hfollows := h.versions row hrow
  rw [hfollows.linkable_eq haccepted] at hlinkable
  obtain ⟨id, hid⟩ := Option.isSome_iff_exists.mp
    (Option.isNone_eq_false_iff.mp hlinkable)
  obtain ⟨-, other, hother, rfl⟩ := hfollows.linked id hid
  obtain ⟨iri, hiri, hactivity⟩ := Option.bind_eq_some_iff.mp hother
  have hlater : activityOf d.activities d.recorded = some other :=
    Option.bind_eq_some_iff.mpr ⟨iri, hiri, h.holds.kept hactivity⟩
  obtain rfl := Option.some.inj (hlater.symm.trans hfound)
  exact hid

theorem Settling.linked_step (h : Settling d s) (hprogress : Progress d s)
    (hdecided : Decided s) (hran : Ran d s after i command more rest)
    (haccepted : d.Accepted) {activity : ReceivedActivity}
    (hfound : activityOf d.activities d.recorded = some activity) :
    (∃ row, after.shared.latest = some row ∧
      row.activityId = some activity.id) ∨
      Pending after .linkInboundActivity ∨
        Pending after (.update (.link activity.id)) := by
  -- A committed link is also that of the version that counts.
  have hlatest : ∀ row, s.shared.row = some row → linkable row = false →
      ∃ version, after.shared.latest = some version ∧
        version.activityId = some activity.id := by
    intro row hrow hlinkable
    have hid := hprogress.linked_eq (.inl hrow) haccepted hlinkable hfound
    have hnow : ∃ version, s.shared.latest = some version ∧
        version.activityId = some activity.id := by
      unfold Reception.latest
      cases hheld : s.shared.held with
      | none => exact ⟨row, hrow, hid⟩
      | some held =>
          obtain ⟨other, hother, -, hkeeps⟩ :=
            hdecided.held held.1 held.2 hheld
          obtain rfl := Option.some.inj (hrow.symm.trans hother)
          exact ⟨held.2, rfl, hkeeps _ hid⟩
    obtain ⟨version, hversion, hlinked⟩ := hnow
    obtain ⟨next, hnext, -, hkeeps⟩ := hprogress.latest_step hran hversion
    exact ⟨next, hnext, hkeeps _ hlinked⟩
  by_cases hcommand : command = .linkInboundActivity ∨
      command = .update (.link activity.id)
  · have heffect := hran.effect
    rcases hcommand with rfl | rfl
    · cases hrow : s.shared.row with
      | none =>
          -- The worker looks before the request has recorded the delivery.
          have hcode := (hprogress.recording hrow).1
          have hother : .recorder ≠ i := by
            rintro rfl
            rw [hran.before] at hcode
            cases (List.cons.inj hcode).1
          refine .inr (.inl ⟨.recorder, ?_⟩)
          rw [hran.others .recorder hother, hcode]
          simp [Scenario.recorder]
      | some row =>
          cases hlinkable : linkable row with
          | false => exact .inl (hlatest row hrow hlinkable)
          | true =>
              have hiri : row.activityIri = d.recorded.activityIri :=
                (hprogress.versions row (.inl hrow)).iri
              generalize hshared : after.shared = shared at heffect hlatest ⊢
              cases heffect
              case findLink found other hfoundRow _ hother =>
                obtain rfl := Option.some.inj (hrow.symm.trans hfoundRow)
                obtain ⟨iri, hsome, hactivity⟩ :=
                  Option.bind_eq_some_iff.mp hother
                have hlater : activityOf d.activities row = some other :=
                  Option.bind_eq_some_iff.mpr
                    ⟨iri, hsome, hprogress.holds.kept hactivity⟩
                rw [activityOf_congr hiri, hfound] at hlater
                obtain rfl := Option.some.inj hlater
                exact .inr (.inr (hran.pending_more
                  (List.mem_singleton_self _)))
              case missLink hmiss =>
                -- The listener has not stored the activity yet.
                have hnone := hmiss row hrow hlinkable
                rw [activityOf_congr hiri] at hnone
                rcases hprogress.handling with heq | hbefore
                · rw [heq, hfound] at hnone
                  cases hnone
                · refine .inr (.inl ⟨.worker, ?_⟩)
                  by_cases hi : .worker = i
                  · subst hi
                    rw [hran.before] at hbefore
                    rw [hran.thread]
                    exact List.mem_append_right _
                      (hbefore.rest (List.mem_singleton_self _))
                  · rw [hran.others .worker hi]
                    exact hbefore.mem (List.mem_singleton_self _)
    · generalize hshared : after.shared = shared at heffect hlatest ⊢
      cases heffect
      case missUpdate _ hrow =>
        exact .inr (.inl (hran.pending (hprogress.unrecorded hrow).1 (by simp)))
      case holdLink => exact .inl ⟨_, rfl, rfl⟩
      case passLink row _ hrow hlinkable =>
        exact .inl (hlatest row hrow hlinkable)
  · simp only [not_or] at hcommand
    rcases h.linked haccepted activity hfound with
      ⟨row, hrow, hlinked⟩ | hpending | hpending
    · obtain ⟨version, hversion, -, hkeeps⟩ := hprogress.latest_step hran hrow
      exact .inl ⟨version, hversion, hkeeps _ hlinked⟩
    · exact .inr (.inl (hran.pending hpending (Ne.symm hcommand.1)))
    · exact .inr (.inr (hran.pending hpending (Ne.symm hcommand.2)))

end Step

/-! ## The end of both processes -/

/-- What holds in every state that the processes reach. -/
structure Invariant (d : Scenario) (s : ReceptionState) : Prop where
  progress : Progress d s
  decided : Decided s
  settling : Settling d s

theorem Invariant.step {s after : ReceptionState} {i : Thread}
    (h : Invariant d s) (hstep : s.step (receptionMachine d) i = some after) :
    Invariant d after := by
  obtain ⟨hprogress, hdecided, hsettling⟩ := h
  obtain ⟨command, more, rest, hran⟩ := ran_of_step hstep
  exact ⟨hprogress.step hran, hdecided.step hprogress hran,
    fun hacknowledged hlistened => hsettling.status_step hprogress hdecided
      hran hacknowledged hlistened,
    fun hacknowledged document hreported =>
      hsettling.fetched_step hprogress hran hacknowledged hreported,
    fun haccepted activity hfound =>
      hsettling.linked_step hprogress hdecided hran haccepted hfound⟩

theorem Invariant.start (d : Scenario) : Invariant d d.start :=
  ⟨.start d, .start d, .start d⟩

theorem not_pending_of_finished {s : ReceptionState} (h : s.Finished)
    (command : Command) : ¬Pending s command := by
  rintro ⟨i, hmem⟩
  rw [h i] at hmem
  cases hmem

/-- What is left when both processes have ended: the row says what happened,
in whatever order it was written. -/
structure Settled (d : Scenario) (row : ActivityDelivery) : Prop where
  /-- An acknowledged delivery is received if the listener ran. -/
  status : d.status = .acknowledged →
    (row.status = .received ↔ d.listened = true)
  payload : row.payload = jsonb d.payload
  /-- The object that the listener fetched is recorded. -/
  fetched : d.status = .acknowledged →
    row.fetchedObject = match d.reported with
      | some document => storedObject (some document)
      | none => storedObject d.requestObject
  /-- The row is linked to the activity that its IRI names, if that one is
  stored and the delivery was verified and answered with 2xx. -/
  linked : ∀ id, row.activityId = some id ↔ d.Accepted ∧ ∃ activity,
    activityOf d.activities d.recorded = some activity ∧ activity.id = id
  /-- The marks are those of the linked activity. -/
  carried : row.marks = decided d.activities row

/-- The listener has run once both processes have ended. -/
theorem Invariant.stored {s : ReceptionState} (h : Invariant d s)
    (hdone : s.Finished) : s.shared.activities = d.activities := by
  refine h.progress.handling.resolve_right fun hbefore => ?_
  exact not_pending_of_finished hdone _
    ⟨.worker, hbefore.mem (List.mem_singleton_self _)⟩

theorem Invariant.settled {s : ReceptionState} (h : Invariant d s)
    (hdone : s.Finished) :
    ∃ row, s.shared.row = some row ∧ Settled d row := by
  have hnone := not_pending_of_finished hdone
  obtain ⟨row, hrow⟩ : ∃ row, s.shared.row = some row := by
    refine Option.ne_none_iff_exists'.mp fun hrow => ?_
    exact hnone _ (h.progress.unrecorded hrow).1
  have hfree : s.shared.held = none := by
    cases hheld : s.shared.held with
    | none => rfl
    | some held =>
        obtain ⟨command, rest, hthread, -⟩ :=
          h.decided.holder held.1 held.2 hheld
        rw [hdone] at hthread
        cases hthread
  have hlatest : s.shared.latest = some row := by
    simp [Reception.latest, hfree, hrow]
  have hactivities := h.stored hdone
  have hfollows := h.progress.versions row (.inl hrow)
  refine ⟨row, hrow, ?_, hfollows.payload, ?_, ?_, ?_⟩
  · intro hacknowledged
    constructor
    · intro hreceived
      rcases hfollows.status with heq | ⟨-, hlistened, -⟩
      · rw [heq, hacknowledged] at hreceived
        cases hreceived
      · exact hlistened
    · intro hlistened
      rcases h.settling.status hacknowledged hlistened with
        ⟨other, hother, hreceived⟩ | hpending | hpending | hpending
      · obtain rfl := Option.some.inj (hrow.symm.trans hother)
        exact hreceived
      all_goals exact absurd hpending (hnone _)
  · intro hacknowledged
    cases hreported : d.reported with
    | none =>
        refine hfollows.fetched.resolve_right ?_
        rintro ⟨document, hsome, -⟩
        rw [hreported] at hsome
        cases hsome
    | some document =>
        rcases h.settling.fetched hacknowledged document hreported with
          ⟨other, hother, hfetched⟩ | hpending | hpending | hpending
        · obtain rfl := Option.some.inj (hlatest.symm.trans hother)
          exact hfetched
        all_goals exact absurd hpending (hnone _)
  · intro id
    rw [← hactivities]
    constructor
    · exact fun hid => hfollows.linked id hid
    · rintro ⟨haccepted, activity, hfound, rfl⟩
      rw [hactivities] at hfound
      rcases h.settling.linked haccepted activity hfound with
        ⟨other, hother, hid⟩ | hpending | hpending
      · obtain rfl := Option.some.inj (hlatest.symm.trans hother)
        exact hid
      all_goals exact absurd hpending (hnone _)
  · rw [← hactivities]
    exact h.decided.committed row hrow

/-! ## One process after the other -/

/-- A bound on the statements that a command leads to. -/
def Command.weight : Command → ℕ
  | .commit => 1
  | .mark _ => 2
  | .decideObject .. => 3
  | .decideActivity .. => 4
  | .decideCarried => 5
  | .update _ => 6
  | .receiveInbound | .recordFetchedObject _ | .linkInboundActivity => 7
  | .receivedMeanwhile | .fetchedMeanwhile => 8
  | _ => 1

theorem weight_more {i : Thread} {command : Command} {s shared : Reception}
    {more : List Command}
    (h : runCommand d i command s = some (shared, more)) :
    totalWeight Command.weight more < command.weight := by
  cases effect_of_run h <;> simp [Command.weight]

/-- No other thread holds the row. -/
structure Alone (d : Scenario) (i : Thread) (s : ReceptionState) : Prop where
  invariant : Invariant d s
  free : ∀ j row, s.shared.held = some (j, row) → j = i

theorem Effect.held_eq {i : Thread} {s after : Reception} {command : Command}
    {more : List Command} (h : Effect d i s command after more)
    (hfree : ∀ j row, s.held = some (j, row) → j = i) :
    ∀ j row, after.held = some (j, row) → j = i := by
  intro j row hheld
  cases h <;> grind [Reception.hold]

theorem Alone.step {i : Thread} {s after : ReceptionState} (h : Alone d i s)
    (hstep : s.step (receptionMachine d) i = some after) :
    Alone d i after := by
  obtain ⟨command, more, rest, hran⟩ := ran_of_step hstep
  exact ⟨h.invariant.step hstep, hran.effect.held_eq h.free⟩

theorem Alone.runs {i : Thread} {s : ReceptionState} (h : Alone d i s)
    {command : Command} {rest : List Command}
    (hthread : s.threads i = command :: rest) :
    runCommand d i command s.shared ≠ none := by
  have hholder : command.decides = true → s.shared.held ≠ none := by
    intro hdecides hfree
    have hidle := h.invariant.decided.idle i (by simp [hfree]) command
      (by rw [hthread]; exact List.mem_cons_self)
    rw [hdecides] at hidle
    cases hidle
  have hfree : ∀ update, command = .update update → s.shared.held = none := by
    rintro update rfl
    cases hheld : s.shared.held with
    | none => rfl
    | some held =>
        obtain rfl := h.free held.1 held.2 hheld
        obtain ⟨first, tail, hsame, hdeciding, -⟩ :=
          h.invariant.decided.holder held.1 held.2 hheld
        rw [hthread] at hsame
        obtain ⟨rfl, -⟩ := List.cons.inj hsame
        exact hdeciding.elim
  cases command
  case update update =>
    simp only [runCommand, hfree update rfl]
    cases s.shared.row <;> simp
  case decideCarried | mark | commit =>
    obtain ⟨held, hheld⟩ := Option.ne_none_iff_exists'.mp (hholder rfl)
    simp [runCommand, hheld]
  all_goals simp [runCommand]

theorem Alone.done {i : Thread} {s : ReceptionState} (h : Alone d i s)
    (fuel : ℕ) (hfuel : totalWeight Command.weight (s.threads i) ≤ fuel) :
    Alone d i (s.runAlone (receptionMachine d) i fuel) ∧
      (s.runAlone (receptionMachine d) i fuel).threads i = [] :=
  State.runAlone_done (fun hrun => weight_more hrun)
    (fun hs hstep => hs.step hstep) (fun hs _ _ hthread => hs.runs hthread)
    h fuel hfuel

/-- Run one after the other, both processes come to their end. -/
theorem sequential_settled (d : Scenario) :
    d.sequential.Finished ∧
      ∃ row, d.sequential.shared.row = some row ∧ Settled d row := by
  have hstart : Alone d .recorder d.start :=
    ⟨.start d, fun _ _ hheld => nomatch hheld⟩
  obtain ⟨hrecorded, hrecorder⟩ := hstart.done 40 (by
    simp only [Scenario.start, Scenario.recorder]
    split_ifs <;> simp [Command.weight])
  have hworker : (d.start.runAlone (receptionMachine d) .recorder 40).threads
      .worker = d.worker :=
    State.runAlone_threads (by decide) 40
  have hsecond : Alone d .worker
      (d.start.runAlone (receptionMachine d) .recorder 40) := by
    refine ⟨hrecorded.invariant, fun j row hheld => ?_⟩
    cases j with
    | worker => rfl
    | recorder =>
        obtain ⟨command, rest, hthread, -⟩ :=
          hrecorded.invariant.decided.holder .recorder row hheld
        rw [hrecorder] at hthread
        cases hthread
  obtain ⟨hlast, hdone⟩ := hsecond.done 40 (by
    rw [hworker]
    simp only [Scenario.worker]
    split_ifs
    all_goals
      split <;> simp [Command.weight])
  have hfinished : d.sequential.Finished := by
    intro i
    cases i with
    | worker => exact hdone
    | recorder =>
        exact (State.runAlone_threads (by decide) 40).trans hrecorder
  exact ⟨hfinished, hlast.invariant.settled hfinished⟩

theorem Scenario.accepted_iff (d : Scenario) :
    d.Accepted ↔
      d.verificationResult = .verified ∧ isSuccess d.statusCode = true := by
  unfold Scenario.Accepted Scenario.status classifyInbound
  cases isSuccess d.statusCode <;> cases d.handled <;>
    by_cases hverified : d.verificationResult = .verified <;> simp [hverified]

/-- Marks are decided from the link and the fetched object alone. -/
theorem Settled.marks_eq {row other : ActivityDelivery} (h : Settled d row)
    (hother : Settled d other) (hstatus : d.status ≠ .received) :
    row.marks = other.marks := by
  have hid : row.activityId = other.activityId := by
    refine Option.ext fun id => ?_
    rw [h.linked, hother.linked]
  rw [h.carried, hother.carried]
  by_cases hacknowledged : d.status = .acknowledged
  · have hfetched : row.fetchedObject = other.fetchedObject :=
      (h.fetched hacknowledged).trans (hother.fetched hacknowledged).symm
    have hpayload : row.payload = other.payload :=
      h.payload.trans hother.payload.symm
    rw [decided, decided, hid, hfetched, hpayload]
  · have hunlinked : row.activityId = none := by
      refine Option.eq_none_iff_forall_ne_some.mpr fun id hlinked => ?_
      rcases ((h.linked id).mp hlinked).1.1 with heq | heq
      · exact hstatus heq
      · exact hacknowledged heq
    rw [decided_unlinked hunlinked, decided_unlinked (hid ▸ hunlinked)]

/-- Once both processes have ended, the row tells what happened, and its marks
are those that the recorder and then the worker leave one after the other. -/
theorem reception_settled (d : Scenario) {s : ReceptionState}
    (h : Reachable (receptionMachine d) d.start s) (hdone : s.Finished) :
    ∃ row, s.shared.row = some row ∧
      (d.status = .acknowledged →
        (row.status = .received ↔ d.listened = true) ∧
        ∀ document, d.reported = some document →
          row.fetchedObject = storedObject (some document)) ∧
      (∀ id, row.activityId = some id ↔
        d.verificationResult = .verified ∧ isSuccess d.statusCode = true ∧
          ∃ activity, activityOf s.shared.activities row = some activity ∧
            activity.id = id) ∧
      (d.status ≠ .received → d.sequential.Finished ∧
        ∃ sequential, d.sequential.shared.row = some sequential ∧
          row.carriedSnapshot = sequential.carriedSnapshot ∧
          row.carriedObjectSnapshot = sequential.carriedObjectSnapshot) := by
  have hinvariant : Invariant d s :=
    h.invariant (.start d) fun hs hstep => hs.step hstep
  obtain ⟨row, hrow, hsettled⟩ := hinvariant.settled hdone
  obtain ⟨hfinished, sequential, hsequential, hlast⟩ := sequential_settled d
  have hactivities := hinvariant.stored hdone
  have hiri : row.activityIri = d.recorded.activityIri :=
    (hinvariant.progress.versions row (.inl hrow)).iri
  refine ⟨row, hrow, fun hacknowledged => ⟨hsettled.status hacknowledged, ?_⟩,
    fun id => ?_, fun hstatus => ⟨hfinished, sequential, hsequential, ?_⟩⟩
  · intro document hreported
    rw [hsettled.fetched hacknowledged, hreported]
  · rw [hsettled.linked, d.accepted_iff, and_assoc, hactivities,
      activityOf_congr hiri]
  · exact Prod.mk.inj (hsettled.marks_eq hlast hstatus)

/-! ### A worker that overtakes the request -/

def noteIri : JsString := js "https://remote.example/notes/1"

def fetchedNote : Json := .obj [(js "id", .str noteIri)]

def createNote : Json :=
  .obj [(js "id", .str (js "https://remote.example/creates/1")),
    (js "object", .str noteIri)]

/-- A queued `Create` whose listener fetches the object that it names. -/
def queuedCreate : Scenario where
  statusCode := some 202
  handled := false
  verificationResult := .verified
  activityIri := some (js "https://remote.example/creates/1")
  payload := some createNote
  requestObject := none
  listened := true
  fetchedObject := some fetchedNote
  stored := []
  carried := some ⟨7, js "https://remote.example/creates/1", some createNote,
    some ⟨some fetchedNote, true⟩⟩
  distinct := by simp

/-- The worker marks the delivery before the request records it, and fetches
the object once it has. -/
def overtaken : ReceptionState :=
  ((queuedCreate.start.runAlone (receptionMachine queuedCreate) .worker
    3).runAlone (receptionMachine queuedCreate) .recorder 40).runAlone
    (receptionMachine queuedCreate) .worker 40

theorem overtaken_finished : overtaken.Finished := by
  intro i
  cases i <;> decide +kernel

theorem overtaken_reachable :
    Reachable (receptionMachine queuedCreate) queuedCreate.start overtaken :=
  ((Reachable.start.runAlone Thread.worker 3).runAlone Thread.recorder
    40).runAlone Thread.worker 40

theorem reception_settled_overtaken :
    ∃ row, overtaken.shared.row = some row ∧ row.status = .received ∧
      row.fetchedObject = some fetchedNote := by
  obtain ⟨row, hrow, hacknowledged, -, -⟩ :=
    reception_settled queuedCreate overtaken_reachable overtaken_finished
  obtain ⟨hreceived, hfetched⟩ := hacknowledged rfl
  exact ⟨row, hrow, hreceived.mpr rfl, hfetched fetchedNote rfl⟩

end DrFed.Delivery
