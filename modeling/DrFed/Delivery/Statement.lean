import DrFed.Delivery.Reception
import DrFed.Support.Keyed

/-!
# The statements of the two processes

What each statement can do to the shared state, which commands it leads to,
and what a step therefore leaves as it was.
-/

namespace DrFed.Delivery

open Interleaving

variable {d : Scenario}

/-! ## Stored activities -/

/-- An activity found in a list stays found when others are stored. -/
theorem find?_append {activities : Activities} {p : ReceivedActivity → Bool}
    {activity : ReceivedActivity} (h : activities.find? p = some activity)
    (more : Activities) : (activities ++ more).find? p = some activity := by
  rw [List.find?_append, h]
  rfl

/-- The listener keeps what was stored before it. -/
theorem Scenario.activities_eq (d : Scenario) :
    ∃ more, d.activities = d.stored ++ more ∧
      more.Sublist d.carried.toList := by
  unfold Scenario.activities
  cases d.carried with
  | none => exact ⟨[], (List.append_nil _).symm, List.nil_sublist _⟩
  | some activity =>
      simp only [Activities.store]
      split
      · exact ⟨[], (List.append_nil _).symm, List.nil_sublist _⟩
      · exact ⟨[activity], rfl, List.Sublist.refl _⟩

/-- The activities that are stored at some time. -/
def Scenario.Holds (d : Scenario) (activities : Activities) : Prop :=
  activities = d.stored ∨ activities = d.activities

/-- An activity found by its IRI at some time is found by its id from then
on. -/
theorem Scenario.Holds.findById {activities : Activities}
    (h : d.Holds activities) {row : ActivityDelivery}
    {activity : ReceivedActivity}
    (hfound : activityOf activities row = some activity) :
    activities.findById activity.id = some activity := by
  obtain ⟨iri, -, hiri⟩ := Option.bind_eq_some_iff.mp hfound
  obtain ⟨more, hmore, hsub⟩ := d.activities_eq
  have hids : (activities.map ReceivedActivity.id).Nodup := by
    rcases h with rfl | rfl
    · exact d.distinct.sublist ((List.sublist_append_left _ _).map _)
    · rw [hmore]
      exact d.distinct.sublist ((hsub.append_left _).map _)
  exact (Keyed.find?_eq_some hids).mpr ⟨List.mem_of_find?_eq_some hiri, rfl⟩

/-- Nothing that was found is lost when the listener has run. -/
theorem Scenario.Holds.kept {activities : Activities} (h : d.Holds activities)
    {p : ReceivedActivity → Bool} {activity : ReceivedActivity}
    (hfound : activities.find? p = some activity) :
    d.activities.find? p = some activity := by
  rcases h with rfl | rfl
  · obtain ⟨more, hmore, -⟩ := d.activities_eq
    rw [hmore]
    exact find?_append hfound more
  · exact hfound

/-! ## One statement -/

/-- What one statement can do: the state after it, and the commands that it
puts in front. -/
inductive Effect (d : Scenario) (i : Thread) (s : Reception) :
    Command → Reception → List Command → Prop
  | recordInbound :
      Effect d i s .recordInbound { s with row := some d.recorded } []
  | receivedMeanwhile (h : s.received = true) :
      Effect d i s .receivedMeanwhile s [.receiveInbound]
  | notReceivedMeanwhile (h : s.received = false) :
      Effect d i s .receivedMeanwhile s []
  | fetchedMeanwhile (document : Json) (h : s.fetchedObject = some document) :
      Effect d i s .fetchedMeanwhile s [.recordFetchedObject document]
  | notFetchedMeanwhile (h : s.fetchedObject = none) :
      Effect d i s .fetchedMeanwhile s []
  | handle : Effect d i s .handle { s with activities := d.activities } []
  | setReceived : Effect d i s .setReceived { s with received := true } []
  | setFetchedObject (document : Json) :
      Effect d i s (.setFetchedObject document)
        { s with fetchedObject := some document } []
  | findReceived (row : ActivityDelivery) (hrow : s.row = some row)
      (h : row.status = .acknowledged) :
      Effect d i s .receiveInbound s [.update .receive]
  | missReceived
      (h : ∀ row, s.row = some row → row.status ≠ .acknowledged) :
      Effect d i s .receiveInbound s []
  | findFetched (document : Json) (row : ActivityDelivery)
      (hrow : s.row = some row) :
      Effect d i s (.recordFetchedObject document) s
        [.update (.fetchedObject document)]
  | missFetched (document : Json) (hrow : s.row = none) :
      Effect d i s (.recordFetchedObject document) s []
  | findLink (row : ActivityDelivery) (activity : ReceivedActivity)
      (hrow : s.row = some row) (h : linkable row = true)
      (hfound : activityOf s.activities row = some activity) :
      Effect d i s .linkInboundActivity s [.update (.link activity.id)]
  | missLink (h : ∀ row, s.row = some row → linkable row = true →
        activityOf s.activities row = none) :
      Effect d i s .linkInboundActivity s []
  | missUpdate (update : Update) (hheld : s.held = none)
      (hrow : s.row = none) : Effect d i s (.update update) s []
  | receive (row : ActivityDelivery) (hheld : s.held = none)
      (hrow : s.row = some row) (h : row.status = .acknowledged) :
      Effect d i s (.update .receive)
        { s with row := some { row with status := .received } } []
  | passReceive (row : ActivityDelivery) (hheld : s.held = none)
      (hrow : s.row = some row) (h : row.status ≠ .acknowledged) :
      Effect d i s (.update .receive) s []
  | holdFetched (document : Json) (row : ActivityDelivery)
      (hheld : s.held = none) (hrow : s.row = some row) :
      Effect d i s (.update (.fetchedObject document))
        (s.hold i { row with fetchedObject := storedObject (some document) })
        [.decideCarried]
  | holdLink (activityId : Store.Uuid) (row : ActivityDelivery)
      (hheld : s.held = none) (hrow : s.row = some row)
      (h : linkable row = true) :
      Effect d i s (.update (.link activityId))
        (s.hold i { row with activityId := some activityId }) [.decideCarried]
  | passLink (activityId : Store.Uuid) (row : ActivityDelivery)
      (hheld : s.held = none) (hrow : s.row = some row)
      (h : linkable row = false) :
      Effect d i s (.update (.link activityId)) s []
  | decideLinked (holder : Thread) (row : ActivityDelivery)
      (activityId : Store.Uuid) (hheld : s.held = some (holder, row))
      (h : row.activityId = some activityId) :
      Effect d i s .decideCarried s
        [.decideActivity activityId row.payload row.fetchedObject]
  | decideUnlinked (holder : Thread) (row : ActivityDelivery)
      (hheld : s.held = some (holder, row)) (h : row.activityId = none) :
      Effect d i s .decideCarried s [.commit]
  | decideActivity (activityId : Store.Uuid)
      (payload fetchedObject : Option Json) (activity : ReceivedActivity)
      (h : s.activities.findById activityId = some activity) :
      Effect d i s (.decideActivity activityId payload fetchedObject) s
        [.decideObject activity payload fetchedObject]
  | missActivity (activityId : Store.Uuid)
      (payload fetchedObject : Option Json)
      (h : s.activities.findById activityId = none) :
      Effect d i s (.decideActivity activityId payload fetchedObject) s
        [.commit]
  | decideObject (activity : ReceivedActivity)
      (payload fetchedObject : Option Json) :
      Effect d i s (.decideObject activity payload fetchedObject) s
        [.mark (carriedMarks payload fetchedObject activity
          ((s.activities.findById activity.id).bind ReceivedActivity.object))]
  | mark (marks : Bool × Bool) (holder : Thread) (row : ActivityDelivery)
      (hheld : s.held = some (holder, row)) :
      Effect d i s (.mark marks)
        (s.hold holder { row with
          carriedSnapshot := marks.1
          carriedObjectSnapshot := marks.2 }) [.commit]
  | commit (holder : Thread) (row : ActivityDelivery)
      (hheld : s.held = some (holder, row)) :
      Effect d i s .commit { s with row := some row, held := none } []

theorem effect_of_runUpdate {i : Thread} {s : Reception}
    {row : ActivityDelivery} (hheld : s.held = none) (hrow : s.row = some row)
    (update : Update) :
    Effect d i s (.update update) (runUpdate i s row update).1
      (runUpdate i s row update).2 := by
  unfold runUpdate
  cases update with
  | receive =>
      dsimp only
      split_ifs with h
      · exact .receive row hheld hrow h
      · exact .passReceive row hheld hrow h
  | fetchedObject document => exact .holdFetched document row hheld hrow
  | link activityId =>
      dsimp only
      split_ifs with h
      · exact .holdLink activityId row hheld hrow h
      · exact .passLink activityId row hheld hrow (by simpa using h)

theorem effect_of_run {i : Thread} {s after : Reception} {command : Command}
    {more : List Command}
    (h : runCommand d i command s = some (after, more)) :
    Effect d i s command after more := by
  cases command <;> simp only [runCommand] at h
  case recordInbound =>
    obtain ⟨rfl, rfl⟩ := Prod.mk.inj (Option.some.inj h)
    exact .recordInbound
  case receivedMeanwhile =>
    obtain ⟨rfl, rfl⟩ := Prod.mk.inj (Option.some.inj h)
    split_ifs with hreceived
    · exact .receivedMeanwhile hreceived
    · exact .notReceivedMeanwhile (by simpa using hreceived)
  case fetchedMeanwhile =>
    obtain ⟨rfl, rfl⟩ := Prod.mk.inj (Option.some.inj h)
    split
    next document hdocument => exact .fetchedMeanwhile document hdocument
    next hnone => exact .notFetchedMeanwhile hnone
  case handle =>
    obtain ⟨rfl, rfl⟩ := Prod.mk.inj (Option.some.inj h)
    exact .handle
  case setReceived =>
    obtain ⟨rfl, rfl⟩ := Prod.mk.inj (Option.some.inj h)
    exact .setReceived
  case setFetchedObject document =>
    obtain ⟨rfl, rfl⟩ := Prod.mk.inj (Option.some.inj h)
    exact .setFetchedObject document
  case receiveInbound =>
    obtain ⟨rfl, rfl⟩ := Prod.mk.inj (Option.some.inj h)
    cases hrow : s.row with
    | none => exact .missReceived (by simp [hrow])
    | some row =>
        by_cases hstatus : row.status = .acknowledged
        · simpa [hstatus] using Effect.findReceived row hrow hstatus
        · simpa [hstatus] using Effect.missReceived (by simpa [hrow])
  case recordFetchedObject document =>
    obtain ⟨rfl, rfl⟩ := Prod.mk.inj (Option.some.inj h)
    cases hrow : s.row with
    | none => exact .missFetched document hrow
    | some row => exact .findFetched document row hrow
  case linkInboundActivity =>
    obtain ⟨rfl, rfl⟩ := Prod.mk.inj (Option.some.inj h)
    split
    next row hrow =>
      obtain ⟨hsome, hlinkable⟩ := Option.filter_eq_some_iff.mp hrow
      split
      next activity hfound =>
        exact .findLink row activity hsome hlinkable hfound
      next hnone =>
        refine .missLink fun other hother _ => ?_
        obtain rfl := Option.some.inj (hsome.symm.trans hother)
        exact hnone
    next hnone =>
      refine .missLink fun row hrow hlinkable => ?_
      simp [hrow, hlinkable] at hnone
  case update update =>
    cases hheld : s.held with
    | some held => simp [hheld] at h
    | none =>
        cases hrow : s.row with
        | none =>
            simp only [hheld, hrow] at h
            obtain ⟨rfl, rfl⟩ := Prod.mk.inj (Option.some.inj h)
            exact .missUpdate update hheld hrow
        | some row =>
            simp only [hheld, hrow] at h
            have heffect := effect_of_runUpdate (d := d) (i := i) hheld hrow
              update
            rwa [Option.some.inj h] at heffect
  case decideCarried =>
    cases hheld : s.held with
    | none => simp [hheld] at h
    | some held =>
        simp only [hheld] at h
        obtain ⟨rfl, rfl⟩ := Prod.mk.inj (Option.some.inj h)
        split
        next activityId hlinked =>
          exact .decideLinked held.1 held.2 activityId hheld hlinked
        next hlinked => exact .decideUnlinked held.1 held.2 hheld hlinked
  case decideActivity activityId payload fetchedObject =>
    obtain ⟨rfl, rfl⟩ := Prod.mk.inj (Option.some.inj h)
    split
    next activity hfound => exact .decideActivity _ _ _ activity hfound
    next hnone => exact .missActivity _ _ _ hnone
  case decideObject activity payload fetchedObject =>
    obtain ⟨rfl, rfl⟩ := Prod.mk.inj (Option.some.inj h)
    exact .decideObject activity payload fetchedObject
  case mark marks =>
    cases hheld : s.held with
    | none => simp [hheld] at h
    | some held =>
        simp only [hheld] at h
        obtain ⟨rfl, rfl⟩ := Prod.mk.inj (Option.some.inj h)
        exact .mark marks held.1 held.2 hheld
  case commit =>
    cases hheld : s.held with
    | none => simp [hheld] at h
    | some held =>
        simp only [hheld] at h
        obtain ⟨rfl, rfl⟩ := Prod.mk.inj (Option.some.inj h)
        exact .commit held.1 held.2 hheld

/-- A version of the row: the committed one, or that of the transaction that
holds it. -/
def Reception.Version (s : Reception) (row : ActivityDelivery) : Prop :=
  s.row = some row ∨ ∃ holder, s.held = some (holder, row)

namespace Effect

variable {i : Thread} {s after : Reception} {command : Command}
  {more : List Command}

theorem received (h : Effect d i s command after more) :
    (after.received = s.received ∧ command ≠ .setReceived) ∨
      command = .setReceived ∧ after.received = true := by
  cases h <;> simp [Reception.hold]

theorem fetchedObject (h : Effect d i s command after more) :
    (after.fetchedObject = s.fetchedObject ∧
      ∀ document, command ≠ .setFetchedObject document) ∨
    ∃ document, command = .setFetchedObject document ∧
      after.fetchedObject = some document := by
  cases h <;> simp [Reception.hold]

theorem activities (h : Effect d i s command after more) :
    (after.activities = s.activities ∧ command ≠ .handle) ∨
      command = .handle ∧ after.activities = d.activities := by
  cases h <;> simp [Reception.hold]

/-- A row that is not there yet is recorded first. -/
theorem unrecorded (h : Effect d i s command after more)
    (hrow : s.row = none) (hheld : s.held = none) :
    (command = .recordInbound ∧ after.row = some d.recorded) ∨
      command ≠ .recordInbound ∧ after.row = none ∧ after.held = none := by
  cases h <;> simp_all

theorem row_isSome (h : Effect d i s command after more)
    (hrow : s.row ≠ none) : after.row ≠ none := by
  cases h <;> simp_all [Reception.hold]

/-- Where a version of the row comes from. -/
theorem version (h : Effect d i s command after more)
    {row : ActivityDelivery} (hrow : after.Version row) :
    s.Version row ∨ (command = .recordInbound ∧ row = d.recorded) ∨
    ∃ old, s.Version old ∧
      ((command = .update .receive ∧ old.status = .acknowledged ∧
          row = { old with status := .received }) ∨
        (∃ document, command = .update (.fetchedObject document) ∧
          row = { old with
            fetchedObject := storedObject (some document) }) ∨
        (∃ activityId, command = .update (.link activityId) ∧
          linkable old = true ∧
          row = { old with activityId := some activityId }) ∨
        ∃ marks : Bool × Bool, command = .mark marks ∧ row = { old with
          carriedSnapshot := marks.1
          carriedObjectSnapshot := marks.2 }) := by
  unfold Reception.Version at hrow ⊢
  cases h
  case mark marks holder old hheld =>
    rcases hrow with hrow | ⟨other, hrow⟩
    · exact .inl (.inl hrow)
    · obtain ⟨rfl, rfl⟩ := Prod.mk.inj (Option.some.inj hrow)
      exact .inr (.inr ⟨old, .inr ⟨holder, hheld⟩,
        .inr (.inr (.inr ⟨marks, rfl, rfl⟩))⟩)
  all_goals grind [Reception.hold]

end Effect

/-! ## Positions in the code -/

/-- The command `a` has not run yet, and neither has any of `bs` after it. -/
def Before (a : Command) (bs todo : List Command) : Prop :=
  ∃ done rest, todo = done ++ a :: rest ∧ bs ⊆ rest

theorem Before.mem {a : Command} {bs todo : List Command}
    (h : Before a bs todo) : bs ⊆ todo := by
  obtain ⟨done, rest, rfl, hbs⟩ := h
  exact fun b hb =>
    List.mem_append_right done (List.mem_cons_of_mem a (hbs hb))

/-- A thread that runs another command stays before `a`. -/
theorem Before.step {a command : Command} {bs rest more : List Command}
    (h : Before a bs (command :: rest)) (hne : command ≠ a) :
    Before a bs (more ++ rest) := by
  obtain ⟨done, after, heq, hbs⟩ := h
  cases done with
  | nil => exact absurd (List.cons.inj heq).1 hne
  | cons first done =>
      obtain ⟨-, rfl⟩ := List.cons.inj heq
      exact ⟨more ++ done, after, (List.append_assoc _ _ _).symm, hbs⟩

/-- Before the end of the code there is something left to run after the next
command. -/
theorem Before.rest {a command : Command} {bs rest : List Command}
    (h : Before a bs (command :: rest)) : bs ⊆ rest := by
  obtain ⟨done, after, heq, hbs⟩ := h
  cases done with
  | nil =>
      obtain ⟨-, rfl⟩ := List.cons.inj heq
      exact hbs
  | cons first done =>
      obtain ⟨-, rfl⟩ := List.cons.inj heq
      exact fun b hb =>
        List.mem_append_right done (List.mem_cons_of_mem a (hbs hb))

/-- Some thread has yet to run the command. -/
def Pending (s : ReceptionState) (command : Command) : Prop :=
  ∃ i, command ∈ s.threads i

/-! ## One step -/

/-- A statement of a thread, with the commands that it puts in front. -/
structure Ran (d : Scenario) (s after : ReceptionState) (i : Thread)
    (command : Command) (more rest : List Command) : Prop where
  before : s.threads i = command :: rest
  thread : after.threads i = more ++ rest
  others : ∀ j, j ≠ i → after.threads j = s.threads j
  effect : Effect d i s.shared command after.shared more

theorem ran_of_step {s after : ReceptionState} {i : Thread}
    (h : s.step (receptionMachine d) i = some after) :
    ∃ command more rest, Ran d s after i command more rest := by
  obtain ⟨command, rest, shared, more, hthread, hrun, rfl, hafter, hothers⟩ :=
    State.step_eq_some h
  exact ⟨command, more, rest, hthread, hafter, hothers,
    effect_of_run hrun⟩

namespace Ran

variable {s after : ReceptionState} {i : Thread} {command : Command}
  {more rest : List Command}

/-- What is pending stays pending, but for the command that ran. -/
theorem pending (h : Ran d s after i command more rest) {other : Command}
    (hpending : Pending s other) (hne : other ≠ command) :
    Pending after other := by
  obtain ⟨j, hj⟩ := hpending
  refine ⟨j, ?_⟩
  by_cases hji : j = i
  · subst hji
    rw [h.before, List.mem_cons] at hj
    rw [h.thread]
    exact List.mem_append_right more (hj.resolve_left hne)
  · rwa [h.others j hji]

theorem pending_more (h : Ran d s after i command more rest) {other : Command}
    (hmem : other ∈ more) : Pending after other :=
  ⟨i, by rw [h.thread]; exact List.mem_append_left rest hmem⟩

/-- A pending command was pending before, or the statement put it in front. -/
theorem of_pending (h : Ran d s after i command more rest) {other : Command}
    {j : Thread} (hmem : other ∈ after.threads j) :
    other ∈ s.threads j ∨ j = i ∧ other ∈ more := by
  by_cases hji : j = i
  · subst hji
    rw [h.thread] at hmem
    rw [h.before]
    exact (List.mem_append.mp hmem).symm.imp (List.mem_cons_of_mem command)
      fun hmore => ⟨rfl, hmore⟩
  · exact .inl (by rwa [h.others j hji] at hmem)

/-- A thread before `a` stays there until it runs `a`. -/
theorem before_step (h : Ran d s after i command more rest) {a : Command}
    {bs : List Command} {j : Thread} (hbefore : Before a bs (s.threads j))
    (hne : ¬(j = i ∧ command = a)) : Before a bs (after.threads j) := by
  by_cases hji : j = i
  · subst hji
    rw [h.before] at hbefore
    rw [h.thread]
    exact hbefore.step fun heq => hne ⟨rfl, heq⟩
  · rwa [h.others j hji]

end Ran

end DrFed.Delivery
