import DrFed.Delivery.Statement

/-!
# Progress of the two processes

How far the recorder and the worker have come, what every version of the row
keeps, and that whatever is committed has been decided.
-/

namespace DrFed.Delivery

open Interleaving

variable {d : Scenario}

/-! ## Progress of the processes -/

/-- What a command that is left to run says about the delivery. -/
def Command.Known (d : Scenario) (s : Reception) : Command → Prop
  | .setReceived | .receiveInbound | .update .receive => d.listened = true
  | .setFetchedObject document | .recordFetchedObject document
  | .update (.fetchedObject document) => d.reported = some document
  | .update (.link activityId) => ∃ activity,
      activityOf s.activities d.recorded = some activity ∧
        activity.id = activityId
  | _ => True

/-- A delivery that may be linked when its activity is stored. -/
def Scenario.Accepted (d : Scenario) : Prop :=
  (d.status = .received ∨ d.status = .acknowledged) ∧
    d.verificationResult = .verified

/-- What every version of the row keeps from the recorded one. -/
structure Follows (d : Scenario) (activities : Activities)
    (row : ActivityDelivery) : Prop where
  verification : row.verificationResult = d.verificationResult
  iri : row.activityIri = d.activityIri
  payload : row.payload = jsonb d.payload
  status : row.status = d.status ∨
    d.status = .acknowledged ∧ d.listened = true ∧ row.status = .received
  fetched : row.fetchedObject = storedObject d.requestObject ∨
    ∃ document, d.reported = some document ∧
      row.fetchedObject = storedObject (some document)
  linked : ∀ activityId, row.activityId = some activityId →
    d.Accepted ∧ ∃ activity, activityOf activities d.recorded = some activity ∧
      activity.id = activityId

theorem Follows.accepted {activities : Activities} {row : ActivityDelivery}
    (h : Follows d activities row) (hlinkable : linkable row = true) :
    d.Accepted := by
  simp only [linkable, Bool.and_eq_true, Bool.or_eq_true, beq_iff_eq]
    at hlinkable
  obtain ⟨⟨hstatus, hverified⟩, -⟩ := hlinkable
  refine ⟨?_, h.verification.symm.trans hverified⟩
  rcases h.status with heq | ⟨hacknowledged, -, -⟩
  · rwa [heq] at hstatus
  · exact .inr hacknowledged

theorem Follows.linkable_eq {activities : Activities} {row : ActivityDelivery}
    (h : Follows d activities row) (haccepted : d.Accepted) :
    linkable row = row.activityId.isNone := by
  have hstatus : row.status = .received ∨ row.status = .acknowledged := by
    rcases h.status with heq | ⟨-, -, hreceived⟩
    · rw [heq]
      exact haccepted.1
    · exact .inl hreceived
  simp [linkable, hstatus, h.verification.trans haccepted.2]

/-- What the processes have done, and what they have still to do. -/
structure Progress (d : Scenario) (s : ReceptionState) : Prop where
  holds : d.Holds s.shared.activities
  handling : s.shared.activities = d.activities ∨
    Before .handle [.linkInboundActivity] (s.threads .worker)
  marking : d.listened = true → s.shared.received = true ∨
    Before .setReceived [.receiveInbound] (s.threads .worker)
  leaving : ∀ document, d.reported = some document →
    s.shared.fetchedObject = some document ∨
      Before (.setFetchedObject document) [.recordFetchedObject document]
        (s.threads .worker)
  recording : s.shared.row = none →
    s.threads .recorder = d.recorder ∧ s.shared.held = none
  once : ∀ i, .recordInbound ∈ s.threads i →
    s.shared.row = none ∧ i = .recorder
  marked : s.shared.received = true → d.listened = true
  left : ∀ document, s.shared.fetchedObject = some document →
    d.reported = some document
  known : ∀ i, ∀ command ∈ s.threads i, command.Known d s.shared
  versions : ∀ row, s.shared.Version row → Follows d s.shared.activities row

theorem activityOf_congr {activities : Activities}
    {row other : ActivityDelivery} (h : row.activityIri = other.activityIri) :
    activityOf activities row = activityOf activities other := by
  unfold activityOf
  rw [h]

/-- The same activity is found later. -/
theorem Progress.activityOf_step {s after : ReceptionState}
    {i : Thread} {command : Command} {more rest : List Command}
    (h : Progress d s) (hran : Ran d s after i command more rest)
    {row : ActivityDelivery} {activity : ReceivedActivity}
    (hfound : activityOf s.shared.activities row = some activity) :
    activityOf after.shared.activities row = some activity := by
  obtain ⟨iri, hiri, hactivity⟩ := Option.bind_eq_some_iff.mp hfound
  refine Option.bind_eq_some_iff.mpr ⟨iri, hiri, ?_⟩
  rcases hran.effect.activities with ⟨heq, -⟩ | ⟨-, heq⟩
  · rwa [heq]
  · rw [heq]
    exact h.holds.kept hactivity

/-- What was so is still so when more activities are stored. -/
theorem Progress.known_step {s after : ReceptionState}
    {i : Thread} {command : Command} {more rest : List Command}
    (h : Progress d s) (hran : Ran d s after i command more rest)
    {other : Command} (hknown : other.Known d s.shared) :
    other.Known d after.shared := by
  cases other with
  | update update =>
      cases update with
      | link activityId =>
          obtain ⟨activity, hfound, hid⟩ := hknown
          exact ⟨activity, h.activityOf_step hran hfound, hid⟩
      | _ => exact hknown
  | _ => exact hknown

theorem known_recorder {s : Reception} {command : Command}
    (h : command ∈ d.recorder) : command.Known d s := by
  unfold Scenario.recorder at h
  split_ifs at h
  all_goals grind [Command.Known]

theorem known_worker {s : Reception} {command : Command}
    (h : command ∈ d.worker) : command.Known d s := by
  unfold Scenario.worker at h
  split_ifs at h
  all_goals
    split at h
    all_goals grind [Command.Known]

theorem recordInbound_recorder : .recordInbound ∉ d.recorder.tail := by
  unfold Scenario.recorder
  split_ifs <;> simp

theorem recordInbound_worker : .recordInbound ∉ d.worker := by
  intro h
  unfold Scenario.worker at h
  split_ifs at h
  all_goals
    split at h
    all_goals simp at h

theorem Progress.start (d : Scenario) : Progress d d.start := by
  constructor
  case holds => exact .inl rfl
  case handling => exact .inr ⟨[], _, rfl, by simp⟩
  case marking =>
    intro hlistened
    refine .inr ⟨[.handle], .receiveInbound :: d.worker.drop 3, ?_, by simp⟩
    simp [Scenario.start, Scenario.worker, hlistened]
  case leaving =>
    intro document hreported
    refine .inr ⟨.handle :: if d.listened then [.setReceived, .receiveInbound]
      else [], [.recordFetchedObject document, .linkInboundActivity], ?_,
      by simp⟩
    simp [Scenario.start, Scenario.worker, hreported]
  case recording => exact fun _ => ⟨rfl, rfl⟩
  case once =>
    intro i hmem
    refine ⟨rfl, ?_⟩
    cases i with
    | recorder => rfl
    | worker => exact absurd hmem recordInbound_worker
  case marked => exact fun h => absurd h Bool.false_ne_true
  case left =>
    intro document h
    cases h
  case known =>
    intro i command hmem
    cases i with
    | recorder => exact known_recorder hmem
    | worker => exact known_worker hmem
  case versions =>
    rintro row (hrow | ⟨holder, hheld⟩)
    · cases hrow
    · cases hheld

/-- The commands that a statement puts in front say what is so. -/
theorem Progress.known_more {s after : ReceptionState} {i : Thread}
    {command : Command} {more rest : List Command} (h : Progress d s)
    (hran : Ran d s after i command more rest) :
    (∀ next ∈ more, next.Known d s.shared) ∧ .recordInbound ∉ more := by
  have hcommand : command.Known d s.shared :=
    h.known i command (by rw [hran.before]; exact List.mem_cons_self)
  have heffect := hran.effect
  generalize after.shared = shared at heffect
  cases heffect
  case receivedMeanwhile hreceived =>
    simpa [Command.Known] using h.marked hreceived
  case fetchedMeanwhile document hdocument =>
    simpa [Command.Known] using h.left document hdocument
  case findReceived => simpa [Command.Known] using hcommand
  case findFetched => simpa [Command.Known] using hcommand
  case findLink row activity hrow hlinkable hfound =>
    have hiri : row.activityIri = d.recorded.activityIri :=
      (h.versions row (.inl hrow)).iri
    rw [activityOf_congr hiri] at hfound
    simpa [Command.Known] using ⟨activity, hfound, rfl⟩
  all_goals simp [Command.Known]

theorem Progress.step {s after : ReceptionState} {i : Thread}
    {command : Command} {more rest : List Command} (h : Progress d s)
    (hran : Ran d s after i command more rest) : Progress d after := by
  have hhead : command ∈ s.threads i := by
    rw [hran.before]
    exact List.mem_cons_self
  have hknown := h.known i command hhead
  constructor
  case holds =>
    rcases hran.effect.activities with ⟨heq, -⟩ | ⟨-, heq⟩
    · rw [heq]
      exact h.holds
    · exact .inr heq
  case handling =>
    rcases hran.effect.activities with ⟨heq, hne⟩ | ⟨-, heq⟩
    · rw [heq]
      exact h.handling.imp id fun hbefore =>
        hran.before_step hbefore fun hran => hne hran.2
    · exact .inl heq
  case marking =>
    intro hlistened
    rcases hran.effect.received with ⟨heq, hne⟩ | ⟨-, heq⟩
    · rw [heq]
      exact (h.marking hlistened).imp id fun hbefore =>
        hran.before_step hbefore fun hran => hne hran.2
    · exact .inl heq
  case leaving =>
    intro document hreported
    rcases hran.effect.fetchedObject with ⟨heq, hne⟩ | ⟨other, rfl, heq⟩
    · rw [heq]
      exact (h.leaving document hreported).imp id fun hbefore =>
        hran.before_step hbefore fun hran => hne document hran.2
    · exact .inl (heq.trans (hknown.symm.trans hreported))
  case recording =>
    intro hrow
    by_cases hnone : s.shared.row = none
    · obtain ⟨hcode, hheld⟩ := h.recording hnone
      rcases hran.effect.unrecorded hnone hheld with ⟨-, hsome⟩ | ⟨hne, -, hheld⟩
      · rw [hrow] at hsome
        cases hsome
      · refine ⟨?_, hheld⟩
        rw [hran.others .recorder, hcode]
        rintro rfl
        rw [hran.before] at hcode
        exact hne (List.cons.inj hcode).1
    · exact absurd hrow (hran.effect.row_isSome hnone)
  case once =>
    intro j hmem
    obtain hold | ⟨-, hmore⟩ := hran.of_pending hmem
    · obtain ⟨hnone, rfl⟩ := h.once j hold
      obtain ⟨hcode, hheld⟩ := h.recording hnone
      rcases hran.effect.unrecorded hnone hheld with ⟨rfl, -⟩ | ⟨-, hrow, -⟩
      · have hi : i = .recorder := (h.once i hhead).2
        subst hi
        rw [hran.before] at hcode
        obtain ⟨-, rfl⟩ := List.cons.inj hcode
        rw [hran.thread] at hmem
        rcases List.mem_append.mp hmem with hmore | hrest
        · exact absurd hmore (h.known_more hran).2
        · exact absurd hrest recordInbound_recorder
      · exact ⟨hrow, rfl⟩
    · exact absurd hmore (h.known_more hran).2
  case marked =>
    intro hreceived
    rcases hran.effect.received with ⟨heq, -⟩ | ⟨rfl, -⟩
    · rw [heq] at hreceived
      exact h.marked hreceived
    · exact hknown
  case left =>
    intro document hdocument
    rcases hran.effect.fetchedObject with ⟨heq, -⟩ | ⟨other, rfl, heq⟩
    · rw [heq] at hdocument
      exact h.left document hdocument
    · rw [heq] at hdocument
      obtain rfl := Option.some.inj hdocument
      exact hknown
  case known =>
    intro j other hmem
    obtain hold | ⟨-, hmore⟩ := hran.of_pending hmem
    · exact h.known_step hran (h.known j other hold)
    · exact h.known_step hran ((h.known_more hran).1 other hmore)
  case versions =>
    intro row hrow
    have hkeeps : ∀ old, s.shared.Version old →
        Follows d after.shared.activities old := by
      intro old hold
      obtain ⟨hverification, hiri, hpayload, hstatus, hfetched, hlinked⟩ :=
        h.versions old hold
      refine ⟨hverification, hiri, hpayload, hstatus, hfetched, ?_⟩
      intro activityId hid
      obtain ⟨haccepted, activity, hfound, heq⟩ := hlinked activityId hid
      exact ⟨haccepted, activity, h.activityOf_step hran hfound, heq⟩
    rcases hran.effect.version hrow with hold | ⟨-, rfl⟩ | ⟨old, hold, hcases⟩
    · exact hkeeps row hold
    · exact ⟨rfl, rfl, rfl, .inl rfl, .inl rfl, fun _ h => nomatch h⟩
    · have hfollows := hkeeps old hold
      rcases hcases with ⟨rfl, hstatus, rfl⟩ | ⟨document, rfl, rfl⟩ |
        ⟨activityId, rfl, hlinkable, rfl⟩ | ⟨marks, -, rfl⟩
      · refine { hfollows with status := .inr ⟨?_, hknown, rfl⟩ }
        rcases hfollows.status with heq | ⟨hack, -, -⟩
        · exact heq.symm.trans hstatus
        · exact hack
      · exact { hfollows with fetched := .inr ⟨document, hknown, rfl⟩ }
      · refine { hfollows with linked := fun id hid => ?_ }
        obtain rfl := Option.some.inj hid
        obtain ⟨activity, hfound, heq⟩ := hknown
        exact ⟨hfollows.accepted hlinkable, activity,
          h.activityOf_step hran hfound, heq⟩
      · exact { hfollows with }

/-! ## What the row carried -/

def ActivityDelivery.marks (row : ActivityDelivery) : Bool × Bool :=
  (row.carriedSnapshot, row.carriedObjectSnapshot)

/-- The marks that a row has once they are decided. -/
def decided (activities : Activities) (row : ActivityDelivery) : Bool × Bool :=
  match row.activityId.bind activities.findById with
  | some activity =>
      carriedMarks row.payload row.fetchedObject activity activity.object
  | none => (false, false)

theorem decided_linked {activities : Activities} {row : ActivityDelivery}
    {activity : ReceivedActivity} (hid : row.activityId = some activity.id)
    (hfound : activities.findById activity.id = some activity) :
    decided activities row =
      carriedMarks row.payload row.fetchedObject activity activity.object := by
  simp [decided, hid, hfound]

theorem decided_unlinked {activities : Activities} {row : ActivityDelivery}
    (h : row.activityId = none) : decided activities row = (false, false) := by
  simp [decided, h]

/-- The activity of a linked version is stored. -/
theorem Progress.linked {s : ReceptionState} (h : Progress d s)
    {row : ActivityDelivery} (hrow : s.shared.Version row)
    {activityId : Store.Uuid} (hid : row.activityId = some activityId) :
    ∃ activity, activity.id = activityId ∧
      s.shared.activities.findById activityId = some activity := by
  obtain ⟨-, activity, hfound, rfl⟩ := (h.versions row hrow).linked _ hid
  exact ⟨activity, rfl, h.holds.findById hfound⟩

theorem Progress.findById_step {s after : ReceptionState}
    {i : Thread} {command : Command} {more rest : List Command}
    (h : Progress d s) (hran : Ran d s after i command more rest)
    {activityId : Store.Uuid} {activity : ReceivedActivity}
    (hfound : s.shared.activities.findById activityId = some activity) :
    after.shared.activities.findById activityId = some activity := by
  rcases hran.effect.activities with ⟨heq, -⟩ | ⟨-, heq⟩
  · rwa [heq]
  · rw [heq]
    exact h.holds.kept hfound

/-- Storing more activities changes no decision. -/
theorem Progress.decided_step {s after : ReceptionState}
    {i : Thread} {command : Command} {more rest : List Command}
    (h : Progress d s) (hran : Ran d s after i command more rest)
    {row : ActivityDelivery} (hrow : s.shared.Version row) :
    decided after.shared.activities row =
      decided s.shared.activities row := by
  cases hid : row.activityId with
  | none => rw [decided_unlinked hid, decided_unlinked hid]
  | some activityId =>
      obtain ⟨activity, rfl, hfound⟩ := h.linked hrow hid
      rw [decided_linked hid hfound,
        decided_linked hid (h.findById_step hran hfound)]

/-- The command belongs to a transaction that holds the row. -/
def Command.decides : Command → Bool
  | .decideCarried | .decideActivity .. | .decideObject .. | .mark _
  | .commit => true
  | _ => false

/-- How far the transaction of a version has decided what it carried. -/
def Command.Deciding (activities : Activities) (row : ActivityDelivery) :
    Command → Prop
  | .decideCarried => row.activityId = none → row.marks = (false, false)
  | .decideActivity activityId payload fetchedObject =>
      row.activityId = some activityId ∧ payload = row.payload ∧
        fetchedObject = row.fetchedObject
  | .decideObject activity payload fetchedObject =>
      row.activityId = some activity.id ∧
        activities.findById activity.id = some activity ∧
        payload = row.payload ∧ fetchedObject = row.fetchedObject
  | .mark marks => marks = decided activities row
  | .commit => row.marks = decided activities row
  | _ => False

/-- At most one transaction holds the row, and what is committed has been
decided. -/
structure Decided (s : ReceptionState) : Prop where
  committed : ∀ row, s.shared.row = some row →
    row.marks = decided s.shared.activities row
  idle : ∀ i, (∀ row, s.shared.held ≠ some (i, row)) →
    ∀ command ∈ s.threads i, command.decides = false
  holder : ∀ i row, s.shared.held = some (i, row) →
    ∃ command rest, s.threads i = command :: rest ∧
      command.Deciding s.shared.activities row ∧
      ∀ other ∈ rest, other.decides = false
  held : ∀ i version, s.shared.held = some (i, version) →
    ∃ row, s.shared.row = some row ∧ version.status = row.status ∧
      ∀ id, row.activityId = some id → version.activityId = some id

theorem Decided.start (d : Scenario) : Decided d.start := by
  constructor
  case committed =>
    intro row hrow
    cases hrow
  case idle =>
    intro i _ command hmem
    cases i with
    | recorder =>
        simp only [Scenario.start, Scenario.recorder] at hmem
        split_ifs at hmem
        all_goals grind [Command.decides]
    | worker =>
        simp only [Scenario.start, Scenario.worker] at hmem
        split_ifs at hmem
        all_goals
          split at hmem
          all_goals grind [Command.decides]
  case holder =>
    intro i row hheld
    cases hheld
  case held =>
    intro i row hheld
    cases hheld

/-- A statement outside of a transaction that holds the row. -/
theorem Effect.outside {i : Thread} {s after : Reception} {command : Command}
    {more : List Command} (h : Effect d i s command after more)
    (hcommand : command.decides = false) :
    (after.held = s.held ∧ (∀ other ∈ more, other.decides = false) ∧
      (after.row = s.row ∨
        (command = .recordInbound ∧ after.row = some d.recorded) ∨
        ∃ row, s.held = none ∧ s.row = some row ∧
          after.row = some { row with status := .received })) ∨
    (∃ version row, s.held = none ∧ s.row = some row ∧ after.row = s.row ∧
      after.held = some (i, version) ∧ more = [.decideCarried] ∧
      version.marks = row.marks ∧ version.status = row.status ∧
      ((version.activityId = row.activityId) ∨ (row.activityId = none ∧
        version.activityId ≠ none))) := by
  cases h <;> simp_all [Reception.hold, Command.decides,
    ActivityDelivery.marks, linkable]

/-- A statement within the transaction of a version. -/
theorem Effect.within {i : Thread} {s after : Reception} {command : Command}
    {more : List Command} (h : Effect d i s command after more)
    {version : ActivityDelivery} (hheld : s.held = some (i, version))
    (hfound : ∀ activityId, version.activityId = some activityId →
      ∃ activity, activity.id = activityId ∧
        s.activities.findById activityId = some activity)
    (hdeciding : command.Deciding s.activities version) :
    (after.held = none ∧ after.row = some version ∧ more = [] ∧
      version.marks = decided s.activities version) ∨
    ∃ next decision, after.held = some (i, decision) ∧ after.row = s.row ∧
      more = [next] ∧ next.Deciding s.activities decision ∧
      decision.status = version.status ∧
      decision.activityId = version.activityId := by
  cases h
  case decideLinked holder row activityId hrow hid =>
    rw [hheld] at hrow
    obtain ⟨rfl, rfl⟩ := Prod.mk.inj (Option.some.inj hrow)
    exact .inr ⟨_, version, hheld, rfl, rfl, ⟨hid, rfl, rfl⟩, rfl, rfl⟩
  case decideUnlinked holder row hrow hid =>
    rw [hheld] at hrow
    obtain ⟨rfl, rfl⟩ := Prod.mk.inj (Option.some.inj hrow)
    refine .inr ⟨_, version, hheld, rfl, rfl, ?_, rfl, rfl⟩
    exact (hdeciding hid).trans (decided_unlinked hid).symm
  case decideActivity activityId payload fetchedObject activity hactivity =>
    obtain ⟨hid, hpayload, hfetched⟩ := hdeciding
    obtain ⟨other, hother, hsame⟩ := hfound activityId hid
    obtain rfl := Option.some.inj (hsame.symm.trans hactivity)
    subst hother
    exact .inr ⟨_, version, hheld, rfl, rfl, ⟨hid, hsame, hpayload, hfetched⟩,
      rfl, rfl⟩
  case missActivity activityId payload fetchedObject hnone =>
    obtain ⟨hid, -, -⟩ := hdeciding
    obtain ⟨other, -, hsame⟩ := hfound activityId hid
    rw [hnone] at hsame
    cases hsame
  case decideObject activity payload fetchedObject =>
    obtain ⟨hid, hsame, rfl, rfl⟩ := hdeciding
    refine .inr ⟨_, version, hheld, rfl, rfl, ?_, rfl, rfl⟩
    rw [hsame]
    exact (decided_linked hid hsame).symm
  case mark marks holder row hrow =>
    rw [hheld] at hrow
    obtain ⟨rfl, rfl⟩ := Prod.mk.inj (Option.some.inj hrow)
    exact .inr ⟨.commit, _, rfl, rfl, rfl, hdeciding, rfl, rfl⟩
  case commit holder row hrow =>
    rw [hheld] at hrow
    obtain ⟨rfl, rfl⟩ := Prod.mk.inj (Option.some.inj hrow)
    exact .inl ⟨rfl, rfl, rfl, hdeciding⟩
  all_goals exact hdeciding.elim

/-- Deciding is about the activities that are stored already. -/
theorem Command.Deciding.step {s after : ReceptionState} {i : Thread}
    {command : Command} {more rest : List Command} {next : Command}
    {row : ActivityDelivery} (hrow : s.shared.Version row)
    (h : next.Deciding s.shared.activities row)
    (hprogress : Progress d s) (hran : Ran d s after i command more rest) :
    next.Deciding after.shared.activities row := by
  cases next with
  | decideObject activity payload fetchedObject =>
      obtain ⟨hid, hfound, hpayload, hfetched⟩ := h
      exact ⟨hid, hprogress.findById_step hran hfound, hpayload, hfetched⟩
  | mark marks => exact h.trans (hprogress.decided_step hran hrow).symm
  | commit => exact h.trans (hprogress.decided_step hran hrow).symm
  | _ => exact h

theorem Decided.step {s after : ReceptionState} {i : Thread}
    {command : Command} {more rest : List Command} (h : Decided s)
    (hprogress : Progress d s) (hran : Ran d s after i command more rest) :
    Decided after := by
  have hhead : command ∈ s.threads i := by
    rw [hran.before]
    exact List.mem_cons_self
  by_cases hmine : ∃ version, s.shared.held = some (i, version)
  · obtain ⟨version, hheld⟩ := hmine
    have hversion : s.shared.Version version := .inr ⟨i, hheld⟩
    obtain ⟨first, tail, hthread, hdeciding, htail⟩ := h.holder i version hheld
    rw [hran.before] at hthread
    obtain ⟨rfl, rfl⟩ := List.cons.inj hthread
    obtain ⟨row, hrow', hstatus, hlinked⟩ := h.held i version hheld
    rcases hran.effect.within hheld (fun _ => hprogress.linked hversion)
      hdeciding with ⟨hfree, hcommitted, rfl, hmarks⟩ |
        ⟨next, decision, hkept, hsame, rfl, hnext, hstatus', hid⟩
    · constructor
      case committed =>
        intro row hrow
        obtain rfl := Option.some.inj (hcommitted.symm.trans hrow)
        exact hmarks.trans (hprogress.decided_step hran hversion).symm
      case idle =>
        intro j _ other hmem
        by_cases hji : j = i
        · subst hji
          rw [hran.thread] at hmem
          exact htail other hmem
        · rw [hran.others j hji] at hmem
          refine h.idle j (fun row hrow => hji ?_) other hmem
          exact (Prod.mk.inj (Option.some.inj (hrow.symm.trans hheld))).1
      case holder =>
        intro j row hrow
        rw [hfree] at hrow
        cases hrow
      case held =>
        intro j row hrow
        rw [hfree] at hrow
        cases hrow
    · have hactivities :
          after.shared.activities = s.shared.activities := by
        rcases hran.effect.activities with ⟨heq, -⟩ | ⟨rfl, -⟩
        · exact heq
        · exact hdeciding.elim
      constructor
      case committed =>
        intro row hrow
        rw [hactivities]
        exact h.committed row (hsame.symm.trans hrow)
      case idle =>
        intro j hother other hmem
        have hji : j ≠ i := by
          rintro rfl
          exact hother decision hkept
        rw [hran.others j hji] at hmem
        refine h.idle j (fun row hrow => hji ?_) other hmem
        exact (Prod.mk.inj (Option.some.inj (hrow.symm.trans hheld))).1
      case holder =>
        intro j row hrow
        obtain ⟨rfl, rfl⟩ :=
          Prod.mk.inj (Option.some.inj (hkept.symm.trans hrow))
        rw [hactivities]
        exact ⟨next, rest, hran.thread, hnext, htail⟩
      case held =>
        intro j version' hrow
        obtain ⟨rfl, rfl⟩ :=
          Prod.mk.inj (Option.some.inj (hkept.symm.trans hrow))
        rw [hstatus', hid]
        exact ⟨row, hsame.trans hrow', hstatus, hlinked⟩
  · have hidle := h.idle i fun version hheld => hmine ⟨version, hheld⟩
    rcases hran.effect.outside (hidle command hhead) with
      ⟨hheld, hmore, hrows⟩ |
      ⟨version, row, hfree, hrow, hsame, hheld, rfl, hmarks, hstatus, hid⟩
    · constructor
      case committed =>
        intro row hrow
        rcases hrows with hsame | ⟨-, hnew⟩ | ⟨old, -, hold, hnew⟩
        · rw [hsame] at hrow
          rw [hprogress.decided_step hran (.inl hrow)]
          exact h.committed row hrow
        · obtain rfl := Option.some.inj (hnew.symm.trans hrow)
          exact (decided_unlinked rfl).symm
        · obtain rfl := Option.some.inj (hnew.symm.trans hrow)
          have hmarks := h.committed old hold
          rw [← hprogress.decided_step hran (.inl hold)] at hmarks
          exact hmarks
      case idle =>
        intro j hother other hmem
        rw [hheld] at hother
        rcases hran.of_pending hmem with hold | ⟨-, hnew⟩
        · exact h.idle j hother other hold
        · exact hmore other hnew
      case holder =>
        intro j row hrow
        rw [hheld] at hrow
        have hji : j ≠ i := by
          rintro rfl
          exact hmine ⟨row, hrow⟩
        obtain ⟨first, tail, hthread, hdeciding, htail⟩ := h.holder j row hrow
        refine ⟨first, tail, (hran.others j hji).trans hthread, ?_, htail⟩
        exact hdeciding.step (.inr ⟨j, hrow⟩) hprogress hran
      case held =>
        intro j version hrow
        rw [hheld] at hrow
        obtain ⟨row, hold, hstatus, hlinked⟩ := h.held j version hrow
        refine ⟨row, ?_, hstatus, hlinked⟩
        rcases hrows with hsame | ⟨rfl, -⟩ | ⟨old, hfree, -, -⟩
        · exact hsame.trans hold
        · rw [(hprogress.once i hhead).1] at hold
          cases hold
        · rw [hfree] at hrow
          cases hrow
    · constructor
      case committed =>
        intro other hother
        rw [hsame, hrow] at hother
        obtain rfl := Option.some.inj hother
        rw [hprogress.decided_step hran (.inl hrow)]
        exact h.committed row hrow
      case idle =>
        intro j hother other hmem
        have hji : j ≠ i := by
          rintro rfl
          exact hother version hheld
        rw [hran.others j hji] at hmem
        exact h.idle j (fun row hrow => by simp [hfree] at hrow) other hmem
      case holder =>
        intro j other hother
        obtain ⟨rfl, rfl⟩ :=
          Prod.mk.inj (Option.some.inj (hheld.symm.trans hother))
        refine ⟨.decideCarried, rest, hran.thread, ?_, fun other hother =>
          hidle other (by rw [hran.before]; exact
            List.mem_cons_of_mem command hother)⟩
        intro hnone
        rw [hmarks, h.committed row hrow]
        refine decided_unlinked ?_
        rcases hid with heq | ⟨hunlinked, -⟩
        · exact heq.symm.trans hnone
        · exact hunlinked
      case held =>
        intro j other hother
        obtain ⟨rfl, rfl⟩ :=
          Prod.mk.inj (Option.some.inj (hheld.symm.trans hother))
        refine ⟨row, hsame.trans hrow, hstatus, fun id hlinked => ?_⟩
        rcases hid with heq | ⟨hunlinked, -⟩
        · exact heq.trans hlinked
        · rw [hunlinked] at hlinked
          cases hlinked

end DrFed.Delivery
