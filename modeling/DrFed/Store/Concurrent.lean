import DrFed.Store.Typed
import DrFed.Support.Locking

/-!
# Concurrent appends

Transactions of several sessions that append revisions to one resource.  Every
append locks the row of the resource before it reads the head, so that the
committed appends have the effect of running one after another.
-/

namespace DrFed.Store

open Transactions Program

/-! ## Appends -/

/-- An append, with the ids and the time that it draws. -/
inductive Append where
  | untyped (input : AppendResourceRevisionInput) (id : Uuid) (now : Instant)
  | typed (input : TypedResourceRevisionInput) (ids : FreshIds) (id : Uuid)
      (now : Instant)

namespace Append

def resourceId : Append → Uuid
  | untyped input _ _ => input.resourceId
  | typed input _ _ _ => input.resourceId

/-- The revision that the append expects to follow. -/
def expectedRevisionId : Append → Option Uuid
  | untyped input _ _ => input.expectedRevisionId
  | typed input _ _ _ => some input.expectedRevisionId

/-- The id of the revision that it appends. -/
def id : Append → Uuid
  | untyped _ id _ => id
  | typed _ _ id _ => id

def program : Append → Tx StoredResourceRevision
  | untyped input id now => appendResourceRevision input id now
  | typed input ids id now => writeTypedResourceRevision input ids id now

theorem program_startsLocked (call : Append) : call.program.StartsLocked := by
  cases call with
  | untyped input id now =>
      simp only [program, appendResourceRevision]
      split <;> exact True.intro
  | typed input ids id now =>
      simp only [program, writeTypedResourceRevision]
      split <;> exact True.intro

end Append

/-- The appends to one resource. -/
abbrev AppendTo (r : Uuid) := {call : Append // call.resourceId = r}

/-- Sessions that append to one resource: its row is what they lock. -/
def appendService (r : Uuid) :
    Service Tables Statement Refusal StoredResourceRevision (AppendTo r) where
  engine := engine
  program call := call.1.program
  accepts t after := (t.unpublished after).isEmpty
  locks call := call.1.program_startsLocked

/-! ## Conflicts -/

/-- The refusal of an append whose expectation is not the head. -/
def Refusal.isConflict : Refusal → Bool
  | .revision (.conflict ..) => true
  | _ => false

/-- Any refusal but a conflict. -/
def NotConflict (refusal : Refusal) : Prop := ¬refusal.isConflict = true

section Conflicts

variable {t : Tables}

theorem notConflict_insertRows {table : RevisionTable}
    {rows : List (Row table)} {refusal : Refusal}
    (h : t.insertRows table rows = .error refusal) : NotConflict refusal := by
  induction rows generalizing t with
  | nil => cases h
  | cons row rest ih =>
      rw [Tables.insertRows, Tables.insertRow] at h
      cases hguard : t.insertGuard table row with
      | some constraint =>
          rw [hguard] at h
          obtain rfl := Except.error.inj h
          exact Bool.false_ne_true
      | none =>
          rw [hguard] at h
          cases hcheck : t.insertCheck table row with
          | some name =>
              rw [hcheck] at h
              obtain rfl := Except.error.inj h
              exact Bool.false_ne_true
          | none =>
              rw [hcheck] at h
              exact ih h

theorem notConflict_updateRows {table : RevisionTable}
    {matching : Row table → Bool} {assign : Row table → Row table}
    {done rest : List (Row table)} {refusal : Refusal}
    (h : t.updateRows table matching assign done rest = .error refusal) :
    NotConflict refusal := by
  induction rest generalizing done with
  | nil => cases h
  | cons row rest ih =>
      rw [Tables.updateRows] at h
      split at h
      next =>
        split at h
        next =>
          obtain rfl := Except.error.inj h
          exact Bool.false_ne_true
        next => exact ih h
      next => exact ih h

/-- The store itself reports no conflict. -/
theorem notConflict_execute {s : Statement} {refusal : Refusal}
    (h : engine.execute s t = .error refusal) : NotConflict refusal := by
  change s.execute t = .error refusal at h
  cases s with
  | insert table rows => exact notConflict_insertRows h
  | update table matching assign => exact notConflict_updateRows h
  | setKind | updateObject | updateActivity | deleteAddressing => cases h
  | truncate =>
      obtain rfl := Except.error.inj h
      exact Bool.false_ne_true
  | delete | insertResource | insertObject | insertActivity
  | insertAddressing =>
      simp only [Statement.execute] at h
      split_ifs at h
      all_goals
        obtain rfl := Except.error.inj h
        exact Bool.false_ne_true

theorem appendRow_raises (input : PreparedRevision)
    (previous : Option ResourceRevision) (revision : ResourceRevision) :
    (appendRow input previous revision).Raises NotConflict := by
  have hinherited : (inheritedProjections input previous).Raises NotConflict := by
    unfold inheritedProjections
    split
    next => exact raises_read.bind fun _ => raises_pure
    next => exact raises_pure
  have hinsert : ∀ (table : RevisionTable) (rows : List (Row table)),
      (insertProjections table rows).Raises NotConflict := by
    intro table rows
    unfold insertProjections
    split
    next => exact raises_pure
    next => exact raises_send
  have hpublish : (publish input.resourceId previous revision.id).Raises
      NotConflict := by
    unfold publish
    split <;> exact raises_send
  exact raises_send.bind fun _ => hinherited.bind fun _ =>
    (hinsert _ _).bind fun _ => (hinsert _ _).bind fun _ =>
      hpublish.bind fun _ => raises_read

theorem notConflict_checkTarget {input : PreparedRevision}
    {typed legacy : Bool} {resource : Resource}
    {previous : Option ResourceRevision} {error : RevisionError}
    (h : checkTarget input typed legacy resource previous = some error) :
    NotConflict (.revision error) := by
  unfold checkTarget at h
  split_ifs at h
  all_goals
    obtain rfl := Option.some.inj h
    exact Bool.false_ne_true

/-- An append that finds its expectation reports no conflict. -/
theorem appendPrepared_notConflict {input : PreparedRevision} {typed : Bool}
    {id : Uuid} {now : Instant}
    (hexpected : (t.current input.resourceId).map ResourceRevision.id =
      input.expectedRevisionId) :
    (appendPrepared input typed id now).Ensures engine NotConflict t
      fun _ _ => True := by
  unfold appendPrepared
  rw [ensures_bind]
  have hlock : (lockRevisionTarget input typed).Ensures engine NotConflict t
      fun _ _ => True := by
    unfold lockRevisionTarget
    rw [ensures_bind, ensures_locked]
    cases t.resource? input.resourceId with
    | none => exact Bool.false_ne_true
    | some resource =>
        dsimp only
        rw [ensures_bind, ensures_read, if_neg (not_not.mpr hexpected)]
        apply Raises.ensures_true notConflict_execute
        refine raises_read.bind fun legacy => Raises.bind ?_ fun _ => ?_
        · apply raises_require
          intro refusal hrefusal
          obtain ⟨error, herror, rfl⟩ := Option.map_eq_some_iff.mp hrefusal
          exact notConflict_checkTarget herror
        · unfold promote
          split
          next => exact raises_send.bind fun _ => raises_pure
          next => exact raises_pure
  refine hlock.weaken fun previous after _ => ?_
  exact (appendRow_raises input previous _).ensures_true notConflict_execute
    after

/-- An append reports a conflict before it sends a statement. -/
theorem appendPrepared_failsEarly (input : PreparedRevision) (typed : Bool)
    (id : Uuid) (now : Instant) :
    (appendPrepared input typed id now).FailsEarly engine
      (fun refusal => refusal.isConflict = true) t := by
  by_cases hexpected : (t.current input.resourceId).map ResourceRevision.id =
      input.expectedRevisionId
  · exact (appendPrepared_notConflict hexpected).failsEarly
  · refine Program.FailsEarly.bind ?_ ?_
    · unfold lockRevisionTarget
      rw [Program.failsEarly_locked_bind]
      cases t.resource? input.resourceId with
      | none => exact Program.failsEarly_fail
      | some resource => simp [hexpected]
    · unfold lockRevisionTarget
      rw [ensures_bind, ensures_locked]
      cases t.resource? input.resourceId with
      | none => trivial
      | some resource => simp [hexpected]

theorem notConflict_checkAddressingOccurrences
    {occurrences : List AddressingOccurrence} {seen : List (JsString × ℕ)}
    {error : RevisionError}
    (h : checkAddressingOccurrences occurrences seen = some error) :
    NotConflict (.revision error) := by
  induction occurrences generalizing seen with
  | nil => cases h
  | cons occurrence rest ih =>
      rw [checkAddressingOccurrences_cons] at h
      split_ifs at h
      · obtain rfl := Option.some.inj h
        exact Bool.false_ne_true
      · obtain rfl := Option.some.inj h
        exact Bool.false_ne_true
      · exact ih h

theorem requireOccurrences_raises (occurrences : List AddressingOccurrence) :
    (require ((checkAddressingOccurrences occurrences []).map
      Refusal.revision) : Tx Unit).Raises NotConflict := by
  apply raises_require
  intro refusal hrefusal
  obtain ⟨error, herror, rfl⟩ := Option.map_eq_some_iff.mp hrefusal
  exact notConflict_checkAddressingOccurrences herror

theorem ensureResource_raises (iri : JsString) (id : Uuid) :
    (ensureResource iri id).Raises NotConflict := by
  unfold ensureResource
  refine raises_read.bind fun found => ?_
  cases found with
  | some existing => exact raises_pure
  | none =>
      refine raises_send.bind fun _ => raises_read.bind fun inserted => ?_
      cases inserted with
      | some resource => exact raises_pure
      | none => exact Bool.false_ne_true

theorem ensureResources_raises (ids : FreshIds) (iris : List JsString) :
    (ensureResources ids iris).Raises NotConflict := by
  induction iris with
  | nil => exact raises_pure
  | cons iri rest ih =>
      exact (ensureResource_raises iri _).bind fun _ =>
        ih.bind fun _ => raises_pure

theorem insertOccurrences_raises (ids : FreshIds) (sourceId : Uuid)
    (targets : List (JsString × Uuid)) (n : ℕ)
    (occurrences : List AddressingOccurrence) :
    (insertOccurrences ids sourceId targets n occurrences).Raises
      NotConflict := by
  induction occurrences generalizing n with
  | nil => exact raises_pure
  | cons occurrence rest ih =>
      unfold insertOccurrences
      split
      next => exact Bool.false_ne_true
      next => exact raises_send.bind fun _ => ih (n + 1)

theorem replaceAddressing_raises (ids : FreshIds) (sourceId : Uuid)
    (occurrences : List AddressingOccurrence) :
    (replaceAddressing ids sourceId occurrences).Raises NotConflict := by
  refine (requireOccurrences_raises occurrences).bind fun _ =>
    raises_send.bind fun _ => ?_
  exact (requireOccurrences_raises occurrences).bind fun _ =>
    (ensureResources_raises ids _).bind fun _ =>
      insertOccurrences_raises ids sourceId _ 0 occurrences

theorem writeTypedState_raises (input : TypedResourceRevisionInput)
    (prepared : PreparedRevision) (ids : FreshIds) :
    (writeTypedState input prepared ids).Raises NotConflict := by
  unfold writeTypedState
  split
  next => exact raises_send.bind fun _ => replaceAddressing_raises ids _ _
  next =>
    refine raises_read.bind fun row => ?_
    cases row with
    | none => exact Bool.false_ne_true
    | some row => exact raises_send

/-- A typed write reports a conflict before it sends a statement: what it
writes to the typed row leaves the head as it was compared. -/
theorem writeTypedResourceRevision_failsEarly
    (input : TypedResourceRevisionInput) (ids : FreshIds) (id : Uuid)
    (now : Instant) :
    (writeTypedResourceRevision input ids id now).FailsEarly engine
      (fun refusal => refusal.isConflict = true) t := by
  unfold writeTypedResourceRevision
  cases hprepared : prepareRevision input.append with
  | error error => exact failsEarly_fail
  | ok prepared =>
      have hprepares := prepareRevision_eq_ok hprepared
      dsimp only
      rw [failsEarly_locked_bind, failsEarly_read_bind]
      split
      next => exact failsEarly_fail
      next =>
        rw [failsEarly_read_bind]
        split
        next => exact failsEarly_fail
        next head hhead =>
          split
          next => exact failsEarly_fail
          next hexpected =>
            split
            next => exact failsEarly_fail
            next =>
              split
              next => exact failsEarly_fail
              next =>
                rw [failsEarly_read_bind]
                split
                next => exact failsEarly_fail
                next =>
                  apply Ensures.failsEarly
                  rw [ensures_bind]
                  refine ((writeTypedState_raises input prepared ids).ensures
                    notConflict_execute
                    (writeTypedState_ensures input prepared ids)).weaken ?_
                  intro _ middle hchange
                  apply appendPrepared_notConflict
                  rw [hprepares.resourceId, hprepares.expected,
                    hchange.current]
                  change (t.current input.resourceId).map _ = _
                  rw [hhead, Option.map_some, not_not.mp hexpected]
                  rfl

theorem Append.program_failsEarly (call : Append) :
    call.program.FailsEarly engine
      (fun refusal => refusal.isConflict = true) t := by
  cases call with
  | untyped input id now =>
      unfold program appendResourceRevision
      dsimp only
      split
      next => exact failsEarly_fail
      next prepared _ => exact appendPrepared_failsEarly prepared false id now
  | typed input ids id now =>
      exact writeTypedResourceRevision_failsEarly input ids id now

end Conflicts

/-! ## One append -/

section Appends

variable {t after : Tables}

/-- What an append leaves when it returns: one more revision, after the one
that it expects. -/
structure Append.Appends (call : Append) (t after : Tables) : Prop where
  sound : Sound after
  expected : (t.historyOf call.resourceId).getLast?.map ResourceRevision.id =
    call.expectedRevisionId
  history : ∃ row : ResourceRevision, row.id = call.id ∧
    after.historyOf call.resourceId = t.historyOf call.resourceId ++ [row]

/-- A typed write leaves a sound state when it returns. -/
theorem sound_appended {input : TypedResourceRevisionInput}
    {prepared : PreparedRevision} {middle : Tables} {resource : Resource}
    {id : Uuid} {now : Instant} (h : Sound t)
    (hchange : TypedChange t input prepared middle)
    (hsteps : RowSteps t (appended middle prepared resource id now)) :
    Sound (appended middle prepared resource id now) := by
  obtain ⟨hchained, hgrows⟩ := rowSteps_grows h hsteps
  apply hgrows.sound h hchained
  have hpublished := unpublished_withRevision
    ((hchange.sound h).promoted resource
      prepared.resourceKind.resourceKind).toChained hchained
  simp only [Tables.unpublished, Tables.revision?, promoted_revisions,
    hchange.revisions] at hpublished ⊢
  exact hpublished

theorem Append.appends_of_run {call : Append} (h : Sound t)
    {stored : StoredResourceRevision}
    (hrun : call.program.run engine t = .ok (stored, after)) :
    call.Appends t after := by
  cases call with
  | untyped input id now =>
      unfold program appendResourceRevision at hrun
      dsimp only at hrun
      split at hrun
      next => cases hrun
      next prepared hprepared =>
        have hprepares := prepareRevision_eq_ok hprepared
        obtain ⟨resource, htarget, rfl, hsound, -, -⟩ :=
          appendPrepared_spec h hrun
        refine ⟨hsound, ?_, revisionRow prepared
          (t.current prepared.resourceId) id now, rfl, ?_⟩
        · rw [← h.published, resourceId, expectedRevisionId,
            ← hprepares.resourceId, ← hprepares.expected]
          exact htarget.expected
        · rw [historyOf_appended, resourceId, ← hprepares.resourceId,
            if_pos rfl]
  | typed input ids id now =>
      obtain ⟨prepared, head, middle, resource, hprepared, heditable,
        hchange, htarget, rfl⟩ := ensures_of_run
          (writeTypedResourceRevision_ensures h input ids id now) hrun
      have hprepares := prepareRevision_eq_ok hprepared
      have hresource : prepared.resourceId = input.resourceId :=
        hprepares.resourceId
      refine ⟨sound_appended h hchange (rowSteps_of_run hrun), ?_, revisionRow
        prepared (middle.current prepared.resourceId) id now, rfl, ?_⟩
      · rw [← h.published, resourceId, expectedRevisionId, heditable.current,
          Option.map_some, heditable.expected]
      · rw [historyOf_appended, resourceId, ← hresource, if_pos rfl]
        simp only [Tables.historyOf, hchange.revisions]

/-! ## Appends one after another -/

/-- The revisions after `previous` are those of the calls, each after the one
that its call expects. -/
def Follows (previous : List ResourceRevision) :
    List Append → List ResourceRevision → Prop
  | [], rows => rows = []
  | call :: calls, rows => ∃ row rest, rows = row :: rest ∧
      row.id = call.id ∧
      previous.getLast?.map ResourceRevision.id = call.expectedRevisionId ∧
      Follows (previous ++ [row]) calls rest

/-- Appends that run alone, one after another, extend the history in order. -/
theorem replays_follows {r : Uuid}
    {calls : List (AppendTo r × StoredResourceRevision)} (h : Sound t)
    (hreplays : (appendService r).Replays t calls after) :
    Sound after ∧ ∃ rows, after.historyOf r = t.historyOf r ++ rows ∧
      Follows (t.historyOf r) (calls.map fun call => call.1.1) rows := by
  induction calls generalizing t with
  | nil =>
      obtain rfl : t = after := hreplays
      exact ⟨h, [], (List.append_nil _).symm, rfl⟩
  | cons call rest ih =>
      obtain ⟨middle, hrun, hrest⟩ := hreplays
      obtain ⟨⟨call, hresource⟩, value⟩ := call
      obtain ⟨hsound, hexpected, row, hid, hhistory⟩ :=
        Append.appends_of_run h hrun
      rw [hresource] at hexpected hhistory
      obtain ⟨hafter, rows, hrows, hfollows⟩ := ih hsound hrest
      rw [hhistory] at hrows hfollows
      refine ⟨hafter, row :: rows, ?_, row, rows, rfl, hid, hexpected,
        hfollows⟩
      rw [hrows, List.append_assoc, List.singleton_append]

theorem Follows.split {previous : List ResourceRevision}
    {earlier later : List Append} {call : Append}
    {rows : List ResourceRevision}
    (h : Follows previous (earlier ++ call :: later) rows) :
    ∃ before row rest, rows = before ++ row :: rest ∧
      before.length = earlier.length ∧ row.id = call.id ∧
      (previous ++ before).getLast?.map ResourceRevision.id =
        call.expectedRevisionId := by
  induction earlier generalizing previous rows with
  | nil =>
      obtain ⟨row, rest, rfl, hid, hexpected, -⟩ := h
      exact ⟨[], row, rest, rfl, rfl, hid, by rwa [List.append_nil]⟩
  | cons first earlier ih =>
      obtain ⟨row, rest, rfl, -, -, hrest⟩ := h
      obtain ⟨before, next, last, rfl, hlength, hid, hexpected⟩ := ih hrest
      refine ⟨row :: before, next, last, rfl, by simp [hlength], hid, ?_⟩
      rwa [List.append_assoc, List.singleton_append] at hexpected

theorem Follows.length {previous : List ResourceRevision}
    {calls : List Append} {rows : List ResourceRevision}
    (h : Follows previous calls rows) : rows.length = calls.length := by
  induction calls generalizing previous rows with
  | nil =>
      obtain rfl : rows = [] := h
      rfl
  | cons call calls ih =>
      obtain ⟨row, rest, rfl, -, -, hlater⟩ := h
      rw [List.length_cons, List.length_cons, ih hlater]

theorem Follows.expects {previous : List ResourceRevision}
    {row : ResourceRevision} {calls : List Append}
    {rest : List ResourceRevision}
    (h : Follows (previous ++ [row]) calls rest) :
    ∀ call ∈ calls, ∃ other ∈ row :: rest,
      call.expectedRevisionId = some other.id := by
  induction calls generalizing previous row rest with
  | nil =>
      intro call hcall
      cases hcall
  | cons first calls ih =>
      obtain ⟨next, last, rfl, -, hexpected, hlater⟩ := h
      intro call hcall
      rcases List.mem_cons.mp hcall with rfl | hcall
      · refine ⟨row, List.mem_cons_self, ?_⟩
        rw [← hexpected, List.getLast?_append_of_ne_nil _ (by simp)]
        rfl
      · obtain ⟨other, hother, hexpects⟩ := ih hlater call hcall
        exact ⟨other, List.mem_cons_of_mem row hother, hexpects⟩

/-- Appends that follow a history expect different revisions of it. -/
theorem Follows.expected_nodup {previous : List ResourceRevision}
    {calls : List Append} {rows : List ResourceRevision}
    (h : Follows previous calls rows)
    (hids : ((previous ++ rows).map ResourceRevision.id).Nodup) :
    (calls.map Append.expectedRevisionId).Nodup := by
  induction calls generalizing previous rows with
  | nil => exact List.nodup_nil
  | cons call calls ih =>
      obtain ⟨row, rest, rfl, -, hexpected, hlater⟩ := h
      rw [List.map_cons, List.nodup_cons]
      constructor
      · intro hmem
        obtain ⟨later, hcall, hsame⟩ := List.mem_map.mp hmem
        obtain ⟨other, hother, hexpects⟩ := hlater.expects later hcall
        rw [hexpects, ← hexpected] at hsame
        obtain ⟨last, hlast, hid⟩ := Option.map_eq_some_iff.mp hsame.symm
        rw [List.map_append] at hids
        have hdisjoint := (List.nodup_append.mp hids).2.2
        exact hdisjoint last.id
          (List.mem_map_of_mem (List.mem_of_getLast? hlast)) other.id
          (List.mem_map_of_mem hother) hid
      · apply ih hlater
        rwa [List.append_assoc, List.singleton_append]

end Appends

/-! ## Any interleaving -/

/-- The appends that have committed, in the order in which their transactions
took the lock. -/
def committedAppends {ι : Type} {r : Uuid}
    (s : State Tables Statement Refusal StoredResourceRevision (AppendTo r) ι) :
    List Append :=
  (s.log.flatMap Entry.calls).map fun call => call.1.1

/-- What concurrent appends to one resource have done. -/
structure LosesNoUpdate {ι : Type} [DecidableEq ι] (r : Uuid) (start : Tables)
    (s : State Tables Statement Refusal StoredResourceRevision (AppendTo r) ι) :
    Prop where
  /-- The committed state is that of the committed appends, each alone, in the
  order in which their transactions took the lock. -/
  serial : (appendService r).Replays start (s.log.flatMap Entry.calls)
    s.committed
  lockOrder : (s.log.map Entry.ticket).Pairwise (· < ·)
  /-- Each committed append follows the revision that it expects, or is the
  first revision when it expects none. -/
  predecessor : ∀ earlier call later,
    committedAppends s = earlier ++ call :: later →
      ∃ previous row rest,
        s.committed.historyOf r = previous ++ row :: rest ∧
        previous.length = (start.historyOf r).length + earlier.length ∧
        row.id = call.id ∧
        previous.getLast?.map ResourceRevision.id = call.expectedRevisionId
  length : (s.committed.historyOf r).length =
    (start.historyOf r).length + (committedAppends s).length
  /-- Of the appends with one expectation, at most one has committed. -/
  expected : ((committedAppends s).map Append.expectedRevisionId).Nodup
  /-- An append that is refused as a conflict has sent no statement, and its
  session leaves the committed tables as they are. -/
  conflict : ∀ i frame refusal, (s.sessions i).active = some frame →
    frame.program = .fail refusal → refusal.isConflict = true →
      frame.sent = [] ∧
        ∀ action after, s.act (appendService r) i action = some after →
          after.committed = s.committed

section Reachable

variable {ι : Type} [DecidableEq ι] {r : Uuid} {start : Tables}
  {s : State Tables Statement Refusal StoredResourceRevision (AppendTo r) ι}

/-- A call that is about to fail leaves the committed tables alone. -/
theorem committed_of_fail {i : ι}
    {frame : Frame Tables Statement Refusal StoredResourceRevision (AppendTo r)}
    {refusal : Refusal} (hactive : (s.sessions i).active = some frame)
    (hprogram : frame.program = .fail refusal) {action : Action (AppendTo r)}
    {after : State Tables Statement Refusal StoredResourceRevision
      (AppendTo r) ι}
    (hact : s.act (appendService r) i action = some after) :
    after.committed = s.committed := by
  cases action with
  | acquire | start | commit =>
      simp only [State.act, hactive] at hact
      split_ifs at hact with hidle
      first
      | cases hidle.1
      | cases hidle
  | advance =>
      simp only [State.act, hactive, State.advance, hprogram] at hact
      obtain rfl := Option.some.inj hact
      unfold State.rollBack
      split <;> rfl
  | abort =>
      obtain rfl := Option.some.inj hact
      rfl

theorem Reachable.losesNoUpdate (hstart : Sound start)
    (h : Reachable (appendService r) start s) : LosesNoUpdate r start s := by
  have hserial := h.serial
  obtain ⟨hsound, rows, hhistory, hfollows⟩ :=
    replays_follows hstart hserial.replays
  have hfollows' : Follows (start.historyOf r) (committedAppends s) rows :=
    hfollows
  refine ⟨hserial.replays, hserial.ordered, ?_, ?_, ?_, ?_⟩
  · intro earlier call later hcalls
    rw [hcalls] at hfollows'
    obtain ⟨before, row, rest, rfl, hlength, hid, hexpected⟩ :=
      hfollows'.split
    refine ⟨start.historyOf r ++ before, row, rest, ?_, ?_, hid, hexpected⟩
    · rw [hhistory, List.append_assoc]
    · rw [List.length_append, hlength]
  · rw [hhistory, List.length_append, hfollows'.length]
  · apply hfollows'.expected_nodup
    rw [← hhistory]
    exact hsound.ids_historyOf r
  · intro i frame refusal hactive hprogram hconflict
    obtain ⟨hrun, hemitted⟩ :=
      (hserial.resumes hactive).refused hprogram
    refine ⟨?_, fun action after hact => committed_of_fail hactive hprogram hact⟩
    rw [← hemitted]
    exact frame.call.1.program_failsEarly refusal hrun hconflict

end Reachable

/-- In any interleaving of sessions that append to one resource, from any
state that the guards let a store reach, no append loses an update. -/
theorem reachable_losesNoUpdate {base : Tables} (hbase : Unversioned base)
    (transactions : List (List Statement)) (r : Uuid) {ι : Type}
    [DecidableEq ι]
    {s : State Tables Statement Refusal StoredResourceRevision (AppendTo r) ι}
    (h : Reachable (appendService r) (base.attemptAll transactions) s) :
    LosesNoUpdate r (base.attemptAll transactions) s :=
  Reachable.losesNoUpdate (attemptAll_sound hbase.sound transactions).1 h

/-- A registry with one unknown resource. -/
def oneUnknown : Tables where
  resources := [⟨1, js "https://local.example/note", .unknown⟩]
  actors := []
  objects := []
  activities := []
  addressing := []
  revisions := []
  heads := []
  revisionAddressing := []
  revisionRelations := []

/-- A first revision of the resource. -/
def firstAppend (id : Uuid) : AppendTo 1 :=
  ⟨.untyped ⟨1, .object, none, .snapshot (.obj []) .locally none none [] none⟩
    id 0, rfl⟩

/-- Two sessions write a first revision side by side. -/
def competingActions : List (Bool × Action (AppendTo 1)) :=
  [(true, .start (firstAppend 10)), (false, .start (firstAppend 11)),
    (true, .advance), (false, .advance)] ++
    List.replicate 8 (true, .advance) ++ [(true, .commit)] ++
    List.replicate 2 (false, .advance)

theorem reachable_losesNoUpdate_competing :
    let s := (State.initial oneUnknown).schedule (appendService 1)
      competingActions
    (committedAppends s).map Append.id = [10] ∧
      LosesNoUpdate 1 oneUnknown s :=
  ⟨by decide +kernel, reachable_losesNoUpdate ⟨rfl, rfl, rfl, rfl⟩ [] 1
    (Reachable.initial.schedule competingActions)⟩

end DrFed.Store
