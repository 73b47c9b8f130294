import DrFed.Support.Program
import Mathlib.Data.Nat.Notation
import Mathlib.Logic.Function.Basic
import Mathlib.Tactic.SplitIfs

/-!
# Transactions that lock a row

Sessions of one store run transactions side by side.  A statement sees the
committed state and the writes of its own session.  One row lock is held from
the statement that takes it to the end of the transaction, or to the end of
the call that took it when that call is refused and rolled back.

Calls that lock the row before anything else have the effect of running one
after another, in the order in which their transactions took the lock.
-/

namespace Transactions

variable {σ S ε α C ι : Type}

/-! ## Statements as effects -/

/-- The state after statements that were accepted. -/
def Engine.applyAll (E : Engine σ S ε) (statements : List S) (state : σ) : σ :=
  statements.foldl (fun state statement => E.effect statement state) state

@[simp] theorem Engine.applyAll_nil (E : Engine σ S ε) (state : σ) :
    E.applyAll [] state = state := rfl

theorem Engine.applyAll_append (E : Engine σ S ε) (first second : List S)
    (state : σ) :
    E.applyAll (first ++ second) state =
      E.applyAll second (E.applyAll first state) := List.foldl_append

theorem Engine.applyAll_concat (E : Engine σ S ε) (first : List S)
    (statement : S) (state : σ) :
    E.applyAll (first ++ [statement]) state =
      E.effect statement (E.applyAll first state) :=
  E.applyAll_append first [statement] state

namespace Program

/-- The program takes the lock first, or fails without a statement. -/
def StartsLocked : Program σ S ε α → Prop
  | .lock _ _ => True
  | .fail _ => True
  | _ => False

end Program

/-! ## Sessions -/

/-- The calls of a service, each of which locks one row before anything
else. -/
structure Service (σ S ε α C : Type) where
  engine : Engine σ S ε
  program : C → Program σ S ε α
  /-- The deferred checks of a commit, on the states around the
  transaction. -/
  accepts : σ → σ → Bool
  locks : ∀ call, (program call).StartsLocked

/-- A call in progress, as a savepoint. -/
structure Frame (σ S ε α C : Type) where
  call : C
  /-- What is left to run. -/
  program : Program σ S ε α
  sent : List S
  /-- The transaction held the lock before the call. -/
  nested : Bool

/-- A session, in or out of a transaction. -/
structure Session (σ S ε α C : Type) where
  returned : List (C × α) := []
  written : List S := []
  active : Option (Frame σ S ε α C) := none
  /-- When the transaction took the lock. -/
  ticket : ℕ := 0

/-- The calls that one transaction committed. -/
structure Entry (α C : Type) where
  ticket : ℕ
  calls : List (C × α)

structure State (σ S ε α C ι : Type) where
  committed : σ
  holder : Option ι
  clock : ℕ
  sessions : ι → Session σ S ε α C
  log : List (Entry α C)

/-- What a call in progress sees, from the state before it. -/
def Frame.view (V : Service σ S ε α C) (frame : Frame σ S ε α C) (base : σ) :
    σ :=
  V.engine.applyAll frame.sent base

/-- What a session sees between its calls. -/
def Session.base (V : Service σ S ε α C) (session : Session σ S ε α C)
    (committed : σ) : σ :=
  V.engine.applyAll session.written committed

/-- The session after its transaction. -/
def Session.reset (session : Session σ S ε α C) : Session σ S ε α C :=
  { session with returned := [], written := [], active := none }

/-- The entry of a transaction in the log: none when no call returned. -/
def Session.entry (session : Session σ S ε α C) : List (Entry α C) :=
  if session.returned.isEmpty then []
  else [⟨session.ticket, session.returned⟩]

namespace State

variable [DecidableEq ι]

/-- What a call in progress in session `i` sees. -/
def view (V : Service σ S ε α C) (s : State σ S ε α C ι) (i : ι)
    (frame : Frame σ S ε α C) : σ :=
  frame.view V ((s.sessions i).base V s.committed)

def set (s : State σ S ε α C ι) (i : ι) (session : Session σ S ε α C) :
    State σ S ε α C ι :=
  { s with sessions := Function.update s.sessions i session }

/-- Replace the call in progress. -/
def setActive (s : State σ S ε α C ι) (i : ι)
    (active : Option (Frame σ S ε α C)) : State σ S ε α C ι :=
  s.set i { s.sessions i with active }

/-- Let session `i` take the lock. -/
def take (s : State σ S ε α C ι) (i : ι) : State σ S ε α C ι :=
  { s.set i { s.sessions i with ticket := s.clock } with
    holder := some i
    clock := s.clock + 1 }

/-- Let session `i` release the lock, when it holds it. -/
def release (s : State σ S ε α C ι) (i : ι) : State σ S ε α C ι :=
  { s with holder := if s.holder = some i then none else s.holder }

/-- A store before any session. -/
def initial (start : σ) : State σ S ε α C ι where
  committed := start
  holder := none
  clock := 0
  sessions _ := {}
  log := []

/-- Roll a failed call back, with the lock when the call took it. -/
def rollBack (s : State σ S ε α C ι) (i : ι) (frame : Frame σ S ε α C) :
    State σ S ε α C ι :=
  if frame.nested then s.setActive i none else (s.setActive i none).release i

/-- Keep the statements of a call that returned. -/
def finish (s : State σ S ε α C ι) (i : ι) (frame : Frame σ S ε α C)
    (value : α) : State σ S ε α C ι :=
  s.set i { s.sessions i with
    returned := (s.sessions i).returned ++ [(frame.call, value)]
    written := (s.sessions i).written ++ frame.sent
    active := none }

/-- The next statement of a call in progress: nothing while another session
holds the lock that it needs. -/
def advance (V : Service σ S ε α C) (s : State σ S ε α C ι) (i : ι)
    (frame : Frame σ S ε α C) : Option (State σ S ε α C ι) :=
  match frame.program with
  | .done value => some (s.finish i frame value)
  | .fail _ => some (s.rollBack i frame)
  | .lock select next =>
      let resumed := { frame with program := next (select (s.view V i frame)) }
      if s.holder = none then some ((s.take i).setActive i (some resumed))
      else if s.holder = some i then some (s.setActive i (some resumed))
      else none
  | .query select next =>
      some (s.setActive i
        (some { frame with program := next (select (s.view V i frame)) }))
  | .write statement next =>
      match V.engine.execute statement (s.view V i frame) with
      | .error _ => some (s.rollBack i frame)
      | .ok _ =>
          some (s.setActive i (some { frame with
            program := next
            sent := frame.sent ++ [statement] }))

/-- End the transaction of session `i` without an effect. -/
def abort (s : State σ S ε α C ι) (i : ι) : State σ S ε α C ι :=
  (s.set i (s.sessions i).reset).release i

def commit (V : Service σ S ε α C) (s : State σ S ε α C ι) (i : ι) :
    State σ S ε α C ι :=
  { s.abort i with
    committed := (s.sessions i).base V s.committed
    log := s.log ++ (s.sessions i).entry }

end State

/-- What a session may do next. -/
inductive Action (C : Type) where
  /-- Lock the row ahead of the calls. -/
  | acquire
  | start (call : C)
  | advance
  | commit
  | abort

variable [DecidableEq ι]

/-- The state after an action of session `i`, when the action is possible. -/
def State.act (V : Service σ S ε α C) (s : State σ S ε α C ι) (i : ι) :
    Action C → Option (State σ S ε α C ι)
  | .acquire =>
      if (s.sessions i).active.isNone ∧ s.holder = none then some (s.take i)
      else none
  | .start call =>
      if (s.sessions i).active.isNone then
        some (s.setActive i
          (some ⟨call, V.program call, [], s.holder = some i⟩))
      else none
  | .advance =>
      match (s.sessions i).active with
      | none => none
      | some frame => s.advance V i frame
  | .commit =>
      if (s.sessions i).active.isNone ∧
          V.accepts s.committed ((s.sessions i).base V s.committed) then
        some (s.commit V i)
      else none
  | .abort => some (s.abort i)

/-- The states that the actions of any sessions reach, in any order. -/
inductive Reachable (V : Service σ S ε α C) (start : σ) :
    State σ S ε α C ι → Prop
  | initial : Reachable V start (State.initial start)
  | act {s after : State σ S ε α C ι} (i : ι) (action : Action C)
      (hreach : Reachable V start s)
      (hact : s.act V i action = some after) : Reachable V start after

/-- A schedule of actions, the impossible ones left out. -/
def State.schedule (V : Service σ S ε α C) (s : State σ S ε α C ι)
    (actions : List (ι × Action C)) : State σ S ε α C ι :=
  actions.foldl (fun s action => (s.act V action.1 action.2).getD s) s

theorem Reachable.schedule {V : Service σ S ε α C} {start : σ}
    {s : State σ S ε α C ι} (h : Reachable V start s)
    (actions : List (ι × Action C)) : Reachable V start (s.schedule V actions) := by
  induction actions generalizing s with
  | nil => exact h
  | cons action rest ih =>
      rw [State.schedule, List.foldl_cons]
      apply ih
      cases hact : s.act V action.1 action.2 with
      | none => exact h
      | some after => exact h.act action.1 action.2 hact

/-! ## Calls one after another -/

/-- Calls that run alone, one after another, with the values they return. -/
def Service.Replays (V : Service σ S ε α C) : σ → List (C × α) → σ → Prop
  | state, [], after => state = after
  | state, (call, value) :: rest, after =>
      ∃ middle, (V.program call).run V.engine state = .ok (value, middle) ∧
        V.Replays middle rest after

theorem Service.Replays.append {V : Service σ S ε α C}
    {first second : List (C × α)} {state middle after : σ}
    (hfirst : V.Replays state first middle)
    (hsecond : V.Replays middle second after) :
    V.Replays state (first ++ second) after := by
  induction first generalizing state with
  | nil =>
      obtain rfl : state = middle := hfirst
      exact hsecond
  | cons call rest ih =>
      obtain ⟨next, hrun, hrest⟩ := hfirst
      exact ⟨next, hrun, ih hrest⟩

theorem Service.Replays.concat {V : Service σ S ε α C}
    {calls : List (C × α)} {state middle after : σ} {call : C} {value : α}
    (hcalls : V.Replays state calls middle)
    (hrun : (V.program call).run V.engine middle = .ok (value, after)) :
    V.Replays state (calls ++ [(call, value)]) after :=
  hcalls.append ⟨after, hrun, rfl⟩

/-! ## The invariant -/

/-- What is left of a call does what the whole call does alone. -/
structure Frame.Resumes (V : Service σ S ε α C) (frame : Frame σ S ε α C)
    (base : σ) : Prop where
  run : (V.program frame.call).run V.engine base =
    frame.program.run V.engine (frame.view V base)
  emitted : (V.program frame.call).emitted V.engine base =
    frame.sent ++ frame.program.emitted V.engine (frame.view V base)

/-- A session that holds the lock. -/
structure Session.Inside (V : Service σ S ε α C) (session : Session σ S ε α C)
    (committed : σ) : Prop where
  replays : V.Replays committed session.returned (session.base V committed)
  resumes : ∀ frame, session.active = some frame →
    frame.Resumes V (session.base V committed)

/-- A session without the lock has done nothing yet. -/
structure Session.Outside (V : Service σ S ε α C)
    (session : Session σ S ε α C) : Prop where
  returned : session.returned = []
  written : session.written = []
  program : ∀ frame, session.active = some frame →
    frame.program = V.program frame.call
  sent : ∀ frame, session.active = some frame → frame.sent = []

/-- The committed state is that of the committed calls one after another, in
the order of their tickets, and only the holder of the lock has begun. -/
structure Serial (V : Service σ S ε α C) (start : σ) (s : State σ S ε α C ι) :
    Prop where
  replays : V.Replays start (s.log.flatMap Entry.calls) s.committed
  ordered : (s.log.map Entry.ticket).Pairwise (· < ·)
  past : ∀ entry ∈ s.log, entry.ticket < s.clock
  inside : ∀ i, s.holder = some i → (s.sessions i).Inside V s.committed
  ticket : ∀ i, s.holder = some i → (s.sessions i).ticket < s.clock ∧
    ∀ entry ∈ s.log, entry.ticket < (s.sessions i).ticket
  outside : ∀ i, s.holder ≠ some i → (s.sessions i).Outside V
  unnested : ∀ i frame, (s.sessions i).active = some frame →
    frame.nested = false →
      (s.sessions i).returned = [] ∧ (s.sessions i).written = []

variable {V : Service σ S ε α C} {start : σ} {s after : State σ S ε α C ι}
  {i : ι} {frame : Frame σ S ε α C}

section Resumes

variable {base : σ} {β : Type} {select : σ → β} {next : β → Program σ S ε α}

theorem Frame.resumes_of_fresh (hprogram : frame.program = V.program frame.call)
    (hsent : frame.sent = []) (base : σ) : frame.Resumes V base := by
  constructor
  · rw [hprogram, Frame.view, hsent, Engine.applyAll_nil]
  · rw [hprogram, Frame.view, hsent, Engine.applyAll_nil, List.nil_append]

theorem Frame.Resumes.lock (h : frame.Resumes V base)
    (hprogram : frame.program = .lock select next) :
    Frame.Resumes V
      { frame with program := next (select (frame.view V base)) } base := by
  obtain ⟨hrun, hemitted⟩ := h
  rw [hprogram] at hrun hemitted
  exact ⟨hrun, hemitted⟩

theorem Frame.Resumes.query (h : frame.Resumes V base)
    (hprogram : frame.program = .query select next) :
    Frame.Resumes V
      { frame with program := next (select (frame.view V base)) } base := by
  obtain ⟨hrun, hemitted⟩ := h
  rw [hprogram] at hrun hemitted
  exact ⟨hrun, hemitted⟩

theorem Frame.Resumes.write (h : frame.Resumes V base) {statement : S}
    {rest : Program σ S ε α} {after : σ}
    (hprogram : frame.program = .write statement rest)
    (hok : V.engine.execute statement (frame.view V base) = .ok after) :
    Frame.Resumes V
      { frame with program := rest, sent := frame.sent ++ [statement] }
      base := by
  obtain ⟨hrun, hemitted⟩ := h
  have hview : V.engine.applyAll (frame.sent ++ [statement]) base = after := by
    rw [Engine.applyAll_concat]
    exact (V.engine.execute_effect hok).symm
  rw [hprogram, Program.run, hok] at hrun
  rw [hprogram, Program.emitted, hok] at hemitted
  constructor
  · rw [Frame.view, hview]
    exact hrun
  · rw [Frame.view, hview, List.append_assoc]
    exact hemitted

/-- A call that is refused fails alone, after the statements it sent. -/
theorem Frame.Resumes.refused (h : frame.Resumes V base) {error : ε}
    (hprogram : frame.program = .fail error) :
    (V.program frame.call).run V.engine base = .error error ∧
      (V.program frame.call).emitted V.engine base = frame.sent := by
  obtain ⟨hrun, hemitted⟩ := h
  rw [hprogram] at hrun hemitted
  refine ⟨hrun, ?_⟩
  rw [hemitted, Program.emitted, List.append_nil]

end Resumes

theorem State.set_sessions (session : Session σ S ε α C) (j : ι) :
    (s.set i session).sessions j =
      if j = i then session else s.sessions j := Function.update_apply ..

/-- A session that is past its lock holds it. -/
theorem Serial.holder_of_started (h : Serial V start s)
    (hactive : (s.sessions i).active = some frame)
    (hstarted : ¬frame.program.StartsLocked) : s.holder = some i := by
  by_contra hholder
  apply hstarted
  rw [(h.outside i hholder).program frame hactive]
  exact V.locks frame.call

theorem Serial.resumes (h : Serial V start s)
    (hactive : (s.sessions i).active = some frame) :
    frame.Resumes V ((s.sessions i).base V s.committed) := by
  by_cases hholder : s.holder = some i
  · exact (h.inside i hholder).resumes frame hactive
  · have houtside := h.outside i hholder
    exact Frame.resumes_of_fresh (houtside.program frame hactive)
      (houtside.sent frame hactive) _

/-! ## What a step preserves -/

/-- A session may change as long as it fits the lock. -/
theorem Serial.set (h : Serial V start s) {session : Session σ S ε α C}
    (hticket : session.ticket = (s.sessions i).ticket)
    (hinside : s.holder = some i → session.Inside V s.committed)
    (houtside : s.holder ≠ some i → session.Outside V)
    (hunnested : ∀ frame, session.active = some frame →
      frame.nested = false → session.returned = [] ∧ session.written = []) :
    Serial V start (s.set i session) := by
  refine ⟨h.replays, h.ordered, h.past, fun j hj => ?_, fun j hj => ?_,
    fun j hj => ?_, fun j => ?_⟩
  · rw [State.set_sessions]
    split_ifs with hji
    · subst hji
      exact hinside hj
    · exact h.inside j hj
  · rw [State.set_sessions]
    split_ifs with hji
    · subst hji
      rw [hticket]
      exact h.ticket j hj
    · exact h.ticket j hj
  · rw [State.set_sessions]
    split_ifs with hji
    · subst hji
      exact houtside hj
    · exact h.outside j hj
  · rw [State.set_sessions]
    split_ifs with hji
    · exact hunnested
    · exact h.unnested j

/-- The call in progress may change as long as it fits the lock. -/
theorem Serial.setActive (h : Serial V start s)
    {active : Option (Frame σ S ε α C)}
    (hresumes : s.holder = some i → ∀ frame, active = some frame →
      frame.Resumes V ((s.sessions i).base V s.committed))
    (hfresh : s.holder ≠ some i → ∀ frame, active = some frame →
      frame.program = V.program frame.call ∧ frame.sent = [])
    (hunnested : ∀ frame, active = some frame → frame.nested = false →
      (s.sessions i).returned = [] ∧ (s.sessions i).written = []) :
    Serial V start (s.setActive i active) := by
  apply h.set
  · rfl
  · intro hholder
    exact ⟨(h.inside i hholder).replays, hresumes hholder⟩
  · intro hholder
    have houtside := h.outside i hholder
    exact ⟨houtside.returned, houtside.written,
      fun frame hactive => (hfresh hholder frame hactive).1,
      fun frame hactive => (hfresh hholder frame hactive).2⟩
  · exact hunnested

/-- The holder's call may go on. -/
theorem Serial.resume (h : Serial V start s) (hholder : s.holder = some i)
    (hactive : (s.sessions i).active = some frame)
    {frame' : Frame σ S ε α C} (hnested : frame'.nested = frame.nested)
    (hresumes : frame'.Resumes V ((s.sessions i).base V s.committed)) :
    Serial V start (s.setActive i (some frame')) := by
  apply h.setActive
  · intro _ other hother
    obtain rfl := Option.some.inj hother
    exact hresumes
  · intro hne
    exact absurd hholder hne
  · intro other hother hfalse
    obtain rfl := Option.some.inj hother
    exact h.unnested i frame hactive (hnested ▸ hfalse)

theorem Session.outside_of_idle {session : Session σ S ε α C}
    (hreturned : session.returned = []) (hwritten : session.written = [])
    (hidle : session.active = none) : session.Outside V := by
  refine ⟨hreturned, hwritten, fun frame hactive => ?_, fun frame hactive => ?_⟩
  · exact absurd (hidle.symm.trans hactive) (by simp)
  · exact absurd (hidle.symm.trans hactive) (by simp)

theorem Session.Outside.base {session : Session σ S ε α C}
    (h : session.Outside V) (committed : σ) :
    session.base V committed = committed := by
  rw [Session.base, h.written]
  rfl

theorem Session.Outside.inside {session : Session σ S ε α C}
    (h : session.Outside V) (committed : σ) : session.Inside V committed := by
  constructor
  · rw [h.base, h.returned]
    rfl
  · intro frame hactive
    exact Frame.resumes_of_fresh (h.program frame hactive)
      (h.sent frame hactive) _

theorem Serial.take (h : Serial V start s) (hfree : s.holder = none) :
    Serial V start (s.take i) := by
  have hsession : (s.take i).sessions i =
      { s.sessions i with ticket := s.clock } := Function.update_self ..
  have hothers : ∀ j, j ≠ i → (s.take i).sessions j = s.sessions j :=
    fun j hj => Function.update_of_ne hj ..
  have houtside : ∀ j, ((s.take i).sessions j).Outside V := by
    intro j
    have hold : (s.sessions j).Outside V := h.outside j (by rw [hfree]; simp)
    by_cases hj : j = i
    · subst hj
      rw [hsession]
      exact ⟨hold.returned, hold.written, hold.program, hold.sent⟩
    · rw [hothers j hj]
      exact hold
  refine ⟨h.replays, h.ordered, fun entry hentry => ?_, fun j hj => ?_,
    fun j hj => ?_, fun j _ => houtside j, fun j frame _ _ => ?_⟩
  · exact Nat.lt_succ_of_lt (h.past entry hentry)
  · exact (houtside j).inside s.committed
  · obtain rfl : i = j := Option.some.inj hj
    rw [hsession]
    exact ⟨Nat.lt_succ_self _, h.past⟩
  · exact ⟨(houtside j).returned, (houtside j).written⟩

/-- A session may release the lock when nothing is left of its calls. -/
theorem Serial.release (h : Serial V start s)
    (houtside : (s.sessions i).Outside V) :
    Serial V start (s.release i) := by
  have hholder : ∀ j, (s.release i).holder = some j → s.holder = some j := by
    intro j hj
    unfold State.release at hj
    split_ifs at hj
    exact hj
  refine ⟨h.replays, h.ordered, h.past, fun j hj => h.inside j (hholder j hj),
    fun j hj => h.ticket j (hholder j hj), fun j hj => ?_, h.unnested⟩
  by_cases hji : j = i
  · subst hji
    exact houtside
  · apply h.outside j
    intro hj'
    apply hj
    unfold State.release
    rw [if_neg (by rw [hj']; simpa using hji), hj']

theorem Session.reset_outside (session : Session σ S ε α C) :
    session.reset.Outside V :=
  Session.outside_of_idle rfl rfl rfl

theorem Session.reset_inside (session : Session σ S ε α C) (committed : σ) :
    session.reset.Inside V committed :=
  ⟨rfl, fun _ h => nomatch h⟩

/-- A transaction may end without an effect. -/
theorem Serial.abort (h : Serial V start s) :
    Serial V start (s.abort i) := by
  have hset : Serial V start (s.set i (s.sessions i).reset) := by
    apply h.set
    · rfl
    · intro _
      exact (s.sessions i).reset_inside s.committed
    · intro _
      exact (s.sessions i).reset_outside
    · intro frame hactive
      cases hactive
  apply hset.release
  rw [State.set_sessions, if_pos rfl]
  exact (s.sessions i).reset_outside

theorem Serial.commit (h : Serial V start s) :
    Serial V start (s.commit V i) := by
  by_cases hholder : s.holder = some i
  · -- No session holds the lock afterwards.
    obtain ⟨hclock, hlast⟩ := h.ticket i hholder
    have hfree : (s.abort i).holder = none :=
      if_pos hholder
    have hlog : (s.commit V i).log = s.log ++ (s.sessions i).entry := rfl
    have hentry : ∀ entry ∈ (s.sessions i).entry,
        entry.ticket = (s.sessions i).ticket := by
      intro entry hentry
      unfold Session.entry at hentry
      split_ifs at hentry
      · cases hentry
      · rw [List.mem_singleton.mp hentry]
    have hcalls : (s.sessions i).entry.flatMap Entry.calls =
        (s.sessions i).returned := by
      unfold Session.entry
      split_ifs with hempty
      · exact (List.isEmpty_iff.mp hempty).symm
      · simp
    have hpairwise : ((s.sessions i).entry.map Entry.ticket).Pairwise (· < ·) := by
      unfold Session.entry
      split_ifs <;> simp
    refine ⟨?_, ?_, fun entry hmem => ?_, fun j hj => ?_, fun j hj => ?_,
      fun j hj => ?_, h.abort.unnested⟩
    · rw [hlog, List.flatMap_append, hcalls]
      exact h.replays.append (h.inside i hholder).replays
    · rw [hlog, List.map_append]
      refine List.pairwise_append.mpr ⟨h.ordered, hpairwise, ?_⟩
      intro first hfirst second hsecond
      obtain ⟨entry, hmem, rfl⟩ := List.mem_map.mp hfirst
      obtain ⟨last, hmem', rfl⟩ := List.mem_map.mp hsecond
      rw [hentry last hmem']
      exact hlast entry hmem
    · rcases List.mem_append.mp hmem with hmem | hmem
      · exact h.past entry hmem
      · rw [hentry entry hmem]
        exact hclock
    · exact absurd (hfree.symm.trans hj) (by simp)
    · exact absurd (hfree.symm.trans hj) (by simp)
    · exact h.abort.outside j hj
  · -- A session without the lock has written nothing.
    have houtside := h.outside i hholder
    have hentry : (s.sessions i).entry = [] := by
      rw [Session.entry, houtside.returned]
      rfl
    rw [State.commit, houtside.base, hentry, List.append_nil]
    exact h.abort

theorem Serial.rollBack (h : Serial V start s)
    (hactive : (s.sessions i).active = some frame) :
    Serial V start (s.rollBack i frame) := by
  have hidle : Serial V start (s.setActive i none) := by
    apply h.setActive
    all_goals
      intros
      contradiction
  unfold State.rollBack
  split
  next => exact hidle
  next hnested =>
    obtain ⟨hreturned, hwritten⟩ :=
      h.unnested i frame hactive (by simpa using hnested)
    apply hidle.release
    rw [State.setActive, State.set_sessions, if_pos rfl]
    exact Session.outside_of_idle hreturned hwritten rfl

theorem Serial.finish (h : Serial V start s) {value : α}
    (hholder : s.holder = some i)
    (hactive : (s.sessions i).active = some frame)
    (hprogram : frame.program = .done value) :
    Serial V start (s.finish i frame value) := by
  apply h.set
  · rfl
  · intro _
    refine ⟨?_, fun frame hframe => nomatch hframe⟩
    have hrun := (h.resumes hactive).run
    rw [hprogram, Program.run] at hrun
    refine (h.inside i hholder).replays.concat (hrun.trans ?_)
    simp only [Session.base, Frame.view, Engine.applyAll_append]
  · intro hne
    exact absurd hholder hne
  · intro frame hframe
    cases hframe

/-- The next statement of a call preserves the invariant. -/
theorem Serial.advance (h : Serial V start s)
    (hactive : (s.sessions i).active = some frame)
    (hadvance : s.advance V i frame = some after) :
    Serial V start after := by
  have hresumes := h.resumes hactive
  unfold State.advance at hadvance
  split at hadvance
  next value hprogram =>
    obtain rfl := Option.some.inj hadvance
    exact h.finish (h.holder_of_started hactive
      (by simp [hprogram, Program.StartsLocked])) hactive hprogram
  next error hprogram =>
    obtain rfl := Option.some.inj hadvance
    exact h.rollBack hactive
  next β select next hprogram =>
    dsimp only at hadvance
    split_ifs at hadvance with hfree hheld
    · obtain rfl := Option.some.inj hadvance
      have htake := h.take (i := i) hfree
      have hsession : (s.take i).sessions i =
          { s.sessions i with ticket := s.clock } := Function.update_self ..
      have hactive' : ((s.take i).sessions i).active = some frame := by
        rw [hsession]
        exact hactive
      refine htake.resume rfl hactive' rfl ?_
      rw [hsession]
      exact hresumes.lock hprogram
    · obtain rfl := Option.some.inj hadvance
      exact h.resume hheld hactive rfl (hresumes.lock hprogram)
  next β select next hprogram =>
    obtain rfl := Option.some.inj hadvance
    have hholder := h.holder_of_started hactive
      (by simp [hprogram, Program.StartsLocked])
    exact h.resume hholder hactive rfl (hresumes.query hprogram)
  next statement next hprogram =>
    have hholder := h.holder_of_started hactive
      (by simp [hprogram, Program.StartsLocked])
    split at hadvance
    next =>
      obtain rfl := Option.some.inj hadvance
      exact h.rollBack hactive
    next hok =>
      obtain rfl := Option.some.inj hadvance
      exact h.resume hholder hactive rfl (hresumes.write hprogram hok)

theorem Serial.begin (h : Serial V start s) (call : C) :
    Serial V start (s.setActive i
      (some ⟨call, V.program call, [], s.holder = some i⟩)) := by
  apply h.setActive
  · intro _ frame hactive
    obtain rfl := Option.some.inj hactive
    exact Frame.resumes_of_fresh rfl rfl _
  · intro _ frame hactive
    obtain rfl := Option.some.inj hactive
    exact ⟨rfl, rfl⟩
  · intro frame hactive hnested
    obtain rfl := Option.some.inj hactive
    have houtside := h.outside i (of_decide_eq_false hnested)
    exact ⟨houtside.returned, houtside.written⟩

/-- An action of any session preserves the invariant. -/
theorem Serial.act (h : Serial V start s) {action : Action C}
    (hact : s.act V i action = some after) : Serial V start after := by
  cases action with
  | acquire =>
      simp only [State.act] at hact
      split_ifs at hact with hfree
      obtain rfl := Option.some.inj hact
      exact h.take hfree.2
  | start call =>
      simp only [State.act] at hact
      split_ifs at hact
      obtain rfl := Option.some.inj hact
      exact h.begin call
  | advance =>
      simp only [State.act] at hact
      split at hact
      next => cases hact
      next frame hactive => exact h.advance hactive hact
  | commit =>
      simp only [State.act] at hact
      split_ifs at hact
      obtain rfl := Option.some.inj hact
      exact h.commit
  | abort =>
      obtain rfl := Option.some.inj hact
      exact h.abort

/-- Any interleaving of sessions has the effect of its committed calls one
after another, in the order in which their transactions took the lock. -/
theorem Reachable.serial (h : Reachable V start s) : Serial V start s := by
  induction h with
  | initial =>
      refine ⟨rfl, List.Pairwise.nil, ?_, ?_, ?_, ?_, ?_⟩
      · intro entry hentry
        cases hentry
      · intro i hholder
        cases hholder
      · intro i hholder
        cases hholder
      · intro i _
        exact Session.outside_of_idle rfl rfl rfl
      · intro i frame hactive
        cases hactive
  | act i action _ hact ih => exact ih.act hact

end Transactions
