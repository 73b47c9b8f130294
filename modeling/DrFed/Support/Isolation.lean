import DrFed.Support.Locking

/-!
# Transactions under read committed isolation

Several transactions run their programs side by side.  A statement sees the
committed rows and those that its own transaction has written.  It waits while
another transaction holds one of the keys that it needs, be it a row to lock or
a unique value to insert, and a transaction keeps its keys until it ends.

`Secures` says what a program does whatever other transactions commit between
its statements.
-/

namespace Transactions.Program

variable {σ σ' S S' ε ε' α β : Type}

/-- A program over a part of the state. -/
def lift (part : σ' → σ) (statement : S → S') (error : ε → ε') :
    Program σ S ε α → Program σ' S' ε' α
  | .done value => .done value
  | .fail e => .fail (error e)
  | .lock select next =>
      .lock (fun state => select (part state)) fun value =>
        (next value).lift part statement error
  | .query select next =>
      .query (fun state => select (part state)) fun value =>
        (next value).lift part statement error
  | .write s next => .write (statement s) (next.lift part statement error)

variable {part : σ' → σ} {statement : S → S'} {error : ε → ε'}

@[simp] theorem lift_read (select : σ → α) :
    (read select : Program σ S ε α).lift part statement error =
      read fun state => select (part state) :=
  rfl

@[simp] theorem lift_locked (select : σ → α) :
    (locked select : Program σ S ε α).lift part statement error =
      locked fun state => select (part state) :=
  rfl

@[simp] theorem lift_send (s : S) :
    (send s : Program σ S ε Unit).lift part statement error =
      send (statement s) :=
  rfl

theorem lift_bind (program : Program σ S ε α) (f : α → Program σ S ε β) :
    (program >>= f).lift part statement error =
      program.lift part statement error >>= fun value =>
        (f value).lift part statement error := by
  induction program with
  | done value => rfl
  | fail e => rfl
  | lock select next ih =>
      exact congrArg (Program.lock _) (funext ih)
  | query select next ih =>
      exact congrArg (Program.query _) (funext ih)
  | write s next ih => exact congrArg (Program.write _) ih

end Transactions.Program

namespace ReadCommitted

open Transactions

structure Control (σ S ε κ : Type) where
  engine : Engine σ S ε
  /-- The rows that a statement locks and the unique values that it inserts. -/
  keys : S → σ → List κ
  /-- Whether the statement leaves rows of its own. -/
  writes : S → σ → Bool
  idle : ∀ {s : S} {state : σ}, writes s state = false →
    engine.effect s state = state

/-- The calls that transactions make, one each. -/
structure Service (σ S ε κ α C : Type) where
  control : Control σ S ε κ
  program : C → Program σ S ε α
  /-- The deferred checks of a commit, on the states around the
  transaction. -/
  accepts : σ → σ → Bool

/-- An open transaction. -/
structure Running (σ S ε α C : Type) where
  call : C
  /-- What is left to run. -/
  program : Program σ S ε α
  sent : List S

structure State (σ S ε κ α C ι : Type) where
  committed : σ
  /-- The keys that open transactions hold. -/
  claims : List (ι × κ)
  running : ι → Option (Running σ S ε α C)
  /-- The committed calls, in the order of their commits. -/
  log : List (C × α)

variable {σ S ε κ α β C ι : Type}

/-! ## The transactions -/

namespace State

variable [DecidableEq ι] [DecidableEq κ]

def initial (start : σ) : State σ S ε κ α C ι where
  committed := start
  claims := []
  running _ := none
  log := []

/-- What the statements of a transaction see. -/
def view (V : Service σ S ε κ α C) (s : State σ S ε κ α C ι)
    (run : Running σ S ε α C) : σ :=
  V.control.engine.applyAll run.sent s.committed

/-- The keys that transaction `i` holds. -/
def held (s : State σ S ε κ α C ι) (i : ι) : List κ :=
  (s.claims.filter fun claim => claim.1 = i).map Prod.snd

def blocked (s : State σ S ε κ α C ι) (i : ι) (keys : List κ) : Bool :=
  s.claims.any fun claim => claim.1 ≠ i && keys.contains claim.2

def goto (s : State σ S ε κ α C ι) (i : ι) (run : Running σ S ε α C) :
    State σ S ε κ α C ι :=
  { s with running := Function.update s.running i (some run) }

/-- Transaction `i` ends and gives its keys back. -/
def finish (s : State σ S ε κ α C ι) (i : ι) : State σ S ε κ α C ι :=
  { s with
    claims := s.claims.filter fun claim => claim.1 ≠ i
    running := Function.update s.running i none }

def commit (V : Service σ S ε κ α C) (s : State σ S ε κ α C ι) (i : ι)
    (run : Running σ S ε α C) (value : α) : State σ S ε κ α C ι :=
  { s.finish i with
    committed := s.view V run
    log := s.log ++ [(run.call, value)] }

def send (V : Service σ S ε κ α C) (s : State σ S ε κ α C ι) (i : ι)
    (run : Running σ S ε α C) (statement : S) (next : Program σ S ε α) :
    State σ S ε κ α C ι :=
  { s.goto i
      { run with
        program := next
        sent :=
          if V.control.writes statement (s.view V run) then
            run.sent ++ [statement]
          else run.sent } with
    claims :=
      (V.control.keys statement (s.view V run)).map (Prod.mk i) ++ s.claims }

/-- The statement is sent, unless it waits for a key. -/
def write (V : Service σ S ε κ α C) (s : State σ S ε κ α C ι) (i : ι)
    (run : Running σ S ε α C) (statement : S) (next : Program σ S ε α) :
    Option (State σ S ε κ α C ι) :=
  if s.blocked i (V.control.keys statement (s.view V run)) then none
  else
    match V.control.engine.execute statement (s.view V run) with
    | .error _ => some (s.finish i)
    | .ok _ => some (s.send V i run statement next)

/-- The next statement of transaction `i`, its commit included. -/
def advance (V : Service σ S ε κ α C) (s : State σ S ε κ α C ι) (i : ι)
    (run : Running σ S ε α C) : Option (State σ S ε κ α C ι) :=
  match run.program with
  | .done value =>
      if V.accepts s.committed (s.view V run) then
        some (s.commit V i run value)
      else some (s.finish i)
  | .fail _ => some (s.finish i)
  | .lock select next =>
      some (s.goto i { run with program := next (select (s.view V run)) })
  | .query select next =>
      some (s.goto i { run with program := next (select (s.view V run)) })
  | .write statement next => s.write V i run statement next

end State

inductive Action (C : Type) where
  | start (call : C)
  | advance
  | abort

section Machine

variable [DecidableEq ι] [DecidableEq κ]

def State.act (V : Service σ S ε κ α C) (s : State σ S ε κ α C ι) (i : ι) :
    Action C → Option (State σ S ε κ α C ι)
  | .start call =>
      if (s.running i).isNone then some (s.goto i ⟨call, V.program call, []⟩)
      else none
  | .advance =>
      match s.running i with
      | none => none
      | some run => s.advance V i run
  | .abort => some (s.finish i)

/-- Some actions, in any order. -/
inductive Run (V : Service σ S ε κ α C) (start : State σ S ε κ α C ι) :
    State σ S ε κ α C ι → Prop
  | refl : Run V start start
  | tail {s s' : State σ S ε κ α C ι} (i : ι) (action : Action C)
      (h : Run V start s) (hact : s.act V i action = some s') :
      Run V start s'

/-- Some actions, each skipped where it is not possible. -/
def State.play (V : Service σ S ε κ α C) (s : State σ S ε κ α C ι)
    (actions : List (ι × Action C)) : State σ S ε κ α C ι :=
  actions.foldl (fun s action => (s.act V action.1 action.2).getD s) s

theorem Run.play {V : Service σ S ε κ α C} {start s : State σ S ε κ α C ι}
    (h : Run V start s) (actions : List (ι × Action C)) :
    Run V start (s.play V actions) := by
  induction actions generalizing s with
  | nil => exact h
  | cons action rest ih =>
      have hnext : Run V start ((s.act V action.1 action.2).getD s) := by
        cases hact : s.act V action.1 action.2 with
        | none => exact h
        | some after => exact .tail action.1 action.2 h hact
      exact ih hnext

end Machine

/-! ## What a program secures -/

/-- What commits of other transactions leave alone. -/
structure Rules (K : Control σ S ε κ) where
  /-- Commits of others leave a transaction that holds some keys with this. -/
  rely : List κ → σ → σ → Prop
  /-- The keys cover what the statement writes. -/
  covered : S → List κ → Prop
  /-- The committed state has none of the unique values that the statements
  have inserted. -/
  distinct : List S → σ → Prop
  refl : ∀ (held : List κ) (state : σ), rely held state state
  trans : ∀ {held : List κ} {first second third : σ},
    rely held first second → rely held second third → rely held first third
  mono : ∀ {s : S} {held more : List κ}, covered s held →
    (∀ key ∈ held, key ∈ more) → covered s more
  own : ∀ {s : S} {held : List κ} {first second : σ}, covered s held →
    rely held first second →
      rely held (K.engine.effect s first) (K.engine.effect s second)
  other : ∀ {s : S} {held others : List κ} (state : σ), covered s others →
    (∀ key ∈ held, key ∉ others) → rely held state (K.engine.effect s state)
  distinct_nil : ∀ base : σ, distinct [] base
  distinct_rely : ∀ {sent : List S} {held : List κ} {first second : σ},
    (∀ s ∈ sent, covered s held) → rely held first second →
      distinct sent first → distinct sent second
  distinct_send : ∀ {sent : List S} {s : S} {base after : σ},
    distinct sent base →
      K.engine.execute s (K.engine.applyAll sent base) = .ok after →
        K.writes s (K.engine.applyAll sent base) = true →
          distinct (sent ++ [s]) base

/-- How far a transaction has come. -/
structure Point (σ S κ : Type) where
  held : List κ
  sent : List S
  /-- The committed state. -/
  base : σ

namespace Point

variable {K : Control σ S ε κ}

def view (K : Control σ S ε κ) (p : Point σ S κ) : σ :=
  K.engine.applyAll p.sent p.base

def send (K : Control σ S ε κ) (p : Point σ S κ) (statement : S) :
    Point σ S κ where
  held := K.keys statement (p.view K) ++ p.held
  sent :=
    if K.writes statement (p.view K) then p.sent ++ [statement] else p.sent
  base := p.base

/-- Others have committed between the points. -/
structure Before (R : Rules K) (p q : Point σ S κ) : Prop where
  held : q.held = p.held
  sent : q.sent = p.sent
  base : R.rely p.held p.base q.base
  view : R.rely p.held (p.view K) (q.view K)

variable {R : Rules K} {p q r : Point σ S κ}

theorem Before.refl (p : Point σ S κ) : p.Before R p :=
  ⟨rfl, rfl, R.refl _ _, R.refl _ _⟩

theorem Before.trans (h : p.Before R q) (h' : q.Before R r) :
    p.Before R r where
  held := h'.held.trans h.held
  sent := h'.sent.trans h.sent
  base := R.trans h.base (h.held ▸ h'.base)
  view := R.trans h.view (h.held ▸ h'.view)

/-- A point sees what its statement has written. -/
theorem view_send (p : Point σ S κ) (statement : S) :
    (p.send K statement).view K =
      K.engine.effect statement (p.view K) := by
  rw [view, send]
  by_cases hwrites : K.writes statement (p.view K) = true
  · rw [if_pos hwrites, Engine.applyAll_concat]
    rfl
  · rw [if_neg hwrites, K.idle (by simpa using hwrites)]
    rfl

theorem covered_send {p : Point σ S κ} {statement : S}
    (h : ∀ sent ∈ p.sent, R.covered sent p.held)
    (hnew : K.writes statement (p.view K) = true →
      R.covered statement (p.send K statement).held) :
    ∀ sent ∈ (p.send K statement).sent,
      R.covered sent (p.send K statement).held := by
  intro sent hsent
  have hold : ∀ sent ∈ p.sent, R.covered sent (p.send K statement).held :=
    fun sent hsent => R.mono (h sent hsent)
      fun key hkey => List.mem_append_right _ hkey
  simp only [send] at hsent
  split_ifs at hsent with hwrites
  · rcases List.mem_append.mp hsent with hmem | hlast
    · exact hold sent hmem
    · rw [List.mem_singleton.mp hlast]
      exact hnew hwrites
  · exact hold sent hsent

theorem distinct_send {p : Point σ S κ} {statement : S} {after : σ}
    (h : R.distinct p.sent p.base)
    (hexecute : K.engine.execute statement (p.view K) = .ok after) :
    R.distinct (p.send K statement).sent (p.send K statement).base := by
  simp only [send]
  split_ifs with hwrites
  · exact R.distinct_send h hexecute hwrites
  · exact h

end Point

namespace Rules

variable {K : Control σ S ε κ} (R : Rules K)

/-- A program keeps within its keys and returns only what `Q` says, whatever
others commit meanwhile. -/
def Secures : Program σ S ε α → Point σ S κ →
    (α → Point σ S κ → Prop) → Prop
  | .done value, p, Q => ∀ q, p.Before R q → Q value q
  | .fail _, _, _ => True
  | .lock select next, p, Q =>
      ∀ q, p.Before R q → Secures (next (select (q.view K))) q Q
  | .query select next, p, Q =>
      ∀ q, p.Before R q → Secures (next (select (q.view K))) q Q
  | .write statement next, p, Q =>
      ∀ q after, p.Before R q →
        K.engine.execute statement (q.view K) = .ok after →
          (K.writes statement (q.view K) = true →
            R.covered statement (q.send K statement).held) ∧
          Secures next (q.send K statement) Q

variable {R} {p q : Point σ S κ}

theorem Secures.before {program : Program σ S ε α}
    {Q : α → Point σ S κ → Prop} (h : R.Secures program p Q)
    (hq : p.Before R q) : R.Secures program q Q := by
  cases program with
  | done value => exact fun r hr => h r (hq.trans hr)
  | fail error => trivial
  | lock select next => exact fun r hr => h r (hq.trans hr)
  | query select next => exact fun r hr => h r (hq.trans hr)
  | write statement next =>
      exact fun r after hr => h r after (hq.trans hr)

@[simp] theorem secures_pure {value : α} {Q : α → Point σ S κ → Prop} :
    R.Secures (pure value : Program σ S ε α) p Q ↔
      ∀ q, p.Before R q → Q value q :=
  Iff.rfl

theorem secures_bind {program : Program σ S ε α} {f : α → Program σ S ε β}
    {Q : β → Point σ S κ → Prop} :
    R.Secures (program >>= f) p Q ↔
      R.Secures program p fun value q => R.Secures (f value) q Q := by
  induction program generalizing p with
  | done value =>
      constructor
      · exact fun h q hq => h.before hq
      · exact fun h => h p (Point.Before.refl p)
  | fail error => exact Iff.rfl
  | lock select next ih => exact forall₂_congr fun q _ => ih _
  | query select next ih => exact forall₂_congr fun q _ => ih _
  | write statement next ih =>
      exact forall₄_congr fun q _ _ _ => and_congr_right fun _ => ih

@[simp] theorem secures_read_bind {select : σ → β}
    {f : β → Program σ S ε α} {Q : α → Point σ S κ → Prop} :
    R.Secures (Program.read select >>= f) p Q ↔
      ∀ q, p.Before R q → R.Secures (f (select (q.view K))) q Q :=
  Iff.rfl

@[simp] theorem secures_locked_bind {select : σ → β}
    {f : β → Program σ S ε α} {Q : α → Point σ S κ → Prop} :
    R.Secures (Program.locked select >>= f) p Q ↔
      ∀ q, p.Before R q → R.Secures (f (select (q.view K))) q Q :=
  Iff.rfl

theorem secures_send_bind {statement : S} {f : Unit → Program σ S ε α}
    {Q : α → Point σ S κ → Prop} :
    R.Secures (Program.send statement >>= f) p Q ↔
      ∀ q after, p.Before R q →
        K.engine.execute statement (q.view K) = .ok after →
          (K.writes statement (q.view K) = true →
            R.covered statement (q.send K statement).held) ∧
          R.Secures (f ()) (q.send K statement) Q :=
  Iff.rfl

/-- What a program secures holds of it when it runs alone. -/
theorem Secures.run {program : Program σ S ε α} {Q : α → Point σ S κ → Prop}
    (h : R.Secures program p Q) {value : α} {after : σ}
    (hcovered : ∀ statement ∈ p.sent, R.covered statement p.held)
    (hdistinct : R.distinct p.sent p.base)
    (hrun : program.run K.engine (p.view K) = .ok (value, after)) :
    ∃ q, Q value q ∧ q.view K = after ∧ q.base = p.base ∧
      (∀ statement ∈ q.sent, R.covered statement q.held) ∧
      R.distinct q.sent q.base := by
  induction program generalizing p with
  | done result =>
      obtain ⟨rfl, rfl⟩ : result = value ∧ p.view K = after := by
        simpa [Program.run] using hrun
      exact ⟨p, h p (Point.Before.refl p), rfl, rfl, hcovered, hdistinct⟩
  | fail error => cases hrun
  | lock select next ih =>
      exact ih _ (h p (Point.Before.refl p)) hcovered hdistinct hrun
  | query select next ih =>
      exact ih _ (h p (Point.Before.refl p)) hcovered hdistinct hrun
  | write statement next ih =>
      rw [Program.run] at hrun
      cases hexecute : K.engine.execute statement (p.view K) with
      | error error =>
          rw [hexecute] at hrun
          cases hrun
      | ok middle =>
          obtain ⟨hnew, hnext⟩ := h p middle (Point.Before.refl p) hexecute
          have hdistinct' := Point.distinct_send hdistinct hexecute
          rw [hexecute, K.engine.execute_effect hexecute,
            ← Point.view_send] at hrun
          obtain ⟨q, hq⟩ :=
            ih hnext (Point.covered_send hcovered hnew) hdistinct' hrun
          exact ⟨q, hq⟩

end Rules

/-! ## Runs -/

section Runs

variable [DecidableEq ι] {V : Service σ S ε κ α C}
  {R : Rules V.control} {Q : C → α → Point σ S κ → Prop}
  {s s' : State σ S ε κ α C ι} {i j : ι}

def State.point (s : State σ S ε κ α C ι) (i : ι)
    (run : Running σ S ε α C) : Point σ S κ :=
  ⟨s.held i, run.sent, s.committed⟩

/-- No key is held twice, and each transaction still secures what its call
does. -/
structure State.Sound (V : Service σ S ε κ α C) (R : Rules V.control)
    (Q : C → α → Point σ S κ → Prop) (s : State σ S ε κ α C ι) : Prop where
  exclusive : ∀ i j key, key ∈ s.held i → key ∈ s.held j → i = j
  idle : ∀ i, s.running i = none → s.held i = []
  covered : ∀ i run, s.running i = some run →
    ∀ statement ∈ run.sent, R.covered statement (s.held i)
  distinct : ∀ i run, s.running i = some run →
    R.distinct run.sent s.committed
  secures : ∀ i run, s.running i = some run →
    R.Secures run.program (s.point i run) (Q run.call)

/-- A call has committed what its transaction has written. -/
inductive Committed (V : Service σ S ε κ α C) (R : Rules V.control)
    (Q : C → α → Point σ S κ → Prop) (s s' : State σ S ε κ α C ι) : Prop
  | intro (call : C) (value : α) (p : Point σ S κ)
      (hbase : p.base = s.committed)
      (hcovered : ∀ statement ∈ p.sent, R.covered statement p.held)
      (hdistinct : R.distinct p.sent p.base)
      (hcommitted : s'.committed = p.view V.control)
      (hlog : s'.log = s.log ++ [(call, value)])
      (haccepts : V.accepts p.base (p.view V.control) = true)
      (hQ : Q call value p)

theorem State.initial_sound (start : σ) :
    (State.initial start : State σ S ε κ α C ι).Sound V R Q where
  exclusive i j key h := by simp [State.initial, State.held] at h
  idle i _ := rfl
  covered i run h := by simp [State.initial] at h
  distinct i run h := by simp [State.initial] at h
  secures i run h := by simp [State.initial] at h

theorem State.held_finish_self (s : State σ S ε κ α C ι) (i : ι) :
    (s.finish i).held i = [] := by
  simp [State.held, State.finish, List.filter_filter]

theorem State.held_finish_of_ne (s : State σ S ε κ α C ι) (h : j ≠ i) :
    (s.finish i).held j = s.held j := by
  rw [State.held, State.held, State.finish, List.filter_filter]
  refine congrArg _ (List.filter_congr fun claim _ => ?_)
  by_cases hj : claim.1 = j
  · simp [hj, h]
  · simp [hj]

theorem State.held_sublist_finish (s : State σ S ε κ α C ι) (i j : ι)
    {key : κ} (h : key ∈ (s.finish i).held j) : key ∈ s.held j := by
  by_cases hj : j = i
  · rw [hj, State.held_finish_self] at h
    cases h
  · rwa [State.held_finish_of_ne s hj] at h

theorem State.running_goto_of_ne (s : State σ S ε κ α C ι)
    (run : Running σ S ε α C) (h : j ≠ i) :
    (s.goto i run).running j = s.running j :=
  Function.update_of_ne h _ _

theorem State.running_goto_self (s : State σ S ε κ α C ι)
    (run : Running σ S ε α C) : (s.goto i run).running i = some run :=
  Function.update_self _ _ _

theorem State.running_finish_of_ne (s : State σ S ε κ α C ι) (h : j ≠ i) :
    (s.finish i).running j = s.running j :=
  Function.update_of_ne h _ _

theorem State.running_finish_self (s : State σ S ε κ α C ι) (i : ι) :
    (s.finish i).running i = none :=
  Function.update_self _ _ _

theorem State.held_send (s : State σ S ε κ α C ι)
    (run : Running σ S ε α C) (statement : S) (next : Program σ S ε α) :
    (s.send V i run statement next).held j =
      if j = i then
        V.control.keys statement (s.view V run) ++ s.held i
      else s.held j := by
  simp only [State.held, State.send, List.filter_append, List.map_append]
  by_cases h : j = i
  · subst h
    simp [List.filter_map, Function.comp_def]
  · simp [List.filter_map, Function.comp_def, h, Ne.symm h]

theorem State.running_send_self (s : State σ S ε κ α C ι)
    (run : Running σ S ε α C) (statement : S) (next : Program σ S ε α) :
    (s.send V i run statement next).running i = some
      { run with
        program := next
        sent :=
          if V.control.writes statement (s.view V run) then
            run.sent ++ [statement]
          else run.sent } :=
  Function.update_self _ _ _

theorem State.Sound.finish (h : s.Sound V R Q) (i : ι) :
    (s.finish i).Sound V R Q where
  exclusive j k key hj hk :=
    h.exclusive j k key (s.held_sublist_finish i j hj)
      (s.held_sublist_finish i k hk)
  idle j hj := by
    by_cases hij : j = i
    · rw [hij, State.held_finish_self]
    · rw [State.running_finish_of_ne s hij] at hj
      rw [State.held_finish_of_ne s hij]
      exact h.idle j hj
  covered j run hj := by
    by_cases hij : j = i
    · rw [hij, State.running_finish_self] at hj
      cases hj
    · rw [State.running_finish_of_ne s hij] at hj
      rw [State.held_finish_of_ne s hij]
      exact h.covered j run hj
  distinct j run hj := by
    by_cases hij : j = i
    · rw [hij, State.running_finish_self] at hj
      cases hj
    · exact h.distinct j run ((s.running_finish_of_ne hij).symm.trans hj)
  secures j run hj := by
    by_cases hij : j = i
    · rw [hij, State.running_finish_self] at hj
      cases hj
    · rw [State.running_finish_of_ne s hij] at hj
      have hpoint : (s.finish i).point j run = s.point j run := by
        rw [State.point, State.held_finish_of_ne s hij]
        rfl
      rw [hpoint]
      exact h.secures j run hj

/-- Transaction `i` goes on without a new key or statement. -/
theorem State.Sound.goto (h : s.Sound V R Q) {next : Running σ S ε α C}
    (hcovered : ∀ statement ∈ next.sent, R.covered statement (s.held i))
    (hdistinct : R.distinct next.sent s.committed)
    (hsecures : R.Secures next.program (s.point i next) (Q next.call)) :
    (s.goto i next).Sound V R Q where
  exclusive := h.exclusive
  idle j hj := by
    by_cases hij : j = i
    · rw [hij, State.running_goto_self] at hj
      cases hj
    · rw [State.running_goto_of_ne s next hij] at hj
      exact h.idle j hj
  covered j other hj := by
    by_cases hij : j = i
    · rw [hij, State.running_goto_self] at hj
      obtain rfl := Option.some.inj hj
      exact hij ▸ hcovered
    · rw [State.running_goto_of_ne s next hij] at hj
      exact h.covered j other hj
  distinct j other hj := by
    by_cases hij : j = i
    · rw [hij, State.running_goto_self] at hj
      obtain rfl := Option.some.inj hj
      exact hdistinct
    · rw [State.running_goto_of_ne s next hij] at hj
      exact h.distinct j other hj
  secures j other hj := by
    by_cases hij : j = i
    · rw [hij, State.running_goto_self] at hj
      obtain rfl := Option.some.inj hj
      exact hij ▸ hsecures
    · rw [State.running_goto_of_ne s next hij] at hj
      exact h.secures j other hj

/-- What other transactions rely on is kept by the statements of one. -/
theorem Rules.other_all {K : Control σ S ε κ} (R : Rules K) {sent : List S}
    {held others : List κ} (state : σ)
    (hcovered : ∀ statement ∈ sent, R.covered statement others)
    (hdisjoint : ∀ key ∈ held, key ∉ others) :
    R.rely held state (K.engine.applyAll sent state) := by
  induction sent generalizing state with
  | nil => exact R.refl _ _
  | cons statement rest ih =>
      have hfirst := R.other state (hcovered statement List.mem_cons_self)
        hdisjoint
      exact R.trans hfirst
        (ih _ fun other hother => hcovered other (List.mem_cons_of_mem _ hother))

theorem Rules.own_all {K : Control σ S ε κ} (R : Rules K) {sent : List S}
    {held : List κ} {first second : σ}
    (hcovered : ∀ statement ∈ sent, R.covered statement held)
    (h : R.rely held first second) :
    R.rely held (K.engine.applyAll sent first)
      (K.engine.applyAll sent second) := by
  induction sent generalizing first second with
  | nil => exact h
  | cons statement rest ih =>
      exact ih (fun other hother => hcovered other (List.mem_cons_of_mem _ hother))
        (R.own (hcovered statement List.mem_cons_self) h)

/-- A commit of transaction `i` leaves the others what they rely on. -/
theorem State.Sound.commit_rely (h : s.Sound V R Q) {run : Running σ S ε α C}
    (hrun : s.running i = some run) {other : Running σ S ε α C}
    (hj : (s.finish i).running j = some other) :
    R.rely ((s.finish i).held j) s.committed (s.view V run) := by
  have hij : j ≠ i := by
    rintro rfl
    rw [s.running_finish_self] at hj
    cases hj
  refine R.other_all s.committed (h.covered i run hrun) fun key hj hi => hij ?_
  exact h.exclusive j i key (s.held_sublist_finish i j hj) hi

/-- The others go on from where a commit of transaction `i` leaves them. -/
theorem State.Sound.commit (h : s.Sound V R Q) {run : Running σ S ε α C}
    (hrun : s.running i = some run) (value : α) :
    (s.commit V i run value).Sound V R Q where
  exclusive := (h.finish i).exclusive
  idle := (h.finish i).idle
  covered := (h.finish i).covered
  distinct j other hj :=
    R.distinct_rely ((h.finish i).covered j other hj)
      (h.commit_rely hrun hj) ((h.finish i).distinct j other hj)
  secures j other hj := by
    refine ((h.finish i).secures j other hj).before ?_
    have hrely := h.commit_rely hrun hj
    exact ⟨rfl, rfl, hrely,
      R.own_all ((h.finish i).covered j other hj) hrely⟩

theorem State.Sound.send (h : s.Sound V R Q) {run : Running σ S ε α C}
    (hrun : s.running i = some run) {statement : S} {next : Program σ S ε α}
    (hfree : ∀ j, j ≠ i →
      ∀ key ∈ V.control.keys statement (s.view V run), key ∉ s.held j)
    (hcovered : V.control.writes statement (s.view V run) = true →
      R.covered statement
        ((s.point i run).send V.control statement).held)
    (hdistinct : R.distinct ((s.point i run).send V.control statement).sent
      s.committed)
    (hsecures : R.Secures next ((s.point i run).send V.control statement)
      (Q run.call)) :
    (s.send V i run statement next).Sound V R Q where
  exclusive j k key hj hk := by
    rw [State.held_send] at hj hk
    split_ifs at hj hk with hji hki hki
    · rw [hji, hki]
    · rcases List.mem_append.mp hj with hnew | hold
      · exact absurd hk (hfree k hki key hnew)
      · exact hji.trans (h.exclusive i k key hold hk)
    · rcases List.mem_append.mp hk with hnew | hold
      · exact absurd hj (hfree j hji key hnew)
      · exact (h.exclusive j i key hj hold).trans hki.symm
    · exact h.exclusive j k key hj hk
  idle j hj := by
    by_cases hij : j = i
    · rw [hij, State.running_send_self] at hj
      cases hj
    · rw [State.held_send, if_neg hij]
      exact h.idle j ((s.running_goto_of_ne _ hij).symm.trans hj)
  covered j other hj := by
    by_cases hij : j = i
    · rw [hij, State.running_send_self] at hj
      obtain rfl := Option.some.inj hj
      rw [hij, State.held_send, if_pos rfl]
      exact Point.covered_send (p := s.point i run) (h.covered i run hrun)
        hcovered
    · rw [State.held_send, if_neg hij]
      exact h.covered j other ((s.running_goto_of_ne _ hij).symm.trans hj)
  distinct j other hj := by
    by_cases hij : j = i
    · rw [hij, State.running_send_self] at hj
      obtain rfl := Option.some.inj hj
      exact hdistinct
    · exact h.distinct j other ((s.running_goto_of_ne _ hij).symm.trans hj)
  secures j other hj := by
    by_cases hij : j = i
    · rw [hij, State.running_send_self] at hj
      obtain rfl := Option.some.inj hj
      rw [hij, State.point, State.held_send, if_pos rfl]
      exact hsecures
    · have hpoint : (s.send V i run statement next).point j other =
          s.point j other := by
        rw [State.point, State.held_send, if_neg hij]
        rfl
      rw [hpoint]
      exact h.secures j other ((s.running_goto_of_ne _ hij).symm.trans hj)

variable [DecidableEq κ]

/-- A key that a sent statement needs is held by no other. -/
theorem State.not_held_of_not_blocked {keys : List κ}
    (h : ¬s.blocked i keys = true) {key : κ} (hkey : key ∈ keys) (hij : j ≠ i) :
    key ∉ s.held j := by
  intro hheld
  obtain ⟨⟨owner, held⟩, hclaim, rfl⟩ := List.mem_map.mp hheld
  obtain ⟨hmem, howner⟩ := List.mem_filter.mp hclaim
  refine h (List.any_eq_true.mpr ⟨_, hmem, ?_⟩)
  have howner' : owner = j := of_decide_eq_true howner
  simp [howner', hij, hkey]

theorem State.Sound.write (h : s.Sound V R Q) {run : Running σ S ε α C}
    (hrun : s.running i = some run) {statement : S} {next : Program σ S ε α}
    (hprogram : run.program = .write statement next)
    (hact : s.write V i run statement next = some s') :
    s'.Sound V R Q ∧ s'.committed = s.committed ∧ s'.log = s.log := by
  rw [State.write] at hact
  split_ifs at hact with hblocked
  cases hexecute : V.control.engine.execute statement (s.view V run) with
  | error error =>
      rw [hexecute] at hact
      obtain rfl := Option.some.inj hact
      exact ⟨h.finish i, rfl, rfl⟩
  | ok after =>
      rw [hexecute] at hact
      obtain rfl := Option.some.inj hact
      have hsecures := h.secures i run hrun
      rw [hprogram] at hsecures
      obtain ⟨hcovered, hnext⟩ :=
        hsecures (s.point i run) after (Point.Before.refl _) hexecute
      have hfree : ∀ j, j ≠ i →
          ∀ key ∈ V.control.keys statement (s.view V run), key ∉ s.held j :=
        fun j hj key hkey => s.not_held_of_not_blocked hblocked hkey hj
      have hdistinct := Point.distinct_send (p := s.point i run)
        (h.distinct i run hrun) hexecute
      exact ⟨h.send hrun hfree hcovered hdistinct hnext, rfl, rfl⟩

theorem State.Sound.advance (h : s.Sound V R Q) {run : Running σ S ε α C}
    (hrun : s.running i = some run) (hact : s.advance V i run = some s') :
    s'.Sound V R Q ∧
      (s'.committed = s.committed ∧ s'.log = s.log ∨ Committed V R Q s s') := by
  have hsecures := h.secures i run hrun
  have hcovered := h.covered i run hrun
  have hdistinct := h.distinct i run hrun
  have hpoint := Point.Before.refl (R := R) (s.point i run)
  rw [State.advance] at hact
  cases hprogram : run.program with
  | done value =>
      rw [hprogram] at hact hsecures
      dsimp only at hact
      split_ifs at hact with haccepts
      · obtain rfl := Option.some.inj hact
        exact ⟨h.commit hrun value, .inr ⟨run.call, value, s.point i run, rfl,
          hcovered, hdistinct, rfl, rfl, haccepts, hsecures _ hpoint⟩⟩
      · obtain rfl := Option.some.inj hact
        exact ⟨h.finish i, .inl ⟨rfl, rfl⟩⟩
  | fail error =>
      rw [hprogram] at hact
      obtain rfl := Option.some.inj hact
      exact ⟨h.finish i, .inl ⟨rfl, rfl⟩⟩
  | lock select next =>
      rw [hprogram] at hact hsecures
      obtain rfl := Option.some.inj hact
      exact ⟨h.goto hcovered hdistinct (hsecures _ hpoint), .inl ⟨rfl, rfl⟩⟩
  | query select next =>
      rw [hprogram] at hact hsecures
      obtain rfl := Option.some.inj hact
      exact ⟨h.goto hcovered hdistinct (hsecures _ hpoint), .inl ⟨rfl, rfl⟩⟩
  | write statement next =>
      rw [hprogram] at hact
      obtain ⟨hsound, hsame⟩ := h.write hrun hprogram hact
      exact ⟨hsound, .inl hsame⟩

/-- One action keeps the transactions sound, and either leaves what is
committed or commits one call. -/
theorem State.Sound.act (h : s.Sound V R Q)
    (hprogram : ∀ call base, R.Secures (V.program call) ⟨[], [], base⟩ (Q call))
    {action : Action C} (hact : s.act V i action = some s') :
    s'.Sound V R Q ∧
      (s'.committed = s.committed ∧ s'.log = s.log ∨ Committed V R Q s s') := by
  cases action with
  | start call =>
      rw [State.act] at hact
      split_ifs at hact with hnone
      obtain rfl := Option.some.inj hact
      have hheld := h.idle i (Option.isNone_iff_eq_none.mp hnone)
      refine ⟨h.goto (by simp) (R.distinct_nil _) ?_, .inl ⟨rfl, rfl⟩⟩
      rw [State.point, hheld]
      exact hprogram call s.committed
  | advance =>
      rw [State.act] at hact
      cases hrun : s.running i with
      | none =>
          rw [hrun] at hact
          cases hact
      | some run =>
          rw [hrun] at hact
          exact h.advance hrun hact
  | abort =>
      obtain rfl := Option.some.inj hact
      exact ⟨h.finish i, .inl ⟨rfl, rfl⟩⟩

/-- The transactions of a run are sound when each call secures its part. -/
theorem Run.sound_from
    (hprogram : ∀ call base, R.Secures (V.program call) ⟨[], [], base⟩ (Q call))
    (hs : s.Sound V R Q) (h : Run V s s') : s'.Sound V R Q := by
  induction h with
  | refl => exact hs
  | tail i action _ hact ih => exact (ih.act hprogram hact).1

theorem Run.sound {start : σ}
    (hprogram : ∀ call base, R.Secures (V.program call) ⟨[], [], base⟩ (Q call))
    (h : Run V (State.initial start) s) : s.Sound V R Q :=
  h.sound_from hprogram (State.initial_sound start)

/-- What holds of a state and is kept by the commit of a call holds in every
state of a run from there. -/
theorem Run.invariant_from
    (hprogram : ∀ call base, R.Secures (V.program call) ⟨[], [], base⟩ (Q call))
    {I : σ → List (C × α) → Prop} (hs : s.Sound V R Q)
    (hstart : I s.committed s.log)
    (hcommit : ∀ {call value p log}, I p.base log →
      (∀ statement ∈ p.sent, R.covered statement p.held) →
      R.distinct p.sent p.base → V.accepts p.base (p.view V.control) = true →
      Q call value p → I (p.view V.control) (log ++ [(call, value)]))
    (h : Run V s s') : I s'.committed s'.log := by
  induction h with
  | refl => exact hstart
  | tail i action hrun hact ih =>
      have hsound := hrun.sound_from hprogram hs
      rcases (hsound.act hprogram hact).2 with hsame | hcommitted
      · rw [hsame.1, hsame.2]
        exact ih
      · obtain ⟨call, value, p, hbase, hcovered, hdistinct, hview, hlog,
          haccepts, hQ⟩ := hcommitted
        rw [hview, hlog]
        exact hcommit (hbase ▸ ih) hcovered hdistinct haccepts hQ

end Runs

end ReadCommitted
