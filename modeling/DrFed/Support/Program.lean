import Mathlib.Tactic.Basic

/-!
# Transaction programs

A transaction body as a tree of statements: each node is one statement sent to
a store, and what comes after it may depend on what the statement returned.
The store is a type of states with a language of write statements.  Programs
are run alone here; `Support.Locking` interleaves them.
-/

namespace Transactions

/-- The write statements of a store.  A statement may be refused; one that is
accepted has the effect it has on every state. -/
structure Engine (σ S ε : Type) where
  execute : S → σ → Except ε σ
  effect : S → σ → σ
  execute_effect : ∀ {s : S} {state after : σ},
    execute s state = .ok after → after = effect s state

/-- A transaction body.  `lock` reads a row and keeps it locked. -/
inductive Program (σ S ε : Type) (α : Type) : Type 1 where
  | done (value : α)
  | fail (error : ε)
  | lock {β : Type} (select : σ → β) (next : β → Program σ S ε α)
  | query {β : Type} (select : σ → β) (next : β → Program σ S ε α)
  | write (statement : S) (next : Program σ S ε α)

namespace Program

variable {σ S ε α β γ : Type}

protected def bind :
    Program σ S ε α → (α → Program σ S ε β) → Program σ S ε β
  | .done value, f => f value
  | .fail error, _ => .fail error
  | .lock select next, f => .lock select fun b => (next b).bind f
  | .query select next, f => .query select fun b => (next b).bind f
  | .write statement next, f => .write statement (next.bind f)

instance : Monad (Program σ S ε) where
  pure := .done
  bind := Program.bind

/-- Read from the store. -/
def read (select : σ → β) : Program σ S ε β := .query select .done

/-- Lock a row and read from the store. -/
def locked (select : σ → β) : Program σ S ε β := .lock select .done

def send (statement : S) : Program σ S ε Unit := .write statement (.done ())

/-- Send statements one after the other. -/
def sendAll : List S → Program σ S ε Unit
  | [] => .done ()
  | statement :: rest => .write statement (sendAll rest)

/-- Stop with an error when there is one. -/
def require : Option ε → Program σ S ε Unit
  | none => .done ()
  | some error => .fail error

end Program

variable {σ S ε α β : Type}

/-- Statements executed in order. -/
def Engine.executeAll (E : Engine σ S ε) : List S → σ → Except ε σ
  | [], state => .ok state
  | statement :: rest, state =>
      match E.execute statement state with
      | .error error => .error error
      | .ok after => E.executeAll rest after

/-- What every statement preserves, a sequence of statements preserves. -/
theorem Engine.executeAll_invariant (E : Engine σ S ε) {I : σ → Prop}
    (hstep : ∀ {s : S} {state after : σ}, I state →
      E.execute s state = .ok after → I after)
    {statements : List S} {state after : σ} (hI : I state)
    (h : E.executeAll statements state = .ok after) : I after := by
  induction statements generalizing state with
  | nil =>
      obtain rfl : state = after := by simpa [executeAll] using h
      exact hI
  | cons statement rest ih =>
      rw [executeAll] at h
      split at h
      next => cases h
      next hok => exact ih (hstep hI hok) h

namespace Program

/-! ## Running alone -/

/-- A program that runs alone. -/
def run (E : Engine σ S ε) : Program σ S ε α → σ → Except ε (α × σ)
  | .done value, state => .ok (value, state)
  | .fail error, _ => .error error
  | .lock select next, state => (next (select state)).run E state
  | .query select next, state => (next (select state)).run E state
  | .write statement next, state =>
      match E.execute statement state with
      | .error error => .error error
      | .ok after => next.run E after

/-- The write statements that a program sends when it runs alone, up to the
first that is refused. -/
def emitted (E : Engine σ S ε) : Program σ S ε α → σ → List S
  | .done _, _ => []
  | .fail _, _ => []
  | .lock select next, state => (next (select state)).emitted E state
  | .query select next, state => (next (select state)).emitted E state
  | .write statement next, state =>
      statement ::
        match E.execute statement state with
        | .error _ => []
        | .ok after => next.emitted E after

variable (E : Engine σ S ε)

@[simp] theorem run_read (select : σ → α) (state : σ) :
    (read select : Program σ S ε α).run E state =
      .ok (select state, state) := rfl

@[simp] theorem run_locked (select : σ → α) (state : σ) :
    (locked select : Program σ S ε α).run E state =
      .ok (select state, state) := rfl

theorem run_bind (p : Program σ S ε α) (f : α → Program σ S ε β)
    (state : σ) :
    (p >>= f).run E state =
      match p.run E state with
      | .error error => .error error
      | .ok (value, after) => (f value).run E after := by
  change (p.bind f).run E state = _
  induction p generalizing state with
  | done value => rfl
  | fail error => rfl
  | lock select next ih => exact ih _ state
  | query select next ih => exact ih _ state
  | write statement next ih =>
      simp only [Program.bind, run]
      cases E.execute statement state with
      | error error => rfl
      | ok after => exact ih after

/-- A composed program succeeds when both parts do, one after the other. -/
theorem run_bind_eq_ok {p : Program σ S ε α} {f : α → Program σ S ε β}
    {state after : σ} {value : β} :
    (p >>= f).run E state = .ok (value, after) ↔
      ∃ middle mid, p.run E state = .ok (middle, mid) ∧
        (f middle).run E mid = .ok (value, after) := by
  rw [run_bind]
  cases h : p.run E state with
  | error error => simp
  | ok result =>
      obtain ⟨middle, mid⟩ := result
      constructor
      · intro hrest
        exact ⟨middle, mid, rfl, hrest⟩
      · rintro ⟨_, _, heq, hrest⟩
        cases heq
        exact hrest

/-- A run that succeeds executes the statements it sends. -/
theorem executeAll_emitted {p : Program σ S ε α} {state after : σ}
    {value : α} (h : p.run E state = .ok (value, after)) :
    E.executeAll (p.emitted E state) state = .ok after := by
  induction p generalizing state with
  | done value' =>
      obtain ⟨-, rfl⟩ : value' = value ∧ state = after := by
        simpa [run] using h
      rfl
  | fail error => simp [run] at h
  | lock select next ih => exact ih _ h
  | query select next ih => exact ih _ h
  | write statement next ih =>
      simp only [run] at h
      simp only [emitted, Engine.executeAll]
      cases hstep : E.execute statement state with
      | error error => simp [hstep] at h
      | ok middle =>
          simp only [hstep] at h ⊢
          exact ih h

/-- When a statement that a program sends is refused, the program fails with
that refusal. -/
theorem run_of_emitted_error {p : Program σ S ε α} {state : σ} {error : ε}
    (h : E.executeAll (p.emitted E state) state = .error error) :
    p.run E state = .error error := by
  induction p generalizing state with
  | done value => simp [emitted, Engine.executeAll] at h
  | fail other => simp [emitted, Engine.executeAll] at h
  | lock select next ih => exact ih _ h
  | query select next ih => exact ih _ h
  | write statement next ih =>
      simp only [emitted, Engine.executeAll] at h
      simp only [run]
      cases hstep : E.execute statement state with
      | error other => simpa [hstep] using h
      | ok middle =>
          simp only [hstep] at h ⊢
          exact ih h

/-- What every statement preserves, a program preserves. -/
theorem run_invariant {I : σ → Prop}
    (hstep : ∀ {s : S} {state after : σ}, I state →
      E.execute s state = .ok after → I after)
    {p : Program σ S ε α} {state after : σ} {value : α} (hI : I state)
    (h : p.run E state = .ok (value, after)) : I after :=
  E.executeAll_invariant hstep hI (executeAll_emitted E h)

/-! ## Postconditions -/

/-- A program that runs alone ends in `Q`, or with an error of `allowed`. -/
def Ensures (allowed : ε → Prop) (p : Program σ S ε α) (state : σ)
    (Q : α → σ → Prop) : Prop :=
  match p.run E state with
  | .error error => allowed error
  | .ok (value, after) => Q value after

variable {E} {allowed : ε → Prop}

theorem ensures_of_run {p : Program σ S ε α} {state after : σ} {value : α}
    {Q : α → σ → Prop} (h : p.Ensures E allowed state Q)
    (hrun : p.run E state = .ok (value, after)) : Q value after := by
  unfold Ensures at h
  rwa [hrun] at h

theorem Ensures.weaken {p : Program σ S ε α} {state : σ}
    {Q R : α → σ → Prop} (h : p.Ensures E allowed state Q)
    (hQR : ∀ value after, Q value after → R value after) :
    p.Ensures E allowed state R := by
  unfold Ensures at h ⊢
  split
  next error hrun => rwa [hrun] at h
  next value after hrun =>
    rw [hrun] at h
    exact hQR value after h

@[simp] theorem ensures_fail {error : ε} {state : σ} {Q : α → σ → Prop} :
    (fail error : Program σ S ε α).Ensures E allowed state Q ↔
      allowed error := Iff.rfl

@[simp] theorem ensures_read {select : σ → α} {state : σ}
    {Q : α → σ → Prop} :
    (read select : Program σ S ε α).Ensures E allowed state Q ↔
      Q (select state) state := Iff.rfl

@[simp] theorem ensures_locked {select : σ → α} {state : σ}
    {Q : α → σ → Prop} :
    (locked select : Program σ S ε α).Ensures E allowed state Q ↔
      Q (select state) state := Iff.rfl

theorem ensures_send {statement : S} {state : σ} {Q : Unit → σ → Prop} :
    (send statement : Program σ S ε Unit).Ensures E allowed state Q ↔
      match E.execute statement state with
      | .error error => allowed error
      | .ok after => Q () after := by
  simp only [Ensures, send, run]
  cases E.execute statement state <;> rfl

theorem ensures_require {error? : Option ε} {state : σ}
    {Q : Unit → σ → Prop} :
    (require error? : Program σ S ε Unit).Ensures E allowed state Q ↔
      match error? with
      | none => Q () state
      | some error => allowed error := by
  cases error? <;> rfl

/-- The rule of composition. -/
@[simp] theorem ensures_bind {p : Program σ S ε α}
    {f : α → Program σ S ε β} {state : σ} {Q : β → σ → Prop} :
    (p >>= f).Ensures E allowed state Q ↔
      p.Ensures E allowed state fun value after =>
        (f value).Ensures E allowed after Q := by
  simp only [Ensures, run_bind]
  cases p.run E state with
  | error error => rfl
  | ok result => rfl

/-! ## Errors -/

/-- Every error that the program itself raises is allowed. -/
def Raises (allowed : ε → Prop) : Program σ S ε α → Prop
  | .done _ => True
  | .fail error => allowed error
  | .lock _ next => ∀ value, (next value).Raises allowed
  | .query _ next => ∀ value, (next value).Raises allowed
  | .write _ next => next.Raises allowed

theorem Raises.bind {p : Program σ S ε α} {f : α → Program σ S ε β}
    (hp : p.Raises allowed) (hf : ∀ value, (f value).Raises allowed) :
    (p >>= f).Raises allowed := by
  change (p.bind f).Raises allowed
  induction p with
  | done value => exact hf value
  | fail error => exact hp
  | lock select next ih => exact fun value => ih value (hp value)
  | query select next ih => exact fun value => ih value (hp value)
  | write statement next ih => exact ih hp

@[simp] theorem raises_pure {value : α} :
    (pure value : Program σ S ε α).Raises allowed := trivial

@[simp] theorem raises_read {select : σ → α} :
    (read select : Program σ S ε α).Raises allowed := fun _ => trivial

@[simp] theorem raises_send {statement : S} :
    (send statement : Program σ S ε Unit).Raises allowed := trivial

theorem raises_require {error? : Option ε}
    (h : ∀ error, error? = some error → allowed error) :
    (require error? : Program σ S ε Unit).Raises allowed := by
  cases error? with
  | none => trivial
  | some error => exact h error rfl

/-- A program fails with an error that it raises itself, or with a refusal of
the store. -/
theorem Raises.run_error
    (hexecute : ∀ {s : S} {state : σ} {error : ε},
      E.execute s state = .error error → allowed error)
    {p : Program σ S ε α} (h : p.Raises allowed) {state : σ} {error : ε}
    (hrun : p.run E state = .error error) : allowed error := by
  induction p generalizing state with
  | done value => cases hrun
  | fail other =>
      obtain rfl : other = error := by simpa [run] using hrun
      exact h
  | lock select next ih => exact ih _ (h _) hrun
  | query select next ih => exact ih _ (h _) hrun
  | write statement next ih =>
      simp only [run] at hrun
      split at hrun
      next hrefused =>
        obtain rfl := Except.error.inj hrun
        exact hexecute hrefused
      next => exact ih h hrun

/-- A postcondition holds with other allowed errors, when those are all that
the program raises. -/
theorem Raises.ensures
    (hexecute : ∀ {s : S} {state : σ} {error : ε},
      E.execute s state = .error error → allowed error)
    {p : Program σ S ε α} (h : p.Raises allowed) {other : ε → Prop}
    {state : σ} {Q : α → σ → Prop} (hQ : p.Ensures E other state Q) :
    p.Ensures E allowed state Q := by
  unfold Ensures at hQ ⊢
  split
  next error hrun => exact h.run_error hexecute hrun
  next value after hrun => rwa [hrun] at hQ

/-- Whatever it does, a program ends with an error that it may raise. -/
theorem Raises.ensures_true
    (hexecute : ∀ {s : S} {state : σ} {error : ε},
      E.execute s state = .error error → allowed error)
    {p : Program σ S ε α} (h : p.Raises allowed) (state : σ) :
    p.Ensures E allowed state fun _ _ => True := by
  unfold Ensures
  split
  next error hrun => exact h.run_error hexecute hrun
  next => trivial

/-- Before an error of `early`, the program sends no statement. -/
def FailsEarly (E : Engine σ S ε) (early : ε → Prop) (p : Program σ S ε α)
    (state : σ) : Prop :=
  ∀ error, p.run E state = .error error → early error →
    p.emitted E state = []

variable {early : ε → Prop} {state : σ}

@[simp] theorem failsEarly_fail {error : ε} :
    (fail error : Program σ S ε α).FailsEarly E early state :=
  fun _ _ _ => rfl

@[simp] theorem failsEarly_locked_bind {select : σ → β}
    {f : β → Program σ S ε α} :
    (locked select >>= f).FailsEarly E early state ↔
      (f (select state)).FailsEarly E early state := Iff.rfl

@[simp] theorem failsEarly_read_bind {select : σ → β}
    {f : β → Program σ S ε α} :
    (read select >>= f).FailsEarly E early state ↔
      (f (select state)).FailsEarly E early state := Iff.rfl

/-- When a program never returns, what follows it sends nothing. -/
theorem FailsEarly.bind {p : Program σ S ε α} {f : α → Program σ S ε β}
    (h : p.FailsEarly E early state)
    (hfails : p.Ensures E (fun _ => True) state fun _ _ => False) :
    (p >>= f).FailsEarly E early state := by
  intro error hrun hearly
  cases hp : p.run E state with
  | ok result =>
      unfold Ensures at hfails
      rw [hp] at hfails
      exact hfails.elim
  | error other =>
      rw [run_bind, hp] at hrun
      obtain rfl : other = error := Except.error.inj hrun
      have hnone := h other hp hearly
      clear h hrun hearly hfails
      change (p.bind f).emitted E state = []
      induction p generalizing state with
      | done value => cases hp
      | fail raised => rfl
      | lock select next ih => exact ih _ hp hnone
      | query select next ih => exact ih _ hp hnone
      | write statement next ih => cases hnone

/-- A program that raises no error of `early` fails early for want of one. -/
theorem Ensures.failsEarly {p : Program σ S ε α} {Q : α → σ → Prop}
    (h : p.Ensures E (fun error => ¬early error) state Q) :
    p.FailsEarly E early state := by
  intro error hrun hearly
  unfold Ensures at h
  rw [hrun] at h
  exact absurd hearly h

end Program

end Transactions
