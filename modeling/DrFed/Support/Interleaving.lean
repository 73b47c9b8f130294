import Mathlib.Data.Nat.Notation
import Mathlib.Logic.Function.Basic

/-!
# Threads over a shared state

A thread is the list of the commands that it has yet to run.  One command runs
in one step; it may wait, and it may put further commands in front of the
rest.  An interleaving is any order of the steps of the threads.
-/

namespace Interleaving

variable {σ C ι : Type}

/-- What a command of a thread does to the shared state, and which commands
follow it at once: nothing while the command has to wait. -/
structure Machine (σ C ι : Type) where
  run : ι → C → σ → Option (σ × List C)

structure State (σ C ι : Type) where
  shared : σ
  threads : ι → List C

/-- The weight of a list of commands. -/
def totalWeight (weight : C → ℕ) : List C → ℕ
  | [] => 0
  | command :: rest => weight command + totalWeight weight rest

@[simp] theorem totalWeight_nil (weight : C → ℕ) : totalWeight weight [] = 0 :=
  rfl

@[simp] theorem totalWeight_cons (weight : C → ℕ) (command : C)
    (rest : List C) : totalWeight weight (command :: rest) =
      weight command + totalWeight weight rest :=
  rfl

@[simp] theorem totalWeight_append (weight : C → ℕ) (first second : List C) :
    totalWeight weight (first ++ second) =
      totalWeight weight first + totalWeight weight second := by
  induction first with
  | nil => simp
  | cons command rest ih => simp [ih, Nat.add_assoc]

variable [DecidableEq ι]

namespace State

variable (M : Machine σ C ι)

/-- The next command of a thread. -/
def step (s : State σ C ι) (i : ι) : Option (State σ C ι) :=
  match s.threads i with
  | [] => none
  | command :: rest =>
      (M.run i command s.shared).map fun result =>
        { shared := result.1
          threads := Function.update s.threads i (result.2 ++ rest) }

/-- No thread has a command left. -/
def Finished (s : State σ C ι) : Prop :=
  ∀ i, s.threads i = []

/-- Run one thread on its own for a number of steps. -/
def runAlone (i : ι) : ℕ → State σ C ι → State σ C ι
  | 0, s => s
  | fuel + 1, s =>
      match s.step M i with
      | none => s
      | some after => runAlone i fuel after

end State

/-- The states that the threads reach, in any order of their steps. -/
inductive Reachable (M : Machine σ C ι) (start : State σ C ι) :
    State σ C ι → Prop
  | start : Reachable M start start
  | step {s after : State σ C ι} (i : ι) (hreach : Reachable M start s)
      (hstep : s.step M i = some after) : Reachable M start after

variable {M : Machine σ C ι}

/-- A step runs the first command of its thread and leaves the other threads
as they are. -/
theorem State.step_eq_some {s after : State σ C ι} {i : ι}
    (h : s.step M i = some after) :
    ∃ command rest shared more, s.threads i = command :: rest ∧
      M.run i command s.shared = some (shared, more) ∧
      after.shared = shared ∧ after.threads i = more ++ rest ∧
      ∀ j, j ≠ i → after.threads j = s.threads j := by
  unfold State.step at h
  split at h
  next => cases h
  next command rest hthread =>
    obtain ⟨⟨shared, more⟩, hrun, rfl⟩ := Option.map_eq_some_iff.mp h
    exact ⟨command, rest, shared, more, hthread, hrun, rfl,
      Function.update_self i _ _, fun j hj => Function.update_of_ne hj _ _⟩

/-- What every step preserves holds in every state reached. -/
theorem Reachable.invariant {start s : State σ C ι}
    {I : State σ C ι → Prop} (h : Reachable M start s) (hstart : I start)
    (hstep : ∀ {s after : State σ C ι} {i : ι}, I s →
      s.step M i = some after → I after) : I s := by
  induction h with
  | start => exact hstart
  | step i _ hrun ih => exact hstep ih hrun

theorem Reachable.runAlone {start s : State σ C ι} (h : Reachable M start s)
    (i : ι) (fuel : ℕ) : Reachable M start (s.runAlone M i fuel) := by
  induction fuel generalizing s with
  | zero => exact h
  | succ fuel ih =>
      rw [State.runAlone]
      split
      next => exact h
      next after hstep => exact ih (.step i h hstep)

/-! ## One thread on its own -/

namespace State

theorem runAlone_threads {s : State σ C ι} {i j : ι} (hj : j ≠ i)
    (fuel : ℕ) : (s.runAlone M i fuel).threads j = s.threads j := by
  induction fuel generalizing s with
  | zero => rfl
  | succ fuel ih =>
      rw [runAlone]
      split
      next => rfl
      next after hstep =>
        obtain ⟨-, -, -, -, -, -, -, -, hothers⟩ := step_eq_some hstep
        exact ih.trans (hothers j hj)

/-- A thread that never waits comes to its end, when the commands that a
command leads to weigh less than it does. -/
theorem runAlone_done {weight : C → ℕ} {I : State σ C ι → Prop} {i : ι}
    (hweight : ∀ {command : C} {shared after : σ} {more : List C},
      M.run i command shared = some (after, more) →
        totalWeight weight more < weight command)
    (hstep : ∀ {s after : State σ C ι}, I s → s.step M i = some after →
      I after)
    (hruns : ∀ {s : State σ C ι}, I s → ∀ command rest,
      s.threads i = command :: rest → M.run i command s.shared ≠ none)
    {s : State σ C ι} (h : I s) (fuel : ℕ)
    (hfuel : totalWeight weight (s.threads i) ≤ fuel) :
    I (s.runAlone M i fuel) ∧ (s.runAlone M i fuel).threads i = [] := by
  induction fuel generalizing s with
  | zero =>
      refine ⟨h, ?_⟩
      cases hthread : s.threads i with
      | nil => exact hthread
      | cons command rest =>
          obtain ⟨⟨shared, more⟩, hrun⟩ :=
            Option.ne_none_iff_exists'.mp (hruns h command rest hthread)
          have hless := hweight hrun
          rw [hthread, totalWeight_cons] at hfuel
          omega
  | succ fuel ih =>
      rw [runAlone]
      cases hthread : s.threads i with
      | nil => simp [State.step, hthread, h]
      | cons command rest =>
          obtain ⟨⟨shared, more⟩, hrun⟩ :=
            Option.ne_none_iff_exists'.mp (hruns h command rest hthread)
          have hnext : s.step M i = some
              { shared
                threads := Function.update s.threads i (more ++ rest) } := by
            simp [State.step, hthread, hrun]
          have hless := hweight hrun
          rw [hnext]
          apply ih (hstep h hnext)
          rw [hthread, totalWeight_cons] at hfuel
          simp only [Function.update_self, totalWeight_append]
          omega

end State

end Interleaving
