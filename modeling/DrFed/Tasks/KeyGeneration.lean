import Mathlib.Data.Int.Notation
import Mathlib.Data.Nat.Notation

/-!
# The key generation queue

The bounded in-memory queue that feeds key prewarming, with its one listener
and the signal that stops it.  A step is a stretch of code between two awaits:
a call of `enqueueMany`, the call of `listen`, the abort of the signal, the
listener that resumes, and the end of a handler.
-/

namespace DrFed.Tasks

variable {μ : Type}

/-! ## The queue -/

/-- A promise, by the number under which `Promise.withResolvers` made it. -/
abbrev PromiseId := ℕ

structure KeyGenerationQueue (μ : Type) where
  capacity : ℕ
  messages : List μ
  /-- The promise that the stored function resolves. -/
  wake : Option PromiseId
  closed : Bool
  listening : Bool
  dropped : ℕ

/-- The signal that `listen` was given, if any. -/
structure AbortSignal where
  aborted : Bool
  /-- The promises that the registered listeners resolve. -/
  listeners : List PromiseId

/-- The await at which `listen` stands. -/
inductive Listener (μ : Type) where
  | idle
  | parked (promise : PromiseId)
  | handling (message : μ)
  | returned

/-- What has become of the messages of the calls so far. -/
inductive Entry (μ : Type) where
  | accepted (messages : List μ)
  | refused (messages : List μ)
  | handled (message : μ)
  /-- Messages that are still queued when the listener returns. -/
  | left (messages : List μ)

structure State (μ : Type) where
  queue : KeyGenerationQueue μ
  signal : Option AbortSignal
  listener : Listener μ
  /-- The number of the next promise. -/
  fresh : PromiseId
  resolved : List PromiseId
  history : List (Entry μ)

def Entry.acceptedMessages : Entry μ → List μ
  | .accepted messages => messages
  | _ => []

def Entry.refusedMessages : Entry μ → List μ
  | .refused messages => messages
  | _ => []

def Entry.handledMessages : Entry μ → List μ
  | .handled message => [message]
  | _ => []

def Entry.leftMessages : Entry μ → List μ
  | .left messages => messages
  | _ => []

def Listener.inFlight : Listener μ → List μ
  | .handling message => [message]
  | _ => []

namespace State

/-- The accepted messages, in the order of their acceptance. -/
def accepted (s : State μ) : List μ := s.history.flatMap Entry.acceptedMessages

def refused (s : State μ) : List μ := s.history.flatMap Entry.refusedMessages

/-- The messages whose handler has ended, in order. -/
def handled (s : State μ) : List μ := s.history.flatMap Entry.handledMessages

def left (s : State μ) : List μ := s.history.flatMap Entry.leftMessages

def record (s : State μ) (entry : Entry μ) : State μ :=
  { s with history := s.history ++ [entry] }

def isAborted (s : State μ) : Bool :=
  s.signal.any AbortSignal.aborted

/-! ## Steps -/

def enqueueMany (s : State μ) (messages : List μ) : State μ :=
  let queue := s.queue
  if queue.closed ∨ queue.messages.length + messages.length > queue.capacity then
    { s.record (.refused messages) with
      queue := { queue with dropped := queue.dropped + messages.length } }
  else
    { s.record (.accepted messages) with
      queue := { queue with messages := queue.messages ++ messages }
      resolved := queue.wake.toList ++ s.resolved }

/-- The `finally` block of `listen`. -/
def finish (s : State μ) : State μ :=
  { s.record (.left s.queue.messages) with
    listener := .returned
    queue := { s.queue with
      closed := true
      dropped := s.queue.dropped + s.queue.messages.length
      messages := []
      wake := none } }

/-- Wait for a wake-up from `enqueueMany` or from the signal. -/
def park (s : State μ) : State μ :=
  { s with
    queue := { s.queue with wake := some s.fresh }
    signal := s.signal.map fun signal =>
      { signal with listeners := s.fresh :: signal.listeners }
    listener := .parked s.fresh
    fresh := s.fresh + 1 }

/-- The loop of `listen`, up to its next await. -/
def loop (s : State μ) : State μ :=
  if s.isAborted then s.finish
  else
    match s.queue.messages with
    | [] => s.park
    | message :: rest =>
        { s with
          queue := { s.queue with messages := rest }
          listener := .handling message }

def listen (s : State μ) : Option (State μ) :=
  if s.queue.listening ∨ s.queue.closed then none
  else
    let listening : State μ :=
      { s with queue := { s.queue with listening := true } }
    some listening.loop

/-- The signal calls its listeners, each of them once. -/
def abort (s : State μ) : State μ :=
  match s.signal with
  | none => s
  | some signal =>
      if signal.aborted then s
      else
        { s with
          signal := some { aborted := true, listeners := [] }
          resolved := signal.listeners ++ s.resolved }

/-- The `finally` block of the await, and the loop from there. -/
def resume (s : State μ) : State μ :=
  let woken : State μ :=
    { s with
      signal := s.signal.map fun signal =>
        { signal with
          listeners := signal.listeners.filter fun promise =>
            s.queue.wake ≠ some promise }
      queue := { s.queue with wake := none } }
  woken.loop

end State

/-- What can happen next.  A duration has a sign; calls of a handler are calls
like any other. -/
inductive Action (μ : Type) where
  | enqueue (message : μ) (delay : Option ℤ)
  | enqueueMany (messages : List μ) (delay : Option ℤ)
  | listen
  | abort
  | resume
  /-- The handler returns, or it throws and the error is logged. -/
  | complete

/-- A delayed message is rejected before anything is counted. -/
def enqueueManyWith (s : State μ) (messages : List μ) (delay : Option ℤ) :
    State μ :=
  if delay.any fun sign => sign ≠ 0 then s else s.enqueueMany messages

def step (s : State μ) : Action μ → Option (State μ)
  | .enqueue message delay => some (enqueueManyWith s [message] delay)
  | .enqueueMany messages delay => some (enqueueManyWith s messages delay)
  | .listen => s.listen
  | .abort => some s.abort
  | .resume =>
      match s.listener with
      | .parked promise =>
          if promise ∈ s.resolved then some s.resume else none
      | _ => none
  | .complete =>
      match s.listener with
      | .handling message => some ((s.record (.handled message)).loop)
      | _ => none

/-- A new queue, and whether the signal that `listen` will be given, if any,
is aborted already. -/
def start (capacity : ℕ) (aborted : Option Bool) : State μ where
  queue :=
    { capacity
      messages := []
      wake := none
      closed := false
      listening := false
      dropped := 0 }
  signal := aborted.map fun aborted => { aborted, listeners := [] }
  listener := .idle
  fresh := 0
  resolved := []
  history := []

/-- The states of a queue, in any order of the steps. -/
inductive Reachable (capacity : ℕ) (aborted : Option Bool) : State μ → Prop
  | start (hcapacity : 1 ≤ capacity) :
      Reachable capacity aborted (start capacity aborted)
  | step {s after : State μ} (action : Action μ)
      (hreach : Reachable capacity aborted s)
      (hstep : step s action = some after) : Reachable capacity aborted after

/-! ## What is kept -/

section Kept

variable {capacity : ℕ} {s : State μ}

@[simp] theorem accepted_record (s : State μ) (entry : Entry μ) :
    (s.record entry).accepted = s.accepted ++ entry.acceptedMessages := by
  simp [State.accepted, State.record]

@[simp] theorem refused_record (s : State μ) (entry : Entry μ) :
    (s.record entry).refused = s.refused ++ entry.refusedMessages := by
  simp [State.refused, State.record]

@[simp] theorem handled_record (s : State μ) (entry : Entry μ) :
    (s.record entry).handled = s.handled ++ entry.handledMessages := by
  simp [State.handled, State.record]

@[simp] theorem left_record (s : State μ) (entry : Entry μ) :
    (s.record entry).left = s.left ++ entry.leftMessages := by
  simp [State.left, State.record]

/-- Every accepted message is in one place, and every other one is counted. -/
structure Accounted (capacity : ℕ) (s : State μ) : Prop where
  order : s.accepted =
    s.handled ++ s.listener.inFlight ++ s.queue.messages ++ s.left
  dropped : s.queue.dropped = s.refused.length + s.left.length
  capacity_eq : s.queue.capacity = capacity
  fits : s.queue.messages.length ≤ capacity

/-- A message or an abort that the parked listener has not seen has resolved
its promise. -/
structure Woken (s : State μ) (promise : PromiseId) : Prop where
  wake : s.queue.wake = some promise
  registered : ∀ signal, s.signal = some signal → signal.aborted = false →
    promise ∈ signal.listeners
  pending : s.queue.messages ≠ [] ∨ s.isAborted = true →
    promise ∈ s.resolved

structure Invariant (capacity : ℕ) (s : State μ) : Prop where
  accounted : Accounted capacity s
  closed : s.queue.closed = true ↔ s.listener = .returned
  emptied : s.queue.closed = true → s.queue.messages = []
  kept : s.queue.closed = false → s.left = []
  idle : s.queue.listening = false → s.listener = .idle
  parked : ∀ promise, s.listener = .parked promise → Woken s promise

/-- The listener between two awaits, with no message in its hands. -/
structure AtLoop (capacity : ℕ) (s : State μ) : Prop where
  order : s.accepted = s.handled ++ s.queue.messages
  dropped : s.queue.dropped = s.refused.length
  capacity_eq : s.queue.capacity = capacity
  fits : s.queue.messages.length ≤ capacity
  opened : s.queue.closed = false
  kept : s.left = []
  listening : s.queue.listening = true

/-- The invariant while the listener runs. -/
theorem Invariant.of_open (haccounted : Accounted capacity s)
    (hopened : s.queue.closed = false) (hkept : s.left = [])
    (hlistening : s.queue.listening = true) (hlistener : s.listener ≠ .returned)
    (hparked : ∀ promise, s.listener = .parked promise → Woken s promise) :
    Invariant capacity s where
  accounted := haccounted
  closed := by
    rw [hopened]
    exact iff_of_false Bool.false_ne_true hlistener
  emptied hclosed := absurd (hopened.symm.trans hclosed) Bool.false_ne_true
  kept _ := hkept
  idle hidle := absurd (hidle.symm.trans hlistening) Bool.false_ne_true
  parked := hparked

theorem AtLoop.finish (h : AtLoop capacity s) :
    Invariant capacity s.finish where
  accounted := by
    refine ⟨?_, ?_, h.capacity_eq, Nat.zero_le _⟩
    · change (s.record (.left s.queue.messages)).accepted =
        (s.record (.left s.queue.messages)).handled ++ [] ++ [] ++
          (s.record (.left s.queue.messages)).left
      simp [Entry.acceptedMessages, Entry.handledMessages, Entry.leftMessages,
        h.order, h.kept]
    · change s.queue.dropped + s.queue.messages.length =
        (s.record (.left s.queue.messages)).refused.length +
          (s.record (.left s.queue.messages)).left.length
      simp [Entry.refusedMessages, Entry.leftMessages, h.dropped, h.kept]
  closed := iff_of_true rfl rfl
  emptied _ := rfl
  kept hopened := absurd hopened.symm Bool.false_ne_true
  idle hidle := absurd (hidle.symm.trans h.listening) Bool.false_ne_true
  parked promise hparked := by cases hparked

theorem AtLoop.park (h : AtLoop capacity s) (hempty : s.queue.messages = [])
    (habort : s.isAborted = false) : Invariant capacity s.park := by
  refine Invariant.of_open ?_ h.opened h.kept h.listening ?_ ?_
  rotate_left
  · intro hreturned
    cases hreturned
  · intro promise hparked
    obtain rfl : s.fresh = promise := Listener.parked.inj hparked
    constructor
    · rfl
    · intro signal hsignal _
      obtain ⟨before, -, rfl⟩ := Option.map_eq_some_iff.mp hsignal
      exact List.mem_cons_self
    · -- Nothing was queued and nothing was aborted when the listener parked.
      rintro (hmessages | haborted)
      · exact absurd hempty hmessages
      · have hsame : s.park.isAborted = s.isAborted := by
          cases hsignal : s.signal <;> simp [State.park, State.isAborted, hsignal]
        rw [hsame, habort] at haborted
        cases haborted
  · refine ⟨?_, ?_, h.capacity_eq, h.fits⟩
    · change s.accepted = s.handled ++ [] ++ s.queue.messages ++ s.left
      rw [h.order, h.kept, List.append_nil, List.append_nil]
    · change s.queue.dropped = s.refused.length + s.left.length
      rw [h.dropped, h.kept, List.length_nil, Nat.add_zero]

theorem AtLoop.loop (h : AtLoop capacity s) : Invariant capacity s.loop := by
  unfold State.loop
  split
  next => exact h.finish
  next habort =>
    rw [Bool.not_eq_true] at habort
    split
    next hempty => exact h.park hempty habort
    next message rest hmessages =>
      refine Invariant.of_open ?_ h.opened h.kept h.listening ?_ ?_
      rotate_left
      · intro hreturned
        cases hreturned
      · intro promise hparked
        cases hparked
      · refine ⟨?_, ?_, h.capacity_eq, ?_⟩
        · change s.accepted = s.handled ++ [message] ++ rest ++ s.left
          rw [h.order, h.kept, hmessages]
          simp
        · change s.queue.dropped = s.refused.length + s.left.length
          rw [h.dropped, h.kept, List.length_nil, Nat.add_zero]
        · have hfits := h.fits
          rw [hmessages, List.length_cons] at hfits
          exact Nat.le_of_succ_le hfits

/-! ## Each step -/

theorem Invariant.opened (h : Invariant capacity s)
    (hlistener : s.listener ≠ .returned) : s.queue.closed = false :=
  Bool.eq_false_iff.mpr fun hclosed => hlistener (h.closed.mp hclosed)

theorem Invariant.listening (h : Invariant capacity s)
    (hlistener : s.listener ≠ .idle) : s.queue.listening = true :=
  Bool.of_not_eq_false fun hidle => hlistener (h.idle hidle)

/-- A listener that goes on has nothing left behind. -/
theorem Invariant.resting (h : Invariant capacity s)
    (hlistener : s.listener ≠ .returned) :
    s.left = [] ∧ s.queue.dropped = s.refused.length := by
  have hleft := h.kept (h.opened hlistener)
  refine ⟨hleft, ?_⟩
  rw [h.accounted.dropped, hleft, List.length_nil, Nat.add_zero]

theorem Invariant.refuse (h : Invariant capacity s) (messages : List μ) :
    Invariant capacity { s.record (.refused messages) with
      queue := { s.queue with
        dropped := s.queue.dropped + messages.length } } where
  accounted := by
    refine ⟨?_, ?_, h.accounted.capacity_eq, h.accounted.fits⟩
    · change (s.record (.refused messages)).accepted =
        (s.record (.refused messages)).handled ++ s.listener.inFlight ++
          s.queue.messages ++ (s.record (.refused messages)).left
      simp [Entry.acceptedMessages, Entry.handledMessages, Entry.leftMessages,
        h.accounted.order]
    · change s.queue.dropped + messages.length =
        (s.record (.refused messages)).refused.length +
          (s.record (.refused messages)).left.length
      simp only [refused_record, left_record, Entry.refusedMessages,
        Entry.leftMessages, List.length_append, List.length_nil,
        h.accounted.dropped]
      omega
  closed := h.closed
  emptied := h.emptied
  kept hopened := by
    change (s.record (.refused messages)).left = []
    rw [left_record, h.kept hopened]
    rfl
  idle := h.idle
  parked promise hparked := by
    obtain ⟨hwake, hregistered, hpending⟩ := h.parked promise hparked
    exact ⟨hwake, hregistered, hpending⟩

theorem Invariant.accept (h : Invariant capacity s) {messages : List μ}
    (hopened : s.queue.closed = false)
    (hfits : s.queue.messages.length + messages.length ≤ s.queue.capacity) :
    Invariant capacity { s.record (.accepted messages) with
      queue := { s.queue with messages := s.queue.messages ++ messages }
      resolved := s.queue.wake.toList ++ s.resolved } where
  accounted := by
    refine ⟨?_, ?_, h.accounted.capacity_eq, ?_⟩
    · change (s.record (.accepted messages)).accepted =
        (s.record (.accepted messages)).handled ++ s.listener.inFlight ++
          (s.queue.messages ++ messages) ++ (s.record (.accepted messages)).left
      simp [Entry.acceptedMessages, Entry.handledMessages, Entry.leftMessages,
        h.accounted.order, h.kept hopened]
    · change s.queue.dropped = (s.record (.accepted messages)).refused.length +
        (s.record (.accepted messages)).left.length
      simp [Entry.refusedMessages, Entry.leftMessages, h.accounted.dropped]
    · change (s.queue.messages ++ messages).length ≤ capacity
      rw [List.length_append, ← h.accounted.capacity_eq]
      exact hfits
  closed := h.closed
  emptied hclosed := absurd (hopened.symm.trans hclosed) Bool.false_ne_true
  kept _ := by
    change (s.record (.accepted messages)).left = []
    rw [left_record, h.kept hopened]
    rfl
  idle := h.idle
  parked promise hparked := by
    obtain ⟨hwake, hregistered, -⟩ := h.parked promise hparked
    refine ⟨hwake, hregistered, fun _ => ?_⟩
    change promise ∈ s.queue.wake.toList ++ s.resolved
    rw [hwake]
    exact List.mem_cons_self

theorem Invariant.enqueueMany (h : Invariant capacity s)
    (messages : List μ) : Invariant capacity (s.enqueueMany messages) := by
  unfold State.enqueueMany
  dsimp only
  split
  next => exact h.refuse messages
  next hroom =>
    rw [not_or, Bool.not_eq_true, Nat.not_lt] at hroom
    exact h.accept hroom.1 hroom.2

theorem Invariant.enqueueManyWith (h : Invariant capacity s)
    (messages : List μ) (delay : Option ℤ) :
    Invariant capacity (enqueueManyWith s messages delay) := by
  unfold Tasks.enqueueManyWith
  split
  next => exact h
  next => exact h.enqueueMany messages

theorem Invariant.abort (h : Invariant capacity s) :
    Invariant capacity s.abort := by
  unfold State.abort
  split
  next => exact h
  next signal hsignal =>
    split
    next => exact h
    next habort =>
      refine ⟨⟨h.accounted.order, h.accounted.dropped, h.accounted.capacity_eq,
        h.accounted.fits⟩, h.closed, h.emptied, h.kept, h.idle, ?_⟩
      intro promise hparked
      obtain ⟨hwake, hregistered, -⟩ := h.parked promise hparked
      rw [Bool.not_eq_true] at habort
      refine ⟨hwake, ?_, fun _ => ?_⟩
      · intro other hother hopen
        obtain rfl := Option.some.inj hother
        cases hopen
      · exact List.mem_append_left _ (hregistered signal hsignal habort)

theorem Invariant.listen (h : Invariant capacity s) {after : State μ}
    (hlisten : s.listen = some after) : Invariant capacity after := by
  unfold State.listen at hlisten
  split at hlisten
  next => cases hlisten
  next hfree =>
    obtain rfl := Option.some.inj hlisten
    rw [not_or, Bool.not_eq_true, Bool.not_eq_true] at hfree
    obtain ⟨hidle, hopened⟩ := hfree
    have hlistener := h.idle hidle
    obtain ⟨hleft, hdropped⟩ := h.resting (by simp [hlistener])
    have horder : s.accepted = s.handled ++ s.queue.messages := by
      simpa [hlistener, hleft, Listener.inFlight] using h.accounted.order
    exact AtLoop.loop ⟨horder, hdropped, h.accounted.capacity_eq,
      h.accounted.fits, hopened, hleft, rfl⟩

theorem Invariant.resume (h : Invariant capacity s) {promise : PromiseId}
    (hparked : s.listener = .parked promise) :
    Invariant capacity s.resume := by
  have hreturned : s.listener ≠ .returned := by simp [hparked]
  obtain ⟨hleft, hdropped⟩ := h.resting hreturned
  have horder : s.accepted = s.handled ++ s.queue.messages := by
    simpa [hparked, hleft, Listener.inFlight] using h.accounted.order
  exact AtLoop.loop ⟨horder, hdropped, h.accounted.capacity_eq,
    h.accounted.fits, h.opened hreturned, hleft,
    h.listening (by simp [hparked])⟩

theorem Invariant.complete (h : Invariant capacity s) {message : μ}
    (hhandling : s.listener = .handling message) :
    Invariant capacity (s.record (.handled message)).loop := by
  have hreturned : s.listener ≠ .returned := by simp [hhandling]
  obtain ⟨hleft, hdropped⟩ := h.resting hreturned
  apply AtLoop.loop
  refine ⟨?_, ?_, h.accounted.capacity_eq, h.accounted.fits,
    h.opened hreturned, ?_, h.listening (by simp [hhandling])⟩
  · have horder := h.accounted.order
    rw [hhandling, hleft] at horder
    rw [accepted_record, handled_record, horder]
    simp [Entry.acceptedMessages, Entry.handledMessages, Listener.inFlight,
      State.record]
  · change s.queue.dropped = (s.record (.handled message)).refused.length
    simp [Entry.refusedMessages, hdropped]
  · simp [Entry.leftMessages, hleft]

theorem step_invariant (h : Invariant capacity s) {action : Action μ}
    {after : State μ} (hstep : step s action = some after) :
    Invariant capacity after := by
  cases action with
  | enqueue message delay =>
      obtain rfl := Option.some.inj hstep
      exact h.enqueueManyWith [message] delay
  | enqueueMany messages delay =>
      obtain rfl := Option.some.inj hstep
      exact h.enqueueManyWith messages delay
  | listen => exact h.listen hstep
  | abort =>
      obtain rfl := Option.some.inj hstep
      exact h.abort
  | resume =>
      simp only [step] at hstep
      split at hstep
      next promise hparked =>
        split at hstep
        next =>
          obtain rfl := Option.some.inj hstep
          exact h.resume hparked
        next => cases hstep
      next => cases hstep
  | complete =>
      simp only [step] at hstep
      split at hstep
      next message hhandling =>
        obtain rfl := Option.some.inj hstep
        exact h.complete hhandling
      next => cases hstep

theorem start_invariant (capacity : ℕ) (aborted : Option Bool) :
    Invariant capacity (start capacity aborted : State μ) where
  accounted := ⟨rfl, rfl, rfl, Nat.zero_le _⟩
  closed := by
    apply iff_of_false
    · exact Bool.false_ne_true
    · intro hreturned
      cases hreturned
  emptied _ := rfl
  kept _ := rfl
  idle _ := rfl
  parked promise hparked := by cases hparked

theorem Reachable.invariant {aborted : Option Bool}
    (h : Reachable capacity aborted s) : Invariant capacity s := by
  induction h with
  | start => exact start_invariant capacity aborted
  | step action _ hstep ih => exact step_invariant ih hstep

end Kept

/-! ## No message is lost or repeated -/

/-- A batch is queued whole, or refused whole because the queue is closed or
would be too full. -/
inductive TakesWhole (s after : State μ) (messages : List μ) : Prop
  | accepted (hroom : s.queue.closed = false ∧
        s.queue.messages.length + messages.length ≤ s.queue.capacity)
      (hqueued : after.queue.messages = s.queue.messages ++ messages)
      (haccepted : after.accepted = s.accepted ++ messages)
      (hrefused : after.refused = s.refused)
  | refused (hfull : s.queue.closed = true ∨
        s.queue.capacity < s.queue.messages.length + messages.length)
      (hqueued : after.queue.messages = s.queue.messages)
      (haccepted : after.accepted = s.accepted)
      (hrefused : after.refused = s.refused ++ messages)

/-- The messages and the wake-ups of a queue with a capacity. -/
structure KeepsMessages (capacity : ℕ) (s : State μ) : Prop where
  order : s.accepted =
    s.handled ++ s.listener.inFlight ++ s.queue.messages ++ s.left
  shutdown : s.queue.messages = [] ∨ s.left = []
  /-- What is queued when the listener returns is left, and nothing before. -/
  running : s.listener ≠ .returned → s.queue.closed = false ∧ s.left = []
  returned : s.listener = .returned →
    s.queue.closed = true ∧ s.queue.messages = []
  dropped : s.queue.dropped = s.refused.length + s.left.length
  fits : s.queue.messages.length ≤ capacity
  batch : ∀ messages, TakesWhole s (s.enqueueMany messages) messages
  wake : ∀ promise, s.listener = .parked promise →
    s.queue.messages ≠ [] ∨ s.isAborted = true → promise ∈ s.resolved

theorem enqueueMany_takesWhole (s : State μ) (messages : List μ) :
    TakesWhole s (s.enqueueMany messages) messages := by
  unfold State.enqueueMany
  dsimp only
  split
  next hfull =>
    refine TakesWhole.refused hfull rfl ?_ ?_
    · change (s.record (.refused messages)).accepted = s.accepted
      simp [Entry.acceptedMessages]
    · change (s.record (.refused messages)).refused = s.refused ++ messages
      simp [Entry.refusedMessages]
  next hroom =>
    rw [not_or, Bool.not_eq_true, Nat.not_lt] at hroom
    refine TakesWhole.accepted hroom rfl ?_ ?_
    · change (s.record (.accepted messages)).accepted = s.accepted ++ messages
      simp [Entry.acceptedMessages]
    · change (s.record (.accepted messages)).refused = s.refused
      simp [Entry.refusedMessages]

/-- The queue neither loses nor repeats a message, in any order of the
steps. -/
theorem queue_keepsMessages {capacity : ℕ} {aborted : Option Bool}
    {s : State μ} (h : Reachable capacity aborted s) :
    KeepsMessages capacity s := by
  have hinvariant := h.invariant
  refine ⟨hinvariant.accounted.order, ?_, ?_, ?_, hinvariant.accounted.dropped,
    hinvariant.accounted.fits, enqueueMany_takesWhole s, ?_⟩
  · cases hclosed : s.queue.closed with
    | false => exact .inr (hinvariant.kept hclosed)
    | true => exact .inl (hinvariant.emptied hclosed)
  · intro hrunning
    have hopened := hinvariant.opened hrunning
    exact ⟨hopened, hinvariant.kept hopened⟩
  · intro hreturned
    have hclosed := hinvariant.closed.mpr hreturned
    exact ⟨hclosed, hinvariant.emptied hclosed⟩
  · intro promise hparked
    exact (hinvariant.parked promise hparked).pending

/-- A run in which one message is handled, a second one is queued, a third
one is refused, and the abort ends the listener with the second one left. -/
theorem queue_keepsMessages_shutdown :
    ∃ s : State ℕ, Reachable 1 (some false) s ∧ s.listener = .returned ∧
      s.accepted = [1, 2] ∧ s.handled = [1] ∧ s.left = [2] ∧
      s.refused = [3] ∧ s.queue.dropped = 2 ∧ KeepsMessages 1 s := by
  have hstart : Reachable 1 (some false) (start 1 (some false) : State ℕ) :=
    .start (Nat.le_refl 1)
  have h := ((((((hstart.step .listen rfl).step (.enqueue 1 none) rfl).step
    .resume rfl).step (.enqueue 2 none) rfl).step (.enqueue 3 none) rfl).step
    .abort rfl).step .complete rfl
  exact ⟨_, h, rfl, rfl, rfl, rfl, rfl, rfl, queue_keepsMessages h⟩

end DrFed.Tasks
