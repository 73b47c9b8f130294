import DrFed.Js.Text
import DrFed.Store.Tables
import DrFed.Support.Versions
import Mathlib.Logic.Function.Basic

/-!
# The instance quota of an account

Concurrent `createInstance` mutations of one account under read committed
isolation.  Each inserts its instance and its membership, counts the
memberships that it sees, and commits or rolls back.  No row of the account is
locked before the count.
-/

namespace DrFed.Instances

open Store (Uuid)
open Versions

/-! ## The mutation -/

/-- The slug and the host that a mutation asks for, and the id that it
draws. -/
structure CreateInstance where
  slug : JsString
  host : JsString
  id : Uuid

/-- How far the transaction of a mutation has come. -/
inductive Phase where
  | idle
  | insertLocalInstance
  | insertInstance
  | insertMember
  | count
  /-- The committed memberships when it counted, and what the count allows. -/
  | counted (seen : List Uuid) (tooManyInstances : Bool)
  | created
  | failed
  deriving DecidableEq

/-- The tables, and where each mutation of the account stands. -/
structure State (ι : Type) where
  /-- The slugs of the local instances. -/
  localInstances : Table JsString ι
  /-- The hosts of the instances. -/
  instances : Table JsString ι
  /-- The instances that the account is a member of. -/
  instanceMembers : Table Uuid ι
  phase : ι → Phase

inductive Action (ι : Type) where
  /-- The next statement of the transaction, its commit included. -/
  | advance (i : ι)
  /-- A statement or the connection fails. -/
  | fail (i : ι)

section Machine

variable {ι : Type} [DecidableEq ι] (calls : ι → CreateInstance)
  (maxInstances : ℕ)

namespace State

def goto (s : State ι) (i : ι) (phase : Phase) : State ι :=
  { s with phase := Function.update s.phase i phase }

def rollBack (s : State ι) (i : ι) : State ι :=
  { s.goto i .failed with
    localInstances := s.localInstances.rollBack i
    instances := s.instances.rollBack i
    instanceMembers := s.instanceMembers.rollBack i }

def commit (s : State ι) (i : ι) : State ι :=
  { s.goto i .created with
    localInstances := s.localInstances.commit i
    instances := s.instances.commit i
    instanceMembers := s.instanceMembers.commit i }

/-- The next statement of mutation `i`.  An insertion waits for an open
transaction that has inserted the same key. -/
def advance (s : State ι) (i : ι) : Phase → Option (State ι)
  | .idle => some (s.goto i .insertLocalInstance)
  | .insertLocalInstance =>
      let slug := (calls i).slug
      if s.localInstances.committed.contains slug then some (s.rollBack i)
      else if s.localInstances.heldByOther i (· == slug) then none
      else some { s.goto i .insertInstance with
        localInstances := s.localInstances.insert i slug }
  | .insertInstance =>
      let host := (calls i).host
      if s.instances.committed.contains host then some (s.rollBack i)
      else if s.instances.heldByOther i (· == host) then none
      else some { s.goto i .insertMember with
        instances := s.instances.insert i host }
  | .insertMember =>
      some { s.goto i .count with
        instanceMembers := s.instanceMembers.insert i (calls i).id }
  | .count =>
      some (s.goto i (.counted s.instanceMembers.committed
        (maxInstances < (s.instanceMembers.visible i).length)))
  | .counted _ tooManyInstances =>
      if tooManyInstances then some (s.rollBack i) else some (s.commit i)
  | .created | .failed => none

def act (s : State ι) : Action ι → Option (State ι)
  | .advance i => s.advance calls maxInstances i (s.phase i)
  | .fail i =>
      if s.phase i = .created ∨ s.phase i = .failed then none
      else some (s.rollBack i)

/-- No mutation was made yet, and the account is a member of some
instances. -/
def start (slugs hosts : List JsString) (members : List Uuid) : State ι where
  localInstances := .ofRows slugs
  instances := .ofRows hosts
  instanceMembers := .ofRows members
  phase _ := .idle

/-- The memberships of the account in the committed state. -/
def memberships (s : State ι) : List Uuid := s.instanceMembers.committed

/-- No membership was committed since the mutation counted. -/
def Undisturbed (s : State ι) (i : ι) : Prop :=
  ∀ seen tooManyInstances, s.phase i = .counted seen tooManyInstances →
    seen = s.memberships

end State

/-- Some actions, in any order. -/
inductive Run (start : State ι) : State ι → Prop
  | refl : Run start start
  | tail {s s' : State ι} (action : Action ι) (h : Run start s)
      (hact : s.act calls maxInstances action = some s') : Run start s'

/-- A run in which no membership is committed between the count of a mutation
and its commit. -/
inductive UndisturbedRun (start : State ι) : State ι → Prop
  | refl : UndisturbedRun start start
  | tail {s s' : State ι} (action : Action ι) (h : UndisturbedRun start s)
      (hundisturbed : ∀ i, action = .advance i → s.Undisturbed i)
      (hact : s.act calls maxInstances action = some s') :
      UndisturbedRun start s'

end Machine

/-! ## The quota -/

section Quota

variable {ι : Type} [DecidableEq ι] {calls : ι → CreateInstance}
  {maxInstances : ℕ} {s s' : State ι} {i : ι}

/-- The quota holds, and the memberships that a mutation counted are those
that were committed then and its own. -/
structure State.Sound (maxInstances : ℕ) (s : State ι) : Prop where
  bounded : s.memberships.length ≤ maxInstances
  counted : ∀ i seen, s.phase i = .counted seen false →
    seen.length + (s.instanceMembers.own i).length ≤ maxInstances

theorem State.start_sound {slugs hosts : List JsString} {members : List Uuid}
    (h : members.length ≤ maxInstances) :
    (State.start slugs hosts members : State ι).Sound maxInstances where
  bounded := by
    simpa [State.start, State.memberships] using h
  counted i seen hi := by
    simp [State.start] at hi

/-- A step of one mutation that leaves the committed memberships. -/
theorem State.Sound.goto (h : s.Sound maxInstances)
    {localInstances instances : Table JsString ι}
    {instanceMembers : Table Uuid ι} {phase : Phase}
    (hcommitted : instanceMembers.committed = s.instanceMembers.committed)
    (hothers : ∀ j, i ≠ j →
      instanceMembers.own j = s.instanceMembers.own j)
    (hphase : ∀ seen, phase = .counted seen false →
      seen.length + (instanceMembers.own i).length ≤ maxInstances) :
    State.Sound maxInstances
      { s.goto i phase with localInstances, instances, instanceMembers } where
  bounded := by
    rw [State.memberships, hcommitted]
    exact h.bounded
  counted j seen hj := by
    by_cases hij : i = j
    · subst hij
      have hupdated : Function.update s.phase i phase i =
          .counted seen false := hj
      rw [Function.update_self] at hupdated
      exact hphase seen hupdated
    · have hupdated : Function.update s.phase i phase j =
          .counted seen false := hj
      rw [Function.update_of_ne (Ne.symm hij)] at hupdated
      rw [hothers j hij]
      exact h.counted j seen hupdated

theorem State.Sound.rollBack (h : s.Sound maxInstances) :
    (s.rollBack i).Sound maxInstances :=
  h.goto (Table.committed_rollBack _ _)
    (fun _ hj => Table.own_rollBack_of_ne _ hj) (by simp)

/-- An undisturbed mutation that its count allows keeps the quota. -/
theorem State.Sound.commit (h : s.Sound maxInstances) {seen : List Uuid}
    (hphase : s.phase i = .counted seen false)
    (hundisturbed : seen = s.memberships) :
    (s.commit i).Sound maxInstances where
  bounded := by
    have hcounted := h.counted i seen hphase
    rw [State.memberships, State.commit, Table.committed_commit,
      Table.length_visible]
    rwa [hundisturbed, State.memberships] at hcounted
  counted j seen' hj := by
    have hupdated : Function.update s.phase i .created j =
        .counted seen' false := hj
    by_cases hij : j = i
    · subst hij
      rw [Function.update_self] at hupdated
      cases hupdated
    · rw [Function.update_of_ne hij] at hupdated
      rw [State.commit, Table.own_commit_of_ne _ (Ne.symm hij)]
      exact h.counted j seen' hupdated

theorem State.Sound.act (h : s.Sound maxInstances) {action : Action ι}
    (hundisturbed : ∀ i, action = .advance i → s.Undisturbed i)
    (hact : s.act calls maxInstances action = some s') :
    s'.Sound maxInstances := by
  cases action with
  | fail i =>
      rw [State.act] at hact
      split_ifs at hact
      obtain rfl := Option.some.inj hact
      exact h.rollBack
  | advance i =>
      rw [State.act] at hact
      cases hphase : s.phase i with
      | idle =>
          rw [hphase] at hact
          obtain rfl := Option.some.inj hact
          exact h.goto rfl (fun _ _ => rfl) (by simp)
      | insertLocalInstance =>
          rw [hphase, State.advance] at hact
          dsimp only at hact
          split_ifs at hact
          · obtain rfl := Option.some.inj hact
            exact h.rollBack
          · obtain rfl := Option.some.inj hact
            exact h.goto rfl (fun _ _ => rfl) (by simp)
      | insertInstance =>
          rw [hphase, State.advance] at hact
          dsimp only at hact
          split_ifs at hact
          · obtain rfl := Option.some.inj hact
            exact h.rollBack
          · obtain rfl := Option.some.inj hact
            exact h.goto rfl (fun _ _ => rfl) (by simp)
      | insertMember =>
          rw [hphase] at hact
          obtain rfl := Option.some.inj hact
          exact h.goto (Table.committed_insert _ _ _)
            (fun _ hj => Table.own_insert_of_ne _ hj _) (by simp)
      | count =>
          rw [hphase] at hact
          obtain rfl := Option.some.inj hact
          refine h.goto rfl (fun _ _ => rfl) fun seen hseen => ?_
          obtain ⟨rfl, hallowed⟩ := Phase.counted.inj hseen
          rw [← Table.length_visible]
          simpa using hallowed
      | counted seen tooManyInstances =>
          rw [hphase, State.advance] at hact
          cases tooManyInstances with
          | true =>
              obtain rfl := Option.some.inj hact
              exact h.rollBack
          | false =>
              obtain rfl := Option.some.inj hact
              exact h.commit hphase
                (hundisturbed i rfl seen false hphase)
      | created | failed =>
          rw [hphase] at hact
          cases hact

/-- The quota holds in every state of a run without a commit between a count
and the commit after it. -/
theorem quota_of_undisturbed {slugs hosts : List JsString}
    {members : List Uuid} (hmembers : members.length ≤ maxInstances)
    {s : State ι}
    (h : UndisturbedRun calls maxInstances (.start slugs hosts members) s) :
    s.memberships.length ≤ maxInstances := by
  have hsound : s.Sound maxInstances := by
    induction h with
    | refl => exact State.start_sound hmembers
    | tail action _ hundisturbed hact ih => exact ih.act hundisturbed hact
  exact hsound.bounded

end Quota

/-! ## Runs on fixed mutations -/

/-- Two mutations with a slug each. -/
def twoInstances (i : Bool) : CreateInstance :=
  if i then ⟨js "first", js "first.example.com", 1⟩
  else ⟨js "second", js "second.example.com", 2⟩

/-- The state after a list of actions, each of which is possible. -/
def State.acts (s : State Bool) : List (Action Bool) → Option (State Bool)
  | [] => some s
  | action :: rest => (s.act twoInstances 1 action).bind fun s => acts s rest

theorem Run.of_acts {start s s' : State Bool} {actions : List (Action Bool)}
    (h : Run twoInstances 1 start s) (hacts : s.acts actions = some s') :
    Run twoInstances 1 start s' := by
  induction actions generalizing s with
  | nil =>
      obtain rfl := Option.some.inj hacts
      exact h
  | cons action rest ih =>
      obtain ⟨next, hnext, hrest⟩ := Option.bind_eq_some_iff.mp hacts
      exact ih (h.tail action hnext) hrest

/-- An account with a quota of one gets two memberships when both mutations
count before either commits. -/
theorem quota_exceeded :
    ∃ s, Run twoInstances 1 (.start [] [] []) s ∧
      ([] : List Uuid).length ≤ 1 ∧ ¬s.memberships.length ≤ 1 := by
  have hacts : ((State.start [] [] [] : State Bool).acts
      (List.replicate 5 (.advance true) ++ List.replicate 6 (.advance false) ++
        [.advance true])).any (fun s => s.memberships.length == 2) = true := by
    decide +kernel
  obtain ⟨s, hs, hlength⟩ := (Option.any_eq_true _ _).mp hacts
  refine ⟨s, Run.refl.of_acts hs, by decide, ?_⟩
  rw [eq_of_beq hlength]
  decide

/-- Whether an action commits no mutation that was disturbed. -/
def State.undisturbed (s : State Bool) : Action Bool → Bool
  | .fail _ => true
  | .advance i =>
      match s.phase i with
      | .counted seen _ => seen == s.memberships
      | _ => true

/-- The state after a list of actions, each of which is possible and
undisturbed. -/
def State.undisturbedActs (s : State Bool) :
    List (Action Bool) → Option (State Bool)
  | [] => some s
  | action :: rest =>
      if s.undisturbed action then
        (s.act twoInstances 1 action).bind fun s => undisturbedActs s rest
      else none

theorem UndisturbedRun.of_acts {start s s' : State Bool}
    {actions : List (Action Bool)}
    (h : UndisturbedRun twoInstances 1 start s)
    (hacts : s.undisturbedActs actions = some s') :
    UndisturbedRun twoInstances 1 start s' := by
  induction actions generalizing s with
  | nil =>
      obtain rfl := Option.some.inj hacts
      exact h
  | cons action rest ih =>
      rw [State.undisturbedActs] at hacts
      split_ifs at hacts with hundisturbed
      obtain ⟨next, hnext, hrest⟩ := Option.bind_eq_some_iff.mp hacts
      refine ih (h.tail action ?_ hnext) hrest
      rintro i rfl seen tooManyInstances hphase
      rw [State.undisturbed, hphase] at hundisturbed
      exact eq_of_beq hundisturbed

/-- One mutation after the other: the second one is refused. -/
theorem quota_of_undisturbed_sequential :
    ∃ s, UndisturbedRun twoInstances 1 (.start [] [] []) s ∧
      s.phase true = .created ∧ s.phase false = .failed ∧
      s.memberships.length ≤ 1 := by
  have hacts : ((State.start [] [] [] : State Bool).undisturbedActs
      (List.replicate 6 (.advance true) ++
        List.replicate 6 (.advance false))).any (fun s =>
          s.phase true == .created && s.phase false == .failed) = true := by
    decide +kernel
  obtain ⟨s, hs, hphases⟩ := (Option.any_eq_true _ _).mp hacts
  obtain ⟨htrue, hfalse⟩ := (Bool.and_eq_true _ _).mp hphases
  have hrun := UndisturbedRun.refl.of_acts hs
  exact ⟨s, hrun, eq_of_beq htrue, eq_of_beq hfalse,
    quota_of_undisturbed (by decide) hrun⟩

end DrFed.Instances
