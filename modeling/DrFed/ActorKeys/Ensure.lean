import DrFed.Js.Text
import Mathlib.Logic.Function.Basic
import Mathlib.Logic.Relation

/-!
# Signing keys of a local actor

Calls that load the keys of one local actor, and generate the missing ones on
first use.  Keys are generated outside the transaction that stores them; the
transaction locks the actor, inserts what is still missing and reads the rows
again.  Calls in one process share the promise of a call that is under way.
-/

namespace DrFed.ActorKeys

inductive KeyType where
  | rsassaPkcs1V15 | ed25519
  deriving DecidableEq

def algorithms : List KeyType := [.rsassaPkcs1V15, .ed25519]

/-! ## Tables -/

/-- A row of the key table of one local actor; the pair is its two JWKs. -/
structure LocalActorKey (κ : Type) where
  type : KeyType
  pair : κ
  deriving DecidableEq

structure ActorRow where
  /-- The host of the actor's instance. -/
  host : JsString
  deleted : Bool
  deriving DecidableEq

/-- What the tables hold of one actor. -/
structure Tables (κ : Type) where
  localActor : Bool
  actor : Option ActorRow
  keys : List (LocalActorKey κ)
  deriving DecidableEq

inductive Result (κ : Type) where
  | error
  | pairs (pairs : List (LocalActorKey κ))
  deriving DecidableEq

section Reading

variable {κ : Type} (readable : LocalActorKey κ → Bool)

/-- The stored pairs in the order of the algorithms, unless one of them cannot
be imported or does not verify what it signs. -/
def readPairs (rows : List (LocalActorKey κ)) : Result κ :=
  let found := algorithms.filterMap fun type =>
    rows.find? fun row => row.type == type
  if found.all readable then .pairs found else .error

end Reading

/-! ## Calls -/

/-- Where the operation of a call stands. -/
inductive Phase (κ : Type) where
  | findActor
  | selectKeys (deleted : Bool)
  | generate (missing : List KeyType) (candidates : List (LocalActorKey κ))
  | lockLocalActor (candidates : List (LocalActorKey κ))
  | lockActor (candidates : List (LocalActorKey κ))
  | insert (candidates : List (LocalActorKey κ))
  | selectSaved (written : List (LocalActorKey κ))
  | commit (written saved : List (LocalActorKey κ))
  | readSaved (saved : List (LocalActorKey κ))
  | done (result : Result κ)
  deriving DecidableEq

/-- The transaction has locked the local actor. -/
def Phase.shares {κ : Type} : Phase κ → Bool
  | .lockActor _ | .insert _ | .selectSaved _ | .commit .. => true
  | _ => false

/-- The transaction has locked the actor. -/
def Phase.holds {κ : Type} : Phase κ → Bool
  | .insert _ | .selectSaved _ | .commit .. => true
  | _ => false

inductive Progress (κ ι : Type) where
  | idle
  /-- The call waits for the operation of an earlier call. -/
  | joined (leader : ι)
  | running (phase : Phase κ)
  deriving DecidableEq

/-- A call for the actor, in a process and under the host of its context. -/
structure Call where
  process : ℕ
  host : JsString

structure State (κ ι : Type) where
  tables : Tables κ
  /-- The calls whose transactions hold `FOR KEY SHARE` on the local actor. -/
  sharers : List ι
  /-- The call whose transaction holds `FOR NO KEY UPDATE` on the actor. -/
  holder : Option ι
  /-- The operations under way, by process and host. -/
  pending : ℕ → JsString → Option ι
  progress : ι → Progress κ ι

inductive Action (κ ι : Type) where
  | call (i : ι)
  /-- The next step of an operation, with the key that it generates if it
  generates one. -/
  | advance (i : ι) (generated : κ)
  /-- A step of an operation fails. -/
  | fail (i : ι)
  | join (i : ι)
  /-- The shared promise is forgotten once it has settled. -/
  | forget (i : ι)
  /-- The actor is marked as deleted. -/
  | deleteActor
  /-- The row of the actor is deleted, as with its instance. -/
  | removeActor
  /-- The row of the local actor is deleted, and with it all that refers to
  it. -/
  | removeLocalActor

section Machine

variable {κ ι : Type} [DecidableEq ι] (calls : ι → Call)
  (readable : LocalActorKey κ → Bool)

namespace State

def goto (s : State κ ι) (i : ι) (phase : Phase κ) : State κ ι :=
  { s with progress := Function.update s.progress i (.running phase) }

/-- End the transaction of a call. -/
def release (s : State κ ι) (i : ι) : State κ ι :=
  { s with
    sharers := s.sharers.filter (· ≠ i)
    holder := if s.holder = some i then none else s.holder }

def result (s : State κ ι) (i : ι) : Option (Result κ) :=
  match s.progress i with
  | .running (.done result) => some result
  | _ => none

/-- The keys that no row holds yet. -/
def absent (s : State κ ι) (candidates : List (LocalActorKey κ)) :
    List (LocalActorKey κ) :=
  candidates.filter fun candidate =>
    !s.tables.keys.any fun row => row.type == candidate.type

/-- One step of `ensure`: nothing while another transaction holds the lock that
it needs. -/
def advance (s : State κ ι) (i : ι) (generated : κ) :
    Phase κ → Option (State κ ι)
  | .findActor =>
      some (s.goto i
        (match s.tables.actor.filter fun actor =>
            actor.host == (calls i).host && s.tables.localActor with
        | none => .done (.pairs [])
        | some actor => .selectKeys actor.deleted))
  | .selectKeys deleted =>
      some (s.goto i
        (match readPairs readable s.tables.keys with
        | .error => .done .error
        | .pairs stored =>
            if stored.length = 2 then .done (.pairs stored)
            else if deleted then .done (.pairs [])
            else
              .generate (algorithms.filter fun type =>
                !s.tables.keys.any fun row => row.type == type) []))
  | .generate [] candidates => some (s.goto i (.lockLocalActor candidates))
  | .generate (type :: rest) candidates =>
      some (s.goto i (.generate rest (candidates ++ [⟨type, generated⟩])))
  | .lockLocalActor candidates =>
      if s.tables.localActor then
        some { s.goto i (.lockActor candidates) with
          sharers := i :: s.sharers }
      else some (s.goto i (.done (.pairs [])))
  | .lockActor candidates =>
      if s.holder = none then
        match s.tables.actor.filter fun actor =>
            actor.host == (calls i).host with
        | none => some ((s.goto i (.done (.pairs []))).release i)
        | some actor =>
            some { s.goto i
              (if actor.deleted then .selectSaved [] else .insert candidates)
              with holder := some i }
      else none
  | .insert candidates =>
      some (s.goto i (.selectSaved (s.absent candidates)))
  | .selectSaved written =>
      some (s.goto i (.commit written (s.tables.keys ++ written)))
  | .commit written saved =>
      some { (s.goto i (.readSaved saved)).release i with
        tables := { s.tables with keys := s.tables.keys ++ written } }
  | .readSaved saved =>
      some (s.goto i (.done
        (if saved.length = 2 then readPairs readable saved else .pairs [])))
  | .done _ => none

/-- The state after an action, when the action is possible. -/
def act (s : State κ ι) : Action κ ι → Option (State κ ι)
  | .call i =>
      match s.progress i, s.pending (calls i).process (calls i).host with
      | .idle, none =>
          some { s.goto i .findActor with
            pending := fun process host =>
              if process = (calls i).process ∧ host = (calls i).host then some i
              else s.pending process host }
      | .idle, some leader =>
          some { s with
            progress := Function.update s.progress i (.joined leader) }
      | _, _ => none
  | .advance i generated =>
      match s.progress i with
      | .running phase => s.advance calls readable i generated phase
      | _ => none
  | .fail i =>
      match s.progress i with
      | .running (.done _) => none
      | .running _ => some ((s.goto i (.done .error)).release i)
      | _ => none
  | .join i =>
      match s.progress i with
      | .joined leader =>
          (s.result leader).map fun result => s.goto i (.done result)
      | _ => none
  | .forget i =>
      (s.result i).map fun _ =>
        { s with
          pending := fun process host =>
            if s.pending process host = some i then none
            else s.pending process host }
  | .deleteActor =>
      if s.holder = none then
        some { s with
          tables := { s.tables with
            actor := s.tables.actor.map fun actor =>
              { actor with deleted := true } } }
      else none
  | .removeActor =>
      if s.holder = none then
        some { s with tables := { s.tables with actor := none } }
      else none
  | .removeLocalActor =>
      if s.sharers = [] ∧ s.holder = none then
        some { s with
          tables := { localActor := false, actor := none, keys := [] } }
      else none

end State

/-- Some actions, in any order. -/
abbrev Run : State κ ι → State κ ι → Prop :=
  Relation.ReflTransGen fun s s' => ∃ action, s.act calls readable action = some s'

/-- The state after a list of actions, each of which is possible. -/
def State.acts (s : State κ ι) : List (Action κ ι) → Option (State κ ι)
  | [] => some s
  | action :: rest => (s.act calls readable action).bind fun s => acts s rest

/-- No call was made yet. -/
structure State.Initial (s : State κ ι) : Prop where
  sharers : s.sharers = []
  holder : s.holder = none
  pending : ∀ process host, s.pending process host = none
  progress : ∀ i, s.progress i = .idle
  /-- The primary key of the key rows, and their foreign key. -/
  distinct : (s.tables.keys.map LocalActorKey.type).Nodup
  removed : s.tables.localActor = false → s.tables.keys = []

end Machine

end DrFed.ActorKeys
