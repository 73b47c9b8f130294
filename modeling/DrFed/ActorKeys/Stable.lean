import DrFed.ActorKeys.Ensure
import Mathlib.Data.List.Nodup
import Mathlib.Tactic.SplitIfs

/-!
# Actor keys never change

A key that was ever stored under an algorithm is the only one that is ever
stored under it, and the only one that a call returns for it.
-/

namespace DrFed.ActorKeys

variable {κ ι : Type} [DecidableEq ι] {calls : ι → Call}
  {readable : LocalActorKey κ → Bool}

/-! ## Key rows -/

/-- The keys that were ever stored, at most one for each algorithm. -/
abbrev Chosen (κ : Type) := KeyType → Option κ

/-- The rows are among the keys that were ever stored. -/
def Chosen.Has (chosen : Chosen κ) (rows : List (LocalActorKey κ)) : Prop :=
  ∀ row ∈ rows, chosen row.type = some row.pair

/-- More keys were stored. -/
def Chosen.Grows (chosen more : Chosen κ) : Prop :=
  ∀ type pair, chosen type = some pair → more type = some pair

theorem Chosen.Has.grows {chosen more : Chosen κ}
    {rows : List (LocalActorKey κ)} (h : chosen.Has rows)
    (hgrows : chosen.Grows more) : more.Has rows :=
  fun row hrow => hgrows _ _ (h row hrow)

/-- What a call returns: nothing, or one stored pair for each algorithm. -/
def Chosen.Returns (chosen : Chosen κ) (pairs : List (LocalActorKey κ)) :
    Prop :=
  pairs = [] ∨ ∃ rsa ed, pairs = [⟨.rsassaPkcs1V15, rsa⟩, ⟨.ed25519, ed⟩] ∧
    chosen .rsassaPkcs1V15 = some rsa ∧ chosen .ed25519 = some ed

theorem Chosen.Returns.grows {chosen more : Chosen κ}
    {pairs : List (LocalActorKey κ)} (h : chosen.Returns pairs)
    (hgrows : chosen.Grows more) : more.Returns pairs := by
  rcases h with rfl | ⟨rsa, ed, rfl, hrsa, hed⟩
  · exact .inl rfl
  · exact .inr ⟨rsa, ed, rfl, hgrows _ _ hrsa, hgrows _ _ hed⟩

theorem Chosen.Returns.eq {chosen : Chosen κ}
    {pairs others : List (LocalActorKey κ)} (h : chosen.Returns pairs)
    (h' : chosen.Returns others) (hne : pairs ≠ []) (hne' : others ≠ []) :
    pairs = others := by
  obtain ⟨rsa, ed, rfl, hrsa, hed⟩ := h.resolve_left hne
  obtain ⟨rsa', ed', rfl, hrsa', hed'⟩ := h'.resolve_left hne'
  obtain rfl := Option.some.inj (hrsa.symm.trans hrsa')
  obtain rfl := Option.some.inj (hed.symm.trans hed')
  rfl

theorem type_of_find? {rows : List (LocalActorKey κ)} {type : KeyType}
    {row : LocalActorKey κ}
    (h : (rows.find? fun row => row.type == type) = some row) :
    row.type = type := by
  have hfound := List.find?_some h
  exact eq_of_beq hfound

/-- Two pairs are read only when there is one for each algorithm. -/
theorem readPairs_returns {chosen : Chosen κ} {rows pairs : List (LocalActorKey κ)}
    (hrows : chosen.Has rows)
    (hread : readPairs readable rows = .pairs pairs) (htwo : pairs.length = 2) :
    chosen.Returns pairs := by
  unfold readPairs at hread
  dsimp only at hread
  split_ifs at hread
  obtain rfl := Result.pairs.inj hread
  have hfound : ∀ {type : KeyType} {row : LocalActorKey κ},
      (rows.find? fun row => row.type == type) = some row →
        row = ⟨type, row.pair⟩ ∧ chosen type = some row.pair := by
    intro type row hfind
    have hrow := hrows row (List.mem_of_find?_eq_some hfind)
    obtain rfl := type_of_find? hfind
    exact ⟨rfl, hrow⟩
  right
  simp only [algorithms, List.filterMap_cons, List.filterMap_nil] at htwo ⊢
  cases hrsa : rows.find? fun row => row.type == .rsassaPkcs1V15 with
  | none =>
      rw [hrsa] at htwo
      cases hed : rows.find? fun row => row.type == .ed25519 <;>
        simp [hed] at htwo
  | some rsa =>
      rw [hrsa] at htwo
      cases hed : rows.find? fun row => row.type == .ed25519 with
      | none => simp [hed] at htwo
      | some ed =>
          refine ⟨rsa.pair, ed.pair, ?_, (hfound hrsa).2, (hfound hed).2⟩
          dsimp only
          rw [← (hfound hrsa).1, ← (hfound hed).1]

/-- Two rows of different algorithms are read as two pairs. -/
theorem readPairs_of_two {rows pairs : List (LocalActorKey κ)}
    (hdistinct : (rows.map LocalActorKey.type).Nodup) (htwo : rows.length = 2)
    (hread : readPairs readable rows = .pairs pairs) : pairs.length = 2 := by
  match rows, htwo with
  | [first, second], _ =>
      unfold readPairs at hread
      dsimp only at hread
      split_ifs at hread
      obtain rfl := Result.pairs.inj hread
      obtain ⟨type, pair⟩ := first
      obtain ⟨other, otherPair⟩ := second
      cases type <;> cases other <;>
        simp_all [algorithms]

/-! ## The invariant -/

/-- What holds of an operation at each of its steps. -/
def Phase.Sound (chosen : Chosen κ) (keys : List (LocalActorKey κ)) :
    Phase κ → Prop
  | .generate missing candidates =>
      (candidates.map LocalActorKey.type ++ missing).Nodup
  | .lockLocalActor candidates | .lockActor candidates | .insert candidates =>
      (candidates.map LocalActorKey.type).Nodup
  | .selectSaved written =>
      ((keys ++ written).map LocalActorKey.type).Nodup
  | .commit written saved =>
      saved = keys ++ written ∧
        ((keys ++ written).map LocalActorKey.type).Nodup
  | .readSaved saved =>
      (saved.map LocalActorKey.type).Nodup ∧ chosen.Has saved
  | .done (.pairs pairs) => chosen.Returns pairs
  | _ => True

/-- A step outside the lock does not depend on the stored keys. -/
theorem Phase.Sound.grows {chosen more : Chosen κ}
    {keys others : List (LocalActorKey κ)} {phase : Phase κ}
    (h : phase.Sound chosen keys) (hgrows : chosen.Grows more)
    (hkeys : phase.holds = true → others = keys) : phase.Sound more others := by
  cases phase with
  | findActor | selectKeys => exact True.intro
  | generate | lockLocalActor | lockActor | insert => exact h
  | selectSaved written =>
      rw [hkeys rfl]
      exact h
  | commit written saved =>
      rw [hkeys rfl]
      exact h
  | readSaved saved => exact ⟨h.1, h.2.grows hgrows⟩
  | done result =>
      cases result with
      | error => exact True.intro
      | pairs pairs => exact Chosen.Returns.grows h hgrows

/-- The locks are those of the operations that need them, and the stored keys
are the ones ever chosen while the actor is there. -/
structure State.Sound (chosen : Chosen κ) (s : State κ ι) : Prop where
  distinct : (s.tables.keys.map LocalActorKey.type).Nodup
  stored : chosen.Has s.tables.keys
  complete : s.tables.localActor = true → ∀ type pair,
    chosen type = some pair → ⟨type, pair⟩ ∈ s.tables.keys
  removed : s.tables.localActor = false → s.tables.keys = []
  present : s.sharers ≠ [] → s.tables.localActor = true
  shares : ∀ i phase, s.progress i = .running phase → phase.shares = true →
    i ∈ s.sharers
  holds : ∀ i phase, s.progress i = .running phase → phase.holds = true →
    s.holder = some i
  phases : ∀ i phase, s.progress i = .running phase →
    phase.Sound chosen s.tables.keys

theorem Phase.shares_of_holds {phase : Phase κ} (h : phase.holds = true) :
    phase.shares = true := by
  cases phase <;> first | rfl | cases h

omit [DecidableEq ι] in
/-- A call that settles has a phase that tells its result. -/
theorem State.progress_of_result {s : State κ ι} {i : ι} {result : Result κ}
    (h : s.result i = some result) : s.progress i = .running (.done result) := by
  unfold State.result at h
  split at h
  next hprogress => rw [hprogress, Option.some.inj h]
  next => cases h

section Steps

variable {chosen : Chosen κ} {s : State κ ι} {i : ι}

theorem State.goto_progress {phase other : Phase κ} {j : ι}
    (h : (s.goto i phase).progress j = .running other) :
    (j = i ∧ other = phase) ∨ (j ≠ i ∧ s.progress j = .running other) := by
  have hupdate : Function.update s.progress i (.running phase) j =
      .running other := h
  by_cases hji : j = i
  · subst hji
    rw [Function.update_self] at hupdate
    exact .inl ⟨rfl, (Progress.running.inj hupdate).symm⟩
  · rw [Function.update_of_ne hji] at hupdate
    exact .inr ⟨hji, hupdate⟩

/-- An operation goes on without a change of its locks. -/
theorem State.Sound.goto (h : s.Sound chosen) {phase : Phase κ}
    (hshares : phase.shares = true → i ∈ s.sharers)
    (hholds : phase.holds = true → s.holder = some i)
    (hphase : phase.Sound chosen s.tables.keys) :
    (s.goto i phase).Sound chosen where
  distinct := h.distinct
  stored := h.stored
  complete := h.complete
  removed := h.removed
  present := h.present
  shares j other hother hother' := by
    rcases State.goto_progress hother with ⟨rfl, rfl⟩ | ⟨-, hj⟩
    · exact hshares hother'
    · exact h.shares j other hj hother'
  holds j other hother hother' := by
    rcases State.goto_progress hother with ⟨rfl, rfl⟩ | ⟨-, hj⟩
    · exact hholds hother'
    · exact h.holds j other hj hother'
  phases j other hother := by
    rcases State.goto_progress hother with ⟨rfl, rfl⟩ | ⟨-, hj⟩
    · exact hphase
    · exact h.phases j other hj

/-- An operation goes on to a step outside its transaction. -/
theorem State.Sound.goto_unlocked (h : s.Sound chosen) {phase : Phase κ}
    (hshares : phase.shares = false)
    (hphase : phase.Sound chosen s.tables.keys) :
    (s.goto i phase).Sound chosen := by
  refine h.goto (fun hother => ?_) (fun hother => ?_) hphase
  · rw [hshares] at hother
    cases hother
  · rw [Phase.shares_of_holds hother] at hshares
    cases hshares

/-- An operation that holds no lock any more ends its transaction. -/
theorem State.Sound.release (h : s.Sound chosen)
    (hphase : ∀ phase, s.progress i = .running phase → phase.shares = false) :
    (s.release i).Sound chosen where
  distinct := h.distinct
  stored := h.stored
  complete := h.complete
  removed := h.removed
  present hne := by
    apply h.present
    rintro hnil
    apply hne
    rw [State.release, hnil]
    rfl
  shares j phase hj hshares := by
    refine List.mem_filter.mpr ⟨h.shares j phase hj hshares, ?_⟩
    apply decide_eq_true
    rintro rfl
    rw [hphase phase hj] at hshares
    cases hshares
  holds j phase hj hholds := by
    have hholder := h.holds j phase hj hholds
    have hji : j ≠ i := by
      rintro rfl
      have hshares := Phase.shares_of_holds hholds
      rw [hphase phase hj] at hshares
      cases hshares
    rw [State.release]
    dsimp only
    rw [hholder, if_neg fun heq => hji (Option.some.inj heq)]
  phases := h.phases

omit [DecidableEq ι] in
/-- The rows of the actor change while no transaction holds it. -/
theorem State.Sound.actor (h : s.Sound chosen) (actor : Option ActorRow) :
    State.Sound chosen { s with tables := { s.tables with actor } } :=
  ⟨h.distinct, h.stored, h.complete, h.removed, h.present, h.shares, h.holds,
    h.phases⟩

omit [DecidableEq ι] in
theorem State.Sound.forget (h : s.Sound chosen)
    (pending : ℕ → JsString → Option ι) :
    State.Sound chosen { s with pending } :=
  ⟨h.distinct, h.stored, h.complete, h.removed, h.present, h.shares, h.holds,
    h.phases⟩

theorem State.Sound.wait (h : s.Sound chosen) {leader : ι} :
    State.Sound chosen { s with
      progress := Function.update s.progress i (.joined leader) } := by
  have hold : ∀ j phase, Function.update s.progress i (.joined leader) j =
      .running phase → s.progress j = .running phase := by
    intro j phase hj
    by_cases hji : j = i
    · subst hji
      rw [Function.update_self] at hj
      cases hj
    · rwa [Function.update_of_ne hji] at hj
  exact ⟨h.distinct, h.stored, h.complete, h.removed, h.present,
    fun j phase hj => h.shares j phase (hold j phase hj),
    fun j phase hj => h.holds j phase (hold j phase hj),
    fun j phase hj => h.phases j phase (hold j phase hj)⟩

omit [DecidableEq ι] in
theorem nodup_absent {candidates : List (LocalActorKey κ)}
    (hdistinct : (s.tables.keys.map LocalActorKey.type).Nodup)
    (hcandidates : (candidates.map LocalActorKey.type).Nodup) :
    ((s.tables.keys ++ s.absent candidates).map LocalActorKey.type).Nodup := by
  rw [List.map_append, List.nodup_append]
  refine ⟨hdistinct, ?_, ?_⟩
  · exact hcandidates.sublist ((List.filter_sublist).map _)
  · intro type htype other hother heq
    obtain ⟨row, hrow, rfl⟩ := List.mem_map.mp htype
    obtain ⟨candidate, hcandidate, rfl⟩ := List.mem_map.mp hother
    have habsent := (List.mem_filter.mp hcandidate).2
    rw [Bool.not_eq_true', List.any_eq_false] at habsent
    exact habsent row hrow (beq_iff_eq.mpr heq)

/-- A commit stores the keys that were missing, and those only. -/
theorem State.Sound.commit (h : s.Sound chosen)
    {written saved : List (LocalActorKey κ)}
    (hprogress : s.progress i = .running (.commit written saved)) :
    s.tables.localActor = true ∧ ∃ more, chosen.Grows more ∧ State.Sound more
      { (s.goto i (.readSaved saved)).release i with
        tables := { s.tables with keys := s.tables.keys ++ written } } := by
  obtain ⟨hsaved, hdistinct⟩ := h.phases i _ hprogress
  have hholder := h.holds i _ hprogress rfl
  have hlocal := h.present (List.ne_nil_of_mem (h.shares i _ hprogress rfl))
  let more : Chosen κ := fun type =>
    (chosen type).or ((written.find? fun row => row.type == type).map
      LocalActorKey.pair)
  have hgrows : chosen.Grows more := fun type pair hpair => by
    simp only [more, hpair, Option.some_or]
  have hhas : more.Has (s.tables.keys ++ written) := by
    intro row hrow
    rcases List.mem_append.mp hrow with hold | hnew
    · exact hgrows _ _ (h.stored row hold)
    · have hnone : chosen row.type = none := by
        cases hchosen : chosen row.type with
        | none => rfl
        | some pair =>
            have hmem := h.complete hlocal row.type pair hchosen
            rw [List.map_append, List.nodup_append] at hdistinct
            exact absurd rfl (hdistinct.2.2 row.type
              (List.mem_map.mpr ⟨_, hmem, rfl⟩) row.type
              (List.mem_map.mpr ⟨row, hnew, rfl⟩))
      have hfind : (written.find? fun other => other.type == row.type) =
          some row := by
        rw [List.map_append, List.nodup_append] at hdistinct
        cases hfind : written.find? fun other => other.type == row.type with
        | none =>
            have := List.find?_eq_none.mp hfind row hnew
            exact absurd (beq_self_eq_true row.type) this
        | some other =>
            rw [List.inj_on_of_nodup_map hdistinct.2.1
              (List.mem_of_find?_eq_some hfind) hnew (type_of_find? hfind)]
      simp only [more, hnone, hfind, Option.none_or, Option.map_some]
  have hothers : ∀ j phase, ((s.goto i (.readSaved saved)).release i).progress j
      = .running phase → (j = i ∧ phase = .readSaved saved) ∨
        (j ≠ i ∧ s.progress j = .running phase) :=
    fun j phase hj => State.goto_progress hj
  refine ⟨hlocal, more, hgrows, hdistinct, hhas, ?_, ?_, fun _ => hlocal, ?_, ?_,
    ?_⟩
  · intro _ type pair hpair
    cases hchosen : chosen type with
    | some chosenPair =>
        have heq := hgrows _ _ hchosen
        rw [hpair] at heq
        rw [Option.some.inj heq]
        exact List.mem_append_left _ (h.complete hlocal type _ hchosen)
    | none =>
        simp only [more, hchosen, Option.none_or, Option.map_eq_some_iff]
          at hpair
        obtain ⟨row, hfind, rfl⟩ := hpair
        obtain rfl := type_of_find? hfind
        exact List.mem_append_right _ (List.mem_of_find?_eq_some hfind)
  · intro hgone
    rw [hlocal] at hgone
    cases hgone
  · intro j phase hj hshares
    rcases hothers j phase hj with ⟨-, rfl⟩ | ⟨hji, hold⟩
    · cases hshares
    · exact List.mem_filter.mpr ⟨h.shares j phase hold hshares,
        decide_eq_true hji⟩
  · intro j phase hj hholds
    rcases hothers j phase hj with ⟨-, rfl⟩ | ⟨hji, hold⟩
    · cases hholds
    · have hother := h.holds j phase hold hholds
      rw [hholder] at hother
      exact absurd (Option.some.inj hother).symm hji
  · intro j phase hj
    rcases hothers j phase hj with ⟨-, rfl⟩ | ⟨hji, hold⟩
    · rw [hsaved]
      exact ⟨hdistinct, hhas⟩
    · refine (h.phases j phase hold).grows hgrows fun hholds => ?_
      have hother := h.holds j phase hold hholds
      rw [hholder] at hother
      exact absurd (Option.some.inj hother).symm hji

/-- The state is sound after a step, and a new key was stored only while the
actor is there. -/
def Sounder (chosen : Chosen κ) (after : State κ ι) : Prop :=
  ∃ more, chosen.Grows more ∧ after.Sound more ∧
    (after.tables.localActor = true ∨ more = chosen)

omit [DecidableEq ι] in
theorem Sounder.same {after : State κ ι} (h : after.Sound chosen) :
    Sounder chosen after :=
  ⟨chosen, fun _ _ hpair => hpair, h, .inr rfl⟩

theorem State.Sound.advance (h : s.Sound chosen) {phase : Phase κ}
    (hprogress : s.progress i = .running phase) {generated : κ}
    {after : State κ ι}
    (hadvance : s.advance calls readable i generated phase = some after) :
    Sounder chosen after := by
  have hphase := h.phases i phase hprogress
  have hsame : ∀ {after : State κ ι}, after.Sound chosen →
      Sounder chosen after := Sounder.same
  have hnothing : (Phase.done (.pairs [])).Sound chosen s.tables.keys :=
    Or.inl rfl
  cases phase with
  | findActor =>
      obtain rfl := Option.some.inj hadvance
      apply hsame
      split
      · exact h.goto_unlocked rfl hnothing
      · exact h.goto_unlocked rfl True.intro
  | selectKeys deleted =>
      obtain rfl := Option.some.inj hadvance
      apply hsame
      cases hread : readPairs readable s.tables.keys with
      | error => exact h.goto_unlocked rfl True.intro
      | pairs stored =>
          dsimp only
          split_ifs with htwo hdeleted
          · exact h.goto_unlocked rfl (readPairs_returns h.stored hread htwo)
          · exact h.goto_unlocked rfl hnothing
          · refine h.goto_unlocked rfl ?_
            rw [Phase.Sound, List.map_nil, List.nil_append]
            exact List.Nodup.filter _ (by decide)
  | generate missing candidates =>
      cases missing with
      | nil =>
          obtain rfl := Option.some.inj hadvance
          apply hsame
          refine h.goto_unlocked rfl ?_
          rwa [Phase.Sound, List.append_nil] at hphase
      | cons type rest =>
          obtain rfl := Option.some.inj hadvance
          apply hsame
          refine h.goto_unlocked rfl ?_
          rw [Phase.Sound, List.map_append, List.append_assoc]
          exact hphase
  | lockLocalActor candidates =>
      rw [State.advance] at hadvance
      split_ifs at hadvance with hlocal
      · obtain rfl := Option.some.inj hadvance
        apply hsame
        have hlocked : State.Sound chosen
            { s with sharers := i :: s.sharers } :=
          ⟨h.distinct, h.stored, h.complete, h.removed, fun _ => hlocal,
            fun j phase hj hshares =>
              List.mem_cons_of_mem _ (h.shares j phase hj hshares),
            h.holds, h.phases⟩
        refine hlocked.goto (fun _ => List.mem_cons_self) (fun hholds => ?_)
          hphase
        cases hholds
      · obtain rfl := Option.some.inj hadvance
        exact hsame (h.goto_unlocked rfl hnothing)
  | lockActor candidates =>
      rw [State.advance] at hadvance
      split_ifs at hadvance with hfree
      have hshared := h.shares i _ hprogress rfl
      cases hactor : s.tables.actor.filter fun actor =>
          actor.host == (calls i).host with
      | none =>
          rw [hactor] at hadvance
          obtain rfl := Option.some.inj hadvance
          apply hsame
          refine (h.goto_unlocked rfl hnothing).release fun phase hi => ?_
          rcases State.goto_progress hi with ⟨-, rfl⟩ | ⟨hne, -⟩
          · rfl
          · exact absurd rfl hne
      | some actor =>
          rw [hactor] at hadvance
          obtain rfl := Option.some.inj hadvance
          apply hsame
          have hunheld : ∀ j phase, s.progress j = .running phase →
              phase.holds ≠ true := by
            intro j phase hj hholds
            have hholder := h.holds j phase hj hholds
            rw [hfree] at hholder
            cases hholder
          have hlocked : State.Sound chosen { s with holder := some i } :=
            ⟨h.distinct, h.stored, h.complete, h.removed, h.present, h.shares,
              fun j phase hj hholds => absurd hholds (hunheld j phase hj),
              h.phases⟩
          refine hlocked.goto (fun _ => hshared) (fun _ => rfl) ?_
          split_ifs
          · rw [Phase.Sound, List.append_nil]
            exact h.distinct
          · exact hphase
  | insert candidates =>
      obtain rfl := Option.some.inj hadvance
      exact hsame (h.goto (fun _ => h.shares i _ hprogress rfl)
        (fun _ => h.holds i _ hprogress rfl)
        (nodup_absent h.distinct hphase))
  | selectSaved written =>
      obtain rfl := Option.some.inj hadvance
      exact hsame (h.goto (fun _ => h.shares i _ hprogress rfl)
        (fun _ => h.holds i _ hprogress rfl) ⟨rfl, hphase⟩)
  | commit written saved =>
      obtain rfl := Option.some.inj hadvance
      obtain ⟨hlocal, more, hgrows, hmore⟩ := h.commit hprogress
      exact ⟨more, hgrows, hmore, .inl hlocal⟩
  | readSaved saved =>
      obtain rfl := Option.some.inj hadvance
      apply hsame
      refine h.goto_unlocked rfl ?_
      split_ifs with htwo
      · cases hread : readPairs readable saved with
        | error => exact True.intro
        | pairs pairs =>
            exact readPairs_returns hphase.2 hread
              (readPairs_of_two hphase.1 htwo hread)
      · exact hnothing
  | done result => cases hadvance

theorem State.Sound.act (h : s.Sound chosen) {action : Action κ ι}
    {after : State κ ι} (hact : s.act calls readable action = some after) :
    Sounder chosen after := by
  have hsame : ∀ {after : State κ ι}, after.Sound chosen →
      Sounder chosen after := Sounder.same
  cases action with
  | call i =>
      rw [State.act] at hact
      split at hact
      next =>
        obtain rfl := Option.some.inj hact
        have hstarted : (s.goto i .findActor).Sound chosen :=
          h.goto_unlocked rfl True.intro
        exact hsame (hstarted.forget _)
      next =>
        obtain rfl := Option.some.inj hact
        exact hsame h.wait
      next => cases hact
  | advance i generated =>
      rw [State.act] at hact
      split at hact
      next phase hprogress => exact h.advance hprogress hact
      next => cases hact
  | fail i =>
      have hfailed : ((s.goto i (.done .error)).release i).Sound chosen := by
        have hdone : (s.goto i (.done .error)).Sound chosen :=
          h.goto_unlocked rfl True.intro
        refine hdone.release fun phase hi => ?_
        rcases State.goto_progress hi with ⟨-, rfl⟩ | ⟨hne, -⟩
        · rfl
        · exact absurd rfl hne
      rw [State.act] at hact
      split at hact
      next => cases hact
      next =>
        obtain rfl := Option.some.inj hact
        exact hsame hfailed
      next => cases hact
  | join i =>
      rw [State.act] at hact
      split at hact
      next leader hprogress =>
        obtain ⟨result, hresult, rfl⟩ := Option.map_eq_some_iff.mp hact
        exact hsame (h.goto_unlocked rfl
          (h.phases leader _ (State.progress_of_result hresult)))
      next => cases hact
  | forget i =>
      obtain ⟨result, -, rfl⟩ := Option.map_eq_some_iff.mp hact
      exact hsame (h.forget _)
  | deleteActor =>
      rw [State.act] at hact
      split_ifs at hact
      obtain rfl := Option.some.inj hact
      exact hsame (h.actor _)
  | removeActor =>
      rw [State.act] at hact
      split_ifs at hact
      obtain rfl := Option.some.inj hact
      exact hsame (h.actor none)
  | removeLocalActor =>
      rw [State.act] at hact
      split_ifs at hact with hfree
      obtain rfl := Option.some.inj hact
      refine hsame ⟨List.nodup_nil, fun row hrow => absurd hrow List.not_mem_nil,
        fun hlocal => absurd hlocal Bool.false_ne_true, fun _ => rfl,
        fun hne => absurd hfree.1 hne, h.shares, h.holds, ?_⟩
      intro j phase hj
      refine (h.phases j phase hj).grows (fun _ _ hpair => hpair) fun hholds => ?_
      have hholder := h.holds j phase hj hholds
      rw [hfree.2] at hholder
      cases hholder

end Steps

/-! ## Runs -/

omit [DecidableEq ι] in
theorem State.Initial.sound {s : State κ ι} (h : s.Initial) :
    s.Sound fun type =>
      (s.tables.keys.find? fun row => row.type == type).map
        LocalActorKey.pair := by
  have hidle : ∀ {i : ι} {phase : Phase κ}, s.progress i ≠ .running phase := by
    intro i phase hi
    rw [h.progress i] at hi
    cases hi
  refine ⟨h.distinct, ?_, ?_, h.removed, fun hne => absurd h.sharers hne,
    fun _ _ hi => absurd hi hidle, fun _ _ hi => absurd hi hidle,
    fun _ _ hi => absurd hi hidle⟩
  · intro row hrow
    cases hfind : s.tables.keys.find? fun other => other.type == row.type with
    | none =>
        have := List.find?_eq_none.mp hfind row hrow
        exact absurd (beq_self_eq_true row.type) this
    | some other =>
        obtain rfl := List.inj_on_of_nodup_map h.distinct
          (List.mem_of_find?_eq_some hfind) hrow (type_of_find? hfind)
        dsimp only
        rw [hfind]
        rfl
  · intro _ type pair hpair
    obtain ⟨row, hfind, rfl⟩ := Option.map_eq_some_iff.mp hpair
    obtain rfl := type_of_find? hfind
    exact List.mem_of_find?_eq_some hfind

theorem Run.sound {chosen : Chosen κ} {s s' : State κ ι}
    (h : Run calls readable s s') (hs : s.Sound chosen) :
    ∃ more, chosen.Grows more ∧ s'.Sound more := by
  induction h with
  | refl => exact ⟨chosen, fun _ _ hpair => hpair, hs⟩
  | tail _ hstep ih =>
      obtain ⟨middle, hgrows, hmiddle⟩ := ih
      obtain ⟨action, haction⟩ := hstep
      obtain ⟨more, hgrows', hmore, -⟩ := hmiddle.act haction
      exact ⟨more, fun type pair hpair => hgrows' _ _ (hgrows _ _ hpair), hmore⟩

/-- All keys that were ever stored are stored together in one state of the
run. -/
theorem Run.stored {start s : State κ ι} (hstart : start.Initial)
    (h : Run calls readable start s) :
    ∃ chosen : Chosen κ, s.Sound chosen ∧ ∃ t, Run calls readable start t ∧
      Run calls readable t s ∧
      ∀ type pair, chosen type = some pair → ⟨type, pair⟩ ∈ t.tables.keys := by
  induction h with
  | refl =>
      refine ⟨_, hstart.sound, start, .refl, .refl, fun type pair hpair => ?_⟩
      obtain ⟨row, hfind, rfl⟩ := Option.map_eq_some_iff.mp hpair
      obtain rfl := type_of_find? hfind
      exact List.mem_of_find?_eq_some hfind
  | tail hrun hstep ih =>
      obtain ⟨chosen, hsound, t, ht, htrun, hkeys⟩ := ih
      obtain ⟨action, haction⟩ := hstep
      obtain ⟨more, -, hmore, hlocal | rfl⟩ := hsound.act haction
      · exact ⟨more, hmore, _, hrun.tail ⟨action, haction⟩, .refl,
          hmore.complete hlocal⟩
      · exact ⟨more, hmore, t, ht, htrun.tail ⟨action, haction⟩, hkeys⟩

omit [DecidableEq ι] in
theorem State.Sound.returns {chosen : Chosen κ} {s : State κ ι}
    (h : s.Sound chosen) {i : ι} {pairs : List (LocalActorKey κ)}
    (hresult : s.result i = some (.pairs pairs)) : chosen.Returns pairs :=
  h.phases i _ (State.progress_of_result hresult)

/-- A stored key is never replaced; calls that return pairs return the same
ones, which are stored together at some point of the run; and a call returns
an error, nothing, or one pair for each algorithm. -/
theorem actorKeys_stable {start s s' : State κ ι} (hstart : start.Initial)
    (h : Run calls readable start s) (h' : Run calls readable s s') :
    (∀ row ∈ s.tables.keys, ∀ row' ∈ s'.tables.keys,
      row'.type = row.type → row' = row) ∧
    (∀ i j pairs others, s.result i = some (.pairs pairs) →
      s'.result j = some (.pairs others) → pairs ≠ [] → others ≠ [] →
      pairs = others) ∧
    ∀ i result, s.result i = some result →
      result = .error ∨ result = .pairs [] ∨
      ∃ rsa ed, result = .pairs [⟨.rsassaPkcs1V15, rsa⟩, ⟨.ed25519, ed⟩] ∧
        ∃ t, Run calls readable start t ∧ Run calls readable t s ∧
          ⟨.rsassaPkcs1V15, rsa⟩ ∈ t.tables.keys ∧
          ⟨.ed25519, ed⟩ ∈ t.tables.keys := by
  obtain ⟨chosen, hs, t, ht, htrun, hkeys⟩ := Run.stored hstart h
  obtain ⟨more, hgrows, hs'⟩ := Run.sound h' hs
  refine ⟨fun row hrow row' hrow' htype => ?_, ?_, ?_⟩
  · have hpair := hgrows _ _ (hs.stored row hrow)
    rw [← htype, hs'.stored row' hrow'] at hpair
    obtain ⟨type, pair⟩ := row
    obtain ⟨type', pair'⟩ := row'
    obtain rfl : type' = type := htype
    obtain rfl : pair' = pair := Option.some.inj hpair
    rfl
  · intro i j pairs others hi hj hne hne'
    exact ((hs.returns hi).grows hgrows).eq (hs'.returns hj) hne hne'
  · intro i result hresult
    cases result with
    | error => exact .inl rfl
    | pairs pairs =>
        rcases hs.returns hresult with rfl | ⟨rsa, ed, rfl, hrsa, hed⟩
        · exact .inr (.inl rfl)
        · exact .inr (.inr ⟨rsa, ed, rfl, t, ht, htrun, hkeys _ _ hrsa,
            hkeys _ _ hed⟩)

theorem Run.of_acts {s s' : State κ ι} {actions : List (Action κ ι)}
    (h : s.acts calls readable actions = some s') : Run calls readable s s' := by
  induction actions generalizing s with
  | nil =>
      obtain rfl := Option.some.inj h
      exact .refl
  | cons action rest ih =>
      obtain ⟨next, hnext, hrest⟩ := Option.bind_eq_some_iff.mp h
      exact .head ⟨action, hnext⟩ (ih hrest)

/-- An actor without keys, before any call. -/
def keylessState : State ℕ ℕ where
  tables := ⟨true, some ⟨js "local.example", false⟩, []⟩
  sharers := []
  holder := none
  pending _ _ := none
  progress _ := .idle

theorem keylessState_initial : keylessState.Initial :=
  ⟨rfl, rfl, fun _ _ => rfl, fun _ => rfl, List.nodup_nil,
    fun h => absurd h (by decide)⟩

/-- Every call comes from a process of its own. -/
def separateCalls (i : ℕ) : Call := ⟨i, js "local.example"⟩

/-- Two calls find no keys and generate some; the first one stores its own. -/
def racedActions : List (Action ℕ ℕ) :=
  [.call 0, .call 1] ++ List.replicate 5 (.advance 0 10) ++
    List.replicate 5 (.advance 1 20) ++ List.replicate 6 (.advance 0 0) ++
    List.replicate 6 (.advance 1 0)

theorem actorKeys_stable_raced :
    ∃ s, Run separateCalls (fun _ => true) keylessState s ∧
      s.tables.keys = [⟨.rsassaPkcs1V15, 10⟩, ⟨.ed25519, 10⟩] ∧
      ∃ pairs, s.result 0 = some (.pairs pairs) ∧
        s.result 1 = some (.pairs pairs) ∧ pairs.length = 2 := by
  have hacts : ((keylessState.acts separateCalls (fun _ => true)
      racedActions).any fun s =>
        s.tables.keys == [⟨.rsassaPkcs1V15, 10⟩, ⟨.ed25519, 10⟩] &&
          [s.result 0, s.result 1].all fun result => result.any fun
            | .error => false
            | .pairs pairs => pairs.length == 2) = true := by
    decide +kernel
  obtain ⟨s, hs, hchecked⟩ := (Option.any_eq_true _ _).mp hacts
  have hrun := Run.of_acts hs
  obtain ⟨hkeys, hresults⟩ := (Bool.and_eq_true _ _).mp hchecked
  have hresult : ∀ i ∈ [0, 1], ∃ pairs, s.result i = some (.pairs pairs) ∧
      pairs.length = 2 := by
    intro i hi
    have hany := List.all_eq_true.mp hresults (s.result i) (by
      rcases List.mem_pair.mp hi with rfl | rfl <;> simp)
    obtain ⟨result, hresult, htwo⟩ := (Option.any_eq_true _ _).mp hany
    cases result with
    | error => cases htwo
    | pairs pairs => exact ⟨pairs, hresult, eq_of_beq htwo⟩
  obtain ⟨pairs, h0, htwo⟩ := hresult 0 (by simp)
  obtain ⟨others, h1, hothers⟩ := hresult 1 (by simp)
  have hsame := (actorKeys_stable keylessState_initial hrun .refl).2.1 0 1
    pairs others h0 h1 (List.ne_nil_of_length_eq_add_one htwo)
    (List.ne_nil_of_length_eq_add_one hothers)
  exact ⟨s, hrun, eq_of_beq hkeys, pairs, h0, hsame ▸ h1, htwo⟩

end DrFed.ActorKeys
