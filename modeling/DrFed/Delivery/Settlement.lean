import DrFed.Delivery.Outbound
import Mathlib.Data.List.Nodup

/-!
# Outbound settlement as a state machine

A delivery that was sent, given up or abandoned is final; attempts are only
appended; a sent delivery is one whose last attempt succeeded.
-/

namespace DrFed.Delivery

open Store (Uuid Instant)

/-! ## The settlements that are made -/

@[simp] theorem isNone_text (value : Option JsString) :
    (text value).isNone = value.isNone := by
  cases value <;> rfl

/-- A settlement succeeds if and only if it shows no error, and then an attempt
was made. -/
structure Settlement.Coherent (settlement : Settlement) : Prop where
  error : settlement.error = none ↔ settlement.status = .sent
  attempted : settlement.status = .sent → settlement.attempted = true

theorem sentSettlement_coherent (statusCode : Option ℤ) :
    (sentSettlement statusCode).Coherent :=
  ⟨⟨fun _ => rfl, fun _ => rfl⟩, fun _ => rfl⟩

theorem undelivered_coherent : undelivered.Coherent where
  error := by simp [undelivered]
  attempted := by simp [undelivered]

theorem Failure.settlement_coherent (failure : Failure)
    {status : SettlementStatus} (hstatus : status ≠ .sent) (attempted : Bool) :
    (failure.settlement status attempted).Coherent where
  error := by simp [Failure.settlement, hstatus]
  attempted h := absurd h hstatus

theorem deliverySettlement_coherent {synchronous enqueued : Bool}
    {inboxUrl : JsString} {outcome : SendOutcome} {settlement : Settlement}
    (h : deliverySettlement synchronous enqueued inboxUrl outcome =
      some settlement) : settlement.Coherent := by
  cases outcome with
  | threw error =>
      obtain rfl := Option.some.inj h
      apply Failure.settlement_coherent
      simp
  | returned spans responses =>
      rw [deliverySettlement] at h
      split_ifs at h with hsynchronous hsent henqueued
      · obtain rfl := Option.some.inj h
        apply sentSettlement_coherent
      · obtain rfl := Option.some.inj h
        apply undelivered_coherent
      · obtain rfl := Option.some.inj h
        apply undelivered_coherent

theorem queuedSettlements_coherent {attempt : QueuedAttempt}
    {settlement : Settlement} (h : settlement ∈ queuedSettlements attempt) :
    settlement.Coherent := by
  unfold queuedSettlements at h
  by_cases hsent : attempt.sent = true
  · rw [if_pos hsent] at h
    obtain rfl := List.mem_singleton.mp h
    apply sentSettlement_coherent
  rw [if_neg hsent] at h
  have hfailed : ∀ failure : Failure, (failure.settlement
      (if attempt.permanent.isNone && attempt.outcomes.contains "abandoned"
        then .abandoned else .failed) true).Coherent := by
    intro failure
    apply Failure.settlement_coherent
    split_ifs <;> simp
  have hpermanently : ∀ permanent : Failure,
      (permanent.settlement .permanentlyFailed false).Coherent := by
    intro permanent
    apply Failure.settlement_coherent
    simp
  cases hfailure : attempt.failure with
  | none =>
      cases hpermanent : attempt.permanent with
      | none => simp [hfailure, hpermanent] at h
      | some permanent =>
          rw [hfailure, hpermanent] at h
          rw [List.mem_singleton.mp h]
          apply hpermanently
  | some failure =>
      cases hpermanent : attempt.permanent with
      | none =>
          rw [hfailure, hpermanent] at h
          rw [List.mem_singleton.mp h]
          simpa [hpermanent] using hfailed failure
      | some permanent =>
          rw [hfailure, hpermanent] at h
          rcases List.mem_cons.mp h with h | h
          · rw [h]
            simpa [hpermanent] using hfailed failure
          · rw [List.mem_singleton.mp h]
            apply hpermanently

theorem Settles.coherent {entry : OutboundSettlement} (h : Settles entry) :
    entry.toSettlement.Coherent := by
  cases h with
  | delivered id activityIri inboxUrl synchronous enqueued outcome settlement
      hsettlement => exact deliverySettlement_coherent hsettlement
  | queued message reported outcome settlement hsettlement =>
      exact queuedSettlements_coherent hsettlement

/-! ## One settlement -/

theorem newer_total (row other : OutboundDelivery) :
    newer row other ∨ newer other row := by
  rcases lt_trichotomy row.created other.created with hlt | heq | hlt
  · exact .inr (.inl hlt)
  · rcases BitVec.le_total row.id other.id with hle | hle
    · exact .inr (.inr ⟨heq, hle⟩)
    · exact .inl (.inr ⟨heq.symm, hle⟩)
  · exact .inl (.inl hlt)

theorem newer_trans {row other third : OutboundDelivery}
    (h : newer row other) (h' : newer other third) : newer row third := by
  rcases h with hlt | ⟨heq, hle⟩
  · rcases h' with hlt' | ⟨heq', -⟩
    · exact .inl (hlt'.trans hlt)
    · exact .inl (heq' ▸ hlt)
  · rcases h' with hlt' | ⟨heq', hle'⟩
    · exact .inl (heq ▸ hlt')
    · exact .inr ⟨heq'.trans heq, BitVec.le_trans hle' hle⟩

/-- The row is the one that a settlement may change: it is pending, the
settlement matches it, and no other such row is newer. -/
structure OutboundSettlement.Selects (entry : OutboundSettlement)
    (s : Deliveries) (row : OutboundDelivery) : Prop where
  mem : row ∈ s.rows
  activityIri : row.activityIri = entry.activityIri
  inboxUrl : row.inboxUrl = entry.inboxUrl
  pending : row.status.pending = true
  named : ∀ id, entry.id = some id → row.id = id
  newest : ∀ other ∈ s.rows, entry.matches other = true → newer row other

theorem OutboundSettlement.matches_iff {entry : OutboundSettlement}
    {row : OutboundDelivery} :
    entry.matches row = true ↔
      row.activityIri = entry.activityIri ∧ row.inboxUrl = entry.inboxUrl ∧
        row.status.pending = true ∧ ∀ id, entry.id = some id → row.id = id := by
  simp only [OutboundSettlement.matches, Bool.and_eq_true, beq_iff_eq,
    Option.all_eq_true, and_assoc]

theorem OutboundSettlement.selects_of_select {entry : OutboundSettlement}
    {s : Deliveries} {row : OutboundDelivery}
    (h : entry.select s = some row) : entry.Selects s row := by
  have : Std.Total newer := ⟨newer_total⟩
  have : IsTrans OutboundDelivery newer := ⟨fun _ _ _ => newer_trans⟩
  obtain ⟨rest, hsorted⟩ := List.head?_eq_some_iff.mp h
  have hperm := List.perm_insertionSort newer (s.rows.filter entry.matches)
  have hpairwise := List.pairwise_insertionSort newer
    (s.rows.filter entry.matches)
  rw [hsorted] at hperm hpairwise
  obtain ⟨hmem, hmatches⟩ := List.mem_filter.mp
    (hperm.mem_iff.mp List.mem_cons_self)
  obtain ⟨hiri, hurl, hpending, hid⟩ := matches_iff.mp hmatches
  refine ⟨hmem, hiri, hurl, hpending, hid, fun other hother hothers => ?_⟩
  have hsorted := hperm.mem_iff.mpr (List.mem_filter.mpr ⟨hother, hothers⟩)
  rcases List.mem_cons.mp hsorted with rfl | hrest
  · rcases newer_total other other with hnewer | hnewer <;> exact hnewer
  · exact List.rel_of_pairwise_cons hpairwise hrest

/-- What a settlement that is not refused does. -/
theorem settleOutbound_cases {attemptId : Uuid} {completed : Instant}
    {entry : OutboundSettlement} {s s' : Deliveries} {found : Bool}
    (h : settleOutbound attemptId completed entry s = .ok (found, s')) :
    s' = s ∨ ∃ delivery, entry.Selects s delivery ∧
      s'.rows = s.rows.map (fun row =>
        if row.id = delivery.id then row.settled entry completed else row) ∧
      s'.attempts = s.attempts ++ (if entry.attempted then
        [entry.attempt attemptId completed delivery.id] else []) := by
  unfold settleOutbound at h
  cases hselect : entry.select s with
  | none =>
      rw [hselect] at h
      obtain ⟨-, rfl⟩ := Prod.mk.inj (Except.ok.inj h)
      exact .inl rfl
  | some delivery =>
      right
      refine ⟨delivery, OutboundSettlement.selects_of_select hselect, ?_⟩
      rw [hselect] at h
      cases hattempted : entry.attempted with
      | false =>
          simp only [hattempted, Bool.false_eq_true, if_false] at h
          split_ifs at h
          · cases h
          · obtain ⟨-, rfl⟩ := Prod.mk.inj (Except.ok.inj h)
            exact ⟨rfl, by simp⟩
      | true =>
          simp only [hattempted, if_true] at h
          cases hcheck : checkAttempt
              (entry.attempt attemptId completed delivery.id) with
          | error violation =>
              rw [hcheck] at h
              cases h
          | ok _ =>
              rw [hcheck] at h
              split_ifs at h
              · cases h
              · obtain ⟨-, rfl⟩ := Prod.mk.inj (Except.ok.inj h)
                exact ⟨rfl, by simp⟩

/-! ## The invariant -/

/-- The last recorded attempt of a delivery. -/
def Deliveries.lastAttempt (s : Deliveries) (id : Uuid) :
    Option DeliveryAttempt :=
  (s.attempts.filter fun attempt => attempt.deliveryId == id).getLast?

theorem lastAttempt_append {s s' : Deliveries} {more : List DeliveryAttempt}
    (hattempts : s'.attempts = s.attempts ++ more) {id : Uuid}
    (hmore : ∀ attempt ∈ more, attempt.deliveryId ≠ id) :
    s'.lastAttempt id = s.lastAttempt id := by
  have hnone : more.filter (fun attempt => attempt.deliveryId == id) = [] := by
    rw [List.filter_eq_nil_iff]
    intro attempt hattempt heq
    exact hmore attempt hattempt (eq_of_beq heq)
  rw [Deliveries.lastAttempt, hattempts, List.filter_append, hnone,
    List.append_nil, Deliveries.lastAttempt]

theorem lastAttempt_concat {s s' : Deliveries} {attempt : DeliveryAttempt}
    (hattempts : s'.attempts = s.attempts ++ [attempt]) :
    s'.lastAttempt attempt.deliveryId = some attempt := by
  rw [Deliveries.lastAttempt, hattempts, List.filter_append]
  simp

structure Deliveries.Sound (s : Deliveries) : Prop where
  distinct : (s.rows.map OutboundDelivery.id).Nodup
  /-- Attempts are those of recorded deliveries. -/
  recorded : ∀ attempt ∈ s.attempts, ∃ row ∈ s.rows,
    row.id = attempt.deliveryId
  sent : ∀ row ∈ s.rows, row.status = .sent ↔
    ∃ attempt, s.lastAttempt row.id = some attempt ∧ attempt.succeeded = true
  completed : ∀ row ∈ s.rows, row.completed = none ↔ row.status = .queued
  succeeded : ∀ attempt ∈ s.attempts,
    attempt.succeeded = true ↔ attempt.error = none

theorem Deliveries.Sound.empty : Deliveries.empty.Sound where
  distinct := List.nodup_nil
  recorded _ h := absurd h List.not_mem_nil
  sent _ h := absurd h List.not_mem_nil
  completed _ h := absurd h List.not_mem_nil
  succeeded _ h := absurd h List.not_mem_nil

section Start

variable {entry : OutboundDeliveryEntry} {s s' : Deliveries}

theorem recordOutbound_cases (h : recordOutbound entry s = .ok s') :
    (∀ row ∈ s.rows, row.id ≠ entry.id) ∧ s'.attempts = s.attempts ∧
      ∃ row, s'.rows = s.rows ++ [row] ∧ row.id = entry.id ∧
        row.status = .queued ∧ row.completed = none := by
  unfold recordOutbound at h
  split_ifs at h with hany
  obtain rfl := Except.ok.inj h
  refine ⟨fun row hrow heq => hany ?_, rfl, _, rfl, rfl, rfl, rfl⟩
  exact List.any_eq_true.mpr ⟨row, hrow, beq_iff_eq.mpr heq⟩

theorem Deliveries.Sound.start (hs : s.Sound)
    (h : recordOutbound entry s = .ok s') : s'.Sound := by
  obtain ⟨hfresh, hattempts, row, hrows, hid, hstatus, hcompleted⟩ :=
    recordOutbound_cases h
  have hlast : ∀ id, s'.lastAttempt id = s.lastAttempt id := fun id =>
    lastAttempt_append (hattempts.trans (List.append_nil _).symm) (by simp)
  have hnone : s.lastAttempt row.id = none := by
    rw [Deliveries.lastAttempt, List.getLast?_eq_none_iff,
      List.filter_eq_nil_iff]
    intro attempt hattempt heq
    obtain ⟨other, hother, hotherId⟩ := hs.recorded attempt hattempt
    apply hfresh other hother
    rw [hotherId, eq_of_beq heq, hid]
  have hcases : ∀ other ∈ s'.rows, other ∈ s.rows ∨ other = row := by
    intro other hother
    rwa [hrows, List.mem_append, List.mem_singleton] at hother
  constructor
  · rw [hrows, List.map_append, List.nodup_append]
    refine ⟨hs.distinct, List.nodup_singleton _, ?_⟩
    intro id hmem id' hmem' heq
    obtain ⟨other, hother, rfl⟩ := List.mem_map.mp hmem
    rw [List.map_singleton, List.mem_singleton, hid] at hmem'
    exact hfresh other hother (heq.trans hmem')
  · intro attempt hattempt
    rw [hattempts] at hattempt
    obtain ⟨other, hother, hotherId⟩ := hs.recorded attempt hattempt
    refine ⟨other, ?_, hotherId⟩
    rw [hrows]
    exact List.mem_append_left _ hother
  · intro other hother
    rw [hlast]
    rcases hcases other hother with hold | rfl
    · exact hs.sent other hold
    · simp [hstatus, hnone]
  · intro other hother
    rcases hcases other hother with hold | rfl
    · exact hs.completed other hold
    · simp [hstatus, hcompleted]
  · rw [hattempts]
    exact hs.succeeded

end Start

section Settle

variable {attemptId : Uuid} {completed : Instant} {entry : OutboundSettlement}
  {s s' : Deliveries} {found : Bool}

theorem Deliveries.Sound.settle (hs : s.Sound)
    (hcoherent : entry.toSettlement.Coherent)
    (h : settleOutbound attemptId completed entry s = .ok (found, s')) :
    s'.Sound := by
  rcases settleOutbound_cases h with rfl | ⟨delivery, hselects, hrows, hattempts⟩
  · exact hs
  have hid : ∀ row : OutboundDelivery,
      (if row.id = delivery.id then row.settled entry completed
        else row).id = row.id := by
    intro row
    split_ifs <;> rfl
  have hmore : ∀ attempt ∈ (if entry.attempted then
      [entry.attempt attemptId completed delivery.id] else []),
      entry.attempted = true ∧
        attempt = entry.attempt attemptId completed delivery.id := by
    intro attempt hattempt
    split_ifs at hattempt with hattempted
    · exact ⟨hattempted, List.mem_singleton.mp hattempt⟩
    · exact absurd hattempt List.not_mem_nil
  have hcases : ∀ row ∈ s'.rows, (row ∈ s.rows ∧ row.id ≠ delivery.id) ∨
      row = delivery.settled entry completed := by
    intro row hrow
    rw [hrows] at hrow
    obtain ⟨old, hold, rfl⟩ := List.mem_map.mp hrow
    split_ifs with heq
    · right
      rw [List.inj_on_of_nodup_map hs.distinct hold hselects.mem heq]
    · exact .inl ⟨hold, heq⟩
  constructor
  · rw [hrows, List.map_map]
    have hids : (OutboundDelivery.id ∘ fun row : OutboundDelivery =>
        if row.id = delivery.id then row.settled entry completed else row) =
        OutboundDelivery.id := funext hid
    rw [hids]
    exact hs.distinct
  · intro attempt hattempt
    have hrecorded : ∃ row ∈ s.rows, row.id = attempt.deliveryId := by
      rw [hattempts] at hattempt
      rcases List.mem_append.mp hattempt with hold | hnew
      · exact hs.recorded attempt hold
      · obtain ⟨-, rfl⟩ := hmore attempt hnew
        exact ⟨delivery, hselects.mem, rfl⟩
    obtain ⟨row, hrow, hrowId⟩ := hrecorded
    refine ⟨_, ?_, (hid row).trans hrowId⟩
    rw [hrows]
    exact List.mem_map_of_mem hrow
  · intro row hrow
    rcases hcases row hrow with ⟨hold, hne⟩ | rfl
    · rw [lastAttempt_append hattempts]
      · exact hs.sent row hold
      · intro attempt hattempt heq
        obtain ⟨-, rfl⟩ := hmore attempt hattempt
        exact hne heq.symm
    · -- The settled delivery was pending, so its last attempt had failed.
      by_cases hattempted : entry.attempted = true
      · rw [if_pos hattempted] at hattempts
        have hlast := lastAttempt_concat hattempts
        have hdelivery : (delivery.settled entry completed).id =
            (entry.attempt attemptId completed delivery.id).deliveryId := rfl
        rw [hdelivery, hlast]
        simp only [Option.some.injEq, exists_eq_left', OutboundDelivery.settled,
          OutboundSettlement.attempt, beq_iff_eq]
        cases entry.status <;> simp [SettlementStatus.toOutbound]
      · have hnot : entry.status ≠ .sent := fun hsent =>
          hattempted (hcoherent.attempted hsent)
        rw [if_neg hattempted, List.append_nil] at hattempts
        have hlast : s'.lastAttempt delivery.id = s.lastAttempt delivery.id :=
          lastAttempt_append (hattempts.trans (List.append_nil _).symm)
            (by simp)
        have hpending : delivery.status ≠ .sent := by
          intro hsent
          have := hselects.pending
          rw [hsent] at this
          cases this
        have hfailed := mt (hs.sent delivery hselects.mem).mpr hpending
        constructor
        · intro hsent
          apply absurd _ hnot
          revert hsent
          rw [OutboundDelivery.settled]
          cases entry.status <;> simp [SettlementStatus.toOutbound]
        · intro hsucceeded
          rw [← hlast] at hfailed
          exact absurd hsucceeded hfailed
  · intro row hrow
    rcases hcases row hrow with ⟨hold, -⟩ | rfl
    · exact hs.completed row hold
    · rw [OutboundDelivery.settled]
      cases entry.status <;> simp [SettlementStatus.toOutbound]
  · intro attempt hattempt
    rw [hattempts] at hattempt
    rcases List.mem_append.mp hattempt with hold | hnew
    · exact hs.succeeded attempt hold
    · obtain ⟨-, rfl⟩ := hmore attempt hnew
      simp only [OutboundSettlement.attempt, beq_iff_eq]
      rw [← hcoherent.error, ← Option.isNone_iff_eq_none,
        ← Option.isNone_iff_eq_none, isNone_text]

end Settle

/-! ## Runs -/

theorem DeliveryStep.sound {s s' : Deliveries} (h : DeliveryStep s s')
    (hs : s.Sound) : s'.Sound := by
  cases h with
  | start entry h => exact hs.start h
  | settle attemptId completed entry hentry found h =>
      exact hs.settle hentry.coherent h

theorem DeliveryRun.sound {s s' : Deliveries} (h : DeliveryRun s s')
    (hs : s.Sound) : s'.Sound := by
  induction h with
  | refl => exact hs
  | tail _ hstep ih => exact hstep.sound ih

/-- A step keeps every final delivery and every attempt. -/
theorem DeliveryStep.keeps {s s' : Deliveries} (h : DeliveryStep s s')
    (hs : s.Sound) :
    s.attempts <+: s'.attempts ∧
      ∀ row ∈ s.rows, row.status.pending = false → row ∈ s'.rows := by
  cases h with
  | start entry h =>
      obtain ⟨-, hattempts, row, hrows, -⟩ := recordOutbound_cases h
      refine ⟨hattempts ▸ List.prefix_rfl, fun other hother _ => ?_⟩
      rw [hrows]
      exact List.mem_append_left _ hother
  | settle attemptId completed entry hentry found h =>
      rcases settleOutbound_cases h with
        rfl | ⟨delivery, hselects, hrows, hattempts⟩
      · exact ⟨List.prefix_rfl, fun _ hrow _ => hrow⟩
      · refine ⟨⟨_, hattempts.symm⟩, fun row hrow hfinal => ?_⟩
        rw [hrows]
        refine List.mem_map.mpr ⟨row, hrow, if_neg fun heq => ?_⟩
        obtain rfl := List.inj_on_of_nodup_map hs.distinct hrow hselects.mem heq
        have hpending := hselects.pending
        rw [hfinal] at hpending
        cases hpending

theorem DeliveryRun.keeps {s s' : Deliveries} (h : DeliveryRun s s')
    (hs : s.Sound) :
    s.attempts <+: s'.attempts ∧
      ∀ row ∈ s.rows, row.status.pending = false → row ∈ s'.rows := by
  induction h with
  | refl => exact ⟨List.prefix_rfl, fun _ hrow _ => hrow⟩
  | tail hrun hstep ih =>
      obtain ⟨hattempts, hrows⟩ := hstep.keeps (DeliveryRun.sound hrun hs)
      exact ⟨ih.1.trans hattempts, fun row hrow hfinal =>
        hrows row (ih.2 row hrow hfinal) hfinal⟩

/-- Outbound settlement is a sound state machine. -/
theorem settlement_sound {s : Deliveries} (h : DeliveryRun .empty s) :
    (∀ row ∈ s.rows,
      (row.status = .sent ↔ ∃ attempt, s.lastAttempt row.id = some attempt ∧
        attempt.succeeded = true) ∧
      (row.completed = none ↔ row.status = .queued)) ∧
    (∀ attempt ∈ s.attempts,
      attempt.succeeded = true ↔ attempt.error = none) ∧
    (∀ s', DeliveryRun s s' → s.attempts <+: s'.attempts ∧
      ∀ row ∈ s.rows, row.status.pending = false → row ∈ s'.rows ∧
        ∀ row' ∈ s'.rows, row'.id = row.id → row' = row) ∧
    ∀ attemptId completed entry found s', Settles entry →
      settleOutbound attemptId completed entry s = .ok (found, s') →
      s'.rows.map OutboundDelivery.id = s.rows.map OutboundDelivery.id ∧
      ∃ changed : List OutboundDelivery, changed.length ≤ 1 ∧
        (∀ row ∈ changed, entry.Selects s row) ∧
        (∀ row ∈ s.rows, row ∉ changed → row ∈ s'.rows) ∧
        ∀ attempt ∈ s'.attempts, attempt ∈ s.attempts ∨
          ∃ row ∈ changed, attempt.deliveryId = row.id := by
  have hs := DeliveryRun.sound h Deliveries.Sound.empty
  refine ⟨fun row hrow => ⟨hs.sent row hrow, hs.completed row hrow⟩,
    hs.succeeded, ?_, ?_⟩
  · intro s' hrun
    have hs' := DeliveryRun.sound hrun hs
    obtain ⟨hattempts, hrows⟩ := DeliveryRun.keeps hrun hs
    refine ⟨hattempts, fun row hrow hfinal => ?_⟩
    have hkept := hrows row hrow hfinal
    refine ⟨hkept, fun row' hrow' hid => ?_⟩
    exact List.inj_on_of_nodup_map hs'.distinct hrow' hkept hid
  · intro attemptId completed entry found s' hentry hsettle
    rcases settleOutbound_cases hsettle with
      rfl | ⟨delivery, hselects, hrows, hattempts⟩
    · exact ⟨rfl, [], by simp, by simp, fun _ hrow _ => hrow,
        fun _ hattempt => .inl hattempt⟩
    · refine ⟨?_, [delivery], le_rfl, by simpa using hselects, ?_, ?_⟩
      · rw [hrows, List.map_map]
        apply List.map_congr_left
        intro row _
        rw [Function.comp_apply]
        split_ifs <;> rfl
      · intro row hrow hnot
        rw [hrows]
        refine List.mem_map.mpr ⟨row, hrow, if_neg fun heq => ?_⟩
        apply hnot
        rw [List.inj_on_of_nodup_map hs.distinct hrow hselects.mem heq]
        exact List.mem_singleton_self _
      · intro attempt hattempt
        rw [hattempts] at hattempt
        rcases List.mem_append.mp hattempt with hold | hnew
        · exact .inl hold
        · split_ifs at hnew
          · rw [List.mem_singleton] at hnew
            exact .inr ⟨delivery, List.mem_singleton_self _, by rw [hnew]; rfl⟩
          · exact absurd hnew List.not_mem_nil

/-- A message whose first attempt fails and whose second one is answered. -/
def retriedMessage : OutboxMessage where
  activityId := js "https://local.example/creates/1"
  inbox := js "https://remote.example/inbox"
  deliveryId := some 1

def refusedAttempt : QueuedAttempt :=
  retriedMessage.handle
    [.error (.sendActivityError [] 503 (js "Failed to send.") [])]
    (.returned [] [] [])

def answeredAttempt : QueuedAttempt :=
  retriedMessage.handle []
    (.returned [⟨"activitypub.send_activity",
      [⟨"activitypub.activity.sent", some retriedMessage.inbox⟩]⟩] []
      [⟨retriedMessage.inbox, 202, []⟩])

/-- The settlements that a worker makes of an attempt at a message, one after
the other. -/
def settleQueued (message : OutboxMessage) (attempt : QueuedAttempt)
    (s : Deliveries) : Except ConstraintViolation Deliveries :=
  (queuedSettlements attempt).foldlM (fun s settlement => do
    let settled ← settleOutbound 2 20 ⟨settlement, message.activityId,
      message.inbox, message.deliveryId⟩ s
    return settled.2) s

/-- The delivery of the message after both attempts. -/
def retriedDeliveries : Except ConstraintViolation Deliveries := do
  let s ← recordOutbound
    ⟨1, retriedMessage.activityId, retriedMessage.inbox, 10⟩ .empty
  let s ← settleQueued retriedMessage refusedAttempt s
  settleQueued retriedMessage answeredAttempt s

theorem settleQueued_run {message : OutboxMessage}
    {reported : List OutboxReport} {outcome : HandlerOutcome}
    {s s' : Deliveries}
    (h : settleQueued message (message.handle reported outcome) s = .ok s') :
    DeliveryRun s s' := by
  have hall : ∀ settlements : List Settlement,
      (∀ settlement ∈ settlements, settlement ∈
        queuedSettlements (message.handle reported outcome)) →
      ∀ s, settlements.foldlM (fun s settlement => do
        let settled ← settleOutbound 2 20 ⟨settlement, message.activityId,
          message.inbox, message.deliveryId⟩ s
        return settled.2) s = .ok s' → DeliveryRun s s' := by
    intro settlements
    induction settlements with
    | nil =>
        intro _ s h
        obtain rfl := Except.ok.inj h
        exact .refl
    | cons settlement rest ih =>
        intro hmem s h
        rw [List.foldlM_cons] at h
        cases hsettle : settleOutbound 2 20 ⟨settlement, message.activityId,
            message.inbox, message.deliveryId⟩ s with
        | error violation =>
            rw [hsettle] at h
            cases h
        | ok settled =>
            rw [hsettle] at h
            have hsettles := Settles.queued message reported outcome settlement
              (hmem settlement List.mem_cons_self)
            exact .head (.settle 2 20 _ hsettles settled.1 hsettle)
              (ih (fun other hother => hmem other (List.mem_cons_of_mem _ hother))
                settled.2 h)
  exact hall _ (fun _ h => h) s h

theorem settlement_sound_retried :
    ∃ s, retriedDeliveries = .ok s ∧ s.attempts.length = 2 ∧
      s.rows.length = 1 ∧ ∀ row ∈ s.rows, row.status = .sent ∧
        (∃ attempt, s.lastAttempt row.id = some attempt ∧
          attempt.succeeded = true) ∧
        ∀ s', DeliveryRun s s' → row ∈ s'.rows := by
  cases h : retriedDeliveries with
  | error violation =>
      have hok : retriedDeliveries.toBool = true := by decide +kernel
      rw [h] at hok
      cases hok
  | ok s =>
      have hresult : (retriedDeliveries.toOption.any fun s =>
          s.attempts.length == 2 && (s.rows.length == 1 &&
            s.rows.all fun row => row.status == .sent)) = true := by
        decide +kernel
      rw [h] at hresult
      simp only [Except.toOption, Option.any_some, Bool.and_eq_true,
        beq_iff_eq, List.all_eq_true] at hresult
      have hrun : DeliveryRun .empty s := by
        unfold retriedDeliveries at h
        cases hstart : recordOutbound ⟨1, retriedMessage.activityId,
            retriedMessage.inbox, 10⟩ .empty with
        | error violation =>
            rw [hstart] at h
            cases h
        | ok started =>
            rw [hstart] at h
            cases hrefused : settleQueued retriedMessage refusedAttempt
                started with
            | error violation =>
                simp only [hrefused, bind, Except.bind] at h
                cases h
            | ok refused =>
                simp only [hrefused, bind, Except.bind] at h
                exact .head (.start _ hstart)
                  ((settleQueued_run hrefused).trans (settleQueued_run h))
      refine ⟨s, rfl, hresult.1, hresult.2.1, fun row hrow => ?_⟩
      have hsent := hresult.2.2 row hrow
      have hfinal : row.status.pending = false := by rw [hsent]; rfl
      obtain ⟨hrows, -, hruns, -⟩ := settlement_sound hrun
      exact ⟨hsent, (hrows row hrow).1.mp hsent, fun s' hrun' =>
        ((hruns s' hrun').2 row hrow hfinal).1⟩

end DrFed.Delivery
