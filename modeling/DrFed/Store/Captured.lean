import DrFed.Store.Append
import DrFed.Store.Capture

/-!
# What a capture does

The tables after a capture that succeeds, and that a capture from a sound
state is never refused by a guard.
-/

namespace DrFed.Store

open Transactions Program

section Captured

variable {t : Tables}

/-- The revisions that a first capture inserts. -/
def capturedRevisions (legacy : LegacyState) (resourceId : Uuid)
    (backfilled : Bool) (firstId whiteoutId : Uuid) : List ResourceRevision :=
  legacy.firstRevision resourceId firstId backfilled ::
    (legacy.deleted.map
      (legacy.whiteoutRevision resourceId whiteoutId backfilled)).toList

/-- The tables after a first capture. -/
def captured (t : Tables) (legacy : LegacyState) (resourceId : Uuid)
    (backfilled : Bool) (firstId whiteoutId : Uuid) : Tables :=
  let revisions :=
    capturedRevisions legacy resourceId backfilled firstId whiteoutId
  { t with
    revisions := t.revisions ++ revisions
    revisionAddressing := t.revisionAddressing ++
      revisions.flatMap fun row =>
        (t.declaredAddressing resourceId).map (RevisionAddressing.mk row.id)
    heads := t.heads ++
      [⟨resourceId, if legacy.deleted.isSome then whiteoutId else firstId⟩] }

/-- The conditions under which a first capture inserts its revisions. -/
structure Capturable (t : Tables) (legacy : LegacyState)
    (resourceId : Uuid) : Prop where
  resource : ∃ row, t.resource? resourceId = some row ∧
    (row.kind = .object ∨ row.kind = .activity ∧ legacy.deleted = none)
  state : ∃ kind, t.legacyState kind resourceId = some legacy
  bare : t.historyOf resourceId = []

theorem Capturable.current (h : Chained t) {legacy : LegacyState}
    {resourceId : Uuid} (hcapture : Capturable t legacy resourceId) :
    t.current resourceId = none := by
  cases hcurrent : t.current resourceId with
  | none => rfl
  | some row =>
      have hmem := (h.current.mp hcurrent).2
      rw [hcapture.bare] at hmem
      cases hmem

/-- Publishing the revisions of a first capture. -/
theorem publishCapture_ensures (h : Chained t) {resourceId firstId : Uuid}
    {rows : List ResourceRevision} {last : ResourceRevision}
    (hhistory : t.historyOf resourceId = rows)
    (hlast : rows.getLast? = some last)
    (hcurrent : t.current resourceId = none) :
    (publishCapture resourceId (rows.map ResourceRevision.id) firstId
      last.id).Ensures engine NotGuard t fun _ after =>
        after = { t with
          revisionAddressing := t.revisionAddressing ++ rows.flatMap fun row =>
            (t.declaredAddressing resourceId).map
              (RevisionAddressing.mk row.id)
          heads := t.heads ++ [⟨resourceId, last.id⟩] } := by
  unfold publishCapture
  rw [ensures_bind, ensures_read, ensures_bind, List.flatMap_map]
  refine ensures_insert (fun before other rest hsplit => ?_) fun hinsert => ?_
  · have hother : other ∈ before ++ other :: rest :=
      List.mem_append_right _ List.mem_cons_self
    rw [← hsplit] at hother
    obtain ⟨row, hrow, hmem⟩ := List.mem_flatMap.mp hother
    obtain ⟨occurrence, -, rfl⟩ := List.mem_map.mp hmem
    rw [← hhistory, mem_historyOf] at hrow
    have hopen : guardProjectionInsert t "revision_addressing" row.id = none := by
      refine guardProjectionInsert_eq_none.mpr
        ⟨row, h.revision?.mpr ⟨hrow.1, rfl⟩, ?_⟩
      rw [hrow.2, hcurrent]
      exact ((h.numbered resourceId).number_bounds
        (mem_historyOf.mpr hrow)).1
    exact hopen
  · have hlastMem : last ∈ t.historyOf resourceId := by
      rw [hhistory]
      exact List.mem_of_getLast? hlast
    obtain ⟨hlastRow, rfl⟩ := mem_historyOf.mp hlastMem
    rw [ensures_bind]
    refine ensures_insert_one (guardResourceHead_eq_none.mpr ?_) fun _ => rfl
    have hpublish : Publishable t none ⟨last.resourceId, last.id⟩ :=
      publishable_of_last h (by rw [hhistory, hlast])
        (fun _ hnone => nomatch hnone)
        fun previous hprevious => by
          rw [hcurrent] at hprevious
          cases hprevious
    exact ⟨hpublish.resource, hpublish.names⟩

/-- The insert guard lets the first captured revision through. -/
theorem appendable_firstRevision (h : Chained t) {legacy : LegacyState}
    {resourceId : Uuid} (hcapture : Capturable t legacy resourceId)
    (id : Uuid) (backfilled : Bool) :
    Appendable t (legacy.firstRevision resourceId id backfilled) := by
  have hlatest : t.latest resourceId = none := by
    rw [h.latest, hcapture.bare]
    rfl
  obtain ⟨row, hrow, hkind⟩ := hcapture.resource
  refine ⟨⟨row, hrow, hkind.imp_right fun hactivity =>
    ⟨hactivity.1, hlatest⟩⟩, ?_, ?_, ?_⟩
  · exact congrArg (fun previous : Option ResourceRevision =>
      (previous.map ResourceRevision.sequence).getD 0 + 1) hlatest.symm
  · intro previous hprevious
    cases hlatest.symm.trans hprevious
  · intro hwhiteout
    unfold LegacyState.firstRevision LegacyState.expectedKind at hwhiteout
    dsimp only at hwhiteout
    split at hwhiteout <;> cases hwhiteout

/-- The insert guard lets a whiteout after the first captured revision
through. -/
theorem appendable_whiteoutRevision (h : Chained t) {legacy : LegacyState}
    {resourceId : Uuid} {first : ResourceRevision} {deleted : Instant}
    (hhistory : t.historyOf resourceId = [first])
    (hfirst : first.sequence = 1) (hkind : first.kind ≠ .whiteout)
    (hresource : ∃ row, t.resource? resourceId = some row ∧
      row.kind = .object) (id : Uuid) (backfilled : Bool) :
    Appendable t
      (legacy.whiteoutRevision resourceId id backfilled deleted) := by
  have hlatest : t.latest resourceId = some first := by
    rw [h.latest, hhistory]
    rfl
  obtain ⟨row, hrow, hobject⟩ := hresource
  refine ⟨⟨row, hrow, .inl hobject⟩, ?_, ?_, ?_⟩
  · have hnext : 2 =
        ((t.latest resourceId).map ResourceRevision.sequence).getD 0 + 1 := by
      rw [hlatest, Option.map_some, Option.getD_some, hfirst]
    exact hnext
  · intro previous hprevious
    obtain rfl := Option.some.inj (hlatest.symm.trans hprevious)
    exact hkind
  · intro _ hnone
    cases hlatest.symm.trans hnone

theorem firstRevision_kind (legacy : LegacyState) (resourceId id : Uuid)
    (backfilled : Bool) :
    (legacy.firstRevision resourceId id backfilled).kind ≠ .whiteout := by
  unfold LegacyState.firstRevision LegacyState.expectedKind
  dsimp only
  split <;> simp

/-- A first capture is never refused by a guard, and it has the described
effect when it returns. -/
theorem insertCapture_ensures (h : Sound t) {legacy : LegacyState}
    {resourceId : Uuid} (hcapture : Capturable t legacy resourceId)
    (backfilled : Bool) (firstId whiteoutId : Uuid) :
    (insertCapture resourceId legacy backfilled firstId whiteoutId).Ensures
      engine NotGuard t fun _ after =>
        after = captured t legacy resourceId backfilled firstId whiteoutId := by
  have hcurrent := hcapture.current h.toChained
  unfold insertCapture
  rw [ensures_bind]
  refine ensures_insert_one (guardRevisionInsert_eq_none.mpr
    (appendable_firstRevision h.toChained hcapture firstId backfilled))
    fun hinsert => ?_
  let first := legacy.firstRevision resourceId firstId backfilled
  let inserted : Tables := { t with revisions := t.revisions ++ [first] }
  have hinserted : Chained inserted :=
    (rowSteps_grows h (insertRows_rowSteps hinsert)).1
  have hhistory : inserted.historyOf resourceId = [first] := by
    rw [historyOf_concat, hcapture.bare, List.nil_append]
    exact if_pos rfl
  have hnone : inserted.current resourceId = none :=
    (h.current_insertRevision hinserted resourceId).trans hcurrent
  unfold captured capturedRevisions
  cases hdeleted : legacy.deleted with
  | none =>
      refine (publishCapture_ensures hinserted hhistory rfl hnone).weaken ?_
      rintro _ _ rfl
      rfl
  | some deleted =>
      dsimp only
      rw [ensures_bind]
      obtain ⟨row, hrow, hkind⟩ := hcapture.resource
      have hobject : row.kind = .object := by
        rcases hkind with hkind | ⟨-, hnot⟩
        · exact hkind
        · rw [hnot] at hdeleted
          cases hdeleted
      refine ensures_insert_one (guardRevisionInsert_eq_none.mpr
        (appendable_whiteoutRevision hinserted hhistory rfl
          (firstRevision_kind legacy resourceId firstId backfilled) ⟨row, hrow, hobject⟩ whiteoutId backfilled))
        fun hinsertWhiteout => ?_
      let whiteout :=
        legacy.whiteoutRevision resourceId whiteoutId backfilled deleted
      let both : Tables :=
        { t with revisions := t.revisions ++ [first] ++ [whiteout] }
      have hboth : Chained both :=
        (rowSteps_grows h ((insertRows_rowSteps hinsert).trans
          (insertRows_rowSteps hinsertWhiteout))).1
      have hbothHistory : both.historyOf resourceId = [first, whiteout] := by
        have hconcat : both.historyOf resourceId =
            inserted.historyOf resourceId ++
              if whiteout.resourceId = resourceId then [whiteout] else [] :=
          historyOf_concat (t := inserted) whiteout
        rw [hconcat, hhistory]
        exact congrArg ([first] ++ ·) (if_pos rfl)
      have hbothNone : both.current resourceId = none :=
        (hinserted.current_insertRevision hboth resourceId).trans hnone
      refine (publishCapture_ensures hboth hbothHistory rfl hbothNone).weaken ?_
      rintro _ _ rfl
      simp only [both, List.append_assoc]
      rfl

/-- A capture from a sound state is never refused by a guard; when it returns
it left everything as it was, or captured a resource without revisions. -/
theorem captureLegacyResource_ensures (h : Sound t) (resourceId : Uuid)
    (backfilled : Bool) (firstId whiteoutId : Uuid) :
    (captureLegacyResource resourceId backfilled firstId whiteoutId).Ensures
      engine NotGuard t fun _ after =>
        after = t ∨ ∃ legacy, Capturable t legacy resourceId ∧
          after = captured t legacy resourceId backfilled firstId
            whiteoutId := by
  have hrefuse : ∀ {α : Type} {Q : α → Tables → Prop},
      (refuseCapture resourceId : Tx α).Ensures engine NotGuard t Q :=
    notGuard_revision _
  unfold captureLegacyResource
  rw [ensures_bind, ensures_locked]
  cases hresource : t.resource? resourceId with
  | none => exact hrefuse
  | some resource =>
      dsimp only
      split
      next => exact hrefuse
      next hkind =>
        rw [ensures_bind, ensures_read]
        cases hlegacy : t.legacyState resource.kind resourceId with
        | none => exact hrefuse
        | some legacy =>
            dsimp only
            rw [ensures_bind, ensures_read, ensures_bind, ensures_read]
            split
            next first current _ _ =>
              unfold compareCapture
              rw [ensures_bind, ensures_read]
              split
              next => exact hrefuse
              next =>
                rw [ensures_bind, ensures_read]
                split
                next => exact hrefuse
                next => exact .inl rfl
            next =>
              rw [ensures_bind, ensures_read]
              split
              next => exact hrefuse
              next hbare =>
                have hcapture : Capturable t legacy resourceId := by
                  refine ⟨⟨resource, hresource, ?_⟩, ⟨_, hlegacy⟩, ?_⟩
                  · rcases Decidable.or_iff_not_not_and_not.mpr hkind with
                      hobject | hactivity
                    · exact .inl hobject
                    · refine .inr ⟨hactivity, ?_⟩
                      rw [hactivity] at hlegacy
                      obtain ⟨stored, -, hauthor⟩ :=
                        Option.bind_eq_some_iff.mp hlegacy
                      obtain ⟨author, -, rfl⟩ :=
                        Option.map_eq_some_iff.mp hauthor
                      rfl
                  · simpa using hbare
                refine (insertCapture_ensures h hcapture backfilled firstId
                  whiteoutId).weaken fun _ after hafter =>
                    .inr ⟨legacy, hcapture, hafter⟩
            next => exact hrefuse

/-! ## The state after a capture -/

variable {legacy : LegacyState} {resourceId firstId whiteoutId : Uuid}
  {backfilled : Bool}

theorem capturedRevisions_resourceId :
    ∀ row ∈ capturedRevisions legacy resourceId backfilled firstId whiteoutId,
      row.resourceId = resourceId := by
  intro row hrow
  rcases List.mem_cons.mp hrow with rfl | hrow
  · rfl
  · rw [Option.mem_toList, Option.map_eq_some_iff] at hrow
    obtain ⟨deleted, -, rfl⟩ := hrow
    rfl

theorem historyOf_captured (r : Uuid) :
    (captured t legacy resourceId backfilled firstId whiteoutId).historyOf r =
      t.historyOf r ++ if r = resourceId then
        capturedRevisions legacy resourceId backfilled firstId whiteoutId
      else [] := by
  have happend : (captured t legacy resourceId backfilled firstId
      whiteoutId).historyOf r = t.historyOf r ++
        (capturedRevisions legacy resourceId backfilled firstId
          whiteoutId).filter fun row => row.resourceId == r :=
    List.filter_append ..
  rw [happend]
  congr 1
  split
  next h =>
    subst h
    refine List.filter_eq_self.mpr fun row hrow => ?_
    rw [capturedRevisions_resourceId row hrow]
    exact beq_self_eq_true r
  next h =>
    refine List.filter_eq_nil_iff.mpr fun row hrow => ?_
    rw [capturedRevisions_resourceId row hrow, beq_iff_eq]
    exact fun heq => h heq.symm

/-- The last revision of a capture is the one that its head names. -/
theorem capturedRevisions_last : ∃ last,
    (capturedRevisions legacy resourceId backfilled firstId
      whiteoutId).getLast? = some last ∧
    last.id = if legacy.deleted.isSome then whiteoutId else firstId := by
  unfold capturedRevisions
  cases legacy.deleted with
  | none => exact ⟨_, rfl, rfl⟩
  | some deleted => exact ⟨_, rfl, rfl⟩

theorem current_captured (hcapture : Capturable t legacy resourceId)
    (hafter : Chained
      (captured t legacy resourceId backfilled firstId whiteoutId)) :
    (captured t legacy resourceId backfilled firstId whiteoutId).current
        resourceId =
      (capturedRevisions legacy resourceId backfilled firstId
        whiteoutId).getLast? := by
  obtain ⟨last, hlast, hid⟩ := @capturedRevisions_last legacy resourceId
    firstId whiteoutId backfilled
  rw [hlast]
  refine hafter.current.mpr ⟨?_, ?_⟩
  · rw [hid]
    exact List.mem_append_right _ List.mem_cons_self
  · rw [historyOf_captured, hcapture.bare, if_pos rfl, List.nil_append]
    exact List.mem_of_getLast? hlast

theorem unpublished_captured (h : Chained t)
    (hcapture : Capturable t legacy resourceId)
    (hafter : Chained
      (captured t legacy resourceId backfilled firstId whiteoutId)) :
    t.unpublished
      (captured t legacy resourceId backfilled firstId whiteoutId) = [] := by
  have hcurrent := current_captured hcapture hafter
  obtain ⟨last, hlast, -⟩ := @capturedRevisions_last legacy resourceId
    firstId whiteoutId backfilled
  rw [hlast] at hcurrent
  refine List.filter_eq_nil_iff.mpr fun other hother => ?_
  rcases List.mem_append.mp hother with hold | hnew
  · rw [h.revision?.mpr ⟨hold, rfl⟩]
    simp
  · have hresource := capturedRevisions_resourceId other hnew
    have hhistory : (captured t legacy resourceId backfilled firstId
        whiteoutId).historyOf resourceId =
        capturedRevisions legacy resourceId backfilled firstId whiteoutId := by
      rw [historyOf_captured, hcapture.bare, if_pos rfl, List.nil_append]
    have hnumbered := hafter.numbered resourceId
    have hbounds := hnumbered.number_bounds
      (mem_historyOf.mpr ⟨hother, hresource⟩)
    have hnumber := hnumbered.number_getLast? (by rw [hhistory, hlast])
    have hpublished : requirePublished (captured t legacy resourceId backfilled
        firstId whiteoutId) other = none := by
      refine requirePublished_eq_none.mpr ⟨last, ?_, ?_⟩
      · rw [hresource, hcurrent]
      · rw [hnumber]
        exact hbounds.2
    simp [hpublished]

/-- What a capture leaves when it returns. -/
theorem captureLegacyResource_spec (h : Sound t) {after : Tables}
    {value : Uuid}
    (hrun : (captureLegacyResource resourceId backfilled firstId
      whiteoutId).run engine t = .ok (value, after)) :
    (after = t ∨ ∃ legacy, Capturable t legacy resourceId ∧
      after = captured t legacy resourceId backfilled firstId whiteoutId) ∧
      Sound after ∧ Grows t after ∧ t.commit after = .ok after := by
  have hcases := ensures_of_run (captureLegacyResource_ensures h resourceId
    backfilled firstId whiteoutId) hrun
  obtain ⟨hchained, hgrows⟩ := rowSteps_grows h (rowSteps_of_run hrun)
  have hunpublished : t.unpublished after = [] := by
    rcases hcases with rfl | ⟨legacy, hcapture, rfl⟩
    · refine List.filter_eq_nil_iff.mpr fun row hrow => ?_
      rw [h.revision?.mpr ⟨hrow, rfl⟩]
      simp
    · exact unpublished_captured h.toChained hcapture hchained
  refine ⟨hcases, hgrows.sound h hchained hunpublished, hgrows, ?_⟩
  rw [Tables.commit, hunpublished]
  rfl

end Captured

end DrFed.Store
