import DrFed.Store.Captured
import DrFed.Store.Typed

/-!
# Runs of the writers

The revision history over any sequence of calls of its three writers, each a
transaction of its own that commits or leaves nothing.
-/

namespace DrFed.Store

open Transactions Program

/-! ## Calls -/

/-- A program run as one transaction: the state it commits, or the state
before it. -/
def transact {α : Type} (p : Tx α) (t : Tables) : Tables :=
  match p.run engine t with
  | .error _ => t
  | .ok (_, after) =>
      match t.commit after with
      | .error _ => t
      | .ok committed => committed

/-- A call of a writer, with the ids and the time that it draws. -/
inductive Call where
  | append (input : AppendResourceRevisionInput) (id : Uuid) (now : Instant)
  | writeTyped (input : TypedResourceRevisionInput) (ids : FreshIds)
      (id : Uuid) (now : Instant)
  | capture (resourceId : Uuid) (backfilled : Bool)
      (firstId whiteoutId : Uuid)

def Call.perform (t : Tables) : Call → Tables
  | .append input id now => transact (appendResourceRevision input id now) t
  | .writeTyped input ids id now =>
      transact (writeTypedResourceRevision input ids id now) t
  | .capture resourceId backfilled firstId whiteoutId =>
      transact (captureLegacyResource resourceId backfilled firstId whiteoutId)
        t

def performAll (t : Tables) (calls : List Call) : Tables :=
  calls.foldl Call.perform t

/-! ## The invariant of the writers -/

/-- The invariant that the writers keep, beyond what the guards do: the kinds
of resources with revisions, and that whiteouts inherit projections. -/
structure Recorded (t : Tables) : Prop extends Sound t where
  kinds : ∀ row ∈ t.revisions, ∃ resource,
    t.resource? row.resourceId = some resource ∧
      (resource.kind = .object ∨ resource.kind = .activity ∧
        (t.historyOf row.resourceId).length = 1)
  inherits : ∀ row ∈ t.revisions, row.kind = .whiteout →
    ∀ previous ∈ t.historyOf row.resourceId,
      previous.sequence + 1 = row.sequence →
        t.addressingOf row.id = t.addressingOf previous.id ∧
          t.relationsOf row.id = t.relationsOf previous.id

section Recorded

variable {t after : Tables}

/-- Whiteouts that existed before a transaction still inherit. -/
theorem Recorded.inherits_grows (h : Recorded t) (hafter : Sound after)
    (hgrows : Grows t after) {row previous : ResourceRevision}
    (hrow : row ∈ t.revisions) (hkind : row.kind = .whiteout)
    (hprevious : previous ∈ after.historyOf row.resourceId)
    (hsequence : previous.sequence + 1 = row.sequence) :
    after.addressingOf row.id = after.addressingOf previous.id ∧
      after.relationsOf row.id = after.relationsOf previous.id := by
  -- The predecessor is older than the whiteout, so it existed as well.
  have hold : previous ∈ t.revisions := by
    have hmem : row ∈ t.historyOf row.resourceId := mem_historyOf.mpr ⟨hrow, rfl⟩
    have hbounds := (h.numbered row.resourceId).number_bounds hmem
    have hpositive := ((hafter.numbered row.resourceId).number_bounds
      hprevious).1
    have hnumbered := h.numbered row.resourceId
    have hin : previous.sequence ∈
        (t.historyOf row.resourceId).map ResourceRevision.sequence := by
      rw [hnumbered, List.mem_range'_1]
      omega
    obtain ⟨other, hother, heq⟩ := List.mem_map.mp hin
    obtain ⟨hotherRow, hresource⟩ := mem_historyOf.mp hother
    have hotherAfter : other ∈ after.historyOf row.resourceId :=
      mem_historyOf.mpr ⟨hgrows.mem hotherRow, hresource⟩
    rw [(hafter.numbered row.resourceId).eq_of_number hprevious hotherAfter
      heq.symm]
    exact hotherRow
  have hresource := (mem_historyOf.mp hprevious).2
  obtain ⟨haddressing, hrelations⟩ := h.inherits row hrow hkind previous
    (mem_historyOf.mpr ⟨hold, hresource⟩) hsequence
  rw [hgrows.addressing row hrow, hgrows.addressing previous hold,
    hgrows.relations row hrow, hgrows.relations previous hold]
  exact ⟨haddressing, hrelations⟩

/-- Resources with revisions keep their kinds when new ones are registered and
typed rows change. -/
theorem Recorded.same (h : Recorded t) (hafter : Sound after)
    (hrevisions : after.revisions = t.revisions)
    (haddressing : after.revisionAddressing = t.revisionAddressing)
    (hrelations : after.revisionRelations = t.revisionRelations)
    (hresources : ∀ id row, t.resource? id = some row →
      after.resource? id = some row) : Recorded after := by
  refine ⟨hafter, fun row hrow => ?_, ?_⟩
  · rw [hrevisions] at hrow
    obtain ⟨resource, hresource, hkind⟩ := h.kinds row hrow
    refine ⟨resource, hresources _ _ hresource, ?_⟩
    simpa only [Tables.historyOf, hrevisions] using hkind
  · simp only [Tables.historyOf, Tables.addressingOf, Tables.relationsOf,
      hrevisions, haddressing, hrelations]
    exact h.inherits

/-- Promotion only touches resources that have no revisions. -/
theorem resource?_promoted_of_known {resource row : Resource}
    {kind : ResourceKind} {id other : Uuid}
    (hresource : t.resource? id = some resource)
    (hrow : t.resource? other = some row) (hknown : row.kind ≠ .unknown) :
    (promoted t resource kind).resource? other = some row := by
  have hid : resource.id = id := by
    have hfound := List.find?_some hresource
    exact eq_of_beq hfound
  unfold promoted
  split
  next hunknown =>
    have hne : row.id ≠ resource.id := by
      intro heq
      have hrowId := List.find?_some hrow
      rw [beq_iff_eq] at hrowId
      rw [← hrowId, heq, hid, hresource] at hrow
      exact hknown (Option.some.inj hrow ▸ hunknown)
    simp only [Statement.effect, Tables.resource?, List.find?_map]
    have hsame : ((fun row : Resource => row.id == other) ∘ fun row =>
        if row.id = resource.id then { row with kind } else row) =
        fun row => row.id == other := by
      funext row
      simp only [Function.comp]
      split <;> rfl
    rw [hsame, show t.resources.find? (fun row => row.id == other) = some row
      from hrow, Option.map_some, if_neg hne]
  next => exact hrow

/-- An append keeps the invariant of the writers. -/
theorem Recorded.appended (h : Recorded t) {input : PreparedRevision}
    {typed : Bool} {resource : Resource} {id : Uuid} {now : Instant}
    (htarget : Targetable t input typed resource)
    (hwhiteout : input.kind = .whiteout →
      input.addressing = [] ∧ input.relations = [])
    (hafter : Sound (appended t input resource id now))
    (hgrows : Grows t (appended t input resource id now)) :
    Recorded (appended t input resource id now) := by
  obtain ⟨-, hkind, hactivity, -, hinitial⟩ :=
    checkTarget_eq_none htarget.accepts
  have hpromoted := h.promoted resource input.resourceKind.resourceKind
  refine ⟨hafter, fun row hrow => ?_, fun row hrow hrowKind previous
    hprevious hsequence => ?_⟩
  · by_cases hresource : input.resourceId = row.resourceId
    · obtain ⟨target, hfound, htargetKind⟩ :=
        resource?_promoted (t := t) htarget.registered hkind
      rw [hresource] at hfound
      refine ⟨target, hfound, ?_⟩
      rw [htargetKind]
      by_cases hinput : input.resourceKind = .activity
      · refine .inr ⟨by rw [hinput]; rfl, ?_⟩
        have hnone := hactivity hinput
        rw [h.published, List.getLast?_eq_none_iff] at hnone
        rw [historyOf_appended, ← hresource, hnone, if_pos rfl]
        rfl
      · left
        cases hk : input.resourceKind with
        | object => rfl
        | activity => exact absurd hk hinput
    · have hold : row ∈ t.revisions := by
        have hmem : row ∈ (Store.appended t input resource id
            now).historyOf row.resourceId := mem_historyOf.mpr ⟨hrow, rfl⟩
        rw [historyOf_appended, if_neg hresource, List.append_nil] at hmem
        exact (mem_historyOf.mp hmem).1
      obtain ⟨target, hfound, htargetKind⟩ := h.kinds row hold
      refine ⟨target, resource?_promoted_of_known htarget.registered hfound ?_,
        ?_⟩
      · rcases htargetKind with hk | ⟨hk, -⟩ <;> rw [hk] <;> simp
      · rw [historyOf_appended, if_neg hresource, List.append_nil]
        exact htargetKind
  · have hmem : row ∈ (Store.appended t input resource id now).historyOf
        row.resourceId := mem_historyOf.mpr ⟨hrow, rfl⟩
    rw [historyOf_appended, List.mem_append] at hmem
    rcases hmem with hold | hnew
    · exact h.inherits_grows hafter hgrows (mem_historyOf.mp hold).1 hrowKind
        hprevious hsequence
    · have hresource : input.resourceId = row.resourceId := by
        by_contra hne
        rw [if_neg hne] at hnew
        cases hnew
      rw [if_pos hresource] at hnew
      obtain rfl := List.mem_singleton.mp hnew
      obtain ⟨haddressing, hrelations⟩ := hwhiteout hrowKind
      cases hcurrent : t.current input.resourceId with
      | none => exact absurd hcurrent (hinitial hrowKind)
      | some current =>
          obtain ⟨-, hmem⟩ := h.current.mp hcurrent
          obtain ⟨hrow', hcurrentResource⟩ := mem_historyOf.mp hmem
          have hcurrentAfter : current ∈ (Store.appended t input resource id
              now).historyOf input.resourceId :=
            mem_historyOf.mpr ⟨hgrows.mem hrow', hcurrentResource⟩
          have hnumber : previous.sequence = current.sequence := by
            have hnext : previous.sequence + 1 = current.sequence + 1 := by
              rw [hsequence, revisionRow, hcurrent]
              rfl
            omega
          obtain rfl := (hafter.numbered input.resourceId).eq_of_number
            hprevious hcurrentAfter hnumber
          have hinherited : inheritedRows (promoted t resource
              input.resourceKind.resourceKind) input =
              (t.addressingOf previous.id, t.relationsOf previous.id) := by
            unfold inheritedRows
            rw [promoted_current, hcurrent, show input.kind = .whiteout
              from hrowKind]
            simp only [Tables.addressingOf, Tables.relationsOf,
              promoted_addressing, promoted_relations]
          rw [hgrows.addressing previous hrow', hgrows.relations previous hrow']
          constructor
          · refine (addressingOf_withRevision hpromoted.toChained
              hafter.toChained).trans ?_
            rw [haddressing, hinherited, List.nil_append]
          · refine (relationsOf_withRevision hpromoted.toChained
              hafter.toChained).trans ?_
            rw [hrelations, hinherited, List.nil_append]

/-- The projections of captured revisions: the declared addressing, and no
relations. -/
theorem addressingOf_captured (h : Sound t) {legacy : LegacyState}
    {resourceId firstId whiteoutId : Uuid} {backfilled : Bool}
    (hafter : Chained
      (captured t legacy resourceId backfilled firstId whiteoutId))
    {row : ResourceRevision}
    (hrow : row ∈
      capturedRevisions legacy resourceId backfilled firstId whiteoutId) :
    (captured t legacy resourceId backfilled firstId
        whiteoutId).addressingOf row.id = t.declaredAddressing resourceId ∧
      (captured t legacy resourceId backfilled firstId
        whiteoutId).relationsOf row.id = [] := by
  have hids := hafter.ids
  simp only [captured, List.map_append] at hids
  obtain ⟨-, hdistinct, hdisjoint⟩ := List.nodup_append.mp hids
  have hnew : ∀ other ∈ t.revisions, other.id ≠ row.id := fun other hother =>
    hdisjoint _ (List.mem_map_of_mem hother) _ (List.mem_map_of_mem hrow)
  refine ⟨?_, h.relationsOf_new hnew⟩
  have hnone := h.addressingOf_new hnew
  rw [Tables.addressingOf] at hnone ⊢
  rw [captured, List.filter_append, List.map_append, hnone, List.nil_append]
  unfold capturedRevisions at hrow hdistinct ⊢
  cases hdeleted : legacy.deleted with
  | none =>
      rw [hdeleted] at hrow
      obtain rfl := List.mem_singleton.mp hrow
      simp only [Option.map_none, Option.toList_none, List.flatMap_cons,
        List.flatMap_nil, List.append_nil]
      rw [filter_map_addressing, if_pos rfl]
  | some deleted =>
      rw [hdeleted] at hrow hdistinct
      simp only [Option.map_some, Option.toList_some, List.map_cons,
        List.map_nil, List.nodup_cons, List.mem_singleton] at hdistinct
      simp only [Option.map_some, Option.toList_some, List.flatMap_cons,
        List.flatMap_nil, List.append_nil, List.filter_append,
        List.map_append, filter_map_addressing]
      rcases List.mem_cons.mp hrow with rfl | hrow
      · rw [if_pos rfl, if_neg fun heq => hdistinct.1 heq.symm,
          List.append_nil]
      · obtain rfl := List.mem_singleton.mp hrow
        rw [if_neg hdistinct.1, if_pos rfl, List.nil_append]

/-- A capture keeps the invariant of the writers. -/
theorem Recorded.captured (h : Recorded t) {legacy : LegacyState}
    {resourceId firstId whiteoutId : Uuid} {backfilled : Bool}
    (hcapture : Capturable t legacy resourceId)
    (hafter : Sound
      (captured t legacy resourceId backfilled firstId whiteoutId))
    (hgrows : Grows t
      (captured t legacy resourceId backfilled firstId whiteoutId)) :
    Recorded (captured t legacy resourceId backfilled firstId whiteoutId) := by
  have hprojections {row : ResourceRevision} (hrow : row ∈
      capturedRevisions legacy resourceId backfilled firstId whiteoutId) :=
    addressingOf_captured h.toSound hafter.toChained hrow
  refine ⟨hafter, fun row hrow => ?_, fun row hrow hkind previous hprevious
    hsequence => ?_⟩
  · rcases List.mem_append.mp hrow with hold | hnew
    · obtain ⟨target, hfound, hkind⟩ := h.kinds row hold
      refine ⟨target, hfound, ?_⟩
      have hne : row.resourceId ≠ resourceId := by
        intro heq
        have hmem : row ∈ t.historyOf resourceId :=
          mem_historyOf.mpr ⟨hold, heq⟩
        rw [hcapture.bare] at hmem
        cases hmem
      rw [historyOf_captured, if_neg hne, List.append_nil]
      exact hkind
    · have hresource := capturedRevisions_resourceId row hnew
      obtain ⟨target, hfound, hkind⟩ := hcapture.resource
      rw [← hresource] at hfound
      refine ⟨target, hfound, hkind.imp_right fun hactivity => ⟨hactivity.1,
        ?_⟩⟩
      rw [hresource, historyOf_captured, if_pos rfl, hcapture.bare,
        capturedRevisions, hactivity.2]
      rfl
  · rcases List.mem_append.mp hrow with hold | hnew
    · exact h.inherits_grows hafter hgrows hold hkind hprevious hsequence
    · rw [capturedRevisions_resourceId row hnew, historyOf_captured,
        if_pos rfl, hcapture.bare, List.nil_append] at hprevious
      obtain ⟨haddressing, hrelations⟩ := hprojections hnew
      obtain ⟨haddressing', hrelations'⟩ := hprojections hprevious
      rw [haddressing, haddressing', hrelations, hrelations']
      exact ⟨rfl, rfl⟩

/-! ## One call -/

theorem transact_cases {α : Type} {p : Tx α} {Q : Tables → Prop}
    (hleft : Q t) (hcommit : ∀ value after, p.run engine t = .ok (value, after) →
      t.commit after = .ok after → Q after) : Q (transact p t) := by
  unfold transact
  split
  next => exact hleft
  next value after hrun =>
    split
    next => exact hleft
    next committed hcommitted =>
      have heq : committed = after := by
        unfold Tables.commit at hcommitted
        split_ifs at hcommitted
        exact (Except.ok.inj hcommitted).symm
      subst heq
      exact hcommit value committed hrun hcommitted

/-- An append leaves a recorded state recorded and retains it. -/
theorem Recorded.appendPrepared (h : Recorded t) {input : PreparedRevision}
    {typed : Bool} {id : Uuid} {now : Instant}
    {stored : StoredResourceRevision}
    (hwhiteout : input.kind = .whiteout →
      input.addressing = [] ∧ input.relations = [])
    (hrun : (appendPrepared input typed id now).run engine t =
      .ok (stored, after)) : Recorded after ∧ Grows t after := by
  obtain ⟨resource, htarget, rfl, hsound, hgrows, -⟩ :=
    appendPrepared_spec h.toSound hrun
  exact ⟨h.appended htarget hwhiteout hsound hgrows, hgrows⟩

theorem TypedChange.recorded {input : TypedResourceRevisionInput}
    {prepared : PreparedRevision} (hchange : TypedChange t input prepared after)
    (h : Recorded t) : Recorded after := by
  have hsound := hchange.sound h.toSound
  cases hchange with
  | snapshot _ _ _ _ _ extra _ _ _ hextra hafter _ =>
      subst hafter
      refine h.same hsound rfl rfl rfl fun id row hrow => ?_
      have happend : (t.resources ++ extra).find? (fun row => row.id == id) =
          (t.resource? id).or (extra.find? fun row => row.id == id) :=
        List.find?_append
      rw [Tables.resource?, happend, hrow]
      rfl
  | whiteout => exact h.same hsound rfl rfl rfl fun _ _ hrow => hrow

/-- What grows from a state grows from one with the same revision tables. -/
theorem TypedChange.grows {input : TypedResourceRevisionInput}
    {prepared : PreparedRevision} {middle : Tables}
    (hchange : TypedChange t input prepared middle) (h : Grows t after) :
    Grows middle after := by
  cases hchange with
  | snapshot _ _ _ _ _ _ _ _ _ _ hmiddle _ =>
      subst hmiddle
      exact ⟨h.revisions, h.heads, h.addressing, h.relations⟩
  | whiteout => exact ⟨h.revisions, h.heads, h.addressing, h.relations⟩

/-- A call of a writer keeps the invariant and retains every revision. -/
theorem Recorded.perform (h : Recorded t) (call : Call) :
    Recorded (call.perform t) ∧ Retains t (call.perform t) := by
  cases call with
  | append input id now =>
      refine transact_cases (Q := fun after => Recorded after ∧ Retains t after)
        ⟨h, .refl t⟩ fun stored after hrun _ => ?_
      unfold appendResourceRevision at hrun
      split at hrun
      next => cases hrun
      next prepared hprepared =>
        obtain ⟨hrecorded, hgrows⟩ := h.appendPrepared
          (prepareRevision_eq_ok hprepared).whiteout hrun
        exact ⟨hrecorded, hgrows.retains⟩
  | writeTyped input ids id now =>
      refine transact_cases (Q := fun after => Recorded after ∧ Retains t after)
        ⟨h, .refl t⟩ fun stored after hrun hcommit => ?_
      obtain ⟨prepared, head, middle, resource, hprepared, -, hchange,
        htarget, rfl⟩ := ensures_of_run
          (writeTypedResourceRevision_ensures h.toSound input ids id now) hrun
      obtain ⟨hsound, hgrows⟩ :=
        commit_sound h.toSound (rowSteps_of_run hrun) hcommit
      exact ⟨(hchange.recorded h).appended htarget
        (prepareRevision_eq_ok hprepared).whiteout hsound
        (hchange.grows hgrows), hgrows.retains⟩
  | capture resourceId backfilled firstId whiteoutId =>
      refine transact_cases (Q := fun after => Recorded after ∧ Retains t after)
        ⟨h, .refl t⟩ fun value after hrun _ => ?_
      obtain ⟨hcases, hsound, hgrows, -⟩ :=
        captureLegacyResource_spec h.toSound hrun
      refine ⟨?_, hgrows.retains⟩
      rcases hcases with rfl | ⟨legacy, hcapture, rfl⟩
      · exact h
      · exact h.captured hcapture hsound hgrows

end Recorded

/-! ## Runs -/

/-- Moreover, a saved activity has one revision, and whiteouts keep the
projections before them. -/
structure RevisionHistory (t : Tables) : Prop extends PublishedHistory t where
  activity : ∀ r resource, t.resource? r = some resource →
    resource.kind = .activity → (t.historyOf r).length ≤ 1
  inherits : ∀ row ∈ t.revisions, row.kind = .whiteout →
    ∀ previous ∈ t.historyOf row.resourceId,
      previous.sequence + 1 = row.sequence →
        t.addressingOf row.id = t.addressingOf previous.id ∧
          t.relationsOf row.id = t.relationsOf previous.id

theorem Recorded.revisionHistory {t : Tables} (h : Recorded t) :
    RevisionHistory t := by
  refine ⟨h.publishedHistory, fun r resource hresource hkind => ?_,
    h.inherits⟩
  cases hhistory : t.historyOf r with
  | nil => exact Nat.zero_le 1
  | cons row rest =>
      have hmem : row ∈ t.historyOf r := by
        rw [hhistory]
        exact List.mem_cons_self
      obtain ⟨hrow, rfl⟩ := mem_historyOf.mp hmem
      obtain ⟨found, hfound, hobject | ⟨-, hlength⟩⟩ := h.kinds row hrow
      · rw [hresource] at hfound
        obtain rfl := Option.some.inj hfound
        rw [hkind] at hobject
        cases hobject
      · rw [← hhistory, hlength]

theorem Unversioned.recorded {t : Tables} (h : Unversioned t) :
    Recorded t := by
  refine ⟨h.sound, ?_, ?_⟩
  · simp [h.revisions]
  · simp [h.revisions]

theorem Recorded.performAll {t : Tables} (h : Recorded t)
    (calls : List Call) : Recorded (performAll t calls) := by
  induction calls generalizing t with
  | nil => exact h
  | cons call rest ih => exact ih (h.perform call).1

/-- From a state without revisions, every run of the writers keeps the
history, and each call retains what was there before it. -/
theorem performAll_revisionHistory {start : Tables} (h : Unversioned start)
    (calls : List Call) :
    RevisionHistory (performAll start calls) ∧
      ∀ before call after, calls = before ++ call :: after →
        Retains (performAll start before)
          (performAll start (before ++ [call])) := by
  refine ⟨(h.recorded.performAll calls).revisionHistory, ?_⟩
  intro before call after _
  have hlast : Store.performAll start (before ++ [call]) =
      call.perform (Store.performAll start before) := List.foldl_append ..
  rw [hlast]
  exact ((h.recorded.performAll before).perform call).2

/-- A registry with one unknown resource. -/
def oneResource : Tables where
  resources := [⟨1, js "https://local.example/note", .unknown⟩]
  actors := []
  objects := []
  activities := []
  addressing := []
  revisions := []
  heads := []
  revisionAddressing := []
  revisionRelations := []

/-- An object that is created, then refused a second first revision, and
deleted. -/
def noteCalls : List Call :=
  let snapshot : AppendContent :=
    .snapshot (.obj []) .locally none
      (some [⟨js "to", 0, js "https://local.example/actor"⟩]) [] none
  [.append ⟨1, .object, none, snapshot⟩ 10 0,
    .append ⟨1, .object, none, snapshot⟩ 11 1,
    .append ⟨1, .object, some 10, .whiteout 2 [js "Note"]⟩ 12 2]

theorem performAll_revisionHistory_noteCalls :
    (performAll oneResource noteCalls).revisions.map ResourceRevision.id =
        [10, 12] ∧
      RevisionHistory (performAll oneResource noteCalls) :=
  ⟨by decide +kernel,
    (performAll_revisionHistory ⟨rfl, rfl, rfl, rfl⟩ noteCalls).1⟩

end DrFed.Store
