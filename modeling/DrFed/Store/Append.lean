import DrFed.Store.History
import DrFed.Store.Revision

/-!
# What an append does

The tables after an append that succeeds, and that an append from a sound
state is never refused by a guard.
-/

namespace DrFed.Store

open Transactions Program

/-- Any refusal but that of a trigger. -/
def NotGuard (refusal : Refusal) : Prop :=
  ∀ constraint, refusal ≠ .guard constraint

theorem notGuard_revision (error : RevisionError) :
    NotGuard (.revision error) := fun _ h => nomatch h

theorem notGuard_constraint (name : String) :
    NotGuard (.constraint name) := fun _ h => nomatch h

/-! ## Prepared revisions -/

/-- What preparation keeps of the input, and that a whiteout brings no
projections of its own. -/
structure Prepares (input : AppendResourceRevisionInput)
    (prepared : PreparedRevision) : Prop where
  resourceId : prepared.resourceId = input.resourceId
  resourceKind : prepared.resourceKind = input.resourceKind
  expected : prepared.expectedRevisionId = input.expectedRevisionId
  whiteout : prepared.kind = .whiteout →
    prepared.addressing = [] ∧ prepared.relations = []

theorem prepareRevision_eq_ok {input : AppendResourceRevisionInput}
    {prepared : PreparedRevision} (h : prepareRevision input = .ok prepared) :
    Prepares input prepared := by
  unfold prepareRevision at h
  split at h
  next =>
    split at h
    next => cases h
    next =>
      simp only [bind, Except.bind, pure, Except.pure] at h
      split at h
      next => cases h
      next =>
        split at h
        next => cases h
        next =>
          cases h
          exact ⟨rfl, rfl, rfl, fun hkind => nomatch hkind⟩
  next =>
    simp only [bind, Except.bind, pure, Except.pure] at h
    split at h
    next => cases h
    next =>
      cases h
      exact ⟨rfl, rfl, rfl, fun _ => ⟨rfl, rfl⟩⟩

/-! ## Statements that the guards let through -/

section Statements

variable {t : Tables}

/-- Rows that the trigger lets through, each after the ones before it, are
inserted unless a constraint refuses one. -/
theorem insertRows_of_guard {table : RevisionTable} {rows : List (Row table)}
    (h : ∀ before row rest, rows = before ++ row :: rest →
      (t.setRows table (t.rows table ++ before)).insertGuard table row = none) :
    (∃ name, t.insertRows table rows = .error (.constraint name)) ∨
      t.insertRows table rows = .ok (t.setRows table (t.rows table ++ rows)) := by
  induction rows generalizing t with
  | nil =>
      refine .inr ?_
      rw [Tables.insertRows, List.append_nil, setRows_rows]
  | cons row rest ih =>
      have hguard : t.insertGuard table row = none := by
        have hnil := h [] row rest rfl
        rwa [List.append_nil, setRows_rows] at hnil
      rw [Tables.insertRows, Tables.insertRow, hguard]
      dsimp only
      cases hcheck : t.insertCheck table row with
      | some name => exact .inl ⟨name, rfl⟩
      | none =>
          dsimp only
          have hrest : ∀ before other last, rest = before ++ other :: last →
              ((t.setRows table (t.rows table ++ [row])).setRows table
                ((t.setRows table (t.rows table ++ [row])).rows table ++
                  before)).insertGuard table other = none := by
            intro before other last hsplit
            rw [rows_setRows, setRows_setRows, List.append_assoc]
            exact h (row :: before) other last (by rw [hsplit]; rfl)
          rcases ih hrest with ⟨name, hrefused⟩ | hok
          · exact .inl ⟨name, hrefused⟩
          · refine .inr (hok.trans ?_)
            rw [rows_setRows, setRows_setRows, List.append_assoc,
              List.singleton_append]

theorem ensures_insert {table : RevisionTable} {rows : List (Row table)}
    {Q : Unit → Tables → Prop}
    (h : ∀ before row rest, rows = before ++ row :: rest →
      (t.setRows table (t.rows table ++ before)).insertGuard table row = none)
    (hQ : t.insertRows table rows =
        .ok (t.setRows table (t.rows table ++ rows)) →
      Q () (t.setRows table (t.rows table ++ rows))) :
    (send (.insert table rows) : Tx Unit).Ensures engine NotGuard t Q := by
  rw [ensures_send]
  rcases insertRows_of_guard h with ⟨name, hrefused⟩ | hok
  · rw [show engine.execute (.insert table rows) t = t.insertRows table rows
      from rfl, hrefused]
    exact notGuard_constraint name
  · rw [show engine.execute (.insert table rows) t = t.insertRows table rows
      from rfl, hok]
    exact hQ hok

/-- Rows whose change the trigger lets through, whatever was changed before
them, are updated. -/
theorem updateRows_of_guard {table : RevisionTable}
    {matching : Row table → Bool} {assign : Row table → Row table}
    {done rest : List (Row table)}
    (h : ∀ rows, ∀ row ∈ rest, matching row = true →
      (t.setRows table rows).updateGuard table row (assign row) = none) :
    t.updateRows table matching assign done rest =
      .ok (t.setRows table (done ++ rest.map fun row =>
        if matching row then assign row else row)) := by
  induction rest generalizing done with
  | nil => rw [Tables.updateRows, List.map_nil, List.append_nil]
  | cons row rest ih =>
      have hrest := fun rows other hother =>
        h rows other (List.mem_cons_of_mem row hother)
      rw [Tables.updateRows, List.map_cons]
      by_cases hmatch : matching row = true
      · rw [if_pos hmatch, if_pos hmatch, h _ row List.mem_cons_self hmatch]
        dsimp only
        rw [ih hrest, List.append_assoc, List.singleton_append]
      · rw [if_neg hmatch, if_neg hmatch, ih hrest, List.append_assoc,
          List.singleton_append]

theorem ensures_update {table : RevisionTable} {matching : Row table → Bool}
    {assign : Row table → Row table} {Q : Unit → Tables → Prop}
    (h : ∀ rows, ∀ row ∈ t.rows table, matching row = true →
      (t.setRows table rows).updateGuard table row (assign row) = none)
    (hQ : Q () (t.setRows table ((t.rows table).map fun row =>
      if matching row then assign row else row))) :
    (send (.update table matching assign) : Tx Unit).Ensures engine NotGuard t
      Q := by
  rw [ensures_send, show engine.execute (.update table matching assign) t =
    t.updateRows table matching assign [] (t.rows table) from rfl,
    updateRows_of_guard h]
  exact hQ

theorem ensures_insert_one {table : RevisionTable} {row : Row table}
    {Q : Unit → Tables → Prop} (h : t.insertGuard table row = none)
    (hQ : t.insertRows table [row] =
        .ok (t.setRows table (t.rows table ++ [row])) →
      Q () (t.setRows table (t.rows table ++ [row]))) :
    (send (.insert table [row]) : Tx Unit).Ensures engine NotGuard t Q := by
  refine ensures_insert (fun before other rest hsplit => ?_) hQ
  obtain ⟨rfl, rfl, rfl⟩ : before = [] ∧ other = row ∧ rest = [] := by
    cases before with
    | nil => simpa [eq_comm] using hsplit
    | cons head tail => simp at hsplit
  rwa [List.append_nil, setRows_rows]

end Statements

/-! ## The locked target -/

/-- The tables after a resource was promoted, when it was unknown. -/
def promoted (t : Tables) (resource : Resource) (kind : ResourceKind) :
    Tables :=
  if resource.kind = .unknown then (Statement.setKind resource.id kind).effect t
  else t

/-- What a lock establishes: the resource is registered, its head is the
expected one, and it can take the revision. -/
structure Targetable (t : Tables) (input : PreparedRevision) (typed : Bool)
    (resource : Resource) : Prop where
  registered : t.resource? input.resourceId = some resource
  expected : (t.current input.resourceId).map ResourceRevision.id =
    input.expectedRevisionId
  accepts : checkTarget input typed
    ((t.object? input.resourceId).isSome ||
      (t.activity? input.resourceId).isSome) resource
    (t.current input.resourceId) = none

theorem checkTarget_eq_none {input : PreparedRevision} {typed legacy : Bool}
    {resource : Resource} {previous : Option ResourceRevision}
    (h : checkTarget input typed legacy resource previous = none) :
    (typed = false → legacy = false) ∧
      (resource.kind = .unknown ∨
        resource.kind = input.resourceKind.resourceKind) ∧
      (input.resourceKind = .activity → previous = none) ∧
      (∀ row, previous = some row → row.kind ≠ .whiteout) ∧
      (input.kind = .whiteout → previous ≠ none) := by
  unfold checkTarget at h
  split_ifs at h with hlegacy hkind hactivity hdeleted hinitial
  refine ⟨?_, ?_, ?_, ?_, ?_⟩
  · intro htyped
    simpa [htyped] using hlegacy
  · by_contra hnot
    rw [not_or] at hnot
    exact hkind hnot
  · intro hinput
    cases previous with
    | none => rfl
    | some row => exact absurd ⟨rfl, hinput⟩ hactivity
  · rintro row rfl hwhiteout
    exact hdeleted (by rw [Option.map_some, hwhiteout])
  · intro hwhiteout hprevious
    exact hinitial ⟨hwhiteout, hprevious⟩

theorem lockRevisionTarget_ensures (t : Tables) (input : PreparedRevision)
    (typed : Bool) :
    (lockRevisionTarget input typed).Ensures engine NotGuard t
      fun previous after => ∃ resource, Targetable t input typed resource ∧
        previous = t.current input.resourceId ∧
        after = promoted t resource input.resourceKind.resourceKind := by
  unfold lockRevisionTarget
  rw [ensures_bind, ensures_locked]
  cases hresource : t.resource? input.resourceId with
  | none => exact notGuard_revision _
  | some resource =>
      dsimp only
      rw [ensures_bind, ensures_read]
      split
      next => exact notGuard_revision _
      next hexpected =>
        rw [ensures_bind, ensures_read, ensures_bind, ensures_require]
        split
        next hcheck =>
          rw [Option.map_eq_none_iff] at hcheck
          have htarget : Targetable t input typed resource :=
            ⟨hresource, not_not.mp hexpected, hcheck⟩
          rw [ensures_bind]
          unfold promote promoted
          split
          next hunknown =>
            rw [ensures_send]
            exact ⟨resource, htarget, rfl, (if_pos hunknown).symm⟩
          next hknown => exact ⟨resource, htarget, rfl, (if_neg hknown).symm⟩
        next error herror =>
          obtain ⟨inner, -, rfl⟩ := Option.map_eq_some_iff.mp herror
          exact notGuard_revision _

/-! ## The appended revision -/

section Appended

variable {t : Tables}

@[simp] theorem promoted_revisions (resource : Resource)
    (kind : ResourceKind) : (promoted t resource kind).revisions = t.revisions := by
  unfold promoted
  split <;> rfl

@[simp] theorem promoted_heads (resource : Resource) (kind : ResourceKind) :
    (promoted t resource kind).heads = t.heads := by
  unfold promoted
  split <;> rfl

@[simp] theorem promoted_addressing (resource : Resource)
    (kind : ResourceKind) :
    (promoted t resource kind).revisionAddressing = t.revisionAddressing := by
  unfold promoted
  split <;> rfl

@[simp] theorem promoted_relations (resource : Resource)
    (kind : ResourceKind) :
    (promoted t resource kind).revisionRelations = t.revisionRelations := by
  unfold promoted
  split <;> rfl

theorem promoted_current (resource : Resource) (kind : ResourceKind)
    (r : Uuid) : (promoted t resource kind).current r = t.current r := by
  simp only [Tables.current, Tables.revisionOf?, Tables.historyOf,
    promoted_revisions, promoted_heads]

theorem promoted_rowStep (resource : Resource) (kind : ResourceKind) :
    RowStep t (promoted t resource kind) :=
  .other _ (promoted_revisions _ _) (promoted_heads _ _)
    (promoted_addressing _ _) (promoted_relations _ _)

theorem Sound.promoted (h : Sound t) (resource : Resource)
    (kind : ResourceKind) : Sound (promoted t resource kind) := by
  refine ⟨h.rowStep (promoted_rowStep resource kind), fun r => ?_⟩
  rw [promoted_current, h.published]
  simp only [Tables.historyOf, promoted_revisions]

/-- The promoted resource has the requested kind, or the one it had. -/
theorem resource?_promoted {resource : Resource} {kind : ResourceKind}
    {id : Uuid} (h : t.resource? id = some resource)
    (hkind : resource.kind = .unknown ∨ resource.kind = kind) :
    ∃ row, (promoted t resource kind).resource? id = some row ∧
      row.kind = kind := by
  have hid : resource.id = id := by
    have hfound := List.find?_some h
    exact eq_of_beq hfound
  unfold promoted
  split
  next hunknown =>
    refine ⟨{ resource with kind }, ?_, rfl⟩
    simp only [Statement.effect, Tables.resource?, List.find?_map]
    have hsame : ((fun row : Resource => row.id == id) ∘ fun row =>
        if row.id = resource.id then { row with kind } else row) =
        fun row => row.id == id := by
      funext row
      simp only [Function.comp]
      split <;> rfl
    rw [hsame, show t.resources.find? (fun row => row.id == id) =
      some resource from h, Option.map_some, if_pos rfl]
  next hknown =>
    exact ⟨resource, h, hkind.resolve_left hknown⟩

/-- The projections that an append takes over. -/
def inheritedRows (t : Tables) (input : PreparedRevision) :
    List AddressingOccurrence × List RelationOccurrence :=
  match input.kind, t.current input.resourceId with
  | .whiteout, some previous =>
      (t.addressingOf previous.id, t.relationsOf previous.id)
  | _, _ => ([], [])

/-- The heads after a resource's head was set. -/
def publishedHeads (t : Tables) (resourceId id : Uuid) : List ResourceHead :=
  match t.current resourceId with
  | none => t.heads ++ [⟨resourceId, id⟩]
  | some _ => t.heads.map fun head =>
      if head.resourceId == resourceId then { head with revisionId := id }
      else head

/-- The tables after a revision was inserted with its projections and
published. -/
def withRevision (t : Tables) (input : PreparedRevision)
    (row : ResourceRevision) : Tables :=
  { t with
    revisions := t.revisions ++ [row]
    revisionAddressing := t.revisionAddressing ++
      (input.addressing ++ (inheritedRows t input).1).map
        (RevisionAddressing.mk row.id)
    revisionRelations := t.revisionRelations ++
      (input.relations ++ (inheritedRows t input).2).map
        (RevisionRelation.mk row.id)
    heads := publishedHeads t row.resourceId row.id }

/-- The tables after an append. -/
def appended (t : Tables) (input : PreparedRevision) (resource : Resource)
    (id : Uuid) (now : Instant) : Tables :=
  withRevision (promoted t resource input.resourceKind.resourceKind) input
    (revisionRow input (t.current input.resourceId) id now)

theorem ensures_insertProjections {table : RevisionTable}
    {rows : List (Row table)} {Q : Unit → Tables → Prop}
    (h : ∀ before row rest, rows = before ++ row :: rest →
      (t.setRows table (t.rows table ++ before)).insertGuard table row = none)
    (hQ : Q () (t.setRows table (t.rows table ++ rows))) :
    (insertProjections table rows).Ensures engine NotGuard t Q := by
  unfold insertProjections
  split
  next hempty =>
    rw [List.isEmpty_iff.mp hempty, List.append_nil, setRows_rows] at hQ
    exact hQ
  next => exact ensures_insert h fun _ => hQ

/-- The insert guard lets the next revision of a locked target through. -/
theorem appendable_revisionRow (h : Sound t) {input : PreparedRevision}
    {typed : Bool} {resource : Resource}
    (htarget : Targetable t input typed resource) (id : Uuid) (now : Instant) :
    Appendable (promoted t resource input.resourceKind.resourceKind)
      (revisionRow input (t.current input.resourceId) id now) := by
  obtain ⟨-, hkind, hactivity, hterminal, hinitial⟩ :=
    checkTarget_eq_none htarget.accepts
  have hsound := h.promoted resource input.resourceKind.resourceKind
  have hlatest : (promoted t resource
      input.resourceKind.resourceKind).latest input.resourceId =
      t.current input.resourceId := by
    rw [hsound.latest, ← hsound.published, promoted_current]
  obtain ⟨row, hrow, hrowKind⟩ :=
    resource?_promoted htarget.registered hkind
  refine ⟨⟨row, hrow, ?_⟩, ?_, ?_, ?_⟩
  · by_cases hinput : input.resourceKind = .activity
    · right
      refine ⟨?_, hlatest.trans (hactivity hinput)⟩
      rw [hrowKind, hinput]
      rfl
    · left
      rw [hrowKind]
      cases hk : input.resourceKind with
      | object => rfl
      | activity => exact absurd hk hinput
  · exact congrArg (fun previous : Option ResourceRevision =>
      (previous.map ResourceRevision.sequence).getD 0 + 1) hlatest.symm
  · intro previous hprevious
    exact hterminal previous (hlatest.symm.trans hprevious)
  · intro hwhiteout hnone
    exact hinitial hwhiteout (hlatest.symm.trans hnone)

/-- The head guard lets a head of the last revision through. -/
theorem publishable_of_last (h : Chained t) {row : ResourceRevision}
    (hlast : (t.historyOf row.resourceId).getLast? = some row)
    {old : Option ResourceHead}
    (hold : ∀ head, old = some head → head ∈ t.heads ∧
      head.resourceId = row.resourceId)
    (hcurrent : ∀ previous, t.current row.resourceId = some previous →
      previous.sequence < row.sequence) :
    Publishable t old ⟨row.resourceId, row.id⟩ := by
  refine ⟨fun head hhead => (hold head hhead).2.symm, row, ?_, ?_, ?_⟩
  · exact h.revisionOf?.mpr ⟨List.mem_of_getLast? hlast, rfl⟩
  · rw [h.latest, hlast]
    rfl
  · intro head before hhead hbefore
    obtain ⟨hmem, hkey⟩ := hold head hhead
    obtain ⟨hrow, hid⟩ := h.revision?.mp hbefore
    refine hcurrent before (h.current.mpr ⟨?_, ?_⟩)
    · rw [hid, ← hkey]
      exact hmem
    · -- The head belongs to the resource, and so does what it names.
      obtain ⟨named, hnamed, hnamedId, hresource⟩ := h.heads head hmem
      obtain rfl := h.eq_of_id hnamed hrow (hnamedId.trans hid.symm)
      exact mem_historyOf.mpr ⟨hnamed, hresource.trans hkey⟩

/-- Publishing the last revision of a resource is never refused by a guard. -/
theorem publish_ensures (h : Chained t) {row : ResourceRevision}
    (hlast : (t.historyOf row.resourceId).getLast? = some row)
    (hcurrent : ∀ previous, t.current row.resourceId = some previous →
      previous.sequence < row.sequence) :
    (publish row.resourceId (t.current row.resourceId) row.id).Ensures engine
      NotGuard t fun _ after =>
        after = { t with heads := publishedHeads t row.resourceId row.id } := by
  unfold publish publishedHeads
  cases hhead : t.current row.resourceId with
  | none =>
      refine ensures_insert_one ?_ fun _ => rfl
      exact guardResourceHead_eq_none.mpr
        (publishable_of_last h hlast (fun _ hnone => nomatch hnone) hcurrent)
  | some previous =>
      refine ensures_update (fun rows head hmem hmatch => ?_) rfl
      have hkey : head.resourceId = row.resourceId := eq_of_beq hmatch
      have hpublishable : Publishable t (some head)
          ⟨row.resourceId, row.id⟩ :=
        publishable_of_last h hlast (fun other hother => by
          obtain rfl := Option.some.inj hother
          exact ⟨hmem, hkey⟩) hcurrent
      refine guardResourceHead_eq_none.mpr ⟨?_, ?_⟩
      · intro other hother
        obtain rfl := Option.some.inj hother
        rfl
      · rw [← hkey] at hpublishable
        exact hpublishable.names

theorem inheritedProjections_ensures (before : Tables)
    {input : PreparedRevision}
    (haddressing : t.revisionAddressing = before.revisionAddressing)
    (hrelations : t.revisionRelations = before.revisionRelations) :
    (inheritedProjections input (before.current input.resourceId)).Ensures
      engine NotGuard t fun inherited after =>
        inherited = inheritedRows before input ∧ after = t := by
  unfold inheritedProjections inheritedRows
  cases before.current input.resourceId with
  | none => cases input.kind <;> exact ⟨rfl, rfl⟩
  | some previous =>
      cases input.kind with
      | whiteout =>
          refine ⟨?_, rfl⟩
          simp only [Tables.addressingOf, Tables.relationsOf, haddressing,
            hrelations]
      | snapshot => exact ⟨rfl, rfl⟩
      | unavailable => exact ⟨rfl, rfl⟩

theorem Chained.withProjections (h : Chained t) {row : ResourceRevision}
    (hrow : row ∈ t.revisions) (addressing : List AddressingOccurrence)
    (relations : List RelationOccurrence) :
    Chained { t with
      revisionAddressing := t.revisionAddressing ++
        addressing.map (RevisionAddressing.mk row.id)
      revisionRelations := t.revisionRelations ++
        relations.map (RevisionRelation.mk row.id) } := by
  refine ⟨h.ids, h.numbered, h.whiteout, h.headKeys, h.heads, ?_, ?_⟩
  · intro other hother
    rcases List.mem_append.mp hother with hother | hother
    · exact h.addressing other hother
    · obtain ⟨occurrence, -, rfl⟩ := List.mem_map.mp hother
      exact ⟨row, hrow, rfl⟩
  · intro other hother
    rcases List.mem_append.mp hother with hother | hother
    · exact h.relations other hother
    · obtain ⟨relation, -, rfl⟩ := List.mem_map.mp hother
      exact ⟨row, hrow, rfl⟩

/-- The current revision precedes one that the guard lets through. -/
theorem Appendable.current_lt (h : Sound t) {row : ResourceRevision}
    (hguard : Appendable t row) :
    ((t.current row.resourceId).map ResourceRevision.sequence).getD 0 <
      row.sequence := by
  have hsequence := hguard.sequence
  rw [h.latest, ← h.published] at hsequence
  omega

/-- The statements of an append, once its target is locked. -/
theorem appendRow_ensures (h : Sound t) {input : PreparedRevision}
    {row : ResourceRevision} (hguard : Appendable t row)
    (hresource : row.resourceId = input.resourceId) :
    (appendRow input (t.current input.resourceId) row).Ensures engine NotGuard t
      fun _ after => after = withRevision t input row := by
  have hlt := hguard.current_lt h
  unfold appendRow
  rw [ensures_bind]
  refine ensures_insert_one (guardRevisionInsert_eq_none.mpr hguard)
    fun hinsert => ?_
  let inserted : Tables := { t with revisions := t.revisions ++ [row] }
  have hinserted : Chained inserted :=
    (rowSteps_grows h (insertRows_rowSteps hinsert)).1
  have hcurrent : ∀ r, inserted.current r = t.current r :=
    h.current_insertRevision hinserted
  have hmem : row ∈ inserted.revisions := List.mem_append_right _ (by simp)
  have hopen : ∀ table, guardProjectionInsert inserted table row.id = none := by
    intro table
    refine guardProjectionInsert_eq_none.mpr
      ⟨row, hinserted.revision?.mpr ⟨hmem, rfl⟩, ?_⟩
    rw [hcurrent]
    exact hlt
  rw [ensures_bind]
  have hinherited : (inheritedProjections input
      (t.current input.resourceId)).Ensures engine NotGuard inserted
      fun inherited after =>
        inherited = inheritedRows t input ∧ after = inserted :=
    inheritedProjections_ensures t rfl rfl
  refine hinherited.weaken ?_
  rintro _ _ ⟨rfl, rfl⟩
  rw [ensures_bind]
  refine ensures_insertProjections (fun before other rest hsplit => ?_) ?_
  · obtain ⟨occurrence, -, rfl⟩ := List.mem_map.mp
      (hsplit ▸ List.mem_append_right _ List.mem_cons_self)
    exact hopen _
  rw [ensures_bind]
  refine ensures_insertProjections (fun before other rest hsplit => ?_) ?_
  · obtain ⟨relation, -, rfl⟩ := List.mem_map.mp
      (hsplit ▸ List.mem_append_right _ List.mem_cons_self)
    exact hopen _
  have hprojected := hinserted.withProjections hmem
    (input.addressing ++ (inheritedRows t input).1)
    (input.relations ++ (inheritedRows t input).2)
  have hlast : (inserted.historyOf row.resourceId).getLast? = some row := by
    rw [historyOf_concat, if_pos rfl, List.getLast?_append_of_ne_nil _ (by simp)]
    rfl
  let projected : Tables := { inserted with
    revisionAddressing := inserted.revisionAddressing ++
      (input.addressing ++ (inheritedRows t input).1).map
        (RevisionAddressing.mk row.id)
    revisionRelations := inserted.revisionRelations ++
      (input.relations ++ (inheritedRows t input).2).map
        (RevisionRelation.mk row.id) }
  have hbefore : projected.current row.resourceId = t.current row.resourceId :=
    hcurrent row.resourceId
  have hpublish := publish_ensures hprojected hlast (by
    intro previous hprevious
    rw [hbefore.symm.trans hprevious] at hlt
    exact hlt)
  rw [ensures_bind, ← hresource, ← hbefore]
  refine hpublish.weaken ?_
  rintro _ _ rfl
  have hheads : publishedHeads projected row.resourceId row.id =
      publishedHeads t row.resourceId row.id := by
    unfold publishedHeads
    rw [hbefore]
  exact congrArg (fun heads => { projected with heads }) hheads

/-- An append from a sound state is never refused by a guard, and it has the
described effect when it returns. -/
theorem appendPrepared_ensures (h : Sound t) (input : PreparedRevision)
    (typed : Bool) (id : Uuid) (now : Instant) :
    (appendPrepared input typed id now).Ensures engine NotGuard t
      fun _ after => ∃ resource, Targetable t input typed resource ∧
        after = appended t input resource id now := by
  unfold appendPrepared
  rw [ensures_bind]
  refine (lockRevisionTarget_ensures t input typed).weaken ?_
  rintro previous _ ⟨resource, htarget, rfl, rfl⟩
  have hsound := h.promoted resource input.resourceKind.resourceKind
  have hguard := appendable_revisionRow h htarget id now
  have hrest := appendRow_ensures hsound hguard rfl
  rw [promoted_current] at hrest
  exact hrest.weaken fun _ after hafter => ⟨resource, htarget, hafter⟩

/-! ## The state after an append -/

@[simp] theorem historyOf_withRevision {input : PreparedRevision}
    {row : ResourceRevision} {r : Uuid} :
    (withRevision t input row).historyOf r =
      t.historyOf r ++ if row.resourceId = r then [row] else [] :=
  historyOf_concat row

theorem historyOf_appended {prepared : PreparedRevision} {resource : Resource}
    {id : Uuid} {now : Instant} {r : Uuid} :
    (appended t prepared resource id now).historyOf r =
      t.historyOf r ++ if prepared.resourceId = r then
        [revisionRow prepared (t.current prepared.resourceId) id now]
      else [] := by
  refine historyOf_withRevision.trans ?_
  simp only [Tables.historyOf, promoted_revisions]
  rfl

theorem mem_publishedHeads (h : Chained t) {row : ResourceRevision} :
    (⟨row.resourceId, row.id⟩ : ResourceHead) ∈
      publishedHeads t row.resourceId row.id := by
  unfold publishedHeads
  cases hcurrent : t.current row.resourceId with
  | none => exact List.mem_append_right _ (by simp)
  | some previous =>
      refine List.mem_map.mpr
        ⟨⟨row.resourceId, previous.id⟩, (h.current.mp hcurrent).1, ?_⟩
      simp

/-- The head names the revision that was appended. -/
theorem current_withRevision (h : Chained t) {input : PreparedRevision}
    {row : ResourceRevision} (hafter : Chained (withRevision t input row)) :
    (withRevision t input row).current row.resourceId = some row := by
  refine hafter.current.mpr ⟨mem_publishedHeads h, ?_⟩
  rw [historyOf_withRevision, if_pos rfl]
  exact List.mem_append_right _ (by simp)

/-- An append passes the deferred check. -/
theorem unpublished_withRevision (h : Chained t) {input : PreparedRevision}
    {row : ResourceRevision} (hafter : Chained (withRevision t input row)) :
    t.unpublished (withRevision t input row) = [] := by
  refine List.filter_eq_nil_iff.mpr fun other hother => ?_
  rcases List.mem_append.mp hother with hother | hother
  · rw [h.revision?.mpr ⟨hother, rfl⟩]
    simp
  · obtain rfl := List.mem_singleton.mp hother
    have hpublished : requirePublished (withRevision t input other) other =
        none :=
      requirePublished_eq_none.mpr
        ⟨other, current_withRevision h hafter, Nat.le_refl _⟩
    simp [hpublished]

/-- The revision that an append inserts is new. -/
theorem Chained.new_of_withRevision {input : PreparedRevision}
    {row : ResourceRevision} (hafter : Chained (withRevision t input row)) :
    ∀ other ∈ t.revisions, other.id ≠ row.id := by
  intro other hother hid
  have hnodup := hafter.ids
  simp only [withRevision, List.map_append, List.map_cons, List.map_nil] at hnodup
  have hdisjoint := (List.nodup_append.mp hnodup).2.2
  exact hdisjoint other.id (List.mem_map_of_mem hother) row.id (by simp) hid

theorem addressingOf_withRevision (h : Chained t) {input : PreparedRevision}
    {row : ResourceRevision} (hafter : Chained (withRevision t input row)) :
    (withRevision t input row).addressingOf row.id =
      input.addressing ++ (inheritedRows t input).1 := by
  have hnone := h.addressingOf_new hafter.new_of_withRevision
  rw [Tables.addressingOf] at hnone ⊢
  rw [withRevision, List.filter_append, List.map_append, hnone,
    filter_map_addressing, if_pos rfl, List.nil_append]

theorem relationsOf_withRevision (h : Chained t) {input : PreparedRevision}
    {row : ResourceRevision} (hafter : Chained (withRevision t input row)) :
    (withRevision t input row).relationsOf row.id =
      input.relations ++ (inheritedRows t input).2 := by
  have hnone := h.relationsOf_new hafter.new_of_withRevision
  rw [Tables.relationsOf] at hnone ⊢
  rw [withRevision, List.filter_append, List.map_append, hnone,
    filter_map_relations, if_pos rfl, List.nil_append]

/-- The rows that a program wrote when it returned. -/
theorem rowSteps_of_run {α : Type} {p : Tx α} {after : Tables} {value : α}
    (hrun : p.run engine t = .ok (value, after)) : RowSteps t after :=
  executeAll_rowSteps (executeAll_emitted engine hrun)

/-- What an append leaves when it returns: the described tables, sound, with
everything retained, and ready to commit. -/
theorem appendPrepared_spec (h : Sound t) {input : PreparedRevision}
    {typed : Bool} {id : Uuid} {now : Instant} {after : Tables}
    {stored : StoredResourceRevision}
    (hrun : (appendPrepared input typed id now).run engine t =
      .ok (stored, after)) :
    ∃ resource, Targetable t input typed resource ∧
      after = appended t input resource id now ∧ Sound after ∧
      Grows t after ∧ t.commit after = .ok after := by
  obtain ⟨resource, htarget, rfl⟩ :=
    ensures_of_run (appendPrepared_ensures h input typed id now) hrun
  obtain ⟨hchained, hgrows⟩ := rowSteps_grows h (rowSteps_of_run hrun)
  have hunpublished : t.unpublished (appended t input resource id now) = [] := by
    have hpromoted := unpublished_withRevision
      (h.promoted resource input.resourceKind.resourceKind).toChained hchained
    simp only [Tables.unpublished, Tables.revision?, promoted_revisions]
      at hpromoted ⊢
    exact hpromoted
  refine ⟨resource, htarget, rfl, hgrows.sound h hchained hunpublished, hgrows,
    ?_⟩
  rw [Tables.commit, hunpublished]
  rfl

end Appended

end DrFed.Store
