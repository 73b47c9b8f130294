import Mathlib.Data.Multiset.OrderedMonoid
import Mathlib.Algebra.Order.Sub.Basic
import DrFed.Store.Calls
import DrFed.Support.Lists

/-!
# Exact capture

A first capture records the row it is given, a repeated one changes nothing,
and one that finds another state than the retained one is refused.
-/

namespace DrFed.Store

open Transactions Program

/-! ## Histories of rows -/

/-- The first revision of a row: its document, if it has one. -/
structure IsCopy (legacy : LegacyState) (first : ResourceRevision) : Prop where
  kind : first.kind = if legacy.document.isSome then .snapshot else .unavailable
  capture : first.capture = legacy.capture
  projection : first.projection = .partially
  document : first.document = legacy.document

/-- The revision of the deletion of a row. -/
structure IsDeletion (legacy : LegacyState) (deleted : Instant)
    (row : ResourceRevision) : Prop where
  kind : row.kind = .whiteout
  deleted : row.deleted = some deleted
  formerTypes : row.formerTypes = legacy.formerTypes
  capture : row.capture = legacy.capture
  projection : row.projection = .partially

/-- The history of a resource is that of a row with some addressing and
without relations: its document, its deletion after that if it is deleted, and
the head on the last of these. -/
structure Matches (t : Tables) (resourceId : Uuid) (legacy : LegacyState)
    (declared : List AddressingOccurrence) (first : ResourceRevision)
    (rest : List ResourceRevision) : Prop where
  history : t.historyOf resourceId = first :: rest
  copy : IsCopy legacy first
  deletion : List.Forall₂ (IsDeletion legacy) legacy.deleted.toList rest
  head : t.current resourceId = (first :: rest).getLast?
  addressing : ∀ row ∈ first :: rest, (t.addressingOf row.id).Perm declared
  relations : ∀ row ∈ first :: rest, t.relationsOf row.id = []

/-- The history of a resource is that of a row, under the id of its first
revision. -/
def RecordsRow (t : Tables) (resourceId : Uuid) (legacy : LegacyState)
    (declared : List AddressingOccurrence) (id : Uuid) : Prop :=
  ∃ first rest, first.id = id ∧ Matches t resourceId legacy declared first rest

/-- What a repeated capture compares with the retained history. -/
def Differs (old new : LegacyState) (declared declared' : List AddressingOccurrence) : Prop :=
  old.document ≠ new.document ∨ old.capture ≠ new.capture ∨ old.deleted ≠ new.deleted ∨
    ¬ declared.Perm declared'

/-! ## Comparison -/

/-- Nothing is left in either direction just when both have the same rows, as
often. -/
theorem sameRows_iff {left right : List AddressingOccurrence} :
    sameRows left right = true ↔ left.Perm right := by
  rw [sameRows, Bool.and_eq_true, List.isEmpty_iff, List.isEmpty_iff, ← Multiset.coe_eq_coe]
  have hsub : ∀ l r : List AddressingOccurrence,
      l.diff r = [] ↔ (l : Multiset AddressingOccurrence) ≤ r := by
    intro l r
    rw [← tsub_eq_zero_iff_le, Multiset.coe_sub, Multiset.coe_eq_zero]
  rw [hsub, hsub]
  exact le_antisymm_iff.symm

section Comparison

variable {t : Tables} {resourceId : Uuid} {legacy : LegacyState}
  {first : ResourceRevision} {rest : List ResourceRevision}

theorem first_sequence (h : Chained t) (hhistory : t.historyOf resourceId = first :: rest) :
    first.sequence = 1 := by
  have hnumbered := h.numbered resourceId
  rw [hhistory, List.Numbered, List.map_cons, List.length_cons, List.range'_succ] at hnumbered
  exact (List.cons.inj hnumbered).1

/-- The first revision of a history is that with the sequence 1. -/
theorem find_first (h : Chained t) (hhistory : t.historyOf resourceId = first :: rest) :
    (t.historyOf resourceId).find? (fun row => row.sequence == 1) = some first := by
  rw [hhistory, List.find?_cons_of_pos]
  simp [first_sequence h hhistory]

/-- The comparison without the addressing. -/
theorem agrees_iff (h : Chained t) (hhistory : t.historyOf resourceId = first :: rest)
    {last : ResourceRevision} (hlast : (first :: rest).getLast? = some last)
    {related : Bool} :
    legacy.agrees first last related = true ↔
      IsCopy legacy first ∧ List.Forall₂ (IsDeletion legacy) legacy.deleted.toList rest ∧
        related = false := by
  have hsequence : last.sequence = rest.length + 1 := by
    have hnumbered := h.numbered resourceId
    rw [hhistory] at hnumbered
    rw [hnumbered.number_getLast? hlast, List.length_cons]
  rw [LegacyState.agrees, decide_eq_true_iff]
  constructor
  · rintro ⟨hkind, hcapture, hprojection, hdocument, hexpected, hlastCapture,
      hlastProjection, -, hwhiteout, hrelated⟩
    refine ⟨⟨hkind, hcapture, hprojection, hdocument⟩, ?_, hrelated⟩
    rw [hsequence, LegacyState.expectedSequence] at hexpected
    rw [LegacyState.expectedSequence] at hwhiteout
    cases hdeleted : legacy.deleted with
    | none =>
        rw [hdeleted] at hexpected
        have hnil : rest = [] := List.length_eq_zero_iff.mp (Nat.succ.inj hexpected)
        rw [hnil]
        exact .nil
    | some deleted =>
        rw [hdeleted] at hexpected hwhiteout
        obtain ⟨row, rfl⟩ := List.length_eq_one_iff.mp (Nat.succ.inj hexpected)
        obtain rfl := Option.some.inj hlast
        obtain ⟨hlastKind, hlastDeleted, hformer⟩ := hwhiteout rfl
        exact .cons ⟨hlastKind, hlastDeleted, hformer, hlastCapture, hlastProjection⟩ .nil
  · rintro ⟨hcopy, hdeletion, hrelated⟩
    cases hdeleted : legacy.deleted with
    | none =>
        rw [hdeleted] at hdeletion
        cases hdeletion
        obtain rfl := Option.some.inj hlast
        have hexpected : legacy.expectedSequence = 1 := by
          rw [LegacyState.expectedSequence, hdeleted]
          rfl
        refine ⟨hcopy.kind, hcopy.capture, hcopy.projection, hcopy.document, ?_,
          hcopy.capture, hcopy.projection, fun _ => rfl, ?_, hrelated⟩
        · rw [hsequence, hexpected]
          rfl
        · intro htwo
          rw [hexpected] at htwo
          cases htwo
    | some deleted =>
        rw [hdeleted] at hdeletion
        obtain ⟨row, tail, hrow, htail, rfl⟩ := List.forall₂_cons_left_iff.mp hdeletion
        cases htail
        obtain rfl := Option.some.inj hlast
        have hexpected : legacy.expectedSequence = 2 := by
          rw [LegacyState.expectedSequence, hdeleted]
          rfl
        refine ⟨hcopy.kind, hcopy.capture, hcopy.projection, hcopy.document, ?_,
          hrow.capture, hrow.projection, ?_, fun _ => ⟨hrow.kind, hrow.deleted, hrow.formerTypes⟩,
          hrelated⟩
        · rw [hsequence, hexpected]
          rfl
        · intro hone
          rw [hexpected] at hone
          cases hone

/-- Of a history of at most two rows, each is the first or the last. -/
theorem eq_first_or_last {last row : ResourceRevision}
    (hdeletion : List.Forall₂ (IsDeletion legacy) legacy.deleted.toList rest)
    (hlast : (first :: rest).getLast? = some last) (hrow : row ∈ first :: rest) :
    row = first ∨ row = last := by
  have hlength := hdeletion.length_eq
  rcases List.mem_cons.mp hrow with rfl | hrow
  · exact .inl rfl
  · right
    cases hdeleted : legacy.deleted with
    | none =>
        rw [hdeleted] at hlength
        rw [List.length_eq_zero_iff.mp hlength.symm] at hrow
        cases hrow
    | some deleted =>
        rw [hdeleted] at hlength
        obtain ⟨other, rfl⟩ := List.length_eq_one_iff.mp hlength.symm
        rw [List.mem_singleton.mp hrow]
        exact Option.some.inj hlast

/-- What the comparison with a retained history gives. -/
theorem run_compareCapture (h : Sound t) {last : ResourceRevision}
    (hhistory : t.historyOf resourceId = first :: rest)
    (hlast : (first :: rest).getLast? = some last) :
    (Matches t resourceId legacy (t.declaredAddressing resourceId) first rest ∧
      (compareCapture resourceId legacy first last).run engine t = .ok (first.id, t)) ∨
    (¬ Matches t resourceId legacy (t.declaredAddressing resourceId) first rest ∧
      (compareCapture resourceId legacy first last).run engine t =
        .error (.revision (.legacy resourceId))) := by
  have hmem : last ∈ first :: rest := List.mem_of_getLast? hlast
  rw [compareCapture, run_bind, run_read]
  dsimp only
  cases hagrees : legacy.agrees first last
      (!(t.relationsOf first.id).isEmpty || !(t.relationsOf last.id).isEmpty) with
  | false =>
      right
      refine ⟨?_, rfl⟩
      intro hmatches
      rw [← Bool.not_eq_true, agrees_iff h.toChained hhistory hlast] at hagrees
      apply hagrees
      refine ⟨hmatches.copy, hmatches.deletion, ?_⟩
      simp [hmatches.relations first List.mem_cons_self, hmatches.relations last hmem]
  | true =>
      obtain ⟨hcopy, hdeletion, hrelated⟩ := (agrees_iff h.toChained hhistory hlast).mp hagrees
      simp only [Bool.or_eq_false_iff, Bool.not_eq_false', List.isEmpty_iff] at hrelated
      rw [if_neg (by simp), run_bind, run_read]
      dsimp only
      cases hsame : sameRows (t.addressingOf first.id) (t.declaredAddressing resourceId) &&
          sameRows (t.addressingOf last.id) (t.declaredAddressing resourceId) with
      | false =>
          right
          refine ⟨?_, rfl⟩
          intro hmatches
          rw [← Bool.not_eq_true, Bool.and_eq_true, sameRows_iff, sameRows_iff] at hsame
          exact hsame ⟨hmatches.addressing first List.mem_cons_self,
            hmatches.addressing last hmem⟩
      | true =>
          left
          rw [Bool.and_eq_true, sameRows_iff, sameRows_iff] at hsame
          refine ⟨⟨hhistory, hcopy, hdeletion, ?_, ?_, ?_⟩, rfl⟩
          · rw [h.published, hhistory]
          · intro row hrow
            rcases eq_first_or_last hdeletion hlast hrow with rfl | rfl
            · exact hsame.1
            · exact hsame.2
          · intro row hrow
            rcases eq_first_or_last hdeletion hlast hrow with rfl | rfl
            · exact hrelated.1
            · exact hrelated.2

end Comparison

/-! ## Calls -/

/-- A registered object or activity with a typed row. -/
structure IsTyped (t : Tables) (resourceId : Uuid) (legacy : LegacyState) : Prop where
  row : ∃ resource, t.resource? resourceId = some resource ∧
    (resource.kind = .object ∨ resource.kind = .activity) ∧
    t.legacyState resource.kind resourceId = some legacy

section Calls

variable {t : Tables} {resourceId firstId whiteoutId : Uuid} {legacy : LegacyState}
  {backfilled : Bool}

theorem run_captureLegacyResource (h : Sound t) (htyped : IsTyped t resourceId legacy) :
    (captureLegacyResource resourceId backfilled firstId whiteoutId).run engine t =
      match t.historyOf resourceId with
      | [] => (insertCapture resourceId legacy backfilled firstId whiteoutId).run engine t
      | first :: rest =>
          (compareCapture resourceId legacy first (rest.getLast?.getD first)).run engine t := by
  obtain ⟨resource, hresource, hkind, hstate⟩ := htyped.row
  have hnot : ¬ (resource.kind ≠ .object ∧ resource.kind ≠ .activity) := by
    rintro ⟨hobject, hactivity⟩
    exact hkind.elim hobject hactivity
  rw [captureLegacyResource, run_bind, run_locked]
  simp only [hresource, if_neg hnot, run_bind, run_read, hstate]
  cases hhistory : t.historyOf resourceId with
  | nil =>
      have hcurrent : t.current resourceId = none := by
        rw [h.published, hhistory]
        rfl
      simp only [hcurrent, List.find?_nil, run_bind, run_read, hhistory]
      rfl
  | cons first rest =>
      have hcurrent : t.current resourceId = some (rest.getLast?.getD first) := by
        rw [h.published, hhistory, List.getLast?_cons]
      have hfirst := find_first h.toChained hhistory
      rw [hhistory] at hfirst
      simp only [hcurrent, hfirst]

end Calls

/-! ## Constraints -/

def IsGuard (refusal : Refusal) : Prop := ∃ constraint, refusal = .guard constraint

/-- The keys and checks of the schema that the current addressing satisfies. -/
structure Constrained (t : Tables) : Prop where
  resources : (t.resources.map Resource.id).Nodup
  occurrences :
    (t.addressing.map fun row => (row.sourceId, row.property, row.position)).Nodup
  positions : ∀ row ∈ t.addressing, row.position ≤ maxInteger

/-- Ids that no revision has. -/
structure Unused (t : Tables) (firstId whiteoutId : Uuid) : Prop where
  first : ∀ row ∈ t.revisions, row.id ≠ firstId
  whiteout : ∀ row ∈ t.revisions, row.id ≠ whiteoutId
  distinct : firstId ≠ whiteoutId

section Constraints

variable {t : Tables} {resourceId firstId whiteoutId : Uuid} {legacy : LegacyState}
  {backfilled : Bool}

/-- Rows that satisfy their constraints are refused by a guard only. -/
theorem insertRows_of_check {table : RevisionTable} {rows : List (Row table)}
    (h : ∀ before row rest, rows = before ++ row :: rest →
      (t.setRows table (t.rows table ++ before)).insertCheck table row = none) :
    (∃ constraint, t.insertRows table rows = .error (.guard constraint)) ∨
      t.insertRows table rows = .ok (t.setRows table (t.rows table ++ rows)) := by
  induction rows generalizing t with
  | nil =>
      right
      rw [Tables.insertRows, List.append_nil, setRows_rows]
  | cons row rest ih =>
      have hcheck : t.insertCheck table row = none := by
        have hnil := h [] row rest rfl
        rwa [List.append_nil, setRows_rows] at hnil
      rw [Tables.insertRows, Tables.insertRow, hcheck]
      cases hguard : t.insertGuard table row with
      | some constraint => exact .inl ⟨constraint, rfl⟩
      | none =>
          dsimp only
          have hrest : ∀ before other last, rest = before ++ other :: last →
              ((t.setRows table (t.rows table ++ [row])).setRows table
                ((t.setRows table (t.rows table ++ [row])).rows table ++
                  before)).insertCheck table other = none := by
            intro before other last hsplit
            rw [rows_setRows, setRows_setRows, List.append_assoc]
            exact h (row :: before) other last (by rw [hsplit]; rfl)
          rcases ih hrest with hrefused | hok
          · exact .inl hrefused
          · right
            rw [hok, rows_setRows, setRows_setRows, List.append_assoc, List.singleton_append]

theorem ensures_insert_checked {table : RevisionTable} {rows : List (Row table)}
    {Q : Unit → Tables → Prop}
    (h : ∀ before row rest, rows = before ++ row :: rest →
      (t.setRows table (t.rows table ++ before)).insertCheck table row = none)
    (hQ : Q () (t.setRows table (t.rows table ++ rows))) :
    (send (.insert table rows) : Tx Unit).Ensures engine IsGuard t Q := by
  rw [ensures_send]
  rcases insertRows_of_check h with ⟨constraint, hrefused⟩ | hok
  · rw [show engine.execute (.insert table rows) t = t.insertRows table rows
      from rfl, hrefused]
    exact ⟨constraint, rfl⟩
  · rw [show engine.execute (.insert table rows) t = t.insertRows table rows
      from rfl, hok]
    exact hQ

theorem ensures_insert_one_checked {table : RevisionTable} {row : Row table}
    {Q : Unit → Tables → Prop} (h : t.insertCheck table row = none)
    (hQ : Q () (t.setRows table (t.rows table ++ [row]))) :
    (send (.insert table [row]) : Tx Unit).Ensures engine IsGuard t Q := by
  refine ensures_insert_checked (fun before other rest hsplit => ?_) hQ
  obtain ⟨rfl, rfl, rfl⟩ : before = [] ∧ other = row ∧ rest = [] := by
    cases before with
    | nil => simpa [eq_comm] using hsplit
    | cons head tail => simp at hsplit
  rwa [List.append_nil, setRows_rows]

/-- What neither a guard nor a constraint refuses succeeds. -/
theorem run_ok_of_ensures {α : Type} {p : Tx α} {Q : α → Tables → Prop}
    (hguard : p.Ensures engine NotGuard t Q)
    (hcheck : p.Ensures engine IsGuard t fun _ _ => True) :
    ∃ value after, p.run engine t = .ok (value, after) ∧ Q value after := by
  rw [Program.Ensures] at hguard hcheck
  cases hrun : p.run engine t with
  | error refusal =>
      rw [hrun] at hguard hcheck
      obtain ⟨constraint, rfl⟩ := hcheck
      exact absurd rfl (hguard constraint)
  | ok result =>
      rw [hrun] at hguard
      exact ⟨result.1, result.2, rfl, hguard⟩

/-- The current addressing of a resource has one row at a position. -/
theorem nodup_declaredAddressing (h : Constrained t) (resourceId : Uuid) :
    ((t.declaredAddressing resourceId).map fun o => (o.property, o.position)).Nodup := by
  apply ListSplit.nodup_map_flatMap
  · exact (List.Nodup.of_map _ h.occurrences).filter _
  · intro row _
    have htargets : (t.resources.filter fun target => target.id == row.targetId).length ≤ 1 := by
      have hcount := List.nodup_iff_count_le_one.mp h.resources row.targetId
      rwa [List.count, List.countP_map, List.countP_eq_length_filter] at hcount
    rcases Nat.le_one_iff_eq_zero_or_eq_one.mp htargets with hzero | hone
    · rw [List.length_eq_zero_iff.mp hzero]
      exact List.nodup_nil
    · obtain ⟨target, htarget⟩ := List.length_eq_one_iff.mp hone
      rw [htarget]
      exact List.nodup_singleton _
  · intro row hrow other hother hne x hx y hy hkey
    obtain ⟨hrowMem, hrowSource⟩ := List.mem_filter.mp hrow
    obtain ⟨hotherMem, hotherSource⟩ := List.mem_filter.mp hother
    obtain ⟨target, -, rfl⟩ := List.mem_map.mp hx
    obtain ⟨target', -, rfl⟩ := List.mem_map.mp hy
    obtain ⟨hproperty, hposition⟩ := Prod.mk.inj hkey
    apply hne
    apply List.inj_on_of_nodup_map h.occurrences hrowMem hotherMem
    rw [eq_of_beq hrowSource, eq_of_beq hotherSource]
    exact Prod.ext rfl (Prod.ext hproperty hposition)

theorem position_declaredAddressing (h : Constrained t) {o : AddressingOccurrence}
    (ho : o ∈ t.declaredAddressing resourceId) : o.position ≤ maxInteger := by
  obtain ⟨row, hrow, htarget⟩ := List.mem_flatMap.mp ho
  obtain ⟨target, -, rfl⟩ := List.mem_map.mp htarget
  exact h.positions row (List.mem_filter.mp hrow).1

/-- The projections that a capture inserts have keys of their own. -/
theorem nodup_capturedAddressing (h : Constrained t) (resourceId : Uuid) {ids : List Uuid}
    (hids : ids.Nodup) :
    ((ids.flatMap fun id =>
      (t.declaredAddressing resourceId).map (RevisionAddressing.mk id)).map fun row =>
        (row.revisionId, row.occurrence.property, row.occurrence.position)).Nodup := by
  apply ListSplit.nodup_map_flatMap hids
  · intro id _
    rw [List.map_map]
    have hkeys := (nodup_declaredAddressing h resourceId).map
      (f := fun key => (id, key)) fun a b hab => (Prod.mk.inj hab).2
    rwa [List.map_map] at hkeys
  · intro id _ other _ hne x hx y hy hkey
    obtain ⟨o, -, rfl⟩ := List.mem_map.mp hx
    obtain ⟨o', -, rfl⟩ := List.mem_map.mp hy
    exact hne (Prod.mk.inj hkey).1

theorem publishCapture_checked (h : Constrained t) {ids : List Uuid} {finalId : Uuid}
    (hids : ids.Nodup) (hnew : ∀ id ∈ ids, t.addressingOf id = [])
    (hheads : ∀ head ∈ t.heads, head.resourceId ≠ resourceId) :
    (publishCapture resourceId ids firstId finalId).Ensures engine IsGuard t
      fun _ _ => True := by
  rw [publishCapture, ensures_bind, ensures_read, ensures_bind]
  refine ensures_insert_checked (fun before row rest hsplit => ?_) ?_
  · have hnodup := nodup_capturedAddressing h resourceId hids
    have hmem : row ∈ before ++ row :: rest :=
      List.mem_append_right _ List.mem_cons_self
    rw [hsplit, List.map_append, List.map_cons, List.nodup_append] at hnodup
    rw [← hsplit] at hmem
    obtain ⟨id, hid, hrow⟩ := List.mem_flatMap.mp hmem
    obtain ⟨o, ho, rfl⟩ := List.mem_map.mp hrow
    have hposition : ¬ o.position > maxInteger :=
      not_lt.mpr (position_declaredAddressing h ho)
    -- The key is neither among the rows before nor in the table.
    have hfree : ((t.setRows .addressing (t.revisionAddressing ++ before)).addressingOf id).any
        (fun other => other.property == o.property && other.position == o.position) =
          false := by
      rw [List.any_eq_false]
      intro other hother hsame
      rw [Bool.and_eq_true, beq_iff_eq, beq_iff_eq] at hsame
      rw [mem_addressingOf] at hother
      rcases List.mem_append.mp hother with hold | hbefore
      · have hnone : other ∈ t.addressingOf id := mem_addressingOf.mpr hold
        rw [hnew id hid] at hnone
        cases hnone
      · apply hnodup.2.2 _ (List.mem_map_of_mem hbefore) _ List.mem_cons_self
        exact Prod.ext rfl (Prod.ext hsame.1 hsame.2)
    change checkAddressing _ _ = none
    rw [checkAddressing, if_neg hposition]
    exact if_neg (by rw [← Bool.not_eq_false, not_not]; exact hfree)
  · rw [ensures_bind]
    refine ensures_insert_one_checked ?_ trivial
    change checkHead _ _ = none
    rw [checkHead, if_neg]
    rw [List.any_eq_true]
    rintro ⟨head, hhead, hsame⟩
    exact hheads head hhead (eq_of_beq hsame)

theorem Constrained.setRevisions (h : Constrained t) (rows : List ResourceRevision) :
    Constrained (t.setRows .revisions rows) :=
  ⟨h.resources, h.occurrences, h.positions⟩

theorem checkRevision_eq_none {new : ResourceRevision} (hpositive : new.sequence ≠ 0)
    (hmax : new.sequence ≤ maxInteger)
    (hdocument : new.kind = .snapshot ↔ new.document.isSome = true)
    (hdeleted : new.kind = .whiteout ↔ new.deleted.isSome = true)
    (hformer : new.kind = .whiteout ↔ new.formerTypes.isSome = true)
    (hid : ∀ row ∈ t.revisions, row.id ≠ new.id)
    (hsequence : ∀ row ∈ t.historyOf new.resourceId, row.sequence ≠ new.sequence) :
    checkRevision t new = none := by
  have hunseen : ¬ (t.revision? new.id).isSome = true := by
    rw [Tables.revision?, List.find?_isSome]
    rintro ⟨row, hrow, hsame⟩
    exact hid row hrow (eq_of_beq hsame)
  have hnext : ¬ ((t.historyOf new.resourceId).any
      fun row => row.sequence == new.sequence) = true := by
    rw [List.any_eq_true]
    rintro ⟨row, hrow, hsame⟩
    exact hsequence row hrow (eq_of_beq hsame)
  rw [checkRevision, if_neg (Nat.not_lt.mpr hmax), if_neg hpositive,
    if_neg (not_not.mpr (propext hdocument)), if_neg, if_neg hunseen, if_neg hnext]
  rintro (hne | hne)
  · exact hne (propext hdeleted)
  · exact hne (propext hformer)

theorem checkRevision_first (hbare : t.historyOf resourceId = [])
    (hid : ∀ row ∈ t.revisions, row.id ≠ firstId) :
    checkRevision t (legacy.firstRevision resourceId firstId backfilled) = none := by
  have hkind := firstRevision_kind legacy resourceId firstId backfilled
  apply checkRevision_eq_none
  · exact Nat.one_ne_zero
  · exact Nat.one_le_iff_ne_zero.mpr (by decide)
  · rw [LegacyState.firstRevision, LegacyState.expectedKind]
    cases legacy.document with
    | none => simp
    | some document => simp
  · exact iff_of_false hkind Bool.false_ne_true
  · exact iff_of_false hkind Bool.false_ne_true
  · exact hid
  · intro row hrow
    change row ∈ t.historyOf resourceId at hrow
    rw [hbare] at hrow
    cases hrow

theorem checkRevision_whiteout {deleted : Instant} {first : ResourceRevision}
    (hformer : legacy.formerTypes.isSome = true)
    (hhistory : t.historyOf resourceId = [first]) (hfirst : first.sequence = 1)
    (hid : ∀ row ∈ t.revisions, row.id ≠ whiteoutId) :
    checkRevision t (legacy.whiteoutRevision resourceId whiteoutId backfilled deleted) =
      none := by
  apply checkRevision_eq_none
  · exact Nat.succ_ne_zero 1
  · exact (by decide : 2 ≤ maxInteger)
  · exact iff_of_false RevisionKind.noConfusion Bool.false_ne_true
  · exact iff_of_true rfl rfl
  · exact iff_of_true rfl hformer
  · exact hid
  · intro row hrow
    change row ∈ t.historyOf resourceId at hrow
    rw [hhistory, List.mem_singleton] at hrow
    rw [hrow, hfirst]
    exact Nat.succ_ne_self 1 ∘ Eq.symm

/-- Only objects are deleted, and an object has a type. -/
theorem Capturable.formerTypes (hcapture : Capturable t legacy resourceId)
    {deleted : Instant} (hdeleted : legacy.deleted = some deleted) :
    legacy.formerTypes.isSome = true := by
  obtain ⟨kind, hstate⟩ := hcapture.state
  cases kind with
  | object =>
      obtain ⟨stored, -, hauthor⟩ := Option.bind_eq_some_iff.mp hstate
      obtain ⟨author, -, rfl⟩ := Option.map_eq_some_iff.mp hauthor
      rfl
  | _ =>
      obtain ⟨stored, -, hauthor⟩ := Option.bind_eq_some_iff.mp hstate
      obtain ⟨author, -, rfl⟩ := Option.map_eq_some_iff.mp hauthor
      cases hdeleted

/-- A capture satisfies the constraints of the tables. -/
theorem insertCapture_checked (h : Sound t) (hconstrained : Constrained t)
    (hcapture : Capturable t legacy resourceId) (hunused : Unused t firstId whiteoutId) :
    (insertCapture resourceId legacy backfilled firstId whiteoutId).Ensures engine IsGuard t
      fun _ _ => True := by
  have hheads : ∀ head ∈ t.heads, head.resourceId ≠ resourceId := by
    rintro head hhead rfl
    obtain ⟨row, hrow, -, hresource⟩ := h.heads head hhead
    have hmem : row ∈ t.historyOf head.resourceId := mem_historyOf.mpr ⟨hrow, hresource⟩
    rw [hcapture.bare] at hmem
    cases hmem
  rw [insertCapture, ensures_bind]
  refine ensures_insert_one_checked (checkRevision_first hcapture.bare hunused.first) ?_
  cases hdeleted : legacy.deleted with
  | none =>
      refine publishCapture_checked (hconstrained.setRevisions _) (List.nodup_singleton _) ?_
        hheads
      rw [List.forall_mem_singleton]
      exact h.addressingOf_new hunused.first
  | some deleted =>
      dsimp only
      rw [ensures_bind]
      refine ensures_insert_one_checked ?_ ?_
      · have hformer := hcapture.formerTypes hdeleted
        refine @checkRevision_whiteout _ _ _ _ _ _
          (legacy.firstRevision resourceId firstId backfilled) hformer ?_ ?_ ?_
        · change Tables.historyOf { t with revisions := t.revisions ++
            [legacy.firstRevision resourceId firstId backfilled] } resourceId = _
          rw [historyOf_concat, hcapture.bare]
          exact if_pos rfl
        · rfl
        · intro row hrow
          rcases List.mem_append.mp hrow with hold | hnew
          · exact hunused.whiteout row hold
          · rw [List.mem_singleton.mp hnew]
            exact hunused.distinct
      · refine publishCapture_checked ((hconstrained.setRevisions _).setRevisions _) ?_ ?_ hheads
        · simpa using hunused.distinct
        · rw [List.forall_mem_cons, List.forall_mem_singleton]
          exact ⟨h.addressingOf_new hunused.first, h.addressingOf_new hunused.whiteout⟩

end Constraints

/-! ## Exactness -/

section Exact

variable {t : Tables} {resourceId firstId whiteoutId : Uuid} {legacy : LegacyState}
  {backfilled : Bool}

theorem IsTyped.capturable (h : IsTyped t resourceId legacy)
    (hbare : t.historyOf resourceId = []) : Capturable t legacy resourceId := by
  obtain ⟨resource, hresource, hkind, hstate⟩ := h.row
  refine ⟨⟨resource, hresource, ?_⟩, ⟨_, hstate⟩, hbare⟩
  rcases hkind with hobject | hactivity
  · exact .inl hobject
  · right
    refine ⟨hactivity, ?_⟩
    rw [hactivity] at hstate
    obtain ⟨stored, -, hauthor⟩ := Option.bind_eq_some_iff.mp hstate
    obtain ⟨author, -, rfl⟩ := Option.map_eq_some_iff.mp hauthor
    rfl

/-- The whiteouts of a capture. -/
def capturedWhiteouts (legacy : LegacyState) (resourceId : Uuid) (backfilled : Bool)
    (whiteoutId : Uuid) : List ResourceRevision :=
  (legacy.deleted.map (legacy.whiteoutRevision resourceId whiteoutId backfilled)).toList

theorem isCopy_firstRevision :
    IsCopy legacy (legacy.firstRevision resourceId firstId backfilled) :=
  ⟨rfl, rfl, rfl, rfl⟩

theorem isDeletion_capturedWhiteouts :
    List.Forall₂ (IsDeletion legacy) legacy.deleted.toList
      (capturedWhiteouts legacy resourceId backfilled whiteoutId) := by
  rw [capturedWhiteouts]
  cases legacy.deleted with
  | none => exact .nil
  | some deleted => exact .cons ⟨rfl, rfl, rfl, rfl, rfl⟩ .nil

/-- The history that a capture leaves is that of the row. -/
theorem matches_captured (h : Sound t) (hcapture : Capturable t legacy resourceId)
    (hafter : Sound (captured t legacy resourceId backfilled firstId whiteoutId)) :
    Matches (captured t legacy resourceId backfilled firstId whiteoutId) resourceId legacy
      (t.declaredAddressing resourceId) (legacy.firstRevision resourceId firstId backfilled)
      (capturedWhiteouts legacy resourceId backfilled whiteoutId) := by
  have hhistory : (captured t legacy resourceId backfilled firstId whiteoutId).historyOf
      resourceId = legacy.firstRevision resourceId firstId backfilled ::
        capturedWhiteouts legacy resourceId backfilled whiteoutId := by
    rw [historyOf_captured, hcapture.bare, if_pos rfl]
    rfl
  refine ⟨hhistory, isCopy_firstRevision, isDeletion_capturedWhiteouts, ?_, ?_, ?_⟩
  · rw [hafter.published, hhistory]
  · intro row hrow
    rw [(addressingOf_captured h hafter.toChained hrow).1]
  · intro row hrow
    exact (addressingOf_captured h hafter.toChained hrow).2

theorem value_of_insertCapture {value : Uuid} {after : Tables}
    (h : (insertCapture resourceId legacy backfilled firstId whiteoutId).run engine t =
      .ok (value, after)) : value = firstId := by
  have hpublish : ∀ {s : Tables} {ids : List Uuid} {finalId : Uuid},
      (publishCapture resourceId ids firstId finalId).run engine s = .ok (value, after) →
        value = firstId := by
    intro s ids finalId hrun
    obtain ⟨_, _, -, hrun⟩ := (run_bind_eq_ok engine).mp hrun
    obtain ⟨_, _, -, hrun⟩ := (run_bind_eq_ok engine).mp hrun
    obtain ⟨_, _, -, hrun⟩ := (run_bind_eq_ok engine).mp hrun
    exact (Prod.mk.inj (Except.ok.inj hrun)).1.symm
  obtain ⟨_, _, -, hrest⟩ := (run_bind_eq_ok engine).mp h
  cases hdeleted : legacy.deleted with
  | none =>
      rw [hdeleted] at hrest
      exact hpublish hrest
  | some deleted =>
      rw [hdeleted] at hrest
      obtain ⟨_, _, -, hrest⟩ := (run_bind_eq_ok engine).mp hrest
      exact hpublish hrest

/-- A call returns an id and commits some tables. -/
def Captures (t : Tables) (resourceId : Uuid) (backfilled : Bool) (firstId whiteoutId : Uuid)
    (id : Uuid) (after : Tables) : Prop :=
  (captureLegacyResource resourceId backfilled firstId whiteoutId).run engine t =
      .ok (id, after) ∧
    t.commit after = .ok after

/-- A call raises an error, and its transaction leaves the tables as they
were. -/
def Refuses (t : Tables) (resourceId : Uuid) (backfilled : Bool) (firstId whiteoutId : Uuid) :
    Prop :=
  (∃ refusal, (captureLegacyResource resourceId backfilled firstId whiteoutId).run engine t =
      .error refusal) ∧
    transact (captureLegacyResource resourceId backfilled firstId whiteoutId) t = t

/-- A call that finds the history of the row returns its first revision. -/
theorem Matches.captures (h : Sound t) (htyped : IsTyped t resourceId legacy)
    {first : ResourceRevision} {rest : List ResourceRevision}
    (hmatches : Matches t resourceId legacy (t.declaredAddressing resourceId) first rest) :
    Captures t resourceId backfilled firstId whiteoutId first.id t := by
  have hrun := @run_captureLegacyResource t resourceId firstId whiteoutId legacy backfilled h htyped
  rw [hmatches.history] at hrun
  have hcompare := @run_compareCapture t resourceId legacy first rest h _ hmatches.history
    List.getLast?_cons
  rcases hcompare with ⟨-, hok⟩ | ⟨hnot, -⟩
  · have hcall := hrun.trans hok
    exact ⟨hcall, (captureLegacyResource_spec h hcall).2.2.2⟩
  · exact absurd hmatches hnot

/-- A call that finds another history is refused. -/
theorem refuses_of_not_matches (h : Sound t) (htyped : IsTyped t resourceId legacy)
    {first : ResourceRevision} {rest : List ResourceRevision}
    (hhistory : t.historyOf resourceId = first :: rest)
    (hnot : ¬ Matches t resourceId legacy (t.declaredAddressing resourceId) first rest) :
    Refuses t resourceId backfilled firstId whiteoutId := by
  have hrun := @run_captureLegacyResource t resourceId firstId whiteoutId legacy backfilled h htyped
  rw [hhistory] at hrun
  have hcompare := @run_compareCapture t resourceId legacy first rest h _ hhistory
    List.getLast?_cons
  rcases hcompare with ⟨hmatches, -⟩ | ⟨-, herror⟩
  · exact absurd hmatches hnot
  · have hcall := hrun.trans herror
    refine ⟨⟨_, hcall⟩, ?_⟩
    rw [transact, hcall]

/-- A history is that of one state and addressing only. -/
theorem Matches.not_differs {old : LegacyState} {declared declared' : List AddressingOccurrence}
    {first : ResourceRevision} {rest : List ResourceRevision}
    (hold : Matches t resourceId old declared first rest)
    (hnew : Matches t resourceId legacy declared' first rest) :
    ¬ Differs old legacy declared declared' := by
  rintro (hdocument | hcapture | hdeleted | hdeclared)
  · exact hdocument (hold.copy.document.symm.trans hnew.copy.document)
  · exact hcapture (hold.copy.capture.symm.trans hnew.copy.capture)
  · apply hdeleted
    have hdeletion := hnew.deletion
    have holdDeletion := hold.deletion
    cases hd : old.deleted with
    | none =>
        rw [hd] at holdDeletion
        cases holdDeletion
        cases hd' : legacy.deleted with
        | none => rfl
        | some deleted =>
            rw [hd'] at hdeletion
            cases hdeletion
    | some deleted =>
        rw [hd] at holdDeletion
        obtain ⟨row, tail, hrow, -, rfl⟩ := List.forall₂_cons_left_iff.mp holdDeletion
        cases hd' : legacy.deleted with
        | none =>
            rw [hd'] at hdeletion
            cases hdeletion
        | some deleted' =>
            rw [hd'] at hdeletion
            obtain ⟨row', tail', hrow', -, heq⟩ := List.forall₂_cons_left_iff.mp hdeletion
            obtain ⟨rfl, -⟩ := List.cons.inj heq
            exact hrow.deleted.symm.trans hrow'.deleted
  · have hfirst := hold.addressing first List.mem_cons_self
    exact hdeclared (hfirst.symm.trans (hnew.addressing first List.mem_cons_self))

/-- What exactness of a capture means for a row: a first call records it and a
second one returns the same id and changes nothing, as does any call that finds
it recorded; a call that finds another row recorded, or relations, is refused. -/
structure ExactCapture (t : Tables) (resourceId : Uuid) (legacy : LegacyState) : Prop where
  created : t.historyOf resourceId = [] → ∀ backfilled firstId whiteoutId,
    Unused t firstId whiteoutId →
      ∃ after, Captures t resourceId backfilled firstId whiteoutId firstId after ∧
        RecordsRow after resourceId legacy (t.declaredAddressing resourceId) firstId ∧
        ∀ backfilled' firstId' whiteoutId',
          Captures after resourceId backfilled' firstId' whiteoutId' firstId after
  repeated : ∀ id, RecordsRow t resourceId legacy (t.declaredAddressing resourceId) id →
    ∀ backfilled firstId whiteoutId,
      Captures t resourceId backfilled firstId whiteoutId id t
  changed : ∀ old declared id, RecordsRow t resourceId old declared id →
    Differs old legacy declared (t.declaredAddressing resourceId) →
      ∀ backfilled firstId whiteoutId, Refuses t resourceId backfilled firstId whiteoutId
  related : ∀ row ∈ t.historyOf resourceId, t.relationsOf row.id ≠ [] →
    ∀ backfilled firstId whiteoutId, Refuses t resourceId backfilled firstId whiteoutId

/-- A first call records the row, and so a second one changes nothing. -/
theorem captures_created (h : Sound t) (hconstrained : Constrained t)
    (htyped : IsTyped t resourceId legacy) (hbare : t.historyOf resourceId = [])
    (hunused : Unused t firstId whiteoutId) :
    ∃ after, Captures t resourceId backfilled firstId whiteoutId firstId after ∧
      RecordsRow after resourceId legacy (t.declaredAddressing resourceId) firstId ∧
      ∀ backfilled' firstId' whiteoutId',
        Captures after resourceId backfilled' firstId' whiteoutId' firstId after := by
  have hcapture := htyped.capturable hbare
  obtain ⟨value, after, hinsert, hafter⟩ := run_ok_of_ensures
    (insertCapture_ensures h hcapture backfilled firstId whiteoutId)
    (insertCapture_checked h hconstrained hcapture hunused)
  obtain rfl := value_of_insertCapture hinsert
  have hrun := @run_captureLegacyResource t resourceId value whiteoutId legacy backfilled h htyped
  rw [hbare] at hrun
  have hcall := hrun.trans hinsert
  obtain ⟨-, hsound, -, hcommit⟩ := captureLegacyResource_spec h hcall
  subst hafter
  have hmatches := matches_captured h hcapture hsound
  refine ⟨_, ⟨hcall, hcommit⟩, ⟨_, _, rfl, hmatches⟩, ?_⟩
  intro backfilled' firstId' whiteoutId'
  have htyped' : IsTyped (captured t legacy resourceId backfilled value whiteoutId) resourceId
      legacy := ⟨htyped.row⟩
  exact hmatches.captures hsound htyped'

/-- Capture is exact and idempotent. -/
theorem captureLegacyResource_exact (h : Sound t) (hconstrained : Constrained t)
    (htyped : IsTyped t resourceId legacy) : ExactCapture t resourceId legacy := by
  constructor
  · intro hbare backfilled firstId whiteoutId hunused
    exact captures_created h hconstrained htyped hbare hunused
  · rintro id ⟨first, rest, rfl, hmatches⟩ backfilled firstId whiteoutId
    exact hmatches.captures h htyped
  · rintro old declared id ⟨first, rest, -, hmatches⟩ hdiffers backfilled firstId whiteoutId
    apply refuses_of_not_matches h htyped hmatches.history
    exact fun hnew => hmatches.not_differs hnew hdiffers
  · intro row hrow hrelated backfilled firstId whiteoutId
    cases hhistory : t.historyOf resourceId with
    | nil =>
        rw [hhistory] at hrow
        cases hrow
    | cons first rest =>
        rw [hhistory] at hrow
        apply refuses_of_not_matches h htyped hhistory
        exact fun hmatches => hrelated (hmatches.relations row hrow)

end Exact

/-! ## A stored note -/

/-- A note of a local actor that no revision records yet. -/
def storedNote (document : Option Json) : Tables where
  resources :=
    [⟨1, js "https://local.example/note", .object⟩,
      ⟨2, js "https://local.example/followers", .collection⟩]
  actors := [⟨3, some 4⟩]
  objects :=
    [{ id := 1, actorId := 3, activityId := none, fetched := false, type := .note,
       document := document, url := none, name := none, summary := none, contentHtml := [],
       language := none, sensitive := false, published := 0, updated := 0, created := 0,
       deleted := some 9 }]
  activities := []
  addressing := [⟨5, 1, js "to", 0, 2⟩, ⟨6, 1, js "cc", 0, 2⟩]
  revisions := []
  heads := []
  revisionAddressing := []
  revisionRelations := []

def noteState (document : Option Json) : LegacyState where
  document := document
  created := 0
  deleted := some 9
  formerTypes := some [js "Note"]
  capture := .locally

theorem storedNote_sound (document : Option Json) : Sound (storedNote document) :=
  Unversioned.sound ⟨rfl, rfl, rfl, rfl⟩

theorem storedNote_constrained (document : Option Json) : Constrained (storedNote document) where
  resources := (by decide : [(1 : Uuid), 2].Nodup)
  occurrences := (by decide :
    [((1 : Uuid), js "to", 0), (1, js "cc", 0)].Nodup)
  positions := by
    intro row hrow
    have hposition : row.position = 0 := by
      rcases List.mem_cons.mp hrow with rfl | hrow
      · rfl
      · rw [List.mem_singleton.mp hrow]
    rw [hposition]
    exact Nat.zero_le maxInteger

theorem storedNote_typed (document : Option Json) :
    IsTyped (storedNote document) 1 (noteState document) :=
  ⟨⟨_, rfl, .inl rfl, rfl⟩⟩

/-- The note after its first capture. -/
def capturedNote : Tables :=
  captured (storedNote (some (.obj []))) (noteState (some (.obj []))) 1 false 7 8

/-- The captured note with another document. -/
def editedNote : Tables :=
  { capturedNote with objects := (storedNote (some (.obj [(js "type", .str (js "Note"))]))).objects }

/-- The captured note without its second addressee. -/
def readdressedNote : Tables :=
  { capturedNote with addressing := [⟨5, 1, js "to", 0, 2⟩] }

theorem captures_storedNote :
    Captures (storedNote (some (.obj []))) 1 false 7 8 7 capturedNote :=
  ⟨rfl, rfl⟩

theorem capturedNote_sound : Sound capturedNote := by
  obtain ⟨-, hsound, -⟩ := captureLegacyResource_spec (storedNote_sound _) captures_storedNote.1
  exact hsound

theorem editedNote_typed :
    IsTyped editedNote 1 (noteState (some (.obj [(js "type", .str (js "Note"))]))) :=
  ⟨⟨_, rfl, .inl rfl, rfl⟩⟩

/-- A change of the typed tables leaves the history as it is. -/
theorem recordsRow_retyped {t : Tables} {objects : List ActivityPubObject}
    {addressing : List Addressing} {legacy : LegacyState}
    {declared : List AddressingOccurrence} {resourceId id : Uuid}
    (h : RecordsRow t resourceId legacy declared id) :
    RecordsRow { t with objects, addressing } resourceId legacy declared id := by
  obtain ⟨first, rest, hid, hmatches⟩ := h
  exact ⟨first, rest, hid, ⟨hmatches.history, hmatches.copy, hmatches.deletion, hmatches.head,
    hmatches.addressing, hmatches.relations⟩⟩

theorem sound_retyped {t : Tables} {objects : List ActivityPubObject}
    {addressing : List Addressing} (h : Sound t) : Sound { t with objects, addressing } := by
  obtain ⟨⟨hids, hnumbered, hwhiteout, hheadKeys, hheads, haddressing, hrelations⟩, hpublished⟩ :=
    h
  exact ⟨⟨hids, hnumbered, hwhiteout, hheadKeys, hheads, haddressing, hrelations⟩, hpublished⟩

/-- A first capture of the note, any repeated one, and any one after a change of
its document or its addressing. -/
theorem captureLegacyResource_exact_note :
    Captures (storedNote (some (.obj []))) 1 false 7 8 7 capturedNote ∧
      RecordsRow capturedNote 1 (noteState (some (.obj [])))
        (capturedNote.declaredAddressing 1) 7 ∧
      ∀ backfilled firstId whiteoutId,
        Captures capturedNote 1 backfilled firstId whiteoutId 7 capturedNote ∧
        Refuses editedNote 1 backfilled firstId whiteoutId ∧
        Refuses readdressedNote 1 backfilled firstId whiteoutId := by
  have hconstrained := storedNote_constrained (some (.obj []))
  have hfirst := captureLegacyResource_exact (storedNote_sound (some (.obj []))) hconstrained
    (storedNote_typed _)
  obtain ⟨after, hcaptures, hrecords, -⟩ := hfirst.created rfl false 7 8
    ⟨by simp [storedNote], by simp [storedNote], by decide⟩
  have hafter := captures_storedNote.1.symm.trans hcaptures.1
  obtain rfl : capturedNote = after := (Prod.mk.inj (Except.ok.inj hafter)).2
  refine ⟨hcaptures, hrecords, fun backfilled firstId whiteoutId => ⟨?_, ?_, ?_⟩⟩
  · have hrepeated := captureLegacyResource_exact capturedNote_sound
      ⟨hconstrained.resources, hconstrained.occurrences, hconstrained.positions⟩
      ⟨(storedNote_typed (some (.obj []))).row⟩
    exact hrepeated.repeated 7 hrecords backfilled firstId whiteoutId
  · have hedited := captureLegacyResource_exact (sound_retyped capturedNote_sound)
      ⟨hconstrained.resources, hconstrained.occurrences, hconstrained.positions⟩
      editedNote_typed
    exact hedited.changed (noteState (some (.obj []))) _ 7 (recordsRow_retyped hrecords)
      (.inl (by decide)) backfilled firstId whiteoutId
  · have hreaddressed : ExactCapture readdressedNote 1 (noteState (some (.obj []))) :=
      captureLegacyResource_exact (sound_retyped capturedNote_sound)
        ⟨hconstrained.resources, by decide, by decide⟩
        ⟨(storedNote_typed (some (.obj []))).row⟩
    exact hreaddressed.changed _ (capturedNote.declaredAddressing 1) 7
      (recordsRow_retyped hrecords) (.inr (.inr (.inr (by decide)))) backfilled firstId whiteoutId

/-- A row without a document is not recorded as a snapshot. -/
theorem captureLegacyResource_without_document :
    ¬ ∀ t resourceId legacy, Sound t → Constrained t → IsTyped t resourceId legacy →
      t.historyOf resourceId = [] → ∀ backfilled firstId whiteoutId id after,
        Captures t resourceId backfilled firstId whiteoutId id after →
          ∃ first ∈ after.historyOf resourceId, first.kind = .snapshot := by
  intro h
  have hcapture : Captures (storedNote none) 1 false 7 8 7
      (captured (storedNote none) (noteState none) 1 false 7 8) := ⟨rfl, rfl⟩
  obtain ⟨first, hfirst, hkind⟩ := h (storedNote none) 1 (noteState none) (storedNote_sound none)
    (storedNote_constrained none) (storedNote_typed none) rfl false 7 8 7 _ hcapture
  have hkinds : ∀ row ∈ (captured (storedNote none) (noteState none) 1 false 7 8).historyOf 1,
      row.kind ≠ .snapshot := by decide
  exact hkinds first hfirst hkind

end DrFed.Store
