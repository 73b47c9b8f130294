import DrFed.Store.Rows
import DrFed.Support.Keyed
import DrFed.Support.Numbered

/-!
# The invariant of the history

What the revision tables satisfy after every row that the guards let through,
and in every committed state.
-/

namespace DrFed.Store

/-! ## The invariant -/

/-- The revision tables inside a transaction: histories are numbered from 1,
whiteouts end them, and heads and projections belong to revisions. -/
structure Chained (t : Tables) : Prop where
  ids : (t.revisions.map ResourceRevision.id).Nodup
  numbered : ∀ r, (t.historyOf r).Numbered ResourceRevision.sequence
  whiteout : ∀ row ∈ t.revisions, row.kind = .whiteout →
    1 < row.sequence ∧ row.sequence = (t.historyOf row.resourceId).length
  headKeys : (t.heads.map ResourceHead.resourceId).Nodup
  heads : ∀ head ∈ t.heads, ∃ row ∈ t.revisions,
    row.id = head.revisionId ∧ row.resourceId = head.resourceId
  addressing : ∀ row ∈ t.revisionAddressing, ∃ revision ∈ t.revisions,
    revision.id = row.revisionId
  relations : ∀ row ∈ t.revisionRelations, ∃ revision ∈ t.revisions,
    revision.id = row.revisionId

/-- The revision tables in a committed state: moreover, each head names the
last revision. -/
structure Sound (t : Tables) : Prop extends Chained t where
  published : ∀ r, t.current r = (t.historyOf r).getLast?

/-- What a transaction keeps of the state that it started in. -/
structure Grows (base t : Tables) : Prop where
  revisions : base.revisions <+: t.revisions
  heads : ∀ r row, base.current r = some row →
    ∃ row', t.current r = some row' ∧ row.sequence ≤ row'.sequence
  addressing : ∀ row ∈ base.revisions,
    t.addressingOf row.id = base.addressingOf row.id
  relations : ∀ row ∈ base.revisions,
    t.relationsOf row.id = base.relationsOf row.id

section Queries

variable {t : Tables} {r id : Uuid} {row : ResourceRevision}

theorem mem_historyOf :
    row ∈ t.historyOf r ↔ row ∈ t.revisions ∧ row.resourceId = r := by
  rw [Tables.historyOf, List.mem_filter, beq_iff_eq]

theorem historyOf_concat (new : ResourceRevision) :
    Tables.historyOf { t with revisions := t.revisions ++ [new] } r =
      t.historyOf r ++ if new.resourceId = r then [new] else [] := by
  simp only [Tables.historyOf, List.filter_append]
  by_cases h : new.resourceId = r <;> simp [h]

theorem Chained.latest (h : Chained t) (r : Uuid) :
    t.latest r = (t.historyOf r).getLast? :=
  (h.numbered r).argmax_eq

theorem Chained.revision? (h : Chained t) :
    t.revision? id = some row ↔ row ∈ t.revisions ∧ row.id = id :=
  Keyed.find?_eq_some h.ids

theorem Chained.ids_historyOf (h : Chained t) (r : Uuid) :
    ((t.historyOf r).map ResourceRevision.id).Nodup :=
  (List.filter_sublist.map ResourceRevision.id).nodup h.ids

theorem Chained.revisionOf? (h : Chained t) :
    t.revisionOf? r id = some row ↔ row ∈ t.historyOf r ∧ row.id = id :=
  Keyed.find?_eq_some (h.ids_historyOf r)

theorem Chained.current (h : Chained t) :
    t.current r = some row ↔
      (⟨r, row.id⟩ : ResourceHead) ∈ t.heads ∧ row ∈ t.historyOf r := by
  unfold Tables.current
  rw [Option.bind_eq_some_iff]
  constructor
  · rintro ⟨head, hhead, hrow⟩
    obtain ⟨hmem, hkey⟩ := (Keyed.find?_eq_some h.headKeys).mp hhead
    obtain ⟨hhistory, hid⟩ := h.revisionOf?.mp hrow
    refine ⟨?_, hhistory⟩
    obtain rfl : head = ⟨r, row.id⟩ := by rw [hid, ← hkey]
    exact hmem
  · rintro ⟨hmem, hhistory⟩
    exact ⟨⟨r, row.id⟩, (Keyed.find?_eq_some h.headKeys).mpr ⟨hmem, rfl⟩,
      h.revisionOf?.mpr ⟨hhistory, rfl⟩⟩

/-- Two revisions of one id are the same. -/
theorem Chained.eq_of_id (h : Chained t) {row' : ResourceRevision}
    (hrow : row ∈ t.revisions) (hrow' : row' ∈ t.revisions)
    (hid : row.id = row'.id) : row = row' :=
  List.inj_on_of_nodup_map h.ids hrow hrow' hid

theorem mem_addressingOf {occurrence : AddressingOccurrence} :
    occurrence ∈ t.addressingOf id ↔
      (⟨id, occurrence⟩ : RevisionAddressing) ∈ t.revisionAddressing := by
  rw [Tables.addressingOf, List.mem_map]
  constructor
  · rintro ⟨row, hrow, rfl⟩
    obtain ⟨hmem, hid⟩ := List.mem_filter.mp hrow
    rw [beq_iff_eq] at hid
    exact hid ▸ hmem
  · intro h
    exact ⟨_, List.mem_filter.mpr ⟨h, beq_self_eq_true id⟩, rfl⟩

theorem addressingOf_concat (new : RevisionAddressing) :
    Tables.addressingOf
        { t with revisionAddressing := t.revisionAddressing ++ [new] } id =
      t.addressingOf id ++
        if new.revisionId = id then [new.occurrence] else [] := by
  simp only [Tables.addressingOf, List.filter_append, List.map_append]
  by_cases h : new.revisionId = id <;> simp [h]

theorem relationsOf_concat (new : RevisionRelation) :
    Tables.relationsOf
        { t with revisionRelations := t.revisionRelations ++ [new] } id =
      t.relationsOf id ++
        if new.revisionId = id then [new.relation] else [] := by
  simp only [Tables.relationsOf, List.filter_append, List.map_append]
  by_cases h : new.revisionId = id <;> simp [h]

/-- Rows added for one revision are seen by that revision only. -/
theorem filter_map_addressing (occurrences : List AddressingOccurrence)
    (owner : Uuid) :
    ((occurrences.map (RevisionAddressing.mk owner)).filter
        fun row => row.revisionId == id).map RevisionAddressing.occurrence =
      if owner = id then occurrences else [] := by
  rw [List.filter_map, List.map_map]
  split
  next h =>
    subst h
    rw [List.filter_eq_self.mpr (by simp)]
    exact List.map_id _
  next h =>
    rw [List.filter_eq_nil_iff.mpr (by simp [h])]
    rfl

theorem filter_map_relations (relations : List RelationOccurrence)
    (owner : Uuid) :
    ((relations.map (RevisionRelation.mk owner)).filter
        fun row => row.revisionId == id).map RevisionRelation.relation =
      if owner = id then relations else [] := by
  rw [List.filter_map, List.map_map]
  split
  next h =>
    subst h
    rw [List.filter_eq_self.mpr (by simp)]
    exact List.map_id _
  next h =>
    rw [List.filter_eq_nil_iff.mpr (by simp [h])]
    rfl

/-- A revision that does not exist yet has no projections. -/
theorem Chained.addressingOf_new (h : Chained t)
    (hnew : ∀ row ∈ t.revisions, row.id ≠ id) : t.addressingOf id = [] := by
  rw [Tables.addressingOf, List.filter_eq_nil_iff.mpr, List.map_nil]
  intro other hother hid
  obtain ⟨revision, hrevision, heq⟩ := h.addressing other hother
  exact hnew revision hrevision (heq.trans (eq_of_beq hid))

theorem Chained.relationsOf_new (h : Chained t)
    (hnew : ∀ row ∈ t.revisions, row.id ≠ id) : t.relationsOf id = [] := by
  rw [Tables.relationsOf, List.filter_eq_nil_iff.mpr, List.map_nil]
  intro other hother hid
  obtain ⟨revision, hrevision, heq⟩ := h.relations other hother
  exact hnew revision hrevision (heq.trans (eq_of_beq hid))

end Queries

/-! ## One row -/

section Step

variable {t after : Tables}

theorem Chained.insertRevision (h : Chained t) {new : ResourceRevision}
    (hguard : Appendable t new) (hcheck : checkRevision t new = none) :
    Chained { t with revisions := t.revisions ++ [new] } := by
  have hid : ∀ row ∈ t.revisions, row.id ≠ new.id := by
    intro row hrow heq
    have hsome := h.revision?.mpr ⟨hrow, heq⟩
    unfold checkRevision at hcheck
    split_ifs at hcheck
    simp_all
  have hsequence := hguard.sequence
  rw [h.latest] at hsequence
  have hlength : new.sequence = (t.historyOf new.resourceId).length + 1 := by
    rw [hsequence]
    cases hlast : (t.historyOf new.resourceId).getLast? with
    | none => rw [List.getLast?_eq_none_iff.mp hlast]; rfl
    | some last =>
        have hnumber := (h.numbered _).number_getLast? hlast
        simp [hnumber]
  refine ⟨?_, ?_, ?_, h.headKeys, ?_, ?_, ?_⟩
  · rw [List.map_append, List.nodup_append]
    refine ⟨h.ids, List.nodup_singleton _, ?_⟩
    rintro id hmem _ hnew rfl
    obtain ⟨row, hrow, heq⟩ := List.mem_map.mp hmem
    exact hid row hrow (heq.trans (List.mem_singleton.mp hnew))
  · intro r
    rw [historyOf_concat]
    by_cases hr : new.resourceId = r
    · subst hr
      rw [if_pos rfl]
      exact List.numbered_concat.mpr ⟨h.numbered _, hlength⟩
    · rw [if_neg hr, List.append_nil]
      exact h.numbered r
  · intro row hrow hkind
    rw [historyOf_concat]
    rcases List.mem_append.mp hrow with hrow | hrow
    · obtain ⟨hone, hlast⟩ := h.whiteout row hrow hkind
      have hne : new.resourceId ≠ row.resourceId := by
        -- The whiteout is the latest revision, after which the guard refuses.
        intro heq
        have hmem : row ∈ t.historyOf new.resourceId :=
          mem_historyOf.mpr ⟨hrow, heq.symm⟩
        have hlatest := (h.numbered _).getLast?_of_le hmem
          (by rw [heq]; exact hlast.symm.le)
        rw [← h.latest] at hlatest
        exact hguard.terminal row hlatest hkind
      rw [if_neg hne, List.append_nil]
      exact ⟨hone, hlast⟩
    · obtain rfl := List.mem_singleton.mp hrow
      rw [if_pos rfl, List.length_append, List.length_singleton]
      refine ⟨?_, hlength⟩
      have hne := hguard.initial hkind
      rw [h.latest, Ne, List.getLast?_eq_none_iff] at hne
      have hpos := List.length_pos_iff.mpr hne
      omega
  · intro head hhead
    obtain ⟨row, hrow, hnames⟩ := h.heads head hhead
    exact ⟨row, List.mem_append_left _ hrow, hnames⟩
  · intro row hrow
    obtain ⟨revision, hrevision, heq⟩ := h.addressing row hrow
    exact ⟨revision, List.mem_append_left _ hrevision, heq⟩
  · intro row hrow
    obtain ⟨revision, hrevision, heq⟩ := h.relations row hrow
    exact ⟨revision, List.mem_append_left _ hrevision, heq⟩

/-- A new revision leaves every head where it was. -/
theorem Chained.current_insertRevision (h : Chained t)
    {new : ResourceRevision}
    (hafter : Chained { t with revisions := t.revisions ++ [new] })
    (r : Uuid) :
    Tables.current { t with revisions := t.revisions ++ [new] } r =
      t.current r := by
  apply Option.ext
  intro row
  rw [hafter.current, h.current, historyOf_concat]
  refine and_congr_right fun hhead => ?_
  rw [List.mem_append]
  refine ⟨fun hmem => ?_, .inl⟩
  rcases hmem with hmem | hmem
  · exact hmem
  · -- The head names a revision that was there before.
    obtain ⟨old, hold, hid, -⟩ := h.heads _ hhead
    have hrow : row ∈ t.revisions ++ [new] := by
      split_ifs at hmem
      · exact List.mem_append_right _ hmem
      · cases hmem
    obtain rfl := hafter.eq_of_id (List.mem_append_left _ hold) hrow hid
    split_ifs at hmem with hr
    · obtain rfl := List.mem_singleton.mp hmem
      exact mem_historyOf.mpr ⟨hold, hr⟩
    · cases hmem

theorem Chained.insertHead (h : Chained t) {new : ResourceHead}
    (hguard : Publishable t none new) (hcheck : checkHead t new = none) :
    Chained { t with heads := t.heads ++ [new] } := by
  have hkey : ∀ head ∈ t.heads, head.resourceId ≠ new.resourceId := by
    intro head hhead heq
    unfold checkHead at hcheck
    rw [if_pos (List.any_eq_true.mpr ⟨head, hhead, by simpa using heq⟩)]
      at hcheck
    cases hcheck
  refine ⟨h.ids, h.numbered, h.whiteout, ?_, ?_, h.addressing, h.relations⟩
  · rw [List.map_append, List.nodup_append]
    refine ⟨h.headKeys, List.nodup_singleton _, ?_⟩
    rintro r hmem _ hnew rfl
    obtain ⟨head, hhead, heq⟩ := List.mem_map.mp hmem
    exact hkey head hhead (heq.trans (List.mem_singleton.mp hnew))
  · intro head hhead
    rcases List.mem_append.mp hhead with hhead | hhead
    · exact h.heads head hhead
    · obtain rfl := List.mem_singleton.mp hhead
      obtain ⟨next, hnext, -⟩ := hguard.names
      obtain ⟨hmem, hid⟩ := h.revisionOf?.mp hnext
      obtain ⟨hrow, hresource⟩ := mem_historyOf.mp hmem
      exact ⟨next, hrow, hid, hresource⟩

theorem Chained.advanceHead (h : Chained t) {first last : List ResourceHead}
    {old new : ResourceHead} (hheads : t.heads = first ++ old :: last)
    (hguard : Publishable t (some old) new) :
    Chained { t with heads := first ++ new :: last } := by
  have hkey := hguard.resource old rfl
  refine ⟨h.ids, h.numbered, h.whiteout, ?_, ?_, h.addressing, h.relations⟩
  · have hnodup := h.headKeys
    rw [hheads, List.map_append, List.map_cons] at hnodup
    rw [List.map_append, List.map_cons, hkey]
    exact hnodup
  · intro head hhead
    by_cases hnew : head = new
    · subst hnew
      obtain ⟨next, hnext, -⟩ := hguard.names
      obtain ⟨hmem, hid⟩ := h.revisionOf?.mp hnext
      obtain ⟨hrow, hresource⟩ := mem_historyOf.mp hmem
      exact ⟨next, hrow, hid, hresource⟩
    · refine h.heads head ?_
      rw [hheads]
      simp only [List.mem_append, List.mem_cons] at hhead ⊢
      tauto

/-- A row that the guards let through keeps the tables chained. -/
theorem Chained.rowStep (h : Chained t) (hstep : RowStep t after) :
    Chained after := by
  cases hstep with
  | revision row hguard hcheck => exact h.insertRevision hguard hcheck
  | head row hguard hcheck => exact h.insertHead hguard hcheck
  | advance first last old new hheads hguard =>
      exact h.advanceHead hheads hguard
  | addressing row table hguard =>
      refine ⟨h.ids, h.numbered, h.whiteout, h.headKeys, h.heads, ?_,
        h.relations⟩
      intro other hother
      rcases List.mem_append.mp hother with hother | hother
      · exact h.addressing other hother
      · obtain rfl := List.mem_singleton.mp hother
        obtain ⟨revision, hrevision, -⟩ :=
          guardProjectionInsert_eq_none.mp hguard
        exact ⟨revision, h.revision?.mp hrevision⟩
  | relation row table hguard =>
      refine ⟨h.ids, h.numbered, h.whiteout, h.headKeys, h.heads,
        h.addressing, ?_⟩
      intro other hother
      rcases List.mem_append.mp hother with hother | hother
      · exact h.relations other hother
      · obtain rfl := List.mem_singleton.mp hother
        obtain ⟨revision, hrevision, -⟩ :=
          guardProjectionInsert_eq_none.mp hguard
        exact ⟨revision, h.revision?.mp hrevision⟩
  | other after hrevisions hheads haddressing hrelations =>
      obtain ⟨ids, numbered, whiteout, headKeys, heads, addressing,
        relations⟩ := h
      constructor <;> simp only [Tables.historyOf, hrevisions, hheads,
        haddressing, hrelations] <;> assumption

end Step

/-! ## One transaction -/

theorem Grows.refl (t : Tables) : Grows t t where
  revisions := List.prefix_refl _
  heads := fun _ row hrow => ⟨row, hrow, Nat.le_refl _⟩
  addressing := fun _ _ => rfl
  relations := fun _ _ => rfl

section Transaction

variable {base t after : Tables}

theorem Grows.mem (h : Grows base t) {row : ResourceRevision}
    (hrow : row ∈ base.revisions) : row ∈ t.revisions :=
  h.revisions.subset hrow

/-- A revision of the start state is sealed: its head covers it. -/
theorem Grows.sealed (hbase : Sound base) (ht : Chained t)
    (h : Grows base t) {table : String} {row : ResourceRevision}
    (hrow : row ∈ base.revisions) :
    guardProjectionInsert t table row.id ≠ none := by
  intro hguard
  obtain ⟨revision, hrevision, hlt⟩ := guardProjectionInsert_eq_none.mp hguard
  obtain ⟨hmem, hid⟩ := ht.revision?.mp hrevision
  obtain rfl := ht.eq_of_id hmem (h.mem hrow) hid
  have hhistory : revision ∈ base.historyOf revision.resourceId :=
    mem_historyOf.mpr ⟨hrow, rfl⟩
  have hlast := List.getLast?_eq_some_getLast (List.ne_nil_of_mem hhistory)
  obtain ⟨head, hhead, hle⟩ := h.heads _ _
    ((hbase.published revision.resourceId).trans hlast)
  rw [hhead] at hlt
  have hnumber := (hbase.numbered _).number_getLast? hlast
  have hbound := ((hbase.numbered _).number_bounds hhistory).2
  simp only [Option.map_some, Option.getD_some] at hlt
  omega

/-- A head that is moved moves to a later revision. -/
theorem Grows.advanceHead (ht : Chained t) (h : Grows base t)
    {first last : List ResourceHead} {old new : ResourceHead}
    (hheads : t.heads = first ++ old :: last)
    (hguard : Publishable t (some old) new) :
    Grows base { t with heads := first ++ new :: last } := by
  have hafter := ht.advanceHead hheads hguard
  refine ⟨h.revisions, ?_, h.addressing, h.relations⟩
  intro r row hrow
  obtain ⟨row', hcurrent, hle⟩ := h.heads r row hrow
  obtain ⟨hhead, hmem⟩ := ht.current.mp hcurrent
  obtain ⟨next, hnext, -, hforward⟩ := hguard.names
  obtain ⟨hnextMem, hnextId⟩ := ht.revisionOf?.mp hnext
  by_cases hold : (⟨r, row'.id⟩ : ResourceHead) = old
  · have hresource : new.resourceId = r := by
      rw [hguard.resource old rfl, ← hold]
    refine ⟨next, hafter.current.mpr ⟨?_, ?_⟩, ?_⟩
    · rw [hnextId, ← hresource]
      exact List.mem_append_right _ List.mem_cons_self
    · rwa [hresource] at hnextMem
    · have hbefore : t.revision? old.revisionId = some row' :=
        ht.revision?.mpr ⟨(mem_historyOf.mp hmem).1, by rw [← hold]⟩
      have hlt := hforward old row' rfl hbefore
      omega
  · refine ⟨row', hafter.current.mpr ⟨?_, hmem⟩, hle⟩
    rw [hheads] at hhead
    simp only [List.mem_append, List.mem_cons] at hhead ⊢
    tauto

/-- A row that the guards let through keeps what was committed. -/
theorem Grows.rowStep (hbase : Sound base) (ht : Chained t)
    (h : Grows base t) (hstep : RowStep t after) : Grows base after := by
  have hafter := ht.rowStep hstep
  cases hstep with
  | revision row hguard hcheck =>
      refine ⟨h.revisions.trans (List.prefix_append _ _), ?_, h.addressing,
        h.relations⟩
      intro r old hold
      rw [ht.current_insertRevision hafter]
      exact h.heads r old hold
  | head row hguard hcheck =>
      refine ⟨h.revisions, ?_, h.addressing, h.relations⟩
      intro r old hold
      obtain ⟨row', hcurrent, hle⟩ := h.heads r old hold
      obtain ⟨hhead, hmem⟩ := ht.current.mp hcurrent
      exact ⟨row', hafter.current.mpr
        ⟨List.mem_append_left _ hhead, hmem⟩, hle⟩
  | advance first last old new hheads hguard =>
      exact h.advanceHead ht hheads hguard
  | addressing row table hguard =>
      refine ⟨h.revisions, h.heads, ?_, h.relations⟩
      intro old hold
      have hne : row.revisionId ≠ old.id := by
        intro heq
        rw [heq] at hguard
        exact h.sealed hbase ht hold hguard
      rw [addressingOf_concat, if_neg hne, List.append_nil]
      exact h.addressing old hold
  | relation row table hguard =>
      refine ⟨h.revisions, h.heads, h.addressing, ?_⟩
      intro old hold
      have hne : row.revisionId ≠ old.id := by
        intro heq
        rw [heq] at hguard
        exact h.sealed hbase ht hold hguard
      rw [relationsOf_concat, if_neg hne, List.append_nil]
      exact h.relations old hold
  | other after hrevisions hheads haddressing hrelations =>
      obtain ⟨revisions, heads, addressing, relations⟩ := h
      constructor <;> simp only [Tables.current, Tables.revisionOf?,
        Tables.historyOf, Tables.addressingOf, Tables.relationsOf, hrevisions,
        hheads, haddressing, hrelations] at * <;> assumption

/-- What a transaction satisfies before it commits. -/
theorem rowSteps_grows (hbase : Sound base) (hsteps : RowSteps base t) :
    Chained t ∧ Grows base t := by
  induction hsteps with
  | refl => exact ⟨hbase.toChained, .refl base⟩
  | tail _ hstep ih => exact ⟨ih.1.rowStep hstep, ih.2.rowStep hbase ih.1 hstep⟩

/-- The deferred check makes a transaction publish what it appended. -/
theorem Grows.sound (hbase : Sound base) (ht : Chained t) (h : Grows base t)
    (hcommit : base.unpublished t = []) : Sound t := by
  refine ⟨ht, fun r => ?_⟩
  cases hlast : (t.historyOf r).getLast? with
  | none =>
      cases hcurrent : t.current r with
      | none => rfl
      | some row =>
          have hmem := (ht.current.mp hcurrent).2
          rw [List.getLast?_eq_none_iff.mp hlast] at hmem
          cases hmem
  | some last =>
      have hmem : last ∈ t.historyOf r := List.mem_of_getLast? hlast
      obtain ⟨hrow, hresource⟩ := mem_historyOf.mp hmem
      have hcovered : ∃ head, t.current r = some head ∧
          last.sequence ≤ head.sequence := by
        cases hbefore : base.revision? last.id with
        | none =>
            -- The transaction appended it, and the check accepted it.
            by_contra hnot
            have hrefused : last ∈ base.unpublished t := by
              refine List.mem_filter.mpr ⟨hrow, ?_⟩
              rw [hbefore]
              cases hpublished : requirePublished t last with
              | none =>
                  rw [requirePublished_eq_none, hresource] at hpublished
                  exact absurd hpublished hnot
              | some constraint => rfl
            rw [hcommit] at hrefused
            cases hrefused
        | some old =>
            obtain ⟨hold, hid⟩ := hbase.revision?.mp hbefore
            obtain rfl := ht.eq_of_id (h.mem hold) hrow hid
            have hhistory : old ∈ base.historyOf r :=
              mem_historyOf.mpr ⟨hold, hresource⟩
            have hbaseLast :=
              List.getLast?_eq_some_getLast (List.ne_nil_of_mem hhistory)
            obtain ⟨head, hhead, hle⟩ := h.heads r _
              ((hbase.published r).trans hbaseLast)
            have hnumber := (hbase.numbered r).number_getLast? hbaseLast
            have hbound := ((hbase.numbered r).number_bounds hhistory).2
            exact ⟨head, hhead, by omega⟩
      obtain ⟨head, hhead, hle⟩ := hcovered
      have hheadMem := (ht.current.mp hhead).2
      have hnumber := (ht.numbered r).number_getLast? hlast
      have hheadLast := (ht.numbered r).getLast?_of_le hheadMem (by omega)
      rw [hhead, ← hheadLast, hlast]

end Transaction

/-! ## Histories of transactions -/

/-- Statements executed as one transaction. -/
def Tables.transaction (t : Tables) (statements : List Statement) :
    Except Refusal Tables :=
  match engine.executeAll statements t with
  | .error refusal => .error refusal
  | .ok after => t.commit after

/-- The committed state after a transaction, which a refusal rolls back. -/
def Tables.attempt (t : Tables) (statements : List Statement) : Tables :=
  match t.transaction statements with
  | .error _ => t
  | .ok after => after

/-- The committed state after several transactions. -/
def Tables.attemptAll (t : Tables) (transactions : List (List Statement)) :
    Tables :=
  transactions.foldl Tables.attempt t

/-- No revision exists, and by the foreign keys nothing that names one. -/
structure Unversioned (t : Tables) : Prop where
  revisions : t.revisions = []
  heads : t.heads = []
  addressing : t.revisionAddressing = []
  relations : t.revisionRelations = []

/-- What is retained from one committed state to a later one: every revision
with exactly its addressing and relations. -/
structure Retains (before after : Tables) : Prop where
  revisions : ∀ row ∈ before.revisions, row ∈ after.revisions
  addressing : ∀ row ∈ before.revisions,
    after.addressingOf row.id = before.addressingOf row.id
  relations : ∀ row ∈ before.revisions,
    after.relationsOf row.id = before.relationsOf row.id

/-- The history of every resource: numbered without gaps, ending in the head,
with a whiteout only at its end and never first. -/
structure PublishedHistory (t : Tables) : Prop where
  sequences : ∀ r, (t.historyOf r).map ResourceRevision.sequence =
    List.range' 1 (t.historyOf r).length
  head : ∀ r, t.current r = (t.historyOf r).getLast?
  whiteout : ∀ row ∈ t.revisions, row.kind = .whiteout →
    row.sequence ≠ 1 ∧ (t.historyOf row.resourceId).getLast? = some row

theorem Sound.publishedHistory {t : Tables} (h : Sound t) :
    PublishedHistory t := by
  refine ⟨h.numbered, h.published, fun row hrow hkind => ?_⟩
  obtain ⟨hone, hlast⟩ := h.whiteout row hrow hkind
  refine ⟨by omega, ?_⟩
  exact (h.numbered row.resourceId).getLast?_of_le
    (mem_historyOf.mpr ⟨hrow, rfl⟩) hlast.symm.le

theorem Unversioned.sound {t : Tables} (h : Unversioned t) : Sound t := by
  have hhistory : ∀ r, t.historyOf r = [] := by
    intro r
    rw [Tables.historyOf, h.revisions, List.filter_nil]
  constructor
  · constructor
    · simp [h.revisions]
    · intro r
      rw [hhistory]
      exact List.numbered_nil
    · simp [h.revisions]
    · simp [h.heads]
    · simp [h.heads]
    · simp [h.addressing]
    · simp [h.relations]
  · intro r
    rw [hhistory, Tables.current, h.heads]
    rfl

theorem Retains.refl (t : Tables) : Retains t t :=
  ⟨fun _ h => h, fun _ _ => rfl, fun _ _ => rfl⟩

theorem Retains.trans {t₁ t₂ t₃ : Tables} (h₁ : Retains t₁ t₂)
    (h₂ : Retains t₂ t₃) : Retains t₁ t₃ where
  revisions := fun row hrow => h₂.revisions row (h₁.revisions row hrow)
  addressing := fun row hrow =>
    (h₂.addressing row (h₁.revisions row hrow)).trans (h₁.addressing row hrow)
  relations := fun row hrow =>
    (h₂.relations row (h₁.revisions row hrow)).trans (h₁.relations row hrow)

theorem Grows.retains {base t : Tables} (h : Grows base t) : Retains base t :=
  ⟨fun _ hrow => h.mem hrow, h.addressing, h.relations⟩

/-- A transaction whose rows the guards and the deferred check let through
keeps the history sound and retains it. -/
theorem commit_sound {base t after : Tables} (hbase : Sound base)
    (hsteps : RowSteps base t) (hcommit : base.commit t = .ok after) :
    Sound after ∧ Grows base after := by
  obtain ⟨hchained, hgrows⟩ := rowSteps_grows hbase hsteps
  unfold Tables.commit at hcommit
  split_ifs at hcommit with hempty
  cases hcommit
  exact ⟨hgrows.sound hbase hchained (List.isEmpty_iff.mp hempty), hgrows⟩

theorem attempt_sound {t : Tables} (h : Sound t)
    (statements : List Statement) :
    Sound (t.attempt statements) ∧ Retains t (t.attempt statements) := by
  unfold Tables.attempt
  split
  next => exact ⟨h, .refl t⟩
  next after hafter =>
    unfold Tables.transaction at hafter
    split at hafter
    next => cases hafter
    next hexecute =>
      obtain ⟨hsound, hgrows⟩ :=
        commit_sound h (executeAll_rowSteps hexecute) hafter
      exact ⟨hsound, hgrows.retains⟩

theorem attemptAll_sound {t : Tables} (h : Sound t)
    (transactions : List (List Statement)) :
    Sound (t.attemptAll transactions) ∧
      Retains t (t.attemptAll transactions) := by
  induction transactions generalizing t with
  | nil => exact ⟨h, .refl t⟩
  | cons statements rest ih =>
      obtain ⟨hsound, hretains⟩ := attempt_sound h statements
      obtain ⟨hfinal, hrest⟩ := ih hsound
      exact ⟨hfinal, hretains.trans hrest⟩

end DrFed.Store
