import DrFed.Store.Guards

/-!
# Row steps

What a guarded statement can do to the revision tables, one row at a time, and
the effect that a statement has when it is accepted.
-/

namespace DrFed.Store

open Transactions

/-! ## Trigger functions, inverted -/

/-- The conditions under which the insert guard lets a revision through. -/
structure Appendable (t : Tables) (new : ResourceRevision) : Prop where
  resource : ∃ row, t.resource? new.resourceId = some row ∧
    (row.kind = .object ∨ row.kind = .activity ∧ t.latest new.resourceId = none)
  sequence : new.sequence =
    ((t.latest new.resourceId).map ResourceRevision.sequence).getD 0 + 1
  terminal : ∀ previous, t.latest new.resourceId = some previous →
    previous.kind ≠ .whiteout
  initial : new.kind = .whiteout → t.latest new.resourceId ≠ none

theorem guardRevisionInsert_eq_none {t : Tables} {new : ResourceRevision} :
    guardRevisionInsert t new = none ↔ Appendable t new := by
  unfold guardRevisionInsert
  cases hresource : t.resource? new.resourceId with
  | none =>
      constructor
      · intro h
        cases h
      · intro h
        obtain ⟨row, hrow, -⟩ := h.resource
        rw [hresource] at hrow
        cases hrow
  | some resource =>
      cases hlatest : t.latest new.resourceId with
      | none =>
          constructor
          · intro h
            dsimp only at h
            split_ifs at h with hkind hsequence hterminal hactivity hinitial
            refine ⟨⟨resource, hresource, ?_⟩, ?_, ?_, ?_⟩
            · cases hk : resource.kind <;> simp_all
            · rw [hlatest]
              exact not_not.mp hsequence
            · simp [hlatest]
            · intro hwhiteout
              simp [hwhiteout] at hinitial
          · intro h
            obtain ⟨row, hrow, hkind⟩ := h.resource
            rw [hresource] at hrow
            obtain rfl := Option.some.inj hrow
            have hsequence := h.sequence
            have hinitial : new.kind ≠ .whiteout := fun hw =>
              h.initial hw hlatest
            rw [hlatest] at hsequence
            dsimp only
            rw [if_neg, if_neg, if_neg, if_neg, if_neg]
            · simp [hinitial]
            · simp
            · simp
            · exact not_not.mpr hsequence
            · rcases hkind with hk | ⟨hk, -⟩ <;> simp [hk]
      | some previous =>
          constructor
          · intro h
            dsimp only at h
            split_ifs at h with hkind hsequence hterminal hactivity hinitial
            refine ⟨⟨resource, hresource, ?_⟩, ?_, ?_, ?_⟩
            · cases hk : resource.kind <;> simp_all
            · rw [hlatest]
              exact not_not.mp hsequence
            · intro other hother
              rw [hlatest] at hother
              obtain rfl := Option.some.inj hother
              simpa using hterminal
            · simp [hlatest]
          · intro h
            obtain ⟨row, hrow, hkind⟩ := h.resource
            rw [hresource] at hrow
            obtain rfl := Option.some.inj hrow
            have hsequence := h.sequence
            have hterminal := h.terminal previous hlatest
            have hobject : resource.kind = .object := by
              simpa [hlatest] using hkind
            rw [hlatest] at hsequence
            dsimp only
            rw [if_neg, if_neg, if_neg, if_neg, if_neg]
            · simp
            · simp [hobject]
            · simpa using hterminal
            · exact not_not.mpr hsequence
            · simp [hobject]

/-- The conditions under which the head guard lets a head through. -/
structure Publishable (t : Tables) (old : Option ResourceHead)
    (new : ResourceHead) : Prop where
  resource : ∀ row, old = some row → new.resourceId = row.resourceId
  names : ∃ next, t.revisionOf? new.resourceId new.revisionId = some next ∧
    (t.latest new.resourceId).map ResourceRevision.sequence =
      some next.sequence ∧
    ∀ row before, old = some row → t.revision? row.revisionId = some before →
      before.sequence < next.sequence

theorem guardResourceHead_eq_none {t : Tables} {old : Option ResourceHead}
    {new : ResourceHead} :
    guardResourceHead t old new = none ↔ Publishable t old new := by
  unfold guardResourceHead
  constructor
  · intro h
    split_ifs at h with hresource
    split at h
    next => cases h
    next next hnext =>
      split_ifs at h with hlatest hforward
      refine ⟨?_, next, hnext, (not_not.mp hlatest).symm, ?_⟩
      · intro row hrow
        by_contra hne
        exact hresource ⟨row, hrow, hne⟩
      · intro row before hrow hbefore
        by_contra hle
        exact hforward ⟨row, hrow, before, hbefore, Nat.le_of_not_lt hle⟩
  · intro h
    obtain ⟨next, hnext, hlatest, hforward⟩ := h.names
    rw [if_neg, hnext]
    · dsimp only
      rw [if_neg (not_not.mpr hlatest.symm), if_neg]
      rintro ⟨row, hrow, before, hbefore, hle⟩
      exact absurd (hforward row before hrow hbefore) (Nat.not_lt.mpr hle)
    · rintro ⟨row, hrow, hne⟩
      exact hne (h.resource row hrow)

theorem guardProjectionInsert_eq_none {t : Tables} {table : String}
    {revisionId : Uuid} :
    guardProjectionInsert t table revisionId = none ↔
      ∃ revision, t.revision? revisionId = some revision ∧
        ((t.current revision.resourceId).map
          ResourceRevision.sequence).getD 0 < revision.sequence := by
  unfold guardProjectionInsert
  cases t.revision? revisionId with
  | none => simp
  | some revision => simp

theorem requirePublished_eq_none {t : Tables} {new : ResourceRevision} :
    requirePublished t new = none ↔
      ∃ head, t.current new.resourceId = some head ∧
        new.sequence ≤ head.sequence := by
  unfold requirePublished
  cases t.current new.resourceId with
  | none => simp
  | some head => simp

/-! ## Row steps -/

/-- One row written to the revision tables, or a change of other tables. -/
inductive RowStep (t : Tables) : Tables → Prop
  | revision (row : ResourceRevision) (hguard : Appendable t row)
      (hcheck : checkRevision t row = none) :
      RowStep t { t with revisions := t.revisions ++ [row] }
  | head (row : ResourceHead) (hguard : Publishable t none row)
      (hcheck : checkHead t row = none) :
      RowStep t { t with heads := t.heads ++ [row] }
  | advance (first last : List ResourceHead) (old new : ResourceHead)
      (hheads : t.heads = first ++ old :: last)
      (hguard : Publishable t (some old) new) :
      RowStep t { t with heads := first ++ new :: last }
  | addressing (row : RevisionAddressing) (table : String)
      (hguard : guardProjectionInsert t table row.revisionId = none) :
      RowStep t { t with revisionAddressing := t.revisionAddressing ++ [row] }
  | relation (row : RevisionRelation) (table : String)
      (hguard : guardProjectionInsert t table row.revisionId = none) :
      RowStep t { t with revisionRelations := t.revisionRelations ++ [row] }
  | other (after : Tables) (hrevisions : after.revisions = t.revisions)
      (hheads : after.heads = t.heads)
      (haddressing : after.revisionAddressing = t.revisionAddressing)
      (hrelations : after.revisionRelations = t.revisionRelations) :
      RowStep t after

abbrev RowSteps : Tables → Tables → Prop := Relation.ReflTransGen RowStep

theorem insertRow_rowStep {t after : Tables} {table : RevisionTable}
    {row : Row table} (h : t.insertRow table row = .ok after) :
    RowStep t after := by
  unfold Tables.insertRow at h
  split at h
  next => cases h
  next hguard =>
    split at h
    next => cases h
    next hcheck =>
      cases h
      cases table with
      | revisions =>
          exact .revision row (guardRevisionInsert_eq_none.mp hguard) hcheck
      | heads =>
          exact .head row (guardResourceHead_eq_none.mp hguard) hcheck
      | addressing => exact .addressing row _ hguard
      | relations => exact .relation row _ hguard

theorem insertRows_rowSteps {t after : Tables} {table : RevisionTable}
    {rows : List (Row table)} (h : t.insertRows table rows = .ok after) :
    RowSteps t after := by
  induction rows generalizing t with
  | nil =>
      cases h
      exact .refl
  | cons row rest ih =>
      rw [Tables.insertRows] at h
      split at h
      next => cases h
      next hrow => exact .head (insertRow_rowStep hrow) (ih h)

theorem updateRows_rowSteps {t after : Tables} {table : RevisionTable}
    {matching : Row table → Bool} {assign : Row table → Row table}
    {done rest : List (Row table)}
    (h : t.updateRows table matching assign done rest = .ok after) :
    RowSteps (t.setRows table (done ++ rest)) after := by
  induction rest generalizing done with
  | nil =>
      cases h
      rw [List.append_nil]
  | cons row rest ih =>
      rw [Tables.updateRows] at h
      split at h
      next hmatch =>
        split at h
        next => cases h
        next hguard =>
          refine .head ?_ (ih h)
          cases table with
          | heads =>
              rw [List.append_assoc]
              exact .advance (t := t.setRows .heads (done ++ row :: rest)) done
                rest row (assign row) rfl (guardResourceHead_eq_none.mp hguard)
          | revisions => cases hguard
          | addressing => cases hguard
          | relations => cases hguard
      next hmatch =>
        have hrest := ih h
        rwa [List.append_assoc, List.singleton_append] at hrest

theorem setRows_rows (t : Tables) (table : RevisionTable) :
    t.setRows table (t.rows table) = t := by
  cases table <;> rfl

theorem rows_setRows (t : Tables) (table : RevisionTable)
    (rows : List (Row table)) : (t.setRows table rows).rows table = rows := by
  cases table <;> rfl

theorem setRows_setRows (t : Tables) (table : RevisionTable)
    (rows rows' : List (Row table)) :
    (t.setRows table rows).setRows table rows' = t.setRows table rows' := by
  cases table <;> rfl

/-- What one accepted statement does, row by row. -/
theorem execute_rowSteps {s : Statement} {t after : Tables}
    (h : s.execute t = .ok after) : RowSteps t after := by
  cases s with
  | insert table rows => exact insertRows_rowSteps h
  | update table matching assign =>
      have hsteps := updateRows_rowSteps h
      rwa [List.nil_append, setRows_rows] at hsteps
  | delete table matching =>
      simp only [Statement.execute] at h
      split_ifs at h
      cases h
      exact .refl
  | truncate table => cases h
  | setKind id kind =>
      cases h
      exact .single (.other _ rfl rfl rfl rfl)
  | insertResource row =>
      simp only [Statement.execute] at h
      split_ifs at h
      cases h
      refine .single (.other _ ?_ ?_ ?_ ?_) <;>
        simp only [Statement.effect] <;> split <;> rfl
  | insertObject row =>
      simp only [Statement.execute] at h
      split_ifs at h
      cases h
      exact .single (.other _ rfl rfl rfl rfl)
  | updateObject id assign =>
      cases h
      exact .single (.other _ rfl rfl rfl rfl)
  | insertActivity row =>
      simp only [Statement.execute] at h
      split_ifs at h
      cases h
      exact .single (.other _ rfl rfl rfl rfl)
  | updateActivity id assign =>
      cases h
      exact .single (.other _ rfl rfl rfl rfl)
  | deleteAddressing sourceId =>
      cases h
      exact .single (.other _ rfl rfl rfl rfl)
  | insertAddressing row =>
      simp only [Statement.execute] at h
      split_ifs at h
      cases h
      exact .single (.other _ rfl rfl rfl rfl)

/-! ## Effects -/

theorem insertRow_eq_ok {t after : Tables} {table : RevisionTable}
    {row : Row table} (h : t.insertRow table row = .ok after) :
    after = t.setRows table (t.rows table ++ [row]) := by
  unfold Tables.insertRow at h
  split at h
  next => cases h
  next =>
    split at h
    next => cases h
    next =>
      cases h
      rfl

theorem insertRows_eq_ok {t after : Tables} {table : RevisionTable}
    {rows : List (Row table)} (h : t.insertRows table rows = .ok after) :
    after = t.setRows table (t.rows table ++ rows) := by
  induction rows generalizing t with
  | nil =>
      cases h
      rw [List.append_nil, setRows_rows]
  | cons row rest ih =>
      rw [Tables.insertRows] at h
      split at h
      next => cases h
      next hrow =>
        obtain rfl := insertRow_eq_ok hrow
        rw [ih h, rows_setRows, setRows_setRows, List.append_assoc,
          List.singleton_append]

theorem updateRows_eq_ok {t after : Tables} {table : RevisionTable}
    {matching : Row table → Bool} {assign : Row table → Row table}
    {done rest : List (Row table)}
    (h : t.updateRows table matching assign done rest = .ok after) :
    after = t.setRows table (done ++ rest.map fun row =>
      if matching row then assign row else row) := by
  induction rest generalizing done with
  | nil =>
      cases h
      rw [List.map_nil, List.append_nil]
  | cons row rest ih =>
      rw [Tables.updateRows] at h
      rw [List.map_cons]
      split at h
      next hmatch =>
        split at h
        next => cases h
        next hguard =>
          rw [ih h, if_pos hmatch, List.append_assoc, List.singleton_append]
      next hmatch =>
        rw [ih h, if_neg hmatch, List.append_assoc, List.singleton_append]

/-- A statement that is accepted has its effect. -/
theorem execute_effect {s : Statement} {t after : Tables}
    (h : s.execute t = .ok after) : after = s.effect t := by
  cases s with
  | insert table rows => exact insertRows_eq_ok h
  | update table matching assign => exact updateRows_eq_ok h
  | delete table matching =>
      simp only [Statement.execute] at h
      split_ifs at h with hany
      cases h
      rw [Statement.effect, List.filter_eq_self.mpr, setRows_rows]
      intro row hrow
      by_contra hmatch
      refine hany (List.any_eq_true.mpr ⟨row, hrow, ?_⟩)
      simpa using hmatch
  | truncate table => cases h
  | setKind id kind => exact (Except.ok.inj h).symm
  | updateObject id assign => exact (Except.ok.inj h).symm
  | updateActivity id assign => exact (Except.ok.inj h).symm
  | deleteAddressing sourceId => exact (Except.ok.inj h).symm
  | insertResource row =>
      simp only [Statement.execute] at h
      split_ifs at h
      exact (Except.ok.inj h).symm
  | insertObject row =>
      simp only [Statement.execute] at h
      split_ifs at h
      exact (Except.ok.inj h).symm
  | insertActivity row =>
      simp only [Statement.execute] at h
      split_ifs at h
      exact (Except.ok.inj h).symm
  | insertAddressing row =>
      simp only [Statement.execute] at h
      split_ifs at h
      exact (Except.ok.inj h).symm

/-- The store as an engine of guarded statements. -/
def engine : Engine Tables Statement Refusal where
  execute := Statement.execute
  effect := Statement.effect
  execute_effect := execute_effect

theorem executeAll_rowSteps {statements : List Statement} {t after : Tables}
    (h : engine.executeAll statements t = .ok after) : RowSteps t after :=
  engine.executeAll_invariant
    (fun hsteps hexecute => hsteps.trans (execute_rowSteps hexecute)) .refl h

end DrFed.Store
