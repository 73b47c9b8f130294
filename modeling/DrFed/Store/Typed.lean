import DrFed.Store.Registered

/-!
# What a typed write does

The tables after a typed object was edited or deleted: the typed row and its
addressing change, and one revision is appended.
-/

namespace DrFed.Store

open Transactions Program

section Typed

variable {t : Tables}

/-- The change of the typed row and the current addressing. -/
inductive TypedChange (t : Tables) (input : TypedResourceRevisionInput)
    (prepared : PreparedRevision) : Tables → Prop
  | snapshot (document : Json) (columns : TypedObjectColumns)
      (occurrences : List AddressingOccurrence)
      (relations : List RevisionRelationInput)
      (projection : Option RevisionProjection) (extra : List Resource)
      (rows : List Addressing) (after : Tables)
      (hcontent : input.content = .snapshot document columns occurrences
        relations projection)
      (hextra : ∀ row ∈ extra, row.kind = .unknown)
      (hafter : after = { t with
        objects := t.objects.map fun row =>
          if row.id = input.resourceId then
            columns.set prepared.serialized row
          else row
        resources := t.resources ++ extra
        addressing := (t.addressing.filter fun row =>
          row.sourceId != input.resourceId) ++ rows })
      (hrows : Stored after input.resourceId occurrences rows) :
      TypedChange t input prepared after
  | whiteout (deleted : Instant) (formerTypes : List JsString)
      (row : ActivityPubObject)
      (hcontent : input.content = .whiteout deleted formerTypes)
      (hrow : t.object? input.resourceId = some row) :
      TypedChange t input prepared { t with
        objects := t.objects.map fun old =>
          if old.id = input.resourceId then
            { old with deleted := some deleted, updated := row.updated }
          else old }

/-- A typed change leaves the revision tables alone. -/
theorem TypedChange.rowStep {input : TypedResourceRevisionInput}
    {prepared : PreparedRevision} {after : Tables}
    (h : TypedChange t input prepared after) : RowStep t after := by
  cases h with
  | snapshot _ _ _ _ _ _ _ _ _ _ hafter _ =>
      subst hafter
      exact .other _ rfl rfl rfl rfl
  | whiteout => exact .other _ rfl rfl rfl rfl

/-- A step that leaves the revision tables alone keeps a sound state sound. -/
theorem Sound.same {after : Tables} (h : Sound t)
    (hrevisions : after.revisions = t.revisions)
    (hheads : after.heads = t.heads)
    (haddressing : after.revisionAddressing = t.revisionAddressing)
    (hrelations : after.revisionRelations = t.revisionRelations) :
    Sound after := by
  refine ⟨h.rowStep (.other after hrevisions hheads haddressing hrelations),
    fun r => ?_⟩
  simp only [Tables.current, Tables.revisionOf?, Tables.historyOf,
    hrevisions, hheads]
  exact h.published r

theorem TypedChange.sound {input : TypedResourceRevisionInput}
    {prepared : PreparedRevision} {after : Tables}
    (h : TypedChange t input prepared after) (hsound : Sound t) :
    Sound after := by
  cases h with
  | snapshot _ _ _ _ _ _ _ _ _ _ hafter _ =>
      subst hafter
      exact hsound.same rfl rfl rfl rfl
  | whiteout => exact hsound.same rfl rfl rfl rfl

theorem TypedChange.revisions {input : TypedResourceRevisionInput}
    {prepared : PreparedRevision} {after : Tables}
    (h : TypedChange t input prepared after) :
    after.revisions = t.revisions := by
  cases h with
  | snapshot _ _ _ _ _ _ _ _ _ _ hafter _ =>
      subst hafter
      rfl
  | whiteout => rfl

/-- A typed change leaves the heads alone. -/
theorem TypedChange.current {input : TypedResourceRevisionInput}
    {prepared : PreparedRevision} {after : Tables}
    (h : TypedChange t input prepared after) (r : Uuid) :
    after.current r = t.current r := by
  cases h with
  | snapshot _ _ _ _ _ _ _ _ _ _ hafter _ =>
      subst hafter
      rfl
  | whiteout => rfl

theorem writeTypedState_ensures (input : TypedResourceRevisionInput)
    (prepared : PreparedRevision) (ids : FreshIds) :
    (writeTypedState input prepared ids).Ensures engine NotGuard t
      fun _ after => TypedChange t input prepared after := by
  unfold writeTypedState
  cases hcontent : input.content with
  | snapshot document columns occurrences relations projection =>
      dsimp only
      rw [ensures_bind, ensures_send]
      refine (replaceAddressing_ensures ids input.resourceId
        occurrences).weaken ?_
      rintro _ after ⟨extra, rows, hextra, hafter, hrows⟩
      exact .snapshot document columns occurrences relations projection extra
        rows after hcontent hextra hafter hrows
  | whiteout deleted formerTypes =>
      dsimp only
      rw [ensures_bind, ensures_read]
      split
      next => exact notGuard_revision _
      next row hrow =>
        rw [ensures_send]
        exact .whiteout deleted formerTypes row hcontent hrow

/-- What a typed write checks before it changes anything. -/
structure Editable (t : Tables) (input : TypedResourceRevisionInput)
    (head : ResourceRevision) : Prop where
  resource : ∃ row, t.resource? input.resourceId = some row ∧
    row.kind = .object
  current : t.current input.resourceId = some head
  expected : head.id = input.expectedRevisionId
  snapshot : head.kind = .snapshot
  same : sameTypedState t input.resourceId head = true

theorem writeTypedResourceRevision_ensures (h : Sound t)
    (input : TypedResourceRevisionInput) (ids : FreshIds) (id : Uuid)
    (now : Instant) :
    (writeTypedResourceRevision input ids id now).Ensures engine NotGuard t
      fun _ after => ∃ prepared head middle resource,
        prepareRevision input.append = .ok prepared ∧
        Editable t input head ∧ TypedChange t input prepared middle ∧
        Targetable middle prepared true resource ∧
        after = appended middle prepared resource id now := by
  unfold writeTypedResourceRevision
  cases hprepared : prepareRevision input.append with
  | error error => exact notGuard_revision error
  | ok prepared =>
      dsimp only
      rw [ensures_bind, ensures_locked, ensures_bind, ensures_read]
      split
      next => exact notGuard_revision _
      next hobject =>
        rw [ensures_bind, ensures_read]
        split
        next => exact notGuard_revision _
        next head hhead =>
          split
          next => exact notGuard_revision _
          next hexpected =>
            split
            next => exact notGuard_revision _
            next hwhiteout =>
              split
              next => exact notGuard_revision _
              next hsnapshot =>
                rw [ensures_bind, ensures_read]
                split
                next => exact notGuard_revision _
                next hsame =>
                  rw [not_or, not_not, Option.map_eq_some_iff] at hobject
                  have heditable : Editable t input head :=
                    ⟨hobject.1, hhead, not_not.mp hexpected,
                      not_not.mp hsnapshot, by simpa using hsame⟩
                  rw [ensures_bind]
                  refine (writeTypedState_ensures input prepared ids).weaken ?_
                  intro _ middle hchange
                  refine (appendPrepared_ensures (hchange.sound h) prepared
                    true id now).weaken ?_
                  rintro _ after ⟨resource, htarget, hafter⟩
                  exact ⟨prepared, head, middle, resource, rfl, heditable,
                    hchange, htarget, hafter⟩

end Typed

end DrFed.Store
