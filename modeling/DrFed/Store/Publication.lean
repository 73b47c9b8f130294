import DrFed.Store.Captured

/-!
# The guards alone

What the triggers guarantee for any transactions on the revision tables, and
that the writers of the history never run into them.
-/

namespace DrFed.Store

open Transactions Program

/-- No statement that a program sends is refused by a trigger, and when the
program returns, its statements commit. -/
structure Passes {α : Type} (t : Tables) (p : Tx α) : Prop where
  statements : ∀ constraint,
    engine.executeAll (p.emitted engine t) t ≠ .error (.guard constraint)
  commit : ∀ value after, p.run engine t = .ok (value, after) →
    t.transaction (p.emitted engine t) = .ok after

theorem passes_of_ensures {α : Type} {t : Tables} {p : Tx α}
    {Q : α → Tables → Prop} (h : p.Ensures engine NotGuard t Q)
    (hcommit : ∀ value after, p.run engine t = .ok (value, after) →
      t.commit after = .ok after) : Passes t p := by
  constructor
  · intro constraint herror
    have hrun := run_of_emitted_error engine herror
    unfold Ensures at h
    rw [hrun] at h
    exact h constraint rfl
  · intro value after hrun
    rw [Tables.transaction, executeAll_emitted engine hrun]
    exact hcommit value after hrun

theorem passes_appendPrepared {t : Tables} (h : Sound t)
    (input : PreparedRevision) (typed : Bool) (id : Uuid) (now : Instant) :
    Passes t (appendPrepared input typed id now) := by
  refine passes_of_ensures (appendPrepared_ensures h input typed id now) ?_
  intro stored after hrun
  obtain ⟨_, _, _, _, _, hcommit⟩ := appendPrepared_spec h hrun
  exact hcommit

theorem passes_captureLegacyResource {t : Tables} (h : Sound t)
    (resourceId : Uuid) (backfilled : Bool) (firstId whiteoutId : Uuid) :
    Passes t
      (captureLegacyResource resourceId backfilled firstId whiteoutId) := by
  refine passes_of_ensures (captureLegacyResource_ensures h resourceId
    backfilled firstId whiteoutId) ?_
  intro value after hrun
  exact (captureLegacyResource_spec h hrun).2.2.2

/-- Whatever transactions are attempted on a store without revisions, every
committed state has a published history and retains every earlier one, and
the statements of the writers pass the guards in it. -/
theorem attemptAll_guarded {start : Tables} (h : Unversioned start)
    (transactions : List (List Statement)) :
    PublishedHistory (start.attemptAll transactions) ∧
      (∀ first second, transactions = first ++ second →
        Retains (start.attemptAll first) (start.attemptAll transactions)) ∧
      (∀ input typed id now, Passes (start.attemptAll transactions)
        (appendPrepared input typed id now)) ∧
      ∀ resourceId backfilled firstId whiteoutId,
        Passes (start.attemptAll transactions)
          (captureLegacyResource resourceId backfilled firstId whiteoutId) := by
  have hsound := (attemptAll_sound h.sound transactions).1
  refine ⟨hsound.publishedHistory, ?_, passes_appendPrepared hsound,
    passes_captureLegacyResource hsound⟩
  rintro first second rfl
  have hsplit : start.attemptAll (first ++ second) =
      (start.attemptAll first).attemptAll second := List.foldl_append
  rw [hsplit]
  exact (attemptAll_sound (attemptAll_sound h.sound first).1 second).2

/-- A store with one object and no revisions. -/
def oneObject : Tables where
  resources := [⟨1, js "https://local.example/note", .object⟩]
  actors := []
  objects := []
  activities := []
  addressing := []
  revisions := []
  heads := []
  revisionAddressing := []
  revisionRelations := []

/-- A snapshot with a late projection, and the same without it. -/
def snapshotTransactions : List (List Statement) :=
  let revision : ResourceRevision :=
    { id := 10, resourceId := 1, sequence := 1, kind := .snapshot
      capture := .locally, backfilled := false, document := some (.obj [])
      formerTypes := none, deleted := none, projection := .partially
      created := 0 }
  let publication : List Statement :=
    [.insert .revisions [revision], .insert .heads [⟨1, 10⟩]]
  [publication ++
      [.insert .addressing [⟨10, ⟨js "to", 0, js "https://local.example/a"⟩⟩]],
    publication]

theorem attemptAll_guarded_snapshot :
    (oneObject.attemptAll (snapshotTransactions.take 1)).revisions = [] ∧
      (oneObject.attemptAll snapshotTransactions).revisions.length = 1 ∧
      PublishedHistory (oneObject.attemptAll snapshotTransactions) :=
  ⟨by decide +kernel, by decide +kernel,
    (attemptAll_guarded ⟨rfl, rfl, rfl, rfl⟩ snapshotTransactions).1⟩

end DrFed.Store
