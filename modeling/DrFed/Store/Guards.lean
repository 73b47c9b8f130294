import DrFed.Store.Tables
import DrFed.Support.Program

/-!
# Statements and the guards of the revision tables

Row triggers run before each row of a statement and see the rows that the
statement processed before; the publication check runs when the transaction
commits.  The upsert forms of `INSERT` only combine what is here: the insert
trigger runs first, and a conflicting row is then skipped or updated under the
update trigger.
-/

namespace DrFed.Store

open Transactions

/-! ## Trigger functions -/

/-- `drfed_guard_revision_insert`: the constraint that a new revision
breaks. -/
def guardRevisionInsert (t : Tables) (new : ResourceRevision) :
    Option String :=
  match t.resource? new.resourceId with
  | none => some "resource_revisions_resource_id_resources_id_fkey"
  | some resource =>
      if resource.kind ≠ .object ∧ resource.kind ≠ .activity then
        some "resource_revisions_kind_guard"
      else
        let previous := t.latest new.resourceId
        if new.sequence ≠ (previous.map ResourceRevision.sequence).getD 0 + 1
        then some "resource_revisions_sequence_guard"
        else if previous.map ResourceRevision.kind = some .whiteout then
          some "resource_revisions_terminal_guard"
        else if resource.kind = .activity ∧ previous.isSome then
          some "resource_revisions_activity_guard"
        else if new.kind = .whiteout ∧ previous.isNone then
          some "resource_revisions_initial_guard"
        else none

/-- `drfed_guard_resource_head`, with the old row of an update. -/
def guardResourceHead (t : Tables) (old : Option ResourceHead)
    (new : ResourceHead) : Option String :=
  if ∃ row ∈ old, new.resourceId ≠ row.resourceId then
    some "resource_heads_resource_guard"
  else
    match t.revisionOf? new.resourceId new.revisionId with
    | none => some "resource_heads_resource_revision_fkey"
    | some next =>
        if some next.sequence ≠
            (t.latest new.resourceId).map ResourceRevision.sequence then
          some "resource_heads_latest_guard"
        else if ∃ row ∈ old, ∃ before ∈ t.revision? row.revisionId,
            next.sequence ≤ before.sequence then
          some "resource_heads_forward_guard"
        else none

/-- `drfed_guard_revision_projection_insert`, for a row of a revision. -/
def guardProjectionInsert (t : Tables) (table : String) (revisionId : Uuid) :
    Option String :=
  match t.revision? revisionId with
  | none => some (table ++ "_revision_fkey")
  | some revision =>
      let head := t.current revision.resourceId
      if revision.sequence ≤ (head.map ResourceRevision.sequence).getD 0 then
        some (table ++ "_sealed")
      else none

/-- `drfed_require_published_revision`: the deferred check of an inserted
revision. -/
def requirePublished (t : Tables) (new : ResourceRevision) : Option String :=
  match t.current new.resourceId with
  | none => some "resource_revisions_published"
  | some head =>
      if head.sequence < new.sequence then some "resource_revisions_published"
      else none

/-! ## Keys and checks -/

/-- The greatest value of an `integer` column. -/
def maxInteger : ℕ := 2147483647

/-- The check and key constraints of a new revision. -/
def checkRevision (t : Tables) (new : ResourceRevision) : Option String :=
  if new.sequence > maxInteger then some "integer out of range"
  else if new.sequence = 0 then some "resource_revisions_sequence_check"
  else if (new.kind = .snapshot) ≠ (new.document.isSome = true) then
    some "resource_revisions_document_check"
  else if (new.kind = .whiteout) ≠ (new.deleted.isSome = true) ∨
      (new.kind = .whiteout) ≠ (new.formerTypes.isSome = true) then
    some "resource_revisions_deletion_check"
  else if (t.revision? new.id).isSome then some "resource_revisions_pkey"
  else if (t.historyOf new.resourceId).any
      fun row => row.sequence == new.sequence then
    some "resource_revisions_resource_sequence_key"
  else none

def checkHead (t : Tables) (new : ResourceHead) : Option String :=
  if t.heads.any fun row => row.resourceId == new.resourceId then
    some "resource_heads_pkey"
  else none

def checkAddressing (t : Tables) (new : RevisionAddressing) : Option String :=
  if new.occurrence.position > maxInteger then some "integer out of range"
  else if (t.addressingOf new.revisionId).any fun row =>
      row.property == new.occurrence.property &&
        row.position == new.occurrence.position then
    some "revision_addressing_pkey"
  else none

def checkRelation (t : Tables) (new : RevisionRelation) : Option String :=
  if new.relation.occurrence > maxInteger then some "integer out of range"
  else if new.relation.representation = .reference ∧
      new.relation.targetIri = none then
    some "revision_relations_reference_check"
  else if (t.relationsOf new.revisionId).any fun row =>
      row.occurrence == new.relation.occurrence then
    some "revision_relations_pkey"
  else none

/-! ## Statements -/

inductive RevisionTable where
  | revisions | heads | addressing | relations
  deriving DecidableEq

abbrev Row : RevisionTable → Type
  | .revisions => ResourceRevision
  | .heads => ResourceHead
  | .addressing => RevisionAddressing
  | .relations => RevisionRelation

/-- Statements on the revision tables, and those on the other tables that the
writers of the history send between them. -/
inductive Statement where
  | insert (table : RevisionTable) (rows : List (Row table))
  | update (table : RevisionTable) (matching : Row table → Bool)
      (assign : Row table → Row table)
  | delete (table : RevisionTable) (matching : Row table → Bool)
  | truncate (table : RevisionTable)
  | setKind (resourceId : Uuid) (kind : ResourceKind)
  | insertResource (row : Resource)
  | insertObject (row : ActivityPubObject)
  | updateObject (id : Uuid) (assign : ActivityPubObject → ActivityPubObject)
  | insertActivity (row : StoredActivity)
  | updateActivity (id : Uuid) (assign : StoredActivity → StoredActivity)
  | deleteAddressing (sourceId : Uuid)
  | insertAddressing (row : Addressing)

/-- Why a writer of the history stops. -/
inductive RevisionError where
  | invalid (message : String)
  | unregistered
  | conflict (resourceId : Uuid) (expected current : Option Uuid)
  | legacy (resourceId : Uuid)
  | kindConflict (iri : JsString) (kind requested : ResourceKind)
  | activityImmutable
  | deleted
  | initialWhiteout
  deriving DecidableEq

/-- Why a transaction is refused: by a trigger, by a key or check constraint,
or by the program itself. -/
inductive Refusal where
  | guard (constraint : String)
  | constraint (name : String)
  | revision (error : RevisionError)
  deriving DecidableEq

namespace Tables

def rows (t : Tables) : (table : RevisionTable) → List (Row table)
  | .revisions => t.revisions
  | .heads => t.heads
  | .addressing => t.revisionAddressing
  | .relations => t.revisionRelations

def setRows (t : Tables) : (table : RevisionTable) → List (Row table) → Tables
  | .revisions, rows => { t with revisions := rows }
  | .heads, rows => { t with heads := rows }
  | .addressing, rows => { t with revisionAddressing := rows }
  | .relations, rows => { t with revisionRelations := rows }

/-- The trigger before an insert into each revision table. -/
def insertGuard (t : Tables) : (table : RevisionTable) → Row table →
    Option String
  | .revisions, row => guardRevisionInsert t row
  | .heads, row => guardResourceHead t none row
  | .addressing, row =>
      guardProjectionInsert t "revision_addressing"
        (RevisionAddressing.revisionId row)
  | .relations, row =>
      guardProjectionInsert t "revision_relations"
        (RevisionRelation.revisionId row)

/-- The constraints of each revision table. -/
def insertCheck (t : Tables) : (table : RevisionTable) → Row table →
    Option String
  | .revisions, row => checkRevision t row
  | .heads, row => checkHead t row
  | .addressing, row => checkAddressing t row
  | .relations, row => checkRelation t row

def insertRow (t : Tables) (table : RevisionTable) (row : Row table) :
    Except Refusal Tables :=
  match t.insertGuard table row with
  | some constraint => .error (.guard constraint)
  | none =>
      match t.insertCheck table row with
      | some name => .error (.constraint name)
      | none => .ok (t.setRows table (t.rows table ++ [row]))

/-- The trigger before an update of each revision table: only heads may be
updated. -/
def updateGuard (t : Tables) : (table : RevisionTable) → Row table →
    Row table → Option String
  | .revisions, _, _ => some "resource_revisions_immutable"
  | .heads, old, new => guardResourceHead t (some old) new
  | .addressing, _, _ => some "revision_addressing_immutable"
  | .relations, _, _ => some "revision_relations_immutable"

/-- The trigger before the deletion of a row. -/
def deleteGuard : RevisionTable → String
  | .revisions => "resource_revisions_immutable"
  | .heads => "resource_heads_immutable"
  | .addressing => "revision_addressing_immutable"
  | .relations => "revision_relations_immutable"

def insertRows (t : Tables) (table : RevisionTable) :
    List (Row table) → Except Refusal Tables
  | [] => .ok t
  | row :: rest =>
      match t.insertRow table row with
      | .error refusal => .error refusal
      | .ok after => after.insertRows table rest

/-- The rows of an update, the ones before `rest` already processed. -/
def updateRows (t : Tables) (table : RevisionTable)
    (matching : Row table → Bool) (assign : Row table → Row table) :
    List (Row table) → List (Row table) → Except Refusal Tables
  | done, [] => .ok (t.setRows table done)
  | done, row :: rest =>
      if matching row then
        match (t.setRows table (done ++ row :: rest)).updateGuard table row
            (assign row) with
        | some constraint => .error (.guard constraint)
        | none => t.updateRows table matching assign (done ++ [assign row]) rest
      else t.updateRows table matching assign (done ++ [row]) rest

end Tables

namespace Statement

/-- The rows that a statement leaves. -/
def effect : Statement → Tables → Tables
  | .insert table rows, t => t.setRows table (t.rows table ++ rows)
  | .update table matching assign, t =>
      t.setRows table ((t.rows table).map fun row =>
        if matching row then assign row else row)
  | .delete table matching, t =>
      t.setRows table ((t.rows table).filter fun row => !matching row)
  | .truncate table, t => t.setRows table []
  | .setKind id kind, t =>
      { t with resources := t.resources.map fun row =>
          if row.id = id then { row with kind } else row }
  | .insertResource row, t =>
      if (t.resourceAt? row.iri).isSome then t
      else { t with resources := t.resources ++ [row] }
  | .insertObject row, t => { t with objects := t.objects ++ [row] }
  | .updateObject id assign, t =>
      { t with objects := t.objects.map fun row =>
          if row.id = id then assign row else row }
  | .insertActivity row, t => { t with activities := t.activities ++ [row] }
  | .updateActivity id assign, t =>
      { t with activities := t.activities.map fun row =>
          if row.id = id then assign row else row }
  | .deleteAddressing sourceId, t =>
      { t with addressing := t.addressing.filter fun row =>
          row.sourceId != sourceId }
  | .insertAddressing row, t => { t with addressing := t.addressing ++ [row] }

/-- Execute one statement. -/
def execute : Statement → Tables → Except Refusal Tables
  | .insert table rows, t => t.insertRows table rows
  | .update table matching assign, t =>
      t.updateRows table matching assign [] (t.rows table)
  | .delete table matching, t =>
      if (t.rows table).any matching then
        .error (.guard (Tables.deleteGuard table))
      else .ok t
  | .truncate table, _ => .error (.guard (Tables.deleteGuard table))
  | .insertResource row, t =>
      if (t.resourceAt? row.iri).isNone ∧ (t.resource? row.id).isSome then
        .error (.constraint "resources_pkey")
      else .ok ((insertResource row).effect t)
  | .insertObject row, t =>
      if (t.object? row.id).isSome then .error (.constraint "objects_pkey")
      else .ok ((insertObject row).effect t)
  | .insertActivity row, t =>
      if (t.activity? row.id).isSome then
        .error (.constraint "activities_pkey")
      else .ok ((insertActivity row).effect t)
  | .insertAddressing row, t =>
      if row.position > maxInteger then
        .error (.constraint "integer out of range")
      else if t.addressing.any fun other => other.id == row.id then
        .error (.constraint "addressing_pkey")
      else if t.addressing.any fun other =>
          other.sourceId == row.sourceId && other.property == row.property &&
            other.position == row.position then
        .error (.constraint "addressing_source_property_position_key")
      else .ok ((insertAddressing row).effect t)
  | .setKind id kind, t => .ok ((setKind id kind).effect t)
  | .updateObject id assign, t => .ok ((updateObject id assign).effect t)
  | .updateActivity id assign, t => .ok ((updateActivity id assign).effect t)
  | .deleteAddressing sourceId, t =>
      .ok ((deleteAddressing sourceId).effect t)

end Statement

/-! ## Transactions -/

/-- The revisions inserted since `before` that the deferred check refuses. -/
def Tables.unpublished (before after : Tables) : List ResourceRevision :=
  after.revisions.filter fun row =>
    (before.revision? row.id).isNone && (requirePublished after row).isSome

/-- Commit a transaction that started in `before`: the deferred checks run. -/
def Tables.commit (before after : Tables) : Except Refusal Tables :=
  if (before.unpublished after).isEmpty then .ok after
  else .error (.guard "resource_revisions_published")

end DrFed.Store
