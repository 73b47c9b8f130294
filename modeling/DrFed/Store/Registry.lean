import DrFed.Document.Vocabulary
import DrFed.Store.Rows

/-!
# The resource registry and current addressing

Registration of IRIs, and the addressing rows of a resource.  Ids of new rows
come from outside.
-/

namespace DrFed.Store

open Transactions

/-- A transaction body on the tables. -/
abbrev Tx := Program Tables Statement Refusal

/-- The ids that a writer draws for the rows it inserts. -/
structure FreshIds where
  /-- For the registration of an IRI. -/
  resource : JsString → Uuid
  /-- For the n-th addressing row. -/
  addressing : ℕ → Uuid

/-- `storableText`: text that the database keeps as it is. -/
def storableText (value : JsString) : Bool :=
  !value.contains 0 && isWellFormed value

/-- Return the canonical resource of an IRI, registering it when needed. -/
def ensureResource (iri : JsString) (id : Uuid) : Tx Resource := do
  match ← Program.read fun t => t.resourceAt? iri with
  | some existing => return existing
  | none =>
      Program.send (.insertResource ⟨id, iri, .unknown⟩)
      match ← Program.read fun t => t.resourceAt? iri with
      | some inserted => return inserted
      | none => .fail (.revision (.invalid
          "Resource insertion returned no row."))

/-- Register IRIs in the given order. -/
def ensureResources (ids : FreshIds) :
    List JsString → Tx (List (JsString × Uuid))
  | [] => return []
  | iri :: rest => do
      let target ← ensureResource iri (ids.resource iri)
      let targets ← ensureResources ids rest
      return (iri, target.id) :: targets

/-- The first reason why occurrences are malformed. -/
def checkAddressingOccurrences :
    List AddressingOccurrence → List (JsString × ℕ) → Option RevisionError
  | [], _ => none
  | ⟨property, position, _⟩ :: rest, seen =>
      if property ∉ Document.addressingProperties ∨ position > maxInteger then
        some (.invalid "Invalid addressing occurrence.")
      else if (property, position) ∈ seen then
        some (.invalid "Addressing occurrences must not share a position.")
      else checkAddressingOccurrences rest ((property, position) :: seen)

theorem checkAddressingOccurrences_cons (occurrence : AddressingOccurrence)
    (rest : List AddressingOccurrence) (seen : List (JsString × ℕ)) :
    checkAddressingOccurrences (occurrence :: rest) seen =
      if occurrence.property ∉ Document.addressingProperties ∨
          occurrence.position > maxInteger then
        some (.invalid "Invalid addressing occurrence.")
      else if (occurrence.property, occurrence.position) ∈ seen then
        some (.invalid "Addressing occurrences must not share a position.")
      else checkAddressingOccurrences rest
        ((occurrence.property, occurrence.position) :: seen) := rfl

/-- Insert addressing rows, numbered from `n`. -/
def insertOccurrences (ids : FreshIds) (sourceId : Uuid)
    (targets : List (JsString × Uuid)) :
    ℕ → List AddressingOccurrence → Tx Unit
  | _, [] => return ()
  | n, occurrence :: rest =>
      match targets.lookup occurrence.iri with
      | none => .fail (.revision (.invalid "Missing addressing target."))
      | some targetId => do
          Program.send (.insertAddressing ⟨ids.addressing n, sourceId,
            occurrence.property, occurrence.position, targetId⟩)
          insertOccurrences ids sourceId targets (n + 1) rest

/-- Store explicit occurrences, keeping each at its own position. -/
def storeAddressingOccurrences (ids : FreshIds) (sourceId : Uuid)
    (occurrences : List AddressingOccurrence) : Tx Unit := do
  Program.require
    ((checkAddressingOccurrences occurrences []).map Refusal.revision)
  let iris := (occurrences.map AddressingOccurrence.iri).dedup
  let targets ← ensureResources ids (iris.insertionSort keyLe)
  insertOccurrences ids sourceId targets 0 occurrences

/-- Replace the current addressing of a resource with explicit occurrences. -/
def replaceAddressing (ids : FreshIds) (sourceId : Uuid)
    (occurrences : List AddressingOccurrence) : Tx Unit := do
  Program.require
    ((checkAddressingOccurrences occurrences []).map Refusal.revision)
  Program.send (.deleteAddressing sourceId)
  storeAddressingOccurrences ids sourceId occurrences

end DrFed.Store
