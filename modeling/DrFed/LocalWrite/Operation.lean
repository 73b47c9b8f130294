import DrFed.LocalWrite.Accepted
import DrFed.LocalWrite.Token

/-!
# Previews and commits

The two operations on a create.  A preview prepares it with new server values
and shows them with a token; a commit reads the values of the token and
prepares the create again, up to the resources that it then saves.
-/

namespace DrFed.LocalWrite

open Document Store

/-! ## The environment -/

/-- What the write operations need from the running server. -/
structure LocalWriteEnvironment (Key : Type) where
  platform : Platform
  server : Server
  runtime : TokenRuntime Key
  /-- The key that signs preview tokens. -/
  previewKey : Key

/-- What the database answers during an operation. -/
structure WriteDatabase where
  /-- The actor of an id, if an account may write as it. -/
  findWritingActor : Uuid → Uuid → Prepares WritingActor
  lookups : WritingActor → IdentityLookups
  /-- Whether there is a resource with an IRI. -/
  saved : JsString → Bool

structure LocalWritePreview where
  diagnostics : List Diagnostic
  changes : List Change
  resources : List PreparedResource
  token : JsString

structure CommitOptions where
  previewToken : JsString
  /-- Whether the caller reserves dispatches. -/
  reserveDispatch : Bool

structure LocalWriteResult where
  /-- The saved resources, without the ids of their revisions. -/
  resources : List PreparedResource
  published : Bool

/-! ## The operations -/

/-- Strings and safe integers. -/
def isPath (path : FieldPath) : Bool :=
  path.all fun segment =>
    match segment with
    | .key _ => true
    | .index i => i ≤ 9007199254740991

/-- The server values of a new preview, with the UUIDs drawn. -/
def allocate (resources : List NewResource) (drawn : List Uuid)
    (timestamp : Instant) : Allocation where
  ids := AssocList.putAll
    ((resources.map fun resource => pathKey resource.path).zip drawn) []
  timestamp
  distinct := AssocList.nodup_putAll List.nodup_nil

namespace LocalWriteEnvironment

variable {Key : Type} (env : LocalWriteEnvironment Key)

/-- What the type of a create leaves open. -/
def checkCreateRequest (request : CreateRequest) : Prepares Unit := do
  demand (env.runtime.validateUuid (uuidText request.actorId))
    (writeError .invalidRequest "Invalid actor ID.")
  demand (request.resources.all fun resource => isPath resource.path)
    (writeError .invalidRequest
      ("Each resource needs a path, a kind of object or activity, and an " ++
        "optional representation of embedded or reference."))

def digest (request : CreateRequest) : JsString :=
  env.runtime.digestRequest (bindableRequest request)

def prepare (db : WriteDatabase) (actor : WritingActor)
    (request : CreateRequest) (allocation : Allocation) :
    Prepares PreparedWrite :=
  prepareCreate env.server env.platform actor request allocation
    (db.lookups actor)

/-- Show what a create would save.  It writes nothing. -/
def previewLocalWrite (db : WriteDatabase) (account : Uuid)
    (request : CreateRequest) (drawn : List Uuid) (timestamp : Instant)
    (now : ℤ) : Prepares LocalWritePreview := do
  env.checkCreateRequest request
  let actor ← db.findWritingActor account request.actorId
  let allocation := allocate request.resources drawn timestamp
  let prepared ← env.prepare db actor request allocation
  return {
    diagnostics := prepared.diagnostics
    changes := prepared.changes
    resources := prepared.resources
    token := env.runtime.issueToken env.previewKey account (env.digest request)
      allocation now }

/-- Save a previewed create: permission is checked again, and the create is
prepared again with the values of the token. -/
def commitLocalWrite (db : WriteDatabase) (account : Uuid)
    (request : CreateRequest) (options : CommitOptions) (now : ℤ) :
    Prepares LocalWriteResult := do
  env.checkCreateRequest request
  demand (!options.previewToken.isEmpty)
    (writeError .invalidRequest "A preview token is required.")
  demand (!request.publish || options.reserveDispatch)
    (writeError .invalidRequest
      "Publishing, editing, and deleting require a dispatch reservation.")
  match env.runtime.readToken env.previewKey options.previewToken account
      (env.digest request) now with
  | none =>
      refuse (writeError .stalePreview
        "The preview is invalid or expired; preview the write again.")
  | some allocation => do
      let actor ← db.findWritingActor account request.actorId
      let prepared ← env.prepare db actor request allocation
      demand (prepared.resources.all fun resource => !db.saved resource.iri)
        (writeError .resourceConflict
          "These resources were already saved; preview a new write.")
      return { resources := prepared.resources, published := request.publish }

/-! ## What a commit has gone through -/

/-- A commit that saves something, step by step. -/
structure Commits (db : WriteDatabase) (account : Uuid)
    (request : CreateRequest) (options : CommitOptions) (now : ℤ)
    (allocation : Allocation) (actor : WritingActor) (write : PreparedWrite) :
    Prop where
  checked : env.checkCreateRequest request = .ok ()
  token : options.previewToken.isEmpty = false
  reserved : (!request.publish || options.reserveDispatch) = true
  read : env.runtime.readToken env.previewKey options.previewToken account
    (env.digest request) now = some allocation
  writes : db.findWritingActor account request.actorId = .ok actor
  prepared : env.prepare db actor request allocation = .ok write
  unsaved : (write.resources.all fun resource => !db.saved resource.iri) = true

variable {env} {db : WriteDatabase} {account : Uuid} {request : CreateRequest}

theorem isPath_of_checkCreateRequest
    (h : env.checkCreateRequest request = .ok ()) :
    (request.resources.all fun resource => isPath resource.path) = true := by
  rw [checkCreateRequest] at h
  obtain ⟨⟨⟩, -, h⟩ := exists_of_bind_ok h
  exact demand_eq_ok h

theorem commitLocalWrite_eq_ok_iff {options : CommitOptions} {now : ℤ}
    {result : LocalWriteResult} :
    env.commitLocalWrite db account request options now = .ok result ↔
      ∃ allocation actor write,
        env.Commits db account request options now allocation actor write ∧
          result = ⟨write.resources, request.publish⟩ := by
  constructor
  · intro h
    rw [commitLocalWrite] at h
    obtain ⟨⟨⟩, hchecked, h⟩ := exists_of_bind_ok h
    obtain ⟨⟨⟩, htoken, h⟩ := exists_of_bind_ok h
    obtain ⟨⟨⟩, hreserved, h⟩ := exists_of_bind_ok h
    split at h
    · cases h
    next allocation hread =>
      obtain ⟨actor, hwrites, h⟩ := exists_of_bind_ok h
      obtain ⟨write, hprepared, h⟩ := exists_of_bind_ok h
      obtain ⟨⟨⟩, hunsaved, h⟩ := exists_of_bind_ok h
      refine ⟨allocation, actor, write, ?_, (Except.ok.inj h).symm⟩
      exact ⟨hchecked, by simpa using demand_eq_ok htoken,
        demand_eq_ok hreserved, hread, hwrites, hprepared,
        demand_eq_ok hunsaved⟩
  · rintro ⟨allocation, actor, write, h, rfl⟩
    rw [commitLocalWrite, h.checked, h.token, h.reserved, h.read]
    dsimp only
    rw [h.writes]
    change (env.prepare db actor request allocation >>= _) = _
    rw [h.prepared]
    change (demand (write.resources.all _) _ >>= _) = _
    rw [h.unsaved]
    rfl

/-- What a preview shows is what its values prepare. -/
theorem previewLocalWrite_eq_ok {drawn : List Uuid} {timestamp : Instant}
    {now : ℤ} {preview : LocalWritePreview}
    (h : env.previewLocalWrite db account request drawn timestamp now =
      .ok preview) :
    ∃ actor write,
      db.findWritingActor account request.actorId = .ok actor ∧
      env.prepare db actor request
        (allocate request.resources drawn timestamp) = .ok write ∧
      preview = ⟨write.diagnostics, write.changes, write.resources,
        env.runtime.issueToken env.previewKey account (env.digest request)
          (allocate request.resources drawn timestamp) now⟩ := by
  rw [previewLocalWrite] at h
  obtain ⟨⟨⟩, -, h⟩ := exists_of_bind_ok h
  obtain ⟨actor, hwrites, h⟩ := exists_of_bind_ok h
  obtain ⟨write, hprepared, h⟩ := exists_of_bind_ok h
  exact ⟨actor, write, hwrites, hprepared, (Except.ok.inj h).symm⟩

end LocalWriteEnvironment

end DrFed.LocalWrite
