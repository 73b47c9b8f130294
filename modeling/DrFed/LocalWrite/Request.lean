import DrFed.Js.Canonical
import DrFed.Js.Uuid
import DrFed.LocalWrite.Creation

/-!
# Requests

The write requests, and the JSON value of a request that a preview token
binds.  It states the defaults, so that it determines the request up to what
the request leaves out.
-/

namespace DrFed.LocalWrite

open Store

/-! ## Requests -/

/-- Commits an edit of a current local object. -/
structure EditRequest where
  actorId : Uuid
  objectId : Uuid
  /-- The revision the edit was made from. -/
  expectedRevisionId : Uuid
  document : JsonObject

def EditRequest.value (request : EditRequest) : Json :=
  .obj request.document.members

/-- Commits a deletion of a current local object. -/
structure DeleteRequest where
  actorId : Uuid
  objectId : Uuid
  expectedRevisionId : Uuid
  deriving DecidableEq

inductive LocalWriteRequest where
  | create (request : CreateRequest)
  | edit (request : EditRequest)
  | delete (request : DeleteRequest)

/-! ## What a token binds -/

def segmentValue : Segment → Json
  | .key name => .str name
  | .index i => .num (.rational i)

def kindText : RevisableKind → JsString
  | .object => js "object"
  | .activity => js "activity"

def representationText : NewRepresentation → JsString
  | .embedded => js "embedded"
  | .reference => js "reference"

def bindableResource (resource : NewResource) : Json :=
  .obj [(js "path", .arr (resource.path.map segmentValue)),
    (js "kind", .str (kindText resource.kind)),
    (js "representation",
      .str (representationText (resource.representation.getD .embedded)))]

/-- A create as a preview token binds it, with defaults spelled out. -/
def bindableRequest (request : CreateRequest) : Json :=
  .obj [(js "operation", .str (js "create")),
    (js "actorId", .str (uuidText request.actorId)),
    (js "document", request.value),
    (js "resources", .arr (request.resources.map bindableResource)),
    (js "publish", .bool request.publish)]

/-- An edit or deletion as a preview token binds it. -/
def bindableExisting (operation : JsString)
    (actorId objectId expectedRevisionId : Uuid) (document : Option Json) :
    Json :=
  .obj ([(js "operation", .str operation),
    (js "actorId", .str (uuidText actorId)),
    (js "objectId", .str (uuidText objectId)),
    (js "expectedRevisionId", .str (uuidText expectedRevisionId))] ++
    document.toList.map fun value => (js "document", value))

def LocalWriteRequest.bindable : LocalWriteRequest → Json
  | .create request => bindableRequest request
  | .edit request =>
      bindableExisting (js "edit") request.actorId request.objectId
        request.expectedRevisionId (some request.value)
  | .delete request =>
      bindableExisting (js "delete") request.actorId request.objectId
        request.expectedRevisionId none

/-! ## Requests that are bound alike -/

/-- A descriptor with its default. -/
def NewResource.bound (resource : NewResource) :
    FieldPath × RevisableKind × NewRepresentation :=
  (resource.path, resource.kind, resource.representation.getD .embedded)

/-- The same request up to the order of the members of its document and the
defaults of its descriptors. -/
inductive SameRequest : LocalWriteRequest → LocalWriteRequest → Prop
  | create (request other : CreateRequest)
      (hactor : request.actorId = other.actorId)
      (hdocument : request.value.Alike other.value)
      (hresources : request.resources.map NewResource.bound =
        other.resources.map NewResource.bound)
      (hpublish : request.publish = other.publish) :
      SameRequest (.create request) (.create other)
  | edit (request other : EditRequest)
      (hactor : request.actorId = other.actorId)
      (hobject : request.objectId = other.objectId)
      (hrevision : request.expectedRevisionId = other.expectedRevisionId)
      (hdocument : request.value.Alike other.value) :
      SameRequest (.edit request) (.edit other)
  | delete (request : DeleteRequest) :
      SameRequest (.delete request) (.delete request)

theorem uuidText_injective : Function.Injective uuidText := by
  intro id other h
  have hread := readUuid_uuidText id
  rw [h, readUuid_uuidText] at hread
  exact (Option.some.inj hread).symm

theorem kindText_injective : Function.Injective kindText := by
  intro kind other h
  match kind, other with
  | .object, .object => rfl
  | .activity, .activity => rfl
  | .object, .activity => exact absurd h (by decide)
  | .activity, .object => exact absurd h (by decide)

theorem representationText_injective :
    Function.Injective representationText := by
  intro representation other h
  match representation, other with
  | .embedded, .embedded => rfl
  | .reference, .reference => rfl
  | .embedded, .reference => exact absurd h (by decide)
  | .reference, .embedded => exact absurd h (by decide)

theorem segmentValue_alike {segment other : Segment} :
    (segmentValue segment).Alike (segmentValue other) ↔ segment = other := by
  match segment, other with
  | .key name, .key _ => simp [segmentValue]
  | .index i, .index j => simp [segmentValue, Json.Alike, JsNumber.unsigned]
  | .key _, .index _ => simp [segmentValue, Json.Alike]
  | .index _, .key _ => simp [segmentValue, Json.Alike]

theorem forall₂_bound {resources others : List NewResource} :
    List.Forall₂ (fun a b => NewResource.bound a = NewResource.bound b)
        resources others ↔
      resources.map NewResource.bound = others.map NewResource.bound := by
  rw [← List.forall₂_eq_eq_eq, List.forall₂_map_left_iff,
    List.forall₂_map_right_iff]

theorem bindableResource_alike {resource other : NewResource} :
    (bindableResource resource).Alike (bindableResource other) ↔
      resource.bound = other.bound := by
  rw [bindableResource, bindableResource, Json.alike_obj_iff
    (by simp only [List.map_cons, List.map_nil])
    (by simp only [List.map_cons, List.map_nil]; decide)]
  simp only [List.forall₂_cons, List.forall₂_nil_right_iff, and_true,
    Json.alike_arr, List.forall₂_map_left_iff, List.forall₂_map_right_iff,
    segmentValue_alike, List.forall₂_eq_eq_eq, Json.alike_str,
    kindText_injective.eq_iff, representationText_injective.eq_iff,
    NewResource.bound, Prod.mk.injEq]

theorem bindableRequest_alike {request other : CreateRequest} :
    (bindableRequest request).Alike (bindableRequest other) ↔
      SameRequest (.create request) (.create other) := by
  rw [bindableRequest, bindableRequest, Json.alike_obj_iff
    (by simp only [List.map_cons, List.map_nil])
    (by simp only [List.map_cons, List.map_nil]; decide)]
  simp only [List.forall₂_cons, List.forall₂_nil_right_iff, and_true,
    Json.alike_arr, List.forall₂_map_left_iff, List.forall₂_map_right_iff,
    bindableResource_alike, Json.alike_str, Json.alike_bool,
    uuidText_injective.eq_iff, true_and]
  rw [forall₂_bound]
  constructor
  · rintro ⟨hactor, hdocument, hresources, hpublish⟩
    exact .create request other hactor hdocument hresources hpublish
  · rintro ⟨⟩
    exact ⟨‹_›, ‹_›, ‹_›, ‹_›⟩

section Existing

variable {operation : JsString} {actorId objectId revisionId : Uuid}
  {actorId' objectId' revisionId' : Uuid}

theorem bindableExisting_some {value value' : Json} :
    (bindableExisting operation actorId objectId revisionId (some value)).Alike
        (bindableExisting operation actorId' objectId' revisionId'
          (some value')) ↔
      actorId = actorId' ∧ objectId = objectId' ∧ revisionId = revisionId' ∧
        value.Alike value' := by
  simp only [bindableExisting, Option.toList_some, List.map_cons, List.map_nil,
    List.cons_append, List.nil_append]
  rw [Json.alike_obj_iff (by simp only [List.map_cons, List.map_nil])
    (by simp only [List.map_cons, List.map_nil]; decide)]
  simp only [List.forall₂_cons, List.forall₂_nil_right_iff, and_true,
    Json.alike_str, uuidText_injective.eq_iff, true_and]

theorem bindableExisting_none :
    (bindableExisting operation actorId objectId revisionId none).Alike
        (bindableExisting operation actorId' objectId' revisionId' none) ↔
      actorId = actorId' ∧ objectId = objectId' ∧ revisionId = revisionId' := by
  simp only [bindableExisting, Option.toList_none, List.map_nil,
    List.append_nil]
  rw [Json.alike_obj_iff (by simp only [List.map_cons, List.map_nil])
    (by simp only [List.map_cons, List.map_nil]; decide)]
  simp only [List.forall₂_cons, List.forall₂_nil_right_iff, and_true,
    Json.alike_str, uuidText_injective.eq_iff, true_and]

end Existing

def LocalWriteRequest.operation : LocalWriteRequest → JsString
  | .create _ => js "create"
  | .edit _ => js "edit"
  | .delete _ => js "delete"

theorem bindable_operation (request : LocalWriteRequest) :
    ∃ ms, request.bindable = .obj ms ∧
      ms.lookup (js "operation") = some (.str request.operation) := by
  match request with
  | .create request => exact ⟨_, rfl, List.lookup_cons_self⟩
  | .edit request => exact ⟨_, rfl, List.lookup_cons_self⟩
  | .delete request => exact ⟨_, rfl, List.lookup_cons_self⟩

theorem operation_of_alike {request other : LocalWriteRequest}
    (h : request.bindable.Alike other.bindable) :
    request.operation = other.operation := by
  obtain ⟨ms, hms, hoperation⟩ := bindable_operation request
  obtain ⟨others, hothers, hother⟩ := bindable_operation other
  rw [hms, hothers] at h
  obtain ⟨value, hvalue, halike⟩ := h.lookup hoperation
  rw [hother] at hvalue
  obtain rfl := Option.some.inj hvalue
  exact Json.alike_str.mp halike

/-- What a token binds determines the request. -/
theorem bindable_alike {request other : LocalWriteRequest} :
    request.bindable.Alike other.bindable ↔ SameRequest request other := by
  match request, other with
  | .create request, .create other => exact bindableRequest_alike
  | .edit request, .edit other =>
      apply bindableExisting_some.trans
      constructor
      · rintro ⟨hactor, hobject, hrevision, hdocument⟩
        exact .edit request other hactor hobject hrevision hdocument
      · rintro ⟨⟩
        exact ⟨‹_›, ‹_›, ‹_›, ‹_›⟩
  | .delete ⟨_, _, _⟩, .delete ⟨_, _, _⟩ =>
      apply bindableExisting_none.trans
      constructor
      · rintro ⟨rfl, rfl, rfl⟩
        exact .delete _
      · rintro ⟨⟩
        exact ⟨rfl, rfl, rfl⟩
  | .create _, .edit _ | .create _, .delete _ | .edit _, .create _
  | .edit _, .delete _ | .delete _, .create _ | .delete _, .edit _ =>
      constructor
      · intro h
        have hoperation := operation_of_alike h
        simp only [LocalWriteRequest.operation] at hoperation
        exact absurd hoperation (by decide)
      · rintro ⟨⟩

end DrFed.LocalWrite
