import DrFed.LocalWrite.Previewed

/-!
# Commits of previewed creates

Prepared again with the values of a preview, a create is what the preview
showed, whatever the database has come to hold since.  So a commit with a
token saves what was shown, or nothing.
-/

namespace DrFed.LocalWrite

open Document Store

/-! ## Preparing again -/

section Again

variable {P : Platform} {server : Server} {actor : WritingActor}
  {allocation : Allocation}

theorem denied_of_mem {nodes : List DocumentNode}
    {created : List (FieldPath × RevisableKind)} {allocated : List JsString}
    {lookups : IdentityLookups} {outcome : DocumentAuthority}
    (h : outcome ∈ deniedClaims server nodes created allocated lookups) :
    outcome.allowed = false := by
  obtain ⟨claim, -, rfl⟩ := List.mem_map.mp h
  rfl

/-- An accepted document has no denied claims. -/
theorem deniedClaims_of_accepts (submitted : JsonDocument)
    {nodes : List DocumentNode} {created : List (FieldPath × RevisableKind)}
    {allocated : List JsString} {lookups : IdentityLookups}
    {fields : List ServerOwnedField} {result : ValidationResult}
    (h : prepareDocument P submitted.value
      { authority := ⟨true, []⟩ ::
          deniedClaims server nodes created allocated lookups
        serverOwnedFields := fields } = .ok result)
    (haccepts : result.accepts = true) :
    deniedClaims server nodes created allocated lookups = [] := by
  have hallowed := (preparedFrom submitted h haccepts).allowed
  apply List.eq_nil_iff_forall_not_mem.mpr
  intro outcome hmem
  have hdenied := denied_of_mem hmem
  rw [hallowed outcome (List.mem_cons_of_mem _ hmem)] at hdenied
  cases hdenied

/-! ### Descriptors with their defaults -/

/-- A planned resource whose representation is spelled out. -/
def PlannedResource.stated (planned : PlannedResource) : PlannedResource :=
  { planned with
    representation := some (planned.representation.getD .embedded) }

theorem saveResource_stated (prepared : Json) (preparedNodes : List FieldPath)
    (s : SaveState) (planned : PlannedResource) :
    saveResource server P prepared preparedNodes s planned.stated =
      saveResource server P prepared preparedNodes s planned := by
  obtain ⟨⟨path, kind, representation⟩, id, iri⟩ := planned
  rcases representation with _ | _ | _
  · rfl
  · rfl
  · rfl

/-- Planned resources are sorted by the lengths of their paths alone. -/
theorem map_deepestFirst {β : Type} {f : PlannedResource → β}
    {size : β → ℕ}
    (hsize : ∀ planned, size (f planned) = planned.path.length)
    (planned : List PlannedResource) :
    (deepestFirst planned).map f = (planned.map f).insertionSort fun a b =>
      size b ≤ size a := by
  apply List.map_insertionSort
  intro a _ b _
  rw [hsize, hsize]

/-- The loop over the planned resources is the loop over these resources with
their defaults spelled out. -/
theorem saveResources_stated (prepared : Json) (preparedNodes : List FieldPath)
    (s : SaveState) (planned : List PlannedResource) :
    (deepestFirst planned).foldlM
        (saveResource server P prepared preparedNodes) s =
      (deepestFirst (planned.map PlannedResource.stated)).foldlM
        (saveResource server P prepared preparedNodes) s := by
  have hsorted : (deepestFirst planned).map PlannedResource.stated =
      deepestFirst (planned.map PlannedResource.stated) :=
    @map_deepestFirst _ PlannedResource.stated
      (fun resource : PlannedResource => resource.path.length)
      (fun _ => rfl) planned
  rw [← hsorted, List.foldlM_map]
  simp only [saveResource_stated]

theorem planResource_stated {nodes : List DocumentNode}
    {resource other : NewResource} {planned planned' : PlannedResource}
    (hbound : resource.bound = other.bound)
    (h : planResource server P actor allocation nodes resource = .ok planned)
    (h' : planResource server P actor allocation nodes other = .ok planned') :
    planned.stated = planned'.stated := by
  obtain ⟨rfl, hid, node, hnode, hiri⟩ := planResource_eq_ok h
  obtain ⟨rfl, hid', node', hnode', hiri'⟩ := planResource_eq_ok h'
  obtain ⟨⟨path, kind, representation⟩, id, iri⟩ := planned
  obtain ⟨⟨path', kind', representation'⟩, id', iri'⟩ := planned'
  simp only [NewResource.bound, Prod.mk.injEq] at hbound
  obtain ⟨rfl, rfl, hrepresentation⟩ := hbound
  obtain rfl := Option.some.inj (hid.symm.trans hid')
  obtain rfl := Option.some.inj (hnode.symm.trans hnode')
  obtain rfl := hiri.trans hiri'.symm
  simp only [PlannedResource.stated, hrepresentation]

/-- Descriptors that are bound alike are planned alike. -/
theorem planned_stated {nodes : List DocumentNode}
    {resources others : List NewResource}
    {planned planned' : List PlannedResource}
    (hbound : resources.map NewResource.bound =
      others.map NewResource.bound)
    (h : List.Forall₂ (fun resource planned =>
      planResource server P actor allocation nodes resource = .ok planned)
        resources planned)
    (h' : List.Forall₂ (fun resource planned =>
      planResource server P actor allocation nodes resource = .ok planned)
        others planned') :
    planned.map PlannedResource.stated =
      planned'.map PlannedResource.stated := by
  let Plans := fun bound stated => ∃ resource planned,
    NewResource.bound resource = bound ∧
      planResource server P actor allocation nodes resource = .ok planned ∧
      planned.stated = stated
  have hplans : ∀ {resources planned}, List.Forall₂ (fun resource planned =>
      planResource server P actor allocation nodes resource = .ok planned)
        resources planned →
      List.Forall₂ Plans (resources.map NewResource.bound)
        (planned.map PlannedResource.stated) := by
    intro resources planned h
    rw [List.forall₂_map_left_iff, List.forall₂_map_right_iff]
    exact h.imp fun resource planned hplan =>
      ⟨resource, planned, rfl, hplan, rfl⟩
  have hunique : Relator.RightUnique Plans := by
    rintro bound _ _ ⟨resource, planned, rfl, hplan, rfl⟩
      ⟨other, planned', hother, hplan', rfl⟩
    exact planResource_stated hother.symm hplan hplan'
  have hstated := hplans h
  rw [hbound] at hstated
  exact List.right_unique_forall₂' hunique hstated (hplans h')

/-- The server values do not depend on what the descriptors leave out. -/
theorem flatMap_ownedFields (published : JsString)
    (planned : List PlannedResource) :
    planned.flatMap (ownedFields actor published) =
      (planned.map PlannedResource.stated).flatMap
        (ownedFields actor published) := by
  rw [List.flatMap_map]
  rfl

/-- What an accepted create has gone through, without the lookups, since no
claim was denied, and with every default spelled out. -/
theorem prepareCreate_stated {request : CreateRequest}
    {lookups : IdentityLookups} {write : PreparedWrite}
    (h : prepareCreate server P actor request allocation lookups = .ok write) :
    ∃ nodes planned result saved,
      describeSubmitted P request.value = .ok nodes ∧
      List.Forall₂ (fun resource planned =>
        planResource server P actor allocation nodes resource = .ok planned)
          request.resources planned ∧
      prepareDocument P request.value
        { authority := [⟨true, []⟩]
          serverOwnedFields := (planned.map PlannedResource.stated).flatMap
            (ownedFields actor (server.instantText allocation.timestamp)) } =
          .ok result ∧
      (deepestFirst (planned.map PlannedResource.stated)).foldlM
        (saveResource server P (result.normalizedDocument.getD request.value)
          (((describeDocument P
            (result.normalizedDocument.getD request.value)).getD []).map
              DocumentNode.path))
        ⟨result.normalizedDocument.getD request.value, result.changes, []⟩ =
          .ok saved ∧
      write = ⟨result.diagnostics, saved.changes, saved.resources⟩ := by
  rw [prepareCreate] at h
  obtain ⟨nodes, hdescribed, h⟩ := exists_of_bind_ok h
  obtain ⟨⟨⟩, -, h⟩ := exists_of_bind_ok h
  obtain ⟨⟨⟩, -, h⟩ := exists_of_bind_ok h
  obtain ⟨planned, hplanned, h⟩ := exists_of_bind_ok h
  obtain ⟨result, hresult, h⟩ := exists_of_bind_ok h
  obtain ⟨⟨⟩, haccepts, h⟩ := exists_of_bind_ok h
  obtain ⟨⟨⟩, -, h⟩ := exists_of_bind_ok h
  obtain ⟨saved, hsaved, h⟩ := exists_of_bind_ok h
  have hprepared := prepareDocument_of_mapError hresult
  rw [deniedClaims_of_accepts ⟨request.value, request.document.distinct⟩
    hprepared (demand_eq_ok haccepts), flatMap_ownedFields] at hprepared
  rw [saveResources_stated] at hsaved
  exact ⟨nodes, planned, result, saved, hdescribed, forall_of_mapM hplanned,
    hprepared, hsaved, (Except.ok.inj h).symm⟩

/-- A create of the same document with the same descriptors, up to their
defaults, is prepared alike with the same values, or it is refused, whatever
is registered in between. -/
theorem prepareCreate_again {request other : CreateRequest}
    (hvalue : request.value = other.value)
    (hbound : request.resources.map NewResource.bound =
      other.resources.map NewResource.bound)
    {lookups later : IdentityLookups} {write again : PreparedWrite}
    (h : prepareCreate server P actor request allocation lookups = .ok write)
    (h' : prepareCreate server P actor other allocation later = .ok again) :
    write = again := by
  obtain ⟨nodes, planned, result, saved, hdescribed, hplans, hresult, hsaved,
    rfl⟩ := prepareCreate_stated h
  obtain ⟨nodes', planned', result', saved', hdescribed', hplans', hresult',
    hsaved', rfl⟩ := prepareCreate_stated h'
  rw [hvalue] at hdescribed hresult hsaved
  obtain rfl := Except.ok.inj (hdescribed.symm.trans hdescribed')
  rw [planned_stated hbound hplans hplans'] at hresult hsaved
  obtain rfl := Except.ok.inj (hresult.symm.trans hresult')
  obtain rfl := Except.ok.inj (hsaved.symm.trans hsaved')
  rfl

/-! ### The order of the members -/

/-- Where a resource is and what it becomes. -/
structure ResourcePlace where
  path : FieldPath
  kind : RevisableKind
  id : Uuid
  /-- The IRI of an object.  That of an activity depends on its type. -/
  iri : Option JsString
  deriving DecidableEq

def PreparedResource.place (resource : PreparedResource) : ResourcePlace where
  path := resource.path
  kind := resource.kind
  id := resource.id
  iri := if resource.kind = .object then some resource.iri else none

variable (server actor) in
/-- The place of a resource with an id. -/
def placeOf (path : FieldPath) (kind : RevisableKind) (id : Uuid) :
    ResourcePlace where
  path
  kind
  id
  iri :=
    if kind = .object then
      some (server.getObjectUri actor.origin (.object actor.id id))
    else none

variable (server actor allocation) in
/-- A descriptor and the place of the resource with the id allocated to it. -/
def Places (bound : FieldPath × RevisableKind × NewRepresentation)
    (place : ResourcePlace) : Prop :=
  ∃ id, allocation.ids.lookup (pathKey bound.1) = some id ∧
    place = placeOf server actor bound.1 bound.2.1 id

/-- The places of the saved resources, told by the descriptors and the
allocation alone. -/
theorem prepareCreate_places {request : CreateRequest}
    {lookups : IdentityLookups} {write : PreparedWrite}
    (h : prepareCreate server P actor request allocation lookups = .ok write) :
    ∃ places, List.Forall₂ (Places server actor allocation)
        (request.resources.map NewResource.bound) places ∧
      write.resources.map PreparedResource.place =
        places.insertionSort fun a b => b.path.length ≤ a.path.length := by
  obtain ⟨nodes, planned, prepared, hcreates⟩ := prepareCreate_eq_ok h
  refine ⟨planned.map fun r => placeOf server actor r.path r.kind r.id, ?_, ?_⟩
  · rw [← hcreates.toNewResource, List.forall₂_map_left_iff,
      List.forall₂_map_left_iff, List.forall₂_map_right_iff,
      List.forall₂_same]
    intro resource hmem
    exact ⟨resource.id, (hcreates.plan hmem).2.1, rfl⟩
  · rw [hcreates.resources_eq, List.map_map,
      ← @map_deepestFirst _ (fun r : PlannedResource =>
          placeOf server actor r.path r.kind r.id)
        (fun place => place.path.length) (fun _ => rfl) planned]
    apply List.map_congr_left
    intro resource hmem
    obtain ⟨-, -, node, -, hiri⟩ :=
      hcreates.plan ((deepestFirst_perm planned).mem_iff.mp hmem)
    cases hkind : resource.kind with
    | object =>
        rw [hkind] at hiri
        simp [PreparedResource.place, prepareResource, placeOf, hkind, hiri,
          resourceIri]
    | activity =>
        simp [PreparedResource.place, prepareResource, placeOf, hkind]

/-- Creates that are bound alike are saved at the same places. -/
theorem prepareCreate_bound {request other : CreateRequest}
    (hbound : request.resources.map NewResource.bound =
      other.resources.map NewResource.bound)
    {lookups later : IdentityLookups} {write again : PreparedWrite}
    (h : prepareCreate server P actor request allocation lookups = .ok write)
    (h' : prepareCreate server P actor other allocation later = .ok again) :
    write.resources.map PreparedResource.place =
      again.resources.map PreparedResource.place := by
  obtain ⟨places, hplaces, hwrite⟩ := prepareCreate_places h
  obtain ⟨places', hplaces', hagain⟩ := prepareCreate_places h'
  have hunique : Relator.RightUnique (Places server actor allocation) := by
    rintro bound _ _ ⟨id, hid, rfl⟩ ⟨id', hid', rfl⟩
    rw [Option.some.inj (hid.symm.trans hid')]
  rw [hbound] at hplaces
  rw [hwrite, hagain, List.right_unique_forall₂' hunique hplaces hplaces']

end Again

/-! ## Commits of what was shown -/

/-- A preview of a create showed something, with these server values. -/
def LocalWriteEnvironment.Shows {Key : Type} (env : LocalWriteEnvironment Key)
    (db : WriteDatabase) (account : Uuid) (request : CreateRequest)
    (allocation : Allocation) (shown : LocalWritePreview) : Prop :=
  ∃ drawn timestamp now,
    allocate request.resources drawn timestamp = allocation ∧
      env.previewLocalWrite db account request drawn timestamp now = .ok shown

/-- What a commit saves, beside what a preview showed: the same resources if
the two creates have the same document, and in any case resources with the
same paths, kinds and ids, and objects with the same IRIs, in the same order. -/
structure SavesShown (previewed request : CreateRequest)
    (shown : LocalWritePreview) (result : LocalWriteResult) : Prop where
  places : result.resources.map PreparedResource.place =
    shown.resources.map PreparedResource.place
  resources : previewed.value = request.value →
    result.resources = shown.resources

/-- A commit saves something only for the account of a preview within the
hour, of the same create up to the order of members, the sign of zero and the
defaults.  It saves what the preview showed, if the documents are the same,
and what a preview of the committed create shows with the values of this one,
whatever has been registered in between. -/
theorem commitLocalWrite_previewed {Key : Type}
    {env : LocalWriteEnvironment Key} {previews : List ShownPreview}
    (hcarries : ∀ preview ∈ previews, env.runtime.Carries preview)
    {options : CommitOptions}
    (hforged : env.runtime.Unforged env.previewKey previews
      options.previewToken) {request : CreateRequest}
    (hdocument : request.value.Doubles)
    (hcollision : env.runtime.CollisionFree previews (.create request))
    {db : WriteDatabase} {account : Uuid} {now : ℤ} {result : LocalWriteResult}
    (h : env.commitLocalWrite db account request options now = .ok result) :
    ∃ preview ∈ previews, preview.account = account ∧
      SameRequest preview.request (.create request) ∧
      now < preview.shown + tokenLifetime ∧
      ∀ before previewed shown,
        SameRequest (.create previewed) (.create request) →
        before.findWritingActor account previewed.actorId =
          db.findWritingActor account request.actorId →
        env.Shows before account previewed preview.allocation shown →
        SavesShown previewed request shown result := by
  obtain ⟨allocation, actor, write, hcommits, rfl⟩ :=
    LocalWriteEnvironment.commitLocalWrite_eq_ok_iff.mp h
  have hrequest : (LocalWriteRequest.create request).bindable.Doubles :=
    bindableRequest_doubles hdocument
      (LocalWriteEnvironment.isPath_of_checkCreateRequest hcommits.checked)
  obtain ⟨preview, hmem, haccount, hsame, rfl, hlater⟩ :=
    TokenRuntime.readToken_previewed hcarries hforged hrequest hcollision
      hcommits.read
  refine ⟨preview, hmem, haccount, hsame, hlater, ?_⟩
  rintro before previewed shown hbound hactor
    ⟨drawn, timestamp, time, hallocation, hshown⟩
  obtain ⟨_, again, hwrites, hprepared, rfl⟩ :=
    LocalWriteEnvironment.previewLocalWrite_eq_ok hshown
  rw [hactor] at hwrites
  obtain rfl := Except.ok.inj (hcommits.writes.symm.trans hwrites)
  rw [hallocation] at hprepared
  rcases hbound with ⟨_, _, -, -, hresources, -⟩
  constructor
  · exact (prepareCreate_bound hresources hprepared hcommits.prepared).symm
  · intro hvalue
    rw [prepareCreate_again hvalue hresources hprepared hcommits.prepared]

/-! ## Two committed notes -/

def plainEnvironment : LocalWriteEnvironment (List UInt8) where
  platform := reducedPlatform
  server := plainServer
  runtime := plainTokens
  previewKey := [1, 2, 3]

/-- The writer is the actor of one account, and nothing else is registered. -/
def plainDatabase : WriteDatabase where
  findWritingActor := fun account actorId =>
    if account = 7 ∧ actorId = writer.id then .ok writer
    else refuse (writeError .actorNotFound "Can't find the actor.")
  lookups := fun _ => nothingRegistered
  saved := fun _ => false

theorem sameRequest_notes : SameRequest notesPreview.request
    (.create (notesRequest twoNotes.document none)) := by
  refine .create _ _ rfl ?_ rfl rfl
  exact (Json.canonical_eq_iff _ _ twoNotes.document.distinct
    twoNotes.document.distinct).mp rfl

/-- The second note keeps its place in the list, and the activity is last. -/
def notePlaces : List ResourcePlace :=
  [⟨[.key (js "object"), .index 0], .object,
      0x019b76da_a800_7000_8000_000000000002,
      some (js "https://h.example/notes/019b76da-a800-7000-8000-000000000002")⟩,
    ⟨[.key (js "object"), .index 1], .object,
      0x019b76da_a800_7000_8000_000000000003,
      some (js "https://h.example/notes/019b76da-a800-7000-8000-000000000003")⟩,
    ⟨[], .activity, 0x019b76da_a800_7000_8000_000000000001, none⟩]

theorem previewLocalWrite_notes : ∃ shown,
    plainEnvironment.previewLocalWrite plainDatabase 7
        (notesRequest twoNotes.document (some .embedded)) noteIds
        1767225600000000 1767225600000 = .ok shown ∧
      shown.token = plainTokens.previewToken [1, 2, 3] notesPreview ∧
      shown.resources.map PreparedResource.place = notePlaces := by
  have hplaces : (plainEnvironment.previewLocalWrite plainDatabase 7
      (notesRequest twoNotes.document (some .embedded)) noteIds
      1767225600000000 1767225600000).toOption.map
        (fun shown => shown.resources.map PreparedResource.place) =
      some notePlaces := by
    decide +kernel
  cases hshown : plainEnvironment.previewLocalWrite plainDatabase 7
      (notesRequest twoNotes.document (some .embedded)) noteIds
      1767225600000000 1767225600000 with
  | error failure =>
      rw [hshown] at hplaces
      cases hplaces
  | ok shown =>
      rw [hshown] at hplaces
      refine ⟨shown, rfl, ?_, Option.some.inj hplaces⟩
      obtain ⟨_, _, -, -, rfl⟩ :=
        LocalWriteEnvironment.previewLocalWrite_eq_ok hshown
      rfl

theorem commitLocalWrite_notes {document : JsonObject}
    (hdoubles : (Json.obj document.members).Doubles)
    (hsame : SameRequest notesPreview.request
      (.create (notesRequest document none)))
    (hprepared : (plainEnvironment.prepare plainDatabase writer
      (notesRequest document none)
        notesPreview.allocation).toOption.isSome = true) :
    ∃ result, plainEnvironment.commitLocalWrite plainDatabase 7
      (notesRequest document none)
      ⟨plainTokens.previewToken [1, 2, 3] notesPreview, true⟩ 1767225660000 =
        .ok result := by
  obtain ⟨write, hwrite⟩ := exists_of_toOption hprepared
  have hdigest : plainTokens.digestRequest
      (LocalWriteRequest.create (notesRequest document none)).bindable =
        plainTokens.digestRequest notesPreview.request.bindable :=
    (TokenRuntime.digestRequest_of_same writesNumbers_exact
      carries_notesPreview.doubles (notes_doubles hdoubles) hsame).symm
  refine ⟨_, LocalWriteEnvironment.commitLocalWrite_eq_ok_iff.mpr
    ⟨notesPreview.allocation, writer, write, ?_, rfl⟩⟩
  refine ⟨?_, ?_, rfl, ?_, rfl, hwrite, ?_⟩
  · have hactor : plainTokens.validateUuid (uuidText writer.id) = true := by
      decide +kernel
    change (demand (plainTokens.validateUuid (uuidText writer.id)) _ >>= _) = _
    rw [hactor]
    rfl
  · exact List.isEmpty_eq_false_iff.mpr (List.append_ne_nil_of_right_ne_nil _
      (List.cons_ne_nil _ _))
  · change plainTokens.readToken _ _ _ (plainTokens.digestRequest
      (LocalWriteRequest.create (notesRequest document none)).bindable) _ = _
    rw [hdigest]
    exact (TokenRuntime.readToken_issueToken carries_notesPreview.reads
      carries_notesPreview.time _ _ _ _).trans
        (if_pos ⟨rfl, rfl, notesPreview_fresh⟩)
  · exact List.all_eq_true.mpr fun _ _ => rfl

/-- A preview of two notes, and two commits with its token: one that leaves
out the default and saves what was shown, and one with swapped members. -/
theorem commitLocalWrite_previewed_notes : ∃ shown saved swapped,
    plainEnvironment.previewLocalWrite plainDatabase 7
        (notesRequest twoNotes.document (some .embedded)) noteIds
        1767225600000000 1767225600000 = .ok shown ∧
    shown.resources.map PreparedResource.place = notePlaces ∧
    plainEnvironment.commitLocalWrite plainDatabase 7
        (notesRequest twoNotes.document none) ⟨shown.token, true⟩
        1767225660000 = .ok saved ∧
    saved.resources = shown.resources ∧
    plainEnvironment.commitLocalWrite plainDatabase 7
        (notesRequest swappedNotes none) ⟨shown.token, true⟩
        1767225660000 = .ok swapped ∧
    swapped.resources.map PreparedResource.place = notePlaces := by
  obtain ⟨shown, hshown, htoken, hplaces⟩ := previewLocalWrite_notes
  obtain ⟨saved, hsaved⟩ := commitLocalWrite_notes twoNotes_doubles
    sameRequest_notes (by decide +kernel)
  obtain ⟨swapped, hswapped⟩ := commitLocalWrite_notes swappedNotes_doubles
    sameRequest_swappedNotes (by decide +kernel)
  have hcarries : ∀ preview ∈ [notesPreview],
      plainEnvironment.runtime.Carries preview := by
    intro preview hmem
    rw [List.mem_singleton.mp hmem]
    exact carries_notesPreview
  have hforged : plainEnvironment.runtime.Unforged plainEnvironment.previewKey
      [notesPreview] (plainTokens.previewToken [1, 2, 3] notesPreview) :=
    TokenRuntime.unforged_previewToken _ List.mem_cons_self
  have hshows : plainEnvironment.Shows plainDatabase 7
      (notesRequest twoNotes.document (some .embedded))
      notesPreview.allocation shown :=
    ⟨noteIds, 1767225600000000, 1767225600000, rfl, hshown⟩
  rw [← htoken] at hsaved hswapped hforged
  have hsaves : ∀ {document : JsonObject} {result : LocalWriteResult},
      (Json.obj document.members).Doubles →
      SameRequest notesPreview.request
        (.create (notesRequest document none)) →
      plainEnvironment.commitLocalWrite plainDatabase 7
        (notesRequest document none) ⟨shown.token, true⟩ 1767225660000 =
          .ok result →
      SavesShown (notesRequest twoNotes.document (some .embedded))
        (notesRequest document none) shown result := by
    intro document result hdoubles hsame hresult
    have hcollision : plainEnvironment.runtime.CollisionFree [notesPreview]
        (.create (notesRequest document none)) := by
      intro preview hmem _
      rw [List.mem_singleton.mp hmem]
      exact (TokenRuntime.requestBytes_eq_iff writesNumbers_exact
        carries_notesPreview.doubles (notes_doubles hdoubles)).mpr hsame
    obtain ⟨preview, hmem, -, -, -, hsaves⟩ :=
      @commitLocalWrite_previewed _ plainEnvironment [notesPreview] hcarries
        ⟨shown.token, true⟩ hforged (notesRequest document none) hdoubles
        hcollision plainDatabase 7 1767225660000 result hresult
    rw [List.mem_singleton.mp hmem] at hsaves
    exact hsaves plainDatabase _ shown hsame rfl hshows
  refine ⟨shown, saved, swapped, hshown, hplaces, hsaved, ?_, hswapped, ?_⟩
  · exact (hsaves twoNotes_doubles sameRequest_notes hsaved).resources rfl
  · exact (hsaves swappedNotes_doubles sameRequest_swappedNotes
      hswapped).places.trans hplaces

end DrFed.LocalWrite
