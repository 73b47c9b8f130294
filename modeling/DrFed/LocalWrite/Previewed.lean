import DrFed.LocalWrite.Created
import DrFed.LocalWrite.Operation
import DrFed.Support.Sha256

/-!
# Tokens and previews

A token that is accepted for a request was issued by a preview of the same
request by the same account within the hour, and carries the values that this
preview showed.
-/

namespace DrFed.LocalWrite

open Document Store

/-! ## Bound requests as values -/

theorem segmentValue_distinct (segment : Segment) :
    (segmentValue segment).Distinct := by
  rcases segment with name | i
  · trivial
  · trivial

theorem bindableResource_distinct (resource : NewResource) :
    (bindableResource resource).Distinct := by
  rw [bindableResource, Json.distinct_obj]
  constructor
  · simp only [List.map_cons, List.map_nil]
    decide
  · have hpath : (Json.arr (resource.path.map segmentValue)).Distinct := by
      rw [Json.distinct_arr]
      intro item hitem
      obtain ⟨segment, -, rfl⟩ := List.mem_map.mp hitem
      exact segmentValue_distinct segment
    simp only [List.forall_mem_cons, List.not_mem_nil, false_imp_iff,
      implies_true, and_true]
    exact ⟨hpath, trivial, trivial⟩

theorem bindableRequest_distinct (request : CreateRequest) :
    (bindableRequest request).Distinct := by
  have hresources :
      (Json.arr (request.resources.map bindableResource)).Distinct := by
    rw [Json.distinct_arr]
    intro item hitem
    obtain ⟨resource, -, rfl⟩ := List.mem_map.mp hitem
    exact bindableResource_distinct resource
  rw [bindableRequest, Json.distinct_obj]
  constructor
  · simp only [List.map_cons, List.map_nil]
    decide
  · simp only [List.forall_mem_cons, List.not_mem_nil, false_imp_iff,
      implies_true, and_true]
    exact ⟨trivial, trivial, request.document.distinct, hresources, trivial⟩

/-- The numbers of a checked create are those of its document, and the safe
integers of its paths. -/
theorem bindableRequest_doubles {request : CreateRequest}
    (hdocument : request.value.Doubles)
    (hpaths : (request.resources.all fun resource => isPath resource.path) =
      true) : (bindableRequest request).Doubles := by
  have hsegment : ∀ resource ∈ request.resources, ∀ segment ∈ resource.path,
      (segmentValue segment).Doubles := by
    intro resource hresource segment hsegment
    have hpath := List.all_eq_true.mp hpaths resource hresource
    have hsafe := List.all_eq_true.mp hpath segment hsegment
    rcases segment with name | i
    · trivial
    · have hi : i ≤ 9007199254740991 := of_decide_eq_true hsafe
      have hdouble : (JsNumber.rational ((i : ℤ) : ℚ)).IsDouble :=
        TokenRuntime.isDouble_intCast (by rw [abs_lt]; omega)
      exact_mod_cast hdouble
  refine ⟨trivial, trivial, hdocument, Json.everyNumber_arr.mpr ?_, trivial,
    trivial⟩
  intro value hvalue
  obtain ⟨resource, hresource, rfl⟩ := List.mem_map.mp hvalue
  refine ⟨Json.everyNumber_arr.mpr ?_, trivial, trivial, trivial⟩
  intro value hvalue
  obtain ⟨segment, hmem, rfl⟩ := List.mem_map.mp hvalue
  exact hsegment resource hresource segment hmem

theorem bindableExisting_distinct (operation : JsString)
    (actorId objectId revisionId : Uuid) {document : Option Json}
    (h : ∀ value ∈ document, value.Distinct) :
    (bindableExisting operation actorId objectId revisionId
      document).Distinct := by
  rw [bindableExisting, Json.distinct_obj]
  rcases document with _ | value
  · simp only [Option.toList_none, List.map_nil, List.append_nil,
      List.map_cons, List.forall_mem_cons, List.not_mem_nil, false_imp_iff,
      implies_true, and_true]
    exact ⟨by decide, trivial, trivial, trivial, trivial⟩
  · simp only [Option.toList_some, List.map_cons, List.map_nil,
      List.cons_append, List.nil_append, List.forall_mem_cons,
      List.not_mem_nil, false_imp_iff, implies_true, and_true]
    exact ⟨by decide, trivial, trivial, trivial, trivial, h value rfl⟩

theorem bindable_distinct (request : LocalWriteRequest) :
    request.bindable.Distinct := by
  rcases request with request | request | request
  · exact bindableRequest_distinct request
  · apply bindableExisting_distinct
    intro value hvalue
    obtain rfl := Option.some.inj hvalue
    exact request.document.distinct
  · apply bindableExisting_distinct
    intro value hvalue
    cases hvalue

/-! ## Previews -/

/-- A preview that was shown: to whom, of what, with which values and when. -/
structure ShownPreview where
  account : Uuid
  request : LocalWriteRequest
  allocation : Allocation
  shown : ℤ

namespace TokenRuntime

variable {Key : Type} (R : TokenRuntime Key)

/-- The bytes that stand for a request. -/
def requestBytes (request : LocalWriteRequest) : List UInt8 :=
  encodeUtf8 (request.bindable.canonicalJson R.numeral)

def previewBody (preview : ShownPreview) : JsString :=
  R.tokenBody preview.account (R.digestRequest preview.request.bindable)
    preview.allocation preview.shown

/-- The token that a preview hands out. -/
def previewToken (key : Key) (preview : ShownPreview) : JsString :=
  R.issueToken key preview.account (R.digestRequest preview.request.bindable)
    preview.allocation preview.shown

/-- What the previews of a server show can be carried by tokens. -/
structure Carries (preview : ShownPreview) : Prop where
  reads : R.ReadsBack preview.allocation
  time : IsTime preview.shown
  doubles : preview.request.bindable.Doubles

/-- Without the key, a body is signed only if a preview signed it, as far as
the digests of signatures tell. -/
def Unforged (key : Key) (previews : List ShownPreview) (token : JsString) :
    Prop :=
  ∀ body signature, token.splitOn (unit '.') = [body, signature] →
    R.sha256 (encodeUtf8 (R.sign key body)) =
      R.sha256 (encodeUtf8 signature) →
    ∃ preview ∈ previews, R.previewBody preview = body

/-- No previewed request has the digest of another one. -/
def CollisionFree (previews : List ShownPreview)
    (request : LocalWriteRequest) : Prop :=
  ∀ preview ∈ previews,
    R.sha256 (R.requestBytes preview.request) =
      R.sha256 (R.requestBytes request) →
    R.requestBytes preview.request = R.requestBytes request

section Accepted

variable {R} {request other : LocalWriteRequest}

/-- The bytes of a request determine what it asks for. -/
theorem requestBytes_eq_iff (hnumbers : WritesNumbers R.numeral)
    (hrequest : request.bindable.Doubles) (hother : other.bindable.Doubles) :
    R.requestBytes request = R.requestBytes other ↔
      SameRequest request other := by
  rw [← bindable_alike, ← Json.canonicalJson_eq_iff hnumbers hrequest hother
    (bindable_distinct request) (bindable_distinct other)]
  constructor
  · apply encodeUtf8_injective
    · exact Json.isWellFormed_canonicalJson hnumbers hrequest
    · exact Json.isWellFormed_canonicalJson hnumbers hother
  · exact congrArg encodeUtf8

theorem digestRequest_eq_iff :
    R.digestRequest request.bindable = R.digestRequest other.bindable ↔
      R.sha256 (R.requestBytes request) = R.sha256 (R.requestBytes other) :=
  base64url_injective.eq_iff

theorem digestRequest_of_same (hnumbers : WritesNumbers R.numeral)
    (hrequest : request.bindable.Doubles) (hother : other.bindable.Doubles)
    (h : SameRequest request other) :
    R.digestRequest request.bindable = R.digestRequest other.bindable := by
  apply digestRequest_eq_iff.mpr
  rw [(requestBytes_eq_iff hnumbers hrequest hother).mpr h]

theorem readToken_eq_some {key : Key} {token digest : JsString}
    {account : Uuid} {now : ℤ} {allocation : Allocation}
    (h : R.readToken key token account digest now = some allocation) :
    ∃ body signature, token.splitOn (unit '.') = [body, signature] ∧
      R.sha256 (encodeUtf8 (R.sign key body)) =
        R.sha256 (encodeUtf8 signature) ∧
      (parseJson (decodeUtf8 (fromBase64url body))).bind
        (R.readPayload account digest now) = some allocation := by
  rw [readToken] at h
  split at h
  next body signature hsplit =>
    split at h
    next => cases h
    next hsame => exact ⟨body, signature, hsplit, not_not.mp hsame, h⟩
  next => cases h

/-- A token is accepted for a request only if a preview of the same request
issued it to the same account within the hour, and it carries what that preview
showed. -/
theorem readToken_previewed {key : Key} {previews : List ShownPreview}
    (hcarries : ∀ preview ∈ previews, R.Carries preview) {token : JsString}
    (hforged : R.Unforged key previews token)
    (hrequest : request.bindable.Doubles)
    (hcollision : R.CollisionFree previews request) {account : Uuid} {now : ℤ}
    {allocation : Allocation}
    (h : R.readToken key token account (R.digestRequest request.bindable) now =
      some allocation) :
    ∃ preview ∈ previews, preview.account = account ∧
      SameRequest preview.request request ∧
      preview.allocation = allocation ∧
      now < preview.shown + tokenLifetime := by
  obtain ⟨body, signature, hsplit, hsame, hread⟩ := readToken_eq_some h
  obtain ⟨preview, hmem, rfl⟩ := hforged body signature hsplit hsame
  have hpreview := hcarries preview hmem
  rw [previewBody, parseJson_tokenBody hpreview.reads.numbers hpreview.time,
    Option.bind_some, readPayload_payload hpreview.reads] at hread
  split at hread
  next hholds =>
    obtain ⟨haccount, hdigest, hlater⟩ := hholds
    refine ⟨preview, hmem, haccount.symm, ?_, Option.some.inj hread, hlater⟩
    apply (requestBytes_eq_iff hpreview.reads.numbers hpreview.doubles
      hrequest).mp
    apply hcollision preview hmem
    exact (digestRequest_eq_iff.mp hdigest).symm
  next => cases hread

/-- The token of a preview is read as the values that the preview showed, by
its account, for its request and for an hour, and otherwise it is not read. -/
theorem readToken_previewToken {preview : ShownPreview}
    (hcarries : R.Carries preview) (hrequest : request.bindable.Doubles)
    (hcollision : R.CollisionFree [preview] request) (key : Key)
    (account : Uuid) (later : ℤ) (allocation : Allocation) :
    R.readToken key (R.previewToken key preview) account
        (R.digestRequest request.bindable) later = some allocation ↔
      preview.account = account ∧ SameRequest preview.request request ∧
        later < preview.shown + tokenLifetime ∧
        preview.allocation = allocation := by
  have hdigest : R.digestRequest request.bindable =
      R.digestRequest preview.request.bindable ↔
        SameRequest preview.request request := by
    rw [eq_comm, digestRequest_eq_iff,
      ← requestBytes_eq_iff hcarries.reads.numbers hcarries.doubles hrequest]
    exact ⟨hcollision preview List.mem_cons_self, congrArg R.sha256⟩
  rw [previewToken, readToken_issueToken hcarries.reads hcarries.time]
  constructor
  · intro h
    split at h
    next hholds =>
      obtain ⟨haccount, hsame, hlater⟩ := hholds
      exact ⟨haccount.symm, hdigest.mp hsame, hlater, Option.some.inj h⟩
    next => cases h
  · rintro ⟨haccount, hsame, hlater, rfl⟩
    rw [if_pos ⟨haccount.symm, hdigest.mpr hsame, hlater⟩]

/-- The token of a preview is no forgery. -/
theorem unforged_previewToken (key : Key) {previews : List ShownPreview}
    {preview : ShownPreview} (hmem : preview ∈ previews) :
    R.Unforged key previews (R.previewToken key preview) := by
  intro body signature hsplit _
  have hbody : unit '.' ∉ R.previewBody preview := notMem_base64url _
  have hsignature : unit '.' ∉ R.sign key (R.previewBody preview) :=
    notMem_base64url _
  have hparts : (R.previewToken key preview).splitOn (unit '.') =
      [R.previewBody preview, R.sign key (R.previewBody preview)] :=
    splitOn_dot hbody hsignature
  rw [hparts, List.cons.injEq] at hsplit
  exact ⟨preview, hmem, hsplit.1⟩

end Accepted

end TokenRuntime

/-! ## A previewed create -/

/-- A platform at the first instant of 2026. -/
def plainTokens : TokenRuntime (List UInt8) where
  hmac := hmacSha256
  sha256 := sha256
  validateUuid := fun text => (readUuid text).any fun id => IsRfcUuid id
  instantText := fun _ => js "2026-01-01T00:00:00Z"
  instantFrom := fun value =>
    if value = .str (js "2026-01-01T00:00:00Z") then some 1767225600000000
    else none
  numeral := exactNumeral

def writer : WritingActor where
  id := 0x019b76da_a7ff_7000_8000_000000000001
  iri := js "https://h.example/actors/019b76da-a7ff-7000-8000-000000000001"
  instanceId := 3
  origin := plainOrigin

/-- A `Create` of two notes, of which it refers to the first. -/
def notesRequest (document : JsonObject)
    (representation : Option NewRepresentation) : CreateRequest where
  actorId := writer.id
  document
  resources :=
    [⟨[], .activity, none⟩,
      ⟨[.key (js "object"), .index 0], .object, some .reference⟩,
      ⟨[.key (js "object"), .index 1], .object, representation⟩]
  publish := true

def swappedNotes : JsonObject :=
  ⟨[(js "object", .arr [plainNote (js "a"), plainNote (js "b")]),
    (js "type", .str (js "Create"))], by decide⟩

def noteIds : List Uuid :=
  [0x019b76da_a800_7000_8000_000000000001,
    0x019b76da_a800_7000_8000_000000000002,
    0x019b76da_a800_7000_8000_000000000003]

def notesPreview : ShownPreview where
  account := 7
  request := .create (notesRequest twoNotes.document (some .embedded))
  allocation := allocate (notesRequest twoNotes.document
    (some .embedded)).resources noteIds 1767225600000000
  shown := 1767225600000

example : plainTokens.digestRequest notesPreview.request.bindable =
    js "LSpfGgXDofig9MgQ2yxW1uOeTzovTQzVEXW_GV4W0aw" := by
  decide +kernel

theorem readsBack_notes : plainTokens.ReadsBack notesPreview.allocation where
  numbers := writesNumbers_exact
  uuids := by decide +kernel
  timestamp := by simp [plainTokens, notesPreview, allocate]

theorem twoNotes_doubles : twoNotes.value.Doubles :=
  ⟨trivial, ⟨⟨trivial, trivial, trivial⟩, ⟨trivial, trivial, trivial⟩,
    trivial⟩, trivial⟩

theorem swappedNotes_doubles : (Json.obj swappedNotes.members).Doubles :=
  ⟨⟨⟨trivial, trivial, trivial⟩, ⟨trivial, trivial, trivial⟩, trivial⟩,
    trivial, trivial⟩

theorem notes_doubles {document : JsonObject}
    (h : (Json.obj document.members).Doubles) :
    (LocalWriteRequest.create (notesRequest document none)).bindable.Doubles :=
  @bindableRequest_doubles (notesRequest document none) h rfl

theorem carries_notesPreview : plainTokens.Carries notesPreview where
  reads := readsBack_notes
  time := by
    show TokenRuntime.IsTime 1767225600000
    rw [TokenRuntime.IsTime]
    norm_num
  doubles := bindableRequest_doubles twoNotes_doubles rfl

/-- A minute later the token is still valid. -/
theorem notesPreview_fresh :
    1767225660000 < notesPreview.shown + tokenLifetime := by
  rw [notesPreview, tokenLifetime]
  norm_num

/-- The members may be swapped, and the default may be left out. -/
theorem sameRequest_swappedNotes : SameRequest notesPreview.request
    (.create (notesRequest swappedNotes none)) := by
  refine .create _ _ rfl ?_ rfl rfl
  apply (Json.canonical_eq_iff _ _ twoNotes.document.distinct
    swappedNotes.distinct).mp
  decide +kernel

theorem readToken_previewToken_notes :
    plainTokens.readToken [1, 2, 3]
        (plainTokens.previewToken [1, 2, 3] notesPreview) 7
        (plainTokens.digestRequest (LocalWriteRequest.create
          (notesRequest swappedNotes none)).bindable) 1767225660000 =
      some notesPreview.allocation := by
  have hrequest := notes_doubles swappedNotes_doubles
  apply (TokenRuntime.readToken_previewToken carries_notesPreview hrequest
    ?_ [1, 2, 3] 7 1767225660000 notesPreview.allocation).mpr
  · exact ⟨rfl, sameRequest_swappedNotes, notesPreview_fresh, rfl⟩
  · intro preview hmem _
    rw [List.mem_singleton.mp hmem]
    exact (TokenRuntime.requestBytes_eq_iff writesNumbers_exact
      carries_notesPreview.doubles hrequest).mpr sameRequest_swappedNotes

end DrFed.LocalWrite
