import DrFed.Receipts.Deliveries
import DrFed.Store.Typed

/-!
# What the tables record

The invariant of the tables behind the receipts: every typed row has its first
revision, which has no document when the row has none, an object is stored
with one activity at most, and an object that was not fetched is part of the
activity it is stored with.
-/

namespace DrFed.Receipts

open Store Inbox Delivery Transactions

/-- A first revision of the resource is there. -/
def HasFirst (t : Inbox.Tables) (id : Uuid) : Prop :=
  ∃ row ∈ t.revisions, row.resourceId = id ∧ row.sequence = 1

/-- The document is a part of another one. -/
def EmbeddedIn (document whole : Option Json) : Prop :=
  ∃ (value : Json) (path : FieldPath), path ≠ [] ∧ document = some value ∧
    (whole.bind fun value => value.get? path) = some value

structure Recorded (t : Inbox.Tables) : Prop where
  consistent : Consistent t
  sound : Store.Sound t.toTables
  activities : ∀ row ∈ t.activities, HasFirst t row.id
  objects : ∀ row ∈ t.objects, HasFirst t row.id
  creators : (t.objects.filterMap ActivityPubObject.activityId).Nodup
  documents : ∀ row ∈ t.objects, ∀ first ∈ t.revisions,
    first.resourceId = row.id → first.sequence = 1 → first.kind = .snapshot →
      row.document.isSome = true
  created : ∀ row ∈ t.objects, ∀ id, row.activityId = some id →
    t.kindOf? id = some .activity
  embedded : ∀ row ∈ t.objects, row.fetched = false →
    row.document.isSome = true → ∀ activity ∈ t.activities,
      row.activityId = some activity.id →
        EmbeddedIn row.document activity.document

/-! ## One statement -/

theorem execute_rowSteps {s : Inbox.Statement} {t after : Inbox.Tables}
    (h : s.execute t = .ok after) : RowSteps t.toTables after.toTables := by
  have hafter := Inbox.Statement.execute_effect h
  cases s with
  | registry statement =>
      rw [Inbox.Statement.execute] at h
      cases hstatement : statement.execute t.toTables with
      | error refusal =>
          rw [hstatement] at h
          cases h
      | ok tables =>
          rw [hafter]
          change RowSteps t.toTables (statement.effect t.toTables)
          rw [← Store.execute_effect hstatement]
          exact Store.execute_rowSteps hstatement
  | insertInstance row =>
      have hsame : after.toTables = t.toTables := by
        rw [hafter, Inbox.Statement.effect]
        split_ifs <;> rfl
      rw [hsame]
  | lock id =>
      rw [hafter]
      exact .refl
  | insertActor row =>
      rw [hafter]
      exact .single (.other _ rfl rfl rfl rfl)
  | insertObject row =>
      rw [hafter]
      exact .single (.other _ rfl rfl rfl rfl)

/-- What a transaction of `store` leaves, when it commits. -/
structure Stores (call : StoreCall) (p : Point) : Prop where
  covered : ∀ s ∈ p.sent, Covered s p.held
  distinct : Distinct p.sent p.base
  outcome : Outcome call.now call.accepted p
  sound : Store.Sound (seen p).toTables
  grows : Grows p.base.toTables (seen p).toTables

theorem transact_cases (env : Environment) {t : Inbox.Tables}
    (h : Store.Sound t.toTables) (call : StoreCall) :
    transact env t call = t ∨
      ∃ p : Point, p.base = t ∧ seen p = transact env t call ∧
        Stores call p := by
  rw [transact]
  cases hrun : ((service env).program call).run control.engine t with
  | error failure => exact .inl rfl
  | ok result =>
      obtain ⟨value, after⟩ := result
      by_cases haccepts : (service env).accepts t after = true
      · right
        obtain ⟨p, hsecured, hseen, hbase, hcovered, hdistinct⟩ :=
          (program_secures env call t).run (by simp) (Distinct.nil t) hrun
        have hsteps : RowSteps t.toTables after.toTables :=
          Program.run_invariant control.engine
            (I := fun state => RowSteps t.toTables state.toTables)
            (fun hI hexecute => hI.trans (execute_rowSteps hexecute)) .refl hrun
        have hcommit : t.toTables.commit after.toTables = .ok after.toTables := by
          rw [Store.Tables.commit]
          exact if_pos haccepts
        obtain ⟨hsound, hgrows⟩ := commit_sound h hsteps hcommit
        refine ⟨p, hbase, ?_, hcovered, hdistinct, hsecured.1, ?_, ?_⟩
        · rw [seen, hseen]
          exact (if_pos haccepts).symm
        · rw [seen, hseen]
          exact hsound
        · rw [seen, hseen, hbase]
          exact hgrows
      · left
        exact if_neg haccepts

/-! ## What is stored -/

theorem child?_reparsed (value : Json) (segment : Segment) :
    (reparsed value).child? segment = (value.child? segment).map reparsed := by
  cases value with
  | arr items =>
      cases segment with
      | key name => rfl
      | index i =>
          rw [reparsed, Json.child?, Json.child?]
          induction items generalizing i with
          | nil => rfl
          | cons item rest ih =>
              cases i with
              | zero => rfl
              | succ i => exact ih i
  | obj ms =>
      cases segment with
      | index i => rfl
      | key name =>
          rw [reparsed, Json.child?, Json.child?]
          induction ms with
          | nil => rfl
          | cons m rest ih =>
              rw [reparsedMembers, AssocList.lookup_cons_eq,
                AssocList.lookup_cons_eq, ih]
              split_ifs <;> rfl
  | num value => cases value <;> rfl
  | null => rfl
  | bool value => rfl
  | str value => rfl

theorem get?_reparsed (path : FieldPath) (value : Json) :
    (reparsed value).get? path = (value.get? path).map reparsed := by
  induction path generalizing value with
  | nil => rfl
  | cons segment rest ih =>
      rw [Json.get?_cons, Json.get?_cons, child?_reparsed]
      cases value.child? segment with
      | none => rfl
      | some child => exact ih child

theorem embeddedObject_get? {env : Environment} {payload document : Json}
    (h : embeddedObject env payload = some document) :
    ∃ path : FieldPath, path ≠ [] ∧ payload.get? path = some document := by
  obtain ⟨path, hpath, hget⟩ := Option.bind_eq_some_iff.mp h
  have hmem := List.mem_of_mem_take (List.mem_of_find?_eq_some hpath)
  have hlength := (List.mem_filter.mp hmem).2
  refine ⟨path, ?_, hget⟩
  rintro rfl
  simp at hlength

/-- An object that is not fetched is taken from the payload. -/
def TakesEmbedded (env : Environment) (accepted : Accepted) : Prop :=
  accepted.objectFetched = false →
    accepted.objectDocument = embeddedObject env accepted.receipt.payload

theorem loadObject_eq_ok {env : Environment} {activity : Create}
    {receipt : Receipt} {object : LoadedObject} {document : Option Json}
    {fetched : Bool}
    (h : loadObject env activity receipt = .ok (object, document, fetched))
    (hfetched : fetched = false) :
    document = embeddedObject env receipt.payload := by
  unfold loadObject at h
  split at h
  next => cases h
  next => cases h
  next =>
    split at h
    next =>
      cases h
      rfl
    next =>
      cases h
      cases hfetched

theorem bind_eq_ok {ε α β : Type} {x : Except ε α} {f : α → Except ε β}
    {value : β} (h : (x >>= f) = .ok value) :
    ∃ middle, x = .ok middle ∧ f middle = .ok value := by
  cases x with
  | error error => cases h
  | ok middle => exact ⟨middle, rfl, h⟩

theorem accept_takesEmbedded {env : Environment} {activity : Create}
    {actorIri : JsString} {receipt : Receipt} {accepted : Accepted}
    (h : accept env activity actorIri receipt = .ok accepted) :
    TakesEmbedded env accepted := by
  obtain ⟨activityIri, -, h⟩ := bind_eq_ok h
  obtain ⟨⟨object, document, fetched⟩, hload, h⟩ := bind_eq_ok h
  obtain ⟨objectType, -, h⟩ := bind_eq_ok h
  obtain ⟨objectIri, -, h⟩ := bind_eq_ok h
  obtain ⟨-, -, h⟩ := bind_eq_ok h
  obtain ⟨-, -, h⟩ := bind_eq_ok h
  obtain ⟨contentHtml, -, h⟩ := bind_eq_ok h
  obtain ⟨-, -, h⟩ := bind_eq_ok h
  obtain ⟨actor, -, h⟩ := bind_eq_ok h
  obtain ⟨actorType, -, h⟩ := bind_eq_ok h
  obtain ⟨inboxUrl, -, h⟩ := bind_eq_ok h
  obtain ⟨-, -, h⟩ := bind_eq_ok h
  cases h
  exact loadObject_eq_ok hload

/-! ## The tables stay as recorded -/

section Stores

variable {env : Environment} {call : StoreCall} {p : Point}

/-- The first revision of a resource is unique. -/
theorem eq_of_first {t : Inbox.Tables} (h : Store.Sound t.toTables)
    {revision other : ResourceRevision} (hmem : revision ∈ t.revisions)
    (hother : other ∈ t.revisions)
    (hid : revision.resourceId = other.resourceId)
    (hfirst : revision.sequence = 1) (hfirst' : other.sequence = 1) :
    revision = other :=
  (h.numbered other.resourceId).eq_of_number (mem_historyOf.mpr ⟨hmem, hid⟩)
    (mem_historyOf.mpr ⟨hother, rfl⟩) (hfirst.trans hfirst'.symm)

theorem hasFirst_of_captured {id : Uuid} (h : Captured p id) :
    HasFirst (seen p) id := by
  obtain ⟨row, hrow, hresource, hfirst, -⟩ := h
  exact ⟨row, hrow, hresource, hfirst⟩

/-- The first revision of an object that was captured. -/
theorem captured_document {id : Uuid} (h : Captured p id)
    (hafter : Store.Sound (seen p).toTables) (hkinded : Kinded p id .object)
    {object : ActivityPubObject} (hobject : (seen p).object? id = some object)
    {first : ResourceRevision} (hmem : first ∈ (seen p).revisions)
    (hid : first.resourceId = id) (hfirst : first.sequence = 1)
    (hkind : first.kind = .snapshot) : object.document.isSome = true := by
  obtain ⟨row, hrow, hresource, hsequence, kind, hcapture, hdocument⟩ := h
  have hsame := Option.some.inj
    (hcapture.kindOf?.symm.trans hkinded.kindOf?)
  obtain ⟨other, hother, hdocument⟩ := hdocument hsame
  obtain rfl := Option.some.inj (hother.symm.trans hobject)
  apply hdocument
  rw [eq_of_first hafter hrow hmem (hresource.trans hid.symm) hsequence hfirst]
  exact hkind

theorem HasFirst.grows {t t' : Inbox.Tables} {id : Uuid}
    (hgrows : Grows t.toTables t'.toTables) (h : HasFirst t id) :
    HasFirst t' id := by
  obtain ⟨row, hrow, hfirst⟩ := h
  exact ⟨row, hgrows.mem hrow, hfirst⟩

/-- No object is stored with an activity that is not there. -/
theorem Recorded.not_created {t : Inbox.Tables} (h : Recorded t) {id : Uuid}
    (hunknown : ∀ kind, t.kindOf? id = some kind → kind = .unknown) :
    ∀ row ∈ t.objects, row.activityId ≠ some id := by
  intro row hrow hid
  cases hunknown _ (h.created row hrow id hid)

theorem Recorded.not_activity {t : Inbox.Tables} (h : Recorded t) {id : Uuid}
    (hunknown : ∀ kind, t.kindOf? id = some kind → kind = .unknown) :
    ∀ row ∈ t.activities, row.id ≠ id := by
  intro row hrow hid
  cases hunknown _ (hid ▸ h.consistent.activityKind row hrow)

theorem objectRow_embedded {now : Instant} {accepted : Accepted}
    (haccepted : TakesEmbedded env accepted) {objectId actorId activityId
      objectId' : Uuid} {published : Instant}
    (hfetched : (objectRow now accepted objectId actorId activityId).fetched =
      false)
    (hdocument : (objectRow now accepted objectId actorId
      activityId).document.isSome = true) :
    EmbeddedIn (objectRow now accepted objectId actorId activityId).document
      (activityRow now accepted activityId actorId objectId'
        published).document := by
  have hsame : accepted.objectDocument =
      embeddedObject env accepted.receipt.payload := haccepted hfetched
  change EmbeddedIn (accepted.objectDocument.map reparsed)
    (some (reparsed accepted.receipt.payload))
  cases hembedded : accepted.objectDocument with
  | none =>
      change (accepted.objectDocument.map reparsed).isSome = true at hdocument
      rw [hembedded] at hdocument
      cases hdocument
  | some document =>
      obtain ⟨path, hpath, hget⟩ :=
        embeddedObject_get? (hsame.symm.trans hembedded)
      refine ⟨reparsed document, path, hpath, rfl, ?_⟩
      rw [Option.bind_some, get?_reparsed, hget, Option.map_some]

theorem Stores.recorded (hstores : Stores call p) (h : Recorded p.base)
    (haccepted : TakesEmbedded env call.accepted) : Recorded (seen p) := by
  obtain ⟨actorId, objectId, activityId, published, objects, objectRows,
    activityRows, kinds, hstored⟩ := hstores.outcome
  obtain ⟨hactivities, hobjects, -⟩ := hstored.rows hstores.covered
  have hunknown : ∀ kind, p.base.kindOf? activityId = some kind →
      kind = .unknown := fun kind => hstored.unpromoted.eq_unknown
  have hcreated := h.not_created hunknown
  have hactivity := h.not_activity hunknown
  -- What is new of the objects.
  have hnew : ∀ row ∈ objects, row = objectRow call.now call.accepted objectId
      actorId activityId := by
    intro row hrow
    cases hstored.objectStored with
    | created => exact List.mem_singleton.mp hrow
    | reused => cases hrow
  refine ⟨hstored.consistent hstores.covered hstores.distinct h.consistent,
    hstores.sound, ?_, ?_, ?_, ?_, ?_, ?_⟩
  · intro row hrow
    rw [hactivities] at hrow
    rcases List.mem_append.mp hrow with hrow | hrow
    · exact (h.activities row hrow).grows hstores.grows
    · rw [List.mem_singleton.mp hrow]
      exact hasFirst_of_captured hstored.activityCaptured
  · intro row hrow
    rw [hobjects] at hrow
    rcases List.mem_append.mp hrow with hrow | hrow
    · exact (h.objects row hrow).grows hstores.grows
    · rw [hnew row hrow]
      exact hasFirst_of_captured hstored.objectCaptured
  · rw [hobjects, List.filterMap_append]
    refine List.nodup_append'.mpr ⟨h.creators, ?_, ?_⟩
    · cases hstored.objectStored with
      | created => simp [objectRow]
      | reused => exact .nil
    · intro id hold hrow
      obtain ⟨row, hrow, hid⟩ := List.mem_filterMap.mp hrow
      rw [hnew row hrow] at hid
      obtain rfl := Option.some.inj hid
      obtain ⟨other, hother, hid⟩ := List.mem_filterMap.mp hold
      exact hcreated other hother hid
  · intro row hrow first hmem hid hfirst hkind
    rw [hobjects] at hrow
    rcases List.mem_append.mp hrow with hrow | hrow
    · obtain ⟨old, hold, hresource, hsequence⟩ := h.objects row hrow
      have hsame := eq_of_first hstores.sound hmem (hstores.grows.mem hold)
        (hid.trans hresource.symm) hfirst hsequence
      exact h.documents row hrow first (hsame ▸ hold) hid hfirst hkind
    · rw [hnew row hrow] at hid ⊢
      refine captured_document hstored.objectCaptured hstores.sound
        hstored.object.kinded ?_ hmem hid hfirst hkind
      have hafter := hstored.consistent hstores.covered hstores.distinct
        h.consistent
      have hin : objectRow call.now call.accepted objectId actorId activityId ∈
          (seen p).objects := by
        rw [hobjects]
        exact List.mem_append_right _ (hnew row hrow ▸ hrow)
      exact hafter.object?_of_mem hin
  · intro row hrow id hid
    rw [hobjects] at hrow
    rcases List.mem_append.mp hrow with hrow | hrow
    · exact Fresh.kindOf? hstored.fresh' (h.created row hrow id hid) (by simp)
    · rw [hnew row hrow] at hid
      obtain rfl := Option.some.inj hid
      exact hstored.activity.kinded.kindOf?
  · intro row hrow hfetched hdocument activity hmem hid
    rw [hobjects] at hrow
    rw [hactivities] at hmem
    rcases List.mem_append.mp hrow with hrow | hrow
    · rcases List.mem_append.mp hmem with hmem | hmem
      · exact h.embedded row hrow hfetched hdocument activity hmem hid
      · rw [List.mem_singleton.mp hmem] at hid
        exact absurd hid (hcreated row hrow)
    · have hrow := hnew row hrow
      rcases List.mem_append.mp hmem with hmem | hmem
      · rw [hrow] at hid
        exact absurd (Option.some.inj hid).symm (hactivity activity hmem)
      · subst hrow
        rw [List.mem_singleton.mp hmem]
        exact objectRow_embedded haccepted hfetched hdocument

end Stores

theorem persistCreate_cases (env : Environment) {t : Inbox.Tables}
    (h : Recorded t) (call : CreateCall) :
    persistCreate env t call = t ∨
      ∃ (stored : StoreCall) (p : Point), p.base = t ∧
        seen p = persistCreate env t call ∧ Stores stored p ∧
        TakesEmbedded env stored.accepted := by
  unfold persistCreate
  split
  next => exact .inl rfl
  next actorIri =>
    split
    next => exact .inl rfl
    next =>
      split
      next => exact .inl rfl
      next receipt =>
        split
        next => exact .inl rfl
        next accepted haccepted =>
          rcases transact_cases env h.sound ⟨accepted, call.ids, call.now⟩ with
            hsame | ⟨p, hbase, hseen, hstores⟩
          · exact .inl hsame
          · exact .inr ⟨_, p, hbase, hseen, hstores,
              accept_takesEmbedded haccepted⟩

theorem Recorded.persistCreate {env : Environment} {t : Inbox.Tables}
    (h : Recorded t) (call : CreateCall) :
    Recorded (persistCreate env t call) := by
  rcases persistCreate_cases env h call with
    hsame | ⟨stored, p, rfl, hseen, hstores, haccepted⟩
  · rw [hsame]
    exact h
  · rw [← hseen]
    exact hstores.recorded h haccepted

theorem Recorded.deleteObject {t : Inbox.Tables} (h : Recorded t) (id : Uuid) :
    Recorded { t with
      objects := t.objects.filter fun object => object.id ≠ id } where
  consistent :=
    { h.consistent with
      author := fun row hrow =>
        h.consistent.author row (List.mem_of_mem_filter hrow)
      objects := h.consistent.objects.sublist
        (List.filter_sublist.map _)
      objectKind := fun row hrow =>
        h.consistent.objectKind row (List.mem_of_mem_filter hrow) }
  sound := h.sound.same rfl rfl rfl rfl
  activities := h.activities
  objects row hrow := h.objects row (List.mem_of_mem_filter hrow)
  creators := h.creators.sublist (List.filter_sublist.filterMap _)
  documents row hrow := h.documents row (List.mem_of_mem_filter hrow)
  created row hrow := h.created row (List.mem_of_mem_filter hrow)
  embedded row hrow := h.embedded row (List.mem_of_mem_filter hrow)

theorem Recorded.deleteActivity {t : Inbox.Tables} (h : Recorded t)
    (id : Uuid) :
    Recorded { t with
      activities := t.activities.filter fun activity => activity.id ≠ id } where
  consistent :=
    { h.consistent with
      activities := h.consistent.activities.sublist
        (List.filter_sublist.map _)
      activityKind := fun row hrow =>
        h.consistent.activityKind row (List.mem_of_mem_filter hrow) }
  sound := h.sound.same rfl rfl rfl rfl
  activities row hrow := h.activities row (List.mem_of_mem_filter hrow)
  objects := h.objects
  creators := h.creators
  documents := h.documents
  created := h.created
  embedded row hrow hfetched hdocument activity hactivity :=
    h.embedded row hrow hfetched hdocument activity
      (List.mem_of_mem_filter hactivity)

end DrFed.Receipts
