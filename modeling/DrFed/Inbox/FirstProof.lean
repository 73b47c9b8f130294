import DrFed.Inbox.Stored
import DrFed.Support.Keyed

/-!
# Remote storage keeps the first proof

Whatever `store` transactions run side by side, each activity is stored once,
as the first committed one carried it, and an object keeps the document, the
addressing and the author under which it was first stored.
-/

namespace DrFed.Inbox

open Store ReadCommitted

namespace Tables

variable (t : Tables)

/-- The id of the resource that an IRI names. -/
def idAt? (iri : JsString) : Option Uuid := (t.resourceAt? iri).map Resource.id

def kindOf? (id : Uuid) : Option ResourceKind :=
  (t.resource? id).map Resource.kind

def activityAt? (iri : JsString) : Option StoredActivity :=
  (t.idAt? iri).bind t.activity?

def objectAt? (iri : JsString) : Option ActivityPubObject :=
  (t.idAt? iri).bind t.object?

def addressingFrom (id : Uuid) : List Addressing :=
  t.addressing.filter fun row => row.sourceId == id

end Tables

/-- The rows of a table are unique, the resources of typed rows are of their
kind, and the actor of an object is registered. -/
structure Consistent (t : Tables) : Prop where
  ids : (t.resources.map Resource.id).Nodup
  iris : (t.resources.map Resource.iri).Nodup
  author : ∀ row ∈ t.objects, ∃ iri, t.idAt? iri = some row.actorId
  activities : (t.activities.map StoredActivity.id).Nodup
  objects : (t.objects.map ActivityPubObject.id).Nodup
  activityKind : ∀ row ∈ t.activities, t.kindOf? row.id = some .activity
  objectKind : ∀ row ∈ t.objects, t.kindOf? row.id = some .object
  addressed : ∀ row ∈ t.addressing, ∃ kind,
    t.kindOf? row.sourceId = some kind ∧ kind ≠ .unknown

/-- What is stored stays as it is. -/
structure Kept (t t' : Tables) : Prop where
  id : ∀ {iri : JsString} {id : Uuid}, t.idAt? iri = some id →
    t'.idAt? iri = some id
  activity : ∀ {iri : JsString} {row : StoredActivity},
    t.activityAt? iri = some row → t'.activityAt? iri = some row
  object : ∀ {iri : JsString} {row : ActivityPubObject},
    t.objectAt? iri = some row → t'.objectAt? iri = some row ∧
      t'.addressingFrom row.id = t.addressingFrom row.id

/-- A store that the tables do not refuse. -/
structure Admitted (env : Environment) (t : Tables) (accepted : Accepted) :
    Prop where
  remote : ∀ row, t.instanceAt? (env.canonicalHost accepted.actorIri) =
    some row → row.localId = none
  activity : ∀ id kind, t.idAt? accepted.activityIri = some id →
    t.kindOf? id = some kind → kind = .unknown
  actor : ∀ id kind, t.idAt? accepted.actorIri = some id →
    t.kindOf? id = some kind → kind = .unknown ∨ kind = .actor
  object : ∀ id kind, t.idAt? accepted.objectIri = some id →
    t.kindOf? id = some kind → kind = .unknown ∨
      kind = .object ∧ ∃ row, t.objectAt? accepted.objectIri = some row ∧
        t.idAt? accepted.actorIri = some row.actorId

/-- The rows of addressing say what the input does: under each property its
IRIs in order, duplicates kept, each at its index and with the resource that it
names. -/
structure Addresses (t : Tables) (input : AddressingInput)
    (rows : List Addressing) : Prop where
  listed : ∀ property ∈ [js "to", js "cc", js "bto", js "bcc", js "audience"],
    (rows.filter fun row => row.property = property).map
        (fun row => (row.position, some row.targetId)) =
      ((input.lookup property).getD []).mapIdx fun i iri => (i, t.idAt? iri)
  only : ∀ row ∈ rows, row.property ∈
    [js "to", js "cc", js "bto", js "bcc", js "audience"]

/-- What is stored after some calls of `store` have committed. -/
structure KeepsFirstProof (start t : Tables) (log : List StoreCall) : Prop where
  consistent : Consistent t
  kept : Kept start t
  once : ∀ iri, ∀ row ∈ t.activities, ∀ other ∈ t.activities,
    t.idAt? iri = some row.id → t.idAt? iri = some other.id → row = other
  /-- No call stores an activity that is there, and what it has stored is what
  it carried. -/
  payload : ∀ before call later, log = before ++ call :: later →
    start.activityAt? call.accepted.activityIri = none ∧
      (∀ earlier ∈ before,
        earlier.accepted.activityIri ≠ call.accepted.activityIri) ∧
      ∃ row, t.activityAt? call.accepted.activityIri = some row ∧
        row.document = some (reparsed call.accepted.receipt.payload)
  /-- The call that created an object decides what it is. -/
  creator : ∀ before call later, log = before ++ call :: later →
    start.objectAt? call.accepted.objectIri = none →
      (∀ earlier ∈ before,
        earlier.accepted.objectIri ≠ call.accepted.objectIri) →
        ∃ row, t.objectAt? call.accepted.objectIri = some row ∧
          row.document = call.accepted.objectDocument.map reparsed ∧
          t.idAt? call.accepted.actorIri = some row.actorId ∧
          Addresses t call.accepted.objectAddressing (t.addressingFrom row.id)
  /-- Every stored `Create` is its object's author's. -/
  author : ∀ call ∈ log, ∃ activity row,
    t.activityAt? call.accepted.activityIri = some activity ∧
      t.objectAt? call.accepted.objectIri = some row ∧
      activity.objectId = some row.id ∧ activity.actorId = row.actorId ∧
      t.idAt? call.accepted.actorIri = some row.actorId
  activities : ∀ row ∈ t.activities, row ∈ start.activities ∨
    ∃ call ∈ log, t.activityAt? call.accepted.activityIri = some row
  objects : ∀ row ∈ t.objects, row ∈ start.objects ∨
    ∃ call ∈ log, t.objectAt? call.accepted.objectIri = some row

/-! ## Addressing -/

section Addressing

variable {t : Tables} {input : AddressingInput} {rows : List Addressing}

theorem filter_occurrences {property : JsString}
    (hproperty : property ∈ Document.addressingProperties) :
    (occurrences input).filter (fun item => item.property = property) =
      ((input.lookup property).getD []).zipIdx.map fun item =>
        ⟨property, item.2, item.1⟩ := by
  have hall : ∀ properties : List JsString, properties.Nodup →
      (properties.flatMap fun property =>
        ((input.lookup property).getD []).zipIdx.map fun item =>
          (⟨property, item.2, item.1⟩ : AddressingOccurrence)).filter
            (fun item => item.property = property) =
        if property ∈ properties then
          ((input.lookup property).getD []).zipIdx.map fun item =>
            ⟨property, item.2, item.1⟩
        else [] := by
    intro properties hnodup
    induction properties with
    | nil => rfl
    | cons other rest ih =>
        obtain ⟨hnot, hrest⟩ := List.nodup_cons.mp hnodup
        rw [List.flatMap_cons, List.filter_append, ih hrest, List.filter_map]
        by_cases hsame : other = property
        · subst hsame
          rw [if_neg hnot, if_pos List.mem_cons_self, List.append_nil,
            List.filter_eq_self.mpr (by simp)]
        · have hnone : (List.filter ((fun item : AddressingOccurrence =>
              decide (item.property = property)) ∘ fun item : JsString × ℕ =>
                ⟨other, item.2, item.1⟩)
              ((input.lookup other).getD []).zipIdx) = [] := by
            apply List.filter_eq_nil_iff.mpr
            simp [hsame]
          rw [hnone, List.map_nil, List.nil_append]
          simp [Ne.symm hsame]
  rw [occurrences, hall _ (by decide), if_pos hproperty]

/-- Rows that are those of the occurrences, one by one. -/
theorem addresses_of_occurrences
    (h : List.Forall₂ (fun occurrence row =>
      row.property = occurrence.property ∧
        row.position = occurrence.position ∧
          t.idAt? occurrence.iri = some row.targetId)
      (occurrences input) rows) : Addresses t input rows where
  listed property hproperty := by
    have hfiltered := List.rel_filter
      (p := fun item : AddressingOccurrence => item.property = property)
      (q := fun row : Addressing => row.property = property)
      (fun occurrence row hrow => by simp [hrow.1]) h
    rw [filter_occurrences hproperty, List.forall₂_map_left_iff] at hfiltered
    rw [List.mapIdx_eq_zipIdx_map]
    generalize ((input.lookup property).getD []).zipIdx = items at hfiltered ⊢
    generalize (rows.filter fun row => row.property = property) = listed
      at hfiltered ⊢
    induction hfiltered with
    | nil => rfl
    | cons hfirst _ ih =>
        obtain ⟨-, hposition, hid⟩ := hfirst
        dsimp only at hposition hid
        rw [List.map_cons, List.map_cons, ih, hposition, ← hid]
  only row hrow := by
    obtain ⟨i, hi, rfl⟩ := List.mem_iff_getElem.mp hrow
    have hlength := h.length_eq
    have hsame := (h.get (hlength ▸ hi) hi).1
    rw [List.get_eq_getElem] at hsame
    rw [hsame]
    have hmem := List.get_mem (occurrences input) ⟨i, hlength ▸ hi⟩
    obtain ⟨property, hproperty, hitem⟩ := List.mem_flatMap.mp hmem
    obtain ⟨item, -, heq⟩ := List.mem_map.mp hitem
    rw [← heq]
    exact hproperty

end Addressing

/-! ## One commit -/

section Lookups

variable {t : Tables}

theorem idAt?_eq_some {iri : JsString} {id : Uuid} :
    t.idAt? iri = some id ↔ ∃ row, t.resourceAt? iri = some row ∧ row.id = id :=
  Option.map_eq_some_iff

theorem kindOf?_eq_some {id : Uuid} {kind : ResourceKind} :
    t.kindOf? id = some kind ↔
      ∃ row, t.resource? id = some row ∧ row.kind = kind :=
  Option.map_eq_some_iff

theorem Consistent.object?_kind (h : Consistent t) {id : Uuid}
    {row : ActivityPubObject} (hrow : t.object? id = some row) :
    t.kindOf? id = some .object := by
  rw [← object?_eq_id hrow]
  exact h.objectKind row (List.mem_of_find?_eq_some hrow)

theorem Consistent.activity?_kind (h : Consistent t) {id : Uuid}
    {row : StoredActivity} (hrow : t.activity? id = some row) :
    t.kindOf? id = some .activity := by
  have hid : row.id = id := by simpa using List.find?_some hrow
  rw [← hid]
  exact h.activityKind row (List.mem_of_find?_eq_some hrow)

/-- A row is what a lookup of its id finds. -/
theorem Consistent.activity?_of_mem (h : Consistent t) {row : StoredActivity}
    (hrow : row ∈ t.activities) : t.activity? row.id = some row :=
  (Keyed.find?_eq_some h.activities).mpr ⟨hrow, rfl⟩

theorem Consistent.object?_of_mem (h : Consistent t)
    {row : ActivityPubObject} (hrow : row ∈ t.objects) :
    t.object? row.id = some row :=
  (Keyed.find?_eq_some h.objects).mpr ⟨hrow, rfl⟩

/-- A registered resource has an IRI. -/
theorem Consistent.exists_iri (h : Consistent t) {id : Uuid}
    {kind : ResourceKind} (hkind : t.kindOf? id = some kind) :
    ∃ iri, t.idAt? iri = some id := by
  obtain ⟨row, hrow, -⟩ := kindOf?_eq_some.mp hkind
  refine ⟨row.iri, idAt?_eq_some.mpr ⟨row, ?_, resource?_eq_id hrow⟩⟩
  exact (Keyed.find?_eq_some h.iris).mpr ⟨List.mem_of_find?_eq_some hrow, rfl⟩

/-- A resource has one IRI. -/
theorem idAt?_inj (h : (t.resources.map Resource.id).Nodup)
    {iri other : JsString} {id : Uuid} (hiri : t.idAt? iri = some id)
    (hother : t.idAt? other = some id) : iri = other := by
  obtain ⟨row, hrow, rfl⟩ := idAt?_eq_some.mp hiri
  obtain ⟨row', hrow', hid⟩ := idAt?_eq_some.mp hother
  have hsame : row' = row :=
    List.inj_on_of_nodup_map h (List.mem_of_find?_eq_some hrow')
      (List.mem_of_find?_eq_some hrow) hid
  rw [← resourceAt?_eq_iri hrow, ← resourceAt?_eq_iri hrow', hsame]

end Lookups

section Commit

variable {p : Point} {id : Uuid} {kind : ResourceKind}

theorem Unpromoted.eq_unknown (h : Unpromoted p id)
    (hkind : p.base.kindOf? id = some kind) : kind = .unknown := by
  obtain ⟨row, hrow, rfl⟩ := kindOf?_eq_some.mp hkind
  exact h.2 row hrow

theorem Kinded.kindOf? (h : Kinded p id kind) :
    (seen p).kindOf? id = some kind :=
  kindOf?_eq_some.mpr h.2.2

theorem Named.idAt? {iri : JsString} (h : Named p iri id) :
    (seen p).idAt? iri = some id :=
  idAt?_eq_some.mpr h

/-- A committed kind stays, unless the transaction has set it. -/
theorem kindOf?_seen (h : p.base.kindOf? id = some kind) :
    ∃ kind', (seen p).kindOf? id = some kind' ∧
      (kind' = kind ∨ (id, kind') ∈ (footprint p.sent).kinds) := by
  obtain ⟨row, hrow, rfl⟩ := kindOf?_eq_some.mp h
  obtain ⟨kind', hrow', hkind'⟩ := resource?_applyAll p.sent hrow
  exact ⟨kind', kindOf?_eq_some.mpr ⟨_, hrow', rfl⟩, hkind'⟩

theorem Fresh.kindOf? (hfresh : Fresh p (footprint p.sent).kinds)
    (h : p.base.kindOf? id = some kind) (hknown : kind ≠ .unknown) :
    (seen p).kindOf? id = some kind := by
  obtain ⟨kind', hseen, rfl | hset⟩ := kindOf?_seen h
  · exact hseen
  · exact absurd ((hfresh _ hset).1.eq_unknown h) hknown

/-- What a transaction sees of a resource was so, or was unknown. -/
theorem Fresh.kind_base (hfresh : Fresh p (footprint p.sent).kinds)
    (hseen : (seen p).kindOf? id = some kind) {kind' : ResourceKind}
    (h : p.base.kindOf? id = some kind') : kind' = .unknown ∨ kind' = kind := by
  by_cases hknown : kind' = .unknown
  · exact .inl hknown
  · exact .inr (Option.some.inj ((hfresh.kindOf? h hknown).symm.trans hseen))

theorem idAt?_seen (hcovered : ∀ s ∈ p.sent, Covered s p.held)
    {iri : JsString} (h : p.base.idAt? iri = some id) :
    (seen p).idAt? iri = some id := by
  obtain ⟨row, hrow, rfl⟩ := idAt?_eq_some.mp h
  have hview : Undisturbed [] p.base (seen p) :=
    rules.other_all p.base hcovered (by simp)
  obtain ⟨kind, hrow'⟩ := hview.resourceAt hrow
  exact idAt?_eq_some.mpr ⟨_, hrow', rfl⟩

theorem resources_nodup (hdistinct : Distinct p.sent p.base)
    (h : Consistent p.base) :
    ((seen p).resources.map Resource.id).Nodup ∧
      ((seen p).resources.map Resource.iri).Nodup := by
  have hnames := hdistinct.names_applyAll
  have hmap : ∀ {β : Type} (f : Uuid × JsString → β),
      (seen p).resources.map (fun row => f (row.id, row.iri)) =
        (p.base.resources ++ registered p.sent).map
          fun row => f (row.id, row.iri) := by
    intro β f
    have hmapped := congrArg (List.map f) hnames
    rw [← names_append, names, names, List.map_map, List.map_map] at hmapped
    exact hmapped
  constructor
  · rw [hmap Prod.fst, List.map_append, List.nodup_append]
    refine ⟨h.ids, hdistinct.ids, ?_⟩
    intro id hid other hother
    obtain ⟨old, hold, rfl⟩ := List.mem_map.mp hid
    obtain ⟨new, hnew, rfl⟩ := List.mem_map.mp hother
    exact resource?_eq_none.mp (hdistinct.absent new hnew).1 _
      (List.mem_map_of_mem hold)
  · rw [hmap Prod.snd, List.map_append, List.nodup_append]
    refine ⟨h.iris, hdistinct.iris, ?_⟩
    intro iri hiri other hother
    obtain ⟨old, hold, rfl⟩ := List.mem_map.mp hiri
    obtain ⟨new, hnew, rfl⟩ := List.mem_map.mp hother
    exact resourceAt?_eq_none.mp (hdistinct.absent new hnew).2 _
      (List.mem_map_of_mem hold)

variable {now : Instant} {accepted : Accepted}
  {actorId objectId activityId : Uuid} {published : Instant}
  {objects : List ActivityPubObject} {objectRows activityRows : List Addressing}
  {kinds : List (Uuid × ResourceKind)}

theorem Addressed.source {sourceId : Uuid}
    {occurrences : List AddressingOccurrence} {rows : List Addressing}
    (h : Addressed p sourceId occurrences rows) :
    ∀ row ∈ rows, row.sourceId = sourceId := by
  rw [Addressed] at h
  induction h with
  | nil => simp
  | cons hfirst _ ih =>
      intro row hrow
      rcases List.mem_cons.mp hrow with rfl | hrest
      · exact hfirst.1
      · exact ih row hrest

namespace StoredAs

theorem fresh' (hstored : StoredAs now accepted p actorId objectId activityId
    published objects objectRows activityRows kinds) :
    Fresh p (Inbox.footprint p.sent).kinds := by
  rw [hstored.footprint]
  exact hstored.fresh

/-- The rows that the transaction sees. -/
theorem rows (hstored : StoredAs now accepted p actorId objectId activityId
    published objects objectRows activityRows kinds)
    (hcovered : ∀ s ∈ p.sent, Covered s p.held) :
    (seen p).activities = p.base.activities ++
        [activityRow now accepted activityId actorId objectId published] ∧
      (seen p).objects = p.base.objects ++ objects ∧
      (seen p).addressing =
        p.base.addressing ++ (objectRows ++ activityRows) := by
  have hover := footprint_over p.base hcovered
  rw [hstored.footprint] at hover
  exact ⟨hover.activities, hover.objects, hover.addressing⟩

/-- No committed row is of a resource that the transaction promotes. -/
theorem not_known (hstored : StoredAs now accepted p actorId objectId
    activityId published objects objectRows activityRows kinds)
    (hkind : p.base.kindOf? id = some kind) (hknown : kind ≠ .unknown) :
    id ≠ activityId ∧ (objects ≠ [] → id ≠ objectId) := by
  constructor
  · rintro rfl
    exact hknown (hstored.unpromoted.eq_unknown hkind)
  · intro hobjects
    rintro rfl
    cases hstored.objectStored with
    | created haddressed hunpromoted => exact hknown (hunpromoted.eq_unknown hkind)
    | reused row hrow hactor => exact hobjects rfl

theorem addressing_source (hstored : StoredAs now accepted p actorId objectId
    activityId published objects objectRows activityRows kinds)
    {row : Addressing} (hrow : row ∈ objectRows ++ activityRows) :
    row.sourceId = activityId ∨ objects ≠ [] ∧ row.sourceId = objectId := by
  rcases List.mem_append.mp hrow with hobject | hactivity
  · right
    cases hstored.objectStored with
    | created haddressed hunpromoted =>
        exact ⟨by simp, haddressed.source row hobject⟩
    | reused found hfound hactor => cases hobject
  · exact .inl (hstored.addressed.source row hactivity)

theorem consistent (hstored : StoredAs now accepted p actorId objectId
    activityId published objects objectRows activityRows kinds)
    (hcovered : ∀ s ∈ p.sent, Covered s p.held)
    (hdistinct : Distinct p.sent p.base) (h : Consistent p.base) :
    Consistent (seen p) := by
  obtain ⟨hactivities, hobjects, haddressing⟩ := hstored.rows hcovered
  have hknown : ∀ {id : Uuid} {kind : ResourceKind},
      p.base.kindOf? id = some kind → kind ≠ .unknown →
        (seen p).kindOf? id = some kind := hstored.fresh'.kindOf?
  obtain ⟨hids, hiris⟩ := resources_nodup hdistinct h
  refine ⟨hids, hiris, ?_, ?_, ?_, ?_, ?_, ?_⟩
  · intro row hrow
    rw [hobjects] at hrow
    rcases List.mem_append.mp hrow with hold | hnew
    · obtain ⟨iri, hiri⟩ := h.author row hold
      exact ⟨iri, idAt?_seen hcovered hiri⟩
    · refine ⟨accepted.actorIri, ?_⟩
      cases hstored.objectStored with
      | created haddressed hunpromoted =>
          rw [List.mem_singleton.mp hnew]
          exact hstored.actor.named.idAt?
      | reused found hfound hactor => cases hnew
  · rw [hactivities, List.map_append, List.nodup_append]
    refine ⟨h.activities, by simp, ?_⟩
    intro id hid other hother
    obtain ⟨row, hrow, rfl⟩ := List.mem_map.mp hid
    obtain rfl : other = activityId := by simpa [activityRow] using hother
    exact (hstored.not_known (h.activityKind row hrow) (by simp)).1
  · rw [hobjects]
    cases hstored.objectStored with
    | created haddressed hunpromoted =>
        rw [List.map_append, List.nodup_append]
        refine ⟨h.objects, by simp, ?_⟩
        intro id hid other hother
        obtain ⟨row, hrow, rfl⟩ := List.mem_map.mp hid
        obtain rfl : other = objectId := by simpa [objectRow] using hother
        exact (hstored.not_known (h.objectKind row hrow) (by simp)).2 (by simp)
    | reused found hfound hactor =>
        rw [List.append_nil]
        exact h.objects
  · intro row hrow
    rw [hactivities] at hrow
    rcases List.mem_append.mp hrow with hold | hnew
    · exact hknown (h.activityKind row hold) (by simp)
    · rw [List.mem_singleton.mp hnew]
      exact hstored.activity.kinded.kindOf?
  · intro row hrow
    rw [hobjects] at hrow
    rcases List.mem_append.mp hrow with hold | hnew
    · exact hknown (h.objectKind row hold) (by simp)
    · have hid : row.id = objectId := by
        cases hstored.objectStored with
        | created haddressed hunpromoted => rw [List.mem_singleton.mp hnew]; rfl
        | reused found hfound hactor => cases hnew
      rw [hid]
      exact hstored.object.kinded.kindOf?
  · intro row hrow
    rw [haddressing] at hrow
    rcases List.mem_append.mp hrow with hold | hnew
    · obtain ⟨kind, hkind, hne⟩ := h.addressed row hold
      exact ⟨kind, hknown hkind hne, hne⟩
    · rcases hstored.addressing_source hnew with hsource | ⟨_, hsource⟩
      · rw [hsource]
        exact ⟨_, hstored.activity.kinded.kindOf?, by simp⟩
      · rw [hsource]
        exact ⟨_, hstored.object.kinded.kindOf?, by simp⟩

theorem kept (hstored : StoredAs now accepted p actorId objectId activityId
    published objects objectRows activityRows kinds)
    (hcovered : ∀ s ∈ p.sent, Covered s p.held) (h : Consistent p.base) :
    Kept p.base (seen p) := by
  obtain ⟨hactivities, hobjects, haddressing⟩ := hstored.rows hcovered
  refine ⟨idAt?_seen hcovered, ?_, ?_⟩
  · intro iri row hrow
    obtain ⟨id, hid, hrow⟩ := Option.bind_eq_some_iff.mp hrow
    refine Option.bind_eq_some_iff.mpr ⟨id, idAt?_seen hcovered hid, ?_⟩
    rw [Store.Tables.activity?, hactivities, List.find?_append]
    have hfind : p.base.activities.find? (fun found => found.id == id) =
        some row := hrow
    rw [hfind, Option.some_or]
  · intro iri row hrow
    obtain ⟨id, hid, hrow⟩ := Option.bind_eq_some_iff.mp hrow
    constructor
    · refine Option.bind_eq_some_iff.mpr ⟨id, idAt?_seen hcovered hid, ?_⟩
      rw [Store.Tables.object?, hobjects, List.find?_append]
      have hfind : p.base.objects.find? (fun found => found.id == id) =
          some row := hrow
      rw [hfind, Option.some_or]
    · have hkind := h.object?_kind hrow
      rw [← object?_eq_id hrow] at hkind
      obtain ⟨hactivity, hobject⟩ := hstored.not_known hkind (by simp)
      rw [Tables.addressingFrom, haddressing, List.filter_append]
      have hnone : (objectRows ++ activityRows).filter
          (fun other => other.sourceId == row.id) = [] := by
        refine List.filter_eq_nil_iff.mpr fun other hother => ?_
        rcases hstored.addressing_source hother with hsource | ⟨hne, hsource⟩
        · simpa [hsource] using hactivity.symm
        · simpa [hsource] using (hobject hne).symm
      rw [hnone, List.append_nil]
      rfl

theorem admitted {env : Environment}
    (hstored : StoredAs now accepted p actorId objectId activityId published
      objects objectRows activityRows kinds)
    (hcovered : ∀ s ∈ p.sent, Covered s p.held)
    (hdistinct : Distinct p.sent p.base) (h : Consistent p.base)
    (hremote : ∃ row, (seen p).instanceAt?
      (env.canonicalHost accepted.actorIri) = some row ∧ row.localId = none) :
    Admitted env p.base accepted := by
  have hview : Undisturbed [] p.base (seen p) :=
    rules.other_all p.base hcovered (by simp)
  have hsame : ∀ {iri : JsString} {id other : Uuid}, Named p iri other →
      p.base.idAt? iri = some id → id = other := fun hnamed hid =>
    Option.some.inj ((idAt?_seen hcovered hid).symm.trans hnamed.idAt?)
  refine ⟨?_, ?_, ?_, ?_⟩
  · intro row hrow
    obtain ⟨found, hfound, hlocal⟩ := hremote
    rw [Option.some.inj ((hview.hosted hrow).symm.trans hfound)]
    exact hlocal
  · intro id kind hid hkind
    rw [hsame hstored.activity.named hid] at hkind
    exact hstored.unpromoted.eq_unknown hkind
  · intro id kind hid hkind
    rw [hsame hstored.actor.named hid] at hkind
    exact hstored.fresh'.kind_base hstored.actor.kinded.kindOf? hkind
  · intro id kind hid hkind
    have hobject := hsame hstored.object.named hid
    rw [hobject] at hkind hid
    rcases hstored.fresh'.kind_base hstored.object.kinded.kindOf? hkind with
      hunknown | rfl
    · exact .inl hunknown
    · right
      obtain ⟨hactivities, hobjects, haddressing⟩ := hstored.rows hcovered
      cases hstored.objectStored with
      | created haddressed hunpromoted =>
          exact absurd (hunpromoted.eq_unknown hkind) (by simp)
      | reused row hrow hactor =>
          have hrow' : p.base.object? objectId = some row := by
            rw [Store.Tables.object?, hobjects, List.append_nil] at hrow
            exact hrow
          refine ⟨rfl, row, Option.bind_eq_some_iff.mpr ⟨_, hid, hrow'⟩, ?_⟩
          obtain ⟨iri, hiri⟩ := h.author row (List.mem_of_find?_eq_some hrow')
          have hsameIri : iri = accepted.actorIri :=
            idAt?_inj (resources_nodup hdistinct h).1
              (idAt?_seen hcovered hiri)
              (hactor ▸ hstored.actor.named.idAt?)
          rw [← hsameIri]
          exact hiri

/-- The stored activity, as it was received. -/
theorem activityAt? (hstored : StoredAs now accepted p actorId objectId
    activityId published objects objectRows activityRows kinds)
    (hcovered : ∀ s ∈ p.sent, Covered s p.held)
    (hafter : Consistent (seen p)) :
    (seen p).activityAt? accepted.activityIri =
      some (activityRow now accepted activityId actorId objectId published) := by
  refine Option.bind_eq_some_iff.mpr
    ⟨activityId, hstored.activity.named.idAt?, ?_⟩
  have hmem : activityRow now accepted activityId actorId objectId published ∈
      (seen p).activities := by
    rw [(hstored.rows hcovered).1]
    exact List.mem_append_right _ (by simp)
  exact hafter.activity?_of_mem hmem

/-- The object that the stored activity names is of the same author. -/
theorem objectAt? (hstored : StoredAs now accepted p actorId objectId
    activityId published objects objectRows activityRows kinds)
    (hcovered : ∀ s ∈ p.sent, Covered s p.held)
    (hafter : Consistent (seen p)) :
    ∃ row, (seen p).objectAt? accepted.objectIri = some row ∧
      row.id = objectId ∧ row.actorId = actorId := by
  have hobjects := (hstored.rows hcovered).2.1
  cases hstored.objectStored with
  | created haddressed hunpromoted =>
      refine ⟨objectRow now accepted objectId actorId activityId,
        Option.bind_eq_some_iff.mpr
          ⟨objectId, hstored.object.named.idAt?, ?_⟩, rfl, rfl⟩
      have hmem : objectRow now accepted objectId actorId activityId ∈
          (seen p).objects := by
        rw [hobjects]
        exact List.mem_append_right _ (by simp)
      exact hafter.object?_of_mem hmem
  | reused row hrow hactor =>
      exact ⟨row, Option.bind_eq_some_iff.mpr
        ⟨objectId, hstored.object.named.idAt?, hrow⟩, object?_eq_id hrow,
          hactor⟩

/-- An object that the transaction creates, with its addressing. -/
theorem created (hstored : StoredAs now accepted p actorId objectId activityId
    published objects objectRows activityRows kinds)
    (hcovered : ∀ s ∈ p.sent, Covered s p.held) (h : Consistent p.base)
    (hafter : Consistent (seen p))
    (hobject : p.base.objectAt? accepted.objectIri = none) :
    ∃ row, (seen p).objectAt? accepted.objectIri = some row ∧
      row.document = accepted.objectDocument.map reparsed ∧
      (seen p).idAt? accepted.actorIri = some row.actorId ∧
      Addresses (seen p) accepted.objectAddressing
        ((seen p).addressingFrom row.id) := by
  obtain ⟨row, hrow, hid, hactor⟩ := hstored.objectAt? hcovered hafter
  obtain ⟨hactivities, hobjects, haddressing⟩ := hstored.rows hcovered
  refine ⟨row, hrow, ?_⟩
  cases hstored.objectStored with
  | reused found hfound hfoundActor =>
      exfalso
      have hfound' : p.base.object? objectId = some found := by
        rw [Store.Tables.object?, hobjects, List.append_nil] at hfound
        exact hfound
      obtain ⟨iri, hiri⟩ := h.exists_iri (h.object?_kind hfound')
      have hsame : iri = accepted.objectIri :=
        idAt?_inj hafter.ids (idAt?_seen hcovered hiri)
          hstored.object.named.idAt?
      have hsome : p.base.objectAt? accepted.objectIri = some found :=
        Option.bind_eq_some_iff.mpr ⟨objectId, hsame ▸ hiri, hfound'⟩
      rw [hobject] at hsome
      cases hsome
  | created haddressed hunpromoted =>
      have hmem : objectRow now accepted objectId actorId activityId ∈
          (seen p).objects := by
        rw [hobjects]
        exact List.mem_append_right _ (by simp)
      have hsame : row = objectRow now accepted objectId actorId activityId := by
        obtain ⟨id, hat, hfound⟩ := Option.bind_eq_some_iff.mp hrow
        rw [← object?_eq_id hfound, hid] at hfound
        exact Option.some.inj (hfound.symm.trans
          (hafter.object?_of_mem hmem))
      refine ⟨by rw [hsame]; rfl, hactor ▸ hstored.actor.named.idAt?, ?_⟩
      have hfilter : (seen p).addressingFrom objectId = objectRows := by
        rw [Tables.addressingFrom, haddressing, List.filter_append,
          List.filter_append]
        have hbase : p.base.addressing.filter
            (fun other => other.sourceId == objectId) = [] := by
          refine List.filter_eq_nil_iff.mpr fun other hother hsource => ?_
          obtain ⟨kind, hkind, hknown⟩ := h.addressed other hother
          rw [eq_of_beq hsource] at hkind
          exact hknown (hunpromoted.eq_unknown hkind)
        have hactivity : activityRows.filter
            (fun other => other.sourceId == objectId) = [] := by
          refine List.filter_eq_nil_iff.mpr fun other hother hsource => ?_
          have hother' := hstored.addressed.source other hother
          rw [eq_of_beq hsource] at hother'
          have hkinds := hstored.object.kinded.kindOf?
          rw [hother', hstored.activity.kinded.kindOf?] at hkinds
          cases hkinds
        have hall : objectRows.filter
            (fun other => other.sourceId == objectId) = objectRows :=
          List.filter_eq_self.mpr fun other hother =>
            beq_iff_eq.mpr (haddressed.source other hother)
        rw [hbase, hactivity, hall, List.nil_append, List.append_nil]
      rw [hid, hfilter]
      exact addresses_of_occurrences (haddressed.imp fun _ _ hrow =>
        ⟨hrow.2.1, hrow.2.2.1, hrow.2.2.2.idAt?⟩)

end StoredAs

/-! ## Every commit -/

theorem Kept.refl (t : Tables) : Kept t t :=
  ⟨fun h => h, fun h => h, fun h => ⟨h, rfl⟩⟩

theorem Kept.trans {t t' t'' : Tables} (h : Kept t t') (h' : Kept t' t'') :
    Kept t t'' where
  id hid := h'.id (h.id hid)
  activity hrow := h'.activity (h.activity hrow)
  object hrow := by
    obtain ⟨hrow', hsame⟩ := h.object hrow
    obtain ⟨hrow'', hsame'⟩ := h'.object hrow'
    exact ⟨hrow'', hsame'.trans hsame⟩

theorem Addresses.kept {t t' : Tables} (hkept : Kept t t')
    {input : AddressingInput} {rows : List Addressing}
    (h : Addresses t input rows) : Addresses t' input rows where
  listed property hproperty := by
    have hlisted := h.listed property hproperty
    rw [hlisted]
    apply List.ext_getElem
    · rw [List.length_mapIdx, List.length_mapIdx]
    intro i hi hi'
    -- The row at the index names the resource of the IRI there.
    have hrow := List.getElem_of_eq hlisted (hlisted ▸ hi)
    rw [List.getElem_map, List.getElem_mapIdx, Prod.mk.injEq] at hrow
    rw [List.getElem_mapIdx, List.getElem_mapIdx, ← hrow.2,
      hkept.id hrow.2.symm]
  only := h.only

theorem keepsFirstProof_start {start : Tables} (h : Consistent start) :
    KeepsFirstProof start start [] where
  consistent := h
  kept := Kept.refl start
  once iri row hrow other hother hid hid' := by
    have hsame : row.id = other.id := Option.some.inj (hid.symm.trans hid')
    exact List.inj_on_of_nodup_map h.activities hrow hother hsame
  payload before call later hlog := by simp at hlog
  creator before call later hlog := by simp at hlog
  author call hcall := by cases hcall
  activities row hrow := .inl hrow
  objects row hrow := .inl hrow

/-- A call of a log with one more call. -/
theorem split_concat {α : Type} {log before later : List α} {last call : α}
    (h : log ++ [last] = before ++ call :: later) :
    (∃ rest, log = before ++ call :: rest) ∨ before = log ∧ call = last := by
  rcases later.eq_nil_or_concat with rfl | ⟨rest, final, rfl⟩
  · right
    obtain ⟨hlog, hlast⟩ := List.append_inj' h rfl
    exact ⟨hlog.symm, (List.cons.inj hlast).1.symm⟩
  · left
    refine ⟨rest, ?_⟩
    rw [List.concat_eq_append, ← List.cons_append, ← List.append_assoc] at h
    exact (List.append_inj' h rfl).1

theorem activityAt?_kind {t : Tables} (h : Consistent t) {iri : JsString}
    {row : StoredActivity} (hrow : t.activityAt? iri = some row) :
    ∃ id, t.idAt? iri = some id ∧ t.kindOf? id = some .activity := by
  obtain ⟨id, hid, hfound⟩ := Option.bind_eq_some_iff.mp hrow
  exact ⟨id, hid, h.activity?_kind hfound⟩

/-- No call stores an activity that is there. -/
theorem Admitted.activityAt?_eq_none {env : Environment} {t : Tables}
    {accepted : Accepted} (h : Admitted env t accepted) (ht : Consistent t) :
    t.activityAt? accepted.activityIri = none := by
  by_contra hne
  obtain ⟨row, hrow⟩ := Option.ne_none_iff_exists'.mp hne
  obtain ⟨id, hid, hkind⟩ := activityAt?_kind ht hrow
  exact absurd (h.activity id _ hid hkind) (by simp)

theorem eq_none_of_kept {α : Type} {before after : Option α}
    (h : ∀ {row}, before = some row → after = some row)
    (hafter : after = none) : before = none := by
  by_contra hne
  obtain ⟨row, hrow⟩ := Option.ne_none_iff_exists'.mp hne
  rw [h hrow] at hafter
  cases hafter

namespace KeepsFirstProof

variable {env : Environment} {start : Tables} {log : List StoreCall}
  {call : StoreCall}

/-- An object that is there was there at the start, or a call has stored it. -/
theorem objectAt?_eq_none (h : KeepsFirstProof start p.base log)
    (hstart : Consistent start) {iri : JsString}
    (hnone : start.objectAt? iri = none)
    (hlog : ∀ earlier ∈ log, earlier.accepted.objectIri ≠ iri) :
    p.base.objectAt? iri = none := by
  by_contra hne
  obtain ⟨row, hrow⟩ := Option.ne_none_iff_exists'.mp hne
  obtain ⟨id, hid, hfound⟩ := Option.bind_eq_some_iff.mp hrow
  have hrowId := object?_eq_id hfound
  rcases h.objects row (List.mem_of_find?_eq_some hfound) with hold | hcall
  · obtain ⟨other, hother⟩ := hstart.exists_iri (hstart.objectKind row hold)
    have hsame : other = iri :=
      idAt?_inj h.consistent.ids (h.kept.id hother) (hrowId ▸ hid)
    have hsome : start.objectAt? iri = some row :=
      Option.bind_eq_some_iff.mpr
        ⟨row.id, hsame ▸ hother, hstart.object?_of_mem hold⟩
    rw [hnone] at hsome
    cases hsome
  · obtain ⟨earlier, hearlier, hat⟩ := hcall
    obtain ⟨other, hother, hfound'⟩ := Option.bind_eq_some_iff.mp hat
    have hid' : other = id := (object?_eq_id hfound').symm.trans hrowId
    exact hlog earlier hearlier
      (idAt?_inj h.consistent.ids (hid' ▸ hother) hid)

/-- A commit keeps the first proof. -/
theorem commit (h : KeepsFirstProof start p.base log)
    (hstart : Consistent start)
    (hcovered : ∀ s ∈ p.sent, Covered s p.held)
    (hdistinct : Distinct p.sent p.base)
    (houtcome : Outcome call.now call.accepted p)
    (hadmitted : Admitted env p.base call.accepted) :
    KeepsFirstProof start (seen p) (log ++ [call]) := by
  obtain ⟨actorId, objectId, activityId, published, objects, objectRows,
    activityRows, kinds, hstored⟩ := houtcome
  have hafter := hstored.consistent hcovered hdistinct h.consistent
  have hkept := hstored.kept hcovered h.consistent
  have hactivity := hstored.activityAt? hcovered hafter
  obtain ⟨hactivities, hobjects, -⟩ := hstored.rows hcovered
  obtain ⟨object, hobject, hobjectId, hobjectActor⟩ :=
    hstored.objectAt? hcovered hafter
  have hactor := hstored.actor.named.idAt?
  have hnone := hadmitted.activityAt?_eq_none h.consistent
  refine
    { consistent := hafter
      kept := h.kept.trans hkept
      once := (keepsFirstProof_start hafter).once
      payload := ?_
      creator := ?_
      author := ?_
      activities := ?_
      objects := ?_ }
  · intro before other later hlog
    rcases split_concat hlog with ⟨rest, hold⟩ | ⟨rfl, rfl⟩
    · obtain ⟨habsent, hfirst, row, hrow, hdocument⟩ :=
        h.payload before other rest hold
      exact ⟨habsent, hfirst, row, hkept.activity hrow, hdocument⟩
    · refine ⟨eq_none_of_kept h.kept.activity hnone, ?_, _, hactivity, rfl⟩
      intro earlier hearlier hsame
      obtain ⟨first, rest, hsplit⟩ := List.append_of_mem hearlier
      obtain ⟨-, -, row, hrow, -⟩ := h.payload first earlier rest hsplit
      rw [hsame, hnone] at hrow
      cases hrow
  · intro before other later hlog habsent hfirst
    rcases split_concat hlog with ⟨rest, hold⟩ | ⟨rfl, rfl⟩
    · obtain ⟨row, hrow, hdocument, hauthor, haddresses⟩ :=
        h.creator before other rest hold habsent hfirst
      obtain ⟨hrow', hsame⟩ := hkept.object hrow
      refine ⟨row, hrow', hdocument, hkept.id hauthor, ?_⟩
      rw [hsame]
      exact haddresses.kept hkept
    · exact hstored.created hcovered h.consistent hafter
        (h.objectAt?_eq_none hstart habsent hfirst)
  · intro other hother
    rcases List.mem_append.mp hother with hold | hnew
    · obtain ⟨activity, row, hat, hrow, hobjectOf, hsame, hauthor⟩ :=
        h.author other hold
      exact ⟨activity, row, hkept.activity hat, (hkept.object hrow).1,
        hobjectOf, hsame, hkept.id hauthor⟩
    · rw [List.mem_singleton.mp hnew]
      refine ⟨_, object, hactivity, hobject, ?_, ?_, ?_⟩
      · rw [hobjectId]
        rfl
      · rw [hobjectActor]
        rfl
      · rw [hobjectActor]
        exact hactor
  · intro row hrow
    rw [hactivities] at hrow
    rcases List.mem_append.mp hrow with hold | hnew
    · rcases h.activities row hold with hfirst | ⟨other, hother, hat⟩
      · exact .inl hfirst
      · exact .inr ⟨other, List.mem_append_left _ hother, hkept.activity hat⟩
    · rw [List.mem_singleton.mp hnew]
      exact .inr ⟨call, by simp, hactivity⟩
  · intro row hrow
    rw [hobjects] at hrow
    rcases List.mem_append.mp hrow with hold | hnew
    · rcases h.objects row hold with hfirst | ⟨other, hother, hat⟩
      · exact .inl hfirst
      · exact .inr ⟨other, List.mem_append_left _ hother, (hkept.object hat).1⟩
    · refine .inr ⟨call, by simp, ?_⟩
      have hmem : row ∈ (seen p).objects := by
        rw [hobjects]
        exact List.mem_append_right _ hnew
      have hid : row.id = objectId := by
        cases hstored.objectStored with
        | created haddressed hunpromoted => rw [List.mem_singleton.mp hnew]; rfl
        | reused found hfound hactor => cases hnew
      exact Option.bind_eq_some_iff.mpr ⟨objectId,
        hstored.object.named.idAt?, hid ▸ hafter.object?_of_mem hmem⟩

end KeepsFirstProof

end Commit

/-! ## Every run -/

section Runs

variable {ι : Type} [DecidableEq ι] {env : Environment} {start : Tables}
  {s s' : State Tables Statement Failure Key Unit StoreCall ι}

/-- What a call secures, whatever other calls commit meanwhile. -/
def Secured (env : Environment) (call : StoreCall) (_ : Unit) (p : Point) :
    Prop :=
  Outcome call.now call.accepted p ∧ ∃ row,
    (seen p).instanceAt? (env.canonicalHost call.accepted.actorIri) =
      some row ∧ row.localId = none

theorem program_secures (env : Environment) (call : StoreCall)
    (base : Tables) :
    rules.Secures ((service env).program call) ⟨[], [], base⟩
      (Secured env call) :=
  store_secures call.ids call.now call.accepted env base

theorem Secured.admitted {call : StoreCall} {value : Unit} {p : Point}
    (h : Secured env call value p) (hcovered : ∀ s ∈ p.sent, Covered s p.held)
    (hdistinct : Distinct p.sent p.base) (hbase : Consistent p.base) :
    Admitted env p.base call.accepted := by
  obtain ⟨⟨actorId, objectId, activityId, published, objects, objectRows,
    activityRows, kinds, hstored⟩, hremote⟩ := h
  exact hstored.admitted hcovered hdistinct hbase hremote

/-- The calls that have committed. -/
def committedCalls (s : State Tables Statement Failure Key Unit StoreCall ι) :
    List StoreCall :=
  s.log.map Prod.fst

theorem run_keepsFirstProof (hstart : Consistent start)
    (h : Run (service env) (State.initial start) s) :
    KeepsFirstProof start s.committed (committedCalls s) := by
  refine Run.invariant_from (R := rules) (Q := Secured env)
    (I := fun t log => KeepsFirstProof start t (log.map Prod.fst))
    (program_secures env) (State.initial_sound start)
    (keepsFirstProof_start hstart) ?_ h
  intro call value p log hkeeps hcovered hdistinct _ hsecured
  rw [List.map_append]
  exact hkeeps.commit hstart hcovered hdistinct hsecured.1
    (hsecured.admitted hcovered hdistinct hkeeps.consistent)

theorem run_kept (hstart : Consistent start)
    (h : Run (service env) (State.initial start) s)
    (h' : Run (service env) s s') : Kept s.committed s'.committed := by
  refine (Run.invariant_from (R := rules) (Q := Secured env)
    (I := fun t _ => Consistent t ∧ Kept s.committed t)
    (program_secures env) (h.sound (program_secures env))
    ⟨(run_keepsFirstProof hstart h).consistent, Kept.refl _⟩ ?_ h').2
  rintro call value p log ⟨hconsistent, hkept⟩ hcovered hdistinct -
    ⟨⟨actorId, objectId, activityId, published, objects, objectRows,
      activityRows, kinds, hstored⟩, -⟩
  exact ⟨hstored.consistent hcovered hdistinct hconsistent,
    hkept.trans (hstored.kept hcovered hconsistent)⟩

/-- Remote storage keeps the first proof: in every state that interleaved
transactions reach, each activity is stored once with the payload of the first
call that committed it, an object is as the call that created it left it and
its author's, no later call changes it, and a call that is refused leaves every
table as it was. -/
theorem remoteStorage_keeps (env : Environment) {start : Tables}
    (hstart : Consistent start) {ι : Type} [DecidableEq ι]
    {s : State Tables Statement Failure Key Unit StoreCall ι}
    (h : Run (service env) (State.initial start) s) :
    KeepsFirstProof start s.committed (committedCalls s) ∧
      (∀ s', Run (service env) s s' → Kept s.committed s'.committed) ∧
      ∀ i action s', s.act (service env) i action = some s' →
        s'.committed = s.committed ∧ committedCalls s' = committedCalls s ∨
          ∃ call, committedCalls s' = committedCalls s ++ [call] ∧
            Admitted env s.committed call.accepted := by
  have hkeeps := run_keepsFirstProof hstart h
  refine ⟨hkeeps, fun s' => run_kept hstart h, fun i action s' hact => ?_⟩
  rcases ((h.sound (program_secures env)).act (program_secures env) hact).2
    with ⟨hcommitted, hlog⟩ | hcommitted
  · exact .inl ⟨hcommitted, congrArg (List.map Prod.fst) hlog⟩
  · right
    obtain ⟨call, value, p, hbase, hcovered, hdistinct, -, hlog, -, hsecured⟩ :=
      hcommitted
    refine ⟨call, ?_, ?_⟩
    · rw [committedCalls, hlog, List.map_append]
      rfl
    · rw [← hbase]
      exact hsecured.admitted hcovered hdistinct
        (hbase ▸ hkeeps.consistent)

end Runs

/-! ## Two deliveries of one activity -/

def noTables : Tables where
  resources := []
  actors := []
  objects := []
  activities := []
  addressing := []
  revisions := []
  heads := []
  revisionAddressing := []
  revisionRelations := []
  instances := []
  remoteActors := []

def oneHost : Environment where
  expandedObject _ := none
  haveSameFe34Origin _ _ := true
  canonicalHost _ := js "remote.example"
  collation first second := keyLe first second

/-- A `Create` whose payload is a number, of an object with a copy for `u`. -/
def noteCall (payload : ℕ) (targets : List JsString) (id : Uuid) :
    StoreCall where
  accepted :=
    { activityIri := js "c"
      activityPublished := none
      activityAddressing := [(js "to", [js "t"])]
      actorIri := js "a"
      actorDocument := .null
      actorType := .person
      inboxUrl := js "i"
      followersUrl := none
      objectIri := js "o"
      objectPublished := none
      objectAddressing := [(js "cc", [js "u"]), (js "to", targets)]
      objectType := .note
      contentHtml := js "x"
      name := none
      summary := none
      language := none
      sensitive := none
      username := none
      objectDocument := some (.num (.rational payload))
      objectFetched := false
      receipt := ⟨.num (.rational payload), 0⟩ }
  ids :=
    { fresh :=
        { resource := fun iri => id + BitVec.ofNat 128 (iri.headD 0).toNat
          addressing := fun n => id + BitVec.ofNat 128 n }
      remoteInstance := id
      objectRevision := id
      activityRevision := id + 1
      whiteout := id + 2 }
  now := 0

/-- Two deliveries of one activity with different payloads, side by side. -/
def racingActions : List (Bool × Action StoreCall) :=
  [(true, .start (noteCall 1 [js "t", js "u", js "t"] 1000)),
      (false, .start (noteCall 2 [js "v"] 2000))] ++
    (List.replicate 80 [(true, Action.advance), (false, .advance)]).flatten ++
    List.replicate 80 (false, .advance)

theorem remoteStorage_keeps_raced :
    let s := (State.initial noTables).play (service oneHost) racingActions
    (committedCalls s).map (fun call => call.ids.remoteInstance) = [1000] ∧
      (s.committed.addressingFrom 1111).map (fun row =>
          (row.property, row.position, row.targetId)) =
        [(js "to", 0, 1116), (js "to", 1, 1117), (js "to", 2, 1116),
          (js "cc", 0, 1117)] ∧
      KeepsFirstProof noTables s.committed (committedCalls s) := by
  refine ⟨by decide +kernel, by decide +kernel, ?_⟩
  have hstart : Consistent noTables :=
    ⟨by simp [noTables], by simp [noTables], by simp [noTables],
      by simp [noTables], by simp [noTables], by simp [noTables],
      by simp [noTables], by simp [noTables]⟩
  exact (remoteStorage_keeps oneHost hstart (Run.refl.play racingActions)).1

end DrFed.Inbox
