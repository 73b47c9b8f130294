import DrFed.Receipts.Recorded
import DrFed.Support.Keyed

/-!
# Receipts are derived

The receipts of a delivery are what `decideCarried` inserts for it, and every
operation keeps it so.
-/

namespace DrFed.Receipts

open Store Inbox Delivery

/-! ## The receipts of a delivery -/

section Carried

variable {t t' : Inbox.Tables} {deliveryId id : Uuid} {row : ActivityDelivery}
  {activity : StoredActivity} {object : Option ActivityPubObject}

/-- The first revision of a resource, when it is a snapshot. -/
def firstSnapshot? (t : Inbox.Tables) (id : Uuid) : Option ResourceRevision :=
  t.revisions.find? fun revision =>
    revision.resourceId == id && revision.sequence == 1 &&
      revision.kind == .snapshot

theorem find?_firstSnapshots {ids : List Uuid} (hid : id ∈ ids) :
    (firstSnapshots t ids).find? (fun revision => revision.resourceId == id) =
      firstSnapshot? t id := by
  rw [firstSnapshots, List.find?_filter, firstSnapshot?]
  congr 1
  funext revision
  by_cases h : revision.resourceId = id
  · simp [h, hid, beq_eq_decide]
  · simp [h]

/-- The revision of the activity that the delivery carried. -/
def activityRevision? (t : Inbox.Tables) (row : ActivityDelivery)
    (activity : StoredActivity) : Option ResourceRevision :=
  (firstSnapshot? t activity.id).filter fun revision =>
    carriedSnapshot row activity &&
      sameDocument revision.document activity.document

/-- The revision of the object that the delivery carried. -/
def objectRevision? (t : Inbox.Tables) (row : ActivityDelivery)
    (activity : StoredActivity) (object : ActivityPubObject) :
    Option ResourceRevision :=
  (firstSnapshot? t object.id).filter fun revision =>
    carriedObjectSnapshot row activity object &&
      sameDocument revision.document object.document

theorem carriedReceipts_eq :
    carriedReceipts t deliveryId row activity object =
      (activityRevision? t row activity).toList.flatMap fun revision =>
        ⟨deliveryId, revision.id, .activity⟩ ::
          (object.bind (objectRevision? t row activity)).toList.map
            fun revision => ⟨deliveryId, revision.id, .object⟩ := by
  rw [carriedReceipts, activityRevision?]
  by_cases hcarried : carriedSnapshot row activity = true
  · rw [hcarried, if_neg (by simp)]
    simp only [find?_firstSnapshots List.mem_cons_self, Bool.true_and]
    cases hfirst : firstSnapshot? t activity.id with
    | none => rfl
    | some revision =>
        by_cases hsame : sameDocument revision.document activity.document = true
        · rw [Option.filter_some, if_pos hsame]
          simp only [hsame, Bool.not_true, Bool.false_eq_true, if_false,
            Option.toList_some, List.flatMap_cons, List.flatMap_nil,
            List.append_nil]
          congr 1
          cases object with
          | none => rfl
          | some object =>
              simp only [Option.toList_some, List.flatMap_cons,
                List.flatMap_nil, List.append_nil, Option.bind_some,
                objectReceipt, objectRevision?]
              rw [find?_firstSnapshots (by simp)]
              cases firstSnapshot? t object.id with
              | none => rfl
              | some revision =>
                  by_cases h : (carriedObjectSnapshot row activity object &&
                      sameDocument revision.document object.document) = true
                  · simp [Option.filter_some, h]
                  · simp [Option.filter_some, h]
        · rw [Option.filter_some, if_neg hsame]
          simp [hsame]
  · rw [Bool.not_eq_true] at hcarried
    simp [hcarried]

theorem deliveryId_of_mem_carriedReceipts {receipt : RevisionReceipt}
    (h : receipt ∈ carriedReceipts t deliveryId row activity object) :
    receipt.deliveryId = deliveryId := by
  rw [carriedReceipts_eq] at h
  obtain ⟨revision, -, h⟩ := List.mem_flatMap.mp h
  rcases List.mem_cons.mp h with rfl | h
  · rfl
  · obtain ⟨other, -, rfl⟩ := List.mem_map.mp h
    rfl

/-- The first revisions decide. -/
theorem carriedReceipts_congr
    (hactivity : firstSnapshot? t' activity.id = firstSnapshot? t activity.id)
    (hobject : ∀ stored ∈ object,
      firstSnapshot? t' stored.id = firstSnapshot? t stored.id) :
    carriedReceipts t' deliveryId row activity object =
      carriedReceipts t deliveryId row activity object := by
  rw [carriedReceipts_eq, carriedReceipts_eq, activityRevision?, hactivity,
    activityRevision?]
  congr 2
  funext revision
  congr 2
  cases object with
  | none => rfl
  | some stored =>
      rw [Option.bind_some, Option.bind_some, objectRevision?,
        hobject stored rfl, objectRevision?]

end Carried

/-- The columns of an inbound delivery that its receipts follow. -/
structure SameEvidence (row row' : ActivityDelivery) : Prop where
  activityId : row'.activityId = row.activityId
  payload : row'.payload = row.payload
  fetchedObject : row'.fetchedObject = row.fetchedObject

def rowReceipts (t : Inbox.Tables) (deliveryId : Uuid)
    (row : ActivityDelivery) : List RevisionReceipt :=
  (row.activityId.bind t.activity?).toList.flatMap fun activity =>
    carriedReceipts t deliveryId row activity (storedWith? t activity.id)

/-- What the receipts of a delivery are. -/
def receiptsFor (t : Inbox.Tables) (delivery : DeliveryRow) :
    List RevisionReceipt :=
  delivery.details.inbound?.toList.flatMap (rowReceipts t delivery.id)

theorem SameEvidence.rowReceipts_eq {row row' : ActivityDelivery}
    (h : SameEvidence row row') (t : Inbox.Tables) (deliveryId : Uuid) :
    rowReceipts t deliveryId row' = rowReceipts t deliveryId row := by
  rw [rowReceipts, h.activityId, rowReceipts]
  congr 1
  funext activity
  have hcarried :
      carriedSnapshot row' activity = carriedSnapshot row activity := by
    rw [carriedSnapshot, h.payload, carriedSnapshot]
  have hobject : carriedObjectSnapshot row' activity =
      carriedObjectSnapshot row activity := by
    funext object
    rw [carriedObjectSnapshot, hcarried, h.fetchedObject,
      carriedObjectSnapshot]
  have hrevision : objectRevision? t row' activity =
      objectRevision? t row activity := by
    funext object
    rw [objectRevision?, hobject, objectRevision?]
  rw [carriedReceipts_eq, carriedReceipts_eq, hrevision, activityRevision?,
    hcarried, activityRevision?]

theorem deliveryId_of_mem_rowReceipts {t : Inbox.Tables} {deliveryId : Uuid}
    {row : ActivityDelivery} {receipt : RevisionReceipt}
    (h : receipt ∈ rowReceipts t deliveryId row) :
    receipt.deliveryId = deliveryId := by
  obtain ⟨activity, -, h⟩ := List.mem_flatMap.mp h
  exact deliveryId_of_mem_carriedReceipts h

/-! ## The invariant -/

/-- The link of an inbound delivery, of which the check
`activity_deliveries_activity_check` is part. -/
structure Linked (t : Inbox.Tables) (row : ActivityDelivery) (id : Uuid) :
    Prop where
  activity : (t.activity? id).isSome = true
  verified : row.verificationResult = .verified
  accepted : row.status = .received ∨ row.status = .acknowledged

def receiptsOf (s : State) (id : Uuid) : List RevisionReceipt :=
  s.receipts.filter fun receipt => receipt.deliveryId = id

/-- The receipts are those of the deliveries. -/
structure Derived (s : State) : Prop where
  recorded : Recorded s.tables
  ids : (s.deliveries.map DeliveryRow.id).Nodup
  linked : ∀ delivery ∈ s.deliveries, ∀ row,
    delivery.details = .inbound row → ∀ id, row.activityId = some id →
      Linked s.tables row id
  owned : ∀ receipt ∈ s.receipts, ∃ delivery ∈ s.deliveries,
    delivery.id = receipt.deliveryId
  derived : ∀ delivery ∈ s.deliveries,
    receiptsOf s delivery.id = receiptsFor s.tables delivery

section Rows

variable {s : State} {id : Uuid} {row : ActivityDelivery}
  {f g : ActivityDelivery → ActivityDelivery}

theorem mem_updateInbound {delivery : DeliveryRow} :
    delivery ∈ (s.updateInbound id f).deliveries ↔
      (delivery ∈ s.deliveries ∧ delivery.id ≠ id) ∨
        ∃ details, ⟨id, details⟩ ∈ s.deliveries ∧
          delivery = ⟨id, details.updateInbound f⟩ := by
  constructor
  · intro h
    obtain ⟨before, hbefore, rfl⟩ := List.mem_map.mp h
    by_cases hid : before.id = id
    · right
      rw [if_pos hid]
      exact ⟨before.details, hid ▸ hbefore, by rw [hid]⟩
    · left
      rw [if_neg hid]
      exact ⟨hbefore, hid⟩
  · rintro (⟨h, hid⟩ | ⟨details, h, rfl⟩)
    · exact List.mem_map.mpr ⟨delivery, h, if_neg hid⟩
    · exact List.mem_map.mpr ⟨_, h, if_pos rfl⟩

theorem ids_updateInbound :
    (s.updateInbound id f).deliveries.map DeliveryRow.id =
      s.deliveries.map DeliveryRow.id := by
  rw [State.updateInbound, List.map_map]
  refine List.map_congr_left fun delivery _ => ?_
  rw [Function.comp_apply]
  split_ifs <;> rfl

theorem updateInbound_updateInbound :
    (s.updateInbound id f).updateInbound id g =
      s.updateInbound id (g ∘ f) := by
  rw [State.updateInbound, State.updateInbound, State.updateInbound,
    List.map_map]
  congr 1
  refine List.map_congr_left fun delivery _ => ?_
  rw [Function.comp_apply]
  by_cases hid : delivery.id = id
  · rw [if_pos hid, if_pos hid, if_pos hid]
    cases delivery.details <;> rfl
  · rw [if_neg hid, if_neg hid, if_neg hid]

theorem inbound?_eq_some (h : (s.deliveries.map DeliveryRow.id).Nodup) :
    s.inbound? id = some row ↔ ⟨id, .inbound row⟩ ∈ s.deliveries := by
  rw [State.inbound?, Option.bind_eq_some_iff]
  constructor
  · rintro ⟨delivery, hfound, hrow⟩
    obtain ⟨hmem, rfl⟩ := (Keyed.find?_eq_some h).mp hfound
    obtain ⟨id, details⟩ := delivery
    cases details with
    | inbound other =>
        cases hrow
        exact hmem
    | outbound activityId => cases hrow
  · intro hmem
    exact ⟨_, (Keyed.find?_eq_some h).mpr ⟨hmem, rfl⟩, rfl⟩

theorem inbound?_updateInbound :
    (s.updateInbound id f).inbound? id = (s.inbound? id).map f := by
  rw [State.inbound?, State.updateInbound, List.find?_map, State.inbound?]
  have hsame : (fun delivery : DeliveryRow => delivery.id == id) ∘
      (fun delivery : DeliveryRow =>
        if delivery.id = id then
          { delivery with details := delivery.details.updateInbound f }
        else delivery) = fun delivery => delivery.id == id := by
    funext delivery
    rw [Function.comp_apply]
    split_ifs <;> rfl
  rw [hsame]
  cases hfound : s.deliveries.find? fun delivery => delivery.id == id with
  | none => rfl
  | some delivery =>
      have hid : delivery.id = id := by simpa using List.find?_some hfound
      rw [Option.map_some, if_pos hid, Option.bind_some, Option.bind_some]
      cases delivery.details <;> rfl

theorem eq_of_id (h : (s.deliveries.map DeliveryRow.id).Nodup)
    {details details' : Details} (hmem : ⟨id, details⟩ ∈ s.deliveries)
    (hmem' : ⟨id, details'⟩ ∈ s.deliveries) : details = details' :=
  congrArg DeliveryRow.details (List.inj_on_of_nodup_map h hmem hmem' rfl)

end Rows

/-! ## Decisions -/

/-- At most the marks of a row are set. -/
def Remarks (f : ActivityDelivery → ActivityDelivery) : Prop :=
  f = (fun row => row) ∨ ∃ activity object, f = mark activity object

theorem Remarks.sameEvidence {f : ActivityDelivery → ActivityDelivery}
    (h : Remarks f) (row : ActivityDelivery) : SameEvidence row (f row) := by
  rcases h with rfl | ⟨activity, object, rfl⟩ <;> exact ⟨rfl, rfl, rfl⟩

theorem Remarks.linked {f : ActivityDelivery → ActivityDelivery}
    (h : Remarks f) {t : Inbox.Tables} {row : ActivityDelivery} {id : Uuid}
    (hlinked : Linked t row id) : Linked t (f row) id := by
  rcases h with rfl | ⟨activity, object, rfl⟩ <;>
    exact ⟨hlinked.activity, hlinked.verified, hlinked.accepted⟩

section Decide

variable {s : State} {id : Uuid} {row : ActivityDelivery}
  {f : ActivityDelivery → ActivityDelivery}

theorem updateInbound_id : s.updateInbound id (fun row => row) = s := by
  rw [State.updateInbound]
  have hsame : (fun delivery : DeliveryRow =>
      if delivery.id = id then
        { delivery with
          details := delivery.details.updateInbound fun row => row }
      else delivery) = fun delivery => delivery := by
    funext delivery
    obtain ⟨other, details⟩ := delivery
    cases details <;> exact ite_self _
  rw [hsame, List.map_id']

/-- A decision sets the marks and writes the receipts of one delivery. -/
theorem decideCarried_eq (hrow : s.inbound? id = some row) :
    ∃ f, Remarks f ∧ decideCarried s id =
      { s.updateInbound id f with
        receipts := (s.removeReceipts id).receipts ++
          rowReceipts s.tables id row } := by
  rw [decideCarried, hrow]
  dsimp only
  rw [rowReceipts]
  cases hactivity : row.activityId.bind s.tables.activity? with
  | none =>
      refine ⟨fun row => row, .inl rfl, ?_⟩
      rw [updateInbound_id, Option.toList_none, List.flatMap_nil,
        List.append_nil]
      rfl
  | some activity =>
      refine ⟨mark activity (storedWith? s.tables activity.id),
        .inr ⟨_, _, rfl⟩, ?_⟩
      rw [Option.toList_some, List.flatMap_singleton]
      rfl

theorem decideCarried_linked {activity : StoredActivity}
    (hrow : s.inbound? id = some row)
    (hactivity : row.activityId.bind s.tables.activity? = some activity) :
    decideCarried s id =
      { s.updateInbound id (mark activity (storedWith? s.tables activity.id))
          with
        receipts := (s.removeReceipts id).receipts ++
          rowReceipts s.tables id row } := by
  rw [decideCarried, hrow]
  dsimp only
  rw [rowReceipts, hactivity, Option.toList_some, List.flatMap_singleton]
  rfl

theorem decideCarried_removeReceipts (hrow : s.inbound? id = some row) :
    decideCarried (s.removeReceipts id) id = decideCarried s id := by
  have hcleared : (s.removeReceipts id).removeReceipts id =
      s.removeReceipts id := by
    rw [State.removeReceipts, State.removeReceipts, List.filter_filter]
    simp
  have hinbound : (s.removeReceipts id).inbound? id = s.inbound? id := rfl
  rw [decideCarried, decideCarried, hinbound, hcleared, hrow]
  rfl

theorem filter_other {rows : List RevisionReceipt} {other : Uuid}
    (hid : other ≠ id) :
    (rows.filter fun receipt => receipt.deliveryId ≠ id).filter
        (fun receipt => receipt.deliveryId = other) =
      rows.filter fun receipt => receipt.deliveryId = other := by
  rw [List.filter_filter]
  refine List.filter_congr fun receipt _ => ?_
  by_cases h : receipt.deliveryId = other
  · simp [h, hid]
  · simp [h]

/-- What is changed of one inbound delivery before its decision is in its
receipts afterwards. -/
theorem Derived.redecide (h : Derived s) (hrow : s.inbound? id = some row)
    (hlinked : ∀ activityId, (f row).activityId = some activityId →
      Linked s.tables (f row) activityId) :
    Derived (decideCarried (s.updateInbound id f) id) := by
  have hmem := (inbound?_eq_some h.ids).mp hrow
  have hnew : (s.updateInbound id f).inbound? id = some (f row) := by
    rw [inbound?_updateInbound, hrow, Option.map_some]
  obtain ⟨g, hg, hdecided⟩ := decideCarried_eq hnew
  rw [hdecided, updateInbound_updateInbound]
  have hids : ((s.updateInbound id (g ∘ f)).deliveries.map
      DeliveryRow.id).Nodup := by
    rw [ids_updateInbound]
    exact h.ids
  have hdetails : ∀ {details}, ⟨id, details⟩ ∈ s.deliveries →
      details = .inbound row := fun hother => eq_of_id h.ids hother hmem
  refine ⟨h.recorded, hids, ?_, ?_, ?_⟩
  · intro delivery hdelivery other hother activityId hactivity
    rcases mem_updateInbound.mp hdelivery with
      ⟨hold, -⟩ | ⟨details, hdetail, rfl⟩
    · exact h.linked delivery hold other hother activityId hactivity
    · rw [hdetails hdetail] at hother
      cases hother
      refine hg.linked (hlinked activityId ?_)
      rw [← (hg.sameEvidence (f row)).activityId]
      exact hactivity
  · intro receipt hreceipt
    rcases List.mem_append.mp hreceipt with hold | hreceipt
    · obtain ⟨delivery, hdelivery, hid⟩ :=
        h.owned receipt (List.mem_of_mem_filter hold)
      have hne : receipt.deliveryId ≠ id := by
        simpa using (List.mem_filter.mp hold).2
      exact ⟨delivery, mem_updateInbound.mpr (.inl ⟨hdelivery, hid ▸ hne⟩),
        hid⟩
    · exact ⟨_, mem_updateInbound.mpr (.inr ⟨_, hmem, rfl⟩),
        (deliveryId_of_mem_rowReceipts hreceipt).symm⟩
  · intro delivery hdelivery
    have hsame : receiptsOf { s.updateInbound id (g ∘ f) with
        receipts := (s.removeReceipts id).receipts ++
          rowReceipts s.tables id (f row) } delivery.id =
        ((s.removeReceipts id).receipts.filter fun receipt =>
          receipt.deliveryId = delivery.id) ++
        ((rowReceipts s.tables id (f row)).filter fun receipt =>
          receipt.deliveryId = delivery.id) := List.filter_append _ _
    refine hsame.trans ?_
    rcases mem_updateInbound.mp hdelivery with
      ⟨hold, hid⟩ | ⟨details, hdetail, rfl⟩
    · have hnone : ((rowReceipts s.tables id (f row)).filter fun receipt =>
          receipt.deliveryId = delivery.id) = [] := by
        refine List.filter_eq_nil_iff.mpr fun receipt hreceipt => ?_
        rw [deliveryId_of_mem_rowReceipts hreceipt]
        simpa using Ne.symm hid
      rw [State.removeReceipts, filter_other hid, hnone, List.append_nil]
      exact h.derived delivery hold
    · rw [hdetails hdetail]
      have hnone : ((s.removeReceipts id).receipts.filter fun receipt =>
          receipt.deliveryId = id) = [] := by
        rw [State.removeReceipts, List.filter_filter]
        simp
      have hall : ((rowReceipts s.tables id (f row)).filter fun receipt =>
          receipt.deliveryId = id) = rowReceipts s.tables id (f row) :=
        List.filter_eq_self.mpr fun receipt hreceipt =>
          decide_eq_true (deliveryId_of_mem_rowReceipts hreceipt)
      rw [hnone, hall, List.nil_append,
        ← (hg.sameEvidence (f row)).rowReceipts_eq]
      exact (List.flatMap_singleton ..).symm

/-- An update that leaves the evidence as it is leaves the receipts. -/
theorem Derived.update (h : Derived s) (hrow : s.inbound? id = some row)
    (hsame : SameEvidence row (f row))
    (hlinked : ∀ activityId, row.activityId = some activityId →
      Linked s.tables (f row) activityId) : Derived (s.updateInbound id f) := by
  have hmem := (inbound?_eq_some h.ids).mp hrow
  have hdetails : ∀ {details}, ⟨id, details⟩ ∈ s.deliveries →
      details = .inbound row := fun hother => eq_of_id h.ids hother hmem
  have hids : ((s.updateInbound id f).deliveries.map DeliveryRow.id).Nodup := by
    rw [ids_updateInbound]
    exact h.ids
  refine ⟨h.recorded, hids, ?_, ?_, ?_⟩
  · intro delivery hdelivery other hother activityId hactivity
    rcases mem_updateInbound.mp hdelivery with
      ⟨hold, -⟩ | ⟨details, hdetail, rfl⟩
    · exact h.linked delivery hold other hother activityId hactivity
    · rw [hdetails hdetail] at hother
      cases hother
      exact hlinked activityId (hsame.activityId ▸ hactivity)
  · intro receipt hreceipt
    obtain ⟨delivery, hdelivery, hid⟩ := h.owned receipt hreceipt
    by_cases hne : delivery.id = id
    · exact ⟨_, mem_updateInbound.mpr (.inr ⟨_, hmem, rfl⟩),
        hne.symm.trans hid⟩
    · exact ⟨delivery, mem_updateInbound.mpr (.inl ⟨hdelivery, hne⟩), hid⟩
  · intro delivery hdelivery
    rcases mem_updateInbound.mp hdelivery with
      ⟨hold, -⟩ | ⟨details, hdetail, rfl⟩
    · exact h.derived delivery hold
    · refine (h.derived _ hdetail).trans ?_
      rw [hdetails hdetail]
      change [row].flatMap _ = [f row].flatMap _
      rw [List.flatMap_singleton, List.flatMap_singleton]
      exact (hsame.rowReceipts_eq s.tables id).symm

end Decide

end DrFed.Receipts
