import DrFed.Receipts.Derived
import Mathlib.Data.List.Pairwise

/-!
# Receipts are justified

In whatever order activities are stored, deliveries recorded, received and
linked, their fetched objects reported, and objects, activities and deliveries
removed, each receipt stands for what its delivery carried.
-/

namespace DrFed.Receipts

open Store Inbox Delivery

/-! ## Stores -/

section Snapshots

variable {t t' : Inbox.Tables} {id : Uuid} {revision : ResourceRevision}

theorem firstSnapshot?_of_mem (h : firstSnapshot? t id = some revision) :
    revision ∈ t.revisions ∧ revision.resourceId = id ∧
      revision.sequence = 1 ∧ revision.kind = .snapshot := by
  have hfound := List.find?_some h
  simp only [Bool.and_eq_true, beq_iff_eq] at hfound
  exact ⟨List.mem_of_find?_eq_some h, hfound.1.1, hfound.1.2, hfound.2⟩

theorem firstSnapshot?_eq_some (h : Store.Sound t.toTables) :
    firstSnapshot? t id = some revision ↔ revision ∈ t.revisions ∧
      revision.resourceId = id ∧ revision.sequence = 1 ∧
        revision.kind = .snapshot := by
  refine ⟨firstSnapshot?_of_mem, ?_⟩
  rintro ⟨hmem, hid, hfirst, hkind⟩
  cases hfound : firstSnapshot? t id with
  | none =>
      have hnone := List.find?_eq_none.mp hfound revision hmem
      simp [hid, hfirst, hkind] at hnone
  | some other =>
      obtain ⟨hother, hid', hfirst', -⟩ := firstSnapshot?_of_mem hfound
      rw [eq_of_first h hmem hother (hid.trans hid'.symm) hfirst hfirst']

theorem firstSnapshot?_grows (h : Store.Sound t'.toTables)
    (hbase : Store.Sound t.toTables) (hgrows : Grows t.toTables t'.toTables)
    (hfirst : HasFirst t id) : firstSnapshot? t' id = firstSnapshot? t id := by
  obtain ⟨first, hmem, hid, hsequence⟩ := hfirst
  ext revision
  rw [firstSnapshot?_eq_some h, firstSnapshot?_eq_some hbase]
  constructor
  · rintro ⟨hrevision, hid', hsequence', hkind⟩
    have hsame := eq_of_first h hrevision (hgrows.mem hmem)
      (hid'.trans hid.symm) hsequence' hsequence
    exact ⟨hsame ▸ hmem, hid', hsequence', hkind⟩
  · rintro ⟨hrevision, hrest⟩
    exact ⟨hgrows.mem hrevision, hrest⟩

end Snapshots

section Stores

variable {call : StoreCall} {p : Point} {id : Uuid}

theorem Stores.activity? (hstores : Stores call p)
    {activity : StoredActivity} (hactivity : p.base.activity? id = some activity) :
    (seen p).activity? id = some activity := by
  obtain ⟨actorId, objectId, activityId, published, objects, objectRows,
    activityRows, kinds, hstored⟩ := hstores.outcome
  rw [Store.Tables.activity?, (hstored.rows hstores.covered).1,
    List.find?_append]
  exact (congrArg (Option.or · _) hactivity).trans Option.some_or

/-- No object is stored later with an activity that is there. -/
theorem Stores.storedWith? (hstores : Stores call p) (h : Recorded p.base)
    {activity : StoredActivity} (hactivity : activity ∈ p.base.activities) :
    storedWith? (seen p) activity.id = storedWith? p.base activity.id := by
  obtain ⟨actorId, objectId, activityId, published, objects, objectRows,
    activityRows, kinds, hstored⟩ := hstores.outcome
  have hne : activity.id ≠ activityId :=
    h.not_activity (fun kind => hstored.unpromoted.eq_unknown) activity
      hactivity
  rw [Receipts.storedWith?, (hstored.rows hstores.covered).2.1,
    List.find?_append, Receipts.storedWith?]
  have hnone : objects.find?
      (fun object => object.activityId == some activity.id) = none := by
    refine List.find?_eq_none.mpr fun object hobject => ?_
    cases hstored.objectStored with
    | reused => cases hobject
    | created =>
        rw [List.mem_singleton.mp hobject]
        simpa [objectRow] using Ne.symm hne
  rw [hnone, Option.or_none]

theorem storedWith?_eq_some {t : Inbox.Tables}
    {object : ActivityPubObject} (h : storedWith? t id = some object) :
    object ∈ t.objects ∧ object.activityId = some id :=
  ⟨List.mem_of_find?_eq_some h, by simpa using List.find?_some h⟩

theorem Stores.rowReceipts (hstores : Stores call p) (h : Recorded p.base)
    (hafter : Store.Sound (seen p).toTables) {row : ActivityDelivery}
    (hlinked : ∀ activityId, row.activityId = some activityId →
      (p.base.activity? activityId).isSome = true) (deliveryId : Uuid) :
    rowReceipts (seen p) deliveryId row =
      rowReceipts p.base deliveryId row := by
  rw [Receipts.rowReceipts, Receipts.rowReceipts]
  cases hid : row.activityId with
  | none => rfl
  | some activityId =>
      obtain ⟨activity, hactivity⟩ :=
        Option.isSome_iff_exists.mp (hlinked activityId hid)
      have hmem := List.mem_of_find?_eq_some hactivity
      rw [Option.bind_some, Option.bind_some,
        hstores.activity? hactivity, hactivity, Option.toList_some,
        List.flatMap_singleton, List.flatMap_singleton,
        hstores.storedWith? h hmem]
      apply carriedReceipts_congr
      · exact firstSnapshot?_grows hafter h.sound hstores.grows
          (h.activities activity hmem)
      · intro object hobject
        exact firstSnapshot?_grows hafter h.sound hstores.grows
          (h.objects object (storedWith?_eq_some hobject).1)

end Stores

section Operations

variable {env : Environment} {s : State} {id : Uuid}

theorem Derived.persistCreate (h : Derived s) (call : CreateCall) :
    Derived { s with tables := persistCreate env s.tables call } := by
  have hrecorded : Recorded (Receipts.persistCreate env s.tables call) :=
    h.recorded.persistCreate call
  rcases persistCreate_cases env h.recorded call with
    hsame | ⟨stored, p, hbase, hseen, hstores, -⟩
  · rw [hsame]
    exact h
  · rw [← hseen] at hrecorded ⊢
    have hbaseRecorded : Recorded p.base := hbase ▸ h.recorded
    refine ⟨hrecorded, h.ids, ?_, h.owned, ?_⟩
    · intro delivery hdelivery row hrow activityId hid
      have hlinked := h.linked delivery hdelivery row hrow activityId hid
      obtain ⟨activity, hactivity⟩ :=
        Option.isSome_iff_exists.mp hlinked.activity
      refine ⟨?_, hlinked.verified, hlinked.accepted⟩
      rw [hstores.activity? (hbase ▸ hactivity)]
      rfl
    · intro delivery hdelivery
      refine (h.derived delivery hdelivery).trans ?_
      rw [receiptsFor, receiptsFor]
      cases hdetails : delivery.details with
      | outbound activityId => rfl
      | inbound row =>
          change [row].flatMap _ = [row].flatMap _
          rw [List.flatMap_singleton, List.flatMap_singleton, ← hbase]
          refine (hstores.rowReceipts hbaseRecorded hrecorded.sound
            (fun activityId hid => ?_) delivery.id).symm
          rw [hbase]
          exact (h.linked delivery hdelivery row hdetails activityId
            hid).activity

theorem Derived.recordInbound (h : Derived s) (entry : InboundDeliveryEntry)
    {after : State} (hafter : recordInbound s entry = some after) :
    Derived after := by
  unfold Receipts.recordInbound at hafter
  split at hafter
  next => cases hafter
  next hfree =>
    cases hafter
    have hfree : ∀ delivery ∈ s.deliveries, delivery.id ≠ entry.id := by
      simpa using hfree
    refine ⟨h.recorded, ?_, ?_, ?_, ?_⟩
    · rw [List.map_append]
      refine List.nodup_append'.mpr ⟨h.ids, by simp, ?_⟩
      intro other hother hnew
      obtain ⟨delivery, hdelivery, rfl⟩ := List.mem_map.mp hother
      exact hfree delivery hdelivery (List.mem_singleton.mp hnew)
    · intro delivery hdelivery row hrow activityId hid
      rcases List.mem_append.mp hdelivery with hold | hnew
      · exact h.linked delivery hold row hrow activityId hid
      · rw [List.mem_singleton.mp hnew] at hrow
        cases hrow
        cases hid
    · intro receipt hreceipt
      obtain ⟨delivery, hdelivery, hid⟩ := h.owned receipt hreceipt
      exact ⟨delivery, List.mem_append_left _ hdelivery, hid⟩
    · intro delivery hdelivery
      rcases List.mem_append.mp hdelivery with hold | hnew
      · exact h.derived delivery hold
      · rw [List.mem_singleton.mp hnew]
        refine List.filter_eq_nil_iff.mpr fun receipt hreceipt => ?_
        obtain ⟨other, hother, hid⟩ := h.owned receipt hreceipt
        rw [← hid]
        simpa using hfree other hother

theorem Derived.receiveInbound (h : Derived s) (id : Uuid) :
    Derived (receiveInbound s id).2 := by
  unfold Receipts.receiveInbound
  split
  next => exact h
  next row hrow =>
    split
    next hstatus =>
      refine h.update hrow ⟨rfl, rfl, rfl⟩ fun activityId hid => ?_
      have hlinked := h.linked _ ((inbound?_eq_some h.ids).mp hrow) row rfl
        activityId hid
      exact ⟨hlinked.activity, hlinked.verified, .inl rfl⟩
    next => exact h

theorem namedActivity?_eq_some {t : Inbox.Tables} {row : ActivityDelivery}
    {activity : StoredActivity} (h : namedActivity? t row = some activity) :
    t.activity? activity.id = some activity := by
  obtain ⟨resource, -, hactivity⟩ := Option.bind_eq_some_iff.mp h
  split_ifs at hactivity
  have hid : activity.id = resource.id := by
    simpa using List.find?_some hactivity
  rw [hid]
  exact hactivity

theorem Linked.of_linkable {t : Inbox.Tables} {row : ActivityDelivery}
    {activity : StoredActivity} (h : linkable row = true)
    (hactivity : t.activity? activity.id = some activity) :
    Linked t { row with activityId := some activity.id } activity.id := by
  simp only [linkable, Bool.and_eq_true, Bool.or_eq_true, beq_iff_eq] at h
  exact ⟨Option.isSome_of_eq_some hactivity, h.1.2, h.1.1⟩

theorem Derived.linkInboundActivity (h : Derived s) (id : Uuid) :
    Derived (linkInboundActivity s id).2 := by
  unfold Receipts.linkInboundActivity
  split
  next => exact h
  next row hrow =>
    split
    next => exact h
    next activity hactivity =>
      split
      next hlinkable =>
        dsimp only
        rw [decideCarried_removeReceipts
          (inbound?_updateInbound.trans (congrArg (Option.map _) hrow))]
        refine h.redecide hrow fun activityId hid => ?_
        obtain rfl := Option.some.inj hid
        exact .of_linkable hlinkable (namedActivity?_eq_some hactivity)
      next => exact h

theorem Derived.recordFetchedObject (h : Derived s) (id : Uuid)
    (document : Option Json) : Derived (recordFetchedObject s id document).2 := by
  unfold Receipts.recordFetchedObject
  split
  next => exact h
  next row hrow =>
    refine h.redecide hrow fun activityId hid => ?_
    have hlinked := h.linked _ ((inbound?_eq_some h.ids).mp hrow) row rfl
      activityId hid
    exact ⟨hlinked.activity, hlinked.verified, hlinked.accepted⟩

/-! ## Removal -/

theorem Derived.deleteDelivery (h : Derived s) (id : Uuid) :
    Derived (deleteDelivery s id) := by
  have hmem : ∀ {delivery}, delivery ∈ (Receipts.deleteDelivery s id).deliveries →
      delivery ∈ s.deliveries ∧ delivery.id ≠ id := by
    intro delivery hdelivery
    obtain ⟨hold, hid⟩ := List.mem_filter.mp hdelivery
    exact ⟨hold, by simpa using hid⟩
  refine ⟨h.recorded, h.ids.sublist (List.filter_sublist.map _),
    fun delivery hdelivery => h.linked delivery (hmem hdelivery).1, ?_, ?_⟩
  · intro receipt hreceipt
    obtain ⟨hold, hne⟩ := List.mem_filter.mp hreceipt
    obtain ⟨delivery, hdelivery, hid⟩ := h.owned receipt hold
    refine ⟨delivery, List.mem_filter.mpr ⟨hdelivery, ?_⟩, hid⟩
    rw [hid]
    exact hne
  · intro delivery hdelivery
    obtain ⟨hold, hne⟩ := hmem hdelivery
    exact (filter_other hne).trans (h.derived delivery hold)

theorem find?_filter_ne {α : Type} {rows : List α} {key : α → Uuid}
    {other : Uuid} (hne : other ≠ id) :
    (rows.filter fun row => key row ≠ id).find? (fun row => key row == other) =
      rows.find? fun row => key row == other := by
  rw [List.find?_filter]
  congr 1
  funext row
  by_cases h : key row = other
  · simp [h, hne]
  · simp [h]

theorem unlink_eq_inbound {details : Details} {row : ActivityDelivery}
    (h : details.unlink id = .inbound row) :
    ∃ before, details = .inbound before ∧
      row = { before with
        activityId := before.activityId.filter fun other => other ≠ id } := by
  cases details with
  | inbound before =>
      cases h
      exact ⟨before, rfl, rfl⟩
  | outbound linked => cases h

/-- The receipts of a row once an activity is removed. -/
theorem rowReceipts_unlink (t : Inbox.Tables) (deliveryId : Uuid)
    (row : ActivityDelivery) :
    rowReceipts { t with
        activities := t.activities.filter fun activity => activity.id ≠ id }
      deliveryId { row with
        activityId := row.activityId.filter fun other => other ≠ id } =
      if row.activityId = some id then [] else rowReceipts t deliveryId row := by
  by_cases hlinked : row.activityId = some id
  · have hnone : ((some id).filter fun other : Uuid => other ≠ id) = none := by
      simp
    rw [if_pos hlinked, rowReceipts, hlinked, hnone]
    rfl
  · have hkeep : (row.activityId.filter fun other => other ≠ id) =
        row.activityId := by
      cases hid : row.activityId with
      | none => rfl
      | some other =>
          have hne : other ≠ id := fun h => hlinked (h ▸ hid)
          simp [hne]
    rw [if_neg hlinked, rowReceipts, rowReceipts, hkeep]
    cases hid : row.activityId with
    | none => rfl
    | some activityId =>
        have hne : activityId ≠ id := fun h => hlinked (h ▸ hid)
        have hactivity : Store.Tables.activity?
            { t.toTables with
              activities := t.activities.filter fun activity =>
                activity.id ≠ id } activityId = t.activity? activityId :=
          find?_filter_ne hne
        rw [Option.bind_some, Option.bind_some, hactivity]
        cases t.activity? activityId with
        | none => rfl
        | some activity => rfl

theorem Derived.deleteActivity (h : Derived s) (id : Uuid) :
    Derived (deleteActivity s id) := by
  have hmem : ∀ {delivery}, delivery ∈ (Receipts.deleteActivity s id).deliveries →
      ∃ before ∈ s.deliveries,
        delivery = ⟨before.id, before.details.unlink id⟩ := by
    intro delivery hdelivery
    obtain ⟨before, hbefore, rfl⟩ := List.mem_map.mp hdelivery
    exact ⟨before, hbefore, rfl⟩
  refine ⟨h.recorded.deleteActivity id, ?_, ?_, ?_, ?_⟩
  · rw [Receipts.deleteActivity, List.map_map]
    exact h.ids
  · intro delivery hdelivery row hrow activityId hid
    obtain ⟨before, hbefore, rfl⟩ := hmem hdelivery
    obtain ⟨old, hold, rfl⟩ := unlink_eq_inbound hrow
    obtain ⟨hid, hne⟩ := Option.filter_eq_some_iff.mp hid
    rw [decide_eq_true_eq] at hne
    have hlinked := h.linked before hbefore old hold activityId hid
    refine ⟨?_, hlinked.verified, hlinked.accepted⟩
    have hactivity : Store.Tables.activity?
        (Receipts.deleteActivity s id).tables.toTables activityId =
          s.tables.activity? activityId := find?_filter_ne hne
    rw [hactivity]
    exact hlinked.activity
  · intro receipt hreceipt
    obtain ⟨delivery, hdelivery, hid⟩ :=
      h.owned receipt (List.mem_of_mem_filter hreceipt)
    exact ⟨_, List.mem_map.mpr ⟨delivery, hdelivery, rfl⟩, hid⟩
  · intro delivery hdelivery
    obtain ⟨before, hbefore, rfl⟩ := hmem hdelivery
    have hreceipts : receiptsOf (Receipts.deleteActivity s id) before.id =
        if before.details.activityId = some id then []
        else receiptsOf s before.id := by
      rw [receiptsOf, Receipts.deleteActivity, List.filter_filter]
      split_ifs with hlinked
      · refine List.filter_eq_nil_iff.mpr fun receipt _ => ?_
        have hin : before.id ∈ linkedTo s id := List.mem_map.mpr
          ⟨before, List.mem_filter.mpr ⟨hbefore, by simpa using hlinked⟩, rfl⟩
        by_cases hid : receipt.deliveryId = before.id
        · simp [hid, hin]
        · simp [hid]
      · refine List.filter_congr fun receipt _ => ?_
        have hout : before.id ∉ linkedTo s id := by
          intro hin
          obtain ⟨other, hother, hid⟩ := List.mem_map.mp hin
          obtain ⟨hother, hlinked'⟩ := List.mem_filter.mp hother
          have hsame := List.inj_on_of_nodup_map h.ids hother hbefore hid
          exact hlinked (hsame ▸ by simpa using hlinked')
        by_cases hid : receipt.deliveryId = before.id
        · simp [hid, hout]
        · simp [hid]
    refine hreceipts.trans ?_
    have hderived := h.derived before hbefore
    cases hdetails : before.details with
    | outbound linked =>
        rw [receiptsFor, hdetails] at hderived
        rw [hderived]
        exact ite_self _
    | inbound row =>
        rw [receiptsFor, hdetails] at hderived
        rw [hderived]
        change (if row.activityId = some id then [] else [row].flatMap _) =
          [_].flatMap _
        rw [List.flatMap_singleton, List.flatMap_singleton]
        exact (rowReceipts_unlink s.tables before.id row).symm

/-- An object is stored with one activity at most. -/
theorem Recorded.eq_of_activityId {t : Inbox.Tables} (h : Recorded t)
    {object other : ActivityPubObject} (hobject : object ∈ t.objects)
    (hother : other ∈ t.objects) (hid : object.activityId = some id)
    (hid' : other.activityId = some id) : object = other := by
  by_contra hne
  have hpairwise := List.pairwise_filterMap.mp h.creators
  have hsymm : Std.Symm fun first second : ActivityPubObject =>
      ∀ b, first.activityId = some b → ∀ b', second.activityId = some b' →
        b ≠ b' := ⟨fun _ _ hab b hb b' hb' => (hab b' hb' b hb).symm⟩
  exact hpairwise.forall hobject hother hne id hid id hid' rfl

theorem storedWith?_deleteObject {t : Inbox.Tables} (h : Recorded t)
    (activityId : Uuid) :
    storedWith? { t with
        objects := t.objects.filter fun object => object.id ≠ id } activityId =
      (storedWith? t activityId).filter fun object => object.id ≠ id := by
  cases hafter : storedWith? { t with
      objects := t.objects.filter fun object => object.id ≠ id } activityId with
  | none =>
      symm
      rw [Option.filter_eq_none_iff]
      intro object hobject hne
      obtain ⟨hmem, hid⟩ := storedWith?_eq_some hobject
      have hnone := List.find?_eq_none.mp hafter object
        (List.mem_filter.mpr ⟨hmem, hne⟩)
      simp [hid] at hnone
  | some object =>
      obtain ⟨hmem, hid⟩ := storedWith?_eq_some hafter
      obtain ⟨hmem, hne⟩ := List.mem_filter.mp hmem
      cases hbefore : storedWith? t activityId with
      | none =>
          have hnone := List.find?_eq_none.mp hbefore object hmem
          simp [hid] at hnone
      | some other =>
          obtain ⟨hother, hid'⟩ := storedWith?_eq_some hbefore
          obtain rfl := h.eq_of_activityId hmem hother hid hid'
          rw [Option.filter_some, if_pos hne]

/-- The trigger removes the receipts of the object. -/
theorem rowReceipts_deleteObject {t : Inbox.Tables} (h : Recorded t)
    (deliveryId : Uuid) (row : ActivityDelivery) :
    rowReceipts { t with
        objects := t.objects.filter fun object => object.id ≠ id }
      deliveryId row =
      (rowReceipts t deliveryId row).filter fun receipt =>
        !(receipt.role == .object && isRevisionOf t receipt.revisionId id) := by
  rw [rowReceipts, rowReceipts, List.filter_flatMap]
  change List.flatMap _ (row.activityId.bind t.activity?).toList = _
  congr 1
  funext activity
  rw [storedWith?_deleteObject h, carriedReceipts_eq, carriedReceipts_eq,
    List.filter_flatMap]
  change List.flatMap _ (activityRevision? t row activity).toList = _
  congr 1
  funext revision
  -- The revisions stay.
  have hsame : objectRevision? { t with
      objects := t.objects.filter fun object => object.id ≠ id } =
        objectRevision? t := rfl
  rw [List.filter_cons_of_pos (by simp), hsame]
  congr 1
  cases storedWith? t activity.id with
  | none => rfl
  | some object =>
      rw [Option.bind_some, List.filter_map, Option.filter_some]
      have hrevision : ∀ stored, objectRevision? t row activity object =
          some stored → isRevisionOf t stored.id id = decide (object.id = id) := by
        intro stored hstored
        obtain ⟨hmem, hid, -⟩ :=
          firstSnapshot?_of_mem (Option.eq_some_of_filter_eq_some hstored)
        rw [Bool.eq_iff_iff, isRevisionOf, List.any_eq_true, ← hid,
          decide_eq_true_eq]
        constructor
        · rintro ⟨other, hother, hsame⟩
          rw [Bool.and_eq_true, beq_iff_eq, beq_iff_eq] at hsame
          rw [← h.sound.eq_of_id hother hmem hsame.1]
          exact hsame.2
        · rintro rfl
          exact ⟨stored, hmem, by simp⟩
      cases hstored : objectRevision? t row activity object with
      | none => by_cases hid : object.id = id <;> simp [hid, hstored]
      | some stored =>
          have hof := hrevision stored hstored
          by_cases hid : object.id = id
          · simp [hid, hof, Function.comp_def]
          · simp [hid, hof, hstored, Function.comp_def]

theorem Derived.deleteObject (h : Derived s) (id : Uuid) :
    Derived (deleteObject s id) := by
  rw [Receipts.deleteObject]
  split_ifs
  · exact h
  · refine ⟨h.recorded.deleteObject id, h.ids, ?_, ?_, ?_⟩
    · intro delivery hdelivery row hrow activityId hid
      have hlinked := h.linked delivery hdelivery row hrow activityId hid
      exact ⟨hlinked.activity, hlinked.verified, hlinked.accepted⟩
    · intro receipt hreceipt
      exact h.owned receipt (List.mem_of_mem_filter hreceipt)
    · intro delivery hdelivery
      have hderived := h.derived delivery hdelivery
      have hfilter := congrArg (List.filter fun receipt =>
        !(receipt.role == .object &&
          isRevisionOf s.tables receipt.revisionId id)) hderived
      rw [receiptsOf, List.filter_filter] at hfilter
      rw [receiptsOf, List.filter_filter]
      simp only [Bool.and_comm] at hfilter ⊢
      refine hfilter.trans ?_
      rw [receiptsFor, receiptsFor]
      cases delivery.details with
      | outbound linked => rfl
      | inbound row =>
          change ([row].flatMap _).filter _ = [row].flatMap _
          rw [List.flatMap_singleton, List.flatMap_singleton]
          exact (rowReceipts_deleteObject h.recorded delivery.id row).symm

theorem Derived.step (h : Derived s) (operation : Operation) :
    Derived (s.step env operation) := by
  cases operation with
  | persistCreate call => exact h.persistCreate call
  | recordInbound entry =>
      rw [State.step]
      cases hafter : Receipts.recordInbound s entry with
      | none => exact h
      | some after => exact h.recordInbound entry hafter
  | receiveInbound id => exact h.receiveInbound id
  | linkInboundActivity id => exact h.linkInboundActivity id
  | recordFetchedObject id document => exact h.recordFetchedObject id document
  | deleteObject id => exact h.deleteObject id
  | deleteActivity id => exact h.deleteActivity id
  | deleteDelivery id => exact h.deleteDelivery id

theorem Derived.steps (h : Derived s) (operations : List Operation) :
    Derived (s.steps env operations) := by
  induction operations generalizing s with
  | nil => exact h
  | cons operation rest ih => exact ih (h.step operation)

/-- Before the first delivery is recorded. -/
structure Initial (s : State) : Prop where
  recorded : Recorded s.tables
  deliveries : s.deliveries = []
  receipts : s.receipts = []

theorem Initial.derived (h : Initial s) : Derived s := by
  refine ⟨h.recorded, ?_, ?_, ?_, ?_⟩
  · rw [h.deliveries]
    exact .nil
  · simp [h.deliveries]
  · simp [h.receipts]
  · simp [h.deliveries]

end Operations

/-! ## What a receipt stands for -/

/-- A receipt for a revision, of a row that is linked to an activity. -/
structure Evidence (t : Inbox.Tables) (receipt : RevisionReceipt)
    (row : ActivityDelivery) (activity : StoredActivity)
    (revision : ResourceRevision) : Prop where
  verified : row.verificationResult = .verified
  accepted : row.status = .received ∨ row.status = .acknowledged
  linked : row.activityId = some activity.id
  carried : ∃ payload document, row.payload = some payload ∧
    activity.document = some document ∧
      isDeepStrictEqual payload document = true
  id : revision.id = receipt.revisionId
  first : revision.sequence = 1
  snapshot : revision.kind = .snapshot
  current : receipt.role = .activity ∧ revision.resourceId = activity.id ∧
      sameDocument revision.document activity.document = true ∨
    receipt.role = .object ∧ ∃ object ∈ t.objects,
      object.activityId = some activity.id ∧ revision.resourceId = object.id ∧
        sameDocument revision.document object.document = true ∧
          (EmbeddedIn object.document activity.document ∨
            ∃ fetched document, row.fetchedObject = some fetched ∧
              object.document = some document ∧
                isDeepStrictEqual fetched document = true)

/-- A receipt belongs to an inbound delivery and names a revision. -/
def Justified (s : State) (receipt : RevisionReceipt) : Prop :=
  ∃ row, ⟨receipt.deliveryId, .inbound row⟩ ∈ s.deliveries ∧
    ∃ activity ∈ s.tables.activities, ∃ revision ∈ s.tables.revisions,
      Evidence s.tables receipt row activity revision

theorem carries_eq_true {column document : Option Json}
    (h : carries column document = true) :
    ∃ value stored, column = some value ∧ document = some stored ∧
      isDeepStrictEqual value stored = true := by
  cases column with
  | none => cases h
  | some value =>
      cases document with
      | none => cases h
      | some stored =>
          rw [carries, Bool.and_eq_true] at h
          exact ⟨value, stored, rfl, rfl, h.2⟩

section Justification

variable {t : Inbox.Tables} {receipt : RevisionReceipt} {deliveryId : Uuid}
  {row : ActivityDelivery} {activity : StoredActivity}

/-- What was carried of an object is in its activity, or was fetched. -/
theorem Recorded.carriedObject (h : Recorded t) {object : ActivityPubObject}
    {revision : ResourceRevision} (hactivity : activity ∈ t.activities)
    (hobject : storedWith? t activity.id = some object)
    (hrevision : firstSnapshot? t object.id = some revision)
    (hcarried : carriedObjectSnapshot row activity object = true) :
    EmbeddedIn object.document activity.document ∨
      ∃ fetched document, row.fetchedObject = some fetched ∧
        object.document = some document ∧
          isDeepStrictEqual fetched document = true := by
  obtain ⟨hmem, hid⟩ := storedWith?_eq_some hobject
  rw [carriedObjectSnapshot, Bool.and_eq_true, Bool.or_eq_true] at hcarried
  rcases hcarried.2 with hunfetched | hfetched
  · obtain ⟨hfirst, hresource, hsequence, hkind⟩ :=
      firstSnapshot?_of_mem hrevision
    exact .inl (h.embedded object hmem (by simpa using hunfetched)
      (h.documents object hmem revision hfirst hresource hsequence hkind)
      activity hactivity hid)
  · exact .inr (carries_eq_true hfetched)

theorem Recorded.evidence (h : Recorded t)
    (hlinked : ∀ id, row.activityId = some id → Linked t row id)
    (hreceipt : receipt ∈ rowReceipts t deliveryId row) :
    ∃ activity ∈ t.activities, ∃ revision ∈ t.revisions,
      Evidence t receipt row activity revision := by
  obtain ⟨activity, hactivity, hreceipt⟩ := List.mem_flatMap.mp hreceipt
  obtain ⟨id, hid, hactivity⟩ :=
    Option.bind_eq_some_iff.mp (Option.mem_toList.mp hactivity)
  have hmem := List.mem_of_find?_eq_some hactivity
  have hsame : activity.id = id := by simpa using List.find?_some hactivity
  have hlink := hlinked id hid
  rw [carriedReceipts_eq] at hreceipt
  obtain ⟨revision, hrevision, hreceipt⟩ := List.mem_flatMap.mp hreceipt
  obtain ⟨hrevision, hcarried⟩ :=
    Option.filter_eq_some_iff.mp (Option.mem_toList.mp hrevision)
  rw [Bool.and_eq_true] at hcarried
  have hpayload := carries_eq_true hcarried.1
  refine ⟨activity, hmem, ?_⟩
  rcases List.mem_cons.mp hreceipt with rfl | hreceipt
  · obtain ⟨hfirst, hresource, hsequence, hkind⟩ :=
      firstSnapshot?_of_mem hrevision
    exact ⟨revision, hfirst, hlink.verified, hlink.accepted, hsame ▸ hid,
      hpayload, rfl, hsequence, hkind, .inl ⟨rfl, hresource, hcarried.2⟩⟩
  · obtain ⟨stored, hstored, rfl⟩ := List.mem_map.mp hreceipt
    obtain ⟨object, hobject, hstored⟩ :=
      Option.bind_eq_some_iff.mp (Option.mem_toList.mp hstored)
    obtain ⟨hstored, hcarried'⟩ := Option.filter_eq_some_iff.mp hstored
    rw [Bool.and_eq_true] at hcarried'
    obtain ⟨hfirst, hresource, hsequence, hkind⟩ :=
      firstSnapshot?_of_mem hstored
    obtain ⟨hin, hof⟩ := storedWith?_eq_some hobject
    exact ⟨stored, hfirst, hlink.verified, hlink.accepted, hsame ▸ hid,
      hpayload, rfl, hsequence, hkind, .inr ⟨rfl, object, hin, hof, hresource,
        hcarried'.2, h.carriedObject hmem hobject hstored hcarried'.1⟩⟩

end Justification

section Runs

variable {env : Environment} {s s' : State} {id : Uuid}

theorem Derived.justified (h : Derived s) {receipt : RevisionReceipt}
    (hreceipt : receipt ∈ s.receipts) : Justified s receipt := by
  obtain ⟨delivery, hdelivery, hid⟩ := h.owned receipt hreceipt
  have hmem : receipt ∈ receiptsOf s delivery.id :=
    List.mem_filter.mpr ⟨hreceipt, decide_eq_true hid.symm⟩
  rw [h.derived delivery hdelivery] at hmem
  obtain ⟨row, hrow, hmem⟩ := List.mem_flatMap.mp hmem
  obtain ⟨id, details⟩ := delivery
  cases details with
  | outbound linked => cases hrow
  | inbound other =>
      obtain rfl := List.mem_singleton.mp hrow
      exact ⟨row, hid ▸ hdelivery,
        h.recorded.evidence (h.linked _ hdelivery row rfl) hmem⟩

/-- A delivery without its marks. -/
def DeliveryRow.unmarked (delivery : DeliveryRow) : DeliveryRow :=
  { delivery with
    details := delivery.details.updateInbound fun row =>
      { row with carriedSnapshot := false, carriedObjectSnapshot := false } }

theorem receiptsFor_unmarked (t : Inbox.Tables) (delivery : DeliveryRow) :
    receiptsFor t delivery.unmarked = receiptsFor t delivery := by
  obtain ⟨id, details⟩ := delivery
  cases details with
  | outbound linked => rfl
  | inbound row =>
      change [_].flatMap _ = [row].flatMap _
      rw [List.flatMap_singleton, List.flatMap_singleton]
      exact SameEvidence.rowReceipts_eq ⟨rfl, rfl, rfl⟩ t id

theorem Derived.receipts_perm (h : Derived s) :
    s.receipts.Perm ((s.deliveries.map DeliveryRow.unmarked).flatMap
      (receiptsFor s.tables)) := by
  have howned : ∀ receipt ∈ s.receipts,
      receipt.deliveryId ∈ s.deliveries.map DeliveryRow.id := by
    intro receipt hreceipt
    obtain ⟨delivery, hdelivery, hid⟩ := h.owned receipt hreceipt
    exact List.mem_map.mpr ⟨delivery, hdelivery, hid⟩
  refine (Keyed.perm_flatMap_filter h.ids howned).trans (.of_eq ?_)
  rw [List.flatMap_map, List.flatMap_map]
  refine List.flatMap_congr fun delivery hdelivery => ?_
  exact (h.derived delivery hdelivery).trans
    (receiptsFor_unmarked s.tables delivery).symm

/-- The tables and the deliveries, whatever is marked of them, determine the
receipts. -/
theorem Derived.perm (h : Derived s) (h' : Derived s')
    (htables : s'.tables = s.tables)
    (hdeliveries : (s'.deliveries.map DeliveryRow.unmarked).Perm
      (s.deliveries.map DeliveryRow.unmarked)) :
    s'.receipts.Perm s.receipts := by
  refine h'.receipts_perm.trans (.trans ?_ h.receipts_perm.symm)
  rw [htables]
  exact hdeliveries.flatMap_right _

theorem Derived.recompute (h : Derived s) (id : Uuid) :
    (decideCarried s id).receipts.Perm s.receipts := by
  cases hrow : s.inbound? id with
  | none =>
      rw [decideCarried, hrow]
  | some row =>
      obtain ⟨f, -, hdecided⟩ := decideCarried_eq hrow
      have hmem := (inbound?_eq_some h.ids).mp hrow
      have hsame : rowReceipts s.tables id row = receiptsOf s id := by
        rw [h.derived _ hmem]
        exact (List.flatMap_singleton ..).symm
      rw [hdecided, hsame]
      have hperm := List.filter_append_perm
        (fun receipt : RevisionReceipt => decide (receipt.deliveryId = id))
        s.receipts
      refine List.perm_append_comm.trans (.trans (.of_eq ?_) hperm)
      rw [receiptsOf, State.removeReceipts]
      simp only [decide_not]

/-! ## The order of the two reports -/

/-- A decision that follows another one replaces its marks and its receipts. -/
theorem decideCarried_again {row : ActivityDelivery}
    {activity : StoredActivity} {f l : ActivityDelivery → ActivityDelivery}
    (hrow : s.inbound? id = some row)
    (hactivity : ∀ g, Remarks g →
      (l (g (f row))).activityId.bind s.tables.activity? = some activity) :
    ∃ g, Remarks g ∧
      decideCarried
          ((decideCarried (s.updateInbound id f) id).updateInbound id l) id =
        { s.updateInbound id
            (mark activity (storedWith? s.tables activity.id) ∘ l ∘ g ∘ f) with
          receipts := (s.removeReceipts id).receipts ++
            rowReceipts s.tables id (l (g (f row))) } := by
  have hfirst : (s.updateInbound id f).inbound? id = some (f row) := by
    rw [inbound?_updateInbound, hrow, Option.map_some]
  obtain ⟨g, hg, hdecided⟩ := decideCarried_eq hfirst
  have hsecond : ((decideCarried (s.updateInbound id f) id).updateInbound id
      l).inbound? id = some (l (g (f row))) := by
    have hsame : (decideCarried (s.updateInbound id f) id).inbound? id =
        ((s.updateInbound id f).updateInbound id g).inbound? id := by
      rw [hdecided]
      rfl
    rw [inbound?_updateInbound, hsame, inbound?_updateInbound, hfirst]
    rfl
  have htables : ((decideCarried (s.updateInbound id f) id).updateInbound id
      l).tables = s.tables := by
    rw [hdecided]
    rfl
  refine ⟨g, hg, ?_⟩
  rw [decideCarried_linked hsecond (htables ▸ hactivity g hg), htables,
    hdecided]
  have hdeliveries : (((s.updateInbound id f).updateInbound id g).updateInbound
      id l).updateInbound id
        (mark activity (storedWith? s.tables activity.id)) =
      s.updateInbound id
        (mark activity (storedWith? s.tables activity.id) ∘ l ∘ g ∘ f) := by
    rw [updateInbound_updateInbound, updateInbound_updateInbound,
      updateInbound_updateInbound]
    rfl
  have hreceipts : ((s.removeReceipts id).receipts ++
      rowReceipts s.tables id (f row)).filter
        (fun receipt => receipt.deliveryId ≠ id) =
      (s.removeReceipts id).receipts := by
    rw [List.filter_append, State.removeReceipts, List.filter_filter]
    have hnone : (rowReceipts s.tables id (f row)).filter
        (fun receipt => receipt.deliveryId ≠ id) = [] := by
      refine List.filter_eq_nil_iff.mpr fun receipt hreceipt => ?_
      simp [deliveryId_of_mem_rowReceipts hreceipt]
    rw [hnone, List.append_nil]
    simp
  rw [← hdeliveries]
  exact congrArg (fun receipts => State.mk _ _ (receipts ++ _)) hreceipts

theorem linkInboundActivity_of_linkable {row : ActivityDelivery}
    {activity : StoredActivity} (hrow : s.inbound? id = some row)
    (hnamed : namedActivity? s.tables row = some activity)
    (hlinkable : linkable row = true) :
    (linkInboundActivity s id).2 =
      decideCarried (s.updateInbound id fun row =>
        { row with activityId := some activity.id }) id := by
  rw [linkInboundActivity, hrow]
  dsimp only
  rw [hnamed]
  dsimp only
  rw [if_pos hlinkable]
  exact decideCarried_removeReceipts
    (inbound?_updateInbound.trans (congrArg (Option.map _) hrow))

theorem linkInboundActivity_of_not {row : ActivityDelivery}
    (hrow : s.inbound? id = some row)
    (hnot : namedActivity? s.tables row = none ∨ linkable row = false) :
    (linkInboundActivity s id).2 = s := by
  rw [linkInboundActivity, hrow]
  dsimp only
  cases hnamed : namedActivity? s.tables row with
  | none => rfl
  | some activity =>
      rcases hnot with hnone | hlinkable
      · rw [hnamed] at hnone
        cases hnone
      · dsimp only
        rw [if_neg (by simp [hlinkable])]

theorem recordFetchedObject_of_inbound {row : ActivityDelivery}
    (hrow : s.inbound? id = some row) (document : Option Json) :
    (recordFetchedObject s id document).2 =
      decideCarried (s.updateInbound id fun row =>
        { row with fetchedObject := storedObject document }) id := by
  rw [recordFetchedObject, hrow]

theorem inbound?_decideCarried {row : ActivityDelivery}
    (hrow : s.inbound? id = some row) :
    ∃ g, Remarks g ∧ (decideCarried s id).inbound? id = some (g row) ∧
      (decideCarried s id).tables = s.tables := by
  obtain ⟨g, hg, hdecided⟩ := decideCarried_eq hrow
  have hsame : (decideCarried s id).inbound? id =
      (s.updateInbound id g).inbound? id := by
    rw [hdecided]
    rfl
  refine ⟨g, hg, ?_, ?_⟩
  · rw [hsame, inbound?_updateInbound, hrow, Option.map_some]
  · rw [hdecided]
    rfl

/-- The marks do not decide whether a delivery is linked, nor does what was
fetched. -/
theorem Remarks.link_same {g : ActivityDelivery → ActivityDelivery}
    (hg : Remarks g) (row : ActivityDelivery) (fetched : Option Json) :
    linkable (g { row with fetchedObject := fetched }) = linkable row ∧
      ∀ t, namedActivity? t (g { row with fetchedObject := fetched }) =
        namedActivity? t row := by
  rcases hg with rfl | ⟨activity, object, rfl⟩ <;> exact ⟨rfl, fun _ => rfl⟩

/-- The marks are those of the last decision. -/
theorem mark_comp {g g' : ActivityDelivery → ActivityDelivery}
    (hg : Remarks g) (hg' : Remarks g') (activity : StoredActivity)
    (object : Option ActivityPubObject)
    {f l : ActivityDelivery → ActivityDelivery} {activityId : Option Uuid}
    {fetched : Option Json}
    (hf : f = fun row => { row with fetchedObject := fetched })
    (hl : l = fun row => { row with activityId := activityId }) :
    mark activity object ∘ l ∘ g ∘ f = mark activity object ∘ f ∘ g' ∘ l := by
  subst hf hl
  funext row
  rcases hg with rfl | ⟨first, stored, rfl⟩ <;>
    rcases hg' with rfl | ⟨second, stored', rfl⟩ <;> rfl

/-- Linking a delivery and recording its fetched object commute. -/
theorem link_record_comm (s : State) (id : Uuid) (document : Option Json) :
    (linkInboundActivity (recordFetchedObject s id document).2 id).2 =
      (recordFetchedObject (linkInboundActivity s id).2 id document).2 := by
  cases hrow : s.inbound? id with
  | none =>
      have hlink : (linkInboundActivity s id).2 = s := by
        rw [linkInboundActivity, hrow]
      have hrecord : (recordFetchedObject s id document).2 = s := by
        rw [recordFetchedObject, hrow]
      rw [hlink, hrecord, hlink]
  | some row =>
      have hfetched : (s.updateInbound id fun row => { row with
          fetchedObject := storedObject document }).inbound? id =
          some { row with fetchedObject := storedObject document } := by
        rw [inbound?_updateInbound, hrow, Option.map_some]
      obtain ⟨g, hg, hinbound, htables⟩ := inbound?_decideCarried hfetched
      obtain ⟨hlinkable, hnamed⟩ := hg.link_same row (storedObject document)
      rw [recordFetchedObject_of_inbound hrow]
      by_cases hlinks : ∃ activity,
          namedActivity? s.tables row = some activity ∧ linkable row = true
      · obtain ⟨activity, hactivity, hlinks⟩ := hlinks
        have hfound : (some activity.id).bind s.tables.activity? =
            some activity := namedActivity?_eq_some hactivity
        have hlinked : (s.updateInbound id fun row => { row with
            activityId := some activity.id }).inbound? id =
            some { row with activityId := some activity.id } := by
          rw [inbound?_updateInbound, hrow, Option.map_some]
        obtain ⟨g', hg', hinbound', -⟩ := inbound?_decideCarried hlinked
        rw [linkInboundActivity_of_linkable hinbound
            ((hnamed _).trans (htables ▸ hactivity)) (hlinkable.trans hlinks),
          linkInboundActivity_of_linkable hrow hactivity hlinks,
          recordFetchedObject_of_inbound hinbound']
        obtain ⟨first, hfirst, heq⟩ := decideCarried_again hrow
          (f := fun row => { row with fetchedObject := storedObject document })
          (l := fun row => { row with activityId := some activity.id })
          fun _ _ => hfound
        obtain ⟨second, hsecond, heq'⟩ := decideCarried_again hrow
          (f := fun row => { row with activityId := some activity.id })
          (l := fun row => { row with fetchedObject := storedObject document })
          fun k hk => by
            rw [← (hk.sameEvidence _).activityId.symm]
            exact hfound
        have hsame := hfirst.sameEvidence
          { row with fetchedObject := storedObject document }
        have hsame' := hsecond.sameEvidence
          { row with activityId := some activity.id }
        have hevidence : SameEvidence
            { second { row with activityId := some activity.id } with
              fetchedObject := storedObject document }
            { first { row with fetchedObject := storedObject document } with
              activityId := some activity.id } :=
          ⟨hsame'.activityId.symm, hsame.payload.trans hsame'.payload.symm,
            hsame.fetchedObject⟩
        rw [heq, heq', mark_comp hfirst hsecond _ _ rfl rfl,
          hevidence.rowReceipts_eq]
      · have hnot : namedActivity? s.tables row = none ∨
            linkable row = false := by
          by_contra hboth
          push Not at hboth
          obtain ⟨activity, hactivity⟩ :=
            Option.ne_none_iff_exists'.mp hboth.1
          exact hlinks ⟨activity, hactivity, by simpa using hboth.2⟩
        rw [linkInboundActivity_of_not hrow hnot,
          recordFetchedObject_of_inbound hrow]
        refine linkInboundActivity_of_not hinbound ?_
        rw [htables]
        exact hnot.imp (hnamed _).trans hlinkable.trans

/-- What holds of the receipts of a state that operations on `start` reach. -/
structure ReceiptsJustified (env : Environment) (start s : State) : Prop where
  justified : ∀ receipt ∈ s.receipts, Justified s receipt
  recomputed : ∀ id, (decideCarried s id).receipts.Perm s.receipts
  order : ∀ id document later,
    s.steps env
        (.linkInboundActivity id :: .recordFetchedObject id document :: later) =
      s.steps env
        (.recordFetchedObject id document :: .linkInboundActivity id :: later)
  /-- Whatever led to the tables and to the deliveries. -/
  determined : ∀ operations,
    (start.steps env operations).tables = s.tables →
      ((start.steps env operations).deliveries.map
        DeliveryRow.unmarked).Perm (s.deliveries.map DeliveryRow.unmarked) →
          (start.steps env operations).receipts.Perm s.receipts

/-- Revision receipts are always justified: after any operations, a receipt
belongs to a verified inbound delivery that carried the activity it is linked
to, and names the first snapshot of that activity or of the object stored with
it. -/
theorem receipts_justified (env : Environment) {start : State}
    (hstart : Initial start) (operations : List Operation) :
    ReceiptsJustified env start (start.steps env operations) := by
  have hderived : Derived (start.steps env operations) :=
    hstart.derived.steps operations
  refine ⟨fun receipt => hderived.justified, hderived.recompute, ?_, ?_⟩
  · intro id document later
    exact congrArg (State.steps env · later)
      (link_record_comm _ id document).symm
  · intro others htables hdeliveries
    exact hderived.perm (hstart.derived.steps others) htables hdeliveries

end Runs

/-! ## A delivery of a `Create` -/

/-- The note, as it was fetched. -/
def noteDocument : Json := .obj [(js "content", .str (js "x"))]

def createDocument : Json := .obj [(js "object", .str (js "o"))]

/-- A `Create` of a note that is fetched from its IRI. -/
def noteCreate (id : Uuid) : CreateCall where
  activity :=
    { id := some (js "c")
      published := none
      addressing := []
      getObject := .ok (some
        { id := some (js "o")
          type := some .note
          attributionIds := [js "a"]
          content := some (js "x")
          name := none
          summary := none
          language := none
          sensitive := none
          published := none
          addressing := [] })
      fetched := some noteDocument
      getActor := .ok (some
        { id := some (js "a")
          type := some .person
          inboxId := some (js "i")
          followersId := none
          preferredUsername := none
          document := .null }) }
  actorIri := some (js "a")
  receipt := some ⟨createDocument, 0⟩
  ids := (noteCall 0 [] id).ids
  now := 0

def noteDelivery (id : Uuid) : InboundDeliveryEntry where
  id
  status := .received
  verificationResult := .verified
  activityIri := some (js "c")
  payload := some createDocument
  fetchedObject := none

/-- A delivery that is linked before its object is reported. -/
def noteOperations : List Operation :=
  [.persistCreate (noteCreate 1000), .recordInbound (noteDelivery 1),
    .linkInboundActivity 1, .recordFetchedObject 1 (some noteDocument)]

theorem receipts_justified_delivered :
    let start : State := ⟨noTables, [], []⟩
    ((start.steps oneHost noteOperations).receipts.map
        RevisionReceipt.role = [.activity, .object]) ∧
      ReceiptsJustified oneHost start (start.steps oneHost noteOperations) := by
  refine ⟨by decide +kernel, receipts_justified oneHost ⟨⟨?_, ?_, ?_, ?_, ?_,
    ?_, ?_, ?_⟩, rfl, rfl⟩ noteOperations⟩
  · exact ⟨by simp [noTables], by simp [noTables], by simp [noTables],
      by simp [noTables], by simp [noTables], by simp [noTables],
      by simp [noTables], by simp [noTables]⟩
  · exact Unversioned.sound ⟨rfl, rfl, rfl, rfl⟩
  · simp [noTables]
  · simp [noTables]
  · simp [noTables]
  · simp [noTables]
  · simp [noTables]
  · simp [noTables]

end DrFed.Receipts
