import DrFed.Collections.Outbox
import DrFed.Collections.Visited

/-!
# Traversing the outbox

Following the cursors of the outbox from its first page yields every served
activity once, from the latest on.
-/

namespace DrFed.Collections

open Store (Uuid StoredActivity Tables)

/-- The order of the outbox. -/
def activityKey (activity : StoredActivity) : ℤ ×ₗ ℕ :=
  toLex (activity.published, activity.id.toNat)

/-- Later publication comes first. -/
def comesLater (a b : StoredActivity) : Prop := activityKey b < activityKey a

instance : DecidableRel comesLater := fun a b =>
  inferInstanceAs (Decidable (activityKey b < activityKey a))

/-- The activities of an outbox: their ids are distinct UUIDs of RFC 9562, and
they are published in the years 1 to 9999. -/
structure OutboxRows (t : Tables) (actorId : Uuid) : Prop where
  ids : (t.activities.map StoredActivity.id).Nodup
  uuids : ∀ activity ∈ t.activities, activity.actorId = actorId → IsRfcUuid activity.id
  years : ∀ activity ∈ t.activities, activity.actorId = actorId →
    InYears activity.published

/-- The served activities of an actor from the latest on. -/
def servedActivities (t : Tables) (actorId : Uuid) : List StoredActivity :=
  (t.activities.filter (ownServed t actorId)).insertionSort
    fun a b => activityKey b ≤ activityKey a

section Order

variable {a b : StoredActivity}

theorem outboxOrder_iff : outboxOrder a b ↔ activityKey b ≤ activityKey a := by
  rw [outboxOrder, Direction.apply, Direction.apply, ← Std.OrientedCmp.eq_swap,
    ← Std.OrientedCmp.eq_swap]
  exact isLE_then_iff

/-- The boundary of a cursor selects the activities that come after its own. -/
theorem beforeBoundary_holds (hyears : InYears b.published) :
    (beforeBoundary a (activityBoundary b)).Holds ↔ comesLater b a := by
  have hinstant : (readCivil (toChar b.published)).instant = b.published := by
    rw [readCivil_toChar hyears, instant_civilOf hyears]
  rw [beforeBoundary, activityBoundary]
  simp only [hinstant, readUuid_uuidText, Option.map_some, Truth.holds_or, Truth.holds_and,
    Truth.compare_some, Truth.holds_some, decide_eq_true_eq, beq_iff_eq]
  rw [comesLater, activityKey, activityKey, Prod.Lex.toLex_lt_toLex]

end Order

section Cursors

variable {validateUuid : JsString → Bool} {activity : StoredActivity}

theorem pipe_notMem_toChar (t : ℤ) : pipe ∉ toChar t := by
  have hdigits : ∀ width n, pipe ∉ fixedText width n := by
    intro width n hmem
    exact absurd (isDigit_fixedText hmem) (by decide)
  rw [toChar]
  simp only [List.mem_append, List.mem_cons, hdigits, List.not_mem_nil, false_or, or_false]
  decide

theorem pipe_notMem_uuidText (id : BitVec 128) : pipe ∉ uuidText id := by
  intro hmem
  rcases mem_uuidText hmem with heq | ⟨d, hd, heq⟩
  · exact absurd heq (by decide)
  · have hne : ∀ d < 16, pipe ≠ hexUnit d := by decide
    exact hne d hd heq

theorem isCursorTimestamp_toChar {t : ℤ} (h : InYears t) :
    isCursorTimestamp (toChar t) = true := by
  have hyear : (js "0000-").isPrefixOf (toChar t) = false := by
    by_contra hzero
    rw [Bool.not_eq_false, List.isPrefixOf_iff_prefix] at hzero
    obtain ⟨rest, htext⟩ := hzero
    have htake : (toChar t).take 4 = fixedText 4 (civilOf t).date.year := by
      rw [toChar]
      exact List.take_left' (length_fixedText 4 _)
    rw [← htext] at htake
    have hread := readDecimal_fixedText 4 (civilOf t).date.year
    rw [← htake, Nat.mod_eq_of_lt (civilOf_lt h).1] at hread
    have hpos : 1 ≤ (civilOf t).date.year := (Calendar.dateOf_exists _).year
    have hnone : readDecimal (List.take 4 (js "0000-" ++ rest)) = 0 := rfl
    omega
  rw [isCursorTimestamp, hyear, matchesTimestamp_toChar, readCivil_toChar h]
  simpa using isInstant_civilOf t

/-- Parsing a cursor gives back its boundary. -/
theorem parseOutboxCursor_activityCursor (hvalidate : ValidatesUuids validateUuid)
    (hyears : InYears activity.published) (huuid : IsRfcUuid activity.id) :
    parseOutboxCursor validateUuid (some (activityCursor activity)) =
      some (some (activityBoundary activity)) := by
  have hsplit : (activityCursor activity).splitOn pipe =
      [toChar activity.published, uuidText activity.id] := by
    rw [activityCursor, List.splitOn_append_cons_self,
      List.splitOn_eq_singleton (pipe_notMem_toChar _),
      List.splitOn_eq_singleton (pipe_notMem_uuidText _)]
    rfl
  have hne : activityCursor activity ≠ [] :=
    List.append_ne_nil_of_right_ne_nil _ (List.cons_ne_nil _ _)
  rw [parseOutboxCursor, if_neg hne, hsplit]
  simp only [isCursorTimestamp_toChar hyears, hvalidate activity.id huuid, Bool.and_self,
    if_true]
  rfl

end Cursors

section Traversal

variable {validateUuid : JsString → Bool} {t : Tables} {actorId : Uuid}

theorem nodup_activityKeys (h : OutboxRows t actorId) : (t.activities.map activityKey).Nodup := by
  have hinjective : Function.Injective (BitVec.toNat (w := 128)) :=
    fun a b h => BitVec.eq_of_toNat_eq h
  have hsnd : (t.activities.map StoredActivity.id).map BitVec.toNat =
      (t.activities.map activityKey).map fun k => (ofLex k).2 := by
    rw [List.map_map, List.map_map]
    rfl
  have hids := h.ids.map hinjective
  rw [hsnd] at hids
  exact hids.of_map _

theorem nodup_served (h : OutboxRows t actorId) (p : StoredActivity → Bool) :
    ((t.activities.filter p).map fun a => OrderDual.toDual (activityKey a)).Nodup :=
  List.Nodup.sublist (List.filter_sublist.map _) (nodup_activityKeys h)

theorem pairwise_servedActivities (h : OutboxRows t actorId) :
    (servedActivities t actorId).Pairwise comesLater :=
  @pairwise_orderBy _ (ℤ ×ₗ ℕ)ᵒᵈ _ (fun a => OrderDual.toDual (activityKey a)) _ _ _
    (fun _ _ => Iff.rfl) (nodup_served h _)

theorem servedActivities_perm :
    (servedActivities t actorId).Perm (t.activities.filter (ownServed t actorId)) :=
  List.perm_insertionSort _ _

theorem mem_servedActivities {activity : StoredActivity}
    (hmem : activity ∈ servedActivities t actorId) :
    activity ∈ t.activities ∧ activity.actorId = actorId := by
  obtain ⟨hmem, howned⟩ := List.mem_filter.mp (servedActivities_perm.mem_iff.mp hmem)
  rw [ownServed, Bool.and_eq_true, beq_iff_eq] at howned
  exact ⟨hmem, howned.1⟩

/-- The rows of a page are the served activities after its boundary. -/
theorem outboxRows_eq (h : OutboxRows t actorId) (boundary : Option StoredActivity)
    (hboundary : ∀ b, boundary = some b → b ∈ servedActivities t actorId) :
    outboxRows t actorId (boundary.map activityBoundary) =
      (later comesLater (servedActivities t actorId) boundary).take (outboxPageSize + 1) := by
  rw [outboxRows]
  congr 1
  rw [orderBy_congr fun a b => outboxOrder_iff]
  cases boundary with
  | none =>
      rw [later, servedActivities]
      congr 1
      apply List.filter_congr
      intro activity _
      rw [Option.map_none, Bool.eq_iff_iff, decide_eq_true_eq, Truth.holds_all]
      simp
  | some b =>
      obtain ⟨hmem, howned⟩ := mem_servedActivities (hboundary b rfl)
      have hyears := h.years b hmem howned
      have hsorted := @filter_orderBy _ (ℤ ×ₗ ℕ)ᵒᵈ _
        (fun a => OrderDual.toDual (activityKey a)) (fun a b => activityKey b ≤ activityKey a) _
        (t.activities.filter (ownServed t actorId)) (fun _ _ => Iff.rfl) (nodup_served h _)
        (fun a => decide (comesLater b a))
      rw [later, servedActivities, ← hsorted, List.filter_filter]
      congr 1
      apply List.filter_congr
      intro activity _
      rw [Option.map_some, Bool.eq_iff_iff, decide_eq_true_eq, Truth.holds_all,
        Bool.and_eq_true, decide_eq_true_eq, and_comm]
      simp [beforeBoundary_holds hyears]

theorem outboxPage_eq (hvalidate : ValidatesUuids validateUuid) (h : OutboxRows t actorId)
    (n : ℕ) (boundary : Option StoredActivity)
    (hboundary : ∀ b, boundary = some b → b ∈ servedActivities t actorId) :
    outboxPage validateUuid t (some actorId) n (boundary.map activityCursor) =
      some (cutPage activityCursor outboxPageSize
        (later comesLater (servedActivities t actorId) boundary)) := by
  obtain ⟨cursor, hcursor, hparse⟩ : ∃ cursor,
      (boundary.map activityCursor).or (firstCursor (some actorId)) = some cursor ∧
        parseOutboxCursor validateUuid (some cursor) =
          some (boundary.map activityBoundary) := by
    cases boundary with
    | none => exact ⟨[], rfl, rfl⟩
    | some b =>
        obtain ⟨hmem, howned⟩ := mem_servedActivities (hboundary b rfl)
        exact ⟨activityCursor b, rfl, parseOutboxCursor_activityCursor hvalidate
          (h.years b hmem howned) (h.uuids b hmem howned)⟩
  rw [outboxPage, hcursor, Option.bind_some, outboxDispatcher, Option.bind_some, hparse,
    Option.map_some, Option.map_some, outboxRows_eq h boundary hboundary, cutPage]
  simp only [List.take_take, Nat.min_eq_left (Nat.le_succ outboxPageSize), List.length_take]
  have hlength : ∀ length, outboxPageSize < min (outboxPageSize + 1) length ↔
      outboxPageSize < length := by
    intro length
    omega
  simp only [hlength]

/-- What following the cursors of an outbox promises. -/
structure TraversesOutbox (validateUuid : JsString → Bool) (t : Tables) (actorId : Uuid) :
    Prop where
  ordered : (servedActivities t actorId).Pairwise comesLater
  served : (servedActivities t actorId).Perm (t.activities.filter (ownServed t actorId))
  pages : ∀ fuel, t.activities.length < fuel → ∃ pages,
    followPages (outboxPage validateUuid t (some actorId)) fuel 0 none = some pages ∧
      ReadsAll (servedActivities t actorId) (fun _ => outboxPageSize) pages
  counted : outboxCounter t (some actorId) = some (servedActivities t actorId).length
  boundaries : ∀ cursor page next,
    outboxDispatcher validateUuid t (some actorId) cursor = some page →
    page.nextCursor = some next →
      ∃ activity, page.items.getLast? = some activity ∧
        parseOutboxCursor validateUuid (some next) = some (some (activityBoundary activity))

/-- The rows of a page are activities of the actor. -/
theorem mem_outboxRows {boundary : Option Boundary} {activity : StoredActivity}
    (hmem : activity ∈ outboxRows t actorId boundary) :
    activity ∈ t.activities ∧ activity.actorId = actorId := by
  have hrow := List.mem_of_mem_take hmem
  rw [List.mem_insertionSort, List.mem_filter, decide_eq_true_eq, Truth.holds_all,
    List.forall_mem_cons, Truth.holds_some, ownServed, Bool.and_eq_true, beq_iff_eq] at hrow
  exact ⟨hrow.1, hrow.2.1.1⟩

theorem outboxDispatcher_boundary (hvalidate : ValidatesUuids validateUuid)
    (h : OutboxRows t actorId) {cursor : Option JsString} {page : OutboxPage}
    {next : JsString}
    (hpage : outboxDispatcher validateUuid t (some actorId) cursor = some page)
    (hnext : page.nextCursor = some next) :
    ∃ activity, page.items.getLast? = some activity ∧
      parseOutboxCursor validateUuid (some next) =
        some (some (activityBoundary activity)) := by
  rw [outboxDispatcher, Option.bind_some, Option.map_eq_some_iff] at hpage
  obtain ⟨boundary, -, rfl⟩ := hpage
  simp only at hnext ⊢
  split_ifs at hnext
  obtain ⟨activity, hlast, rfl⟩ := Option.map_eq_some_iff.mp hnext
  obtain ⟨hmem, howned⟩ :=
    mem_outboxRows (List.mem_of_mem_take (List.mem_of_getLast? hlast))
  exact ⟨activity, hlast, parseOutboxCursor_activityCursor hvalidate
    (h.years activity hmem howned) (h.uuids activity hmem howned)⟩

/-- Following the cursors of an outbox is exact. -/
theorem outboxDispatcher_traverses (hvalidate : ValidatesUuids validateUuid)
    (h : OutboxRows t actorId) : TraversesOutbox validateUuid t actorId := by
  have hlength : (servedActivities t actorId).length ≤ t.activities.length := by
    rw [servedActivities_perm.length_eq]
    exact List.length_filter_le _ _
  constructor
  · exact pairwise_servedActivities h
  · exact servedActivities_perm
  · intro fuel hfuel
    apply @followPages_readsAll _ _ comesLater
    · exact fun a => lt_irrefl (activityKey a)
    · exact fun a b c hab hbc => lt_trans (show activityKey c < activityKey b from hbc) hab
    · exact pairwise_servedActivities h
    · exact fun _ => by decide
    · exact fun n boundary hboundary => outboxPage_eq hvalidate h n boundary hboundary
    · exact hlength.trans_lt hfuel
  · rw [outboxCounter, Option.map_some, servedActivities_perm.length_eq]
  · intro cursor page next hpage hnext
    exact outboxDispatcher_boundary hvalidate h hpage hnext

end Traversal

/-! ## A tie -/

/-- A public activity about an object, at the first microsecond of the epoch. -/
def tiedActivity (n : ℕ) : StoredActivity where
  id := BitVec.ofNat 128 (0x40008000000000000000 + n)
  actorId := 1
  objectId := some 2
  published := 1
  document := none
  created := 0

def tiedObject : Store.ActivityPubObject where
  id := 2
  actorId := 1
  activityId := none
  fetched := false
  type := .note
  document := none
  url := none
  name := none
  summary := none
  contentHtml := []
  language := none
  sensitive := false
  published := 0
  updated := 0
  created := 0
  deleted := none

/-- Of 23 activities, all but the last one are addressed to the public. -/
def tiedTables : Tables where
  resources := []
  actors := []
  objects := [tiedObject]
  activities := (List.range 23).map tiedActivity
  addressing := (List.range 22).map fun n =>
    ⟨BitVec.ofNat 128 n, (tiedActivity n).id, if n % 2 = 0 then js "to" else js "cc", 0,
      publicResourceId⟩
  revisions := []
  heads := []
  revisionAddressing := []
  revisionRelations := []

theorem tiedTables_rows : OutboxRows tiedTables 1 where
  ids := by decide +kernel
  uuids := by decide +kernel
  years := by decide +kernel

theorem servedActivities_tied :
    servedActivities tiedTables 1 = ((List.range 22).map tiedActivity).reverse := by
  decide +kernel

/-- Two pages: the edge between them lies inside the tie. -/
theorem outboxDispatcher_traverses_tied :
    TraversesOutbox acceptsUuid tiedTables 1 ∧
      ∃ pages, followPages (outboxPage acceptsUuid tiedTables (some 1)) 24 0 none =
          some pages ∧
        pages.map List.length = [20, 2] ∧
        pages.flatten = ((List.range 22).map tiedActivity).reverse := by
  have h := outboxDispatcher_traverses validatesUuids_acceptsUuid tiedTables_rows
  obtain ⟨pages, hpages, hreads⟩ := h.pages 24 (by decide +kernel)
  refine ⟨h, pages, hpages, ?_, hreads.all.trans servedActivities_tied⟩
  have hlengths : (followPages (outboxPage acceptsUuid tiedTables (some 1)) 24 0 none).map
      (List.map List.length) = some [20, 2] := by
    decide +kernel
  rw [hpages] at hlengths
  exact Option.some.inj hlengths

end DrFed.Collections
