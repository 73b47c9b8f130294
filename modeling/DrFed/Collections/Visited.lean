import DrFed.Collections.Items
import DrFed.Support.AssocList

/-!
# Visiting a collection

Reading the pages of a collection forwards or backwards visits every visible
item once and in order, whatever the sizes of the pages.
-/

namespace DrFed.Collections

section Query

variable {visibleResource readableResource : BitVec 128 → Truth}
  {rows : List CollectionItem}

theorem nodup_keys (hrows : (rows.map CollectionItem.itemId).Nodup) :
    (rows.map CollectionItem.key).Nodup := by
  have hinjective : Function.Injective (BitVec.toNat (w := 128)) :=
    fun a b h => BitVec.eq_of_toNat_eq h
  have hsnd : (rows.map CollectionItem.itemId).map BitVec.toNat =
      (rows.map CollectionItem.key).map fun k => (ofLex k).2 := by
    rw [List.map_map, List.map_map]
    rfl
  have hids := hrows.map hinjective
  rw [hsnd] at hids
  exact hids.of_map _

/-- The condition on a row, once visibility is split off. -/
theorem selectsItem_iff {before after : Option CollectionItem} {item : CollectionItem} :
    selectsItem visibleResource readableResource (before.map CollectionItem.cursor)
        (after.map CollectionItem.cursor) item = true ↔
      ((visibleResource item.itemId).and (readableResource item.itemId)).Holds ∧
        (∀ b, before = some b → item.key < b.key) ∧
          ∀ a, after = some a → a.key < item.key := by
  rw [selectsItem, decide_eq_true_eq, Truth.holds_all, Truth.holds_and,
    List.forall_mem_cons, List.forall_mem_cons, List.forall_mem_singleton, and_assoc]
  refine and_congr_right fun _ => and_congr_right fun _ => ?_
  rw [collectionCursorPredicate, Truth.holds_all]
  cases before with
  | none =>
      cases after with
      | none => simp
      | some a => simp [afterPredicate_holds]
  | some b =>
      cases after with
      | none => simp [beforePredicate_holds]
      | some a => simp [afterPredicate_holds, beforePredicate_holds, and_comm]

/-- The order in which the items are read. -/
def precedes : Bool → CollectionItem → CollectionItem → Prop
  | false, a, b => a.key < b.key
  | true, a, b => b.key < a.key

instance : (inverted : Bool) → DecidableRel (precedes inverted)
  | false => fun a b => inferInstanceAs (Decidable (a.key < b.key))
  | true => fun a b => inferInstanceAs (Decidable (b.key < a.key))

theorem precedes_irrefl (inverted : Bool) (a : CollectionItem) : ¬ precedes inverted a a := by
  cases inverted <;> exact lt_irrefl a.key

theorem precedes_trans (inverted : Bool) (a b c : CollectionItem)
    (hab : precedes inverted a b) (hbc : precedes inverted b c) : precedes inverted a c := by
  cases inverted with
  | false => exact lt_trans (show a.key < b.key from hab) hbc
  | true => exact lt_trans (show c.key < b.key from hbc) hab

variable (visibleResource readableResource rows) in
/-- The visible items as they are read. -/
def readItems : Bool → List CollectionItem
  | false => visibleItems visibleResource readableResource rows
  | true => (visibleItems visibleResource readableResource rows).reverse

theorem pairwise_visibleItems (hrows : (rows.map CollectionItem.itemId).Nodup) :
    (visibleItems visibleResource readableResource rows).Pairwise
      fun a b => a.key < b.key := by
  apply pairwise_orderBy fun a b => Iff.rfl
  exact (nodup_keys hrows).sublist (List.filter_sublist.map _)

theorem pairwise_readItems (hrows : (rows.map CollectionItem.itemId).Nodup)
    (inverted : Bool) :
    (readItems visibleResource readableResource rows inverted).Pairwise
      (precedes inverted) := by
  have hvisible := @pairwise_visibleItems visibleResource readableResource rows hrows
  cases inverted with
  | false => exact hvisible
  | true => exact List.pairwise_reverse.mpr hvisible

theorem visibleItems_perm :
    (visibleItems visibleResource readableResource rows).Perm
      (rows.filter fun item => decide ((visibleResource item.itemId).and
        (readableResource item.itemId)).Holds) :=
  List.perm_insertionSort _ _

theorem nodup_readItems (hrows : (rows.map CollectionItem.itemId).Nodup)
    (inverted : Bool) :
    ((readItems visibleResource readableResource rows inverted).map
      CollectionItem.itemId).Nodup := by
  have hvisible : ((visibleItems visibleResource readableResource rows).map
      CollectionItem.itemId).Nodup :=
    (visibleItems_perm.map _).nodup_iff.mpr (hrows.sublist (List.filter_sublist.map _))
  cases inverted with
  | false => exact hvisible
  | true =>
      rw [readItems, List.map_reverse]
      exact List.nodup_reverse.mpr hvisible

/-- The sorted rows of a query without cursors. -/
theorem orderBy_visible (hrows : (rows.map CollectionItem.itemId).Nodup)
    (inverted : Bool) :
    (rows.filter fun item => decide ((visibleResource item.itemId).and
      (readableResource item.itemId)).Holds).insertionSort (collectionItemsOrder inverted) =
        readItems visibleResource readableResource rows inverted := by
  cases inverted with
  | false => exact orderBy_congr fun a b => collectionItemsOrder_asc
  | true =>
      exact orderBy_reverse (fun a b => Iff.rfl) (fun a b => collectionItemsOrder_desc)
        ((nodup_keys hrows).sublist (List.filter_sublist.map _))

theorem filter_items (hrows : (rows.map CollectionItem.itemId).Nodup) (inverted : Bool)
    (p : CollectionItem → Bool) :
    (rows.filter p).insertionSort (collectionItemsOrder inverted) =
      (rows.insertionSort (collectionItemsOrder inverted)).filter p := by
  cases inverted with
  | false =>
      exact @filter_orderBy _ _ _ CollectionItem.key _ _ _
        (fun a b => collectionItemsOrder_asc) (nodup_keys hrows) p
  | true =>
      exact @filter_orderBy _ (WithTop ℤ ×ₗ ℕ)ᵒᵈ _ (fun a => OrderDual.toDual a.key) _ _ _
        (fun a b => collectionItemsOrder_desc) (nodup_keys hrows) p

/-- The cursor of a page, as a bound on its rows. -/
theorem selectsItem_boundary {inverted : Bool} {boundary : Option CollectionItem}
    {item : CollectionItem} :
    selectsItem visibleResource readableResource
        (if inverted then boundary.map CollectionItem.cursor else none)
        (if inverted then none else boundary.map CollectionItem.cursor) item = true ↔
      ((visibleResource item.itemId).and (readableResource item.itemId)).Holds ∧
        ∀ b, boundary = some b → precedes inverted b item := by
  cases inverted with
  | false =>
      have hselects := @selectsItem_iff visibleResource readableResource none boundary item
      simpa [precedes] using hselects
  | true =>
      have hselects := @selectsItem_iff visibleResource readableResource boundary none item
      simpa [precedes] using hselects

/-- The rows of a query are those of the visible items that its cursor selects. -/
theorem findItems_eq (hrows : (rows.map CollectionItem.itemId).Nodup) (inverted : Bool)
    (boundary : Option CollectionItem) (limit : ℕ) :
    findItems visibleResource readableResource rows
        (if inverted then boundary.map CollectionItem.cursor else none)
        (if inverted then none else boundary.map CollectionItem.cursor) limit inverted =
      (later (precedes inverted)
        (readItems visibleResource readableResource rows inverted) boundary).take limit := by
  have hvisible : ((rows.filter fun item => decide ((visibleResource item.itemId).and
      (readableResource item.itemId)).Holds).map CollectionItem.itemId).Nodup :=
    hrows.sublist (List.filter_sublist.map _)
  rw [findItems, ← orderBy_visible hrows]
  congr 1
  cases boundary with
  | none =>
      rw [later]
      congr 1
      apply List.filter_congr
      intro item _
      rw [Bool.eq_iff_iff, selectsItem_boundary, decide_eq_true_eq]
      simp
  | some b =>
      rw [later, ← filter_items hvisible, List.filter_filter]
      congr 1
      apply List.filter_congr
      intro item _
      rw [Bool.eq_iff_iff, selectsItem_boundary, Bool.and_eq_true, decide_eq_true_eq,
        decide_eq_true_eq, and_comm]
      simp

end Query

/-! ## Pages -/

section Pages

variable {validateUuid : JsString → Bool}
  {visibleResource readableResource : BitVec 128 → Truth} {rows : List CollectionItem}

/-- What the code relies on of the validation of UUIDs: those of RFC 9562 pass. -/
def ValidatesUuids (validateUuid : JsString → Bool) : Prop :=
  ∀ id : BitVec 128, IsRfcUuid id → validateUuid (uuidText id) = true

theorem parse_cursor (hvalidate : ValidatesUuids validateUuid) (item : CollectionItem) :
    parseCollectionCursor validateUuid (encodeCollectionCursor item.cursor) =
      .ok item.cursor :=
  parseCollectionCursor_encode item.int4 (hvalidate item.itemId item.rfc)

def cursorText (item : CollectionItem) : JsString := encodeCollectionCursor item.cursor

theorem parseOptional_cursor (hvalidate : ValidatesUuids validateUuid)
    (boundary : Option CollectionItem) :
    parseOptional validateUuid (boundary.map cursorText) =
      .ok (boundary.map CollectionItem.cursor) := by
  cases boundary with
  | none => rfl
  | some item =>
      rw [Option.map_some, parseOptional, cursorText, parse_cursor hvalidate]
      rfl

/-- Every row of a page has its position. -/
theorem mapM_toCursor {items nodes : List CollectionItem}
    (hitems : (items.map CollectionItem.itemId).Nodup) (hnodes : ∀ item ∈ nodes, item ∈ items) :
    (nodes.mapM fun item =>
      (toCursor (items.map fun item => (item.itemId, item.position)) item.itemId).map
        fun cursor => (cursor, item)) =
      .ok (nodes.map fun item => (cursorText item, item)) := by
  have htoCursor : ∀ item ∈ nodes,
      (toCursor (items.map fun item => (item.itemId, item.position)) item.itemId).map
        (fun cursor => (cursor, item)) = .ok (cursorText item, item) := by
    intro item hitem
    have hlookup : (items.map fun item => (item.itemId, item.position)).lookup item.itemId =
        some item.position := by
      apply AssocList.lookup_eq_some_of_mem
      · rwa [List.map_map]
      · exact List.mem_map_of_mem (hnodes item hitem)
    rw [toCursor, hlookup]
    rfl
  induction nodes with
  | nil => rfl
  | cons item rest ih =>
      rw [List.mapM_cons, htoCursor item List.mem_cons_self,
        ih (fun r hr => hnodes r (List.mem_cons_of_mem item hr))
          (fun r hr => htoCursor r (List.mem_cons_of_mem item hr))]
      rfl

/-- A page of the connection. -/
theorem resolveItems_eq (hvalidate : ValidatesUuids validateUuid)
    (hrows : (rows.map CollectionItem.itemId).Nodup) (size : ℕ) (inverted : Bool)
    (boundary : Option CollectionItem) {remaining : List CollectionItem}
    (hremaining : later (precedes inverted)
      (readItems visibleResource readableResource rows inverted) boundary = remaining) :
    resolveItems validateUuid visibleResource readableResource rows size inverted
        (if inverted then boundary.map cursorText else none)
        (if inverted then none else boundary.map cursorText) =
      .ok ⟨(if inverted then (remaining.take size).reverse else remaining.take size).map
        fun item => (cursorText item, item), decide (size < remaining.length)⟩ := by
  have hparse : ∀ (flag : Bool), parseOptional validateUuid
      (if flag then boundary.map cursorText else none) =
        .ok (if flag then boundary.map CollectionItem.cursor else none) := by
    intro flag
    cases flag with
    | false => rfl
    | true => exact parseOptional_cursor hvalidate boundary
  have hbefore := hparse inverted
  have hafter : parseOptional validateUuid
      (if inverted then none else boundary.map cursorText) =
        .ok (if inverted then none else boundary.map CollectionItem.cursor) := by
    cases inverted with
    | false => exact parseOptional_cursor hvalidate boundary
    | true => rfl
  have hfind := @findItems_eq visibleResource readableResource rows hrows inverted boundary
    (size + 1)
  rw [hremaining] at hfind
  have hids : ((remaining.take (size + 1)).map CollectionItem.itemId).Nodup := by
    refine List.Nodup.sublist ?_
      (@nodup_readItems visibleResource readableResource rows hrows inverted)
    rw [← hremaining]
    exact ((List.take_sublist _ _).trans later_sublist).map _
  have htake : (remaining.take (size + 1)).take size = remaining.take size := by
    rw [List.take_take, Nat.min_eq_left (Nat.le_succ size)]
  have hlength : size < (remaining.take (size + 1)).length ↔ size < remaining.length := by
    rw [List.length_take]
    omega
  have hnodes : ∀ item ∈ (if inverted then (remaining.take size).reverse
      else remaining.take size), item ∈ remaining.take (size + 1) := by
    intro item hitem
    apply (List.take_sublist size (remaining.take (size + 1))).subset
    rw [htake]
    cases inverted with
    | false => exact hitem
    | true => exact List.mem_reverse.mp hitem
  rw [resolveItems, hbefore, hafter]
  simp only [Except.bind, hfind, htake]
  rw [mapM_toCursor hids hnodes]
  simp only [Except.map, hlength]

/-- A page that is read on after the boundary. -/
theorem forwardPage_eq (hvalidate : ValidatesUuids validateUuid)
    (hrows : (rows.map CollectionItem.itemId).Nodup) (sizes : ℕ → ℕ) (n : ℕ)
    (boundary : Option CollectionItem) :
    forwardPage validateUuid visibleResource readableResource rows sizes n
        (boundary.map cursorText) =
      some (cutPage cursorText (sizes n) (later (precedes false)
        (readItems visibleResource readableResource rows false) boundary)) := by
  have hresolve := @resolveItems_eq _ visibleResource readableResource rows hvalidate hrows
    (sizes n) false boundary _ rfl
  rw [if_neg Bool.false_ne_true, if_neg Bool.false_ne_true, if_neg Bool.false_ne_true]
    at hresolve
  rw [forwardPage, hresolve, cutPage]
  simp only [Except.toOption, Option.map_some, List.map_map, List.getLast?_map,
    Option.map_map, decide_eq_true_eq]
  simp [Function.comp_def]

/-- A page that is read back before the boundary. -/
theorem backwardPage_eq (hvalidate : ValidatesUuids validateUuid)
    (hrows : (rows.map CollectionItem.itemId).Nodup) (sizes : ℕ → ℕ) (n : ℕ)
    (boundary : Option CollectionItem) :
    backwardPage validateUuid visibleResource readableResource rows sizes n
        (boundary.map cursorText) =
      (some (cutPage cursorText (sizes n) (later (precedes true)
        (readItems visibleResource readableResource rows true) boundary))).map
          fun read => (read.1.reverse, read.2) := by
  have hresolve := @resolveItems_eq _ visibleResource readableResource rows hvalidate hrows
    (sizes n) true boundary _ rfl
  rw [if_pos rfl, if_pos rfl, if_pos rfl] at hresolve
  rw [backwardPage, hresolve, cutPage]
  simp only [Except.toOption, Option.map_some, List.map_map, List.head?_map,
    List.head?_reverse, Option.map_map, decide_eq_true_eq]
  simp [Function.comp_def]

/-- What paging through a collection promises: its cursors select exactly the
items after and before their own, reading it in either direction visits the
visible items, and a cursor is read as it was written. -/
structure Partitions (validateUuid : JsString → Bool)
    (visibleResource readableResource : BitVec 128 → Truth) (rows : List CollectionItem) :
    Prop where
  selects : ∀ (before after : Option CollectionItem) (item : CollectionItem),
    (collectionCursorPredicate item (before.map CollectionItem.cursor)
        (after.map CollectionItem.cursor)).Holds ↔
      (∀ b, before = some b → item.key < b.key) ∧ ∀ a, after = some a → a.key < item.key
  ordered : (visibleItems visibleResource readableResource rows).Pairwise
    fun a b => a.key < b.key
  visible : (visibleItems visibleResource readableResource rows).Perm
    (rows.filter fun item => decide ((visibleResource item.itemId).and
      (readableResource item.itemId)).Holds)
  forwards : ∀ sizes : ℕ → ℕ, (∀ n, 0 < sizes n) → ∀ fuel, rows.length < fuel →
    ∃ pages,
      followPages (forwardPage validateUuid visibleResource readableResource rows sizes)
        fuel 0 none = some pages ∧
      ReadsAll (visibleItems visibleResource readableResource rows) sizes pages
  backwards : ∀ sizes : ℕ → ℕ, (∀ n, 0 < sizes n) → ∀ fuel, rows.length < fuel →
    ∃ pages,
      followPages (backwardPage validateUuid visibleResource readableResource rows sizes)
        fuel 0 none = some (pages.map List.reverse) ∧
      ReadsAll (visibleItems visibleResource readableResource rows).reverse sizes pages ∧
      (pages.map List.reverse).reverse.flatten =
        visibleItems visibleResource readableResource rows
  cursors : ∀ item : CollectionItem,
    parseCollectionCursor validateUuid (encodeCollectionCursor item.cursor) =
      .ok item.cursor

theorem collectionCursorPredicate_holds {before after : Option CollectionItem}
    {item : CollectionItem} :
    (collectionCursorPredicate item (before.map CollectionItem.cursor)
        (after.map CollectionItem.cursor)).Holds ↔
      (∀ b, before = some b → item.key < b.key) ∧
        ∀ a, after = some a → a.key < item.key := by
  have hselects := @selectsItem_iff (fun _ => some true) (fun _ => some true) before after item
  rw [selectsItem, decide_eq_true_eq, Truth.holds_all, List.forall_mem_cons,
    List.forall_mem_cons, List.forall_mem_singleton] at hselects
  simpa using hselects

theorem length_readItems_le (inverted : Bool) :
    (readItems visibleResource readableResource rows inverted).length ≤ rows.length := by
  have hvisible : (visibleItems visibleResource readableResource rows).length ≤
      rows.length := by
    rw [visibleItems_perm.length_eq]
    exact List.length_filter_le _ _
  cases inverted with
  | false => exact hvisible
  | true => rwa [readItems, List.length_reverse]

/-- Paging partitions the items of a collection. -/
theorem resolveItems_partitions (hvalidate : ValidatesUuids validateUuid)
    (hrows : (rows.map CollectionItem.itemId).Nodup) :
    Partitions validateUuid visibleResource readableResource rows := by
  constructor
  · exact fun before after item => collectionCursorPredicate_holds
  · exact pairwise_visibleItems hrows
  · exact visibleItems_perm
  · intro sizes hsizes fuel hfuel
    exact followPages_readsAll (precedes_irrefl false) (precedes_trans false)
      (pairwise_readItems hrows false) hsizes
      (fun n boundary _ => forwardPage_eq hvalidate hrows sizes n boundary)
      ((length_readItems_le false).trans_lt hfuel)
  · intro sizes hsizes fuel hfuel
    have hread := @followPages_readsAll _ _ (precedes true) _
      (readItems visibleResource readableResource rows true)
      (fun n cursor => (backwardPage validateUuid visibleResource readableResource rows sizes
        n cursor).map fun read => (read.1.reverse, read.2)) cursorText sizes
      (precedes_irrefl true) (precedes_trans true) (pairwise_readItems hrows true) hsizes
      (fun n boundary _ => by
        rw [backwardPage_eq hvalidate hrows, Option.map_map]
        simp [Function.comp_def])
      _ ((length_readItems_le true).trans_lt hfuel)
    obtain ⟨pages, hfollow, hreads⟩ := hread
    refine ⟨pages, ?_, hreads, ?_⟩
    · have hmap := @followPages_map _ _ (fun n cursor =>
        (backwardPage validateUuid visibleResource readableResource rows sizes n cursor).map
          fun read => (read.1.reverse, read.2))
        (backwardPage validateUuid visibleResource readableResource rows sizes)
        List.reverse (fun n cursor => by simp [Function.comp_def]) fuel 0 none
      rw [hmap, hfollow]
      rfl
    · rw [← List.reverse_flatten, hreads.all]
      exact List.reverse_reverse _
  · exact parse_cursor hvalidate

end Pages

/-! ## Some items -/

/-- The validation of lower-case UUIDs. -/
def acceptsUuid (text : JsString) : Bool :=
  match readUuid text with
  | some id => decide (IsRfcUuid id) && text == uuidText id
  | none => false

theorem validatesUuids_acceptsUuid : ValidatesUuids acceptsUuid := by
  intro id hid
  rw [acceptsUuid, readUuid_uuidText]
  simp [hid]

/-- An item of a small position, or of none, with an id of the fourth version. -/
def smallItem (n : Fin 4) (position : Option (Fin 4)) : CollectionItem where
  itemId := BitVec.ofNat 128 (0x40008000000000000000 + n)
  position := position.map fun p => (p.val : ℤ)
  int4 := by
    intro n hn
    obtain ⟨p, -, rfl⟩ := Option.map_eq_some_iff.mp hn
    constructor <;> omega
  rfc := by revert n; decide

/-- Two items at one position, and one without a position. -/
def smallItems : List CollectionItem :=
  [smallItem 2 none, smallItem 1 (some 3), smallItem 0 (some 3)]

theorem resolveItems_partitions_smallItems :
    Partitions acceptsUuid (fun _ => some true) (fun _ => some true) smallItems :=
  resolveItems_partitions validatesUuids_acceptsUuid (by decide)

end DrFed.Collections
