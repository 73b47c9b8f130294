import DrFed.Document.Naming
import DrFed.Document.Recheck

/-!
# Embedded documents in a description

The order of a description and what it says about the place of each document:
it follows the document that embeds it, under the standard name of the
property that holds it.
-/

namespace DrFed.Document

section Platform

variable {P : Platform} {document : Json} {root : Node Json}

/-! ## The order of the visits -/

theorem visited_ordered (hdistinct : document.Distinct)
    (haccepts :
      (checkDocumentValue P Json.tree document).reporter.accepts = true)
    (haccepted : Accepted P document root) :
    let visited := (checkDocumentValue P Json.tree document).visited
    (∃ rest, visited = root :: rest ∧ ParentFirst P [root] rest) ∧
      (visited.map Node.path).Nodup := by
  have hordered : WalkOrdered P root (documentEvents P document) := by
    obtain ⟨findings, hread⟩ := haccepted.read
    exact checkDocument_ordered hdistinct
      (quiet_iff.mpr (checkDocumentValue_accepts.mp haccepts).1) hread
  dsimp only
  rw [(checkDocumentValue_eq haccepts).2.2]
  exact ⟨hordered.visits, hordered.nodup.sublist (visits_sublist _)⟩

/-- Every document but the root follows one that embeds it. -/
theorem exists_parent (hdistinct : document.Distinct)
    (haccepts :
      (checkDocumentValue P Json.tree document).reporter.accepts = true)
    (haccepted : Accepted P document root) {before after : List (Node Json)}
    {node : Node Json}
    (hvisited : (checkDocumentValue P Json.tree document).visited =
      before ++ node :: after) (hne : node.path ≠ []) :
    ∃ parent ∈ before, Embedded P parent node := by
  obtain ⟨⟨rest, hrest, hparents⟩, -⟩ :=
    visited_ordered hdistinct haccepts haccepted
  cases before with
  | nil =>
      rw [hvisited] at hrest
      obtain ⟨rfl, -⟩ := List.cons.inj hrest
      exact absurd haccepted.root_path hne
  | cons first before =>
      rw [hvisited] at hrest
      obtain ⟨rfl, rfl⟩ := List.cons.inj hrest
      obtain ⟨parent, hparent, hembedded⟩ := hparents.parent
      exact ⟨parent, hparent, hembedded⟩

/-! ## Properties by source key -/

theorem nodup_nodeProperties (fields : List (Field Json)) :
    ((nodeProperties fields).map Prod.fst).Nodup := by
  unfold nodeProperties
  refine List.foldlRecOn (motive := fun acc : List (JsString × List JsString) =>
    (acc.map Prod.fst).Nodup) _ _ List.nodup_nil fun acc hacc field _ => ?_
  unfold addSource
  split
  next =>
    split
    next => exact AssocList.nodup_put hacc
    next => exact hacc
  next => exact hacc

theorem mem_nodeProperties {fields : List (Field Json)}
    {entry : JsString × List JsString} (h : entry ∈ nodeProperties fields) :
    entry.2 = (suppliers fields entry.1).map fun field => field.source := by
  rw [← nodeProperties_lookup,
    AssocList.lookup_eq_some_of_mem (nodup_nodeProperties fields) h]
  rfl

/-- A source key is listed under the property that it resolves to, and under
no other. -/
theorem find?_nodeProperties {fields : List (Field Json)} {field : Field Json}
    {name : JsString} (hfield : field ∈ fields)
    (hunique : ∀ other ∈ fields, other.source = field.source → other = field)
    (hname : field.name = some name) (hcompatible : field.compatible = true) :
    ((nodeProperties fields).find? fun entry =>
      entry.2.contains field.source).map Prod.fst = some name := by
  have hlookup := nodeProperties_lookup fields name
  have hsupplies : field ∈ suppliers fields name :=
    List.mem_filter.mpr ⟨hfield, by simp [hname, hcompatible]⟩
  cases hsources : (nodeProperties fields).lookup name with
  | none =>
      rw [hsources] at hlookup
      have hmem := List.mem_map_of_mem (f := fun f : Field Json => f.source)
        hsupplies
      rw [← hlookup] at hmem
      cases hmem
  | some sources =>
      rw [hsources, Option.getD_some] at hlookup
      have hmem := AssocList.mem_of_lookup_eq_some hsources
      cases hfind : (nodeProperties fields).find? fun entry =>
          entry.2.contains field.source with
      | none =>
          have hnone := List.find?_eq_none.mp hfind (name, sources) hmem
          rw [List.contains_iff_mem, hlookup] at hnone
          exact absurd (List.mem_map_of_mem hsupplies) hnone
      | some entry =>
          have hcontains := List.find?_some hfind
          rw [List.contains_iff_mem,
            mem_nodeProperties (List.mem_of_find?_eq_some hfind)] at hcontains
          obtain ⟨other, hother, hsource⟩ := List.mem_map.mp hcontains
          obtain ⟨hotherField, hotherName⟩ := List.mem_filter.mp hother
          obtain rfl := hunique other hotherField hsource
          simp only [hname, hcompatible, Bool.and_true, beq_iff_eq,
            Option.some.injEq] at hotherName
          rw [Option.map_some, hotherName]

/-! ## The property that embeds a document -/

theorem nodeAt_visited (hdistinct : document.Distinct)
    (haccepted : Accepted P document root) {node : Node Json}
    (hreach : Reaches P root node) :
    nodeAt ((checkDocumentValue P Json.tree document).visited.map
      (describeNode P)) node.path = some (describeNode P node) := by
  have hexists : (nodeAt ((checkDocumentValue P Json.tree
      document).visited.map (describeNode P)) node.path).isSome := by
    rw [nodeAt, List.find?_isSome]
    exact ⟨describeNode P node, List.mem_reverse.mpr
      (List.mem_map_of_mem ((haccepted.visited node).mpr hreach)),
      by simp [describeNode]⟩
  obtain ⟨n, hn⟩ := Option.isSome_iff_exists.mp hexists
  rw [hn]
  unfold nodeAt at hn
  obtain ⟨other, hother, rfl⟩ := List.mem_map.mp
    (List.mem_reverse.mp (List.mem_of_find?_eq_some hn))
  have hfound := List.find?_some hn
  have hsame : other = node :=
    (haccepted.nodeAt hdistinct ((haccepted.visited other).mp hother)).unique
      (haccepted.nodeAt hdistinct hreach)
      (by simpa [describeNode] using hfound)
  rw [hsame]

theorem embeddingProperty_eq (hdistinct : document.Distinct)
    (haccepted : Accepted P document root) {parent : Node Json}
    (hreach : Reaches P root parent) {field : Field Json} {name : JsString}
    (hfield : field ∈ parent.fields) (hname : field.name = some name)
    (hcompatible : field.compatible = true) {path : FieldPath}
    (hpath : parent.path ++ [.key field.source] <+: path) :
    embeddingProperty ((checkDocumentValue P Json.tree document).visited.map
      (describeNode P)) path parent.path.length = some name := by
  obtain ⟨rest, rfl⟩ := hpath
  have htake : (parent.path ++ [Segment.key field.source] ++ rest).take
      parent.path.length = parent.path := by
    simp
  have hsegment : (parent.path ++ [Segment.key field.source] ++
      rest)[parent.path.length]? = some (.key field.source) := by
    simp
  rw [embeddingProperty, htake, nodeAt_visited hdistinct haccepted hreach,
    hsegment]
  refine find?_nodeProperties hfield (fun other hother hsource => ?_) hname
    hcompatible
  exact (haccepted.nodeAt hdistinct hreach).field_unique hdistinct hother hfield
    hsource

/-- A document is described under the property whose field holds it. -/
theorem describedNode_property (hdistinct : document.Distinct)
    (haccepted : Accepted P document root) {parent child : Node Json}
    (hreach : Reaches P root parent) {field : Field Json}
    (hfield : field ∈ parent.checkedFields)
    (hheld : HeldBy P parent field child) :
    ∃ name, field.name = some name ∧
      (describedNode P document child).property = some name := by
  obtain ⟨visits, key, range, hfollow, -⟩ := id hheld
  obtain ⟨hname, hcompatible, -⟩ := check_references P hfollow
  have hmem := (mem_checkedFields.mp hfield).1
  have hproperty := embeddingProperty_eq hdistinct haccepted hreach hmem hname
    hcompatible hheld.below_path
  refine ⟨key, hname, ?_⟩
  unfold describedNode assignProperty
  dsimp only [describeNode]
  rcases hheld.path with hpath | ⟨i, hpath⟩
  · have hlength : child.path.length = parent.path.length + 1 := by
      rw [hpath]
      simp
    rw [if_neg (by omega)]
    simp only [hlength, Nat.add_sub_cancel, hproperty, Option.some_or]
  · have hlength : child.path.length = parent.path.length + 2 := by
      rw [hpath]
      simp
    have hlast : child.path[parent.path.length + 1]? = some (.index i) := by
      rw [hpath]
      simp
    have hnone : embeddingProperty ((checkDocumentValue P Json.tree
        document).visited.map (describeNode P)) child.path
          (parent.path.length + 1) = none := by
      unfold embeddingProperty
      rw [hlast]
      split
      next h => cases h
      next => rfl
    rw [if_neg (by omega)]
    simp only [hlength, Nat.add_succ_sub_one, hnone, Option.none_or,
      Nat.add_sub_cancel, hproperty]
    simp

/-! ## Complete descriptions -/

/-- The properties whose values may be embedded documents. -/
def EmbedsDocuments (P : Platform) (type : VocabularyType) (name : JsString) :
    Prop :=
  (referenceProperties P.toRuntime type).contains name = true ∨
    (getCollectionRange P.toRuntime type name).isSome = true

def embeddingNames : List JsString :=
  ["preview", "attributedTo", "location", "to", "cc", "bto", "bcc",
    "audience", "actor", "object", "target", "origin", "result", "instrument",
    "items", "orderedItems", "current", "first", "last", "partOf", "next",
    "prev", "inbox", "outbox", "following", "followers", "liked"].map js

theorem embeddingNames_of_embeds {type : VocabularyType} {name : JsString}
    (h : EmbedsDocuments P type name) : name ∈ embeddingNames := by
  rcases h with h | h
  · rw [List.contains_iff_mem] at h
    simp only [referenceProperties, List.mem_append] at h
    have hreference : ∀ n ∈ [js "preview"] ++ ([js "attributedTo",
        js "location"] ++ addressingProperties) ++ [js "actor", js "object",
          js "target", js "origin", js "result", js "instrument"] ++
        [js "items", js "orderedItems"], n ∈ embeddingNames := by
      decide +kernel
    simp only [List.mem_append] at hreference
    refine hreference name ?_
    rcases h with ((h | h) | h) | h
    · exact .inl (.inl (.inl h))
    · split_ifs at h
      · exact .inl (.inl (.inr (List.mem_append.mp h)))
      · cases h
    · split_ifs at h
      · exact .inl (.inr h)
      · cases h
    · split_ifs at h
      · exact .inr h
      · cases h
  · unfold getCollectionRange at h
    have hrange : ∀ n ∈ [js "current", js "first", js "last"] ++
        [js "partOf"] ++ [js "next", js "prev"] ++
        [js "inbox", js "outbox"] ++
        [js "following", js "followers", js "liked"], n ∈ embeddingNames := by
      decide +kernel
    simp only [List.mem_append] at hrange
    refine hrange name ?_
    split_ifs at h <;> simp_all

/-- Every object that a property for documents holds was visited. -/
theorem exists_visited (haccepted : Accepted P document root)
    {node : Node Json} (hreach : Reaches P root node) {field : Field Json}
    (hfield : field ∈ node.fields) {name : JsString}
    (hname : field.name = some name) (hembeds : EmbedsDocuments P node.type name)
    {ms : List (JsString × Json)} {p : FieldPath}
    (hentry : (.obj ms, p) ∈ valueEntries field.value
      (node.path ++ [.key field.source])) :
    ∃ child ∈ (checkDocumentValue P Json.tree document).visited,
      child.path = p := by
  have hnames := embeddingNames_of_embeds hembeds
  have hchecked : field ∈ node.checkedFields := by
    refine mem_checkedFields.mpr ⟨hfield, fun htype => ?_⟩
    obtain rfl := Option.some.inj (hname.symm.trans htype)
    revert hnames
    decide
  have hshape := valueShape hchecked
    (haccepted.accepted node hreach field hchecked) hname
  cases hshape with
  | references h =>
      cases h _ _ hentry with
      | embedded _ _ child hembedded hnode =>
          exact ⟨child, (haccepted.visited child).mpr (hreach.tail hembedded),
            hnode.path_eq⟩
  | texts hkey h =>
      have hdisjoint : ∀ n ∈ CommonPropertyKind.text.properties,
          n ∉ embeddingNames := by decide +kernel
      exact absurd hnames (hdisjoint name hkey)
  | languageMap hkey h =>
      have hdisjoint : ∀ n ∈ CommonPropertyKind.languageMap.properties,
          n ∉ embeddingNames := by decide +kernel
      exact absurd hnames (hdisjoint name hkey)
  | scalars hkey h => exact absurd rfl ((h _ _ hentry).1 ms)

end Platform

end DrFed.Document
