import DrFed.Document.Describe
import DrFed.Document.Ownership

/-!
# What a description says

The description of an accepted document, node by node: which strings are
identifiers, what the node at a path is, and that a functional property has at
most one value over all its spellings.
-/

namespace DrFed.Document

section Platform

variable (P : Platform)

/-! ## Entries of a property value -/

theorem mem_stringEntries {value : Json} {path q : FieldPath}
    {text : JsString} :
    (text, q) ∈ stringEntries value path ↔
      (.str text, q) ∈ valueEntries value path := by
  cases value with
  | arr items =>
      simp only [stringEntries, valueEntries, List.mem_filterMap,
        List.mem_map]
      constructor
      · rintro ⟨⟨entry, i⟩, hmem, heq⟩
        cases entry <;> simp at heq
        obtain ⟨rfl, rfl⟩ := heq
        exact ⟨_, hmem, rfl⟩
      · rintro ⟨⟨entry, i⟩, hmem, heq⟩
        obtain ⟨rfl, rfl⟩ := Prod.mk.inj heq
        exact ⟨_, hmem, rfl⟩
  | _ => simp [stringEntries, valueEntries]

/-- The entries of a member are at their paths in the document. -/
theorem get?_valueEntries {document value entry : Json} {p q : FieldPath}
    (hvalue : document.get? p = some value)
    (hentry : (entry, q) ∈ valueEntries value p) :
    document.get? q = some entry := by
  cases value with
  | arr items =>
      simp only [valueEntries, List.mem_map] at hentry
      obtain ⟨⟨item, i⟩, hmem, heq⟩ := hentry
      obtain ⟨rfl, rfl⟩ := Prod.mk.inj heq
      rw [Json.get?_concat, hvalue]
      simpa [List.mem_zipIdx_iff_getElem?, Json.child?] using hmem
  | _ =>
      simp only [valueEntries, List.mem_singleton, Prod.mk.injEq] at hentry
      obtain ⟨rfl, rfl⟩ := hentry
      exact hvalue

variable {P} {document : Json} {node : Node Json}

/-- A field of a node is a member of the object at its path. -/
theorem NodeAt.get?_field (hdistinct : document.Distinct)
    (h : NodeAt P document node) {field : Field Json}
    (hfield : field ∈ node.fields) :
    document.get? (node.path ++ [.key field.source]) = some field.value := by
  rw [h.fields, mem_readFields] at hfield
  obtain ⟨entry, hmem, -, rfl⟩ := hfield
  simp only [resolveProperty_source]
  exact (mem_target hdistinct h).mpr hmem

/-! ## Identifiers -/

variable (P) in
theorem mem_identifiers {entry : DocumentIdentifier} :
    entry ∈ (describeNode P node).identifiers ↔
      ∃ field ∈ node.fields, ∃ name text path, field.name = some name ∧
        field.compatible = true ∧
        identifierProperties.contains name = true ∧
        (.str text, path) ∈ valueEntries field.value
          (node.path ++ [.key field.source]) ∧
        entry = ⟨name, path, text, expandIdentifier text node.context⟩ := by
  simp only [describeNode, List.mem_flatMap]
  refine exists_congr fun field => and_congr_right fun _ => ?_
  unfold fieldIdentifiers
  cases hname : field.name with
  | none => simp
  | some name =>
      by_cases hgood : field.compatible = true ∧
          identifierProperties.contains name = true
      · simp only [hgood, and_self, if_true, List.mem_map, Prod.exists,
          mem_stringEntries]
        constructor
        · rintro ⟨text, path, hmem, rfl⟩
          exact ⟨name, text, path, rfl, trivial, hgood.2, hmem, rfl⟩
        · rintro ⟨_, text, path, hname', -, -, hmem, rfl⟩
          obtain rfl := Option.some.inj hname'
          exact ⟨text, path, hmem, rfl⟩
      · simp only [hgood, if_false, List.not_mem_nil, false_iff]
        rintro ⟨_, text, path, hname', hcompatible, hcontains, -⟩
        obtain rfl := Option.some.inj hname'
        exact hgood ⟨hcompatible, hcontains⟩

/-- An identifier is a string of the document, expanded in the context of its
node. -/
theorem identifier_spec (hdistinct : document.Distinct)
    (h : NodeAt P document node) {entry : DocumentIdentifier}
    (hentry : entry ∈ (describeNode P node).identifiers) :
    document.get? entry.path = some (.str entry.value) ∧
      entry.iri = expandIdentifier entry.value node.context := by
  obtain ⟨field, hfield, name, text, path, -, -, -, hmem, rfl⟩ :=
    (mem_identifiers P).mp hentry
  exact ⟨get?_valueEntries (h.get?_field hdistinct hfield) hmem, rfl⟩

/-! ## Nodes of a description -/

@[simp] theorem assignProperty_path (nodes : List DocumentNode)
    (n : DocumentNode) : (assignProperty nodes n).path = n.path := by
  unfold assignProperty
  dsimp only
  split <;> rfl

@[simp] theorem assignProperty_identifiers (nodes : List DocumentNode)
    (n : DocumentNode) :
    (assignProperty nodes n).identifiers = n.identifiers := by
  unfold assignProperty
  dsimp only
  split <;> rfl

@[simp] theorem assignProperty_properties (nodes : List DocumentNode)
    (n : DocumentNode) :
    (assignProperty nodes n).properties = n.properties := by
  unfold assignProperty
  dsimp only
  split <;> rfl

@[simp] theorem assignProperty_kind (nodes : List DocumentNode)
    (n : DocumentNode) : (assignProperty nodes n).kind = n.kind := by
  unfold assignProperty
  dsimp only
  split <;> rfl

@[simp] theorem assignProperty_type (nodes : List DocumentNode)
    (n : DocumentNode) : (assignProperty nodes n).type = n.type := by
  unfold assignProperty
  dsimp only
  split <;> rfl

variable (P) in
/-- The description of a node that the walk has visited. -/
def describedNode (document : Json) (node : Node Json) : DocumentNode :=
  assignProperty
    ((checkDocumentValue P Json.tree document).visited.map (describeNode P))
    (describeNode P node)

variable (P) in
/-- The nodes that describe an accepted document. -/
def describedNodes (document : Json) : List DocumentNode :=
  (checkDocumentValue P Json.tree document).visited.map
    (describedNode P document)

theorem describeDocument_eq_some {nodes : List DocumentNode}
    (h : describeDocument P document = some nodes) :
    (checkDocumentValue P Json.tree document).reporter.accepts = true ∧
      nodes = describedNodes P document := by
  unfold describeDocument at h
  dsimp only at h
  split at h
  next haccepts =>
    refine ⟨haccepts, ?_⟩
    rw [← Option.some.inj h, List.map_map]
    rfl
  next => cases h

theorem describeDocument_of_accepts
    (h : (checkDocumentValue P Json.tree document).reporter.accepts = true) :
    describeDocument P document = some (describedNodes P document) := by
  unfold describeDocument
  dsimp only
  rw [if_pos h, describedNodes, List.map_map]
  rfl

section Accepted

variable {root : Node Json}

/-- The document at a path is described by the one node that the walk read
there. -/
theorem nodeAt_eq_some (hdistinct : document.Distinct)
    (haccepted : Accepted P document root)
    {path : FieldPath} {n : DocumentNode} :
    nodeAt (describedNodes P document) path = some n ↔
      ∃ node, Reaches P root node ∧ node.path = path ∧
        n = describedNode P document node := by
  have hpath : ∀ node, (describedNode P document node).path = node.path :=
    fun node => assignProperty_path _ _
  constructor
  · intro h
    unfold nodeAt at h
    have hmem := List.mem_reverse.mp (List.mem_of_find?_eq_some h)
    obtain ⟨node, hnode, rfl⟩ := List.mem_map.mp hmem
    have hfound := List.find?_some h
    exact ⟨node, (haccepted.visited node).mp hnode,
      by simpa [hpath] using hfound, rfl⟩
  · rintro ⟨node, hreach, rfl, rfl⟩
    have hexists : (nodeAt (describedNodes P document)
        node.path).isSome := by
      rw [nodeAt, List.find?_isSome]
      exact ⟨describedNode P document node, List.mem_reverse.mpr
        (List.mem_map_of_mem ((haccepted.visited node).mpr hreach)),
        by simp [hpath]⟩
    obtain ⟨n, hn⟩ := Option.isSome_iff_exists.mp hexists
    rw [hn]
    unfold nodeAt at hn
    have hmem := List.mem_reverse.mp (List.mem_of_find?_eq_some hn)
    obtain ⟨other, hother, rfl⟩ := List.mem_map.mp hmem
    have hfound := List.find?_some hn
    have hsame : other = node :=
      (haccepted.nodeAt hdistinct ((haccepted.visited other).mp hother)).unique
        (haccepted.nodeAt hdistinct hreach) (by simpa [hpath] using hfound)
    rw [hsame]

theorem nodeAt_eq_none (hdistinct : document.Distinct)
    (haccepted : Accepted P document root)
    {path : FieldPath}
    (hget : ∀ ms, document.get? path ≠ some (.obj ms)) :
    nodeAt (describedNodes P document) path = none := by
  by_contra hsome
  obtain ⟨n, hn⟩ := Option.ne_none_iff_exists'.mp hsome
  obtain ⟨node, hreach, rfl, -⟩ :=
    (nodeAt_eq_some hdistinct haccepted).mp hn
  obtain ⟨ms, hms⟩ := (haccepted.nodeAt hdistinct hreach).get?
  exact hget ms hms

end Accepted

/-- The root of an accepted document is at the empty path. -/
theorem Accepted.root_path {root : Node Json}
    (h : Accepted P document root) : root.path = [] := by
  obtain ⟨findings, hread⟩ := h.read
  exact (readNode_eq_some P hread).path_eq

/-! ## Source keys of a property -/

/-- The fields that supply a standard property in a compatible spelling. -/
def suppliers (fields : List (Field Json)) (name : JsString) :
    List (Field Json) :=
  fields.filter fun field => field.name == some name && field.compatible

theorem nodeProperties_lookup (fields : List (Field Json)) (name : JsString) :
    ((nodeProperties fields).lookup name).getD [] =
      (suppliers fields name).map fun field => field.source := by
  have hfold : ∀ (fields : List (Field Json))
      (acc : List (JsString × List JsString)),
      ((fields.foldl addSource acc).lookup name).getD [] =
        (acc.lookup name).getD [] ++
          (suppliers fields name).map fun field => field.source := by
    intro fields
    induction fields with
    | nil => simp [suppliers]
    | cons field rest ih =>
        intro acc
        rw [List.foldl_cons, ih]
        cases hname : field.name with
        | none => simp [addSource, suppliers, hname]
        | some other =>
            by_cases hcompatible : field.compatible = true
            · by_cases hother : name = other
              · subst hother
                simp [addSource, suppliers, hname, hcompatible]
              · have hne : ¬ other = name := fun h => hother h.symm
                simp [addSource, suppliers, hname, hcompatible, hother, hne]
            · simp [addSource, suppliers, hname, hcompatible]
  simpa [nodeProperties] using hfold fields []

end Platform

end DrFed.Document
