import DrFed.Document.Naming
import DrFed.LocalWrite.Indexing

/-!
# What the index contains

The index of an accepted document against the values of its root: an
occurrence for every value that names an IRI, and a relation for every value,
except for the links that hold their `href` in a list.
-/

namespace DrFed.LocalWrite

open Document Store

/-! ## Values by meaning -/

/-- The values that a property value consists of, with their paths and their
positions in it. -/
def positionedEntries (value : Json) (path : FieldPath) :
    List (Json × FieldPath × ℕ) :=
  match value with
  | .arr items => items.zipIdx.map fun e => (e.1, path ++ [.index e.2], e.2)
  | value => [(value, path, 0)]

/-- The root has `entry` as a value of a property, whichever key spells it. -/
def PropertyValue (root : Node Json) (property : JsString) (entry : Json)
    (path : FieldPath) (position : ℕ) : Prop :=
  ∃ field ∈ root.fields, field.name = some property ∧
    (entry, path, position) ∈
      positionedEntries field.value (root.path ++ [.key field.source])

section Platform

variable (P : Platform)

/-- The IRI that a value of the root names: a string as the context expands
it, an embedded document by its `id`, and a `Link` by its `href`. -/
inductive Names (root : Node Json) : Json → FieldPath → JsString → Prop
  | text (text : JsString) (path : FieldPath) :
      Names root (.str text) path (expandIdentifier text root.context)
  | document (entry : Json) (path : FieldPath) (child : Node Json)
      (text : JsString)
      (hnode : NodeOf P entry path (some root.context) child)
      (hname : NamedBy P child text) :
      Names root entry path (expandIdentifier text child.context)

/-- The index has exactly one occurrence for each value of an addressing
property that names an IRI, and one relation for each value of a relation
property. -/
structure IndexesExactly (root : Node Json) (index : DocumentIndex) : Prop where
  addressing : ∀ property position iri,
    ⟨property, position, iri⟩ ∈ index.addressing ↔
      property ∈ addressingProperties ∧ ∃ entry path,
        PropertyValue root property entry path position ∧
        Names P root entry path iri
  positions : (index.addressing.map fun occurrence =>
    (occurrence.property, occurrence.position)).Nodup
  located : ∀ relation ∈ index.relations, ∃ path, relation.path = some path
  relations : ∀ property path,
    (∃ relation ∈ index.relations,
        relation.property = property ∧ relation.path = some path) ↔
      property ∈ relationProperties ∧ ∃ entry position,
        PropertyValue root property entry path position ∧ entry ≠ .null
  targets : ∀ relation ∈ index.relations, ∀ path, relation.path = some path →
    ∀ entry position,
      PropertyValue root relation.property entry path position →
        ∀ iri, relation.targetIri = some iri ↔ Names P root entry path iri
  paths : (index.relations.map RevisionRelationInput.path).Nodup

/-- The value is an embedded `Link` that holds its `href` in a list. -/
def ListsHref (root : Node Json) (entry : Json) (path : FieldPath) : Prop :=
  ∃ child, NodeOf P entry path (some root.context) child ∧
    isLink P child.type = true ∧ ∃ field ∈ child.fields,
      field.name = some (js "href") ∧
      ∃ items text, field.value = .arr items ∧ .str text ∈ items

/-! ## The described root -/

section Described

variable {P} {document : Json} {root : Node Json}

theorem mem_positionedEntries {value entry : Json} {path q : FieldPath}
    {position : ℕ} (h : (entry, q, position) ∈ positionedEntries value path) :
    (entry, q) ∈ valueEntries value path := by
  cases value with
  | arr items =>
      obtain ⟨e, hmem, heq⟩ := List.mem_map.mp h
      obtain ⟨rfl, hrest⟩ := Prod.mk.inj heq
      obtain ⟨rfl, -⟩ := Prod.mk.inj hrest
      exact List.mem_map.mpr ⟨e, hmem, rfl⟩
  | _ =>
      obtain ⟨rfl, hrest⟩ := Prod.mk.inj (List.mem_singleton.mp h)
      obtain ⟨rfl, -⟩ := Prod.mk.inj hrest
      exact List.mem_singleton.mpr rfl

theorem rootNode_described (haccepted : Accepted P document root) :
    rootNode (describedNodes P document) =
      some (describedNode P document root) := by
  obtain ⟨rest, hvisited⟩ := haccepted.head
  have hpath : (describedNode P document root).path = [] := by
    rw [describedNode, assignProperty_path]
    exact haccepted.root_path
  rw [describedNodes, hvisited, List.map_cons, rootNode,
    List.find?_cons_of_pos]
  rw [hpath]
  rfl

/-- The identifier of the root at a path is the string there. -/
theorem identifierAt_eq_some (hdistinct : document.Distinct)
    (hroot : NodeAt P document root) {path : FieldPath} {iri : JsString} :
    identifierAt (describedNode P document root) path = some iri ↔
      ∃ entry ∈ (describeNode P root).identifiers, entry.path = path ∧
        entry.iri = iri := by
  have hidentifiers : (describedNode P document root).identifiers =
      (describeNode P root).identifiers := assignProperty_identifiers _ _
  unfold identifierAt
  rw [hidentifiers]
  constructor
  · intro h
    obtain ⟨entry, hfind, rfl⟩ := Option.map_eq_some_iff.mp h
    exact ⟨entry, List.mem_reverse.mp (List.mem_of_find?_eq_some hfind),
      by simpa using List.find?_some hfind, rfl⟩
  · rintro ⟨entry, hentry, rfl, rfl⟩
    have hsome : ((describeNode P root).identifiers.reverse.find?
        fun other => other.path == entry.path).isSome := by
      rw [List.find?_isSome]
      exact ⟨entry, List.mem_reverse.mpr hentry, by simp⟩
    obtain ⟨other, hother⟩ := Option.isSome_iff_exists.mp hsome
    rw [hother, Option.map_some]
    -- Both entries are the string at the same path.
    have hmem := List.mem_reverse.mp (List.mem_of_find?_eq_some hother)
    have hpath : other.path = entry.path := by
      simpa using List.find?_some hother
    obtain ⟨hvalue, hiri⟩ := identifier_spec hdistinct hroot hmem
    obtain ⟨hvalue', hiri'⟩ := identifier_spec hdistinct hroot hentry
    rw [hpath, hvalue'] at hvalue
    have hsame : entry.value = other.value :=
      Json.str.inj (Option.some.inj hvalue)
    rw [hiri, hiri', hsame]

theorem identifierAt_eq_none (hdistinct : document.Distinct)
    (hroot : NodeAt P document root) {path : FieldPath}
    (h : ∀ text, document.get? path ≠ some (.str text)) :
    identifierAt (describedNode P document root) path = none := by
  by_contra hsome
  obtain ⟨iri, hiri⟩ := Option.ne_none_iff_exists'.mp hsome
  obtain ⟨entry, hentry, rfl, -⟩ :=
    (identifierAt_eq_some hdistinct hroot).mp hiri
  exact h _ (identifier_spec hdistinct hroot hentry).1

theorem describedNode_kind (node : Node Json) :
    (describedNode P document node).kind = .link ↔
      isLink P node.type = true := by
  rw [describedNode, assignProperty_kind]
  change nodeKind P node.type = .link ↔ _
  unfold nodeKind isLink
  split
  next hlink => exact ⟨fun _ => hlink, fun _ => rfl⟩
  next hlink =>
    refine ⟨fun h => ?_, fun h => absurd h hlink⟩
    split_ifs at h

/-- The identifiers that `ownTarget` looks for. -/
theorem mem_ownIdentifiers {child : Node Json}
    (haccepted : NodeAccepted P child) {entry : DocumentIdentifier} :
    (entry ∈ (describeNode P child).identifiers ∧
        entry.property = nameProperty P child.type ∧
        entry.path.length = child.path.length + 1) ↔
      ∃ field ∈ child.fields, field.name = some (nameProperty P child.type) ∧
        ∃ text, field.value = .str text ∧
          entry = ⟨nameProperty P child.type,
            child.path ++ [.key field.source], text,
            expandIdentifier text child.context⟩ := by
  constructor
  · rintro ⟨hentry, hproperty, hlength⟩
    obtain ⟨field, hfield, name, text, path, hname, -, -, hmem, rfl⟩ :=
      (mem_identifiers P).mp hentry
    obtain rfl : name = nameProperty P child.type := hproperty
    refine ⟨field, hfield, hname, text, ?_⟩
    cases hvalue : field.value with
    | arr items =>
        rw [hvalue] at hmem
        obtain ⟨e, -, heq⟩ := List.mem_map.mp hmem
        obtain ⟨-, rfl⟩ := Prod.mk.inj heq
        simp at hlength
    | _ =>
        rw [hvalue] at hmem
        obtain ⟨htext, rfl⟩ := Prod.mk.inj (List.mem_singleton.mp hmem)
        exact ⟨htext.symm, rfl⟩
  · rintro ⟨field, hfield, hname, text, hvalue, rfl⟩
    have hquiet := (haccepted field (nameProperty_checked hfield hname)).quiet
    have hcontains : identifierProperties.contains
        (nameProperty P child.type) = true := by
      unfold nameProperty
      split <;> decide
    refine ⟨(mem_identifiers P).mpr ⟨field, hfield, _, text, _, hname,
      compatible_of_quiet hname hquiet, hcontains, ?_, rfl⟩, rfl, by simp⟩
    rw [hvalue]
    exact List.mem_singleton.mpr rfl

/-- An embedded document is indexed by the string that names it, when that is
not in a list. -/
theorem ownTarget_eq_some (hvocabulary : StandardVocabulary P)
    {child : Node Json} (haccepted : NodeAccepted P child)
    (hfields : child.fields = readFields P child.values child.context)
    {iri : JsString} :
    ownTarget (describedNode P document child) child.path = some iri ↔
      ∃ field ∈ child.fields, field.name = some (nameProperty P child.type) ∧
        ∃ text, field.value = .str text ∧
          iri = expandIdentifier text child.context := by
  have hproperty : (if (describedNode P document child).kind = .link then
      js "href" else js "id") = nameProperty P child.type := by
    simp only [describedNode_kind, nameProperty]
  have hidentifiers : (describedNode P document child).identifiers =
      (describeNode P child).identifiers := assignProperty_identifiers _ _
  have hfound : ∀ {entry}, ((describeNode P child).identifiers.find?
      fun entry => entry.property == nameProperty P child.type &&
        entry.path.length == child.path.length + 1) = some entry →
      entry ∈ (describeNode P child).identifiers ∧
        entry.property = nameProperty P child.type ∧
        entry.path.length = child.path.length + 1 := by
    intro entry hfind
    have hmatches := List.find?_some hfind
    rw [Bool.and_eq_true, beq_iff_eq, beq_iff_eq] at hmatches
    exact ⟨List.mem_of_find?_eq_some hfind, hmatches⟩
  unfold ownTarget
  rw [hproperty, hidentifiers]
  dsimp only
  constructor
  · intro h
    obtain ⟨entry, hfind, rfl⟩ := Option.map_eq_some_iff.mp h
    obtain ⟨field, hfield, hname, text, hvalue, rfl⟩ :=
      (mem_ownIdentifiers haccepted).mp (hfound hfind)
    exact ⟨field, hfield, hname, text, hvalue, rfl⟩
  · rintro ⟨field, hfield, hname, text, hvalue, rfl⟩
    obtain ⟨hmem, hmatches⟩ := (mem_ownIdentifiers haccepted).mpr
      ⟨field, hfield, hname, text, hvalue, rfl⟩
    cases hfind : (describeNode P child).identifiers.find? fun entry =>
        entry.property == nameProperty P child.type &&
          entry.path.length == child.path.length + 1 with
    | none =>
        have hnone := List.find?_eq_none.mp hfind _ hmem
        rw [Bool.and_eq_true, beq_iff_eq, beq_iff_eq] at hnone
        exact absurd hmatches hnone
    | some other =>
        obtain ⟨field', hfield', hname', text', hvalue', rfl⟩ :=
          (mem_ownIdentifiers haccepted).mp (hfound hfind)
        obtain rfl := name_field_unique hvocabulary haccepted hfields hfield
          hfield' hname hname' (by simp [hvalue, presentValues])
          (by simp [hvalue', presentValues])
        rw [hvalue] at hvalue'
        rw [Option.map_some, Json.str.inj hvalue']

/-! ## Values of the root -/

/-- The properties of the root that the index covers. -/
def indexedProperties : List JsString :=
  addressingProperties ++ relationProperties

/-- What the index reads at a value of the root. -/
inductive Indexed (P : Platform) (document : Json) (root : Node Json)
    (path : FieldPath) : Json → Prop
  | null (hnode : nodeAt (describedNodes P document) path = none)
      (htarget : targetOf (describedNodes P document) (describedNode P document root) path = none)
      (hidentifier : identifierAt (describedNode P document root) path = none) :
      Indexed P document root path .null
  | text (text : JsString) (hnode : nodeAt (describedNodes P document) path = none)
      (hidentifier : identifierAt (describedNode P document root) path =
        some (expandIdentifier text root.context)) :
      Indexed P document root path (.str text)
  | embedded (entry : Json) (child : Node Json)
      (hembedded : Embedded P root child)
      (hchild : NodeOf P entry path (some root.context) child)
      (hnode : nodeAt (describedNodes P document) path = some (describedNode P document child))
      (hidentifier : identifierAt (describedNode P document root) path = none) :
      Indexed P document root path entry

section Targets

variable (hdistinct : document.Distinct) (haccepted : Accepted P document root)

include hdistinct haccepted

theorem get?_propertyValue {property : JsString} {entry : Json}
    {path : FieldPath} {position : ℕ}
    (h : PropertyValue root property entry path position) :
    document.get? path = some entry := by
  obtain ⟨field, hfield, -, hentry⟩ := h
  have hroot := haccepted.nodeAt hdistinct .refl
  exact get?_valueEntries (hroot.get?_field hdistinct hfield)
    (mem_positionedEntries hentry)

omit hdistinct in
/-- A value that is indexed is null, a reference or an embedded document. -/
theorem entryShape_propertyValue {property : JsString} {entry : Json}
    {path : FieldPath} {position : ℕ} (hproperty : property ∈ indexedProperties)
    (h : PropertyValue root property entry path position) :
    EntryShape P root entry path := by
  obtain ⟨field, hfield, hname, hentry⟩ := h
  have hother : ∀ property ∈ indexedProperties, property ≠ js "type" ∧
      property ∉ CommonPropertyKind.text.properties ∧
      property ∉ CommonPropertyKind.languageMap.properties ∧
      property ∉ scalarProperties := by decide
  obtain ⟨htype, htext, hmap, hscalar⟩ := hother property hproperty
  have hchecked : field ∈ root.checkedFields :=
    mem_checkedFields.mpr ⟨hfield, by rw [hname]; simpa using htype⟩
  cases valueShape hchecked (haccepted.accepted root .refl field hchecked)
    hname with
  | references hentries =>
      exact hentries entry path (mem_positionedEntries hentry)
  | texts hkey => exact absurd hkey htext
  | languageMap hkey => exact absurd hkey hmap
  | scalars hkey => exact absurd hkey hscalar

theorem identifierAt_propertyValue {property : JsString} {text : JsString}
    {path : FieldPath} {position : ℕ} (hproperty : property ∈ indexedProperties)
    (h : PropertyValue root property (.str text) path position) :
    identifierAt (describedNode P document root) path =
      some (expandIdentifier text root.context) := by
  obtain ⟨field, hfield, hname, hentry⟩ := h
  have hroot := haccepted.nodeAt hdistinct .refl
  have hother : ∀ property ∈ indexedProperties, property ≠ js "type" ∧
      identifierProperties.contains property = true := by decide
  obtain ⟨htype, hcontains⟩ := hother property hproperty
  have hchecked : field ∈ root.checkedFields :=
    mem_checkedFields.mpr ⟨hfield, by rw [hname]; simpa using htype⟩
  have hcompatible := compatible_of_quiet hname
    (haccepted.accepted root .refl field hchecked).quiet
  refine (identifierAt_eq_some hdistinct hroot).mpr
    ⟨_, (mem_identifiers P).mpr ⟨field, hfield, property, text, path, hname,
      hcompatible, hcontains, mem_positionedEntries hentry, rfl⟩, rfl, rfl⟩

theorem nodeAt_of_scalar {entry : Json} {path : FieldPath}
    (hget : document.get? path = some entry)
    (hscalar : ∀ ms, entry ≠ .obj ms) : nodeAt (describedNodes P document) path = none := by
  refine nodeAt_eq_none hdistinct haccepted fun ms hms => ?_
  rw [hget] at hms
  exact hscalar ms (Option.some.inj hms)

theorem indexed_propertyValue {property : JsString} {entry : Json}
    {path : FieldPath} {position : ℕ} (hproperty : property ∈ indexedProperties)
    (h : PropertyValue root property entry path position) :
    Indexed P document root path entry := by
  have hroot := haccepted.nodeAt hdistinct .refl
  have hget := get?_propertyValue hdistinct haccepted h
  cases entryShape_propertyValue haccepted hproperty h with
  | null =>
      have hnode := nodeAt_of_scalar hdistinct haccepted hget (by simp)
      have hidentifier :
          identifierAt (describedNode P document root) path = none :=
        identifierAt_eq_none hdistinct hroot (by simp [hget])
      refine .null hnode ?_ hidentifier
      rw [targetOf, hidentifier, hnode]
      rfl
  | reference text =>
      exact .text text
        (nodeAt_of_scalar hdistinct haccepted hget (by simp))
        (identifierAt_propertyValue hdistinct haccepted hproperty h)
  | embedded _ _ child hembedded hchild =>
      obtain ⟨ms, rfl, -⟩ := hchild.values
      refine .embedded _ child hembedded hchild ?_
        (identifierAt_eq_none hdistinct hroot (by simp [hget]))
      exact (nodeAt_eq_some hdistinct haccepted).mpr
        ⟨child, .single hembedded, hchild.path_eq, rfl⟩

end Targets

section Indexed

variable {entry : Json} {path : FieldPath} {iri : JsString}

theorem names_embedded {child : Node Json}
    (hchild : NodeOf P entry path (some root.context) child) :
    Names P root entry path iri ↔
      ∃ text, NamedBy P child text ∧
        iri = expandIdentifier text child.context := by
  constructor
  · intro h
    cases h with
    | text text =>
        obtain ⟨ms, hms, -⟩ := hchild.values
        cases hms
    | document _ _ other text hother hname =>
        obtain rfl := hchild.unique hother
        exact ⟨text, hname, rfl⟩
  · rintro ⟨text, hname, rfl⟩
    exact .document entry path child text hchild hname

theorem targetOf_embedded {child : Node Json}
    (hchild : NodeOf P entry path (some root.context) child)
    (hnode : nodeAt (describedNodes P document) path = some (describedNode P document child))
    (hidentifier : identifierAt (describedNode P document root) path = none) :
    targetOf (describedNodes P document) (describedNode P document root) path =
      ownTarget (describedNode P document child) child.path := by
  rw [targetOf, hidentifier, hnode, hchild.path_eq]
  rfl

/-- What the index takes for a target is named by the value. -/
theorem Indexed.sound (hvocabulary : StandardVocabulary P)
    (haccepted : Accepted P document root)
    (h : Indexed P document root path entry)
    (htarget : targetOf (describedNodes P document) (describedNode P document root) path = some iri) :
    Names P root entry path iri := by
  cases h with
  | null _ hnone =>
      rw [hnone] at htarget
      cases htarget
  | text text _ hidentifier =>
      rw [targetOf, hidentifier] at htarget
      obtain rfl := Option.some.inj htarget
      exact .text text path
  | embedded _ child hembedded hchild hnode hidentifier =>
      rw [targetOf_embedded hchild hnode hidentifier,
        ownTarget_eq_some hvocabulary (haccepted.accepted child
          (.single hembedded)) hchild.fields] at htarget
      obtain ⟨field, hfield, hname, text, hvalue, rfl⟩ := htarget
      refine (names_embedded hchild).mpr
        ⟨text, ⟨field, hfield, hname, ?_⟩, rfl⟩
      rw [hvalue]
      exact List.mem_singleton.mpr rfl

/-- What a value names is its target, but for the links with a list. -/
theorem Indexed.complete (hvocabulary : StandardVocabulary P)
    (haccepted : Accepted P document root)
    (h : Indexed P document root path entry)
    (hnames : Names P root entry path iri) :
    targetOf (describedNodes P document) (describedNode P document root) path = some iri ∨
      ListsHref P root entry path := by
  cases h with
  | null =>
      cases hnames with
      | document _ _ child text hchild =>
          obtain ⟨ms, hms, -⟩ := hchild.values
          cases hms
  | text text _ hidentifier =>
      cases hnames with
      | text =>
          left
          rw [targetOf, hidentifier]
      | document _ _ child text hchild =>
          obtain ⟨ms, hms, -⟩ := hchild.values
          cases hms
  | embedded _ child hembedded hchild hnode hidentifier =>
      have hnode' := haccepted.accepted child (.single hembedded)
      obtain ⟨text, ⟨field, hfield, hname, hmem⟩, rfl⟩ :=
        (names_embedded hchild).mp hnames
      cases hvalue : field.value with
      | arr items =>
          right
          rw [hvalue] at hmem
          have hlink : isLink P child.type = true := by
            by_contra hlink
            rw [Bool.not_eq_true] at hlink
            rcases (name_value hnode' hfield hname).2 hlink with
              hnil | ⟨text', htext⟩
            · rw [hvalue] at hnil
              rw [hnil] at hmem
              cases hmem
            · rw [hvalue] at htext
              cases htext
          rw [nameProperty, if_pos hlink] at hname
          exact ⟨child, hchild, hlink, field, hfield, hname, items, text,
            hvalue, (List.mem_filter.mp hmem).1⟩
      | str value =>
          left
          rw [hvalue] at hmem
          obtain rfl := Json.str.inj (List.mem_singleton.mp hmem)
          rw [targetOf_embedded hchild hnode hidentifier,
            ownTarget_eq_some hvocabulary hnode' hchild.fields]
          exact ⟨field, hfield, hname, text, hvalue, rfl⟩
      | null =>
          rw [hvalue] at hmem
          cases hmem
      | _ =>
          rw [hvalue] at hmem
          cases List.mem_singleton.mp hmem

theorem Names.ne_null (h : Names P root entry path iri) : entry ≠ .null := by
  rintro rfl
  cases h with
  | document _ _ child text hchild =>
      obtain ⟨ms, hms, -⟩ := hchild.values
      cases hms

/-- A link with a list names an IRI, and the index has no target for it. -/
theorem Indexed.lost (hvocabulary : StandardVocabulary P)
    (haccepted : Accepted P document root)
    (h : Indexed P document root path entry)
    (hlists : ListsHref P root entry path) :
    targetOf (describedNodes P document) (describedNode P document root) path = none ∧
      ∃ iri, Names P root entry path iri := by
  obtain ⟨other, hother, hlink, field, hfield, hname, items, text, hvalue,
    hmem⟩ := hlists
  cases h with
  | null | text =>
      obtain ⟨ms, hms, -⟩ := hother.values
      cases hms
  | embedded _ child hembedded hchild hnode hidentifier =>
      obtain rfl := hother.unique hchild
      have hnode' := haccepted.accepted child (.single hembedded)
      have hname' : field.name = some (nameProperty P child.type) := by
        rw [nameProperty, if_pos hlink, hname]
      have hpresent : .str text ∈ presentValues field.value := by
        rw [hvalue]
        exact List.mem_filter.mpr ⟨hmem, rfl⟩
      refine ⟨?_, _, (names_embedded hchild).mpr
        ⟨text, ⟨field, hfield, hname', hpresent⟩, rfl⟩⟩
      rw [targetOf_embedded hchild hnode hidentifier]
      by_contra hsome
      obtain ⟨iri, hiri⟩ := Option.ne_none_iff_exists'.mp hsome
      obtain ⟨field', hfield', hspelled, text', hvalue', -⟩ :=
        (ownTarget_eq_some hvocabulary hnode' hchild.fields).mp hiri
      obtain rfl := name_field_unique hvocabulary hnode' hchild.fields hfield'
        hfield hspelled hname' (by simp [hvalue', presentValues])
        (List.ne_nil_of_mem hpresent)
      rw [hvalue] at hvalue'
      cases hvalue'

/-- The relation at a value other than null. -/
theorem Indexed.relation (h : Indexed P document root path entry)
    (property : JsString) (hne : entry ≠ .null) :
    ∃ representation,
      relationAt (describedNodes P document) (describedNode P document root)
        property path =
        some ⟨property, some path, representation,
          targetOf (describedNodes P document) (describedNode P document root) path⟩ := by
  cases h with
  | null => exact absurd rfl hne
  | text text hnode hidentifier =>
      refine ⟨.reference, ?_⟩
      rw [relationAt, hnode, targetOf, hidentifier]
      rfl
  | embedded _ child _ _ hnode =>
      rw [relationAt, hnode]
      exact ⟨_, rfl⟩

theorem Indexed.relation_null
    (h : Indexed P document root path .null) (property : JsString) :
    relationAt (describedNodes P document) (describedNode P document root)
        property path = none := by
  cases h with
  | null hnode _ hidentifier =>
      rw [relationAt, hnode, hidentifier]
      rfl
  | embedded _ child _ hchild =>
      obtain ⟨ms, hms, -⟩ := hchild.values
      cases hms

end Indexed

/-! ## Occurrences -/

section Occurrences

variable {property : JsString} {path : FieldPath} {position : ℕ}

theorem sources_described (node : Node Json) (property : JsString) :
    DocumentNode.sources (describedNode P document node) property =
      (suppliers node.fields property).map fun field => field.source := by
  rw [DocumentNode.sources, describedNode, assignProperty_properties]
  exact nodeProperties_lookup node.fields property

/-- The fields of an accepted root that spell an indexed property. -/
theorem mem_suppliers (haccepted : Accepted P document root)
    (hproperty : property ∈ indexedProperties) {field : Document.Field Json} :
    field ∈ suppliers root.fields property ↔
      field ∈ root.fields ∧ field.name = some property := by
  have htype : ∀ property ∈ indexedProperties, property ≠ js "type" := by
    decide
  rw [suppliers, List.mem_filter, Bool.and_eq_true, beq_iff_eq]
  refine and_congr_right fun hfield => ⟨fun h => h.1, fun hname => ⟨hname, ?_⟩⟩
  have hchecked : field ∈ root.checkedFields := mem_checkedFields.mpr
    ⟨hfield, by rw [hname]; simpa using htype property hproperty⟩
  exact compatible_of_quiet hname
    (haccepted.accepted root .refl field hchecked).quiet

/-- The occurrences of the values of one field. -/
def fieldOccurrences (root : Node Json) (field : Document.Field Json) :
    List (FieldPath × ℕ) :=
  if field.value = .null then []
  else (positionedEntries field.value
    (root.path ++ [.key field.source])).map Prod.snd

/-- In an indexable document, an indexed property has at most one spelling,
and the occurrences are those of its values. -/
theorem occurrences_cases (hdistinct : document.Distinct)
    (haccepted : Accepted P document root)
    (hproperty : property ∈ indexedProperties)
    (hsingle : (DocumentNode.sources (describedNode P document root)
      property).length ≤ 1) :
    (occurrences document (describedNode P document root) property = [] ∧
        ∀ field ∈ root.fields, field.name ≠ some property) ∨
      ∃ field ∈ root.fields, field.name = some property ∧
        (∀ other ∈ root.fields, other.name = some property → other = field) ∧
        occurrences document (describedNode P document root) property =
          fieldOccurrences root field := by
  have hroot := haccepted.nodeAt hdistinct .refl
  rw [sources_described] at hsingle
  unfold occurrences
  rw [sources_described]
  match hsuppliers : suppliers root.fields property, hsingle with
  | [], _ =>
      refine .inl ⟨rfl, fun field hfield hname => ?_⟩
      have hmem := (mem_suppliers haccepted hproperty).mpr ⟨hfield, hname⟩
      rw [hsuppliers] at hmem
      cases hmem
  | [field], _ =>
      have hmem : field ∈ suppliers root.fields property := by
        rw [hsuppliers]
        exact List.mem_cons_self
      obtain ⟨hfield, hname⟩ := (mem_suppliers haccepted hproperty).mp hmem
      refine .inr ⟨field, hfield, hname, fun other hother hsame => ?_, ?_⟩
      · have hmem' := (mem_suppliers haccepted hproperty).mpr ⟨hother, hsame⟩
        rw [hsuppliers] at hmem'
        exact List.mem_singleton.mp hmem'
      · have hvalue := hroot.get?_field hdistinct hfield
        rw [haccepted.root_path, List.nil_append] at hvalue
        have hmember : document.member? field.source = some field.value := by
          obtain ⟨ms, hms, -⟩ := hroot.values
          rw [haccepted.root_path, Json.get?_nil] at hms
          obtain rfl := Option.some.inj hms
          simpa [Json.get?_cons, Json.child?, Json.member?] using hvalue
        simp only [List.map_cons, List.map_nil, List.head?_cons, hmember]
        unfold fieldOccurrences
        rw [haccepted.root_path]
        cases field.value with
        | arr items =>
            rw [if_neg (by simp)]
            simp only [positionedEntries, List.map_map, List.nil_append]
            rw [List.range_eq_range', ← List.zipIdx_map_snd 0 items,
              List.map_map]
            rfl
        | null => rfl
        | _ =>
            rw [if_neg (by simp)]
            rfl
  | _ :: _ :: _, hsingle => simp at hsingle

theorem nodup_fieldOccurrences (field : Document.Field Json) :
    ((fieldOccurrences root field).map Prod.fst).Nodup ∧
      ((fieldOccurrences root field).map Prod.snd).Nodup := by
  unfold fieldOccurrences
  split
  next => exact ⟨List.nodup_nil, List.nodup_nil⟩
  next =>
    cases field.value with
    | arr items =>
        have hindexes : (items.zipIdx.map Prod.snd).Nodup := by
          rw [List.zipIdx_map_snd]
          exact List.nodup_range'
        simp only [positionedEntries, List.map_map]
        refine ⟨?_, hindexes⟩
        have hpaths := hindexes.map (f := fun i =>
          root.path ++ [.key field.source] ++ [Segment.index i])
          fun i j hij => by simpa using hij
        rwa [List.map_map] at hpaths
    | _ => exact ⟨List.nodup_singleton _, List.nodup_singleton _⟩

/-- The document passes the check that every indexed property has one
spelling. -/
theorem sources_of_checkIndexable (haccepts :
      (checkDocumentValue P Json.tree document).reporter.accepts = true)
    (haccepted : Accepted P document root)
    (hindexable : checkIndexable P document = [])
    (hproperty : property ∈ indexedProperties) :
    (DocumentNode.sources (describedNode P document root)
      property).length ≤ 1 := by
  unfold checkIndexable at hindexable
  rw [describeDocument_of_accepts haccepts, Option.bind_some,
    rootNode_described haccepted] at hindexable
  have hnone := List.flatMap_eq_nil_iff.mp hindexable property hproperty
  rw [List.map_eq_nil_iff, List.drop_eq_nil_iff] at hnone
  exact hnone

/-- An occurrence is one of a value. -/
theorem value_of_occurrence (hdistinct : document.Distinct)
    (haccepted : Accepted P document root)
    (hproperty : property ∈ indexedProperties)
    (hsingle : (DocumentNode.sources (describedNode P document root)
      property).length ≤ 1)
    (h : (path, position) ∈
      occurrences document (describedNode P document root) property) :
    ∃ entry, PropertyValue root property entry path position := by
  rcases occurrences_cases hdistinct haccepted hproperty hsingle with
    ⟨hnone, -⟩ | ⟨field, hfield, hname, -, hfield'⟩
  · rw [hnone] at h
    cases h
  · rw [hfield', fieldOccurrences] at h
    split at h
    next => cases h
    next =>
      obtain ⟨⟨entry, rest⟩, hentry, rfl⟩ := List.mem_map.mp h
      exact ⟨entry, field, hfield, hname, hentry⟩

/-- Every value other than null has an occurrence. -/
theorem occurrence_of_value (hdistinct : document.Distinct)
    (haccepted : Accepted P document root)
    (hproperty : property ∈ indexedProperties)
    (hsingle : (DocumentNode.sources (describedNode P document root)
      property).length ≤ 1) {entry : Json}
    (h : PropertyValue root property entry path position)
    (hne : entry ≠ .null) :
    (path, position) ∈
      occurrences document (describedNode P document root) property := by
  obtain ⟨field, hfield, hname, hentry⟩ := h
  rcases occurrences_cases hdistinct haccepted hproperty hsingle with
    ⟨-, hnone⟩ | ⟨other, -, -, hunique, hother⟩
  · exact absurd hname (hnone field hfield)
  · obtain rfl := hunique field hfield hname
    rw [hother, fieldOccurrences, if_neg]
    · exact List.mem_map_of_mem hentry
    · intro hnull
      rw [hnull] at hentry
      obtain ⟨rfl, -⟩ := Prod.mk.inj (List.mem_singleton.mp hentry)
      exact hne rfl

/-- A path is one of a single property. -/
theorem PropertyValue.property_eq (haccepted : Accepted P document root)
    {other : JsString} {entry entry' : Json} {position' : ℕ}
    (h : PropertyValue root property entry path position)
    (hother : PropertyValue root other entry' path position') :
    other = property := by
  have hsource : ∀ {field : Document.Field Json} {entry position},
      (entry, path, position) ∈ positionedEntries field.value
        (root.path ++ [.key field.source]) →
      path.head? = some (.key field.source) := by
    intro field entry position hentry
    rw [haccepted.root_path, List.nil_append] at hentry
    cases hvalue : field.value with
    | arr items =>
        rw [hvalue] at hentry
        obtain ⟨e, -, heq⟩ := List.mem_map.mp hentry
        obtain ⟨-, hrest⟩ := Prod.mk.inj heq
        obtain ⟨rfl, -⟩ := Prod.mk.inj hrest
        rfl
    | _ =>
        rw [hvalue] at hentry
        obtain ⟨-, hrest⟩ := Prod.mk.inj (List.mem_singleton.mp hentry)
        obtain ⟨rfl, -⟩ := Prod.mk.inj hrest
        rfl
  obtain ⟨field, hfield, hname, hentry⟩ := h
  obtain ⟨field', hfield', hname', hentry'⟩ := hother
  obtain ⟨findings, hread⟩ := haccepted.read
  have hnode := readNode_eq_some P hread
  have hsame := (hsource hentry).symm.trans (hsource hentry')
  have hsource' : field'.source = field.source :=
    (Segment.key.inj (Option.some.inj hsame)).symm
  obtain ⟨-, -, hresolve⟩ := hnode.field hfield
  obtain ⟨-, -, hresolve'⟩ := hnode.field hfield'
  rw [hsource', ← hresolve] at hresolve'
  rw [hresolve', hname] at hname'
  exact (Option.some.inj hname').symm

end Occurrences

/-! ## The index -/

/-- A document that validation accepts and that spells no indexed property
twice, with its root. -/
structure Indexable (P : Platform) (document : Json) (root : Node Json) :
    Prop where
  distinct : document.Distinct
  accepts : (checkDocumentValue P Json.tree document).reporter.accepts = true
  accepted : Accepted P document root
  indexable : checkIndexable P document = []

namespace Indexable

variable {property : JsString} {path : FieldPath} {position : ℕ}

theorem sources (h : Indexable P document root)
    (hproperty : property ∈ indexedProperties) :
    (DocumentNode.sources (describedNode P document root)
      property).length ≤ 1 :=
  sources_of_checkIndexable h.accepts h.accepted h.indexable hproperty

theorem value_of_occurrence (h : Indexable P document root)
    (hproperty : property ∈ indexedProperties)
    (hoccurrence : (path, position) ∈
      occurrences document (describedNode P document root) property) :
    ∃ entry, PropertyValue root property entry path position :=
  LocalWrite.value_of_occurrence h.distinct h.accepted hproperty
    (h.sources hproperty) hoccurrence

theorem occurrence_of_value (h : Indexable P document root)
    (hproperty : property ∈ indexedProperties) {entry : Json}
    (hvalue : PropertyValue root property entry path position)
    (hne : entry ≠ .null) :
    (path, position) ∈
      occurrences document (describedNode P document root) property :=
  LocalWrite.occurrence_of_value h.distinct h.accepted hproperty
    (h.sources hproperty) hvalue hne

theorem indexed (h : Indexable P document root)
    (hproperty : property ∈ indexedProperties) {entry : Json}
    (hvalue : PropertyValue root property entry path position) :
    Indexed P document root path entry :=
  indexed_propertyValue h.distinct h.accepted hproperty hvalue

theorem indexDocument_eq (h : Indexable P document root) :
    indexDocument P document =
      { addressing := addressingProperties.flatMap fun property =>
          (occurrences document (describedNode P document root)
            property).filterMap fun occurrence =>
              (targetOf (describedNodes P document) (describedNode P document root)
                occurrence.1).map fun iri => ⟨property, occurrence.2, iri⟩
        relations := relationProperties.flatMap fun property =>
          (occurrences document (describedNode P document root)
            property).filterMap fun occurrence =>
              relationAt (describedNodes P document) (describedNode P document root)
                property occurrence.1 } := by
  unfold indexDocument
  rw [describeDocument_of_accepts h.accepts, Option.getD_some]
  dsimp only
  rw [rootNode_described h.accepted]

theorem mem_addressing (h : Indexable P document root) {iri : JsString} :
    ⟨property, position, iri⟩ ∈ (indexDocument P document).addressing ↔
      property ∈ addressingProperties ∧ ∃ path, (path, position) ∈
        occurrences document (describedNode P document root) property ∧
        targetOf (describedNodes P document) (describedNode P document root) path =
          some iri := by
  rw [h.indexDocument_eq, List.mem_flatMap]
  constructor
  · rintro ⟨other, hother, hmem⟩
    obtain ⟨⟨path, i⟩, hoccurrence, hmap⟩ := List.mem_filterMap.mp hmem
    obtain ⟨target, htarget, heq⟩ := Option.map_eq_some_iff.mp hmap
    cases heq
    exact ⟨hother, path, hoccurrence, htarget⟩
  · rintro ⟨hproperty, path, hoccurrence, htarget⟩
    refine ⟨property, hproperty, List.mem_filterMap.mpr
      ⟨(path, position), hoccurrence, ?_⟩⟩
    rw [htarget]
    rfl

theorem mem_relations (h : Indexable P document root)
    {relation : RevisionRelationInput} :
    relation ∈ (indexDocument P document).relations ↔
      ∃ property ∈ relationProperties, ∃ path position, (path, position) ∈
        occurrences document (describedNode P document root) property ∧
        relationAt (describedNodes P document) (describedNode P document root)
          property path = some relation := by
  rw [h.indexDocument_eq, List.mem_flatMap]
  refine exists_congr fun property => and_congr_right fun _ => ?_
  rw [List.mem_filterMap]
  constructor
  · rintro ⟨⟨path, position⟩, hoccurrence, hrelation⟩
    exact ⟨path, position, hoccurrence, hrelation⟩
  · rintro ⟨path, position, hoccurrence, hrelation⟩
    exact ⟨(path, position), hoccurrence, hrelation⟩

/-- A relation is that of one value other than null. -/
theorem relation_value (h : Indexable P document root)
    {relation : RevisionRelationInput}
    (hmem : relation ∈ (indexDocument P document).relations) :
    relation.property ∈ relationProperties ∧ ∃ entry path position,
      relation.path = some path ∧ entry ≠ .null ∧
      PropertyValue root relation.property entry path position ∧
      relation.targetIri = targetOf (describedNodes P document)
        (describedNode P document root) path := by
  obtain ⟨property, hproperty, path, position, hoccurrence, hrelation⟩ :=
    h.mem_relations.mp hmem
  have hindexed : property ∈ indexedProperties :=
    List.mem_append_right _ hproperty
  obtain ⟨entry, hvalue⟩ := h.value_of_occurrence hindexed hoccurrence
  have hentry := h.indexed hindexed hvalue
  have hne : entry ≠ .null := by
    rintro rfl
    rw [hentry.relation_null property] at hrelation
    cases hrelation
  obtain ⟨representation, heq⟩ := hentry.relation property hne
  rw [hrelation] at heq
  obtain rfl := Option.some.inj heq
  exact ⟨hproperty, entry, path, position, rfl, hne, hvalue, rfl⟩

theorem occurrences_nodup (h : Indexable P document root)
    (hproperty : property ∈ indexedProperties) :
    ((occurrences document (describedNode P document root)
        property).map Prod.fst).Nodup ∧
      ((occurrences document (describedNode P document root)
        property).map Prod.snd).Nodup := by
  rcases occurrences_cases h.distinct h.accepted hproperty
    (h.sources hproperty) with ⟨hnone, -⟩ | ⟨field, -, -, -, hfield⟩
  · rw [hnone]
    exact ⟨List.nodup_nil, List.nodup_nil⟩
  · rw [hfield]
    exact nodup_fieldOccurrences field

theorem positions_nodup (h : Indexable P document root) :
    ((indexDocument P document).addressing.map fun occurrence =>
      (occurrence.property, occurrence.position)).Nodup := by
  rw [h.indexDocument_eq]
  refine ListSplit.nodup_map_flatMap (by decide) (fun property hproperty => ?_)
    ?_
  · have hpositions := (h.occurrences_nodup
      (List.mem_append_left relationProperties hproperty)).2
    refine ListSplit.nodup_map_filterMap (k := fun occurrence =>
      (property, occurrence.2)) ?_ ?_
    · intro occurrence row hrow
      obtain ⟨iri, -, rfl⟩ := Option.map_eq_some_iff.mp hrow
      rfl
    · have hmap := hpositions.map (f := fun i => (property, i))
        fun i j hij => (Prod.mk.inj hij).2
      rwa [List.map_map] at hmap
  · intro property _ other _ hne x hx y hy heq
    obtain ⟨occurrence, -, hrow⟩ := List.mem_filterMap.mp hx
    obtain ⟨occurrence', -, hrow'⟩ := List.mem_filterMap.mp hy
    obtain ⟨iri, -, rfl⟩ := Option.map_eq_some_iff.mp hrow
    obtain ⟨iri', -, rfl⟩ := Option.map_eq_some_iff.mp hrow'
    exact hne (Prod.mk.inj heq).1

theorem paths_nodup (h : Indexable P document root) :
    ((indexDocument P document).relations.map
      RevisionRelationInput.path).Nodup := by
  have hpath : ∀ {property path relation},
      relationAt (describedNodes P document) (describedNode P document root)
        property path = some relation → relation.path = some path := by
    intro property path relation hrelation
    unfold relationAt at hrelation
    split at hrelation
    · obtain ⟨iri, -, rfl⟩ := Option.map_eq_some_iff.mp hrelation
      rfl
    · obtain rfl := Option.some.inj hrelation
      rfl
  rw [h.indexDocument_eq]
  refine ListSplit.nodup_map_flatMap (by decide) (fun property hproperty => ?_)
    ?_
  · have hpaths := (h.occurrences_nodup
      (List.mem_append_right addressingProperties hproperty)).1
    refine ListSplit.nodup_map_filterMap (k := fun occurrence =>
      some occurrence.1) (fun occurrence relation => hpath) ?_
    have hmap := hpaths.map (f := some) fun p q hpq => Option.some.inj hpq
    rwa [List.map_map] at hmap
  · intro property hproperty other hother hne x hx y hy heq
    obtain ⟨occurrence, hoccurrence, hrow⟩ := List.mem_filterMap.mp hx
    obtain ⟨occurrence', hoccurrence', hrow'⟩ := List.mem_filterMap.mp hy
    rw [hpath hrow, hpath hrow'] at heq
    obtain ⟨entry, hvalue⟩ := h.value_of_occurrence
      (List.mem_append_right addressingProperties hproperty) hoccurrence
    obtain ⟨entry', hvalue'⟩ := h.value_of_occurrence
      (List.mem_append_right addressingProperties hother) hoccurrence'
    rw [← Option.some.inj heq] at hvalue'
    exact hne (hvalue.property_eq h.accepted hvalue').symm

/-- A value of the root is the only one at its path. -/
theorem value_unique (h : Indexable P document root) {other : JsString}
    {entry entry' : Json} {position' : ℕ}
    (hvalue : PropertyValue root property entry path position)
    (hvalue' : PropertyValue root other entry' path position') :
    entry' = entry := by
  have hget := get?_propertyValue h.distinct h.accepted hvalue
  rw [get?_propertyValue h.distinct h.accepted hvalue'] at hget
  exact Option.some.inj hget

/-- The index is exact when no value is a link with a list. -/
theorem indexesExactly (hvocabulary : StandardVocabulary P)
    (h : Indexable P document root)
    (hplain : ∀ property ∈ indexedProperties, ∀ entry path position,
      PropertyValue root property entry path position →
        ¬ListsHref P root entry path) :
    IndexesExactly P root (indexDocument P document) := by
  have htarget : ∀ {property entry path position},
      property ∈ indexedProperties →
      PropertyValue root property entry path position → ∀ iri,
      targetOf (describedNodes P document) (describedNode P document root)
        path = some iri ↔ Names P root entry path iri := by
    intro property entry path position hproperty hvalue iri
    have hentry := h.indexed hproperty hvalue
    refine ⟨hentry.sound hvocabulary h.accepted, fun hnames => ?_⟩
    exact (hentry.complete hvocabulary h.accepted hnames).resolve_right
      (hplain property hproperty entry path position hvalue)
  refine ⟨fun property position iri => ?_, h.positions_nodup,
    fun relation hmem => ?_, fun property path => ?_,
    fun relation hmem path hpath entry position hvalue => ?_, h.paths_nodup⟩
  · rw [h.mem_addressing]
    refine and_congr_right fun hproperty => ?_
    have hindexed : property ∈ indexedProperties :=
      List.mem_append_left _ hproperty
    constructor
    · rintro ⟨path, hoccurrence, htargetIri⟩
      obtain ⟨entry, hvalue⟩ := h.value_of_occurrence hindexed hoccurrence
      exact ⟨entry, path, hvalue, (htarget hindexed hvalue iri).mp htargetIri⟩
    · rintro ⟨entry, path, hvalue, hnames⟩
      refine ⟨path, h.occurrence_of_value hindexed hvalue hnames.ne_null,
        (htarget hindexed hvalue iri).mpr hnames⟩
  · obtain ⟨-, -, path, -, hpath, -⟩ := h.relation_value hmem
    exact ⟨path, hpath⟩
  · constructor
    · rintro ⟨relation, hmem, rfl, hpath⟩
      obtain ⟨hproperty, entry, path', position, hpath', hne, hvalue, -⟩ :=
        h.relation_value hmem
      rw [hpath] at hpath'
      obtain rfl := Option.some.inj hpath'
      exact ⟨hproperty, entry, position, hvalue, hne⟩
    · rintro ⟨hproperty, entry, position, hvalue, hne⟩
      have hindexed : property ∈ indexedProperties :=
        List.mem_append_right _ hproperty
      obtain ⟨representation, hrelation⟩ :=
        (h.indexed hindexed hvalue).relation property hne
      exact ⟨_, h.mem_relations.mpr ⟨property, hproperty, path, position,
        h.occurrence_of_value hindexed hvalue hne, hrelation⟩, rfl, rfl⟩
  · obtain ⟨hproperty, entry', path', position', hpath', -, hvalue',
      htargetIri⟩ := h.relation_value hmem
    rw [hpath] at hpath'
    obtain rfl := Option.some.inj hpath'
    obtain rfl := h.value_unique hvalue hvalue'
    rw [htargetIri]
    exact htarget (List.mem_append_right _ hproperty) hvalue'

/-- A link with a list is lost from the index. -/
theorem not_indexesExactly (hvocabulary : StandardVocabulary P)
    (h : Indexable P document root) {entry : Json}
    (hproperty : property ∈ indexedProperties)
    (hvalue : PropertyValue root property entry path position)
    (hlists : ListsHref P root entry path) :
    ¬IndexesExactly P root (indexDocument P document) := by
  intro hexact
  obtain ⟨hlost, iri, hnames⟩ :=
    (h.indexed hproperty hvalue).lost hvocabulary h.accepted hlists
  rcases List.mem_append.mp hproperty with haddressing | hrelation
  · obtain ⟨-, path', hoccurrence, htarget⟩ := h.mem_addressing.mp
      ((hexact.addressing property position iri).mpr
        ⟨haddressing, entry, path, hvalue, hnames⟩)
    have hsame := List.inj_on_of_nodup_map (h.occurrences_nodup hproperty).2
      (h.occurrence_of_value hproperty hvalue hnames.ne_null) hoccurrence rfl
    obtain rfl := (Prod.mk.inj hsame).1
    rw [hlost] at htarget
    cases htarget
  · obtain ⟨relation, hmem, rfl, hpath⟩ :=
      (hexact.relations property path).mpr
        ⟨hrelation, entry, position, hvalue, hnames.ne_null⟩
    have htarget := (hexact.targets relation hmem path hpath entry position
      hvalue iri).mpr hnames
    obtain ⟨-, entry', path', position', hpath', -, -, htarget'⟩ :=
      h.relation_value hmem
    rw [hpath] at hpath'
    obtain rfl := Option.some.inj hpath'
    rw [htarget', hlost] at htarget
    cases htarget

end Indexable

end Described

variable {P}

/-- The index of an accepted document is exact if and only if none of the
values that it covers is a link with its `href` in a list. -/
theorem indexDocument_exact (hvocabulary : StandardVocabulary P)
    (document : JsonDocument)
    (haccepts :
      (checkDocumentValue P Json.tree document.value).reporter.accepts = true)
    (hindexable : checkIndexable P document.value = []) :
    ∃ findings root, readNode P Json.tree document.value [] none none =
        (findings, some root) ∧
      (IndexesExactly P root (indexDocument P document.value) ↔
        ∀ property ∈ addressingProperties ++ relationProperties,
          ∀ entry path position,
            PropertyValue root property entry path position →
              ¬ListsHref P root entry path) := by
  obtain ⟨root, haccepted⟩ := exists_accepted P haccepts
  obtain ⟨findings, hread⟩ := haccepted.read
  have h : Indexable P document.value root :=
    ⟨document.distinct, haccepts, haccepted, hindexable⟩
  refine ⟨findings, root, hread, ?_, h.indexesExactly hvocabulary⟩
  intro hexact property hproperty entry path position hvalue hlists
  exact h.not_indexesExactly hvocabulary hproperty hvalue hlists hexact

end Platform

/-- A note with a recipient that is a link. -/
def linkedNote (href : Json) : List (JsString × Json) :=
  [(js "type", .str (js "Note")), (js "content", .str (js "hi")),
    (js "to", .arr [.null, .obj [(js "type", .str (js "Link")),
      (js "href", href)]])]

/-- The note with a plain link and an author. -/
def plainLinkNote : JsonDocument where
  value := .obj (linkedNote (.str (js "https://x.example/")) ++
    [(js "attributedTo", .str (js "https://y.example/"))])
  distinct := by decide

theorem indexDocument_exact_plainLinkNote :
    indexDocument reducedPlatform plainLinkNote.value =
        ⟨[⟨js "to", 1, js "https://x.example/"⟩],
          [⟨js "attributedTo", some [.key (js "attributedTo")], .reference,
            some (js "https://y.example/")⟩]⟩ ∧
      ∃ findings root, readNode reducedPlatform Json.tree plainLinkNote.value
          [] none none = (findings, some root) ∧
        (IndexesExactly reducedPlatform root
            (indexDocument reducedPlatform plainLinkNote.value) ↔
          ∀ property ∈ addressingProperties ++ relationProperties,
            ∀ entry path position,
              PropertyValue root property entry path position →
                ¬ListsHref reducedPlatform root entry path) :=
  ⟨by decide +kernel, indexDocument_exact standardVocabulary_reduced
    plainLinkNote (by decide +kernel) (by decide +kernel)⟩

/-- The note with a link that holds its `href` in a list. -/
def listedLinkNote : JsonDocument where
  value := .obj (linkedNote (.arr [.str (js "https://x.example/")]))
  distinct := by decide

/-- A node has a field with a name and a value. -/
def hasField (node : Node Json) (source name : JsString) (value : Json) :
    Bool :=
  node.fields.any fun field =>
    field.source == source && field.name == some name && field.value == value

theorem exists_field_of_hasField {node : Node Json} {source name : JsString}
    {value : Json} (h : hasField node source name value = true) :
    ∃ field ∈ node.fields, field.source = source ∧ field.name = some name ∧
      field.value = value := by
  obtain ⟨field, hfield, hmatches⟩ := List.any_eq_true.mp h
  simp only [Bool.and_eq_true, beq_iff_eq] at hmatches
  exact ⟨field, hfield, hmatches.1.1, hmatches.1.2, hmatches.2⟩

/-- Validation accepts the listed link, and the index has no occurrence for
the IRI that it names. -/
theorem listedLinkNote_not_indexed :
    (checkDocumentValue reducedPlatform Json.tree
        listedLinkNote.value).reporter.accepts = true ∧
      checkIndexable reducedPlatform listedLinkNote.value = [] ∧
      indexDocument reducedPlatform listedLinkNote.value = ⟨[], []⟩ ∧
      ∃ findings root, readNode reducedPlatform Json.tree listedLinkNote.value
          [] none none = (findings, some root) ∧
        ¬IndexesExactly reducedPlatform root
          (indexDocument reducedPlatform listedLinkNote.value) := by
  have haccepts : (checkDocumentValue reducedPlatform Json.tree
      listedLinkNote.value).reporter.accepts = true := by decide +kernel
  have hindexable : checkIndexable reducedPlatform listedLinkNote.value = [] := by
    decide +kernel
  refine ⟨haccepts, hindexable, by decide +kernel, ?_⟩
  obtain ⟨root, haccepted⟩ := exists_accepted reducedPlatform haccepts
  obtain ⟨findings, hread⟩ := haccepted.read
  have h : Indexable reducedPlatform listedLinkNote.value root :=
    ⟨listedLinkNote.distinct, haccepts, haccepted, hindexable⟩
  let link : Json := .obj [(js "type", .str (js "Link")),
    (js "href", .arr [.str (js "https://x.example/")])]
  have hroot : (readNode reducedPlatform Json.tree listedLinkNote.value []
      none none).2.map (fun node => (node.context,
        hasField node (js "to") (js "to") (.arr [.null, link]))) =
          some (reducedTerms, true) := by decide +kernel
  rw [hread, Option.map_some] at hroot
  obtain ⟨hcontext, hfield⟩ := Prod.mk.inj (Option.some.inj hroot)
  obtain ⟨field, hmem, hsource, hname, hvalue⟩ :=
    exists_field_of_hasField hfield
  let path : FieldPath := [.key (js "to"), .index 1]
  have hvalueAt : PropertyValue root (js "to") link path 1 := by
    refine ⟨field, hmem, hname, ?_⟩
    rw [hvalue, hsource, haccepted.root_path]
    exact List.mem_cons_of_mem _ List.mem_cons_self
  have hchild : (readNode reducedPlatform Json.tree link path
      (some reducedTerms) none).2.map (fun node =>
        (isLink reducedPlatform node.type, hasField node (js "href")
          (js "href") (.arr [.str (js "https://x.example/")]))) =
            some (true, true) := by decide +kernel
  obtain ⟨child, hsome, hfacts⟩ := Option.map_eq_some_iff.mp hchild
  obtain ⟨hlink, hhref⟩ := Prod.mk.inj hfacts
  obtain ⟨href, hhrefMem, -, hhrefName, hhrefValue⟩ :=
    exists_field_of_hasField hhref
  have hnode : NodeOf reducedPlatform link path (some root.context) child := by
    rw [hcontext]
    exact readNode_eq_some reducedPlatform (Prod.ext rfl hsome)
  exact ⟨findings, root, hread, h.not_indexesExactly standardVocabulary_reduced
    (by decide) hvalueAt ⟨child, hnode, hlink, href, hhrefMem, hhrefName, _, _,
      hhrefValue, List.mem_singleton.mpr rfl⟩⟩

end DrFed.LocalWrite
