import DrFed.Document.Excerpt

/-!
# What an excerpt says

The description of an excerpt, told by that of the document it was taken
from: the nodes that it keeps, with their types, kinds and properties, and
their identifiers together with the references put in place of documents.
-/

namespace DrFed.Document

/-! ## Entries of an amended value -/

theorem valueEntries_prepend (value : Json) (base path : FieldPath) :
    valueEntries value (base ++ path) =
      (valueEntries value path).map fun e => (e.1, base ++ e.2) := by
  cases value with
  | arr items => simp [valueEntries, Function.comp_def]
  | _ => rfl

theorem valueEntries_amendAt {ρ : Amendments}
    (hputs : ∀ q, ρ q = .keep ∨ ∃ text, ρ q = .put (.str text))
    {value : Json} {path : FieldPath}
    (hlist : ∀ items, value = .arr items → ρ path = .keep) :
    valueEntries (Json.amendAt ρ value path) path =
      (valueEntries value path).map fun e => (Json.amendAt ρ e.1 e.2, e.2) := by
  cases value with
  | arr items =>
      rw [Json.amendAt, hlist items rfl]
      exact valueEntries_amend_arr items path
  | _ =>
      rcases hputs path with hkeep | ⟨text, hput⟩
      · simp [Json.amendAt, hkeep, Json.amend, valueEntries]
      · simp [Json.amendAt, hput, valueEntries]

theorem amendAt_eq_str {ρ : Amendments} {entry : Json} {path : FieldPath}
    (hputs : ∀ q, ρ q = .keep ∨ ∃ text, ρ q = .put (.str text))
    {text : JsString} :
    Json.amendAt ρ entry path = .str text ↔
      (ρ path = .keep ∧ entry = .str text) ∨ ρ path = .put (.str text) := by
  rcases hputs path with hkeep | ⟨other, hput⟩
  · cases entry <;> simp [Json.amendAt, hkeep, Json.amend]
  · simp [Json.amendAt, hput]

/-- A document at `path` is held by one at `parent`. -/
def HeldAt (parent path : FieldPath) (key : JsString) : Prop :=
  path = parent ++ [.key key] ∨ ∃ i, path = parent ++ [.key key, .index i]

/-- The parent of a document and the key it is held by are told by its
path. -/
theorem HeldAt.unique {path parent other : FieldPath} {key key' : JsString}
    (h : HeldAt parent path key) (h' : HeldAt other path key') :
    parent = other ∧ key = key' := by
  have hsplit : ∀ (p : FieldPath) (k : JsString) (i : ℕ),
      p ++ [Segment.key k, .index i] = (p ++ [.key k]) ++ [.index i] := by simp
  rcases h with rfl | ⟨i, rfl⟩ <;> rcases h' with h' | ⟨j, h'⟩
  · obtain ⟨hparent, hkey⟩ := List.append_inj' h' rfl
    exact ⟨hparent, by simpa using hkey⟩
  · rw [hsplit] at h'
    simpa using (List.append_inj' h' rfl).2
  · rw [hsplit] at h'
    simpa using (List.append_inj' h' rfl).2
  · rw [hsplit, hsplit] at h'
    obtain ⟨hparent, hkey⟩ := List.append_inj' (List.append_inj' h' rfl).1 rfl
    exact ⟨hparent, by simpa using hkey⟩

theorem HeldAt.prepend {parent path : FieldPath} {key : JsString}
    (h : HeldAt parent path key) (base : FieldPath) :
    HeldAt (base ++ parent) (base ++ path) key := by
  rcases h with rfl | ⟨i, rfl⟩
  · exact .inl (by simp)
  · exact .inr ⟨i, by simp⟩

theorem heldAt_of_valueEntries {value entry : Json} {parent path : FieldPath}
    {key : JsString} (h : (entry, path) ∈ valueEntries value
      (parent ++ [.key key])) : HeldAt parent path key := by
  rcases valueEntries_path h with ⟨hpath, -⟩ | ⟨i, items, hpath, -⟩
  · exact .inl hpath
  · exact .inr ⟨i, by simp [hpath]⟩

section Platform

variable {P : Platform}

/-! ## The property of an embedded document -/

@[simp] theorem describedNode_path (document : Json) (node : Node Json) :
    (describedNode P document node).path = node.path :=
  assignProperty_path _ _

theorem NodeAt.field_name {document : Json} {node : Node Json}
    (h : NodeAt P document node) {field : Field Json}
    (hfield : field ∈ node.fields) :
    field.name = (resolveProperty P field.source node.context).name := by
  rw [h.fields, mem_readFields] at hfield
  obtain ⟨entry, -, -, rfl⟩ := hfield
  simp only [resolveProperty_source]

section Held

variable {document : Json} {root parent child : Node Json}
  (hdistinct : document.Distinct) (haccepted : Accepted P document root)

include hdistinct haccepted

theorem Accepted.embedded_property (hreach : Reaches P root parent)
    (h : Embedded P parent child) : ∃ key, HeldAt parent.path child.path key ∧
      (describedNode P document child).property =
        (resolveProperty P key parent.context).name := by
  obtain ⟨field, hfield, hheld⟩ := h
  obtain ⟨name, hname, hproperty⟩ := describedNode_property hdistinct haccepted
    hreach hfield hheld
  have hfieldName := (haccepted.nodeAt hdistinct hreach).field_name
    (mem_checkedFields.mp hfield).1
  exact ⟨field.source, HeldBy.path hheld,
    hproperty.trans (hname.symm.trans hfieldName)⟩

/-- A document held at a node is embedded in it. -/
theorem Accepted.embedded_of_heldAt (hreach : Reaches P root parent)
    (hchild : Reaches P root child) {key : JsString}
    (h : HeldAt parent.path child.path key) : Embedded P parent child := by
  rcases Relation.ReflTransGen.cases_tail hchild with
    rfl | ⟨other, hother, hembedded⟩
  · rw [haccepted.root_path] at h
    rcases h with h | ⟨i, h⟩ <;> simp at h
  · obtain ⟨key', hheld, -⟩ :=
      haccepted.embedded_property hdistinct hother hembedded
    rw [haccepted.reached_unique hdistinct hreach hother (h.unique hheld).1]
    exact hembedded

theorem Accepted.heldAt_property (hreach : Reaches P root parent)
    (hchild : Reaches P root child) {key : JsString}
    (h : HeldAt parent.path child.path key) :
    (describedNode P document child).property =
      (resolveProperty P key parent.context).name := by
  obtain ⟨key', hheld, hproperty⟩ := haccepted.embedded_property hdistinct
    hreach (haccepted.embedded_of_heldAt hdistinct hreach hchild h)
  rw [hproperty, (h.unique hheld).2]

end Held

/-! ## Descriptions of mirrored nodes -/

theorem nodeProperties_map {ι : Type} (f : Field ι → Field ι)
    (hf : ∀ field, (f field).toSourceProperty = field.toSourceProperty)
    (fields : List (Field ι)) :
    nodeProperties (fields.map f) = nodeProperties fields := by
  rw [nodeProperties, nodeProperties, List.foldl_map]
  refine congrArg (fun step => fields.foldl step []) ?_
  funext properties field
  rw [addSource, addSource, hf field]

/-- What the description of an excerpt says about a document, by the nodes
that describe the whole. -/
structure ShownAs (nodes : List DocumentNode) (base : FieldPath)
    (ρ : Amendments) (n shown : DocumentNode) : Prop where
  path : n.path = base ++ shown.path
  type : shown.type = n.type
  kind : shown.kind = n.kind
  properties : shown.properties = n.properties
  property : shown.path ≠ [] → shown.property = n.property
  identifiers : ∀ entry, entry ∈ shown.identifiers ↔
    { entry with path := base ++ entry.path } ∈ n.identifiers ∨
      (ρ entry.path = .put (.str entry.value) ∧ entry.iri = entry.value ∧
        ∃ child key, nodeAt nodes (base ++ entry.path) = some child ∧
          HeldAt n.path child.path key ∧
          child.property = some entry.property)

namespace Excerpt

variable {document excerpt : Json} {base : FieldPath} {ρ : Amendments}
  (h : Excerpt document base ρ excerpt) {root root' start : Node Json}
  (hdistinct : document.Distinct) (hdistinct' : excerpt.Distinct)
  (haccepted : Accepted P document root)
  (haccepted' : Accepted P excerpt root') (hstart : Reaches P root start)
  (hbase : start.path = base) (hcontext : root'.context = start.context)
  (hembedded : ∀ q, q ≠ [] → ρ q ≠ .keep →
    ∃ child, Reaches P root child ∧ child.path = base ++ q)
  (habsolute : ∀ q text, ρ q = .put (.str text) →
    ∀ context, expandIdentifier text context = text)

include h hdistinct hdistinct' haccepted haccepted' hstart hbase hcontext

theorem describes_property {node shown : Node Json}
    (hnode : Reaches P root node) (hshown : Reaches P root' shown)
    (hpath : node.path = base ++ shown.path) (hne : shown.path ≠ []) :
    (describedNode P excerpt shown).property =
      (describedNode P document node).property := by
  rcases Relation.ReflTransGen.cases_tail hshown with
    rfl | ⟨parent', hparent', hheld⟩
  · exact absurd haccepted'.root_path hne
  · obtain ⟨key, hat, hproperty⟩ :=
      haccepted'.embedded_property hdistinct' hparent' hheld
    obtain ⟨-, parent, hparent, hmirrors⟩ := h.node_of_shown hdistinct
      hdistinct' haccepted haccepted' hstart hbase hcontext hparent'
    have hat' : HeldAt parent.path node.path key := by
      rw [hmirrors.path, hpath]
      exact hat.prepend base
    rw [hproperty, haccepted.heldAt_property hdistinct hparent hnode hat',
      hmirrors.context]

omit hdistinct' haccepted' hstart hbase hcontext in
/-- The strings of a field of an excerpt: those of the field, and the
references in it. -/
theorem mem_shown_entries {node shown : Node Json}
    (hnode : Reaches P root node) (hpath : node.path = base ++ shown.path)
    {field : Field Json} (hfield : field ∈ node.fields) {text : JsString}
    {q : FieldPath} :
    (.str text, q) ∈ valueEntries (field.amended ρ shown.path).value
        (shown.path ++ [.key field.source]) ↔
      (.str text, base ++ q) ∈ valueEntries field.value
          (node.path ++ [.key field.source]) ∨
        ∃ ms, (.obj ms, base ++ q) ∈ valueEntries field.value
            (node.path ++ [.key field.source]) ∧ ρ q = .put (.str text) := by
  have hget := (haccepted.nodeAt hdistinct hnode).get?_field hdistinct hfield
  have hplace : node.path ++ [.key field.source] =
      base ++ (shown.path ++ [.key field.source]) := by
    rw [hpath, List.append_assoc]
  have hlist : ∀ items, field.value = .arr items →
      ρ (shown.path ++ [.key field.source]) = .keep := by
    intro items hitems
    refine (h.puts _).resolve_right ?_
    rintro ⟨-, -, ms, hobject⟩
    rw [← hplace, hget, hitems] at hobject
    cases hobject
  have hentries : ∀ entry p, (entry, base ++ p) ∈ valueEntries field.value
      (node.path ++ [.key field.source]) ↔ (entry, p) ∈ valueEntries
        field.value (shown.path ++ [.key field.source]) := by
    intro entry p
    rw [hplace, valueEntries_prepend, List.mem_map]
    constructor
    · rintro ⟨e, he, heq⟩
      obtain ⟨rfl, hp⟩ := Prod.mk.inj heq
      exact List.append_cancel_left hp ▸ he
    · exact fun he => ⟨_, he, rfl⟩
  have hobject : ∀ entry p, (entry, base ++ p) ∈ valueEntries field.value
      (node.path ++ [.key field.source]) → ρ p ≠ .keep →
        ∃ ms, entry = .obj ms := by
    intro entry p hentry hne
    obtain ⟨-, -, ms, hms⟩ := (h.puts p).resolve_left hne
    rw [get?_valueEntries hget hentry] at hms
    exact ⟨ms, Option.some.inj hms⟩
  rw [Field.amended, valueEntries_amendAt h.puts_text hlist, List.mem_map]
  constructor
  · rintro ⟨⟨entry, p⟩, hentry, heq⟩
    obtain ⟨hstr, rfl⟩ := Prod.mk.inj heq
    rw [← hentries] at hentry
    rcases (amendAt_eq_str h.puts_text).mp hstr with ⟨-, rfl⟩ | hput
    · exact .inl hentry
    · obtain ⟨ms, rfl⟩ := hobject entry p hentry (by simp [hput])
      exact .inr ⟨ms, hentry, hput⟩
  · rintro (hentry | ⟨ms, hentry, hput⟩)
    · have hkeep : ρ q = .keep := by
        by_contra hne
        obtain ⟨ms, hms⟩ := hobject _ _ hentry hne
        cases hms
      exact ⟨_, (hentries _ _).mp hentry, Prod.ext
        ((amendAt_eq_str h.puts_text).mpr (.inl ⟨hkeep, rfl⟩)) rfl⟩
    · exact ⟨_, (hentries _ _).mp hentry, Prod.ext
        ((amendAt_eq_str h.puts_text).mpr (.inr hput)) rfl⟩

include hembedded habsolute

omit hdistinct' haccepted' hstart hbase hcontext in
theorem mem_shown_identifiers {node shown : Node Json}
    (hnode : Reaches P root node)
    (hmirrors : Mirrors base ρ node shown) (entry : DocumentIdentifier) :
    entry ∈ (describeNode P shown).identifiers ↔
      { entry with path := base ++ entry.path } ∈
        (describeNode P node).identifiers ∨
      (ρ entry.path = .put (.str entry.value) ∧ entry.iri = entry.value ∧
        ∃ child key,
          nodeAt (describedNodes P document) (base ++ entry.path) =
            some child ∧
          HeldAt node.path child.path key ∧
          child.property = some entry.property) := by
  have hread := haccepted.nodeAt hdistinct hnode
  rw [mem_identifiers, mem_identifiers, hmirrors.fields, hmirrors.context]
  constructor
  · rintro ⟨field', hfield', name, text, q, hname, hcompatible, hlisted, hmem,
      rfl⟩
    obtain ⟨field, hfield, rfl⟩ := List.mem_map.mp hfield'
    rcases (h.mem_shown_entries hdistinct haccepted hnode hmirrors.path
      hfield).mp hmem with hmem | ⟨ms, hmem, hput⟩
    · exact .inl ⟨field, hfield, name, text, base ++ q, hname, hcompatible,
        hlisted, hmem, rfl⟩
    · have hheld := heldAt_of_valueEntries hmem
      have hne : q ≠ [] := by
        rintro rfl
        rcases hheld with heq | ⟨i, heq⟩ <;>
          simpa [hmirrors.path] using congrArg List.length heq
      obtain ⟨child, hchild, hpath⟩ := hembedded q hne (by simp [hput])
      refine .inr ⟨hput, habsolute q text hput _, describedNode P document child,
        field.source, ?_, ?_, ?_⟩
      · exact (nodeAt_eq_some hdistinct haccepted).mpr
          ⟨child, hchild, hpath, rfl⟩
      · rw [describedNode_path, hpath]
        exact hheld
      · rw [haccepted.heldAt_property hdistinct hnode hchild (hpath ▸ hheld),
          ← hread.field_name hfield]
        exact hname
  · rintro (⟨field, hfield, name, text, q, hname, hcompatible, hlisted, hmem,
      heq⟩ | ⟨hput, hiri, child, key, hchild, hheld, hproperty⟩)
    · obtain ⟨rfl, hq, rfl, hiri⟩ := DocumentIdentifier.mk.inj heq
      subst hq
      refine ⟨field.amended ρ shown.path, List.mem_map_of_mem hfield,
        entry.property, entry.value, entry.path, hname, hcompatible, hlisted,
        (h.mem_shown_entries hdistinct haccepted hnode hmirrors.path
          hfield).mpr (.inl hmem), ?_⟩
      rw [← hiri]
    · obtain ⟨found, hfound, hpath, rfl⟩ :=
        (nodeAt_eq_some hdistinct haccepted).mp hchild
      rw [describedNode_path] at hheld
      rw [haccepted.heldAt_property hdistinct hnode hfound hheld] at hproperty
      obtain ⟨field, hfield, hholds⟩ :=
        haccepted.embedded_of_heldAt hdistinct hnode hfound hheld
      obtain ⟨visits, name, range, hfollow, -⟩ := id hholds
      obtain ⟨hname, hcompatible, -⟩ := check_references P hfollow
      have hmem := (mem_checkedFields.mp hfield).1
      obtain ⟨value, hvalue, -⟩ := HeldBy.entry hholds
      obtain ⟨ms, hms⟩ := haccepted.get?_reached hdistinct hfound
      rw [get?_valueEntries (hread.get?_field hdistinct hmem) hvalue] at hms
      obtain rfl := Option.some.inj hms
      rw [← ((heldAt_of_valueEntries hvalue).unique hheld).2,
        ← hread.field_name hmem, hname] at hproperty
      obtain rfl := Option.some.inj hproperty
      refine ⟨field.amended ρ shown.path, List.mem_map_of_mem hmem,
        entry.property, entry.value, entry.path, hname, hcompatible, ?_,
        (h.mem_shown_entries hdistinct haccepted hnode hmirrors.path
          hmem).mpr (.inr ⟨ms, hpath ▸ hvalue, hput⟩), ?_⟩
      · have hnames := embeddingNames_of_embeds (check_references_embeds hfollow)
        have hall : ∀ n ∈ embeddingNames, identifierProperties.contains n =
            true := by decide +kernel
        exact hall _ hnames
      · rw [habsolute _ _ hput]
        exact congrArg (DocumentIdentifier.mk entry.property entry.path
          entry.value) hiri

/-- An excerpt describes the documents that it keeps as the whole does. -/
theorem describes {node shown : Node Json} (hnode : Reaches P root node)
    (hshown : Reaches P root' shown) (hpath : node.path = base ++ shown.path) :
    ShownAs (describedNodes P document) base ρ
      (describedNode P document node) (describedNode P excerpt shown) := by
  have hmirrors := h.mirrors_of_reached hdistinct hdistinct' haccepted
    haccepted' hstart hbase hcontext hnode hshown hpath
  have hidentifiers := h.mem_shown_identifiers hdistinct haccepted hembedded
    habsolute hnode hmirrors
  constructor
  · simpa [describedNode, describeNode] using hpath
  · simp [describedNode, describeNode, hmirrors.type]
  · simp [describedNode, describeNode, hmirrors.type]
  · simp only [describedNode, assignProperty_properties, describeNode,
      hmirrors.fields]
    exact nodeProperties_map (Field.amended ρ shown.path) (fun _ => rfl) _
  · intro hne
    rw [describedNode, assignProperty_path] at hne
    exact h.describes_property hdistinct hdistinct' haccepted haccepted' hstart
      hbase hcontext hnode hshown hpath hne
  · simpa [describedNode, describeNode] using hidentifiers

end Excerpt

/-! ## Owned values -/

theorem presentValues_of_semanticValues {ms : List (JsString × Json)}
    {context : Terms} {property key text : JsString} {value : Json}
    (hvalues : semanticValues P ms context property = [.str text])
    (hmem : (key, value) ∈ ms)
    (hname : (resolveProperty P key context).name = some property) :
    presentValues value = [] ∨ presentValues value = [.str text] := by
  have halias : (key, value) ∈ aliasesOf P ms context property :=
    (mem_aliasesOf P).mpr ⟨hmem, hname⟩
  have hsub : (presentValues value).Sublist
      (semanticValues P ms context property) := by
    rw [semanticValues, List.flatMap_def]
    exact List.sublist_flatten_of_mem
      (List.mem_map_of_mem (f := fun entry => presentValues entry.2) halias)
  rwa [hvalues, List.sublist_singleton] at hsub

theorem nodup_aliasesOf {ms : List (JsString × Json)}
    (hnodup : (ms.map Prod.fst).Nodup) (context : Terms) (property : JsString) :
    (aliasesOf P ms context property).Nodup :=
  (hnodup.of_map _).filter _

/-- The values of a property depend only on the members that spell it. -/
theorem semanticValues_congr {ms others : List (JsString × Json)}
    (hms : (ms.map Prod.fst).Nodup) (hothers : (others.map Prod.fst).Nodup)
    {context : Terms} {property : JsString}
    (h : ∀ key, (resolveProperty P key context).name = some property →
      others.lookup key = ms.lookup key) :
    (semanticValues P others context property).Perm
      (semanticValues P ms context property) := by
  apply List.Perm.flatMap_right
  refine (List.perm_ext_iff_of_nodup (nodup_aliasesOf hothers context property)
    (nodup_aliasesOf hms context property)).mpr ?_
  rintro ⟨key, value⟩
  rw [mem_aliasesOf, mem_aliasesOf]
  refine and_congr_left fun hname => ?_
  constructor
  · intro hmem
    have hlookup := AssocList.lookup_eq_some_of_mem hothers hmem
    exact AssocList.mem_of_lookup_eq_some (h key hname ▸ hlookup)
  · intro hmem
    have hlookup := AssocList.lookup_eq_some_of_mem hms hmem
    exact AssocList.mem_of_lookup_eq_some ((h key hname).trans hlookup)

namespace Excerpt

variable {document excerpt : Json} {base : FieldPath} {ρ : Amendments}
  (h : Excerpt document base ρ excerpt)

include h

/-- Nothing is replaced in a value without objects. -/
theorem amendAt_eq_self {q : FieldPath} {value : Json}
    (hget : document.get? (base ++ q) = some value)
    (hplain : ∀ rest ms, value.get? rest ≠ some (.obj ms)) :
    Json.amendAt ρ value q = value := by
  refine amendAt_of_keep (fun rest => ?_) value
  rcases h.puts (q ++ rest) with hkeep | ⟨text, -, ms, hobject⟩
  · exact hkeep
  · rw [← List.append_assoc, Json.get?_append, hget] at hobject
    exact absurd hobject (hplain rest ms)

/-- A member of the root of an excerpt under a key other than the context. -/
theorem lookup_root {ms fields : List (JsString × Json)}
    (hobject : document.get? base = some (.obj ms))
    (hfields : excerpt = .obj fields) {key : JsString}
    (hkey : key ≠ js "@context") :
    fields.lookup key =
      (ms.lookup key).map fun value => Json.amendAt ρ value [.key key] := by
  obtain ⟨ms', fields', hobject', hfields', hmembers⟩ := h.part
  rw [hobject'] at hobject
  obtain rfl := Json.obj.inj (Option.some.inj hobject)
  rw [hfields'] at hfields
  obtain rfl := Json.obj.inj hfields
  rw [hmembers key hkey]
  exact h.lookup_amended [] ms' key

/-- An excerpt carries the server-owned values of its root. -/
theorem owns (hdistinct : document.Distinct) (hdistinct' : excerpt.Distinct)
    {start root' : Node Json} (hstart : NodeAt P document start)
    (hbase : start.path = base) (hroot' : NodeAt P excerpt root')
    (hpath' : root'.path = []) (hcontext : root'.context = start.context)
    {key value : JsString} (howns : Owns P document ⟨base ++ [.key key], value⟩) :
    Owns P excerpt ⟨[.key key], value⟩ := by
  obtain ⟨property, hproperty, hvalues⟩ := howns
  have hparent : (⟨base ++ [.key key], value⟩ : ServerOwnedField).parent =
      base := by simp [ServerOwnedField.parent]
  have hsource : (⟨base ++ [.key key], value⟩ : ServerOwnedField).source =
      key := by simp [ServerOwnedField.source]
  have hread := hstart.context
  have hread' := hroot'.context
  rw [hbase] at hread
  rw [hpath', hcontext] at hread'
  obtain ⟨ms, fields, hobject, rfl, -⟩ := id h.part
  rw [ownedProperty, hparent, hsource, hread, Option.bind_some] at hproperty
  rw [hparent, propertyAt, hobject, hread] at hvalues
  have hvalues : semanticValues P ms start.context property = [.str value] :=
    Option.some.inj hvalues
  refine ⟨property, ?_, ?_⟩
  · show (contextAt P (.obj fields) [] none []).bind _ = _
    rw [hread']
    exact hproperty
  · show propertyAt P (.obj fields) [] property = _
    rw [propertyAt, Json.get?_nil, hread']
    have hms := (Json.distinct_obj.mp (hdistinct.get? hobject)).1
    have hsame : ∀ name, (resolveProperty P name start.context).name =
        some property → fields.lookup name = ms.lookup name := by
      intro name hname
      have hkey : name ≠ js "@context" := by
        rintro rfl
        rw [resolveProperty_context (hstart.wellFormed hdistinct)] at hname
        cases hname
      rw [h.lookup_root hobject rfl hkey]
      cases hbefore : ms.lookup name with
      | none => rfl
      | some before =>
          have hget : document.get? (base ++ [.key name]) = some before := by
            rw [Json.get?_concat, hobject]
            exact hbefore
          have hplain : ∀ rest ms, before.get? rest ≠ some (.obj ms) := by
            rcases presentValues_of_semanticValues hvalues
              (AssocList.mem_of_lookup_eq_some hbefore) hname with hnil | htext
            · exact fun rest ms => get?_of_presentValues_nil hnil
            · exact get?_of_presentValues_text htext
          exact congrArg some (h.amendAt_eq_self hget hplain)
    have hperm :=
      semanticValues_congr hms (Json.distinct_obj.mp hdistinct').1 hsame
    rw [hvalues] at hperm
    exact congrArg some (List.perm_singleton.mp hperm)

end Excerpt

end Platform

end DrFed.Document
