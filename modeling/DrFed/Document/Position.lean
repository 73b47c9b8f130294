import DrFed.Document.Fields
import DrFed.Document.Sweep

/-!
# Contexts by position

The context in force at a position of a document, read along the path to it,
without any of the checks.  The documents that an accepted walk has visited
are at such positions, with exactly these contexts, so a path determines what
was read there.
-/

namespace DrFed.Document

section Platform

variable (P : Platform)

/-- The context of the members of an object at a path, given the one it
inherits. -/
def ownContext (ms : List (JsString × Json)) (path : FieldPath)
    (inherited : Option Terms) : Option Terms :=
  (checkContext P Json.tree (ownProperties ms) path inherited).2

/-- The context in force for the object that `rest` leads to from a value at
`path`.  Every object on the way applies its own context; lists hand it
down. -/
def contextAt (value : Json) (path : FieldPath) (inherited : Option Terms)
    (rest : FieldPath) : Option Terms :=
  match rest with
  | [] =>
      match value with
      | .obj ms => ownContext P ms path inherited
      | _ => none
  | segment :: rest =>
      let below := fun context =>
        (value.child? segment).bind fun child =>
          contextAt child (path ++ [segment]) context rest
      match value with
      | .obj ms =>
          (ownContext P ms path inherited).bind fun context =>
            below (some context)
      | .arr _ => below inherited
      | _ => none

section Steps

variable {value : Json} {path : FieldPath} {inherited : Option Terms}

/-- From an object whose context is known, the context below one of its
members. -/
theorem contextAt_append_key {p : FieldPath} {ms : List (JsString × Json)}
    {context : Terms} (hget : value.get? p = some (.obj ms))
    (hcontext : contextAt P value path inherited p = some context)
    (key : JsString) (rest : FieldPath) :
    contextAt P value path inherited (p ++ .key key :: rest) =
      (ms.lookup key).bind fun child =>
        contextAt P child (path ++ p ++ [.key key]) (some context) rest := by
  induction p generalizing value path inherited with
  | nil =>
      rw [Json.get?_nil] at hget
      obtain rfl := Option.some.inj hget
      simp only [contextAt] at hcontext
      simp [contextAt, hcontext, Json.child?]
  | cons segment p ih =>
      rw [Json.get?_cons] at hget
      obtain ⟨child, hchild, hrest⟩ := Option.bind_eq_some_iff.mp hget
      have hpath : path ++ segment :: p = path ++ [segment] ++ p := by simp
      rw [List.cons_append, hpath]
      cases value with
      | obj fields =>
          simp only [contextAt] at hcontext ⊢
          obtain ⟨own, hown, hbelow⟩ := Option.bind_eq_some_iff.mp hcontext
          rw [hown]
          simp only [Option.bind_some, hchild] at hbelow ⊢
          exact ih hrest hbelow
      | arr items =>
          simp only [contextAt, hchild, Option.bind_some] at hcontext ⊢
          exact ih hrest hcontext
      | _ => cases hchild

/-- The context of an entry of a member: the member itself, or an item of the
list that it is. -/
theorem contextAt_valueEntries {p q : FieldPath}
    {ms : List (JsString × Json)} {context : Terms}
    (hget : value.get? p = some (.obj ms))
    (hcontext : contextAt P value [] inherited p = some context)
    {key : JsString} {member entry : Json} (hmember : ms.lookup key = some member)
    (hentry : (entry, q) ∈ valueEntries member (p ++ [.key key]))
    {fields : List (JsString × Json)} (hobject : entry = .obj fields) :
    value.get? q = some entry ∧
      contextAt P value [] inherited q =
        ownContext P fields q (some context) := by
  subst hobject
  have hkey : value.get? (p ++ [.key key]) = some member := by
    rw [Json.get?_concat, hget]
    exact hmember
  cases member with
  | arr items =>
      simp only [valueEntries, List.mem_map] at hentry
      obtain ⟨⟨item, i⟩, hmem, heq⟩ := hentry
      obtain ⟨rfl, rfl⟩ := Prod.mk.inj heq
      have hitem : items[i]? = some (.obj fields) := by
        simpa [List.mem_zipIdx_iff_getElem?] using hmem
      constructor
      · rw [Json.get?_concat, hkey]
        exact hitem
      · rw [List.append_assoc, List.singleton_append,
          contextAt_append_key P hget hcontext, hmember]
        simp [contextAt, Json.child?, hitem]
  | obj members =>
      simp only [valueEntries, List.mem_singleton, Prod.mk.injEq,
        Json.obj.injEq] at hentry
      obtain ⟨rfl, rfl⟩ := hentry
      refine ⟨hkey, ?_⟩
      rw [contextAt_append_key P hget hcontext, hmember]
      simp [contextAt]
  | _ => simp [valueEntries] at hentry

theorem ownContext_wellFormed {ms : List (JsString × Json)} {own : Terms}
    (hdistinct : (Json.obj ms).Distinct)
    (hinherited : ∀ terms, inherited = some terms →
      WellFormedTerms P.toRuntime terms)
    (h : ownContext P ms path inherited = some own) :
    WellFormedTerms P.toRuntime own := by
  rw [Json.distinct_obj] at hdistinct
  exact checkContext_wellFormed
    (fun entry hentry => hdistinct.2 entry (mem_ownProperties.mp hentry))
    hinherited h

theorem contextAt_wellFormed {p : FieldPath} {context : Terms}
    (hdistinct : value.Distinct)
    (hinherited : ∀ terms, inherited = some terms →
      WellFormedTerms P.toRuntime terms)
    (h : contextAt P value path inherited p = some context) :
    WellFormedTerms P.toRuntime context := by
  induction p generalizing value path inherited with
  | nil =>
      cases value with
      | obj ms => exact ownContext_wellFormed P hdistinct hinherited h
      | _ => simp [contextAt] at h
  | cons segment p ih =>
      cases value with
      | obj ms =>
          simp only [contextAt] at h
          obtain ⟨own, hown, hbelow⟩ := Option.bind_eq_some_iff.mp h
          obtain ⟨child, hchild, hrest⟩ := Option.bind_eq_some_iff.mp hbelow
          have hwf := ownContext_wellFormed P hdistinct hinherited hown
          exact ih (hdistinct.child? hchild)
            (fun terms hterms => Option.some.inj hterms ▸ hwf) hrest
      | arr items =>
          simp only [contextAt] at h
          obtain ⟨child, hchild, hrest⟩ := Option.bind_eq_some_iff.mp h
          exact ih (hdistinct.child? hchild) hinherited hrest
      | _ => simp [contextAt] at h

end Steps

/-! ## What a context depends on -/

theorem checkContext_congr {values others : List (JsString × Json)}
    (h : values.lookup (js "@context") = others.lookup (js "@context"))
    (path : FieldPath) (inherited : Option Terms) :
    checkContext P Json.tree values path inherited =
      checkContext P Json.tree others path inherited := by
  unfold checkContext
  rw [h]

/-- Two values read alike along a path: the same labels on the way, and the
same context in every object there. -/
structure ReadsAlike (value other : Json) (p : FieldPath) : Prop where
  label : ∀ q, q <+: p →
    (other.get? q).map Json.label = (value.get? q).map Json.label
  context : ∀ q ms, q <+: p → value.get? q = some (.obj ms) →
    other.get? (q ++ [.key (js "@context")]) =
      value.get? (q ++ [.key (js "@context")])

theorem ReadsAlike.child {value other : Json} {segment : Segment}
    {p : FieldPath} (h : ReadsAlike value other (segment :: p))
    {child child' : Json} (hchild : value.child? segment = some child)
    (hchild' : other.child? segment = some child') :
    ReadsAlike child child' p := by
  have hget : ∀ q, value.get? (segment :: q) = child.get? q := by
    intro q
    rw [Json.get?_cons, hchild, Option.bind_some]
  have hget' : ∀ q, other.get? (segment :: q) = child'.get? q := by
    intro q
    rw [Json.get?_cons, hchild', Option.bind_some]
  constructor
  · intro q hq
    rw [← hget, ← hget']
    exact h.label _ ((List.prefix_cons_inj segment).mpr hq)
  · intro q ms hq hobj
    rw [← hget, ← hget']
    exact h.context (segment :: q) ms ((List.prefix_cons_inj segment).mpr hq)
      (hget q ▸ hobj)

theorem ReadsAlike.ownContext {ms fields : List (JsString × Json)}
    {p : FieldPath} (h : ReadsAlike (.obj ms) (.obj fields) p)
    (hvalue : (Json.obj ms).Distinct) (hother : (Json.obj fields).Distinct)
    (path : FieldPath) (inherited : Option Terms) :
    ownContext P fields path inherited = ownContext P ms path inherited := by
  have hroot := h.context [] ms List.nil_prefix (by simp)
  rw [Json.distinct_obj] at hvalue hother
  unfold Document.ownContext
  rw [checkContext_congr]
  rw [lookup_ownProperties hvalue.1, lookup_ownProperties hother.1]
  simpa [Json.get?_cons, Json.child?] using hroot

/-- The context at a path depends only on what is read along it. -/
theorem ReadsAlike.contextAt {value other : Json} {p : FieldPath}
    (h : ReadsAlike value other p) (hvalue : value.Distinct)
    (hother : other.Distinct) (path : FieldPath) (inherited : Option Terms) :
    contextAt P other path inherited p = contextAt P value path inherited p := by
  have hroot := h.label [] List.nil_prefix
  simp only [Json.get?_nil, Option.map_some, Option.some.injEq] at hroot
  induction p generalizing value other path inherited with
  | nil =>
      cases value with
      | obj ms =>
          obtain ⟨fields, rfl⟩ := Json.label_eq_obj hroot
          exact h.ownContext P hvalue hother path inherited
      | _ => cases other <;> simp_all [Document.contextAt, Json.label]
  | cons segment p ih =>
      have hbelow : ∀ inherited,
          ((other.child? segment).bind fun child =>
            Document.contextAt P child (path ++ [segment]) inherited p) =
          (value.child? segment).bind fun child =>
            Document.contextAt P child (path ++ [segment]) inherited p := by
        intro inherited
        have hlabel := h.label [segment] (by simp)
        simp only [Json.get?_cons, Json.get?_nil, Option.bind_fun_some]
          at hlabel
        cases hchild : value.child? segment with
        | none =>
            rw [hchild, Option.map_none, Option.map_eq_none_iff] at hlabel
            rw [hlabel]
        | some child =>
            rw [hchild, Option.map_some] at hlabel
            obtain ⟨child', hchild', hlabel'⟩ :=
              Option.map_eq_some_iff.mp hlabel
            rw [hchild']
            exact ih (h.child hchild hchild') (hvalue.child? hchild)
              (hother.child? hchild') _ _ hlabel'
      cases value with
      | obj ms =>
          obtain ⟨fields, rfl⟩ := Json.label_eq_obj hroot
          simp only [Document.contextAt, hbelow,
            h.ownContext P hvalue hother path inherited]
      | arr items =>
          cases other with
          | arr others => simp only [Document.contextAt, hbelow]
          | _ => cases hroot
      | _ => cases other <;> simp_all [Document.contextAt, Json.label]

/-! ## Visited documents -/

/-- A node is what the document holds at its path. -/
structure NodeAt (document : Json) (node : Node Json) : Prop where
  values : ∃ ms, document.get? node.path = some (.obj ms) ∧
    node.values = ownProperties ms
  context : contextAt P document [] none node.path = some node.context
  fields : node.fields = readFields P node.values node.context
  type : checkDocumentType P Json.tree node.values node.fields node.path
    node.context = .ok node.type
  outside : .key (js "@context") ∉ node.path

variable {P}

theorem NodeOf.nodeAt_root {document : Json} {root : Node Json}
    (h : NodeOf P document [] none root) : NodeAt P document root := by
  obtain ⟨ms, rfl, hvalues⟩ := h.values
  obtain ⟨findings, hcontext⟩ := h.context
  have hpath := h.path_eq
  constructor
  · exact ⟨ms, by rw [hpath, Json.get?_nil], hvalues⟩
  · rw [hpath]
    simp only [contextAt, ownContext, ← hvalues]
    rw [hcontext]
  · exact h.fields
  · rw [hpath]
    exact h.type
  · simp [hpath]

theorem NodeAt.nodup {document : Json} (hdistinct : document.Distinct)
    {node : Node Json} (h : NodeAt P document node) :
    (node.values.map Prod.fst).Nodup := by
  obtain ⟨ms, hget, hvalues⟩ := h.values
  have := hdistinct.get? hget
  rw [Json.distinct_obj] at this
  rw [hvalues]
  exact nodup_ownProperties this.1

theorem NodeAt.wellFormed {document : Json} (hdistinct : document.Distinct)
    {node : Node Json} (h : NodeAt P document node) :
    WellFormedTerms P.toRuntime node.context :=
  contextAt_wellFormed P hdistinct (by simp) h.context

/-- An embedded document of a node is at its own position. -/
theorem NodeAt.embedded {document : Json} (hdistinct : document.Distinct)
    {parent child : Node Json} (h : NodeAt P document parent)
    (hembedded : Embedded P parent child) : NodeAt P document child := by
  obtain ⟨field, hfield, entry, path, hentry, hnode⟩ :=
    embedded_entry P hembedded
  obtain ⟨ms, hget, hvalues⟩ := h.values
  obtain ⟨fields, hobject, hchildValues⟩ := hnode.values
  obtain ⟨findings, hchildContext⟩ := hnode.context
  have hmem := (mem_checkedFields.mp hfield).1
  rw [h.fields, mem_readFields] at hmem
  obtain ⟨⟨key, member⟩, hmember, hne, rfl⟩ := hmem
  have hlookup : ms.lookup key = some member := by
    have hnodup := hdistinct.get? hget
    rw [Json.distinct_obj] at hnodup
    rw [hvalues, mem_ownProperties] at hmember
    exact AssocList.lookup_eq_some_of_mem hnodup.1 hmember
  simp only [resolveProperty_source] at hentry
  obtain ⟨hvalue, hcontext⟩ := contextAt_valueEntries P hget h.context hlookup
    hentry hobject
  have hpath := hnode.path_eq
  constructor
  · exact ⟨fields, by rw [hpath, hvalue, hobject], hchildValues⟩
  · rw [hpath, hcontext, ownContext, ← hchildValues, hchildContext]
  · exact hnode.fields
  · rw [hpath]
    exact hnode.type
  · have houtside := h.outside
    rw [hpath]
    have hkey : Segment.key (js "@context") ≠ .key key :=
      fun heq => hne (Segment.key.inj heq).symm
    cases member with
    | arr items =>
        simp only [valueEntries, List.mem_map] at hentry
        obtain ⟨⟨item, i⟩, -, heq⟩ := hentry
        obtain ⟨-, rfl⟩ := Prod.mk.inj heq
        simp [houtside, hkey]
    | _ =>
        simp only [valueEntries, List.mem_singleton, Prod.mk.injEq] at hentry
        simp [hentry.2, houtside, hkey]

theorem NodeAt.reaches {document : Json} (hdistinct : document.Distinct)
    {root node : Node Json} (h : NodeAt P document root)
    (hreach : Reaches P root node) : NodeAt P document node := by
  induction hreach with
  | refl => exact h
  | tail _ hembedded ih => exact ih.embedded hdistinct hembedded

/-- Every document that an accepted walk visits is at its own position. -/
theorem Accepted.nodeAt {document : Json} (hdistinct : document.Distinct)
    {root node : Node Json} (h : Accepted P document root)
    (hreach : Reaches P root node) : NodeAt P document node := by
  obtain ⟨findings, hread⟩ := h.read
  exact (readNode_eq_some P hread).nodeAt_root.reaches hdistinct hreach

/-- A path determines the document that was read there. -/
theorem NodeAt.unique {document : Json} {node other : Node Json}
    (h : NodeAt P document node) (hother : NodeAt P document other)
    (hpath : node.path = other.path) : node = other := by
  obtain ⟨ms, hget, hvalues⟩ := h.values
  obtain ⟨ms', hget', hvalues'⟩ := hother.values
  have hms : ms = ms' := by
    rw [hpath, hget'] at hget
    exact (Json.obj.inj (Option.some.inj hget)).symm
  have hcontext : node.context = other.context := by
    have h₁ := h.context
    rw [hpath, hother.context] at h₁
    exact (Option.some.inj h₁).symm
  have hval : node.values = other.values := by rw [hvalues, hvalues', hms]
  have hfields : node.fields = other.fields := by
    rw [h.fields, hother.fields, hval, hcontext]
  have htype : node.type = other.type := by
    have h₁ := h.type
    rw [hval, hfields, hpath, hcontext, hother.type] at h₁
    exact (Except.ok.inj h₁).symm
  obtain ⟨values, path, context, type, fields⟩ := node
  obtain ⟨values', path', context', type', fields'⟩ := other
  simp_all

end Platform

end DrFed.Document
