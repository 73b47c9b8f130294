import DrFed.Document.Embedding

/-!
# Where embedded documents are

A position of an accepted document holds an embedded document exactly when an
object stands there under a property for documents.  Documents that agree on
types, contexts and objects therefore embed documents at the same positions.
-/

namespace DrFed.Document

section Platform

variable {P : Platform}

theorem check_references_embeds {node : Node Json} {field : Field Json}
    {visits : List (Visit Json)} {key : JsString}
    {range : Option (List VocabularyType)}
    (h : (node.check P Json.tree field).2 = .references visits key range) :
    EmbedsDocuments P node.type key := by
  unfold Node.check checkField at h
  dsimp only at h
  split at h
  · split at h <;> cases h
  · unfold checkNamedField at h
    split at h
    · cases h
    · split at h
      · split at h <;> cases h
      · dsimp only at h
        split at h
        · cases h
        · unfold checkValueRules at h
          dsimp only at h
          split at h
          · cases h
          · split at h
            · cases h
            · split at h
              · cases h
              · split at h
                · cases h
                · split at h
                  next hrange =>
                    cases h
                    exact .inr hrange
                  · split at h
                    next hreference =>
                      cases h
                      exact .inl hreference
                    · cases h

variable (P) in
/-- A position at which a property of a node would hold a document. -/
def EmbedsAt (node : Node Json) (q : FieldPath) : Prop :=
  ∃ key name, key ≠ js "@context" ∧
    (resolveProperty P key node.context).name = some name ∧
    EmbedsDocuments P node.type name ∧
    (q = node.path ++ [.key key] ∨
      ∃ i, q = node.path ++ [.key key, .index i])

/-- The positions of a node depend on its type and context. -/
theorem EmbedsAt.congr {node other : Node Json} {p q : FieldPath}
    (h : EmbedsAt P node (p ++ q)) (hpath : node.path = p ++ other.path)
    (hcontext : other.context = node.context)
    (htype : other.type = node.type) : EmbedsAt P other q := by
  obtain ⟨key, name, hkey, hname, hembeds, hq⟩ := h
  refine ⟨key, name, hkey, hcontext ▸ hname, htype ▸ hembeds, ?_⟩
  rw [hpath] at hq
  simpa only [List.append_assoc, List.append_cancel_left_eq] using hq

theorem EmbedsAt.prepend {node other : Node Json} {p q : FieldPath}
    (h : EmbedsAt P other q) (hpath : node.path = p ++ other.path)
    (hcontext : other.context = node.context)
    (htype : other.type = node.type) : EmbedsAt P node (p ++ q) := by
  obtain ⟨key, name, hkey, hname, hembeds, hq⟩ := h
  refine ⟨key, name, hkey, hcontext ▸ hname, htype ▸ hembeds, ?_⟩
  rw [hpath]
  simpa only [List.append_assoc, List.append_cancel_left_eq] using hq

section Accepted

variable {document : Json} {root node : Node Json}
  (hdistinct : document.Distinct) (haccepted : Accepted P document root)
  (hreach : Reaches P root node)

include hdistinct haccepted hreach

theorem Accepted.embedsAt {child : Node Json} (h : Embedded P node child) :
    EmbedsAt P node child.path := by
  obtain ⟨field, hfield, hheld⟩ := h
  obtain ⟨visits, key, range, hfollow, -⟩ := id hheld
  obtain ⟨hname, -, -⟩ := check_references P hfollow
  have hnode := haccepted.nodeAt hdistinct hreach
  have hmem := (mem_checkedFields.mp hfield).1
  rw [hnode.fields, mem_readFields] at hmem
  obtain ⟨entry, -, hcontext, rfl⟩ := hmem
  refine ⟨entry.1, key, hcontext, hname, check_references_embeds hfollow, ?_⟩
  simpa only [resolveProperty_source] using HeldBy.path hheld

theorem Accepted.get?_reached : ∃ ms,
    document.get? node.path = some (.obj ms) :=
  (haccepted.nodeAt hdistinct hreach).get?

omit haccepted hreach in
/-- The member of a node that holds an embedded object. -/
theorem NodeAt.exists_member (hnode : NodeAt P document node)
    {key : JsString} {q : FieldPath}
    (hq : q = node.path ++ [.key key] ∨
      ∃ i, q = node.path ++ [.key key, .index i])
    {ms : List (JsString × Json)} (hobject : document.get? q = some (.obj ms)) :
    ∃ value, (key, value) ∈ node.values ∧
      (.obj ms, q) ∈ valueEntries value (node.path ++ [.key key]) := by
  rcases hq with rfl | ⟨i, rfl⟩
  · exact ⟨.obj ms, (mem_target hdistinct hnode).mp hobject,
      List.mem_singleton_self _⟩
  · have hsplit : node.path ++ [Segment.key key, .index i] =
        (node.path ++ [.key key]) ++ [.index i] := by simp
    rw [hsplit, Json.get?_concat] at hobject
    obtain ⟨value, hvalue, hitem⟩ := Option.bind_eq_some_iff.mp hobject
    refine ⟨value, (mem_target hdistinct hnode).mp hvalue, ?_⟩
    cases value with
    | arr items =>
        simp only [valueEntries, List.mem_map]
        exact ⟨(.obj ms, i), List.mem_zipIdx_iff_getElem?.mpr hitem,
          by rw [hsplit]⟩
    | _ => cases hitem

/-- An object under a property for documents is an embedded document. -/
theorem Accepted.exists_reached {q : FieldPath} (h : EmbedsAt P node q)
    {ms : List (JsString × Json)} (hobject : document.get? q = some (.obj ms)) :
    ∃ child, Reaches P root child ∧ child.path = q := by
  obtain ⟨key, name, hkey, hname, hembeds, hq⟩ := h
  have hnode := haccepted.nodeAt hdistinct hreach
  obtain ⟨value, hvalue, hentry⟩ := hnode.exists_member hdistinct hq hobject
  have hfield : (⟨resolveProperty P key node.context, value⟩ : Field Json) ∈
      node.fields := by
    rw [hnode.fields, mem_readFields]
    exact ⟨(key, value), hvalue, hkey, rfl⟩
  obtain ⟨child, hvisited, hpath⟩ := exists_visited haccepted hreach hfield
    hname hembeds (by simpa only [resolveProperty_source] using hentry)
  exact ⟨child, (haccepted.visited child).mp hvisited, hpath⟩

omit haccepted hreach in
/-- An embedded object reads its context over that of the node. -/
theorem NodeAt.contextAt_embedded (hnode : NodeAt P document node)
    {q : FieldPath} (h : EmbedsAt P node q) {ms : List (JsString × Json)}
    (hobject : document.get? q = some (.obj ms)) :
    contextAt P document [] none q = ownContext P ms q (some node.context) := by
  obtain ⟨key, name, -, -, -, hq⟩ := h
  obtain ⟨value, hvalue, hentry⟩ := hnode.exists_member hdistinct hq hobject
  obtain ⟨fields, hfields, hvalues⟩ := hnode.values
  rw [hvalues, mem_ownProperties] at hvalue
  exact (contextAt_valueEntries P hfields hnode.context
    (AssocList.lookup_eq_some_of_mem
      (Json.distinct_obj.mp (hdistinct.get? hfields)).1 hvalue) hentry rfl).2

end Accepted

/-- One node is reached at a path. -/
theorem Accepted.reached_unique {document : Json} {root node other : Node Json}
    (hdistinct : document.Distinct) (haccepted : Accepted P document root)
    (hnode : Reaches P root node) (hother : Reaches P root other)
    (hpath : node.path = other.path) : node = other :=
  (haccepted.nodeAt hdistinct hnode).unique
    (haccepted.nodeAt hdistinct hother) hpath

theorem Accepted.root_unique {document : Json} {root other : Node Json}
    (h : Accepted P document root) (hdistinct : document.Distinct)
    (h' : Accepted P document other) : root = other :=
  (h.nodeAt hdistinct .refl).unique (h'.nodeAt hdistinct .refl)
    (h.root_path.trans h'.root_path.symm)

end Platform

end DrFed.Document
