import DrFed.Document.Preparation
import DrFed.Document.Reached

/-!
# Documents that a preparation keeps

A preparation changes no document's type or context, and embeds every document
of the submitted one where it was.
-/

namespace DrFed.Document

section Platform

variable {P : Platform}

/-! ## The type of a node -/

theorem checkType_str {text : JsString} {path : FieldPath} {context : Terms}
    {type : VocabularyType} :
    checkType P Json.tree (some (.str text)) path context = .ok type ↔
      (resolveTerm P.toRuntime text context []).bind (typeOfIri P) =
        some type := by
  have hiri : ((some (Json.str text)).bind (stringOf Json.tree)).bind
      (fun text => resolveTerm P.toRuntime text context []) =
        resolveTerm P.toRuntime text context [] := rfl
  unfold checkType
  rw [hiri]
  dsimp -iota only
  generalize (resolveTerm P.toRuntime text context []).bind (typeOfIri P) =
    found
  cases found with
  | none => exact iff_of_false (fun h => by cases h) (fun h => by cases h)
  | some found =>
      exact ⟨fun h => congrArg some (Except.ok.inj h),
        fun h => congrArg Except.ok (Option.some.inj h)⟩

section Node

variable {document : Json} {node : Node Json}

/-- The member that declares the type of a node. -/
theorem NodeAt.declared (h : NodeAt P document node) : ∃ text,
      (typeSource node.fields, .str text) ∈ node.values ∧
      typeSource node.fields ≠ js "@context" ∧
      (resolveTerm P.toRuntime text node.context []).bind (typeOfIri P) =
        some node.type := by
  obtain ⟨-, hcheck⟩ := checkDocumentType_eq_ok.mp h.type
  obtain ⟨text, hlookup⟩ := checkType_eq_ok hcheck
  rw [hlookup, checkType_str] at hcheck
  exact ⟨text, AssocList.mem_of_lookup_eq_some hlookup,
    typeSource_ne_context h.fields, hcheck⟩

theorem NodeAt.typeSource_eq (h : NodeAt P document node) {key : JsString}
    {value : Json} (hmem : (key, value) ∈ node.values)
    (hkey : key ≠ js "@context")
    (hname : (resolveProperty P key node.context).name = some (js "type")) :
    typeSource node.fields = key := by
  obtain ⟨hone, -⟩ := checkDocumentType_eq_ok.mp h.type
  have hfield : (⟨resolveProperty P key node.context, value⟩ : Field Json) ∈
      typeFields node.fields := by
    refine List.mem_filter.mpr ⟨?_, by simp [hname]⟩
    rw [h.fields, mem_readFields]
    exact ⟨(key, value), hmem, hkey, rfl⟩
  unfold typeSource
  cases htypes : typeFields node.fields with
  | nil =>
      rw [htypes] at hfield
      cases hfield
  | cons first rest =>
      rw [htypes] at hfield hone
      have hrest : rest = [] := by simpa using hone
      rw [hrest, List.mem_singleton] at hfield
      simp [← hfield]

theorem NodeAt.typeSource_cases (h : NodeAt P document node) :
    (∃ value, (typeSource node.fields, value) ∈ node.values ∧
      typeSource node.fields ≠ js "@context" ∧
      (resolveProperty P (typeSource node.fields) node.context).name =
        some (js "type")) ∨ typeSource node.fields = js "type" := by
  cases htypes : typeFields node.fields with
  | nil => exact .inr (by simp [typeSource, htypes])
  | cons first rest =>
      have hsource : typeSource node.fields = first.source := by
        simp [typeSource, htypes]
      have hfirst : first ∈ typeFields node.fields :=
        htypes ▸ List.mem_cons_self
      obtain ⟨hmem, hname⟩ := List.mem_filter.mp hfirst
      rw [h.fields, mem_readFields] at hmem
      obtain ⟨entry, hentry, hne, rfl⟩ := hmem
      rw [hsource]
      simp only [resolveProperty_source]
      exact .inl ⟨entry.2, hentry, hne, by simpa using hname⟩

/-- A node that keeps the strings of another, and declares a type under no
other key, has its type. -/
theorem NodeAt.type_eq {other : Json} {node' : Node Json}
    (hdistinct' : other.Distinct)
    (h : NodeAt P document node) (h' : NodeAt P other node')
    (hcontext : node'.context = node.context)
    (hstrings : ∀ key text, (key, .str text) ∈ node.values →
      key ≠ js "@context" → (key, .str text) ∈ node'.values)
    (hkeys : ∀ key value, (key, value) ∈ node'.values →
      (resolveProperty P key node.context).name = some (js "type") →
      ∃ before, (key, before) ∈ node.values) :
    node'.type = node.type := by
  obtain ⟨text, hmem, hne, htype⟩ := h.declared
  obtain ⟨text', hmem', -, htype'⟩ := h'.declared
  have hkept := hstrings _ _ hmem hne
  have hsource : typeSource node'.fields = typeSource node.fields := by
    rcases h'.typeSource_cases with ⟨value, hvalue, hne', hname⟩ | hdefault
    · rw [hcontext] at hname
      obtain ⟨before, hbefore⟩ := hkeys _ _ hvalue hname
      exact (h.typeSource_eq hbefore hne' hname).symm
    · rcases h.typeSource_cases with ⟨-, -, -, hname⟩ | hdefault'
      · exact h'.typeSource_eq hkept hne (hcontext ▸ hname)
      · rw [hdefault, hdefault']
  rw [hsource] at hmem'
  have htext : text' = text := by
    have hlookup := AssocList.lookup_eq_some_of_mem (h'.nodup hdistinct') hmem'
    rw [AssocList.lookup_eq_some_of_mem (h'.nodup hdistinct') hkept] at hlookup
    exact (Json.str.inj (Option.some.inj hlookup)).symm
  rw [htext, hcontext, htype] at htype'
  exact (Option.some.inj htype').symm

end Node

/-! ## Nodes of a preview -/

theorem checkServerOwnedFields_ownable {document : Json}
    {visited : List (Node Json)} {unavailable : List FieldPath}
    {truncated : Bool} {fields : List ServerOwnedField} {seen : SeenFields}
    {checked : List CheckedField}
    (h : checkServerOwnedFields P document visited unavailable truncated fields
      seen = .ok checked) : ∀ c ∈ checked, c.property ∈ ownableProperties := by
  rw [← checkOwnedFields_tree] at h
  cases htargets : checkOwnedFields P (isMissingPreparationParent document)
      visited unavailable truncated fields seen with
  | error e =>
      rw [htargets] at h
      cases h
  | ok targets =>
      rw [htargets] at h
      obtain rfl := Except.ok.inj h
      intro c hc
      obtain ⟨target, hmem, rfl⟩ := List.mem_map.mp hc
      exact checkOwnedFields_ownable htargets target hmem

section Preview

variable {document : Json} {root : Node Json} {checked : List CheckedField}
  {kept assigned : List Change}
  (h : Proposal P document root checked kept assigned)
  (hownable : ∀ c ∈ checked, c.property ∈ ownableProperties)

include h hownable

/-- Where the type could be declared, a preview has only what the document
had. -/
theorem Proposal.type_member {node : Node Json} (hnode : NodeAt P document node)
    {key : JsString} {value : Json}
    (hname : (resolveProperty P key node.context).name = some (js "type"))
    (hvalue : (createPreview document (kept ++ assigned)).get?
      (node.path ++ [.key key]) = some value) :
    ∃ before, document.get? (node.path ++ [.key key]) = some before := by
  by_contra hnone
  have habsent : document.get? (node.path ++ [.key key]) = none :=
    Option.eq_none_iff_forall_ne_some.mpr fun before hbefore =>
      hnone ⟨before, hbefore⟩
  have hother : ∀ change ∈ kept ++ assigned,
      change.path ≠ node.path ++ [.key key] := by
    intro change hchange hpath
    rcases List.mem_append.mp hchange with hchange | hchange
    · obtain ⟨-, -, -, -, before, -, -, hbefore, -⟩ :=
        h.accepted.omission h.distinct (h.kept change hchange)
      exact hnone ⟨before, hpath ▸ hbefore⟩
    · obtain ⟨c, hc, -, hassigns⟩ := h.exists_checked hchange
      obtain ⟨other, hotherPath, hotherName⟩ := hassigns.key
      rw [hotherPath, ← (h.checks c hc).parent] at hpath
      obtain ⟨hparent, hkey⟩ := List.append_inj' hpath rfl
      obtain rfl : other = key := by simpa using hkey
      rw [(h.nodeAt hc).unique hnode hparent, hname] at hotherName
      have hmem := hownable c hc
      rw [← Option.some.inj hotherName] at hmem
      revert hmem
      decide
  obtain ⟨ms, hobject⟩ := hnode.get?
  have hlabel := createPreview_label
    (p := node.path ++ [.key key]) (fun change hchange hbegin => by
      rcases prefix_concat hbegin with heq | hbelow
      · exact hother change hchange heq
      · exact (h.changesMember change hchange).not_beyond hobject hbelow)
    document
  rw [hvalue, habsent] at hlabel
  cases hlabel

theorem Proposal.node_eq {node node' : Node Json}
    (hnode : NodeAt P document node)
    (hnode' : NodeAt P (createPreview document (kept ++ assigned)) node')
    (hpath : node'.path = node.path) :
    node'.context = node.context ∧ node'.type = node.type := by
  have hdistinct' := createPreview_distinct h.distinct h.after_distinct
  have hcontext : node'.context = node.context := by
    obtain ⟨-, -, -, hcontext⟩ :=
      preview_node h.distinct h.changesMember hnode h.after_distinct
    rw [← hpath, hnode'.context] at hcontext
    exact Option.some.inj hcontext
  refine ⟨hcontext, hnode.type_eq hdistinct' hnode' hcontext ?_ ?_⟩
  · intro key text hmem _
    have hget := (mem_target h.distinct hnode).mpr hmem
    have hkept := preview_member h.changesMember hnode hget
      (fun rest ms => get?_of_presentValues_text rfl rest ms)
      fun change hchange heq => by
        have hbare := (h.changesMember change hchange).bare _ (heq ▸ hget)
        cases hbare
    exact (mem_target hdistinct' hnode').mp (hpath ▸ hkept)
  · intro key value hmem hname
    have hget := (mem_target hdistinct' hnode').mpr hmem
    obtain ⟨before, hbefore⟩ :=
      h.type_member hownable hnode hname (hpath ▸ hget)
    exact ⟨before, (mem_target h.distinct hnode).mp hbefore⟩

/-- Every document of the walk is embedded in the preview where it was. -/
theorem Proposal.reaches {root' : Node Json}
    (haccepted : Accepted P (createPreview document (kept ++ assigned)) root')
    {node : Node Json} (hreach : Reaches P root node) :
    ∃ node', Reaches P root' node' ∧ node'.path = node.path ∧
      node'.context = node.context ∧ node'.type = node.type := by
  have hdistinct' := createPreview_distinct h.distinct h.after_distinct
  have hfound : ∃ node', Reaches P root' node' ∧ node'.path = node.path := by
    induction hreach with
    | refl =>
        exact ⟨root', .refl,
          haccepted.root_path.trans h.accepted.root_path.symm⟩
    | @tail parent child hparent hembedded ih =>
        obtain ⟨parent', hreach', hpath⟩ := ih
        obtain ⟨hcontext, htype⟩ := h.node_eq hownable
          (h.accepted.nodeAt h.distinct hparent)
          (haccepted.nodeAt hdistinct' hreach') hpath
        have hat := h.accepted.embedsAt h.distinct hparent hembedded
        have hat' : EmbedsAt P parent' child.path :=
          EmbedsAt.congr (p := []) hat hpath.symm hcontext htype
        obtain ⟨ms, hobject, -⟩ := preview_node h.distinct h.changesMember
          (h.accepted.nodeAt h.distinct (hparent.tail hembedded))
          h.after_distinct
        exact haccepted.exists_reached hdistinct' hreach' hat' hobject
  obtain ⟨node', hreach', hpath⟩ := hfound
  exact ⟨node', hreach', hpath, h.node_eq hownable
    (h.accepted.nodeAt h.distinct hreach)
    (haccepted.nodeAt hdistinct' hreach') hpath⟩

end Preview

end Platform

end DrFed.Document
