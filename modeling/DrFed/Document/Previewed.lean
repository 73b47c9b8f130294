import DrFed.Document.Amended
import DrFed.Document.Ownership
import DrFed.Document.Traversal

/-!
# Reading a preview

What the walk reads in the preview of an accepted document: where no change
is, a value with the same label, and where one is, a string or nothing.  Every
document that was read is read again, in the same context and with the same
type.
-/

namespace DrFed.Document

section Platform

variable {P : Platform}

/-! ## Previews -/

/-- An accepted document with changes that remove members of the documents in
it or set them to strings. -/
structure Previews (P : Platform) (document : Json) (root : Node Json)
    (changes : List Change) : Prop where
  distinct : document.Distinct
  accepted : Accepted P document root
  members : ∀ change ∈ changes, ChangesMember P document change
  after : ∀ change ∈ changes,
    change.after? = none ∨ ∃ text, change.after? = some (.str text)
  reached : ∀ change ∈ changes, ∃ node key, Reaches P root node ∧
    change.path = node.path ++ [.key key] ∧
    (resolveProperty P key node.context).name ≠ some (js "type")

section Positions

variable {document : Json} {root node : Node Json} {changes : List Change}

theorem Previews.after_distinct (h : Previews P document root changes) :
    ∀ change ∈ changes, ∀ after, change.after? = some after →
      after.Distinct := by
  intro change hchange after hafter
  rcases h.after change hchange with hnone | ⟨text, htext⟩
  · rw [hnone] at hafter
    cases hafter
  · rw [htext] at hafter
    obtain rfl := Option.some.inj hafter
    simp [Json.Distinct]

/-- A changed position holds a string or nothing. -/
theorem Previews.changed (h : Previews P document root changes)
    {path : FieldPath} (hpath : ∃ change ∈ changes, change.path = path)
    {value : Json}
    (hvalue : (createPreview document changes).get? path = some value) :
    ∃ text, value = .str text := by
  obtain ⟨first, change, second, hsplit, rfl, hlast⟩ :=
    ListSplit.exists_last hpath
  rw [preview_changed h.members first second hsplit hlast] at hvalue
  rcases h.after change (by simp [hsplit]) with hnone | ⟨text, htext⟩
  · rw [hnone] at hvalue
    cases hvalue
  · rw [htext] at hvalue
    exact ⟨text, (Option.some.inj hvalue).symm⟩

variable (hnode : NodeAt P document node) {key : JsString}
  (hother : ∀ change ∈ changes, change.path ≠ node.path ++ [.key key])

include hnode hother

theorem Previews.not_above (h : Previews P document root changes)
    {change : Change} (hchange : change ∈ changes) (rest : FieldPath)
    (hrest : ∀ name, .key name ∉ rest) :
    ¬ change.path <+: node.path ++ [.key key] ++ rest := by
  intro hbegin
  obtain ⟨ms, hget⟩ := hnode.get?
  obtain ⟨owner, name, -, hpath, -⟩ := h.reached change hchange
  rcases List.prefix_or_prefix_of_prefix hbegin
      (List.prefix_append (node.path ++ [.key key]) rest) with habove | hbelow
  · rcases prefix_concat habove with heq | habove
    · exact hother change hchange heq
    · exact (h.members change hchange).not_beyond hget habove
  · obtain ⟨tail, htail⟩ := hbelow
    rw [← htail, List.prefix_append_right_inj] at hbegin
    have hne : tail ≠ [] := by
      rintro rfl
      exact hother change hchange (by simpa using htail.symm)
    have hlast := congrArg List.getLast? htail
    rw [hpath, List.getLast?_append_of_ne_nil _ hne,
      List.getLast?_concat] at hlast
    exact hrest name (hbegin.subset (List.mem_of_getLast? hlast))

/-- Where no change is, the label stays. -/
theorem Previews.label (h : Previews P document root changes)
    (rest : FieldPath) (hrest : ∀ name, .key name ∉ rest) :
    ((createPreview document changes).get?
        (node.path ++ [.key key] ++ rest)).map Json.label =
      (document.get? (node.path ++ [.key key] ++ rest)).map Json.label :=
  createPreview_label (fun _ hchange =>
    h.not_above hnode hother hchange rest hrest) document

end Positions

/-! ## Reading a node of the preview -/

theorem readNode_eq_iff {value : Json} {path : FieldPath}
    {inherited : Option Terms} {expected : Option (List VocabularyType)}
    {findings : List Diagnostic} {node : Node Json} :
    readNode P Json.tree value path inherited expected =
        (findings, some node) ↔
      ∃ ms context type, value = .obj ms ∧
        checkContext P Json.tree (ownProperties ms) path inherited =
          (findings, some context) ∧
        checkDocumentType P Json.tree (ownProperties ms)
          (readFields P (ownProperties ms) context) path context = .ok type ∧
        (expected.any fun types => types.all fun base =>
          !P.isTypeOrSubtype type base) = false ∧
        node =
          { values := ownProperties ms, path, context, type
            fields := readFields P (ownProperties ms) context } := by
  constructor
  · intro h
    unfold readNode at h
    split at h
    · cases h
    next values hread =>
      obtain ⟨ms, rfl, rfl⟩ := readDocument_eq_ok hread
      split at h
      · cases h
      next contextFindings context hcontext =>
        dsimp only at h
        split at h
        · cases h
        next type htype =>
          split at h
          · cases h
          next hexpected =>
            cases h
            exact ⟨ms, context, type, rfl, hcontext, htype,
              Bool.eq_false_iff.mpr hexpected, rfl⟩
  · rintro ⟨ms, context, type, rfl, hcontext, htype, hexpected, rfl⟩
    simp only [readNode, readDocument_obj, hcontext, htype, hexpected]
    rfl

section Nodes

variable {document : Json} {root node : Node Json} {changes : List Change}
  {ms : List (JsString × Json)}

variable (h : Previews P document root changes) (hreach : Reaches P root node)
  (hget : (createPreview document changes).get? node.path = some (.obj ms))

include h hreach hget

/-- The context stays as it is written. -/
theorem Previews.lookup_context (hnodup : (ms.map Prod.fst).Nodup) :
    (ownProperties ms).lookup (js "@context") =
      node.values.lookup (js "@context") := by
  have hnode := h.accepted.nodeAt h.distinct hreach
  obtain ⟨fields, hfields, hvalues⟩ := hnode.values
  have halike := readsAlike_preview h.distinct h.members hnode
  have hcontext := halike.context node.path fields List.prefix_rfl hfields
  rw [Json.get?_concat, Json.get?_concat, hget, hfields] at hcontext
  rw [lookup_ownProperties hnodup, hvalues, lookup_ownProperties
    (Json.distinct_obj.mp (h.distinct.get? hfields)).1]
  exact hcontext

/-- What the fields of the preview are: a change gives a string to a property,
every other field is one of the document, with a value of the same label. -/
theorem Previews.member (hnodup : (ms.map Prod.fst).Nodup) {key : JsString}
    {value : Json} (hmem : (key, value) ∈ ms) :
    ((∃ change ∈ changes, change.path = node.path ++ [.key key]) ∧
      (∃ text, value = .str text) ∧
      (resolveProperty P key node.context).name.isSome ∧
      (resolveProperty P key node.context).name ≠ some (js "type")) ∨
    (∀ change ∈ changes, change.path ≠ node.path ++ [.key key]) ∧
      ∃ before, (key, before) ∈ node.values ∧
        document.get? (node.path ++ [.key key]) = some before ∧
        before.label = value.label := by
  have hnode := h.accepted.nodeAt h.distinct hreach
  have hvalue : (createPreview document changes).get?
      (node.path ++ [.key key]) = some value := by
    rw [Json.get?_concat, hget]
    exact AssocList.lookup_eq_some_of_mem hnodup hmem
  by_cases hchanged : ∃ change ∈ changes,
      change.path = node.path ++ [.key key]
  · refine .inl ⟨hchanged, h.changed hchanged hvalue, ?_⟩
    obtain ⟨change, hchange, hpath⟩ := hchanged
    obtain ⟨owner, name, howner, hat, htype⟩ := h.reached change hchange
    obtain ⟨other, second, hotherAt, hsecond, hname⟩ :=
      (h.members change hchange).member
    obtain ⟨hsame, hkey⟩ := List.append_inj' (hpath.symm.trans hat) rfl
    obtain ⟨hsame', hkey'⟩ := List.append_inj' (hpath.symm.trans hsecond) rfl
    obtain rfl := hnode.unique (h.accepted.nodeAt h.distinct howner) hsame
    obtain rfl := hnode.unique hotherAt hsame'
    obtain rfl : key = name := by simpa using hkey
    obtain rfl : key = second := by simpa using hkey'
    exact ⟨hname, htype⟩
  · have hother : ∀ change ∈ changes,
        change.path ≠ node.path ++ [.key key] :=
      fun change hchange heq => hchanged ⟨change, hchange, heq⟩
    have hlabel := h.label hnode hother [] (by simp)
    rw [List.append_nil, hvalue, Option.map_some] at hlabel
    obtain ⟨before, hbefore, heq⟩ := Option.map_eq_some_iff.mp hlabel.symm
    exact .inr ⟨hother, before, (mem_target h.distinct hnode).mp hbefore,
      hbefore, heq⟩

/-- A string that is not changed stays. -/
theorem Previews.text_kept {key text : JsString} (hmem : (key, .str text) ∈ node.values) :
    (key, .str text) ∈ ms := by
  have hnode := h.accepted.nodeAt h.distinct hreach
  have hvalue := (mem_target h.distinct hnode).mpr hmem
  have hother : ∀ change ∈ changes,
      change.path ≠ node.path ++ [.key key] := by
    intro change hchange heq
    have hbare := (h.members change hchange).bare (.str text)
      (by rw [heq]; exact hvalue)
    cases hbare
  have hkept := preview_member h.members hnode hvalue (fun rest ms => by
    cases rest <;> simp [Json.get?, Json.child?]) hother
  rw [Json.get?_concat, hget] at hkept
  exact AssocList.mem_of_lookup_eq_some hkept

/-- Every type declaration of the preview is one of the document. -/
theorem Previews.type_source (hnodup : (ms.map Prod.fst).Nodup)
    (hcount : (typeFields node.fields).length ≤ 1) {field : Field Json}
    (hfield : field ∈ typeFields
      (readFields P (ownProperties ms) node.context)) :
    field.source = typeSource node.fields := by
  have hnode := h.accepted.nodeAt h.distinct hreach
  obtain ⟨hmem, hname⟩ := List.mem_filter.mp hfield
  obtain ⟨⟨key, value⟩, hentry, hne, rfl⟩ := (mem_readFields P).mp hmem
  rw [mem_ownProperties] at hentry
  rcases h.member hreach hget hnodup hentry with
    ⟨-, -, -, hother⟩ | ⟨-, before, hbefore, -⟩
  · exact absurd (beq_iff_eq.mp hname) hother
  · have hold : { toSourceProperty := resolveProperty P key node.context
                  value := before } ∈ typeFields node.fields := by
      refine List.mem_filter.mpr ⟨?_, hname⟩
      rw [hnode.fields, mem_readFields]
      exact ⟨_, hbefore, hne, rfl⟩
    obtain ⟨first, heq⟩ := List.length_eq_one_iff.mp
      (Nat.le_antisymm hcount (List.length_pos_of_mem hold))
    rw [heq, List.mem_singleton] at hold
    simp [typeSource, heq, ← hold]

/-- The key that declares the type stays, when it holds a string. -/
theorem Previews.typeSource_kept (hnodup : (ms.map Prod.fst).Nodup)
    (hcount : (typeFields node.fields).length ≤ 1) {text : JsString}
    (hkept : (typeSource node.fields, .str text) ∈ ms) :
    typeSource (readFields P (ownProperties ms) node.context) =
      typeSource node.fields := by
  have hnode := h.accepted.nodeAt h.distinct hreach
  cases hfields : typeFields (readFields P (ownProperties ms) node.context) with
  | cons field rest =>
      have hfirst := h.type_source hreach hget hnodup hcount
        (hfields ▸ List.mem_cons_self)
      rw [typeSource, hfields]
      exact hfirst
  | nil =>
      rw [typeSource, hfields]
      cases hold : typeFields node.fields with
      | nil => simp [typeSource, hold]
      | cons field rest =>
          -- The declaration of the document would be there too.
          have hsame : typeSource node.fields = field.source := by
            simp [typeSource, hold]
          have hmem : field ∈ typeFields node.fields :=
            hold ▸ List.mem_cons_self
          obtain ⟨hmem, hname⟩ := List.mem_filter.mp hmem
          rw [hnode.fields, mem_readFields] at hmem
          obtain ⟨⟨key, value⟩, -, hne, rfl⟩ := hmem
          rw [resolveProperty_source] at hsame
          rw [hsame] at hkept
          have hfound : { toSourceProperty := resolveProperty P key node.context
                          value := .str text } ∈ typeFields
              (readFields P (ownProperties ms) node.context) := by
            refine List.mem_filter.mpr ⟨(mem_readFields P).mpr ?_, hname⟩
            exact ⟨(key, .str text), mem_ownProperties.mpr hkept, hne, rfl⟩
          rw [hfields] at hfound
          cases hfound

/-- The type of a node stays. -/
theorem Previews.type_kept (hnodup : (ms.map Prod.fst).Nodup)
    {type : VocabularyType}
    (htype : checkDocumentType P Json.tree node.values node.fields node.path
      node.context = .ok type) :
    checkDocumentType P Json.tree (ownProperties ms)
      (readFields P (ownProperties ms) node.context) node.path node.context =
        .ok type := by
  obtain ⟨hcount, hcheck⟩ := checkDocumentType_eq_ok.mp htype
  obtain ⟨text, htext⟩ := checkType_eq_ok hcheck
  have hkept := h.text_kept hreach hget (AssocList.mem_of_lookup_eq_some htext)
  refine checkDocumentType_eq_ok.mpr ⟨?_, ?_⟩
  · have hsources : ((typeFields (readFields P (ownProperties ms)
        node.context)).map fun field => field.source).Nodup :=
      (nodup_sources (nodup_ownProperties hnodup) node.context).sublist
        (List.filter_sublist.map _)
    have hall : ∀ field ∈ typeFields (readFields P (ownProperties ms)
        node.context), field.source = typeSource node.fields :=
      fun _ => h.type_source hreach hget hnodup hcount
    revert hsources hall
    match typeFields (readFields P (ownProperties ms) node.context) with
    | [] => simp
    | [_] => simp
    | first :: second :: rest =>
        intro hsources hall
        simp [hall first List.mem_cons_self, hall second (by simp)] at hsources
  · rw [h.typeSource_kept hreach hget hnodup hcount hkept,
      lookup_ownProperties hnodup,
      AssocList.lookup_eq_some_of_mem hnodup hkept, ← htext]
    exact hcheck

/-- A node of the document is read in the preview too, in the same context
and with the same type. -/
theorem Previews.read (hnodup : (ms.map Prod.fst).Nodup) {value : Json}
    {inherited : Option Terms} {expected : Option (List VocabularyType)}
    {findings : List Diagnostic}
    (hread : readNode P Json.tree value node.path inherited expected =
      (findings, some node)) :
    readNode P Json.tree (.obj ms) node.path inherited expected =
      (findings, some
        { node with
          values := ownProperties ms
          fields := readFields P (ownProperties ms) node.context }) := by
  obtain ⟨fields, context, type, rfl, hcontext, htype, hexpected, heq⟩ :=
    readNode_eq_iff.mp hread
  have hlookup := h.lookup_context hreach hget hnodup
  have hkept := h.type_kept hreach hget hnodup
    (show _ = Except.ok type by rw [heq]; exact htype)
  refine readNode_eq_iff.mpr ⟨ms, context, type, rfl, ?_, ?_, hexpected, ?_⟩
  · rw [heq] at hlookup
    rw [checkContext_congr P hlookup, hcontext]
  · rw [heq] at hkept
    exact hkept
  · rw [heq]

end Nodes

end Platform

end DrFed.Document
