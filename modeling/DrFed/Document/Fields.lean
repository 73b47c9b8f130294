import DrFed.Document.Accepted

/-!
# Fields of accepted documents

Where the nodes of a walk come from, and what it means for their fields to
have passed: which entries of a reference property are embedded documents,
which are references, and which values a proposed omission removes.
-/

namespace DrFed.Document

section Platform

variable (P : Platform)

/-! ## Reading a node -/

@[simp] theorem resolveProperty_source (source : JsString) (context : Terms) :
    (resolveProperty P source context).source = source := by
  unfold resolveProperty
  dsimp only
  split
  · rfl
  · split
    · rfl
    · split <;> rfl

/-- What a node that was read says about its value. -/
structure NodeOf (value : Json) (path : FieldPath) (inherited : Option Terms)
    (node : Node Json) : Prop where
  path_eq : node.path = path
  values : ∃ ms, value = .obj ms ∧ node.values = ownProperties ms
  context : ∃ findings, checkContext P Json.tree node.values path inherited =
    (findings, some node.context)
  fields : node.fields = readFields P node.values node.context
  type : checkDocumentType P Json.tree node.values node.fields path
    node.context = .ok node.type

theorem readNode_eq_some {value : Json} {path : FieldPath}
    {inherited : Option Terms} {expected : Option (List VocabularyType)}
    {findings : List Diagnostic} {node : Node Json}
    (h : readNode P Json.tree value path inherited expected =
      (findings, some node)) : NodeOf P value path inherited node := by
  unfold readNode at h
  split at h
  · cases h
  next values hread =>
    obtain ⟨ms, rfl, rfl⟩ := readDocument_eq_ok hread
    split at h
    · cases h
    next contextFindings context hcontext =>
      dsimp only at h
      split at h
      · cases h
      next type htype =>
        split at h
        · cases h
        · cases h
          exact ⟨rfl, ⟨ms, rfl, rfl⟩, ⟨_, hcontext⟩, rfl, htype⟩

/-- The fields of a record: all its members but the context. -/
theorem mem_readFields {values : List (JsString × Json)} {context : Terms}
    {field : Field Json} :
    field ∈ readFields P values context ↔
      ∃ entry ∈ values, entry.1 ≠ js "@context" ∧
        field = { toSourceProperty := resolveProperty P entry.1 context
                  value := entry.2 } := by
  simp only [readFields, List.mem_map, (sortByKey_perm _).mem_iff,
    List.mem_filter, decide_eq_true_eq]
  constructor
  · rintro ⟨entry, ⟨hmem, hne⟩, rfl⟩
    exact ⟨entry, hmem, hne, rfl⟩
  · rintro ⟨entry, hmem, hne, rfl⟩
    exact ⟨entry, ⟨hmem, hne⟩, rfl⟩

namespace NodeOf

variable {P} {value : Json} {path : FieldPath} {inherited : Option Terms}
  {node : Node Json}

/-- A field is a member other than the context, resolved in the context of
the node. -/
theorem field (h : NodeOf P value path inherited node) {field : Field Json}
    (hfield : field ∈ node.fields) :
    (field.source, field.value) ∈ node.values ∧
      field.source ≠ js "@context" ∧
      field.toSourceProperty =
        resolveProperty P field.source node.context := by
  rw [h.fields, mem_readFields] at hfield
  obtain ⟨entry, hmem, hne, rfl⟩ := hfield
  simp only [resolveProperty_source]
  exact ⟨hmem, hne, trivial⟩

end NodeOf

theorem mem_checkedFields {node : Node Json} {field : Field Json} :
    field ∈ node.checkedFields ↔
      field ∈ node.fields ∧ field.name ≠ some (js "type") := by
  simp [Node.checkedFields]

/-! ## Reference properties -/

/-- The plan of a reference property comes from one of the list helpers. -/
theorem check_references {node : Node Json} {field : Field Json}
    {visits : List (Visit Json)} {key : JsString}
    {range : Option (List VocabularyType)}
    (h : (node.check P Json.tree field).2 = .references visits key range) :
    field.name = some key ∧ field.compatible = true ∧
      Plans visits field.value (node.path ++ [.key field.source]) := by
  unfold Node.check checkField at h
  dsimp only at h
  split at h
  · split at h <;> cases h
  next name hname =>
    unfold checkNamedField at h
    split at h
    · cases h
    next hcompatible =>
      split at h
      · split at h <;> cases h
      · dsimp only at h
        split at h
        · cases h
        · unfold checkValueRules at h
          dsimp only at h
          split at h
          · cases h
          · split at h
            · cases h
            · split at h
              · cases h
              · split at h
                · cases h
                · split at h
                  · cases h
                    exact ⟨hname, by simpa using hcompatible,
                      checkSingleValue_plans _ _⟩
                  · split at h
                    · cases h
                      exact ⟨hname, by simpa using hcompatible,
                        checkReferenceValues_plans _ _⟩
                    · cases h

/-- An embedded document is an entry of a field of its parent. -/
theorem embedded_entry {parent child : Node Json} (h : Embedded P parent child) :
    ∃ field ∈ parent.checkedFields, ∃ entry path,
      (entry, path) ∈ valueEntries field.value
        (parent.path ++ [.key field.source]) ∧
      NodeOf P entry path (some parent.context) child := by
  obtain ⟨field, hfield, visits, key, range, hfollow, entry, path, findings,
    hvisit, -, hread⟩ := h
  obtain ⟨-, -, hplans⟩ := check_references P hfollow
  exact ⟨field, hfield, entry, path, hplans.sound entry path hvisit,
    readNode_eq_some P hread⟩

/-- What an accepted entry of a reference property is. -/
inductive EntryShape (node : Node Json) : Json → FieldPath → Prop
  | null (path : FieldPath) : EntryShape node .null path
  | reference (text : JsString) (path : FieldPath)
      (h : checkReferenceText P.toRuntime text path = []) :
      EntryShape node (.str text) path
  | embedded (entry : Json) (path : FieldPath) (child : Node Json)
      (h : Embedded P node child)
      (hnode : NodeOf P entry path (some node.context) child) :
      EntryShape node entry path

theorem checkReferenceText_errors {R : Runtime} {text : JsString}
    {path : FieldPath} (h : hasError (checkReferenceText R text path) = false) :
    checkReferenceText R text path = [] := by
  unfold checkReferenceText at h ⊢
  split at h
  · cases h
  · split at h
    · cases h
    · split at h
      · cases h
      · simp_all

/-- Every entry of an accepted reference property is null, a reference or an
embedded document. -/
theorem entryShape_of_accepted {node : Node Json} {field : Field Json}
    (hfield : field ∈ node.checkedFields)
    (haccepted : FieldAccepted P node field) {visits : List (Visit Json)}
    {key : JsString} {range : Option (List VocabularyType)}
    (hfollow : (node.check P Json.tree field).2 = .references visits key range)
    {entry : Json} {path : FieldPath}
    (hentry : (entry, path) ∈ valueEntries field.value
      (node.path ++ [.key field.source])) :
    EntryShape P node entry path := by
  obtain ⟨-, -, hplans⟩ := check_references P hfollow
  have hnone : ∀ d, .finding d ∉ visits := by
    intro d hd
    have hquiet := haccepted.findings visits key range hfollow d hd
    rw [hplans.errors d hd] at hquiet
    contradiction
  rcases hplans.complete hnone entry path hentry with rfl | hvisit
  · exact .null path
  · have hok := haccepted.entries visits key range hfollow entry path hvisit
    unfold EntryAccepted at hok
    split at hok
    next hrecord =>
      obtain ⟨findings, child, hread⟩ := hok
      exact .embedded entry path child
        ⟨field, hfield, visits, key, range, hfollow, entry, path, findings,
          hvisit, hrecord, hread⟩ (readNode_eq_some P hread)
    next hrecord =>
      cases entry with
      | null => exact .null path
      | str text => exact .reference text path (checkReferenceText_errors hok)
      | obj ms => simp at hrecord
      | _ => cases hok

/-! ## Omissions -/

/-- A value that an omission removes: an empty list, or an identifier that is
null or a list of nulls. -/
def Omittable (name : Option JsString) (value : Json) : Prop :=
  value = .arr [] ∨
    (name = some (js "id") ∧
      (value = .null ∨ ∃ items, value = .arr items ∧
        ∀ item ∈ items, item = .null))

theorem proposePropertyOmission_eq_some {value : Json} {path : FieldPath}
    {identifier : Bool} {findings : List Diagnostic}
    {change : NormalizationChange Json}
    (h : proposePropertyOmission Json.tree value path identifier =
      some (findings, some change)) :
    (∃ reason message, change = .remove reason path value message ∧
      (reason = "omit_empty_property_list" ∨
        reason = "omit_absent_identifier")) ∧
      (value = .arr [] ∨ (identifier = true ∧
        (value = .null ∨ ∃ items, value = .arr items ∧
          ∀ item ∈ items, item = .null))) := by
  unfold proposePropertyOmission at h
  dsimp only at h
  cases value with
  | null =>
      simp only [Json.look_tree, Json.shape] at h
      split at h
      next hidentifier =>
        cases h
        exact ⟨⟨_, _, rfl, .inr rfl⟩, .inr ⟨hidentifier, .inl rfl⟩⟩
      next => cases h
  | arr items =>
      simp only [Json.look_tree, Json.shape] at h
      split at h
      · cases h
      next hempty =>
        rw [visitList_tree] at h
        split at h
        · cases h
        · rw [presentEntries_tree] at h
          split at h
          · cases h
          next hpresent =>
            have hnulls : ∀ item ∈ items, item = .null := by
              intro item hitem
              have hall : ∀ e ∈ valueEntries (.arr items) path,
                  isNull Json.tree e.1 = true := by
                simpa using hpresent
              obtain ⟨i, hi, rfl⟩ := List.getElem_of_mem hitem
              have := hall (items[i], path ++ [.index i]) (by
                simp only [valueEntries, List.mem_map]
                exact ⟨(items[i], i), by simp [List.mem_zipIdx_iff_getElem?],
                  rfl⟩)
              simpa using this
            cases items with
            | nil =>
                cases h
                exact ⟨⟨_, _, rfl, .inl rfl⟩, .inl rfl⟩
            | cons item rest =>
                cases h
                refine ⟨⟨_, _, rfl, .inr rfl⟩, .inr ⟨?_, .inr ⟨_, rfl, hnulls⟩⟩⟩
                simpa using hempty
  | _ => cases h

/-- The properties that some type reads as text. -/
def allTextProperties : List JsString :=
  [js "name", js "summary", js "content", js "preferredUsername"]

theorem textProperties_subset {R : Runtime} {type : VocabularyType} :
    textProperties R type ⊆ allTextProperties := by
  unfold textProperties
  cases R.isTypeOrSubtype type .object <;> cases R.isActor type <;> decide

/-- The properties that some type reads by a rule for common properties. -/
def CommonPropertyKind.properties : CommonPropertyKind → List JsString
  | .text => allTextProperties
  | .languageMap => [js "nameMap", js "summaryMap", js "contentMap"]
  | .datetime => [js "published", js "updated", js "startTime", js "endTime"]
  | .id => [js "id"]
  | .mediaType => [js "mediaType"]

theorem getCommonPropertyKind_mem {R : Runtime} {type : VocabularyType}
    {key : JsString} {kind : CommonPropertyKind}
    (h : getCommonPropertyKind R type key = some kind) :
    key ∈ kind.properties := by
  unfold getCommonPropertyKind at h
  split at h
  next hmem =>
    obtain rfl := Option.some.inj h
    exact textProperties_subset (List.contains_iff_mem.mp hmem)
  next =>
    split at h
    next hmap =>
      obtain rfl := Option.some.inj h
      have hmaps : ∀ name ∈ allTextProperties,
          name ≠ js "preferredUsername" → name ++ js "Map" ∈
            CommonPropertyKind.languageMap.properties := by decide
      obtain ⟨name, hname, heq⟩ := List.any_eq_true.mp hmap
      obtain ⟨hkey, hne⟩ := Bool.and_eq_true_iff.mp heq
      rw [beq_iff_eq.mp hkey]
      exact hmaps name (textProperties_subset hname) (bne_iff_ne.mp hne)
    next =>
      split at h
      next htime =>
        obtain rfl := Option.some.inj h
        exact List.contains_iff_mem.mp (Bool.and_eq_true_iff.mp htime).2
      next =>
        split at h
        next hid =>
          obtain rfl := Option.some.inj h
          exact List.mem_singleton.mpr hid
        next =>
          split at h
          next hmedia =>
            obtain rfl := Option.some.inj h
            exact List.mem_singleton.mpr hmedia
          next => cases h

/-- A proposed change removes the whole value of its field, which carries no
value. -/
theorem check_change {node : Node Json} {field : Field Json}
    {change : NormalizationChange Json}
    (h : .change change ∈ (node.check P Json.tree field).1) :
    (∃ reason message, change = .remove reason
        (node.path ++ [.key field.source]) field.value message ∧
      (reason = "omit_empty_property_list" ∨
        reason = "omit_absent_identifier")) ∧
      field.name.isSome ∧ Omittable field.name field.value := by
  unfold Node.check checkField at h
  dsimp only at h
  split at h
  · split at h <;> simp at h
  next name hname =>
    unfold checkNamedField at h
    split at h
    · simp at h
    · split at h
      · split at h <;> simp at h
      · dsimp only at h
        split at h
        next findings proposed homission =>
          split at homission
          next hsupported =>
            rcases List.mem_append.mp h with h | h
            · rcases List.mem_append.mp h with h | h
              · split at h <;> simp at h
              · simp at h
            · obtain ⟨_, hmem, heq⟩ := List.mem_map.mp h
              cases heq
              rw [Option.mem_toList] at hmem
              cases hmem
              obtain ⟨hchange, hvalue⟩ :=
                proposePropertyOmission_eq_some homission
              refine ⟨hchange, by simp [hname], ?_⟩
              refine hvalue.imp id fun hid => ⟨?_, hid.2⟩
              have hkind := getCommonPropertyKind_mem (beq_iff_eq.mp hid.1)
              rw [hname, List.mem_singleton.mp hkind]
          next => cases homission
        next =>
          rcases List.mem_append.mp h with h | h
          · split at h <;> simp at h
          · simp at h

end Platform

end DrFed.Document
