import DrFed.Document.Traversal
import DrFed.Js.Amend
import DrFed.Js.Sorted

/-!
# Walks over amended documents

What a walk finds in a document that was accepted, once some of its fields
were dropped and some embedded documents replaced by references.  Dropped are
only fields whose omission the walk itself proposed, so the walk over the rest
finds nothing that it had not found before.
-/

namespace DrFed.Document

section Platform

variable (P : Platform) (ρ : Amendments)

/-! ## Amendments that an accepted document allows -/

/-- An entry of a reference property is kept, or it is an embedded document
and replaced by a reference. -/
def EntryAmended (entry : Json) (path : FieldPath) : Prop :=
  ρ path = .keep ∨ ∃ text, ρ path = .put (.str text) ∧
    isRecord Json.tree entry = true ∧
    checkReferenceText P.toRuntime text path = []

inductive FieldAmended (node : Node Json) (field : Field Json) : Prop
  | untouched
      (h : ∀ rest, ρ (node.path ++ .key field.source :: rest) = .keep)
  | omitted (h : ρ (node.path ++ [.key field.source]) = .drop)
      (hchange : ∃ change, .change change ∈ (node.check P Json.tree field).1)
  | references (visits : List (Visit Json)) (key : JsString)
      (range : Option (List VocabularyType))
      (hfollow : (node.check P Json.tree field).2 =
        .references visits key range)
      (hlist : ∀ items, field.value = .arr items →
        ρ (node.path ++ [.key field.source]) = .keep)
      (hentries : ∀ entry path, (entry, path) ∈ valueEntries field.value
        (node.path ++ [.key field.source]) → EntryAmended P ρ entry path)

/-- The amendments of one node leave its context alone. -/
structure NodeAmended (node : Node Json) : Prop where
  context : ∀ rest, ρ (node.path ++ .key (js "@context") :: rest) = .keep
  fields : ∀ field ∈ node.fields, FieldAmended P ρ node field

def Amends (root : Node Json) : Prop :=
  ∀ node, Reaches P root node → NodeAmended P ρ node

end Platform

/-! ## Amended nodes -/

def Field.amended (ρ : Amendments) (path : FieldPath) (field : Field Json) :
    Field Json :=
  { field with
    value := Json.amendAt ρ field.value (path ++ [.key field.source]) }

def amendField (ρ : Amendments) (path : FieldPath) (field : Field Json) :
    Option (Field Json) :=
  match ρ (path ++ [.key field.source]) with
  | .drop => none
  | _ => some (field.amended ρ path)

def Node.amended (ρ : Amendments) (node : Node Json) : Node Json :=
  { node with
    values := node.values.filterMap (Json.amendMember (ρ.beneath node.path))
    fields := node.fields.filterMap (amendField ρ node.path) }

section Reading

variable {P : Platform} {ρ : Amendments}

theorem amendMember_keepsKeys (ρ : Amendments) :
    KeepsKeys (Json.amendMember ρ) := by
  intro entry other h
  unfold Json.amendMember at h
  split at h
  · cases h
  · obtain rfl := Option.some.inj h
    rfl

/-- The members of an amended record, in the order of the checks. -/
theorem ownProperties_amend (ρ : Amendments) {ms : List (JsString × Json)}
    (hnodup : (ms.map Prod.fst).Nodup) :
    ownProperties (ms.filterMap (Json.amendMember ρ)) =
      (ownProperties ms).filterMap (Json.amendMember ρ) := by
  have hkeeps := amendMember_keepsKeys ρ
  have hsorted : ((sortByKey ms).map Prod.fst).Nodup :=
    ((sortByKey_perm ms).map Prod.fst).nodup_iff.mpr hnodup
  rw [ownProperties, ownProperties, ← hkeeps.sortByKey hnodup,
    ← hkeeps.propertyOrder hsorted]

theorem readFields_amend (path : FieldPath) (context : Terms)
    {values : List (JsString × Json)}
    (hnodup : (values.map Prod.fst).Nodup) :
    readFields P (values.filterMap (Json.amendMember (ρ.beneath path))) context =
      (readFields P values context).filterMap (amendField ρ path) := by
  have hkeeps := amendMember_keepsKeys (ρ.beneath path)
  unfold readFields
  rw [← hkeeps.filter fun key => decide (key ≠ js "@context"),
    ← hkeeps.sortByKey (hnodup.sublist (List.filter_sublist.map _)),
    List.map_filterMap, List.filterMap_map]
  refine List.filterMap_congr fun entry _ => ?_
  simp only [Function.comp_apply, amendField, Field.amended,
    resolveProperty_source, Json.amendMember, Json.amendChild_beneath,
    Amendments.beneath_apply]
  cases ρ (path ++ [Segment.key entry.1]) <;> rfl

theorem amendAt_of_keep {path : FieldPath}
    (h : ∀ rest, ρ (path ++ rest) = .keep) (value : Json) :
    Json.amendAt ρ value path = value := by
  have hpath : ρ path = .keep := by simpa using h []
  rw [Json.amendAt, hpath]
  exact Json.amend_of_keep _ (fun rest _ => h rest) value

/-- The context of an amended node is the one that it had. -/
theorem checkContext_amend {path : FieldPath}
    (hcontext : ∀ rest, ρ (path ++ .key (js "@context") :: rest) = .keep)
    (values : List (JsString × Json)) (inherited : Option Terms) :
    checkContext P Json.tree
        (values.filterMap (Json.amendMember (ρ.beneath path))) path inherited =
      checkContext P Json.tree values path inherited := by
  have hlookup : (values.filterMap (Json.amendMember (ρ.beneath path))).lookup
      (js "@context") = values.lookup (js "@context") := by
    have hkeep := hcontext []
    rw [Json.lookup_amendMembers _ _ _
      (by rw [Amendments.beneath_apply, hkeep]; exact fun h => nomatch h)]
    cases values.lookup (js "@context") with
    | none => rfl
    | some context =>
        rw [Option.map_some, Json.amendChild_beneath, amendAt_of_keep]
        intro rest
        simpa using hcontext rest
  unfold checkContext
  rw [hlookup]

/-! ## Amended fields -/

/-- A value that an omission removes is no string. -/
theorem Omittable.ne_str {name : Option JsString} {value : Json}
    (h : Omittable name value) (text : JsString) : value ≠ .str text := by
  rintro rfl
  rcases h with h | ⟨-, h | ⟨items, h, -⟩⟩ <;> cases h

section Field

variable {node : Node Json} {field : Field Json}

/-- A string stays. -/
theorem FieldAmended.str (h : FieldAmended P ρ node field) {text : JsString}
    (hvalue : field.value = .str text) :
    ρ (node.path ++ [.key field.source]) = .keep := by
  cases h with
  | untouched h => exact h []
  | omitted h hchange =>
      obtain ⟨change, hchange⟩ := hchange
      obtain ⟨-, -, homit⟩ := check_change P hchange
      exact absurd hvalue (homit.ne_str text)
  | references visits key range hfollow hlist hentries =>
      have hentry : (field.value, node.path ++ [.key field.source]) ∈
          valueEntries field.value (node.path ++ [.key field.source]) := by
        rw [hvalue]
        exact List.mem_singleton_self _
      rcases hentries _ _ hentry with hkeep | ⟨_, -, hrecord, -⟩
      · exact hkeep
      · rw [hvalue] at hrecord
        cases hrecord

theorem amendAt_str {path : FieldPath} (h : ρ path = .keep) (text : JsString) :
    Json.amendAt ρ (.str text) path = .str text := by
  rw [Json.amendAt, h]
  rfl

theorem amendField_str (h : FieldAmended P ρ node field) {text : JsString}
    (hvalue : field.value = .str text) :
    amendField ρ node.path field = some field := by
  have hkeep := h.str hvalue
  have hsame : field.amended ρ node.path = field := by
    rw [Field.amended, hvalue, amendAt_str hkeep, ← hvalue]
  rw [amendField, hkeep, hsame]

theorem amendField_source {path : FieldPath} {other : Field Json}
    (h : amendField ρ path field = some other) :
    other.toSourceProperty = field.toSourceProperty := by
  unfold amendField at h
  split at h
  · cases h
  · obtain rfl := Option.some.inj h
    rfl

end Field

theorem filter_amendField (path : FieldPath) (p : SourceProperty → Bool)
    (fields : List (Field Json)) :
    (fields.filterMap (amendField ρ path)).filter
        (fun field => p field.toSourceProperty) =
      (fields.filter fun field => p field.toSourceProperty).filterMap
        (amendField ρ path) := by
  rw [List.filterMap_filter, List.filter_filterMap]
  refine List.filterMap_congr fun field _ => ?_
  cases h : amendField ρ path field with
  | none => simp
  | some other =>
      have hsource := amendField_source h
      by_cases hp : p field.toSourceProperty = true <;>
        simp [Option.filter, hsource, hp]

theorem checkType_eq_ok {value : Option Json} {path : FieldPath}
    {context : Terms} {type : VocabularyType}
    (h : checkType P Json.tree value path context = .ok type) :
    ∃ text, value = some (.str text) := by
  unfold checkType at h
  dsimp only at h
  cases value with
  | none => cases h
  | some value =>
      cases value with
      | str text => exact ⟨text, rfl⟩
      | _ => cases h

/-- The fields that declare the type. -/
def typeFields (fields : List (Field Json)) : List (Field Json) :=
  fields.filter fun field => field.name == some (js "type")

/-- The key under which the type is looked up. -/
def typeSource (fields : List (Field Json)) : JsString :=
  ((typeFields fields).head?.map fun field => field.source).getD (js "type")

theorem checkDocumentType_eq_ok {values : List (JsString × Json)}
    {fields : List (Field Json)} {path : FieldPath} {context : Terms}
    {type : VocabularyType} :
    checkDocumentType P Json.tree values fields path context = .ok type ↔
      (typeFields fields).length ≤ 1 ∧
        checkType P Json.tree (values.lookup (typeSource fields))
          (path ++ [.key (typeSource fields)]) context = .ok type := by
  unfold checkDocumentType typeSource typeFields
  dsimp only
  split
  next hmany =>
    refine ⟨(fun h => nomatch h), fun h => ?_⟩
    exact absurd h.1 (Nat.not_le_of_gt hmany)
  next hone =>
    rw [and_iff_right (Nat.le_of_not_gt hone)]
    split
    next heq => rw [heq]; simp
    next heq => rw [heq]; simp

section Node

variable {node : Node Json} (hnodup : (node.values.map Prod.fst).Nodup)
  (hfields : node.fields = readFields P node.values node.context)
  (hamended : ∀ field ∈ node.fields, FieldAmended P ρ node field)

include hfields

theorem typeSource_ne_context : typeSource node.fields ≠ js "@context" := by
  unfold typeSource
  cases htypes : typeFields node.fields with
  | nil => decide
  | cons field rest =>
      have hmem : field ∈ node.fields :=
        List.mem_of_mem_filter (htypes ▸ List.mem_cons_self :
          field ∈ typeFields node.fields)
      rw [hfields, mem_readFields] at hmem
      obtain ⟨entry, -, hne, heq⟩ := hmem
      simpa [heq] using hne

include hamended

/-- A member that is a string is found in the amended node. -/
theorem lookup_amended_str {key text : JsString}
    (hlookup : node.values.lookup key = some (.str text))
    (hkey : key ≠ js "@context") :
    (node.amended ρ).values.lookup key = some (.str text) := by
  have hfield : { toSourceProperty := resolveProperty P key node.context
                  value := .str text } ∈ node.fields := by
    rw [hfields, mem_readFields]
    exact ⟨_, AssocList.mem_of_lookup_eq_some hlookup, hkey, rfl⟩
  have hkeep := (hamended _ hfield).str rfl
  rw [resolveProperty_source] at hkeep
  rw [Node.amended, Json.lookup_amendMembers _ _ _
    (by rw [Amendments.beneath_apply, hkeep]; exact fun h => nomatch h),
    hlookup, Option.map_some, Json.amendChild_beneath, amendAt_str hkeep]

include hnodup

/-- The fields that declare the type are strings, so they stay. -/
theorem typeFields_amended {type : VocabularyType}
    (h : checkDocumentType P Json.tree node.values node.fields node.path
      node.context = .ok type) :
    typeFields (node.amended ρ).fields = typeFields node.fields := by
  obtain ⟨hcount, hcheck⟩ := checkDocumentType_eq_ok.mp h
  obtain ⟨text, htext⟩ := checkType_eq_ok hcheck
  have hfilter := filter_amendField (ρ := ρ) node.path
    (fun property => property.name == some (js "type")) node.fields
  change typeFields (node.amended ρ).fields =
    (typeFields node.fields).filterMap (amendField ρ node.path) at hfilter
  rw [hfilter]
  cases htypes : typeFields node.fields with
  | nil => rfl
  | cons field rest =>
      obtain rfl : rest = [] := by
        rw [htypes, List.length_cons] at hcount
        exact List.length_eq_zero_iff.mp (by omega)
      have hmem : field ∈ node.fields :=
        List.mem_of_mem_filter (htypes ▸ List.mem_cons_self :
          field ∈ typeFields node.fields)
      have hvalue : field.value = .str text := by
        have hread := hmem
        rw [hfields, mem_readFields] at hread
        obtain ⟨entry, hentry, -, heq⟩ := hread
        have hsource : typeSource node.fields = entry.1 := by
          simp [typeSource, htypes, heq]
        rw [hsource, AssocList.lookup_eq_some_of_mem hnodup hentry] at htext
        rw [heq]
        exact Option.some.inj htext
      rw [List.filterMap_cons, amendField_str (hamended field hmem) hvalue,
        List.filterMap_nil]

/-- The type of an amended node is the one that it had. -/
theorem checkDocumentType_amend {type : VocabularyType}
    (h : checkDocumentType P Json.tree node.values node.fields node.path
      node.context = .ok type) :
    checkDocumentType P Json.tree (node.amended ρ).values
      (node.amended ρ).fields node.path node.context = .ok type := by
  have htypes := typeFields_amended hnodup hfields hamended h
  have hsource : typeSource (node.amended ρ).fields = typeSource node.fields := by
    rw [typeSource, typeSource, htypes]
  obtain ⟨hcount, hcheck⟩ := checkDocumentType_eq_ok.mp h
  obtain ⟨text, htext⟩ := checkType_eq_ok hcheck
  rw [checkDocumentType_eq_ok, htypes, hsource,
    lookup_amended_str hfields hamended htext (typeSource_ne_context hfields),
    ← htext]
  exact ⟨hcount, hcheck⟩

end Node

/-- An amended node is read with the findings with which the node was read. -/
theorem readNode_amend {value : Json} (hdistinct : value.Distinct)
    {path : FieldPath} {inherited : Option Terms}
    {expected : Option (List VocabularyType)} {findings : List Diagnostic}
    {node : Node Json}
    (hread : readNode P Json.tree value path inherited expected =
      (findings, some node)) (hamended : NodeAmended P ρ node) :
    readNode P Json.tree (value.amend (ρ.beneath path)) path inherited expected =
      (findings, some (node.amended ρ)) := by
  have hnode := readNode_eq_some P hread
  obtain ⟨ms, rfl, hvalues⟩ := hnode.values
  have hnodup := (Json.distinct_obj.mp hdistinct).1
  have hpath := hnode.path_eq
  subst hpath
  have hown : ownProperties (ms.filterMap
      (Json.amendMember (ρ.beneath node.path))) = (node.amended ρ).values := by
    rw [ownProperties_amend _ hnodup, ← hvalues, Node.amended]
  have hnodup' : (node.values.map Prod.fst).Nodup := by
    rw [hvalues]
    exact nodup_ownProperties hnodup
  have hfields : readFields P (node.amended ρ).values node.context =
      (node.amended ρ).fields := by
    rw [Node.amended, readFields_amend _ _ hnodup', ← hnode.fields]
  have hcontext : ∀ inherited, checkContext P Json.tree (node.amended ρ).values
      node.path inherited =
        checkContext P Json.tree node.values node.path inherited :=
    checkContext_amend hamended.context node.values
  have htype := checkDocumentType_amend hnodup' hnode.fields hamended.fields
    hnode.type
  rw [Json.amend_obj]
  unfold readNode at hread ⊢
  rw [readDocument_obj, hown]
  rw [readDocument_obj, ← hvalues] at hread
  dsimp only at hread ⊢
  rw [hcontext]
  split at hread
  next => cases hread
  next contextFindings context hcheck =>
    obtain ⟨found, hsame⟩ := hnode.context
    rw [hcheck] at hsame
    obtain rfl : context = node.context :=
      Option.some.inj (Prod.mk.inj hsame).2
    rw [← hnode.fields, hnode.type] at hread
    rw [hfields, htype]
    dsimp only at hread ⊢
    split at hread
    next => cases hread
    next hexpected =>
      rw [if_neg hexpected, (Prod.mk.inj hread).1]
      rfl

/-! ## Amended entries -/

section Entries

variable {entry : Json} {path : FieldPath}

theorem EntryAmended.cases (h : EntryAmended P ρ entry path) :
    Json.amendAt ρ entry path = entry.amend (ρ.beneath path) ∨
      ∃ text, Json.amendAt ρ entry path = .str text ∧
        isRecord Json.tree entry = true ∧
        checkReferenceText P.toRuntime text path = [] := by
  rcases h with hkeep | ⟨text, hput, hrecord, htext⟩
  · left
    rw [Json.amendAt, hkeep]
  · right
    exact ⟨text, by rw [Json.amendAt, hput], hrecord, htext⟩

theorem EntryAmended.isNull (h : EntryAmended P ρ entry path) :
    isNull Json.tree (Json.amendAt ρ entry path) =
      Document.isNull Json.tree entry := by
  rcases h.cases with heq | ⟨text, heq, hrecord, -⟩
  · rw [heq]
    cases entry <;> rfl
  · rw [heq]
    obtain ⟨ms, rfl⟩ := (isRecord_tree entry).mp hrecord
    rfl

theorem EntryAmended.ne_arr (h : EntryAmended P ρ entry path)
    (hentry : ∀ items, entry ≠ .arr items) (items : List Json) :
    Json.amendAt ρ entry path ≠ .arr items := by
  rcases h.cases with heq | ⟨text, heq, -⟩
  · rw [heq]
    cases entry with
    | arr items => exact absurd rfl (hentry items)
    | _ => exact fun h => nomatch h
  · rw [heq]
    exact fun h => nomatch h

end Entries

theorem valueEntries_amend_arr (items : List Json) (path : FieldPath) :
    valueEntries ((Json.arr items).amend (ρ.beneath path)) path =
      (valueEntries (.arr items) path).map
        fun e => (Json.amendAt ρ e.1 e.2, e.2) := by
  rw [Json.amend_arr]
  simp only [valueEntries, List.map_map]
  apply List.ext_getElem?
  intro i
  simp only [List.getElem?_map, List.getElem?_zipIdx]
  cases items[i]? with
  | none => rfl
  | some item => simp [Json.amendChild_beneath]

/-- The entries of an amended value are the amended entries. -/
theorem valueEntries_amend {value : Json} {path : FieldPath}
    (hlist : ∀ items, value = .arr items → ρ path = .keep)
    (hentries : ∀ entry p, (entry, p) ∈ valueEntries value path →
      EntryAmended P ρ entry p) :
    valueEntries (Json.amendAt ρ value path) path =
      (valueEntries value path).map fun e => (Json.amendAt ρ e.1 e.2, e.2) := by
  by_cases harr : ∃ items, value = .arr items
  · obtain ⟨items, rfl⟩ := harr
    rw [Json.amendAt, hlist items rfl]
    exact valueEntries_amend_arr items path
  · have hne : ∀ items, value ≠ .arr items := fun items h => harr ⟨items, h⟩
    rw [valueEntries_of_ne_arr hne] at hentries ⊢
    have hentry := hentries value path (List.mem_singleton_self _)
    rw [valueEntries_of_ne_arr (hentry.ne_arr hne)]
    rfl

/-! ## Multiplicities -/

/-- An amended value is null when the value is. -/
theorem isNull_amend {value : Json} {path : FieldPath}
    (hentries : ∀ entry p, (entry, p) ∈ valueEntries value path →
      EntryAmended P ρ entry p)
    (hlist : ∀ items, value = .arr items → ρ path = .keep) :
    isNull Json.tree (Json.amendAt ρ value path) = isNull Json.tree value := by
  by_cases harr : ∃ items, value = .arr items
  · obtain ⟨items, rfl⟩ := harr
    rw [Json.amendAt, hlist items rfl]
    rfl
  · have hne : ∀ items, value ≠ .arr items := fun items h => harr ⟨items, h⟩
    rw [valueEntries_of_ne_arr hne] at hentries
    exact (hentries value path (List.mem_singleton_self _)).isNull

theorem presentEntries_amend {value : Json} {path : FieldPath}
    (hlist : ∀ items, value = .arr items → ρ path = .keep)
    (hentries : ∀ entry p, (entry, p) ∈ valueEntries value path →
      EntryAmended P ρ entry p) :
    ((valueEntries (Json.amendAt ρ value path) path).filter
        fun e => !isNull Json.tree e.1) =
      ((valueEntries value path).filter fun e => !isNull Json.tree e.1).map
        fun e => (Json.amendAt ρ e.1 e.2, e.2) := by
  rw [valueEntries_amend hlist hentries, List.filter_map]
  congr 1
  refine List.filter_congr fun e he => ?_
  rw [Function.comp_apply, (hentries e.1 e.2 he).isNull]

theorem amendField_of_ne_drop {path : FieldPath} {field : Field Json}
    (h : ρ (path ++ [.key field.source]) ≠ .drop) :
    amendField ρ path field = some (field.amended ρ path) := by
  unfold amendField
  split
  next hdrop => exact absurd hdrop h
  next => rfl

/-- A field that is dropped carries no value; one that is not carries as many
values as it did. -/
theorem FieldAmended.countValues {node : Node Json} {field : Field Json}
    (h : FieldAmended P ρ node field) :
    (amendField ρ node.path field = none ∧
      countValues Json.tree field.value = 0) ∨
    (amendField ρ node.path field = some (field.amended ρ node.path) ∧
      countValues Json.tree (field.amended ρ node.path).value =
        Document.countValues Json.tree field.value) := by
  cases h with
  | untouched h =>
      right
      have hkeep := h []
      refine ⟨amendField_of_ne_drop (by rw [hkeep]; exact fun h => nomatch h), ?_⟩
      rw [Field.amended]
      dsimp only
      rw [amendAt_of_keep]
      intro rest
      simpa using h rest
  | omitted h hchange =>
      left
      obtain ⟨change, hchange⟩ := hchange
      obtain ⟨-, -, homit⟩ := check_change P hchange
      refine ⟨by rw [amendField, h], ?_⟩
      rw [countValues_tree, presentValues_of_omittable homit, List.length_nil]
  | references visits key range hfollow hlist hentries =>
      right
      constructor
      · apply amendField_of_ne_drop
        intro hdrop
        by_cases harr : ∃ items, field.value = .arr items
        · obtain ⟨items, hitems⟩ := harr
          rw [hlist items hitems] at hdrop
          cases hdrop
        · have hne : ∀ items, field.value ≠ .arr items :=
            fun items h => harr ⟨items, h⟩
          rw [valueEntries_of_ne_arr hne] at hentries
          rcases hentries _ _ (List.mem_singleton_self _) with
            hkeep | ⟨text, hput, -⟩
          · rw [hkeep] at hdrop
            cases hdrop
          · rw [hput] at hdrop
            cases hdrop
      · rw [Field.amended, countValues_tree, countValues_tree,
          presentValues_eq _ (node.path ++ [.key field.source]),
          presentValues_eq field.value (node.path ++ [.key field.source]),
          presentEntries_amend hlist hentries, List.length_map,
          List.length_map, List.length_map]

/-- The suppliers of functional properties stay, and keep their numbers of
values. -/
theorem functionalSuppliers_amend {node : Node Json}
    (hamended : ∀ field ∈ node.fields, FieldAmended P ρ node field)
    (type : VocabularyType) :
    functionalSuppliers P Json.tree type
        (node.fields.filterMap (amendField ρ node.path)) =
      (functionalSuppliers P Json.tree type node.fields).map
        (Field.amended ρ node.path) := by
  unfold functionalSuppliers
  rw [List.filter_filterMap, ← List.filterMap_eq_map, List.filterMap_filter]
  refine List.filterMap_congr fun field hfield => ?_
  rcases (hamended field hfield).countValues with ⟨hnone, hzero⟩ | ⟨hsome, hcount⟩
  · rw [hnone, hzero]
    simp
  · rw [hsome]
    have hsource : (field.amended ρ node.path).toSourceProperty =
        field.toSourceProperty := rfl
    simp only [Option.filter, hcount, hsource, Function.comp_apply]

theorem findMultipleAliases_amend {node : Node Json}
    (hamended : ∀ field ∈ node.fields, FieldAmended P ρ node field)
    (type : VocabularyType) :
    findMultipleAliases P Json.tree type
        (node.fields.filterMap (amendField ρ node.path)) =
      findMultipleAliases P Json.tree type node.fields := by
  have hcounts : ∀ field ∈ functionalSuppliers P Json.tree type node.fields,
      countValues Json.tree (field.amended ρ node.path).value =
        countValues Json.tree field.value := by
    intro field hfield
    obtain ⟨hmem, hsupplies⟩ := List.mem_filter.mp hfield
    rcases (hamended field hmem).countValues with ⟨-, hzero⟩ | ⟨-, hcount⟩
    · simp [hzero] at hsupplies
    · exact hcount
  unfold findMultipleAliases
  rw [functionalSuppliers_amend hamended]
  simp only [List.filter_map, List.map_map, List.length_map]
  refine congrArg (List.map _) (List.filter_congr fun field hfield => ?_)
  simp only [Function.comp_apply, hcounts field hfield]
  rfl

/-! ## Events of an amended walk -/

variable (ρ) in
/-- Nothing new is reported, and only changes of kept fields are proposed. -/
structure Within (events others : Item Json) : Prop where
  reports : (reportsOf events).Sublist (reportsOf others)
  changes : ∀ change, .change change ∈ events →
    .change change ∈ others ∧ ρ change.path = .keep

theorem Within.nil (others : Item Json) : Within ρ [] others :=
  ⟨List.nil_sublist _, fun _ h => nomatch h⟩

theorem Within.append {first second others more : Item Json}
    (h : Within ρ first others) (h' : Within ρ second more) :
    Within ρ (first ++ second) (others ++ more) := by
  constructor
  · rw [reportsOf, reportsOf, List.filterMap_append, List.filterMap_append]
    exact h.reports.append h'.reports
  · intro change hchange
    rcases List.mem_append.mp hchange with hmem | hmem
    · obtain ⟨hother, hkeep⟩ := h.changes change hmem
      exact ⟨List.mem_append_left _ hother, hkeep⟩
    · obtain ⟨hother, hkeep⟩ := h'.changes change hmem
      exact ⟨List.mem_append_right _ hother, hkeep⟩

theorem Within.refl {events : Item Json}
    (h : ∀ change, .change change ∈ events → ρ change.path = .keep) :
    Within ρ events events :=
  ⟨List.Sublist.refl _, fun change hchange => ⟨hchange, h change hchange⟩⟩

theorem within_reports (findings : List Diagnostic) :
    Within ρ (Document.reports findings) (Document.reports findings) := by
  refine Within.refl fun change hchange => ?_
  obtain ⟨d, -, hd⟩ := mem_reports.mp hchange
  cases hd

theorem Within.flatMap {α : Type} {f g : α → Item Json} {entries : List α}
    (h : ∀ entry ∈ entries, Within ρ (g entry) (f entry)) :
    Within ρ (entries.flatMap g) (entries.flatMap f) := by
  induction entries with
  | nil => exact Within.nil _
  | cons entry rest ih =>
      rw [List.flatMap_cons, List.flatMap_cons]
      exact (h entry List.mem_cons_self).append
        (ih fun other hother => h other (List.mem_cons_of_mem _ hother))

/-- Dropped entries cause no events. -/
theorem Within.filterMap {α β : Type} {f : α → Item Json} {g : β → Item Json}
    {select : α → Option β} {entries : List α}
    (h : ∀ entry ∈ entries, ∀ other, select entry = some other →
      Within ρ (g other) (f entry)) :
    Within ρ ((entries.filterMap select).flatMap g) (entries.flatMap f) := by
  induction entries with
  | nil => exact Within.nil _
  | cons entry rest ih =>
      have hrest := ih fun other hother =>
        h other (List.mem_cons_of_mem _ hother)
      rw [List.filterMap_cons, List.flatMap_cons]
      cases hselect : select entry with
      | none => exact (Within.nil (f entry)).append hrest
      | some other =>
          exact (h entry List.mem_cons_self other hselect).append hrest

/-! ## Events of one amended field -/

section Step

variable {node : Node Json} {findings : List Diagnostic}
  {embedded amended : Json → FieldPath → Option (List VocabularyType) →
    JsString → Item Json × List (Item Json)}
  {extension others : Json → FieldPath → List Diagnostic × List (Item Json)}

/-- The visit of an amended entry causes nothing that the visit of the entry
did not cause. -/
theorem visitEvents_within {key : JsString}
    {range : Option (List VocabularyType)} {entry : Json} {path : FieldPath}
    (hamended : EntryAmended P ρ entry path)
    (hshape : EntryShape P node entry path)
    (hwalk : isRecord Json.tree entry = true → ρ path = .keep →
      Within ρ (walkEvents (amended (entry.amend (ρ.beneath path)) path range
        key)) (walkEvents (embedded entry path range key))) :
    Within ρ (visitEvents P amended key range
        (.entry (Json.amendAt ρ entry path) path))
      (visitEvents P embedded key range (.entry entry path)) := by
  rcases hamended with hkeep | ⟨text, hput, -, htext⟩
  · by_cases hrecord : isRecord Json.tree entry = true
    · have hwithin := hwalk hrecord hkeep
      obtain ⟨ms, rfl⟩ := (isRecord_tree entry).mp hrecord
      rw [Json.amendAt, hkeep]
      simpa [visitEvents, visitItems, isRecord, Json.amend_obj, Json.shape,
        walkEvents] using hwithin
    · have hsame : Json.amendAt ρ entry path = entry := by
        rw [Json.amendAt, hkeep]
        cases hshape with
        | null => rfl
        | reference => rfl
        | embedded _ _ child h hnode =>
            obtain ⟨ms, rfl, -⟩ := hnode.values
            exact absurd ((isRecord_tree _).mpr ⟨ms, rfl⟩) hrecord
      rw [hsame]
      simp only [visitEvents, visitItems, if_neg hrecord, List.flatten_cons,
        List.flatten_nil, List.append_nil]
      exact within_reports _
  · have hquiet : visitEvents P amended key range
        (.entry (Json.amendAt ρ entry path) path) = [] := by
      rw [Json.amendAt, hput]
      simp [visitEvents, visitItems, isRecord, checkReference, Json.shape,
        htext, reports]
    rw [hquiet]
    exact Within.nil _

theorem checkedFields_amended :
    (node.amended ρ).checkedFields =
      node.checkedFields.filterMap (amendField ρ node.path) :=
  filter_amendField node.path
    (fun property => property.name != some (js "type")) node.fields

theorem plannedEntries_amend {value : Json} {path : FieldPath}
    (hlist : ∀ items, value = .arr items → ρ path = .keep)
    (hentries : ∀ entry p, (entry, p) ∈ valueEntries value path →
      EntryAmended P ρ entry p) :
    plannedEntries (Json.amendAt ρ value path) path =
      (plannedEntries value path).map
        fun e => (Json.amendAt ρ e.1 e.2, e.2) := by
  by_cases harr : ∃ items, value = .arr items
  · obtain ⟨items, rfl⟩ := harr
    have hpresent := presentEntries_amend hlist hentries
    have hkeep := hlist items rfl
    rw [Json.amendAt, hkeep, Json.amend_arr] at hpresent ⊢
    exact hpresent
  · have hne : ∀ items, value ≠ .arr items := fun items h => harr ⟨items, h⟩
    rw [valueEntries_of_ne_arr hne] at hentries
    have hentry := hentries value path (List.mem_singleton_self _)
    have hplanned : ∀ other : Json, (∀ items, other ≠ .arr items) →
        plannedEntries other path = [(other, path)] := by
      intro other hother
      cases other with
      | arr items => exact absurd rfl (hother items)
      | _ => rfl
    rw [hplanned value hne, hplanned _ (hentry.ne_arr hne)]
    rfl

/-- The amendments of a field that leaves references to check. -/
theorem FieldAmended.entries {field : Field Json}
    (h : FieldAmended P ρ node field)
    (hdrop : ρ (node.path ++ [.key field.source]) ≠ .drop) :
    (∀ items, field.value = .arr items →
      ρ (node.path ++ [.key field.source]) = .keep) ∧
    ∀ entry path, (entry, path) ∈ valueEntries field.value
      (node.path ++ [.key field.source]) → EntryAmended P ρ entry path := by
  cases h with
  | untouched h =>
      refine ⟨fun _ _ => h [], fun entry path hentry => .inl ?_⟩
      rcases valueEntries_path hentry with ⟨rfl, -⟩ | ⟨i, -, rfl, -⟩
      · exact h []
      · simpa using h [.index i]
  | omitted h => exact absurd h hdrop
  | references _ _ _ _ hlist hentries => exact ⟨hlist, hentries⟩

/-- Changes of a kept field that leaves no references. -/
theorem fieldEvents_of_kept
    (hreports : ∀ value path, ∀ item ∈ (extension value path).2,
      ∀ event ∈ item, ∃ d, event = .report d) {field : Field Json}
    (hkeep : ρ (node.path ++ [.key field.source]) = .keep)
    (hfollow : ∀ visits key range, (node.check P Json.tree field).2 ≠
      .references visits key range) :
    Within ρ
      (fieldEvents P embedded extension (node.check P Json.tree field))
      (fieldEvents P embedded extension (node.check P Json.tree field)) := by
  refine Within.refl fun change hchange => ?_
  rw [fieldEvents, List.mem_flatten] at hchange
  rcases (mem_fieldItems P).mp hchange with hown | ⟨value, path, -, hext⟩ |
    ⟨visits, key, range, hrefs, -⟩
  · obtain ⟨⟨reason, message, rfl, -⟩, -⟩ := check_change P hown
    exact hkeep
  · rcases hext with hext | ⟨item, hitem, hmem⟩
    · obtain ⟨d, -, hd⟩ := mem_reports.mp hext
      cases hd
    · obtain ⟨d, hd⟩ := hreports value path item hitem _ hmem
      cases hd
  · exact absurd hrefs (hfollow visits key range)

/-- The check of a field that was not dropped, on the amended node. -/
theorem fieldEvents_within (hnode : NodeAmended P ρ node)
    (hreports : ∀ value path, ∀ item ∈ (extension value path).2,
      ∀ event ∈ item, ∃ d, event = .report d)
    {field : Field Json} (hfield : field ∈ node.checkedFields)
    (haccepted : FieldAccepted P node field)
    (hwalk : ∀ visits key range,
      (node.check P Json.tree field).2 = .references visits key range →
      ∀ entry path, .entry entry path ∈ visits →
      isRecord Json.tree entry = true → ρ path = .keep →
      Within ρ (walkEvents (amended (entry.amend (ρ.beneath path)) path range
        key)) (walkEvents (embedded entry path range key)))
    (hdrop : ρ (node.path ++ [.key field.source]) ≠ .drop) :
    Within ρ
      (fieldEvents P amended extension
        ((node.amended ρ).check P Json.tree (field.amended ρ node.path)))
      (fieldEvents P embedded extension (node.check P Json.tree field)) := by
  have hmem := (mem_checkedFields.mp hfield).1
  have haliases := findMultipleAliases_amend hnode.fields node.type
  have hamended := hnode.fields field hmem
  by_cases hfollow : ∃ visits key range,
      (node.check P Json.tree field).2 = .references visits key range
  · obtain ⟨visits, key, range, hfollow⟩ := hfollow
    obtain ⟨hlist, hentries⟩ := hamended.entries hdrop
    obtain ⟨hempty, hnested, hsingle, hplan⟩ := haccepted.plan hfollow
    obtain ⟨-, hevents, hcheck⟩ := check_references_for hfollow
    have hplanned := plannedEntries_amend hlist hentries
    have hempty' : (field.amended ρ node.path).value ≠ .arr [] := by
      by_cases harr : ∃ items, field.value = .arr items
      · obtain ⟨items, hitems⟩ := harr
        rw [Field.amended, Json.amendAt, hlist items hitems, hitems]
        dsimp only
        rw [Json.amend_arr]
        intro h
        refine hempty ?_
        have hnil := Json.arr.inj h
        rw [List.map_eq_nil_iff, List.zipIdx_eq_nil_iff] at hnil
        rw [hitems, hnil]
      · have hne : ∀ items, field.value ≠ .arr items :=
          fun items h => harr ⟨items, h⟩
        have hentries' := hentries
        rw [valueEntries_of_ne_arr hne] at hentries'
        exact (hentries' _ _ (List.mem_singleton_self _)).ne_arr hne []
    have hnested' : ∀ e ∈ valueEntries (field.amended ρ node.path).value
        (node.path ++ [.key field.source]), ∀ items, e.1 ≠ .arr items := by
      intro e he
      rw [Field.amended, valueEntries_amend hlist hentries] at he
      obtain ⟨source, hsource, rfl⟩ := List.mem_map.mp he
      exact (hentries _ _ hsource).ne_arr (hnested _ hsource)
    have hsingle' : range.isSome = true → (plannedEntries
        (field.amended ρ node.path).value
        (node.path ++ [.key field.source])).length ≤ 1 := by
      intro hrange
      rw [Field.amended, hplanned, List.length_map]
      exact hsingle hrange
    have hamendedCheck := hcheck (node.amended ρ) (field.amended ρ node.path)
      rfl rfl haliases rfl (isNull_amend hentries hlist) hempty'
    rw [hamendedCheck, referenceVisits_eq hempty' hnested' hsingle',
      Field.amended, hplanned, fieldEvents_references]
    have hsplit : node.check P Json.tree field =
        ((node.check P Json.tree field).1, .references visits key range) := by
      rw [← hfollow]
    rw [hsplit, fieldEvents_references]
    refine Within.append ?_ ?_
    · refine Within.refl fun change hchange => ?_
      obtain ⟨d, hd⟩ := hevents _ hchange
      cases hd
    · rw [hplan]
      simp only [List.map_map, List.flatMap_map]
      refine Within.flatMap fun e he => ?_
      have hentry := plannedEntries_subset he
      refine visitEvents_within (hentries e.1 e.2 hentry)
        (entryShape_of_accepted P hfield haccepted hfollow hentry)
        fun hrecord hkeep => hwalk visits key range hfollow e.1 e.2 ?_ hrecord
          hkeep
      rw [hplan]
      exact List.mem_map_of_mem he
  · have hnone : ∀ visits key range, (node.check P Json.tree field).2 ≠
        .references visits key range :=
      fun visits key range h => hfollow ⟨visits, key, range, h⟩
    cases hamended with
    | untouched h =>
        have hfield : field.amended ρ node.path = field := by
          rw [Field.amended, amendAt_of_keep]
          intro rest
          simpa using h rest
        have hcheck : (node.amended ρ).check P Json.tree field =
            node.check P Json.tree field := by
          unfold Node.check
          rw [← haliases]
          rfl
        have hsame : fieldEvents P amended extension
            (node.check P Json.tree field) =
              fieldEvents P embedded extension (node.check P Json.tree field) := by
          unfold fieldEvents fieldItems
          split
          next => rfl
          next => rfl
          next heq => exact absurd heq (hnone _ _ _)
        rw [hfield, hcheck, hsame]
        exact fieldEvents_of_kept hreports (h []) hnone
    | omitted h => exact absurd h hdrop
    | references visits key range h => exact absurd h (hnone visits key range)

theorem stepWalk_within (hnode : NodeAmended P ρ node)
    (haccepted : NodeAccepted P node)
    (hreports : ∀ value path, ∀ item ∈ (extension value path).2,
      ∀ event ∈ item, ∃ d, event = .report d)
    (hwalk : ∀ field ∈ node.checkedFields, ∀ visits key range,
      (node.check P Json.tree field).2 = .references visits key range →
      ∀ entry path, .entry entry path ∈ visits →
      isRecord Json.tree entry = true → ρ path = .keep →
      Within ρ (walkEvents (amended (entry.amend (ρ.beneath path)) path range
        key)) (walkEvents (embedded entry path range key))) :
    Within ρ
      (walkEvents (stepWalk P (node.amended ρ) findings amended extension))
      (walkEvents (stepWalk P node findings embedded extension)) := by
  rw [walkEvents_stepWalk, walkEvents_stepWalk, checkedFields_amended]
  refine ((within_reports findings).append ?_).append
    (Within.filterMap fun field hfield other hother => ?_)
  · constructor
    · exact List.Sublist.refl _
    · intro change hchange
      cases List.mem_singleton.mp hchange
  · have hdrop : ρ (node.path ++ [.key field.source]) ≠ .drop := by
      intro hdrop
      rw [amendField, hdrop] at hother
      cases hother
    rw [amendField_of_ne_drop hdrop] at hother
    obtain rfl := Option.some.inj hother
    exact fieldEvents_within hnode hreports hfield (haccepted field hfield)
      (hwalk field hfield) hdrop

end Step

/-! ## The walk over an amended document -/

/-- The walk over an amended document finds nothing that the walk over the
document did not find. -/
theorem checkDocument_amended {fuel : ℕ} {ancestors others : List Json}
    {value : Json} {path : FieldPath} {inherited : Option Terms}
    {expected fedify : Option (List VocabularyType)}
    {findings : List Diagnostic} {node : Node Json}
    (hdistinct : value.Distinct)
    (hquiet : Quiet (walkEvents (checkDocument P Json.tree fuel ancestors value
      path inherited expected fedify)))
    (hread : readNode P Json.tree value path inherited expected =
      (findings, some node))
    (hamends : Amends P ρ node) :
    Within ρ
      (walkEvents (checkDocument P Json.tree fuel others
        (value.amend (ρ.beneath path)) path inherited expected fedify))
      (walkEvents (checkDocument P Json.tree fuel ancestors value path
        inherited expected fedify)) := by
  induction fuel generalizing ancestors others value path inherited expected
    fedify findings node with
  | zero =>
      have := hquiet (depthFinding path)
        (by simp [mem_walkEvents, checkDocument])
      cases this
  | succ fuel ih =>
      obtain ⟨_, root, hroot, haccepted, -⟩ := checkDocument_accepted P hquiet
      rw [hread] at hroot
      obtain rfl := Option.some.inj (Prod.mk.inj hroot).2
      have hnode := readNode_eq_some P hread
      have hamended := hamends node .refl
      rw [checkDocument] at hquiet ⊢
      rw [checkDocument]
      by_cases hdepth : path.length > maximumPathDepth
      · rw [if_pos hdepth] at hquiet
        have := hquiet (depthFinding path) (by simp [mem_walkEvents])
        cases this
      · have hcycle : ∀ (value : Json) (ancestors : List Json),
            (isContainer Json.tree value &&
              ancestors.any (Json.tree.same value)) = false := by simp
        have hshape : ∀ F G : List Diagnostic,
            (reports F ++ reports G : Item Json) = reports (F ++ G) := by
          simp [reports]
        rw [if_neg hdepth] at hquiet ⊢
        rw [if_neg hdepth]
        have hextension : ∀ (value : Json) (ancestors : List Json) entry p,
            checkExtension Json.tree fuel (value :: ancestors) entry p true =
              checkExtension Json.tree fuel [] entry p true :=
          fun value ancestors entry p => checkExtension_ancestors _ _ _ _ _
        simp only [hcycle, Bool.false_eq_true, if_false, hread,
          readNode_amend hdistinct hread hamended, hshape, hextension]
          at hquiet ⊢
        refine stepWalk_within hamended (haccepted.accepted node .refl)
          (fun _ _ _ hitem _ => checkExtension_events hitem) ?_
        intro field hfield visits key range hfollow entry entryPath hvisit
          hrecord hkeep
        have hbelow := (haccepted.accepted node .refl field hfield).entries
          visits key range hfollow entry entryPath hvisit
        rw [EntryAccepted, if_pos hrecord] at hbelow
        obtain ⟨childFindings, child, hchild⟩ := hbelow
        have hembedded : Embedded P node child :=
          ⟨field, hfield, visits, key, range, hfollow, entry, entryPath,
            childFindings, hvisit, hrecord, hchild⟩
        refine ih ?_ ?_ hchild fun other hother => hamends other
          (.head hembedded hother)
        · obtain ⟨-, -, hplans⟩ := check_references P hfollow
          exact hnode.entry_distinct hdistinct (mem_checkedFields.mp hfield).1
            (hplans.sound entry entryPath hvisit)
        · refine hquiet.of_subset fun event hevent =>
            mem_stepWalk_of_visit P hfield hfollow hvisit ?_
          rw [mem_visitItems_entry, if_pos hrecord]
          exact hevent

end Reading

end DrFed.Document
