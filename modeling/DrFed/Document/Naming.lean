import DrFed.Document.Description
import DrFed.Document.Shapes

/-!
# How embedded documents are named

An embedded document names a resource by its `id`, a `Link` by its `href`.
Both are functional, so an accepted document has at most one such string over
all spellings of the property.
-/

namespace DrFed.Document

/-- What the bundled ActivityStreams context says about identifiers. -/
structure StandardVocabulary (P : Platform) : Prop where
  id : (P.standardTerms.lookup (js "id")).map ContextTerm.iri = some (js "@id")
  type : (P.standardTerms.lookup (js "type")).map ContextTerm.iri =
    some (js "@type")

theorem standardVocabulary_reduced : StandardVocabulary reducedPlatform :=
  ⟨by decide +kernel, by decide +kernel⟩

section Platform

variable {P : Platform}

/-! ## Names and IRIs of properties -/

/-- The standard name of a key determines its IRI. -/
theorem resolveProperty_iri (hvocabulary : StandardVocabulary P)
    {source key : JsString} {context : Terms}
    (h : (resolveProperty P source context).name = some key) :
    (resolveProperty P source context).iri =
        (P.standardTerms.lookup key).map ContextTerm.iri ∧
      (resolveProperty P source context).iri.isSome = true := by
  unfold resolveProperty at h ⊢
  dsimp only at h ⊢
  split at h
  next name standard hfind =>
    obtain rfl := Option.some.inj h
    have hlookup := AssocList.lookup_eq_some_of_mem
      (standardTerms_wellFormed P).nodup (List.mem_of_find?_eq_some hfind)
    rw [hlookup]
    exact ⟨rfl, rfl⟩
  next =>
    split at h
    next hid =>
      obtain rfl := Option.some.inj h
      rw [if_pos hid, hvocabulary.id]
      exact ⟨rfl, rfl⟩
    next hid =>
      rw [if_neg hid]
      split at h
      next htype =>
        obtain rfl := Option.some.inj h
        rw [if_pos htype, hvocabulary.type]
        exact ⟨rfl, rfl⟩
      next => cases h

/-- A value determines the node that is read from it. -/
theorem NodeOf.unique {value : Json} {path : FieldPath}
    {inherited : Option Terms} {node other : Node Json}
    (h : NodeOf P value path inherited node)
    (hother : NodeOf P value path inherited other) : other = node := by
  obtain ⟨ms, rfl, hvalues⟩ := h.values
  obtain ⟨ms', hms, hvalues'⟩ := hother.values
  obtain rfl := Json.obj.inj hms
  have hvalue : other.values = node.values := by rw [hvalues, hvalues']
  have hpath : other.path = node.path := by rw [h.path_eq, hother.path_eq]
  have hcontext : other.context = node.context := by
    obtain ⟨findings, hcheck⟩ := h.context
    obtain ⟨findings', hcheck'⟩ := hother.context
    rw [hvalue, hcheck] at hcheck'
    exact (Option.some.inj (Prod.mk.inj hcheck').2).symm
  have hfields : other.fields = node.fields := by
    rw [h.fields, hother.fields, hvalue, hcontext]
  have htype : other.type = node.type := by
    have hcheck := h.type
    rw [← hvalue, ← hfields, ← hcontext, hother.type] at hcheck
    exact Except.ok.inj hcheck
  obtain ⟨values, path, context, type, fields⟩ := node
  obtain ⟨values', path', context', type', fields'⟩ := other
  simp_all

/-! ## The naming property -/

variable (P) in
def isLink (type : VocabularyType) : Bool := P.isTypeOrSubtype type .link

variable (P) in
/-- The property by which a document of a type names a resource. -/
def nameProperty (type : VocabularyType) : JsString :=
  if isLink P type then js "href" else js "id"

theorem isFunctionalProperty_nameProperty (type : VocabularyType) :
    isFunctionalProperty P.toRuntime type (nameProperty P type) = true := by
  unfold nameProperty
  split
  next hlink =>
    unfold isFunctionalProperty
    split
    next => rfl
    next =>
      split
      next => rfl
      next =>
        rw [if_pos (show P.isTypeOrSubtype type .link = true from hlink)]
        decide
  next => rfl

theorem getCommonPropertyKind_id {R : Runtime} {type : VocabularyType} :
    getCommonPropertyKind R type (js "id") = some .id := by
  have htext : (textProperties R type).contains (js "id") = false := by
    rw [← Bool.not_eq_true, List.contains_iff_mem]
    intro hmem
    have hall := textProperties_subset hmem
    revert hall
    decide
  have hmap : ((textProperties R type).any fun name =>
      js "id" == name ++ js "Map" && name != js "preferredUsername") =
        false := by
    rw [List.any_eq_false]
    intro name hname
    have hall : ∀ name ∈ allTextProperties, ¬(js "id" == name ++ js "Map" &&
        name != js "preferredUsername") = true := by decide
    exact hall name (textProperties_subset hname)
  have htime : [js "published", js "updated", js "startTime",
      js "endTime"].contains (js "id") = false := by decide
  unfold getCommonPropertyKind
  simp only [htext, hmap, htime, Bool.false_eq_true, if_false, Bool.and_false,
    if_true]

section Node

variable {node : Node Json} {field : Field Json}

/-- An accepted identifier is a string, unless it carries no value. -/
theorem id_value (haccepted : FieldAccepted P node field)
    (hname : field.name = some (js "id")) :
    presentValues field.value = [] ∨ ∃ text, field.value = .str text := by
  cases (fieldChecked_of_quiet hname haccepted.quiet).1 with
  | inapplicable hnull =>
      rw [hnull]
      exact .inl rfl
  | omitted homitted => exact .inl (presentValues_of_omittable homitted)
  | checked _ hquiet =>
      have hmetadata : js "id" ∉ metadataProperties := by decide
      unfold checkValueRules at hquiet
      simp only [integerProperties_contains hmetadata,
        linkProperties_contains hmetadata, Bool.false_eq_true, if_false,
        getCommonPropertyKind_id, checkCommonProperty] at hquiet
      cases hvalue : field.value with
      | str text => exact .inr ⟨text, rfl⟩
      | _ =>
          rw [hvalue] at hquiet
          cases hquiet

/-- An accepted `href` of a `Link` carries at most one value. -/
theorem href_value (haccepted : FieldAccepted P node field)
    (hname : field.name = some (js "href")) (hlink : isLink P node.type = true) :
    (presentValues field.value).length ≤ 1 := by
  cases (fieldChecked_of_quiet hname haccepted.quiet).1 with
  | inapplicable hnull =>
      rw [hnull]
      exact Nat.zero_le 1
  | omitted homitted =>
      rw [presentValues_of_omittable homitted]
      exact Nat.zero_le 1
  | checked _ hquiet =>
      have hinteger : (integerProperties P.toRuntime node.type).contains
          (js "href") = false := by
        unfold integerProperties
        rw [if_pos (show P.isTypeOrSubtype node.type .link = true from hlink)]
        decide
      have hmetadata : (linkProperties P.toRuntime node.type).contains
          (js "href") = true := by
        unfold linkProperties
        rw [if_pos (show P.isTypeOrSubtype node.type .link = true from hlink)]
        decide
      have hrel : js "href" ≠ js "rel" := by decide
      unfold checkValueRules at hquiet
      simp only [hinteger, Bool.false_eq_true, if_false, hmetadata, if_true,
        if_neg hrel] at hquiet
      exact checkSingleValue_present hquiet

variable (P) in
/-- A string by which a document names a resource. -/
def NamedBy (node : Node Json) (text : JsString) : Prop :=
  ∃ field ∈ node.fields, field.name = some (nameProperty P node.type) ∧
    .str text ∈ presentValues field.value

theorem nameProperty_checked (hfield : field ∈ node.fields)
    (hname : field.name = some (nameProperty P node.type)) :
    field ∈ node.checkedFields := by
  refine mem_checkedFields.mpr ⟨hfield, ?_⟩
  rw [hname]
  unfold nameProperty
  split <;> decide

/-- The value of the naming property in an accepted document. -/
theorem name_value (haccepted : NodeAccepted P node)
    (hfield : field ∈ node.fields)
    (hname : field.name = some (nameProperty P node.type)) :
    (presentValues field.value).length ≤ 1 ∧
      (isLink P node.type = false →
        presentValues field.value = [] ∨ ∃ text, field.value = .str text) := by
  have hchecked := haccepted field (nameProperty_checked hfield hname)
  by_cases hlink : isLink P node.type = true
  · rw [nameProperty, if_pos hlink] at hname
    refine ⟨href_value hchecked hname hlink, fun hfalse => ?_⟩
    rw [hlink] at hfalse
    cases hfalse
  · rw [nameProperty, if_neg hlink] at hname
    have hvalue := id_value hchecked hname
    refine ⟨?_, fun _ => hvalue⟩
    rcases hvalue with hnil | ⟨text, htext⟩
    · rw [hnil]
      exact Nat.zero_le 1
    · rw [htext]
      exact Nat.le_refl 1

/-- One spelling of the naming property has a value. -/
theorem name_field_unique (hvocabulary : StandardVocabulary P)
    (haccepted : NodeAccepted P node)
    (hfields : node.fields = readFields P node.values node.context)
    {other : Field Json} (hfield : field ∈ node.fields)
    (hother : other ∈ node.fields)
    (hname : field.name = some (nameProperty P node.type))
    (hsame : other.name = some (nameProperty P node.type))
    (hvalue : presentValues field.value ≠ [])
    (hpresent : presentValues other.value ≠ []) : other = field := by
  have hiri : ∀ f ∈ node.fields, f.name = some (nameProperty P node.type) →
      f.iri = (P.standardTerms.lookup (nameProperty P node.type)).map
        ContextTerm.iri ∧ f.iri.isSome = true := by
    intro f hf hname
    rw [hfields, mem_readFields] at hf
    obtain ⟨entry, -, -, rfl⟩ := hf
    exact resolveProperty_iri hvocabulary hname
  have hcount := (name_value haccepted hfield hname).1
  refine functional_unique haccepted (nameProperty_checked hfield hname)
    (nameProperty_checked hother hsame) hname hsame (hiri field hfield hname).2
    ?_ (isFunctionalProperty_nameProperty node.type) ?_ hpresent
  · rw [(hiri field hfield hname).1, (hiri other hother hsame).1]
  · have hpositive := List.length_pos_iff.mpr hvalue
    omega

end Node

end Platform

end DrFed.Document
