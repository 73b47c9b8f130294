import DrFed.Document.Fields

/-!
# Shapes of accepted values

What the value of a field looks like once the field was accepted: references
and embedded documents, texts, a language map, or scalars.
-/

namespace DrFed.Document

/-! ## Which rule checks a property -/

/-- The properties that some type reads as numbers or link metadata. -/
def metadataProperties : List JsString :=
  [js "height", js "width", js "totalItems", js "startIndex", js "href",
    js "mediaType", js "hreflang", js "rel"]

/-- The properties that some type reads as scalars. -/
def scalarProperties : List JsString :=
  metadataProperties ++ CommonPropertyKind.datetime.properties ++ [js "id"]

theorem integerProperties_subset {R : Runtime} {type : VocabularyType} :
    integerProperties R type ⊆ metadataProperties := by
  unfold integerProperties
  split
  next => decide
  next =>
    split
    next => decide
    next =>
      split
      next => decide
      next => exact List.nil_subset _

theorem integerProperties_contains {R : Runtime} {type : VocabularyType}
    {key : JsString} (h : key ∉ metadataProperties) :
    (integerProperties R type).contains key = false := by
  rw [← Bool.not_eq_true, List.contains_iff_mem]
  exact fun hmem => h (integerProperties_subset hmem)

theorem linkProperties_subset {R : Runtime} {type : VocabularyType} :
    linkProperties R type ⊆ metadataProperties := by
  unfold linkProperties
  split
  next => decide
  next => exact List.nil_subset _

theorem linkProperties_contains {R : Runtime} {type : VocabularyType}
    {key : JsString} (h : key ∉ metadataProperties) :
    (linkProperties R type).contains key = false := by
  rw [← Bool.not_eq_true, List.contains_iff_mem]
  exact fun hmem => h (linkProperties_subset hmem)

/-! ## Shapes -/

section Platform

variable (P : Platform)

/-- A value that is neither an object nor a list. -/
def IsScalar (value : Json) : Prop :=
  (∀ ms, value ≠ .obj ms) ∧ ∀ items, value ≠ .arr items

/-- A text: a string, an explicit text value, or null. -/
def IsText (value : Json) : Prop :=
  value = .null ∨ (∃ text, value = .str text) ∨
    ∃ ms, value = .obj ms ∧
      ((ownProperties ms).lookup (js "@value")).isSome = true

/-- What the value of an accepted field is. -/
inductive ValueShape (node : Node Json) (key : JsString) (value : Json)
    (path : FieldPath) : Prop
  | references (h : ∀ entry p, (entry, p) ∈ valueEntries value path →
      EntryShape P node entry p)
  | texts (hkey : key ∈ CommonPropertyKind.text.properties)
      (h : ∀ entry p, (entry, p) ∈ valueEntries value path → IsText entry)
  | languageMap (hkey : key ∈ CommonPropertyKind.languageMap.properties)
      (h : value = .null ∨ ∃ ms, value = .obj ms ∧ ∀ entry ∈ ms,
        entry.2 = .null ∨ ∃ text, entry.2 = .str text)
  | scalars (hkey : key ∈ scalarProperties)
      (h : ∀ entry p, (entry, p) ∈ valueEntries value path → IsScalar entry)

/-- The shape of a value that a check accepted entry by entry. -/
theorem scalars_of_plans {visits : List (Visit Json)} {value : Json}
    {path : FieldPath} (hplans : Plans visits value path)
    {check : Json → FieldPath → List Diagnostic}
    (hquiet : hasError (runVisits check visits) = false)
    (hcheck : ∀ e p, hasError (check e p) = false → IsScalar e) :
    ∀ entry p, (entry, p) ∈ valueEntries value path → IsScalar entry := by
  intro entry p hentry
  rcases hplans.runVisits hquiet entry p hentry with rfl | hok
  · exact ⟨by simp, by simp⟩
  · exact hcheck entry p hok

theorem checkNonNegativeInteger_scalar {e : Json} {p : FieldPath}
    (h : hasError (checkNonNegativeInteger Json.tree e p) = false) :
    IsScalar e := by
  cases e with
  | obj ms => cases h
  | arr items => cases h
  | _ => exact ⟨by simp, by simp⟩

theorem checkDateTime_scalar {R : Runtime} {e : Json} {p : FieldPath}
    (h : hasError (checkDateTime R Json.tree e p) = false) : IsScalar e := by
  cases e with
  | obj ms => cases h
  | arr items => cases h
  | _ => exact ⟨by simp, by simp⟩

theorem checkLinkScalar_scalar {R : Runtime} {key : JsString} {e : Json}
    {p : FieldPath}
    (h : hasError (checkLinkScalar R Json.tree key e p) = false) :
    IsScalar e := by
  cases e with
  | obj ms => cases h
  | arr items => cases h
  | _ => exact ⟨by simp, by simp⟩

theorem checkLinkRelation_scalar {R : Runtime} {e : Json} {p : FieldPath}
    (h : hasError (checkLinkRelation R Json.tree e p) = false) :
    IsScalar e := by
  cases e with
  | obj ms => cases h
  | arr items => cases h
  | _ => exact ⟨by simp, by simp⟩

theorem checkText_text {R : Runtime} {e : Json} {p : FieldPath} {plain : Bool}
    (h : hasError (checkText R Json.tree e p plain) = false) : IsText e := by
  cases e with
  | null => exact .inl rfl
  | str text => exact .inr (.inl ⟨text, rfl⟩)
  | obj ms =>
      refine .inr (.inr ⟨ms, rfl, ?_⟩)
      simp only [checkText, Json.look_tree, Json.shape, readDocument_obj] at h
      split at h
      · cases h
      next hvalue => simpa [Option.isNone_iff_eq_none,
          Option.isSome_iff_ne_none] using hvalue
  | _ => cases h

theorem hasError_flatMap {α : Type} {l : List α} {f : α → List Diagnostic}
    (h : hasError (l.flatMap f) = false) {a : α} (ha : a ∈ l) :
    hasError (f a) = false := by
  rw [hasError, List.any_eq_false] at h ⊢
  exact fun d hd => h d (List.mem_flatMap.mpr ⟨a, ha, hd⟩)

theorem checkLanguageMap_shape {R : Runtime} {value : Json} {p : FieldPath}
    {plain : Bool}
    (h : hasError (checkLanguageMap R Json.tree value p plain) = false) :
    value = .null ∨ ∃ ms, value = .obj ms ∧ ∀ entry ∈ ms,
      entry.2 = .null ∨ ∃ text, entry.2 = .str text := by
  cases value with
  | null => exact .inl rfl
  | obj ms =>
      refine .inr ⟨ms, rfl, fun entry hentry => ?_⟩
      simp only [checkLanguageMap, Json.look_tree, Json.shape,
        readDocument_obj] at h
      have hmem : entry ∈ sortByKey (ownProperties ms) :=
        (sortByKey_perm _).mem_iff.mpr (mem_ownProperties.mpr hentry)
      have hone := hasError_flatMap h hmem
      obtain ⟨language, value⟩ := entry
      rw [hasError_append, Bool.or_eq_false_iff] at hone
      cases value with
      | null => exact .inl rfl
      | str text => exact .inr ⟨text, rfl⟩
      | _ => cases hone.2
  | _ => cases h

/-! ## Accepted fields -/

/-- On a tree, an omission always comes with its change. -/
theorem proposePropertyOmission_change {value : Json} {path : FieldPath}
    {identifier : Bool} {findings : List Diagnostic} :
    proposePropertyOmission Json.tree value path identifier ≠
      some (findings, none) := by
  intro h
  unfold proposePropertyOmission at h
  cases value with
  | null =>
      simp only [Json.look_tree, Json.shape] at h
      split at h <;> cases h
  | arr items =>
      have hnone : ((valueEntries (.arr items) path).map fun e =>
          (Visit.entry e.1 e.2 : Visit Json)).filterMap Visit.finding? = [] := by
        rw [List.filterMap_eq_nil_iff]
        intro visit hvisit
        obtain ⟨e, -, rfl⟩ := List.mem_map.mp hvisit
        rfl
      simp only [Json.look_tree, Json.shape, visitList_tree, hnone] at h
      split at h
      next => cases h
      next =>
        split at h
        next hfindings => cases hfindings
        next => split at h <;> cases h
  | _ => cases h

/-- How a field with a standard name was accepted. -/
inductive FieldChecked (node : Node Json) (field : Field Json)
    (key : JsString) : Prop
  | inapplicable (h : field.value = .null)
  | omitted (h : Omittable field.name field.value)
  | checked
      (hfollow : (node.check P Json.tree field).2 =
        (checkValueRules P Json.tree node.type key field.value
          (node.path ++ [.key field.source])).2)
      (hquiet : hasError (checkValueRules P Json.tree node.type key field.value
        (node.path ++ [.key field.source])).1 = false)

section Quiet

variable {P} {node : Node Json} {field : Field Json} {key : JsString}

theorem compatible_of_quiet (hname : field.name = some key)
    (hquiet : Quiet (node.check P Json.tree field).1) :
    field.compatible = true := by
  by_contra hcompatible
  unfold Node.check checkField checkNamedField at hquiet
  rw [Bool.not_eq_true] at hcompatible
  simp only [hname, hcompatible, Bool.not_false, if_true] at hquiet
  have herror := hquiet _ List.mem_cons_self
  cases herror

theorem fieldChecked_of_quiet (hname : field.name = some key)
    (hquiet : Quiet (node.check P Json.tree field).1) :
    FieldChecked P node field key ∧
      (field.value = .null ∨ (findMultipleAliases P Json.tree node.type
        node.fields).contains field.source = false) := by
  have hcompatible := compatible_of_quiet hname hquiet
  unfold Node.check checkField checkNamedField at hquiet
  simp only [hname, hcompatible, Bool.not_true, Bool.false_eq_true,
    if_false] at hquiet
  split at hquiet
  next hinapplicable =>
    split at hquiet
    next hnull =>
      have hvalue := (isNull_tree _).mp hnull
      exact ⟨.inapplicable hvalue, .inl hvalue⟩
    next =>
      have herror := hquiet _ List.mem_cons_self
      cases herror
  next happlicable =>
    have hfalse := happlicable
    rw [Bool.not_eq_true] at hfalse
    have hmultiple : (findMultipleAliases P Json.tree node.type
        node.fields).contains field.source = false := by
      by_contra hmultiple
      rw [Bool.not_eq_false] at hmultiple
      have herror : (⟨.invalidMultiplicity, node.path ++ [.key field.source],
          "Multiple aliases supply values for one functional property."⟩ :
            Diagnostic).isError = false := by
        apply hquiet
        rw [hmultiple, if_pos rfl]
        split
        · exact List.mem_append_left _ (List.mem_append_left _
            List.mem_cons_self)
        · exact List.mem_append_left _ List.mem_cons_self
      cases herror
    refine ⟨?_, .inr hmultiple⟩
    split at hquiet
    next findings change homission =>
      split at homission
      next =>
        cases change with
        | none => exact absurd homission proposePropertyOmission_change
        | some change =>
            obtain ⟨-, hvalue⟩ := proposePropertyOmission_eq_some homission
            refine .omitted (hvalue.imp id fun hid => ⟨?_, hid.2⟩)
            rw [hname, List.mem_singleton.mp
              (getCommonPropertyKind_mem (beq_iff_eq.mp hid.1))]
      next => cases homission
    next homission =>
      refine .checked ?_ ?_
      · unfold Node.check checkField checkNamedField
        simp only [hname, hcompatible, Bool.not_true, Bool.false_eq_true,
          if_false, hfalse]
        split
        next hsome =>
          rw [homission] at hsome
          cases hsome
        next => rfl
      · rw [← quiet_reports (ι := Json)]
        exact hquiet.of_subset fun event hevent =>
          List.mem_append_right _ hevent

end Quiet

/-! ## The shape of a field -/

theorem two_le_length {α : Type} {l : List α} {a b : α} (ha : a ∈ l)
    (hb : b ∈ l) (hne : b ≠ a) : 2 ≤ l.length := by
  match l with
  | [] => cases ha
  | [c] =>
      rw [List.mem_singleton] at ha hb
      exact absurd (hb.trans ha.symm) hne
  | _ :: _ :: _ => exact Nat.le_add_left 2 _


section Shape

variable {P} {node : Node Json} {field : Field Json} {key : JsString}

/-- Entries that are all null. -/
theorem ValueShape.nulls {value : Json} {path : FieldPath}
    (h : ∀ entry p, (entry, p) ∈ valueEntries value path → entry = .null) :
    ValueShape P node key value path := by
  refine .references fun entry p hentry => ?_
  rw [h entry p hentry]
  exact .null p

theorem ValueShape.null {path : FieldPath} :
    ValueShape P node key .null path := by
  apply ValueShape.nulls
  intro entry p hentry
  obtain ⟨rfl, -⟩ := Prod.mk.inj (List.mem_singleton.mp hentry)
  rfl

theorem valueEntries_arr {items : List Json} {path p : FieldPath}
    {entry : Json} (h : (entry, p) ∈ valueEntries (.arr items) path) :
    entry ∈ items := by
  obtain ⟨⟨item, i⟩, hmem, heq⟩ := List.mem_map.mp h
  obtain ⟨rfl, -⟩ := Prod.mk.inj heq
  exact (List.mem_zipIdx hmem).2.2 ▸ List.getElem_mem _

/-- The shape of a value that the rule of a common property accepted. -/
theorem commonShape {value : Json} {path : FieldPath}
    {findings : List Diagnostic}
    (hcommon : checkCommonProperty P.toRuntime Json.tree
      (getCommonPropertyKind P.toRuntime node.type key) key value path =
        some findings)
    (hquiet : hasError findings = false) :
    ValueShape P node key value path := by
  cases hkind : getCommonPropertyKind P.toRuntime node.type key with
  | none =>
      rw [hkind, checkCommonProperty] at hcommon
      split at hcommon
      next hnull =>
        rw [(isNull_tree _).mp hnull]
        exact .null
      next => cases hcommon
  | some kind =>
      have hkey := getCommonPropertyKind_mem hkind
      have hscalar : ∀ kind ∈ [CommonPropertyKind.datetime, .id, .mediaType],
          kind.properties ⊆ scalarProperties := by decide
      rw [hkind] at hcommon
      cases kind with
      | text =>
          obtain rfl := Option.some.inj hcommon
          refine .texts hkey fun entry p hentry => ?_
          rcases (checkReferenceValues_plans _ _).runVisits hquiet entry p
            hentry with hnull | hcheck
          · exact .inl hnull
          · exact checkText_text hcheck
      | languageMap =>
          obtain rfl := Option.some.inj hcommon
          exact .languageMap hkey
            (checkLanguageMap_shape hquiet)
      | datetime =>
          obtain rfl := Option.some.inj hcommon
          exact .scalars (hscalar _ (by decide) hkey) (scalars_of_plans
            (checkSingleValue_plans _ _) hquiet fun e p =>
              checkDateTime_scalar)
      | id =>
          rw [checkCommonProperty] at hcommon
          split at hcommon
          next text htext =>
            refine .scalars (hscalar _ (by decide) hkey) fun entry p hentry => ?_
            cases value with
            | str value =>
                obtain ⟨rfl, -⟩ := Prod.mk.inj (List.mem_singleton.mp hentry)
                exact ⟨by simp, by simp⟩
            | _ => cases htext
          next =>
            obtain rfl := Option.some.inj hcommon
            cases hquiet
      | mediaType =>
          obtain rfl := Option.some.inj hcommon
          have hmedia : key = js "mediaType" := List.mem_singleton.mp hkey
          refine .scalars (hscalar _ (by decide) hkey) (scalars_of_plans
            (checkSingleValue_plans _ _) hquiet fun e p hcheck => ?_)
          rw [checkLinkProperty, if_neg (by rw [hmedia]; decide)] at hcheck
          exact checkLinkScalar_scalar hcheck

/-- The value of an accepted field has the shape that its property takes. -/
theorem valueShape (hfield : field ∈ node.checkedFields)
    (haccepted : FieldAccepted P node field) (hname : field.name = some key) :
    ValueShape P node key field.value (node.path ++ [.key field.source]) := by
  cases (fieldChecked_of_quiet hname haccepted.quiet).1 with
  | inapplicable hnull =>
      rw [hnull]
      exact .null
  | omitted homitted =>
      rcases homitted with hempty | ⟨-, hnull | ⟨items, hitems, hnulls⟩⟩
      · rw [hempty]
        exact .nulls fun entry p hentry =>
          absurd (valueEntries_arr hentry) List.not_mem_nil
      · rw [hnull]
        exact .null
      · rw [hitems]
        exact .nulls fun entry p hentry =>
          hnulls entry (valueEntries_arr hentry)
  | checked hfollow hquiet =>
      have hmetadata : metadataProperties ⊆ scalarProperties := by decide
      unfold checkValueRules at hfollow hquiet
      dsimp only at hfollow hquiet
      split at hquiet
      next hinteger =>
        refine .scalars (hmetadata (integerProperties_subset
          (List.contains_iff_mem.mp hinteger))) ?_
        exact scalars_of_plans (checkSingleValue_plans _ _) hquiet
          fun e p => checkNonNegativeInteger_scalar
      next hinteger =>
        rw [if_neg hinteger] at hfollow
        split at hquiet
        next hlink =>
          refine .scalars (hmetadata (linkProperties_subset
            (List.contains_iff_mem.mp hlink))) ?_
          dsimp only at hquiet
          split at hquiet
          next hrel =>
            rw [checkLinkProperty, if_pos hrel] at hquiet
            exact scalars_of_plans (checkReferenceValues_plans _ _) hquiet
              fun e p => checkLinkRelation_scalar
          next hrel =>
            refine scalars_of_plans (checkSingleValue_plans _ _) hquiet
              fun e p hcheck => ?_
            rw [checkLinkProperty, if_neg hrel] at hcheck
            exact checkLinkScalar_scalar hcheck
        next hlink =>
          rw [if_neg hlink] at hfollow
          split at hquiet
          next findings hcommon => exact commonShape hcommon hquiet
          next hcommon =>
            rw [hcommon] at hfollow
            dsimp only at hfollow
            split at hquiet
            next =>
              refine .nulls fun entry p hentry => ?_
              rcases (checkReferenceValues_plans _ _).runVisits hquiet entry p
                hentry with hnull | hcheck
              · exact hnull
              · by_contra hne
                rw [← isNull_tree] at hne
                rw [if_neg hne] at hcheck
                cases hcheck
            next hintransitive =>
              rw [if_neg hintransitive] at hfollow
              split at hquiet
              next hrange =>
                rw [if_pos hrange] at hfollow
                exact .references fun entry p =>
                  entryShape_of_accepted P hfield haccepted hfollow
              next hrange =>
                rw [if_neg hrange] at hfollow
                split at hquiet
                next hreference =>
                  rw [if_pos hreference] at hfollow
                  exact .references fun entry p =>
                    entryShape_of_accepted P hfield haccepted hfollow
                next => cases hquiet

/-! ## Functional properties -/

/-- A functional property has a value in one spelling only. -/
theorem functional_unique (haccepted : NodeAccepted P node)
    {first second : Field Json} (hfirst : first ∈ node.checkedFields)
    (hsecond : second ∈ node.checkedFields) (hname : first.name = some key)
    (hother : second.name = some key) (hiri : first.iri.isSome = true)
    (hsame : second.iri = first.iri)
    (hfunctional : isFunctionalProperty P.toRuntime node.type key = true)
    (hpresent : (presentValues first.value).length = 1)
    (hvalue : presentValues second.value ≠ []) : second = first := by
  by_contra hne
  have hsupplies : ∀ field ∈ node.checkedFields, field.name = some key →
      field.iri.isSome = true → presentValues field.value ≠ [] →
        field ∈ functionalSuppliers P Json.tree node.type node.fields := by
    intro field hfield hname hiri hpresent
    refine List.mem_filter.mpr ⟨(List.mem_filter.mp hfield).1, ?_⟩
    rw [countValues_tree, hname, hiri]
    simpa [hfunctional] using hpresent
  have hmem := hsupplies first hfirst hname hiri
    (by rw [← List.length_pos_iff, hpresent]; exact Nat.one_pos)
  have hmem' := hsupplies second hsecond hother (by rw [hsame, hiri]) hvalue
  rcases (fieldChecked_of_quiet hname (haccepted first hfirst).quiet).2 with
    hnull | hmultiple
  · rw [hnull] at hpresent
    cases hpresent
  · rw [← Bool.not_eq_true, List.contains_iff_mem] at hmultiple
    apply hmultiple
    refine List.mem_map_of_mem (List.mem_filter.mpr ⟨hmem, ?_⟩)
    have htwo : 2 ≤ ((functionalSuppliers P Json.tree node.type
        node.fields).filter fun other => other.iri == first.iri).length := by
      have hself : first ∈ (functionalSuppliers P Json.tree node.type
          node.fields).filter fun other => other.iri == first.iri :=
        List.mem_filter.mpr ⟨hmem, by simp⟩
      have hboth : second ∈ (functionalSuppliers P Json.tree node.type
          node.fields).filter fun other => other.iri == first.iri :=
        List.mem_filter.mpr ⟨hmem', by simp [hsame]⟩
      exact two_le_length hself hboth hne
    rw [countValues_tree, hpresent]
    simpa using htwo

end Shape

end Platform

end DrFed.Document
