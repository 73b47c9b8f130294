import DrFed.Document.Naming

/-!
# Plans of reference properties

On a tree a reference property that was accepted plans one visit for each of
its entries, so the events of a walk are those of its fields and entries, one
after the other.
-/

namespace DrFed.Document

section Platform

variable {P : Platform}

/-! ## Entries of a value -/

/-- An entry of a field sits at the key of the field or in the list there. -/
theorem valueEntries_path {value entry : Json} {q p : FieldPath}
    (h : (entry, p) ∈ valueEntries value q) :
    (p = q ∧ entry = value) ∨
      ∃ i items, p = q ++ [.index i] ∧ value = .arr items ∧
        items[i]? = some entry := by
  cases value with
  | arr items =>
      right
      simp only [valueEntries, List.mem_map] at h
      obtain ⟨⟨item, i⟩, hmem, heq⟩ := h
      obtain ⟨rfl, rfl⟩ := Prod.mk.inj heq
      exact ⟨i, items, rfl, rfl, by
        simpa [List.mem_zipIdx_iff_getElem?] using hmem⟩
  | _ =>
      left
      simp only [valueEntries, List.mem_singleton, Prod.mk.injEq] at h
      exact ⟨h.2, h.1⟩

theorem valueEntries_of_ne_arr {value : Json}
    (h : ∀ items, value ≠ .arr items) (path : FieldPath) :
    valueEntries value path = [(value, path)] := by
  cases value with
  | arr items => exact absurd rfl (h items)
  | _ => rfl

theorem valueEntries_distinct {value entry : Json} {path p : FieldPath}
    (hdistinct : value.Distinct) (h : (entry, p) ∈ valueEntries value path) :
    entry.Distinct := by
  rcases valueEntries_path h with ⟨-, rfl⟩ | ⟨i, items, -, rfl, hi⟩
  · exact hdistinct
  · exact Json.distinct_arr.mp hdistinct entry (List.mem_of_getElem? hi)

/-! ## Planned entries -/

/-- The entries of a reference property on which the walk runs its check. -/
def plannedEntries (value : Json) (path : FieldPath) :
    List (Json × FieldPath) :=
  match value with
  | .arr items =>
      (valueEntries (.arr items) path).filter fun e => !isNull Json.tree e.1
  | value => [(value, path)]

/-- The plan of a reference property. -/
def referenceVisits (range : Option (List VocabularyType)) (value : Json)
    (path : FieldPath) : List (Visit Json) :=
  if range.isSome then checkSingleValue Json.tree value path
  else checkReferenceValues Json.tree value path

theorem checkReferenceEntry_eq {entry : Json} (path : FieldPath)
    (h : ∀ items, entry ≠ .arr items) :
    checkReferenceEntry Json.tree entry path =
      if isNull Json.tree entry then [] else [.entry entry path] := by
  cases entry with
  | arr items => exact absurd rfl (h items)
  | _ => rfl

theorem flatMap_checkReferenceEntry {entries : List (Json × FieldPath)}
    (h : ∀ e ∈ entries, ∀ items, e.1 ≠ .arr items) :
    (entries.flatMap fun e => checkReferenceEntry Json.tree e.1 e.2) =
      (entries.filter fun e => !isNull Json.tree e.1).map
        fun e => .entry e.1 e.2 := by
  induction entries with
  | nil => rfl
  | cons e rest ih =>
      rw [List.flatMap_cons, List.filter_cons,
        ih fun e he => h e (List.mem_cons_of_mem _ he),
        checkReferenceEntry_eq _ (h e List.mem_cons_self)]
      cases isNull Json.tree e.1 <;> rfl

theorem checkReferenceValues_arr {items : List Json} {path : FieldPath}
    (hempty : items ≠ [])
    (hnested : ∀ e ∈ valueEntries (.arr items) path, ∀ others,
      e.1 ≠ .arr others) :
    checkReferenceValues Json.tree (.arr items) path =
      (plannedEntries (.arr items) path).map fun e => .entry e.1 e.2 := by
  have hne : (items.map fun item => some (Slot.data item true)).isEmpty =
      false := by simpa using hempty
  simp only [checkReferenceValues, Json.look_tree, Json.shape, hne,
    visitList_tree, List.flatMap_map]
  exact flatMap_checkReferenceEntry hnested

theorem checkSingleValue_arr {items : List Json} {path : FieldPath}
    (hempty : items ≠ [])
    (hnested : ∀ e ∈ valueEntries (.arr items) path, ∀ others,
      e.1 ≠ .arr others)
    (hsingle : (plannedEntries (.arr items) path).length ≤ 1) :
    checkSingleValue Json.tree (.arr items) path =
      (plannedEntries (.arr items) path).map fun e => .entry e.1 e.2 := by
  have hne : (items.map fun item => some (Slot.data item true)).isEmpty =
      false := by simpa using hempty
  have hfindings : ((valueEntries (.arr items) path).map
      fun e => (Visit.entry e.1 e.2 : Visit Json)).filter
        (fun visit => visit.finding?.isSome) = [] := by
    rw [List.filter_eq_nil_iff]
    intro visit hvisit
    obtain ⟨e, -, rfl⟩ := List.mem_map.mp hvisit
    simp [Visit.finding?]
  have hcount : ¬ ((valueEntries (.arr items) path).filter
      fun e => !isNull Json.tree e.1).length > 1 := Nat.not_lt.mpr hsingle
  simp only [checkSingleValue, Json.look_tree, Json.shape, hne, visitList_tree,
    presentEntries_tree, hfindings]
  rw [if_neg hcount, flatMap_checkReferenceEntry fun e he =>
    hnested e (List.mem_of_mem_filter he), List.filter_filter]
  simp [plannedEntries]

/-- A plan without findings visits the entries of the value. -/
theorem referenceVisits_eq {value : Json} {path : FieldPath}
    {range : Option (List VocabularyType)} (hempty : value ≠ .arr [])
    (hnested : ∀ e ∈ valueEntries value path, ∀ items, e.1 ≠ .arr items)
    (hsingle : range.isSome = true → (plannedEntries value path).length ≤ 1) :
    referenceVisits range value path =
      (plannedEntries value path).map fun e => .entry e.1 e.2 := by
  unfold referenceVisits
  cases value with
  | arr items =>
      have hne : items ≠ [] := fun h => hempty (by rw [h])
      split
      next hrange => exact checkSingleValue_arr hne hnested (hsingle hrange)
      next => exact checkReferenceValues_arr hne hnested
  | _ => split <;> rfl

theorem finding_of_nested {e : Json × FieldPath} {items : List Json}
    (h : e.1 = .arr items) :
    .finding ⟨.unsupportedValueForm, e.2,
      "Nested lists are not checked yet."⟩ ∈
        checkReferenceEntry Json.tree e.1 e.2 := by
  rw [h]
  exact List.mem_singleton_self _

/-- A plan without findings is one for a value that is no empty or nested
list, and of one entry where the property is functional. -/
theorem referenceVisits_shape {value : Json} {path : FieldPath}
    {range : Option (List VocabularyType)}
    (hnone : ∀ d, .finding d ∉ referenceVisits range value path) :
    value ≠ .arr [] ∧
      (∀ e ∈ valueEntries value path, ∀ items, e.1 ≠ .arr items) ∧
      (range.isSome = true → (plannedEntries value path).length ≤ 1) := by
  by_cases harr : ∃ items, value = .arr items
  · obtain ⟨items, rfl⟩ := harr
    have hne : items ≠ [] := by
      rintro rfl
      refine hnone ⟨.unsupportedValueForm, path,
        "Empty lists are not supported in this value position."⟩ ?_
      unfold referenceVisits
      split <;> exact List.mem_singleton_self _
    have hfalse : (items.map fun item => some (Slot.data item true)).isEmpty =
        false := by simpa using hne
    refine ⟨fun h => hne (Json.arr.inj h), fun e he others hnested => ?_,
      fun hrange => ?_⟩
    · have hfinding := finding_of_nested hnested
      refine hnone ⟨.unsupportedValueForm, e.2,
        "Nested lists are not checked yet."⟩ ?_
      unfold referenceVisits
      split
      · simp only [checkSingleValue, Json.look_tree, Json.shape, hfalse,
          visitList_tree, presentEntries_tree]
        refine List.mem_append_right _ (List.mem_flatMap.mpr
          ⟨e, List.mem_filter.mpr ⟨he, ?_⟩, hfinding⟩)
        rw [hnested]
        rfl
      · simp only [checkReferenceValues, Json.look_tree, Json.shape, hfalse,
          visitList_tree, List.flatMap_map]
        exact List.mem_flatMap.mpr ⟨e, he, hfinding⟩
    · by_contra hmany
      refine hnone ⟨.invalidMultiplicity, path,
        "Expected at most one non-null value."⟩ ?_
      have hcount : ((valueEntries (.arr items) path).filter
          fun e => !isNull Json.tree e.1).length > 1 := Nat.not_le.mp hmany
      simp only [referenceVisits, hrange, if_true, checkSingleValue,
        Json.look_tree, Json.shape, hfalse, visitList_tree,
        presentEntries_tree]
      refine List.mem_append_left _ (List.mem_append_right _ ?_)
      rw [if_pos hcount]
      exact List.mem_singleton_self _
  · have hne : ∀ items, value ≠ .arr items := fun items h => harr ⟨items, h⟩
    refine ⟨hne [], fun e he => ?_, fun _ => ?_⟩
    · rw [valueEntries_of_ne_arr hne, List.mem_singleton] at he
      rw [he]
      exact hne
    · cases value with
      | arr items => exact absurd rfl (hne items)
      | _ => exact Nat.le_refl 1

/-! ## The plan that a check leaves -/

theorem checkCommonProperty_eq_none {R : Runtime}
    {kind : Option CommonPropertyKind} {name : JsString} {value : Json}
    {path : FieldPath}
    (h : checkCommonProperty R Json.tree kind name value path = none) :
    kind = none ∧ isNull Json.tree value = false := by
  unfold checkCommonProperty at h
  split at h
  · cases h
  · cases h
  · cases h
  · split at h <;> cases h
  · cases h
  · split at h
    next => cases h
    next hnull => exact ⟨rfl, Bool.eq_false_iff.mpr hnull⟩

/-- A rule that leaves references to check leaves them for every value that
is null when the value is. -/
theorem checkValueRules_references {type : VocabularyType} {name key : JsString}
    {value : Json} {path : FieldPath} {visits : List (Visit Json)}
    {range : Option (List VocabularyType)}
    (h : (checkValueRules P Json.tree type name value path).2 =
      .references visits key range) :
    key = name ∧ visits = referenceVisits range value path ∧
      getCommonPropertyKind P.toRuntime type name = none ∧
      ∀ other, isNull Json.tree other = isNull Json.tree value →
        checkValueRules P Json.tree type name other path =
          ([], .references (referenceVisits range other path) key range) := by
  unfold checkValueRules at h ⊢
  dsimp only at h ⊢
  split at h
  next => cases h
  next hinteger =>
    split at h
    next => cases h
    next hlink =>
      split at h
      next => cases h
      next hcommon =>
        obtain ⟨hkind, hnull⟩ := checkCommonProperty_eq_none hcommon
        have hother : ∀ other, isNull Json.tree other =
            isNull Json.tree value →
            checkCommonProperty P.toRuntime Json.tree
              (getCommonPropertyKind P.toRuntime type name) name other path =
                none := by
          intro other hsame
          rw [hkind, checkCommonProperty, hsame, hnull]
          rfl
        split at h
        next => cases h
        next hintransitive =>
          split at h
          next hrange =>
            cases h
            refine ⟨rfl, by rw [referenceVisits, if_pos hrange], hkind,
              fun other hsame => ?_⟩
            rw [if_neg hinteger, if_neg hlink, hother other hsame]
            dsimp only
            rw [if_neg hintransitive, if_pos hrange, referenceVisits,
              if_pos hrange]
          next hrange =>
            split at h
            next hreference =>
              cases h
              refine ⟨rfl, rfl, hkind, fun other hsame => ?_⟩
              rw [if_neg hinteger, if_neg hlink, hother other hsame]
              dsimp only
              rw [if_neg hintransitive, if_neg hrange, if_pos hreference]
              rfl
            next => cases h

theorem proposePropertyOmission_of_nonempty {value : Json} {path : FieldPath}
    (h : value ≠ .arr []) :
    proposePropertyOmission Json.tree value path false = none := by
  cases value with
  | arr items =>
      have hne : (items.map fun item => some (Slot.data item true)).isEmpty =
          false := by
        cases items with
        | nil => exact absurd rfl h
        | cons => rfl
      simp only [proposePropertyOmission, Json.look_tree, Json.shape, hne]
      rfl
  | _ => rfl

/-- A field that leaves references to check leaves them for every value other
than the empty list that is null when the value is. -/
theorem check_references_for {node : Node Json} {field : Field Json}
    {visits : List (Visit Json)} {key : JsString}
    {range : Option (List VocabularyType)}
    (h : (node.check P Json.tree field).2 = .references visits key range) :
    visits = referenceVisits range field.value
        (node.path ++ [.key field.source]) ∧
      (∀ event ∈ (node.check P Json.tree field).1, ∃ d, event = .report d) ∧
      ∀ other f, other.type = node.type → other.path = node.path →
        findMultipleAliases P Json.tree other.type other.fields =
          findMultipleAliases P Json.tree node.type node.fields →
        f.toSourceProperty = field.toSourceProperty →
        isNull Json.tree f.value = isNull Json.tree field.value →
        f.value ≠ .arr [] →
        Node.check P Json.tree other f = ((node.check P Json.tree field).1,
          .references (referenceVisits range f.value
            (node.path ++ [.key field.source])) key range) := by
  obtain ⟨property, value⟩ := field
  unfold Node.check checkField at h
  dsimp only at h
  split at h
  next => split at h <;> cases h
  next name hname =>
    unfold checkNamedField at h
    dsimp only at h
    split at h
    next => cases h
    next hcompatible =>
      split at h
      next => split at h <;> cases h
      next happlicable =>
        split at h
        next => cases h
        next homission =>
          dsimp only at h
          obtain ⟨rfl, hvisits, hkind, hother⟩ := checkValueRules_references h
          have hrules := hother value rfl
          refine ⟨hvisits, fun event hevent => ?_,
            fun other f htype hpath haliases hsource hnull hne => ?_⟩
          · simp only [Node.check, checkField, hname, checkNamedField,
              if_neg hcompatible, if_neg happlicable, homission, hrules] at hevent
            rcases List.mem_append.mp hevent with hevent | hevent
            · split at hevent
              · exact ⟨_, List.mem_singleton.mp hevent⟩
              · cases hevent
            · cases hevent
          obtain ⟨property', other'⟩ := f
          dsimp only at hsource hnull hne
          subst hsource
          have homit : (if isSupported P node.type key = true then
              proposePropertyOmission Json.tree other'
                (node.path ++ [.key property'.source])
                (getCommonPropertyKind P.toRuntime node.type key == some .id)
              else none) = none := by
            rw [hkind]
            split
            · exact proposePropertyOmission_of_nonempty hne
            · rfl
          simp only [Node.check, checkField, hname, checkNamedField, htype,
            hpath, ← haliases, if_neg hcompatible, if_neg happlicable,
            homission, homit, hother other' hnull, hrules]

theorem plannedEntries_subset {value : Json} {path : FieldPath}
    {e : Json × FieldPath} (h : e ∈ plannedEntries value path) :
    e ∈ valueEntries value path := by
  cases value with
  | arr items => exact List.mem_of_mem_filter h
  | _ => exact h

/-- The plan for an accepted reference property. -/
theorem FieldAccepted.plan {node : Node Json}
    {field : Field Json} (haccepted : FieldAccepted P node field) {visits : List (Visit Json)}
    {key : JsString} {range : Option (List VocabularyType)}
    (hfollow : (node.check P Json.tree field).2 =
      .references visits key range) :
    let path := node.path ++ [.key field.source]
    field.value ≠ .arr [] ∧
      (∀ e ∈ valueEntries field.value path, ∀ items, e.1 ≠ .arr items) ∧
      (range.isSome = true → (plannedEntries field.value path).length ≤ 1) ∧
      visits = (plannedEntries field.value path).map
        fun e => .entry e.1 e.2 := by
  obtain ⟨hvisits, -, -⟩ := check_references_for hfollow
  have hnone : ∀ d, .finding d ∉ visits := by
    intro d hd
    obtain ⟨-, -, hplans⟩ := check_references P hfollow
    have hquiet := haccepted.findings visits key range hfollow d hd
    rw [hplans.errors d hd] at hquiet
    contradiction
  rw [hvisits] at hnone
  obtain ⟨hempty, hnested, hsingle⟩ := referenceVisits_shape hnone
  refine ⟨hempty, hnested, hsingle, ?_⟩
  rw [hvisits, referenceVisits_eq hempty hnested hsingle]

/-! ## Extension values of trees -/

/-- In a tree nothing is its own ancestor. -/
theorem checkExtension_ancestors (fuel : ℕ) (ancestors : List Json)
    (value : Json) (path : FieldPath) (keywords : Bool) :
    checkExtension Json.tree fuel ancestors value path keywords =
      checkExtension Json.tree fuel [] value path keywords := by
  induction fuel generalizing ancestors value path keywords with
  | zero => rfl
  | succ fuel ih =>
      have hchild : ∀ others entry p k,
          checkExtension Json.tree fuel (value :: others) entry p k =
            checkExtension Json.tree fuel [] entry p k :=
        fun others => ih (value :: others)
      have hcycle : ∀ others : List Json,
          others.any (Json.tree.same value) = false := by simp
      rw [checkExtension, checkExtension]
      simp only [hchild, hcycle]

/-! ## Events of one field -/

section FieldEvents

variable (P)
variable (embedded : Json → FieldPath → Option (List VocabularyType) →
    JsString → Item Json × List (Item Json))
  (extension : Json → FieldPath → List Diagnostic × List (Item Json))

/-- The events of one visit of a reference property. -/
def visitEvents (key : JsString) (range : Option (List VocabularyType))
    (visit : Visit Json) : Item Json :=
  (visitItems P Json.tree embedded key range visit).flatten

/-- The events of one field. -/
def fieldEvents (checked : Item Json × FollowUp Json) : Item Json :=
  (fieldItems P Json.tree embedded extension checked).flatten

theorem fieldEvents_references (events : Item Json) (visits : List (Visit Json))
    (key : JsString) (range : Option (List VocabularyType)) :
    fieldEvents P embedded extension (events, .references visits key range) =
      events ++ visits.flatMap (visitEvents P embedded key range) := by
  simp only [fieldEvents, fieldItems, List.flatten_cons]
  congr 1
  induction visits with
  | nil => rfl
  | cons visit rest ih =>
      rw [List.flatMap_cons, List.flatMap_cons, List.flatten_append, ih]
      rfl

theorem walkEvents_stepWalk (node : Node Json) (findings : List Diagnostic) :
    walkEvents (stepWalk P node findings embedded extension) =
      reports findings ++ [.visit node] ++
        node.checkedFields.flatMap fun field =>
          fieldEvents P embedded extension (node.check P Json.tree field) := by
  unfold walkEvents stepWalk
  dsimp only
  congr 1
  induction node.checkedFields with
  | nil => rfl
  | cons field rest ih =>
      rw [List.flatMap_cons, List.flatMap_cons, List.flatten_append, ih]
      rfl

end FieldEvents

end Platform

end DrFed.Document
