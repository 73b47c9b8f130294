import DrFed.Document.Reading

/-!
# What the checks do not depend on

The checks read a value through its shape and extend the path that they are
given.  So they commute with a map between worlds of values that keeps the
shapes, and with moving a document to a longer path: the findings move along.
-/

namespace DrFed

section Shapes

variable {ι κ : Type} (f : ι → κ)

def Slot.map : Slot ι → Slot κ
  | .data value enumerable => .data (f value) enumerable
  | .accessor => .accessor

def Shape.map : Shape ι → Shape κ
  | .foreign => .foreign
  | .null => .null
  | .bool value => .bool value
  | .number value => .number value
  | .string value => .string value
  | .array entries named symbols =>
      .array (entries.map (Option.map (Slot.map f)))
        (named.map fun entry => (entry.1, entry.2.map f)) symbols
  | .object plain members symbols =>
      .object plain (members.map fun entry => (entry.1, entry.2.map f)) symbols

@[simp] theorem Slot.map_data (value : ι) (enumerable : Bool) :
    (Slot.data value enumerable).map f = .data (f value) enumerable := rfl

@[simp] theorem Slot.map_accessor : (Slot.accessor : Slot ι).map f = .accessor :=
  rfl

/-- A map between worlds of values that keeps what can be observed of each
value. -/
def Values.Reads (H : Values ι) (G : Values κ) (f : ι → κ) : Prop :=
  ∀ value, G.look (f value) = (H.look value).map f

end Shapes

@[simp] theorem Slot.map_id {ι : Type} (slot : Slot ι) : slot.map id = slot := by
  cases slot <;> rfl

theorem Shape.map_id {ι : Type} (shape : Shape ι) : shape.map id = shape := by
  have hslot : (Slot.map id : Slot ι → Slot ι) = id := funext Slot.map_id
  cases shape with
  | array entries named symbols => simp [Shape.map, hslot]
  | object plain members symbols => simp [Shape.map]
  | _ => rfl

/-- Every world reads like itself. -/
theorem Values.reads_id {ι : Type} (H : Values ι) : H.Reads H id := fun value =>
  (H.look value).map_id.symm

namespace Document

variable {ι κ : Type} {f : ι → κ}

/-! ## Moving what a check returns -/

def Diagnostic.under (base : FieldPath) (d : Diagnostic) : Diagnostic :=
  { d with path := base ++ d.path }

variable (f) in
def moveMembers (values : List (JsString × ι)) : List (JsString × κ) :=
  values.map fun entry => (entry.1, f entry.2)

variable (f) in
def Visit.moved (base : FieldPath) : Visit ι → Visit κ
  | .finding d => .finding (d.under base)
  | .entry value path => .entry (f value) (base ++ path)

variable (f) in
def NormalizationChange.moved (base : FieldPath) :
    NormalizationChange ι → NormalizationChange κ
  | .add reason path after message => .add reason (base ++ path) after message
  | .replace reason path before after message =>
      .replace reason (base ++ path) (f before) after message
  | .remove reason path before message =>
      .remove reason (base ++ path) (f before) message

variable (f) in
def Field.moved (field : Field ι) : Field κ :=
  { toSourceProperty := field.toSourceProperty, value := f field.value }

variable (f) in
def Node.moved (base : FieldPath) (node : Node ι) : Node κ where
  values := moveMembers f node.values
  path := base ++ node.path
  context := node.context
  type := node.type
  fields := node.fields.map (Field.moved f)

variable (f) in
def Event.moved (base : FieldPath) : Event ι → Event κ
  | .report d => .report (d.under base)
  | .change proposed => .change (proposed.moved f base)
  | .visit node => .visit (node.moved f base)
  | .unavailable path => .unavailable (base ++ path)

variable (f) in
def FollowUp.moved (base : FieldPath) : FollowUp ι → FollowUp κ
  | .nothing => .nothing
  | .extension value path => .extension (f value) (base ++ path)
  | .references visits key range =>
      .references (visits.map (Visit.moved f base)) key range

@[simp] theorem keys_moveMembers (values : List (JsString × ι)) :
    (moveMembers f values).map Prod.fst = values.map Prod.fst := by
  simp [moveMembers, Function.comp_def]

@[simp] theorem lookup_moveMembers (values : List (JsString × ι))
    (key : JsString) :
    (moveMembers f values).lookup key = (values.lookup key).map f := by
  induction values with
  | nil => rfl
  | cons entry rest ih =>
      rw [moveMembers, List.map_cons, AssocList.lookup_cons_eq,
        AssocList.lookup_cons_eq]
      split
      · rfl
      · exact ih

theorem sortByKey_moveMembers (values : List (JsString × ι)) :
    sortByKey (moveMembers f values) = moveMembers f (sortByKey values) :=
  sortByKey_map f values

theorem propertyOrder_moveMembers (values : List (JsString × ι)) :
    propertyOrder (moveMembers f values) =
      moveMembers f (propertyOrder values) := by
  unfold propertyOrder moveMembers
  rw [List.map_append, List.filter_map, List.filter_map]
  congr 1
  exact (List.map_insertionSort
    (r := fun a b : JsString × ι =>
      (arrayIndex? a.1).getD 0 ≤ (arrayIndex? b.1).getD 0)
    (s := fun a b : JsString × κ =>
      (arrayIndex? a.1).getD 0 ≤ (arrayIndex? b.1).getD 0) _ _
    fun _ _ _ _ => Iff.rfl).symm

/-- The result of a reader moves along. -/
def moveResult {α β : Type} (g : α → β) (base : FieldPath) :
    Except Diagnostic α → Except Diagnostic β
  | .error d => .error (d.under base)
  | .ok value => .ok (g value)

section Checks

variable {H : Values ι} {G : Values κ} (hreads : H.Reads G f)
  (base : FieldPath)

include hreads

/-! ## Records and lists -/

theorem isJsonValueShape_moved (value : ι) :
    isJsonValueShape G (f value) = isJsonValueShape H value := by
  unfold isJsonValueShape
  rw [hreads value]
  cases H.look value <;> rfl

theorem isNull_moved (value : ι) : isNull G (f value) = isNull H value := by
  unfold isNull
  rw [hreads value]
  cases H.look value <;> rfl

theorem stringOf_moved (value : ι) :
    stringOf G (f value) = stringOf H value := by
  unfold stringOf
  rw [hreads value]
  cases H.look value <;> rfl

theorem readMembers_moved (path : FieldPath)
    (members : List (JsString × Slot ι)) :
    readMembers G (base ++ path)
        (members.map fun entry => (entry.1, entry.2.map f)) =
      moveResult (moveMembers f) base (readMembers H path members) := by
  induction members with
  | nil => rfl
  | cons entry rest ih =>
      obtain ⟨key, slot⟩ := entry
      cases slot with
      | accessor => simp [readMembers, moveResult, Diagnostic.under]
      | data value enumerable =>
          cases enumerable with
          | false => simp [readMembers, moveResult, Diagnostic.under]
          | true =>
              simp only [List.map_cons, readMembers, Slot.map_data,
                isJsonValueShape_moved hreads, ih]
              cases isJsonValueShape H value with
              | false => simp [moveResult, Diagnostic.under]
              | true =>
                  cases readMembers H path rest <;>
                    simp [moveResult, Except.map, moveMembers]

theorem readDocument_moved (value : ι) (path : FieldPath) :
    readDocument G (f value) (base ++ path) =
      moveResult (moveMembers f) base (readDocument H value path) := by
  unfold readDocument
  rw [hreads value]
  cases H.look value with
  | object plain members symbols =>
      simp only [Shape.map]
      split_ifs
      · simp [moveResult, Diagnostic.under]
      · simp [moveResult, Diagnostic.under]
      · rw [sortByKey_map (Slot.map f) members, readMembers_moved hreads]
        cases readMembers H path (sortByKey members) with
        | error d => rfl
        | ok values =>
            simp [moveResult, Except.map, propertyOrder_moveMembers]
  | _ => simp [Shape.map, moveResult, Diagnostic.under]

omit hreads in
theorem visitList_moved (entries : List (Option (Slot ι)))
    (named : List (JsString × Slot ι)) (symbols : ℕ) (path : FieldPath) :
    visitList (entries.map (Option.map (Slot.map f)))
        (named.map fun entry => (entry.1, entry.2.map f)) symbols
        (base ++ path) =
      (visitList entries named symbols path).map (Visit.moved f base) := by
  have hcount : ((entries.map (Option.map (Slot.map f))).filter
      Option.isSome).length = (entries.filter Option.isSome).length := by
    rw [List.filter_map, List.length_map]
    congr 2
    funext slot
    cases slot <;> rfl
  unfold visitList
  rw [hcount, List.length_map, List.length_map]
  split_ifs
  · simp [Visit.moved, Diagnostic.under]
  · rw [List.zipIdx_map, List.map_map, List.map_map]
    apply List.map_congr_left
    rintro ⟨slot, i⟩ -
    match slot with
    | some (.data value true) =>
        simp [Visit.moved]
    | some (.data value false) =>
        simp [Visit.moved, Diagnostic.under]
    | some .accessor => simp [Visit.moved, Diagnostic.under]
    | none => simp [Visit.moved, Diagnostic.under]

omit hreads in
/-- A plan whose checks move along moves along. -/
theorem runVisits_moved {check : ι → FieldPath → List Diagnostic}
    {check' : κ → FieldPath → List Diagnostic}
    (hcheck : ∀ value path, check' (f value) (base ++ path) =
      (check value path).map (Diagnostic.under base))
    (visits : List (Visit ι)) :
    runVisits check' (visits.map (Visit.moved f base)) =
      (runVisits check visits).map (Diagnostic.under base) := by
  unfold runVisits
  rw [List.flatMap_map, List.map_flatMap]
  congr 1
  funext visit
  cases visit with
  | finding d => rfl
  | entry value path => exact hcheck value path

theorem presentEntries_moved (visits : List (Visit ι)) :
    presentEntries G (visits.map (Visit.moved f base)) =
      (presentEntries H visits).map fun e => (f e.1, base ++ e.2) := by
  unfold presentEntries
  rw [List.filterMap_map, List.map_filterMap]
  congr 1
  funext visit
  cases visit with
  | finding d => rfl
  | entry value path =>
      simp only [Function.comp_apply, Visit.moved, isNull_moved hreads]
      cases isNull H value <;> rfl

omit hreads in
theorem findings_moved (visits : List (Visit ι)) :
    (visits.map (Visit.moved f base)).filterMap Visit.finding? =
      (visits.filterMap Visit.finding?).map (Diagnostic.under base) := by
  rw [List.filterMap_map, List.map_filterMap]
  congr 1
  funext visit
  cases visit <;> rfl

/-! ## References -/

theorem checkReference_moved (R : Runtime) (value : ι) (path : FieldPath) :
    checkReference R G (f value) (base ++ path) =
      (checkReference R H value path).map (Diagnostic.under base) := by
  unfold checkReference
  rw [hreads value]
  cases H.look value with
  | string text =>
      simp only [Shape.map, checkReferenceText]
      split_ifs <;> simp [Diagnostic.under]
  | _ => simp [Shape.map, Diagnostic.under]

theorem checkReferenceEntry_moved (value : ι) (path : FieldPath) :
    checkReferenceEntry G (f value) (base ++ path) =
      (checkReferenceEntry H value path).map (Visit.moved f base) := by
  unfold checkReferenceEntry
  rw [hreads value]
  cases H.look value <;>
    simp [Shape.map, Visit.moved, Diagnostic.under]

theorem checkReferenceValues_moved (value : ι) (path : FieldPath) :
    checkReferenceValues G (f value) (base ++ path) =
      (checkReferenceValues H value path).map (Visit.moved f base) := by
  unfold checkReferenceValues
  rw [hreads value]
  cases H.look value with
  | array entries named symbols =>
      simp only [Shape.map, List.isEmpty_map]
      split_ifs
      · simp [Visit.moved, Diagnostic.under]
      · rw [visitList_moved, List.flatMap_map, List.map_flatMap]
        congr 1
        funext visit
        cases visit with
        | finding d => rfl
        | entry entry entryPath =>
            exact checkReferenceEntry_moved hreads base entry entryPath
  | _ => simp [Shape.map, Visit.moved]

theorem checkSingleValue_moved (value : ι) (path : FieldPath) :
    checkSingleValue G (f value) (base ++ path) =
      (checkSingleValue H value path).map (Visit.moved f base) := by
  unfold checkSingleValue
  rw [hreads value]
  cases H.look value with
  | array entries named symbols =>
      simp only [Shape.map, List.isEmpty_map]
      by_cases hempty : entries.isEmpty = true
      · simp [hempty, Visit.moved, Diagnostic.under]
      · have hfindings : ∀ visits : List (Visit ι),
            (visits.map (Visit.moved f base)).filter
                (fun visit => visit.finding?.isSome) =
              (visits.filter fun visit => visit.finding?.isSome).map
                (Visit.moved f base) := by
          intro visits
          rw [List.filter_map]
          congr 2
          funext visit
          cases visit <;> rfl
        rw [if_neg hempty, if_neg hempty, visitList_moved,
          presentEntries_moved hreads, hfindings]
        simp only [List.length_map, List.map_append, List.flatMap_map,
          List.map_flatMap, checkReferenceEntry_moved hreads]
        congr 2
        split_ifs <;> simp [Visit.moved, Diagnostic.under]
  | _ => simp [Shape.map, Visit.moved]

/-! ## Scalars and text -/

theorem checkNonNegativeInteger_moved (value : ι) (path : FieldPath) :
    checkNonNegativeInteger G (f value) (base ++ path) =
      (checkNonNegativeInteger H value path).map (Diagnostic.under base) := by
  unfold checkNonNegativeInteger
  rw [hreads value]
  cases H.look value with
  | number n =>
      simp only [Shape.map]
      split_ifs <;> simp [Diagnostic.under]
  | _ => simp [Shape.map, Diagnostic.under]

omit hreads in
theorem checkLanguageTagText_moved (R : Runtime) (tag : JsString)
    (path : FieldPath) :
    checkLanguageTagText R tag (base ++ path) =
      (checkLanguageTagText R tag path).map (Diagnostic.under base) := by
  unfold checkLanguageTagText
  split_ifs <;> simp [Diagnostic.under]

theorem checkLanguageTag_moved (R : Runtime) (value : ι) (path : FieldPath) :
    checkLanguageTag R G (f value) (base ++ path) =
      (checkLanguageTag R H value path).map (Diagnostic.under base) := by
  unfold checkLanguageTag
  rw [hreads value]
  cases H.look value with
  | string tag => exact checkLanguageTagText_moved base R tag path
  | _ => simp [Shape.map, Diagnostic.under]

omit hreads in
theorem checkPlainText_moved (text : JsString) (path : FieldPath)
    (plain : Bool) :
    checkPlainText text (base ++ path) plain =
      (checkPlainText text path plain).map (Diagnostic.under base) := by
  unfold checkPlainText
  split_ifs <;> simp [Diagnostic.under]

theorem checkTextMembers_moved (R : Runtime) (path : FieldPath) (plain : Bool)
    (values : List (JsString × ι)) :
    checkTextMembers R G (base ++ path) plain (moveMembers f values) =
      (checkTextMembers R H path plain values).map (Diagnostic.under base) := by
  unfold checkTextMembers
  rw [sortByKey_moveMembers, moveMembers, List.flatMap_map, List.map_flatMap]
  congr 1
  funext entry
  simp only [List.append_assoc]
  split_ifs
  · rw [hreads entry.2]
    cases H.look entry.2 with
    | string text => exact checkPlainText_moved base text _ plain
    | _ => simp [Shape.map, Diagnostic.under]
  · exact checkLanguageTag_moved hreads base R entry.2 _
  · simp [Diagnostic.under]

theorem checkText_moved (R : Runtime) (value : ι) (path : FieldPath)
    (plain : Bool) :
    checkText R G (f value) (base ++ path) plain =
      (checkText R H value path plain).map (Diagnostic.under base) := by
  unfold checkText
  rw [readDocument_moved hreads base value path, hreads value]
  cases H.look value with
  | string text => exact checkPlainText_moved base text path plain
  | object =>
      simp only [Shape.map]
      cases readDocument H value path with
      | error d => rfl
      | ok values =>
          simp only [moveResult, lookup_moveMembers, Option.isNone_map]
          split_ifs
          · simp [Diagnostic.under]
          · exact checkTextMembers_moved hreads base R path plain values
  | _ => simp [Shape.map, Diagnostic.under]

theorem checkLanguageMap_moved (R : Runtime) (value : ι) (path : FieldPath)
    (plain : Bool) :
    checkLanguageMap R G (f value) (base ++ path) plain =
      (checkLanguageMap R H value path plain).map (Diagnostic.under base) := by
  unfold checkLanguageMap
  rw [readDocument_moved hreads base value path, hreads value]
  cases H.look value with
  | object =>
      simp only [Shape.map]
      cases readDocument H value path with
      | error d => rfl
      | ok values =>
          simp only [moveResult]
          rw [sortByKey_moveMembers, moveMembers, List.flatMap_map,
            List.map_flatMap]
          congr 1
          funext entry
          simp only [List.append_assoc, List.map_append,
            checkLanguageTagText_moved]
          congr 1
          rw [hreads entry.2]
          cases H.look entry.2 with
          | string text => exact checkPlainText_moved base text _ plain
          | _ => simp [Shape.map, Diagnostic.under]
  | _ => simp [Shape.map, Diagnostic.under]

omit hreads in
theorem checkDateTimeText_moved (R : Runtime) (text : JsString)
    (path : FieldPath) :
    checkDateTimeText R text (base ++ path) =
      (checkDateTimeText R text path).map (Diagnostic.under base) := by
  unfold checkDateTimeText
  cases matchDateTime text with
  | none => simp [Diagnostic.under]
  | some parts =>
      dsimp only
      split_ifs <;> simp [Diagnostic.under]

theorem checkDateTime_moved (R : Runtime) (value : ι) (path : FieldPath) :
    checkDateTime R G (f value) (base ++ path) =
      (checkDateTime R H value path).map (Diagnostic.under base) := by
  unfold checkDateTime
  rw [hreads value]
  cases H.look value with
  | string text => exact checkDateTimeText_moved base R text path
  | _ => simp [Shape.map, Diagnostic.under]

/-! ## Link metadata and common properties -/

theorem checkLinkRelation_moved (R : Runtime) (value : ι) (path : FieldPath) :
    checkLinkRelation R G (f value) (base ++ path) =
      (checkLinkRelation R H value path).map (Diagnostic.under base) := by
  unfold checkLinkRelation
  rw [checkReference_moved hreads, hreads value]
  cases H.look value with
  | string text =>
      simp only [Shape.map]
      split_ifs <;> simp [Diagnostic.under]
  | _ => simp [Shape.map, Diagnostic.under]

theorem checkLinkScalar_moved (R : Runtime) (property : JsString) (value : ι)
    (path : FieldPath) :
    checkLinkScalar R G property (f value) (base ++ path) =
      (checkLinkScalar R H property value path).map
        (Diagnostic.under base) := by
  unfold checkLinkScalar
  rw [checkReference_moved hreads, checkLanguageTag_moved hreads,
    hreads value]
  cases H.look value with
  | string text =>
      simp only [Shape.map]
      split_ifs <;> simp [Diagnostic.under]
  | _ => simp [Shape.map, Diagnostic.under]

theorem checkLinkProperty_moved (R : Runtime) (property : JsString) (value : ι)
    (path : FieldPath) :
    checkLinkProperty R G property (f value) (base ++ path) =
      (checkLinkProperty R H property value path).map
        (Diagnostic.under base) := by
  unfold checkLinkProperty
  split_ifs
  · rw [checkReferenceValues_moved hreads]
    exact runVisits_moved base (checkLinkRelation_moved hreads base R) _
  · exact checkLinkScalar_moved hreads base R property value path

theorem checkCommonProperty_moved (R : Runtime)
    (kind : Option CommonPropertyKind) (property : JsString) (value : ι)
    (path : FieldPath) :
    checkCommonProperty R G kind property (f value) (base ++ path) =
      (checkCommonProperty R H kind property value path).map
        (List.map (Diagnostic.under base)) := by
  unfold checkCommonProperty
  match kind with
  | some .text =>
      dsimp only [Option.map_some]
      rw [checkReferenceValues_moved hreads, runVisits_moved base
        (fun entry entryPath => checkText_moved hreads base R entry entryPath
          (property == js "name"))]
  | some .languageMap =>
      dsimp only [Option.map_some]
      rw [checkLanguageMap_moved hreads]
  | some .datetime =>
      dsimp only [Option.map_some]
      rw [checkSingleValue_moved hreads,
        runVisits_moved base (checkDateTime_moved hreads base R)]
  | some .id =>
      dsimp only
      rw [hreads value, checkReference_moved hreads]
      cases H.look value <;> simp [Shape.map, Diagnostic.under]
  | some .mediaType =>
      dsimp only [Option.map_some]
      rw [checkSingleValue_moved hreads,
        runVisits_moved base (checkLinkProperty_moved hreads base R property)]
  | none =>
      dsimp only
      rw [isNull_moved hreads]
      split_ifs <;> rfl

theorem proposePropertyOmission_moved (value : ι) (path : FieldPath)
    (identifier : Bool) :
    proposePropertyOmission G (f value) (base ++ path) identifier =
      (proposePropertyOmission H value path identifier).map fun result =>
        (result.1.map (Diagnostic.under base),
          result.2.map (NormalizationChange.moved f base)) := by
  unfold proposePropertyOmission
  rw [hreads value]
  cases H.look value with
  | null =>
      simp only [Shape.map]
      split_ifs <;> simp [Diagnostic.under, NormalizationChange.moved]
  | array entries named symbols =>
      simp only [Shape.map, List.isEmpty_map, visitList_moved, findings_moved,
        presentEntries_moved hreads]
      split_ifs <;> simp [Diagnostic.under, NormalizationChange.moved]
  | _ => rfl

/-! ## Extension values -/

theorem checkExtensionType_moved (value : ι) (path : FieldPath) :
    checkExtensionType G (f value) (base ++ path) =
      ((checkExtensionType H value path).1.map (Diagnostic.under base),
        (checkExtensionType H value path).2) := by
  unfold checkExtensionType
  rw [hreads value]
  cases H.look value with
  | array entries named symbols =>
      simp only [Shape.map, visitList_moved, List.flatMap_map, List.any_map,
        List.length_map, Prod.mk.injEq]
      constructor
      · rw [List.map_flatMap]
        congr 1
        funext visit
        cases visit with
        | finding d => rfl
        | entry entry entryPath =>
            simp only [Visit.moved, hreads entry]
            cases H.look entry <;> simp [Shape.map, Diagnostic.under]
      · congr 1
        funext visit
        cases visit with
        | finding d => rfl
        | entry entry entryPath =>
            simp only [Function.comp_apply, Visit.moved, hreads entry]
            cases H.look entry <;> rfl
  | _ => simp [Shape.map, Diagnostic.under]

theorem checkExtensionKeywords_moved (values : List (JsString × ι))
    (path : FieldPath) :
    checkExtensionKeywords G (moveMembers f values) (base ++ path) =
      ((checkExtensionKeywords H values path).1.map (Diagnostic.under base),
        (checkExtensionKeywords H values path).2) := by
  unfold checkExtensionKeywords
  simp only [lookup_moveMembers, List.append_assoc, List.map_append]
  refine Prod.ext (congrArg₂ (· ++ ·) ?_ (congrArg₂ (· ++ ·) ?_ ?_)) ?_
  · cases values.lookup (js "@id") with
    | none => rfl
    | some id =>
        simp only [Option.map_some, hreads id]
        cases H.look id <;> simp [Shape.map, Diagnostic.under]
  · cases values.lookup (js "@type") with
    | none => rfl
    | some type => simp only [Option.map_some, checkExtensionType_moved hreads]
  · cases values.lookup (js "@value") with
    | none => rfl
    | some value =>
        cases values.lookup (js "@language") with
        | none => rfl
        | some language =>
            simp only [Option.map_some, hreads value, hreads language]
            cases H.look language <;> cases H.look value <;>
              simp [Shape.map, Diagnostic.under]
  · cases values.lookup (js "@type") with
    | none => rfl
    | some type => simp only [Option.map_some, checkExtensionType_moved hreads]

/-! ## Contexts -/

/-- A refusal that moves along. -/
abbrev moveRefusal {α : Type} (base : FieldPath)
    (result : Except (Option Diagnostic) α) : Except (Option Diagnostic) α :=
  result.mapError (Option.map (Diagnostic.under base))

omit hreads in
theorem moveRefusal_bind {α β : Type} (result : Except (Option Diagnostic) α)
    (next : α → Except (Option Diagnostic) β) :
    moveRefusal base (result >>= next) =
      moveRefusal base result >>= fun a => moveRefusal base (next a) := by
  cases result <;> rfl

theorem readContainer_moved (values : List (JsString × ι)) (path : FieldPath) :
    readContainer G (moveMembers f values) (base ++ path) =
      moveRefusal base (readContainer H values path) := by
  unfold readContainer
  simp only [lookup_moveMembers, Option.isSome_map]
  cases values.lookup (js "@container") with
  | none => rfl
  | some value =>
      simp only [Option.map_some, stringOf_moved hreads]
      split_ifs <;> rfl

theorem readPrefixFlag_moved (values : List (JsString × ι))
    (path : FieldPath) :
    readPrefixFlag G (moveMembers f values) (base ++ path) =
      moveRefusal base (readPrefixFlag H values path) := by
  unfold readPrefixFlag
  rw [lookup_moveMembers]
  cases values.lookup (js "@prefix") with
  | none => rfl
  | some value =>
      simp only [Option.map_some, hreads value]
      cases H.look value <;> rfl

section Terms

variable (R : Runtime) (values : List (JsString × ι)) (path : FieldPath)
  (terms : Terms) (pending : List JsString)

theorem readCoercion_moved :
    readCoercion R G (moveMembers f values) (base ++ path) terms pending =
      moveRefusal base (readCoercion R H values path terms pending) := by
  unfold readCoercion
  rw [lookup_moveMembers]
  cases values.lookup (js "@type") with
  | none => rfl
  | some value =>
      simp only [Option.map_some, stringOf_moved hreads]
      cases stringOf H value with
      | none => rfl
      | some type =>
          dsimp only
          split_ifs
          · rfl
          · cases resolveTerm R type terms pending <;> rfl

theorem resolveContextTerm_moved (id : JsString) (implicitPrefix : Bool) :
    resolveContextTerm R G id (moveMembers f values) implicitPrefix
        (base ++ path) terms pending =
      moveRefusal base (resolveContextTerm R H id values implicitPrefix path
        terms pending) := by
  unfold resolveContextTerm
  cases resolveTerm R id terms pending with
  | none => rfl
  | some iri =>
      have hany : (moveMembers f values).any (fun entry => entry.1 ≠ js "@id") =
          values.any fun entry => entry.1 ≠ js "@id" := by
        rw [moveMembers, List.any_map]
        rfl
      dsimp only
      rw [hany]
      split_ifs
      · rfl
      · simp only [moveRefusal_bind, readCoercion_moved hreads,
          readContainer_moved hreads, readPrefixFlag_moved hreads]
        rfl

theorem readDefinition_moved (implicitPrefix : Bool) (id : Option JsString) :
    readDefinition R G (moveMembers f values) implicitPrefix (base ++ path)
        terms pending id =
      moveRefusal base (readDefinition R H values implicitPrefix path terms
        pending id) := by
  unfold readDefinition
  cases id with
  | none => rfl
  | some id =>
      dsimp only
      split_ifs
      · rfl
      · rfl
      · exact resolveContextTerm_moved hreads base R values path terms pending
          id implicitPrefix

theorem readExpandedTerm_moved :
    readExpandedTerm R G (moveMembers f values) (base ++ path) terms pending =
      moveRefusal base (readExpandedTerm R H values path terms pending) := by
  have hany : (moveMembers f values).any
      (fun entry => !definitionKeys.contains entry.1) =
        values.any fun entry => !definitionKeys.contains entry.1 := by
    rw [moveMembers, List.any_map]
    rfl
  unfold readExpandedTerm
  rw [hany, lookup_moveMembers]
  split_ifs
  · rfl
  · cases values.lookup (js "@id") with
    | none => rfl
    | some id =>
        simp only [Option.map_some, stringOf_moved hreads]
        exact readDefinition_moved hreads base R values path terms pending
          false (stringOf H id)

theorem readContextTerm_moved (definition : ι) :
    readContextTerm R G (f definition) (base ++ path) terms pending =
      moveRefusal base (readContextTerm R H definition path terms pending) := by
  unfold readContextTerm
  rw [readDocument_moved hreads base definition path, hreads definition]
  cases H.look definition with
  | string id =>
      exact readDefinition_moved hreads base R [(js "@id", definition)] path
        terms pending true (some id)
  | object =>
      simp only [Shape.map]
      cases readDocument H definition path with
      | error d => rfl
      | ok values =>
          exact readExpandedTerm_moved hreads base R values path terms pending
  | _ => rfl

end Terms

def Sweep.moved (base : FieldPath) (s : Sweep) : Sweep :=
  { s with findings := s.findings.map (Diagnostic.under base) }

omit hreads in
theorem Sweep.moved_find (s : Sweep) (d : Diagnostic) :
    (s.moved base).find (d.under base) = (s.find d).moved base := by
  simp [Sweep.find, Sweep.moved]

theorem checkTermName_moved (isBundled : Bool) (values : List (JsString × ι))
    (path : FieldPath) (name : JsString) :
    checkTermName G isBundled (moveMembers f values) (base ++ path) name =
      (checkTermName H isBundled values path name).map
        (Option.map (Diagnostic.under base)) := by
  have hvocab : ((moveMembers f values).lookup name).bind (stringOf G) =
      (values.lookup name).bind (stringOf H) := by
    rw [lookup_moveMembers]
    cases values.lookup name with
    | none => rfl
    | some value => exact stringOf_moved hreads value
  unfold checkTermName
  rw [hvocab]
  split_ifs <;> rfl

section Sweeps

variable (R : Runtime) (values : List (JsString × ι)) (path : FieldPath)
  (protectedTerms : Option Terms)

theorem sweepName_moved (s : Sweep) (name : JsString) :
    sweepName R G (moveMembers f values) (base ++ path) protectedTerms
        (s.moved base) name =
      (sweepName R H values path protectedTerms s name).moved base := by
  unfold sweepName
  simp only [List.append_assoc, checkTermName_moved hreads, lookup_moveMembers]
  cases checkTermName H protectedTerms.isNone values (path ++ [.key name])
      name with
  | some finding =>
      cases finding with
      | some d => exact Sweep.moved_find base s d
      | none => rfl
  | none =>
      simp only [Option.map_none]
      cases values.lookup name with
      | none => rfl
      | some definition =>
          simp only [Option.map_some]
          rw [readContextTerm_moved hreads base R (path ++ [Segment.key name])
            (s.moved base).terms (s.moved base).pending definition]
          simp only [Sweep.moved]
          cases readContextTerm R H definition (path ++ [.key name]) s.terms
              s.pending with
          | error finding =>
              cases finding with
              | some d => exact Sweep.moved_find base s d
              | none => rfl
          | ok term =>
              dsimp only [moveRefusal, Except.mapError]
              split_ifs
              · exact Sweep.moved_find base s ⟨.unsupportedContextForm,
                  path ++ [.key name], _⟩
              · rfl

theorem sweepPending_moved (s : Sweep) :
    sweepPending R G (moveMembers f values) (base ++ path) protectedTerms
        (s.moved base) =
      (sweepPending R H values path protectedTerms s).moved base := by
  have hfold : ∀ (names : List JsString) (s : Sweep),
      names.foldl (sweepName R G (moveMembers f values) (base ++ path)
          protectedTerms) (s.moved base) =
        (names.foldl (sweepName R H values path protectedTerms) s).moved
          base := by
    intro names
    induction names with
    | nil => exact fun _ => rfl
    | cons name rest ih =>
        intro s
        rw [List.foldl_cons, List.foldl_cons, sweepName_moved hreads, ih]
  exact hfold s.pending { s with resolved := false }

omit hreads in
theorem reportUnresolved_moved (s : Sweep) :
    reportUnresolved (base ++ path) (s.moved base) =
      (reportUnresolved path s).moved base := by
  have hfold : ∀ (names : List JsString) (s : Sweep),
      names.foldl (fun acc name => acc.find ⟨.invalidContext,
          base ++ path ++ [.key name],
          "The term has an unresolved or cyclic IRI mapping."⟩)
          (s.moved base) =
        (names.foldl (fun acc name => acc.find ⟨.invalidContext,
          path ++ [.key name],
          "The term has an unresolved or cyclic IRI mapping."⟩) s).moved
          base := by
    intro names
    induction names with
    | nil => exact fun _ => rfl
    | cons name rest ih =>
        intro s
        have hfind := Sweep.moved_find base s ⟨.invalidContext,
          path ++ [.key name],
          "The term has an unresolved or cyclic IRI mapping."⟩
        rw [Diagnostic.under, ← List.append_assoc] at hfind
        rw [List.foldl_cons, List.foldl_cons, ← ih, hfind]
  exact hfold s.pending s

theorem sweepAll_moved (fuel : ℕ) (s : Sweep) :
    sweepAll R G (moveMembers f values) (base ++ path) protectedTerms fuel
        (s.moved base) =
      (sweepAll R H values path protectedTerms fuel s).moved base := by
  induction fuel generalizing s with
  | zero =>
      rw [sweepAll, sweepAll]
      simp only [reportUnresolved_moved]
      cases h : s.pending.isEmpty <;> simp [Sweep.moved, h]
  | succ fuel ih =>
      rw [sweepAll, sweepAll]
      simp only [sweepPending_moved hreads, reportUnresolved_moved, ih]
      have hpending : ∀ s : Sweep, (s.moved base).pending = s.pending :=
        fun _ => rfl
      have hfindings : ∀ s : Sweep,
          (s.moved base).findings.isEmpty = s.findings.isEmpty := by
        intro s
        simp [Sweep.moved]
      have hresolved : ∀ s : Sweep, (s.moved base).resolved = s.resolved :=
        fun _ => rfl
      simp only [hpending, hfindings, hresolved]
      split_ifs <;> rfl

theorem applyContextTerms_moved (terms : Terms) :
    applyContextTerms R G (moveMembers f values) (base ++ path) terms
        protectedTerms =
      ((applyContextTerms R H values path terms protectedTerms).1.map
          (Diagnostic.under base),
        (applyContextTerms R H values path terms protectedTerms).2) := by
  unfold applyContextTerms
  simp only [keys_moveMembers]
  have hsweep := sweepAll_moved hreads base R values path protectedTerms
    (values.map Prod.fst).length
    { terms := AssocList.removeAll (values.map Prod.fst) terms
      pending := values.map Prod.fst
      findings := []
      resolved := false }
  exact congrArg (fun swept => (swept.findings, swept.terms)) hsweep

end Sweeps

section Contexts

variable (P : Platform)

theorem applyContextEntry_moved (value : ι) (path : FieldPath)
    (terms : Terms) :
    applyContextEntry P G (f value) (base ++ path) terms =
      ((applyContextEntry P H value path terms).1.map (Diagnostic.under base),
        (applyContextEntry P H value path terms).2) := by
  unfold applyContextEntry
  rw [readDocument_moved hreads base value path, hreads value]
  cases H.look value with
  | string text =>
      simp only [Shape.map]
      cases P.tables.bundledContexts.lookup
          (if text = js "http://www.w3.org/ns/activitystreams" then
            activityStreamsContext else text) <;> rfl
  | object =>
      simp only [Shape.map]
      cases readDocument H value path with
      | error d => rfl
      | ok definitions =>
          exact applyContextTerms_moved hreads base P.toRuntime definitions
            path (some P.standardTerms) terms
  | _ => rfl

theorem applyContextList_moved (visits : List (Visit ι)) (terms : Terms) :
    applyContextList P G (visits.map (Visit.moved f base)) terms =
      ((applyContextList P H visits terms).1.map (Diagnostic.under base),
        (applyContextList P H visits terms).2) := by
  induction visits generalizing terms with
  | nil => rfl
  | cons visit rest ih =>
      cases visit with
      | finding d => simp [applyContextList, Visit.moved, ih]
      | entry entry path =>
          simp [applyContextList, Visit.moved, applyContextEntry_moved hreads,
            ih]

theorem applyContext_moved (context : ι) (path : FieldPath) (terms : Terms) :
    applyContext P G (f context) (base ++ path) terms =
      ((applyContext P H context path terms).1.map (Diagnostic.under base),
        (applyContext P H context path terms).2) := by
  unfold applyContext
  rw [hreads context, applyContextEntry_moved hreads]
  cases H.look context with
  | array entries named symbols =>
      simp only [Shape.map, visitList_moved]
      exact applyContextList_moved hreads base P _ terms
  | _ => rfl

theorem checkContext_moved (values : List (JsString × ι)) (path : FieldPath)
    (inherited : Option Terms) :
    checkContext P G (moveMembers f values) (base ++ path) inherited =
      ((checkContext P H values path inherited).1.map (Diagnostic.under base),
        (checkContext P H values path inherited).2) := by
  unfold checkContext
  simp only [lookup_moveMembers, List.append_assoc]
  cases values.lookup (js "@context") with
  | none => cases inherited <;> rfl
  | some context =>
      simp only [Option.map_some, applyContext_moved hreads]
      generalize applyContext P H context (path ++ [Segment.key (js "@context")])
        (inherited.getD []) = applied
      obtain ⟨findings, terms⟩ := applied
      cases findings with
      | nil =>
          simp only [List.map_nil]
          split_ifs <;> simp [Diagnostic.under]
      | cons d rest => rfl

theorem isTypeCombination_moved (value : ι) :
    isTypeCombination G (f value) = isTypeCombination H value := by
  unfold isTypeCombination
  rw [hreads value]
  cases H.look value with
  | array entries named symbols =>
      simp only [Shape.map, List.length_map, List.all_map]
      congr 2
      funext slot
      match slot with
      | some (.data entry _) =>
          simp [stringOf_moved hreads]
      | some .accessor => rfl
      | none => rfl
  | _ => rfl

theorem checkType_moved (value : Option ι) (path : FieldPath)
    (context : Terms) :
    checkType P G (value.map f) (base ++ path) context =
      (checkType P H value path context).mapError (Diagnostic.under base) := by
  unfold checkType
  cases value with
  | none =>
      cases h : ((none : Option JsString).bind fun text =>
        resolveTerm P.toRuntime text context []).bind (typeOfIri P) <;> rfl
  | some value =>
      simp only [Option.map_some, Option.bind_some, stringOf_moved hreads,
        Option.any_some, Option.all_some, isTypeCombination_moved hreads]
      cases ((stringOf H value).bind fun text =>
          resolveTerm P.toRuntime text context []).bind (typeOfIri P) with
      | some type => rfl
      | none =>
          obtain ⟨shape, hshape⟩ : ∃ shape, H.look value = shape := ⟨_, rfl⟩
          cases shape <;>
            simp only [hreads value, hshape, Shape.map, if_true,
              Bool.false_eq_true, if_false] <;> rfl

/-! ## Fields -/

omit hreads in
theorem readFields_moved (values : List (JsString × ι)) (context : Terms) :
    readFields P (moveMembers f values) context =
      (readFields P values context).map (Field.moved f) := by
  have hfilter : (moveMembers f values).filter
      (fun entry => entry.1 ≠ js "@context") =
        moveMembers f (values.filter fun entry => entry.1 ≠ js "@context") := by
    rw [moveMembers, List.filter_map]
    rfl
  unfold readFields
  rw [hfilter, sortByKey_moveMembers, moveMembers, List.map_map, List.map_map]
  rfl

theorem checkDocumentType_moved (values : List (JsString × ι))
    (fields : List (Field ι)) (path : FieldPath) (context : Terms) :
    checkDocumentType P G (moveMembers f values) (fields.map (Field.moved f))
        (base ++ path) context =
      (checkDocumentType P H values fields path context).mapError
        (List.map (Diagnostic.under base)) := by
  have hfilter : (fields.map (Field.moved f)).filter
      (fun field => field.name == some (js "type")) =
        (fields.filter fun field => field.name == some (js "type")).map
          (Field.moved f) := by
    rw [List.filter_map]
    rfl
  unfold checkDocumentType
  rw [hfilter]
  dsimp only
  rw [List.length_map]
  split_ifs
  · simp [Except.mapError, Diagnostic.under, Field.moved, Function.comp_def]
  · have hsource : ((fields.filter fun field =>
          field.name == some (js "type")).map (Field.moved f)).head?.map
            (fun field => field.source) =
        (fields.filter fun field => field.name == some (js "type")).head?.map
          fun field => field.source := by
      rw [List.head?_map, Option.map_map]
      rfl
    rw [hsource, lookup_moveMembers, List.append_assoc,
      checkType_moved hreads base P]
    cases checkType P H _ _ context <;> rfl

theorem countValues_moved (value : ι) :
    countValues G (f value) = countValues H value := by
  unfold countValues
  rw [hreads value]
  cases H.look value with
  | array entries named symbols =>
      simp only [Shape.map]
      rw [List.filter_map, List.length_map]
      congr 2
      funext slot
      match slot with
      | some (.data entry _) => simp [isNull_moved hreads]
      | some .accessor => rfl
      | none => rfl
  | _ => rfl

theorem functionalSuppliers_moved (type : VocabularyType)
    (fields : List (Field ι)) :
    functionalSuppliers P G type (fields.map (Field.moved f)) =
      (functionalSuppliers P H type fields).map (Field.moved f) := by
  unfold functionalSuppliers
  rw [List.filter_map]
  refine congrArg _ (List.filter_congr fun field _ => ?_)
  simp [Field.moved, countValues_moved hreads]

theorem findMultipleAliases_moved (type : VocabularyType)
    (fields : List (Field ι)) :
    findMultipleAliases P G type (fields.map (Field.moved f)) =
      findMultipleAliases P H type fields := by
  unfold findMultipleAliases
  rw [functionalSuppliers_moved hreads]
  dsimp only
  rw [List.filter_map, List.map_map]
  refine congrArg (List.map _) (List.filter_congr fun field _ => ?_)
  have hcount : ((functionalSuppliers P H type fields).map
      (Field.moved f)).filter (fun other =>
        other.iri == (Field.moved f field).iri) =
      ((functionalSuppliers P H type fields).filter fun other =>
        other.iri == field.iri).map (Field.moved f) := by
    rw [List.filter_map]
    rfl
  rw [Function.comp_apply, hcount, List.length_map]
  simp only [Field.moved, countValues_moved hreads]

omit hreads in
@[simp] theorem moved_reports (findings : List Diagnostic) :
    (reports findings : Item ι).map (Event.moved f base) =
      reports (findings.map (Diagnostic.under base)) := by
  simp [reports, Event.moved, Function.comp_def]

theorem checkValueRules_moved (type : VocabularyType) (key : JsString)
    (value : ι) (path : FieldPath) :
    checkValueRules P G type key (f value) (base ++ path) =
      ((checkValueRules P H type key value path).1.map (Diagnostic.under base),
        (checkValueRules P H type key value path).2.moved f base) := by
  unfold checkValueRules
  dsimp only
  split_ifs with hinteger hlink hrel
  · rw [checkSingleValue_moved hreads,
      runVisits_moved base (checkNonNegativeInteger_moved hreads base)]
    rfl
  · rw [checkLinkProperty_moved hreads]
    rfl
  · rw [checkSingleValue_moved hreads,
      runVisits_moved base (checkLinkProperty_moved hreads base P.toRuntime key)]
    rfl
  all_goals rw [checkCommonProperty_moved hreads]
  · cases checkCommonProperty P.toRuntime H
        (getCommonPropertyKind P.toRuntime type key) key value path with
    | some findings => rfl
    | none =>
        dsimp only [Option.map_none]
        have hobject : ∀ (entry : ι) (entryPath : FieldPath),
            (if isNull G (f entry) then []
              else [(⟨.propertyNotApplicable, base ++ entryPath,
                "The object property does not apply to intransitive " ++
                  "activities."⟩ : Diagnostic)]) =
              (if isNull H entry then []
                else [(⟨.propertyNotApplicable, entryPath,
                  "The object property does not apply to intransitive " ++
                    "activities."⟩ : Diagnostic)]).map
                (Diagnostic.under base) := by
          intro entry entryPath
          rw [isNull_moved hreads]
          split_ifs <;> rfl
        rw [checkReferenceValues_moved hreads, runVisits_moved base hobject]
        rfl
  · rw [checkSingleValue_moved hreads]
    cases checkCommonProperty P.toRuntime H
      (getCommonPropertyKind P.toRuntime type key) key value path <;> rfl
  · rw [checkReferenceValues_moved hreads]
    cases checkCommonProperty P.toRuntime H
      (getCommonPropertyKind P.toRuntime type key) key value path <;> rfl
  · cases checkCommonProperty P.toRuntime H
      (getCommonPropertyKind P.toRuntime type key) key value path <;> rfl

theorem checkNamedField_moved (type : VocabularyType)
    (multipleAliases : List JsString) (field : Field ι) (key : JsString)
    (path : FieldPath) :
    checkNamedField P G type multipleAliases (field.moved f) key
        (base ++ path) =
      ((checkNamedField P H type multipleAliases field key path).1.map
          (Event.moved f base),
        (checkNamedField P H type multipleAliases field key path).2.moved f
          base) := by
  have hvalue : (field.moved f).value = f field.value := rfl
  have hproperty : (field.moved f).toSourceProperty = field.toSourceProperty :=
    rfl
  unfold checkNamedField
  dsimp only
  rw [hvalue, hproperty, isNull_moved hreads,
    proposePropertyOmission_moved hreads, checkValueRules_moved hreads]
  generalize multipleAliases.contains field.source = multiple
  by_cases hcompatible : (!field.compatible) = true
  · rw [if_pos hcompatible, if_pos hcompatible]
    rfl
  by_cases hinapplicable :
      (getInapplicableProperties P.toRuntime type).contains key = true
  · rw [if_neg hcompatible, if_neg hcompatible, if_pos hinapplicable,
      if_pos hinapplicable]
    split_ifs <;> rfl
  rw [if_neg hcompatible, if_neg hcompatible, if_neg hinapplicable,
    if_neg hinapplicable]
  by_cases hsupported : isSupported P type key = true
  · rw [if_pos hsupported, if_pos hsupported]
    cases proposePropertyOmission H field.value path
        (getCommonPropertyKind P.toRuntime type key == some .id) with
    | none => cases multiple <;> simp [Event.moved, Diagnostic.under]
    | some result =>
        obtain ⟨findings, proposed⟩ := result
        cases proposed <;> cases multiple <;>
          simp [FollowUp.moved, Event.moved, Diagnostic.under]
  · rw [if_neg hsupported, if_neg hsupported]
    cases multiple <;> simp [Event.moved, Diagnostic.under]

theorem checkField_moved (type : VocabularyType)
    (multipleAliases : List JsString) (path : FieldPath) (field : Field ι) :
    checkField P G type multipleAliases (base ++ path) (field.moved f) =
      ((checkField P H type multipleAliases path field).1.map
          (Event.moved f base),
        (checkField P H type multipleAliases path field).2.moved f base) := by
  have hproperty : (field.moved f).toSourceProperty = field.toSourceProperty :=
    rfl
  unfold checkField
  simp only [hproperty, List.append_assoc]
  cases field.name with
  | none =>
      dsimp only
      split_ifs <;> rfl
  | some key =>
      exact checkNamedField_moved hreads base P type multipleAliases field key
        (path ++ [.key field.source])

/-- What a node says about a field does not depend on where the node is. -/
theorem Node.check_moved (node : Node ι) (field : Field ι) :
    (node.moved f base).check P G (field.moved f) =
      ((node.check P H field).1.map (Event.moved f base),
        (node.check P H field).2.moved f base) := by
  unfold Node.check
  simp only [Node.moved, findMultipleAliases_moved hreads]
  exact checkField_moved hreads base P node.type _ node.path field

theorem readNode_moved (value : ι) (path : FieldPath)
    (inherited : Option Terms) (expected : Option (List VocabularyType)) :
    readNode P G (f value) (base ++ path) inherited expected =
      ((readNode P H value path inherited expected).1.map
          (Diagnostic.under base),
        (readNode P H value path inherited expected).2.map
          (Node.moved f base)) := by
  unfold readNode
  rw [readDocument_moved hreads]
  cases readDocument H value path with
  | error d => rfl
  | ok values =>
      dsimp only [moveResult]
      rw [checkContext_moved hreads]
      generalize checkContext P H values path inherited = checked
      obtain ⟨findings, context⟩ := checked
      cases context with
      | none => rfl
      | some context =>
          dsimp only
          rw [readFields_moved, checkDocumentType_moved hreads]
          cases checkDocumentType P H values (readFields P values context) path
              context with
          | error ds => simp [Except.mapError]
          | ok type =>
              dsimp only [Except.mapError]
              split_ifs
              · simp [Diagnostic.under]
              · simp [Node.moved]

end Contexts

end Checks

end Document

end DrFed
