import DrFed.Document.Walk

/-!
# Reading JSON trees

What the readers of the validator return on JSON trees: a record lists its
members, sorted; a list visits each of its items; nothing is foreign, hidden
or shared.
-/

namespace DrFed.Document

theorem exists_of_bind_ok {ε α β : Type} {x : Except ε α} {f : α → Except ε β}
    {b : β} (h : x >>= f = .ok b) : ∃ a, x = .ok a ∧ f a = .ok b := by
  cases x with
  | error e => cases h
  | ok a => exact ⟨a, rfl, h⟩

/-! ## Records -/

/-- The members of an object in the order in which the checks meet them. -/
def ownProperties (ms : List (JsString × Json)) : List (JsString × Json) :=
  propertyOrder (sortByKey ms)

theorem ownProperties_perm (ms : List (JsString × Json)) :
    (ownProperties ms).Perm ms :=
  (propertyOrder_perm _).trans (sortByKey_perm _)

@[simp] theorem mem_ownProperties {ms : List (JsString × Json)}
    {entry : JsString × Json} : entry ∈ ownProperties ms ↔ entry ∈ ms :=
  (ownProperties_perm ms).mem_iff

theorem nodup_ownProperties {ms : List (JsString × Json)}
    (hnodup : (ms.map Prod.fst).Nodup) :
    ((ownProperties ms).map Prod.fst).Nodup :=
  ((ownProperties_perm ms).map Prod.fst).nodup_iff.mpr hnodup

theorem lookup_ownProperties {ms : List (JsString × Json)}
    (hnodup : (ms.map Prod.fst).Nodup) (key : JsString) :
    (ownProperties ms).lookup key = ms.lookup key :=
  AssocList.lookup_perm (ownProperties_perm ms) (nodup_ownProperties hnodup)
    key

theorem sortByKey_map {α β : Type} (f : α → β)
    (entries : List (JsString × α)) :
    sortByKey (entries.map fun e => (e.1, f e.2)) =
      (sortByKey entries).map fun e => (e.1, f e.2) := by
  unfold sortByKey
  exact (List.map_insertionSort (r := fun a b : JsString × α => keyLe a.1 b.1)
    (s := fun a b : JsString × β => keyLe a.1 b.1) _ _
    fun _ _ _ _ => Iff.rfl).symm

theorem readMembers_tree (path : FieldPath) (ms : List (JsString × Json)) :
    readMembers Json.tree path
        (ms.map fun m => (m.1, .data m.2 true)) = .ok ms := by
  induction ms with
  | nil => rfl
  | cons m rest ih =>
      have hshape : isJsonValueShape Json.tree m.2 = true := by
        cases m.2 <;> rfl
      simp [readMembers, hshape, ih, Except.map]

@[simp] theorem readDocument_obj (ms : List (JsString × Json))
    (path : FieldPath) :
    readDocument Json.tree (.obj ms) path = .ok (ownProperties ms) := by
  have hsort : sortByKey (ms.map fun m => (m.1, Slot.data m.2 true)) =
      (sortByKey ms).map fun m => (m.1, Slot.data m.2 true) :=
    sortByKey_map (fun v => Slot.data v true) ms
  have hmembers := readMembers_tree path (sortByKey ms)
  simp only [readDocument, Json.look_tree, Json.shape, hsort]
  rw [hmembers]
  rfl

/-- Only objects are read as records. -/
theorem readDocument_eq_ok {value : Json} {path : FieldPath}
    {values : List (JsString × Json)}
    (h : readDocument Json.tree value path = .ok values) :
    ∃ ms, value = .obj ms ∧ values = ownProperties ms := by
  cases value with
  | obj ms =>
      rw [readDocument_obj] at h
      exact ⟨ms, rfl, (Except.ok.inj h).symm⟩
  | _ => simp [readDocument, Json.shape] at h

/-! ## Lists -/

/-- The values that a property value consists of, with their paths: the items
of a list, or the value itself. -/
def valueEntries (value : Json) (path : FieldPath) :
    List (Json × FieldPath) :=
  match value with
  | .arr items => items.zipIdx.map fun e => (e.1, path ++ [.index e.2])
  | value => [(value, path)]

@[simp] theorem visitList_tree (items : List Json) (path : FieldPath) :
    visitList (items.map fun item => some (Slot.data item true)) [] 0 path =
      (valueEntries (.arr items) path).map fun e => .entry e.1 e.2 := by
  have hcount : ((items.map fun item => some (Slot.data item true)).filter
      Option.isSome).length = items.length := by
    rw [List.filter_eq_self.mpr (by simp)]
    simp
  simp [visitList, hcount, valueEntries, List.zipIdx_map, Function.comp_def]

@[simp] theorem isNull_tree (value : Json) :
    isNull Json.tree value = true ↔ value = .null := by
  cases value <;> simp [isNull, Json.shape]

@[simp] theorem isRecord_tree (value : Json) :
    isRecord Json.tree value = true ↔ ∃ ms, value = .obj ms := by
  cases value <;> simp [isRecord, Json.shape]

@[simp] theorem presentEntries_tree (entries : List (Json × FieldPath)) :
    presentEntries Json.tree (entries.map fun e => .entry e.1 e.2) =
      entries.filter fun e => !isNull Json.tree e.1 := by
  induction entries with
  | nil => rfl
  | cons e rest ih =>
      have hstep : presentEntries Json.tree
          ((e :: rest).map fun e => Visit.entry e.1 e.2) =
            (if isNull Json.tree e.1 then [] else [e]) ++
              presentEntries Json.tree (rest.map fun e => .entry e.1 e.2) := by
        simp only [presentEntries, List.map_cons, List.filterMap_cons]
        cases isNull Json.tree e.1 <;> rfl
      rw [hstep, ih, List.filter_cons]
      cases isNull Json.tree e.1 <;> rfl

/-- The values other than null that a property value carries. -/
def presentValues : Json → List Json
  | .arr items => items.filter fun item => !isNull Json.tree item
  | .null => []
  | value => [value]

theorem presentValues_eq (value : Json) (path : FieldPath) :
    presentValues value = ((valueEntries value path).filter fun e =>
      !isNull Json.tree e.1).map Prod.fst := by
  cases value with
  | arr items =>
      have hitems : (items.zipIdx.map Prod.fst).filter
          (fun item => !isNull Json.tree item) =
            items.filter fun item => !isNull Json.tree item := by
        rw [List.zipIdx_map_fst]
      rw [presentValues, ← hitems, valueEntries, List.filter_map,
        List.filter_map, List.map_map]
      rfl
  | _ => rfl

/-- `countValues` on a tree. -/
theorem countValues_tree (value : Json) :
    countValues Json.tree value = (presentValues value).length := by
  cases value with
  | arr items =>
      simp only [countValues, Json.look_tree, Json.shape, presentValues,
        List.filter_map, List.length_map]
      rfl
  | _ => rfl

/-! ## Plans -/

/-- What the list helpers guarantee about the plan for a value: their own
findings are errors, they visit only entries of the value, and without a
finding they visit every entry other than null. -/
structure Plans (visits : List (Visit Json)) (value : Json)
    (path : FieldPath) : Prop where
  errors : ∀ d, .finding d ∈ visits → d.isError = true
  sound : ∀ e p, .entry e p ∈ visits → (e, p) ∈ valueEntries value path
  complete : (∀ d, .finding d ∉ visits) →
    ∀ e p, (e, p) ∈ valueEntries value path → e = .null ∨ .entry e p ∈ visits

theorem plans_self {value : Json} {path : FieldPath}
    (h : ∀ items, value ≠ .arr items) :
    Plans [.entry value path] value path := by
  have hentries : valueEntries value path = [(value, path)] := by
    cases value with
    | arr items => exact absurd rfl (h items)
    | _ => rfl
  constructor
  · simp
  · simp [hentries]
  · simp [hentries]

theorem checkReferenceEntry_errors {value : Json} {path : FieldPath}
    {d : Diagnostic}
    (h : .finding d ∈ checkReferenceEntry Json.tree value path) :
    d.isError = true := by
  cases value <;> simp [checkReferenceEntry, Json.shape] at h
  subst h
  rfl

theorem checkReferenceEntry_sound {value e : Json} {path p : FieldPath}
    (h : .entry e p ∈ checkReferenceEntry Json.tree value path) :
    e = value ∧ p = path := by
  cases value <;> simp [checkReferenceEntry, Json.shape] at h <;> exact h

theorem checkReferenceEntry_complete {value : Json} {path : FieldPath}
    (hnone : ∀ d, .finding d ∉ checkReferenceEntry Json.tree value path) :
    value = .null ∨
      .entry value path ∈ checkReferenceEntry Json.tree value path := by
  cases value with
  | arr items =>
      simp [checkReferenceEntry, Json.shape] at hnone
  | null => exact .inl rfl
  | _ => exact .inr (by simp [checkReferenceEntry, Json.shape])

/-- The findings on a list of entries, entry by entry. -/
theorem plans_flatMap {entries : List (Json × FieldPath)} {value : Json}
    {path : FieldPath} {visits : List (Visit Json)}
    (hsub : ∀ x ∈ entries, x ∈ valueEntries value path)
    (hall : ∀ x ∈ valueEntries value path, x.1 = .null ∨ x ∈ entries)
    (hfindings : ∀ d, .finding d ∈ visits → d.isError = true)
    (hentries : ∀ e p, .entry e p ∉ visits) :
    Plans (visits ++
      entries.flatMap fun e => checkReferenceEntry Json.tree e.1 e.2)
      value path := by
  constructor
  · intro d hd
    rcases List.mem_append.mp hd with hd | hd
    · exact hfindings d hd
    · obtain ⟨x, -, hx⟩ := List.mem_flatMap.mp hd
      exact checkReferenceEntry_errors hx
  · intro e p he
    rcases List.mem_append.mp he with he | he
    · exact absurd he (hentries e p)
    · obtain ⟨x, hx, hmem⟩ := List.mem_flatMap.mp he
      obtain ⟨rfl, rfl⟩ := checkReferenceEntry_sound hmem
      exact hsub x hx
  · intro hnone e p he
    rcases hall (e, p) he with hnull | hmem
    · exact .inl hnull
    · have hquiet : ∀ d,
          .finding d ∉ checkReferenceEntry Json.tree e p := fun d hd =>
        hnone d (List.mem_append_right _ (List.mem_flatMap.mpr ⟨_, hmem, hd⟩))
      refine (checkReferenceEntry_complete hquiet).imp id fun hvisit => ?_
      exact List.mem_append_right _ (List.mem_flatMap.mpr ⟨_, hmem, hvisit⟩)

theorem checkReferenceValues_plans (value : Json) (path : FieldPath) :
    Plans (checkReferenceValues Json.tree value path) value path := by
  cases value with
  | arr items =>
      cases items with
      | nil =>
          constructor
          · intro d hd
            simp [checkReferenceValues, Json.shape] at hd
            subst hd
            rfl
          · simp [checkReferenceValues, Json.shape]
          · simp [valueEntries]
      | cons item rest =>
          have hplan : Plans ([] ++ (valueEntries (.arr (item :: rest))
              path).flatMap fun e => checkReferenceEntry Json.tree e.1 e.2)
              (.arr (item :: rest)) path :=
            plans_flatMap (fun x hx => hx) (fun x hx => .inr hx) (by simp)
              (by simp)
          have heq : checkReferenceValues Json.tree (.arr (item :: rest)) path =
              (valueEntries (.arr (item :: rest)) path).flatMap
                fun e => checkReferenceEntry Json.tree e.1 e.2 := by
            simp only [checkReferenceValues, Json.look_tree, Json.shape,
              visitList_tree, List.flatMap_map]
            simp
          rw [heq]
          simpa using hplan
  | _ => exact plans_self (by simp)

theorem checkSingleValue_plans (value : Json) (path : FieldPath) :
    Plans (checkSingleValue Json.tree value path) value path := by
  cases value with
  | arr items =>
      cases items with
      | nil =>
          constructor
          · intro d hd
            simp [checkSingleValue, Json.shape] at hd
            subst hd
            rfl
          · simp [checkSingleValue, Json.shape]
          · simp [valueEntries]
      | cons item rest =>
          let entries := valueEntries (.arr (item :: rest)) path
          let present := entries.filter fun e => !isNull Json.tree e.1
          let multiplicity : List (Visit Json) :=
            if present.length > 1 then
              [.finding ⟨.invalidMultiplicity, path,
                "Expected at most one non-null value."⟩]
            else []
          have hplan := @plans_flatMap present (.arr (item :: rest)) path
            multiplicity
            (fun x hx => (List.mem_filter.mp hx).1)
            (fun x hx => by
              by_cases hnull : x.1 = .null
              · exact .inl hnull
              · refine .inr (List.mem_filter.mpr ⟨hx, ?_⟩)
                rw [← isNull_tree, Bool.not_eq_true] at hnull
                simp [hnull])
            (fun d hd => by
              simp only [multiplicity] at hd
              split at hd <;> simp at hd
              subst hd
              rfl)
            (fun e p he => by
              simp only [multiplicity] at he
              split at he <;> simp at he)
          have heq : checkSingleValue Json.tree (.arr (item :: rest)) path =
              multiplicity ++ present.flatMap
                fun e => checkReferenceEntry Json.tree e.1 e.2 := by
            have hfilter : ((valueEntries (.arr (item :: rest)) path).map
                fun e => (Visit.entry e.1 e.2 : Visit Json)).filter
                  (fun visit => visit.finding?.isSome) = [] := by
              rw [List.filter_eq_nil_iff]
              intro visit hvisit
              obtain ⟨e, -, rfl⟩ := List.mem_map.mp hvisit
              simp [Visit.finding?]
            simp only [checkSingleValue, Json.look_tree, Json.shape,
              visitList_tree, presentEntries_tree]
            rw [hfilter]
            simp [multiplicity, present, entries]
          rw [heq]
          exact hplan
  | _ => exact plans_self (by simp)

theorem runVisits_finding {visits : List (Visit Json)}
    {check : Json → FieldPath → List Diagnostic}
    (hquiet : hasError (Document.runVisits check visits) = false)
    {d : Diagnostic} (hd : .finding d ∈ visits) : d.isError = false := by
  rw [hasError, List.any_eq_false] at hquiet
  simpa using hquiet d
    (List.mem_flatMap.mpr ⟨_, hd, List.mem_singleton.mpr rfl⟩)

/-- A functional value that was accepted carries at most one value. -/
theorem checkSingleValue_present {value : Json} {path : FieldPath}
    {check : Json → FieldPath → List Diagnostic}
    (hquiet : hasError (Document.runVisits check
      (checkSingleValue Json.tree value path)) = false) :
    (presentValues value).length ≤ 1 := by
  cases value with
  | arr items =>
      by_contra hmany
      cases items with
      | nil => exact hmany (Nat.zero_le 1)
      | cons item rest =>
          have hpresent : 1 < (presentEntries Json.tree ((valueEntries
              (.arr (item :: rest)) path).map fun e =>
                (Visit.entry e.1 e.2 : Visit Json))).length := by
            rw [presentEntries_tree, ← List.length_map (f := Prod.fst),
              ← presentValues_eq]
            omega
          have hfinding : .finding ⟨.invalidMultiplicity, path,
              "Expected at most one non-null value."⟩ ∈
                checkSingleValue Json.tree (.arr (item :: rest)) path := by
            simp only [checkSingleValue, Json.look_tree, Json.shape,
              visitList_tree]
            refine List.mem_append_left _ (List.mem_append_right _ ?_)
            rw [if_pos hpresent]
            exact List.mem_cons_self
          have herror := runVisits_finding hquiet hfinding
          cases herror
  | null => exact Nat.zero_le 1
  | _ => exact Nat.le_refl 1

/-- A plan run at once without an error checked every entry but null. -/
theorem Plans.runVisits {visits : List (Visit Json)} {value : Json}
    {path : FieldPath} (h : Plans visits value path)
    {check : Json → FieldPath → List Diagnostic}
    (hquiet : hasError (runVisits check visits) = false) :
    ∀ e p, (e, p) ∈ valueEntries value path →
      e = .null ∨ hasError (check e p) = false := by
  have hpart : ∀ visit ∈ visits, hasError (visit.run check) = false := by
    intro visit hvisit
    rw [hasError, List.any_eq_false] at hquiet ⊢
    intro d hd
    exact hquiet d (List.mem_flatMap.mpr ⟨visit, hvisit, hd⟩)
  intro e p he
  have hnone : ∀ d, .finding d ∉ visits := by
    intro d hd
    have := hpart _ hd
    simp [Visit.run, h.errors d hd] at this
  refine (h.complete hnone e p he).imp id fun hvisit => ?_
  exact hpart _ hvisit

end DrFed.Document
