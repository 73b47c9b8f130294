import DrFed.Js.Value

/-!
# Paths into JSON trees

Reading and updating a JSON tree at a path of property names and indexes.
The frame lemmas say what an update leaves alone: every position that is not
on the updated path.
-/

namespace DrFed

/-- A source property name or a zero-based index. -/
inductive Segment where
  | key (name : JsString)
  | index (position : ℕ)
  deriving DecidableEq

/-- The source property names and indexes leading to a value. -/
abbrev FieldPath := List Segment

namespace Json

/-- The member or item that one segment names. -/
def child? : Json → Segment → Option Json
  | .obj ms, .key name => ms.lookup name
  | .arr items, .index i => items[i]?
  | _, _ => none

/-- The value at a path. -/
def get? : Json → FieldPath → Option Json
  | value, [] => some value
  | value, segment :: rest =>
      (value.child? segment).bind fun child => child.get? rest

/-- Apply a function to the child that a segment names, if there is one. -/
def updateChild (value : Json) (segment : Segment) (f : Json → Json) : Json :=
  match value, segment with
  | .obj ms, .key name =>
      .obj (ms.map fun m => if m.1 = name then (m.1, f m.2) else m)
  | .arr items, .index i => .arr (items.modify i f)
  | value, _ => value

/-- Apply a function to the value at a path, if there is one. -/
def update : Json → FieldPath → (Json → Json) → Json
  | value, [], f => f value
  | value, segment :: rest, f =>
      value.updateChild segment fun child => child.update rest f

/-- Define a member or overwrite an item. -/
def setChild (value : Json) (segment : Segment) (child : Json) : Json :=
  match value, segment with
  | .obj ms, .key name => .obj (AssocList.put name child ms)
  | .arr items, .index i => .arr (items.set i child)
  | value, _ => value

/-- Delete a member. -/
def removeChild (value : Json) (segment : Segment) : Json :=
  match value, segment with
  | .obj ms, .key name => .obj (AssocList.remove name ms)
  | value, _ => value

@[simp] theorem get?_nil (value : Json) : value.get? [] = some value := by
  simp [get?]

theorem get?_cons (value : Json) (segment : Segment) (rest : FieldPath) :
    value.get? (segment :: rest) =
      (value.child? segment).bind fun child => child.get? rest := by
  rw [get?]

theorem get?_append (value : Json) (p q : FieldPath) :
    value.get? (p ++ q) = (value.get? p).bind fun child => child.get? q := by
  induction p generalizing value with
  | nil => simp
  | cons segment rest ih =>
      rw [List.cons_append, get?_cons, get?_cons]
      cases value.child? segment with
      | none => rfl
      | some child => exact ih child

theorem get?_concat (value : Json) (p : FieldPath) (segment : Segment) :
    value.get? (p ++ [segment]) =
      (value.get? p).bind fun child => child.child? segment := by
  rw [get?_append]
  congr 1
  funext child
  rw [get?_cons]
  cases child.child? segment <;> simp

/-! ## Children of an updated value -/

theorem lookup_map_update (ms : List (JsString × Json)) (name other : JsString)
    (f : Json → Json) :
    (ms.map fun m => if m.1 = name then (m.1, f m.2) else m).lookup other =
      (ms.lookup other).map fun v => if other = name then f v else v := by
  induction ms with
  | nil => simp
  | cons m rest ih =>
      rw [List.map_cons, AssocList.lookup_cons_eq, AssocList.lookup_cons_eq, ih]
      by_cases hm : m.1 = name
      · by_cases ho : other = m.1
        · simp [hm, ho]
        · simp [hm, hm ▸ ho]
      · by_cases ho : other = m.1
        · simp [hm, ho]
        · simp [hm, ho]

theorem child?_updateChild_same (value : Json) (segment : Segment)
    (f : Json → Json) :
    (value.updateChild segment f).child? segment =
      (value.child? segment).map f := by
  cases value <;> cases segment <;>
    simp [updateChild, child?, lookup_map_update]

theorem child?_updateChild_of_ne (value : Json) {segment other : Segment}
    (hne : other ≠ segment) (f : Json → Json) :
    (value.updateChild segment f).child? other = value.child? other := by
  cases value with
  | obj ms =>
      cases segment with
      | key name =>
          cases other with
          | key o =>
              have ho : o ≠ name := fun h => hne (h ▸ rfl)
              simp [updateChild, child?, lookup_map_update, ho]
          | index i => simp [updateChild, child?]
      | index i => simp [updateChild]
  | arr items =>
      cases segment with
      | key name => simp [updateChild]
      | index i =>
          cases other with
          | key o => simp [updateChild, child?]
          | index j =>
              have hj : i ≠ j := fun h => hne (h ▸ rfl)
              simp [updateChild, child?, hj]
  | _ => simp [updateChild]

theorem child?_setChild_obj (ms : List (JsString × Json)) (name : JsString)
    (child : Json) (other : Segment) :
    ((Json.obj ms).setChild (.key name) child).child? other =
      if other = .key name then some child else (Json.obj ms).child? other := by
  cases other with
  | key o => simp [setChild, child?]
  | index i => simp [setChild, child?]

theorem child?_removeChild_obj (ms : List (JsString × Json)) (name : JsString)
    (other : Segment) :
    ((Json.obj ms).removeChild (.key name)).child? other =
      if other = .key name then none else (Json.obj ms).child? other := by
  cases other with
  | key o => simp [removeChild, child?]
  | index i => simp [removeChild, child?]

/-! ## Positions of an updated tree -/

theorem get?_update_same (value : Json) (p : FieldPath) (f : Json → Json) :
    (value.update p f).get? p = (value.get? p).map f := by
  induction p generalizing value with
  | nil => simp [update]
  | cons segment rest ih =>
      rw [update, get?_cons, get?_cons, child?_updateChild_same]
      cases value.child? segment with
      | none => rfl
      | some child => exact ih child

/-! ## Labels -/

/-- What stands at one position of a tree, apart from what is below it. -/
inductive Label where
  | null
  | bool (value : Bool)
  | num (value : JsNumber)
  | str (value : JsString)
  | arr (length : ℕ)
  | obj
  deriving DecidableEq

def label : Json → Label
  | .null => .null
  | .bool value => .bool value
  | .num value => .num value
  | .str value => .str value
  | .arr items => .arr items.length
  | .obj _ => .obj

theorem label_eq_obj {value : Json} (h : value.label = .obj) :
    ∃ ms, value = .obj ms := by
  cases value with
  | obj ms => exact ⟨ms, rfl⟩
  | _ => cases h

@[simp] theorem label_updateChild (value : Json) (segment : Segment)
    (f : Json → Json) : (value.updateChild segment f).label = value.label := by
  cases value <;> cases segment <;> simp [updateChild, label]

@[simp] theorem label_setChild (value : Json) (segment : Segment)
    (child : Json) : (value.setChild segment child).label = value.label := by
  cases value <;> cases segment <;> simp [setChild, label]

@[simp] theorem label_removeChild (value : Json) (segment : Segment) :
    (value.removeChild segment).label = value.label := by
  cases value <;> cases segment <;> simp [removeChild, label]

theorem child?_setChild_of_ne (value : Json) {segment other : Segment}
    (hne : other ≠ segment) (child : Json) :
    (value.setChild segment child).child? other = value.child? other := by
  cases value with
  | obj ms =>
      cases segment with
      | key name => rw [child?_setChild_obj, if_neg hne]
      | index i => simp [setChild]
  | arr items =>
      cases segment with
      | key name => simp [setChild]
      | index i =>
          cases other with
          | key o => simp [setChild, child?]
          | index j =>
              have hj : i ≠ j := fun h => hne (h ▸ rfl)
              simp [setChild, child?, List.getElem?_set_ne hj]
  | _ => simp [setChild]

theorem child?_removeChild_of_ne (value : Json) {segment other : Segment}
    (hne : other ≠ segment) :
    (value.removeChild segment).child? other = value.child? other := by
  cases value with
  | obj ms =>
      cases segment with
      | key name => rw [child?_removeChild_obj, if_neg hne]
      | index i => simp [removeChild]
  | _ => simp [removeChild]

section Edit

variable {q : FieldPath} {segment : Segment} {f : Json → Json}

/-- A function that changes only one child of a value, at a position. -/
structure EditsChild (segment : Segment) (f : Json → Json) : Prop where
  label : ∀ value, (f value).label = value.label
  child : ∀ value other, other ≠ segment →
    (f value).child? other = value.child? other

theorem editsChild_setChild (segment : Segment) (child : Json) :
    EditsChild segment fun parent => parent.setChild segment child :=
  ⟨fun value => label_setChild value segment child,
    fun value _ hne => child?_setChild_of_ne value hne child⟩

theorem editsChild_removeChild (segment : Segment) :
    EditsChild segment fun parent => parent.removeChild segment :=
  ⟨fun value => label_removeChild value segment,
    fun value _ hne => child?_removeChild_of_ne value hne⟩

theorem EditsChild.label_update (h : EditsChild segment f) (value : Json)
    (q : FieldPath) : (value.update q f).label = value.label := by
  cases q with
  | nil => exact h.label value
  | cons other rest => rw [update, label_updateChild]

/-- Outside of the edited position, every label stays. -/
theorem EditsChild.label_get? (h : EditsChild segment f) {p : FieldPath}
    (hp : ¬ (q ++ [segment]) <+: p) (value : Json) :
    ((value.update q f).get? p).map Json.label =
      (value.get? p).map Json.label := by
  induction q generalizing value p with
  | nil =>
      cases p with
      | nil => simp [update, h.label]
      | cons other rest =>
          have hne : other ≠ segment := by
            rintro rfl
            exact hp (by simp)
          rw [update, get?_cons, get?_cons, h.child value other hne]
  | cons t q ih =>
      cases p with
      | nil => simp [h.label_update]
      | cons other rest =>
          rw [update, get?_cons, get?_cons]
          by_cases hother : other = t
          · subst hother
            rw [child?_updateChild_same]
            cases value.child? other with
            | none => rfl
            | some child =>
                refine ih (fun hbegin => hp ?_) child
                rw [List.cons_append]
                exact (List.prefix_cons_inj other).mpr hbegin
          · rw [child?_updateChild_of_ne value hother]

/-- Neither above nor below the edited position, every value stays. -/
theorem EditsChild.get?_update (h : EditsChild segment f) {p : FieldPath}
    (hp : ¬ (q ++ [segment]) <+: p) (hq : ¬ p <+: q) (value : Json) :
    (value.update q f).get? p = value.get? p := by
  induction q generalizing value p with
  | nil =>
      cases p with
      | nil => exact absurd List.nil_prefix hq
      | cons other rest =>
          have hne : other ≠ segment := by
            rintro rfl
            exact hp (by simp)
          rw [update, get?_cons, get?_cons, h.child value other hne]
  | cons t q ih =>
      cases p with
      | nil => exact absurd List.nil_prefix hq
      | cons other rest =>
          rw [update, get?_cons, get?_cons]
          by_cases hother : other = t
          · subst hother
            rw [child?_updateChild_same]
            cases value.child? other with
            | none => rfl
            | some child =>
                refine ih (fun hbegin => hp ?_) (fun hbegin => hq ?_) child
                · rw [List.cons_append]
                  exact (List.prefix_cons_inj other).mpr hbegin
                · exact (List.prefix_cons_inj other).mpr hbegin
          · rw [child?_updateChild_of_ne value hother]

end Edit

/-! ## Distinct member names -/

theorem Distinct.child? {value child : Json} (h : value.Distinct)
    {segment : Segment} (hchild : value.child? segment = some child) :
    child.Distinct := by
  cases value with
  | obj ms =>
      cases segment with
      | key name =>
          rw [distinct_obj] at h
          exact h.2 _ (AssocList.mem_of_lookup_eq_some hchild)
      | index i => cases hchild
  | arr items =>
      cases segment with
      | key name => cases hchild
      | index i =>
          rw [distinct_arr] at h
          exact h _ (List.mem_of_getElem? hchild)
  | _ => cases hchild

theorem Distinct.get? {value child : Json} (h : value.Distinct)
    {p : FieldPath} (hchild : value.get? p = some child) : child.Distinct := by
  induction p generalizing value with
  | nil =>
      rw [get?_nil] at hchild
      exact Option.some.inj hchild ▸ h
  | cons segment rest ih =>
      rw [get?_cons] at hchild
      obtain ⟨middle, hmiddle, hrest⟩ := Option.bind_eq_some_iff.mp hchild
      exact ih (h.child? hmiddle) hrest

theorem Distinct.update {f : Json → Json}
    (hf : ∀ value : Json, value.Distinct → (f value).Distinct) {value : Json}
    (h : value.Distinct) (p : FieldPath) : (value.update p f).Distinct := by
  induction p generalizing value with
  | nil => exact hf value h
  | cons segment rest ih =>
      rw [Json.update]
      cases value with
      | obj ms =>
          cases segment with
          | key name =>
              rw [distinct_obj] at h
              rw [updateChild, distinct_obj]
              constructor
              · have hkeys : (ms.map fun m =>
                    if m.1 = name then (m.1, m.2.update rest f) else m).map
                    Prod.fst = ms.map Prod.fst := by
                  rw [List.map_map]
                  refine List.map_congr_left fun m _ => ?_
                  by_cases hm : m.1 = name <;> simp [hm]
                rw [hkeys]
                exact h.1
              · intro entry hentry
                obtain ⟨m, hm, rfl⟩ := List.mem_map.mp hentry
                by_cases hname : m.1 = name
                · rw [if_pos hname]
                  exact ih (h.2 m hm)
                · rw [if_neg hname]
                  exact h.2 m hm
          | index i => exact h
      | arr items =>
          cases segment with
          | key name => exact h
          | index i =>
              rw [distinct_arr] at h
              rw [updateChild, distinct_arr]
              intro item hitem
              obtain ⟨j, hj, rfl⟩ := List.getElem_of_mem hitem
              rw [List.getElem_modify]
              split
              · exact ih (h _ (List.getElem_mem _))
              · exact h _ (List.getElem_mem _)
      | _ => exact h

theorem Distinct.setChild {value child : Json} (h : value.Distinct)
    (hchild : child.Distinct) (segment : Segment) :
    (value.setChild segment child).Distinct := by
  cases value with
  | obj ms =>
      cases segment with
      | key name =>
          rw [distinct_obj] at h
          rw [Json.setChild, distinct_obj]
          refine ⟨AssocList.nodup_put h.1, fun entry hentry => ?_⟩
          rcases AssocList.mem_put hentry with rfl | hmem
          · exact hchild
          · exact h.2 entry hmem
      | index i => exact h
  | arr items =>
      cases segment with
      | key name => exact h
      | index i =>
          rw [distinct_arr] at h
          rw [Json.setChild, distinct_arr]
          intro item hitem
          rcases List.mem_or_eq_of_mem_set hitem with hmem | rfl
          · exact h item hmem
          · exact hchild
  | _ => exact h

theorem Distinct.removeChild {value : Json} (h : value.Distinct)
    (segment : Segment) : (value.removeChild segment).Distinct := by
  cases value with
  | obj ms =>
      cases segment with
      | key name =>
          rw [distinct_obj] at h
          rw [Json.removeChild, distinct_obj]
          refine ⟨(List.filter_sublist.map Prod.fst).nodup h.1,
            fun entry hentry => h.2 entry (List.mem_of_mem_filter hentry)⟩
      | index i => exact h
  | _ => exact h

end Json

end DrFed
