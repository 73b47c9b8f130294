import DrFed.Document.Prepare

/-!
# Positions of a preview

Frame lemmas for the application of changes.  A change is seen at its own path
and below; above it only the members of one object change; everywhere else
the document stays as it was.
-/

namespace DrFed.Document

theorem editChild_editsChild (change : Change) (segment : Segment) :
    Json.EditsChild segment fun parent => editChild change parent segment := by
  unfold editChild
  cases change.after? with
  | none => exact Json.editsChild_removeChild segment
  | some after => exact Json.editsChild_setChild segment after

/-- A change either has no place to apply to or edits one child. -/
theorem applyChange_cases (document : Json) (change : Change) :
    applyChange document change = document ∨
    ∃ parent segment, change.path = parent ++ [segment] ∧
      applyChange document change = document.update parent
        fun value => editChild change value segment := by
  unfold applyChange updateParent
  cases hlast : change.path.getLast? with
  | none => exact .inl rfl
  | some segment =>
      exact .inr ⟨_, segment,
        (List.dropLast_append_getLast? segment hlast).symm, rfl⟩

theorem applyChange_label {change : Change} {p : FieldPath}
    (hp : ¬ change.path <+: p) (document : Json) :
    ((applyChange document change).get? p).map Json.label =
      (document.get? p).map Json.label := by
  rcases applyChange_cases document change with heq | ⟨q, segment, hq, heq⟩
  · rw [heq]
  · rw [heq]
    exact (editChild_editsChild change segment).label_get? (hq ▸ hp) document

theorem applyChange_get? {change : Change} {p : FieldPath}
    (hp : ¬ change.path <+: p) (hq : ¬ p <+: change.path) (document : Json) :
    (applyChange document change).get? p = document.get? p := by
  rcases applyChange_cases document change with heq | ⟨q, segment, hpath, heq⟩
  · rw [heq]
  · rw [heq]
    refine (editChild_editsChild change segment).get?_update (hpath ▸ hp) ?_ _
    intro hbegin
    exact hq (hpath ▸ hbegin.trans (List.prefix_append _ _))

/-- A change of a member leaves its value at its path. -/
theorem applyChange_self {change : Change} {q : FieldPath} {key : JsString}
    (hpath : change.path = q ++ [.key key]) {document : Json}
    {ms : List (JsString × Json)} (hget : document.get? q = some (.obj ms)) :
    (applyChange document change).get? change.path = change.after? := by
  have happly : applyChange document change = document.update q
      fun value => editChild change value (.key key) := by
    simp [applyChange, updateParent, hpath]
  rw [happly, hpath, Json.get?_concat, Json.get?_update_same, hget]
  simp only [Option.map_some, Option.bind_some, editChild]
  cases change.after? with
  | none => simp [Json.child?_removeChild_obj]
  | some after => simp [Json.child?_setChild_obj]

theorem applyChange_distinct {document : Json} (h : document.Distinct)
    {change : Change} (hafter : ∀ after, change.after? = some after →
      after.Distinct) : (applyChange document change).Distinct := by
  rcases applyChange_cases document change with heq | ⟨q, segment, -, heq⟩
  · rw [heq]
    exact h
  · rw [heq]
    refine Json.Distinct.update (fun value hvalue => ?_) h q
    unfold editChild
    cases hchange : change.after? with
    | none => exact hvalue.removeChild segment
    | some after => exact hvalue.setChild (hafter after hchange) segment

section Lists

variable {changes : List Change}

/-- Outside of the changed paths, every label stays. -/
theorem createPreview_label {p : FieldPath}
    (hp : ∀ change ∈ changes, ¬ change.path <+: p) (document : Json) :
    ((createPreview document changes).get? p).map Json.label =
      (document.get? p).map Json.label := by
  induction changes generalizing document with
  | nil => rfl
  | cons change rest ih =>
      have hrest := ih (fun c hc => hp c (List.mem_cons_of_mem _ hc))
        (applyChange document change)
      exact hrest.trans (applyChange_label (hp _ List.mem_cons_self) document)

/-- Neither above nor below a changed path, every value stays. -/
theorem createPreview_get? {p : FieldPath}
    (hp : ∀ change ∈ changes, ¬ change.path <+: p ∧ ¬ p <+: change.path)
    (document : Json) :
    (createPreview document changes).get? p = document.get? p := by
  induction changes generalizing document with
  | nil => rfl
  | cons change rest ih =>
      have hfirst := hp _ List.mem_cons_self
      have hrest := ih (fun c hc => hp c (List.mem_cons_of_mem _ hc))
        (applyChange document change)
      exact hrest.trans (applyChange_get? hfirst.1 hfirst.2 document)

theorem createPreview_append (document : Json) (first second : List Change) :
    createPreview document (first ++ second) =
      createPreview (createPreview document first) second :=
  List.foldl_append

theorem createPreview_distinct {document : Json} (h : document.Distinct)
    (hafter : ∀ change ∈ changes, ∀ after, change.after? = some after →
      after.Distinct) : (createPreview document changes).Distinct := by
  induction changes generalizing document with
  | nil => exact h
  | cons change rest ih =>
      exact ih (applyChange_distinct h (hafter change List.mem_cons_self))
        fun c hc => hafter c (List.mem_cons_of_mem _ hc)

/-- The last change of a member decides what is at its path, when no change
removes the object around it and no later one touches the path. -/
theorem createPreview_last {first second : List Change} {change : Change}
    {q : FieldPath} {key : JsString}
    (hpath : change.path = q ++ [.key key]) {document : Json}
    {ms : List (JsString × Json)} (hget : document.get? q = some (.obj ms))
    (hfirst : ∀ c ∈ first, ¬ c.path <+: q)
    (hsecond : ∀ c ∈ second,
      ¬ c.path <+: change.path ∧ ¬ change.path <+: c.path) :
    (createPreview document (first ++ change :: second)).get? change.path =
      change.after? := by
  have hlabel := createPreview_label hfirst document
  rw [hget, Option.map_some] at hlabel
  obtain ⟨value, hvalue, hobj⟩ := Option.map_eq_some_iff.mp hlabel
  obtain ⟨fields, rfl⟩ := Json.label_eq_obj hobj
  rw [createPreview_append]
  have hrest := createPreview_get? hsecond
    (applyChange (createPreview document first) change)
  exact hrest.trans (applyChange_self hpath hvalue)

end Lists

end DrFed.Document
