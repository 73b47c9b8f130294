import DrFed.Document.Embedding
import DrFed.Document.Transfer

/-!
# Validation and description agree

A value is described exactly when validation accepts it.  The description
starts at the root, names every document once, after the one that embeds it,
by the property it was reached by, and leaves no embedded document out.
-/

namespace DrFed

section Copies

theorem mapM_eq_some_iff {α β : Type} {f : α → Option β} {xs : List α}
    {ys : List β} :
    xs.mapM f = some ys ↔ List.Forall₂ (fun x y => f x = some y) xs ys := by
  induction xs generalizing ys with
  | nil => simp [eq_comm]
  | cons x xs ih =>
      rw [List.mapM_cons, List.forall₂_cons_left_iff]
      constructor
      · intro h
        obtain ⟨y, hy, hrest⟩ := Option.bind_eq_some_iff.mp h
        obtain ⟨others, hothers, heq⟩ := Option.bind_eq_some_iff.mp hrest
        exact ⟨y, others, hy, ih.mp hothers, (Option.some.inj heq).symm⟩
      · rintro ⟨y, others, hy, hothers, rfl⟩
        simp [hy, ih.mpr hothers]

theorem mapM_map_congr {α β γ : Type} {f : β → Option γ} {g : α → β}
    {f' : α → Option γ} {xs : List α} (h : ∀ x ∈ xs, f (g x) = f' x) :
    (xs.map g).mapM f = xs.mapM f' := by
  induction xs with
  | nil => rfl
  | cons x xs ih =>
      rw [List.map_cons, List.mapM_cons, List.mapM_cons,
        h x List.mem_cons_self,
        ih fun y hy => h y (List.mem_cons_of_mem _ hy)]

variable {ι κ : Type} {f : ι → κ} {H : Values ι} {G : Values κ}

theorem value?_map (slot : Slot ι) :
    (slot.map f).value? = slot.value?.map f := by
  cases slot with
  | accessor => rfl
  | data value enumerable => cases enumerable <;> rfl

/-- Copies do not depend on the representation. -/
theorem clone_moved (hreads : H.Reads G f) (fuel : ℕ) (value : ι) :
    G.clone fuel (f value) = H.clone fuel value := by
  induction fuel generalizing value with
  | zero => rfl
  | succ fuel ih =>
      rw [Values.clone, Values.clone, hreads value]
      cases H.look value with
      | array entries named symbols =>
          refine congrArg (Option.map Json.arr) (mapM_map_congr ?_)
          intro entry _
          cases entry with
          | none => rfl
          | some slot =>
              simp only [Option.map_some, Option.bind_some, value?_map,
                Option.bind_map]
              exact Option.bind_congr fun entry _ => ih entry
      | object plain members symbols =>
          refine congrArg (Option.map Json.obj) (mapM_map_congr ?_)
          intro m _
          simp only [value?_map, Option.bind_map]
          exact congrArg _ (Option.bind_congr fun entry _ => ih entry)
      | _ => rfl

theorem clone_arr (fuel : ℕ) (items : List Json) :
    Json.tree.clone (fuel + 1) (.arr items) =
      (items.mapM (Json.tree.clone fuel)).map .arr := by
  rw [Values.clone]
  exact congrArg (Option.map Json.arr) (mapM_map_congr fun item _ => rfl)

theorem clone_obj (fuel : ℕ) (ms : List (JsString × Json)) :
    Json.tree.clone (fuel + 1) (.obj ms) =
      (ms.mapM fun m => (Json.tree.clone fuel m.2).map fun copy =>
        (m.1, copy)).map .obj := by
  rw [Values.clone]
  exact congrArg (Option.map Json.obj) (mapM_map_congr fun m _ => rfl)

/-- A copy of a tree is the tree. -/
theorem clone_tree (fuel : ℕ) {json : Json} :
    (∀ copy, Json.tree.clone fuel json = some copy → copy = json) ∧
      (sizeOf json ≤ fuel → Json.tree.clone fuel json = some json) := by
  induction fuel generalizing json with
  | zero =>
      refine ⟨(fun _ h => nomatch h), fun h => ?_⟩
      cases json <;> simp at h
  | succ fuel ih =>
      cases json with
      | arr items =>
          rw [clone_arr]
          constructor
          · intro copy hcopy
            obtain ⟨copies, hcopies, rfl⟩ := Option.map_eq_some_iff.mp hcopy
            have heq := (mapM_eq_some_iff.mp hcopies).imp fun _ _ hitem =>
              (ih.1 _ hitem).symm
            rw [List.forall₂_eq_eq_eq] at heq
            rw [heq]
          · intro hsize
            have hcopies : items.mapM (Json.tree.clone fuel) = some items := by
              refine mapM_eq_some_iff.mpr (List.forall₂_same.mpr ?_)
              intro item hitem
              have hlt := Json.sizeOf_item hitem
              exact ih.2 (by omega)
            rw [hcopies]
            rfl
      | obj ms =>
          rw [clone_obj]
          constructor
          · intro copy hcopy
            obtain ⟨copies, hcopies, rfl⟩ := Option.map_eq_some_iff.mp hcopy
            have heq : List.Forall₂ (· = ·) ms copies := by
              refine (mapM_eq_some_iff.mp hcopies).imp fun m copy hm => ?_
              obtain ⟨inner, hinner, rfl⟩ := Option.map_eq_some_iff.mp hm
              rw [ih.1 _ hinner]
            rw [List.forall₂_eq_eq_eq] at heq
            rw [heq]
          · intro hsize
            have hcopies : ms.mapM (fun m => (Json.tree.clone fuel m.2).map
                fun copy => (m.1, copy)) = some ms := by
              refine mapM_eq_some_iff.mpr (List.forall₂_same.mpr ?_)
              intro m hm
              have hlt := Json.sizeOf_member hm
              rw [ih.2 (by omega)]
              rfl
            rw [hcopies]
            rfl
      | _ =>
          exact ⟨fun copy h => (Option.some.inj h).symm, fun _ => rfl⟩

end Copies

namespace Document

/-! ## From values to trees -/

section Trees

variable (P : Platform) {ι : Type} {H : Values ι} {value : ι} {json : Json}

/-- What a value and its tree have in common: one walk, of which both walks
are images. -/
theorem exists_spelled_walk (hspells : json.Spells H value)
    (hfresh : (checkDocumentValue P H value).reporter.accepts = true ∨
      Fresh H [] value) :
    ∃ walk : WalkState (Spelled H),
      checkDocumentValue P H value = walk.carry (fun x => x.1.1) ∧
      checkDocumentValue P Json.tree json = walk.carry (fun x => x.1.2) := by
  let pair : Spelled H := ⟨(value, json), hspells⟩
  refine ⟨checkDocumentValue P (spelledValues H) pair, ?_, ?_⟩
  · exact @checkDocumentValue_carried _ _ (fun x : Spelled H => x.1.1) _ H P
      spelledValues_fst (fun _ _ => rfl) pair hfresh
  · exact @checkDocumentValue_carried _ _ (fun x : Spelled H => x.1.2) _
      Json.tree P spelledValues_snd (fun _ _ => rfl) pair
      (.inr (fresh_of_never fun _ _ => rfl))

/-- An accepted value is described as the tree that it spells. -/
theorem describeValue_eq (hspells : json.Spells H value)
    (haccepts : (checkDocumentValue P H value).reporter.accepts = true) :
    (checkDocumentValue P Json.tree json).reporter.accepts = true ∧
      describeValue P H value = describeDocument P json := by
  obtain ⟨walk, hvalue, htree⟩ := exists_spelled_walk P hspells (.inl haccepts)
  have hreporter : walk.reporter.accepts = true := by
    rw [hvalue] at haccepts
    exact haccepts
  have hnodes : (walk.carry (fun x => x.1.1)).visited.map
      (describeRecord P H) =
        (walk.carry (fun x => x.1.2)).visited.map (describeNode P) := by
    simp only [WalkState.carry, List.map_map]
    refine List.map_congr_left fun node _ => ?_
    rw [Function.comp_apply, Function.comp_apply,
      describeRecord_moved P spelledValues_fst, ← describeRecord_tree,
      describeRecord_moved P spelledValues_snd]
  refine ⟨by rw [htree]; exact hreporter, ?_⟩
  rw [describeValue, describeDocument, hvalue, htree]
  dsimp only
  rw [hnodes]
  rfl

/-! ## Validation of the tree -/

theorem clone_spelled (fuel : ℕ) (x : Spelled H) :
    H.clone fuel x.1.1 = Json.tree.clone fuel x.1.2 :=
  (clone_moved spelledValues_fst fuel x).trans
    (clone_moved spelledValues_snd fuel x).symm

/-- The copy of a change is the change of the tree. -/
theorem copy_moved {fuel : ℕ} {x : NormalizationChange (Spelled H)}
    {change : Change}
    (h : (x.moved (fun y => y.1.1) []).copy (H.clone fuel) = some change) :
    change = x.moved (fun y => y.1.2) [] := by
  cases x with
  | add reason path after message => exact (Option.some.inj h).symm
  | replace reason path before after message =>
      obtain ⟨copy, hcopy, rfl⟩ := Option.map_eq_some_iff.mp h
      rw [clone_spelled] at hcopy
      rw [(clone_tree fuel).1 copy hcopy]
      rfl
  | remove reason path before message =>
      obtain ⟨copy, hcopy, rfl⟩ := Option.map_eq_some_iff.mp h
      rw [clone_spelled] at hcopy
      rw [(clone_tree fuel).1 copy hcopy]
      rfl

theorem exists_copy_moved (x : NormalizationChange (Spelled H)) :
    ∃ bound, ∀ fuel, bound ≤ fuel →
      (x.moved (fun y => y.1.1) []).copy (H.clone fuel) =
        some (x.moved (fun y => y.1.2) []) := by
  cases x with
  | add reason path after message => exact ⟨0, fun _ _ => rfl⟩
  | replace reason path before after message =>
      refine ⟨sizeOf before.1.2, fun fuel hfuel => ?_⟩
      simp only [NormalizationChange.moved, NormalizationChange.copy,
        clone_spelled, (clone_tree fuel).2 hfuel, Option.map_some]
  | remove reason path before message =>
      refine ⟨sizeOf before.1.2, fun fuel hfuel => ?_⟩
      simp only [NormalizationChange.moved, NormalizationChange.copy,
        clone_spelled, (clone_tree fuel).2 hfuel, Option.map_some]

theorem exists_copies (changes : List (NormalizationChange (Spelled H))) :
    ∃ bound, ∀ fuel, bound ≤ fuel →
      (changes.map (NormalizationChange.moved (fun y => y.1.1) [])).mapM
          (NormalizationChange.copy (H.clone fuel)) =
        some (changes.map (NormalizationChange.moved (fun y => y.1.2) [])) := by
  induction changes with
  | nil => exact ⟨0, fun _ _ => rfl⟩
  | cons x rest ih =>
      obtain ⟨bound, hrest⟩ := ih
      obtain ⟨own, hown⟩ := exists_copy_moved x
      refine ⟨max own bound, fun fuel hfuel => ?_⟩
      rw [List.map_cons, List.mapM_cons, hown fuel (by omega),
        hrest fuel (by omega)]
      rfl

/-- A preview without new findings is returned with the findings of the
walk. -/
theorem checkPreview_of_accepts
    (hdistinct : json.Distinct)
    (haccepts : (checkDocumentValue P Json.tree json).reporter.accepts = true)
    (hchanges : (checkDocumentValue P Json.tree json).changes ≠ []) :
    let walk := checkDocumentValue P Json.tree json
    let preview := createPreview json walk.changes
    checkPreview walk.reporter walk.changes preview
        (validateDocument P preview) =
      validateDocument P json := by
  intro walk preview
  obtain ⟨hagain, hdiagnostics, hnone⟩ := recheck hdistinct haccepts
  have hpreview : validateDocument P preview =
      (checkDocumentValue P Json.tree preview).reporter.result := by
    rw [validateDocument, validateWithin]
    simp only [Reporter.result_accepts, preview, walk, hagain, hnone,
      List.isEmpty_nil, Bool.or_true, if_true]
  have hcomplete : walk.reporter.complete = true :=
    (Bool.and_eq_true_iff.mp haccepts).1
  have hagain' : (checkDocumentValue P Json.tree preview).reporter.complete =
      true := (Bool.and_eq_true_iff.mp hagain).1
  have hresult : ∀ r : Reporter, r.result.diagnostics = r.diagnostics ∧
      r.result.complete = r.complete := fun _ => ⟨rfl, rfl⟩
  have hsame : reportPreviewDiagnostics (checkDocumentValue P Json.tree
      preview).reporter.diagnostics walk.reporter = walk.reporter :=
    reportPreviewDiagnostics_of_subset hdiagnostics
  rw [validateDocument_of_accepts hdistinct haccepts, checkPreview, hpreview]
  simp only [(hresult _).1, (hresult _).2, hsame, hagain', hcomplete,
    Reporter.result_accepts, Bool.not_true, Bool.false_or]
  rw [if_neg (by rw [haccepts]; decide), if_neg hchanges]

/-- The validation of an accepted value is that of the tree that it spells. -/
theorem validates_iff (hdistinct : json.Distinct)
    (hspells : json.Spells H value)
    (haccepts : (checkDocumentValue P H value).reporter.accepts = true)
    (result : ValidationResult) :
    Validates P H value result ↔ result = validateDocument P json := by
  obtain ⟨walk, hvalue, htree⟩ := exists_spelled_walk P hspells (.inl haccepts)
  have hjson : (checkDocumentValue P Json.tree json).reporter.accepts =
      true := (describeValue_eq P hspells haccepts).1
  have hreporter : (checkDocumentValue P H value).reporter =
      (checkDocumentValue P Json.tree json).reporter := by
    rw [hvalue, htree]
    rfl
  let pair : Spelled H := ⟨(value, json), hspells⟩
  have hclone : ∀ fuel, H.clone fuel value = Json.tree.clone fuel json :=
    fun fuel => clone_spelled fuel pair
  by_cases hchanges : (checkDocumentValue P Json.tree json).changes = []
  · have hnone : (checkDocumentValue P H value).changes = [] := by
      rw [htree] at hchanges
      rw [hvalue]
      simpa [WalkState.carry] using hchanges
    have hrun : ∀ fuel, validateValue P H fuel value =
        some (validateDocument P json) := by
      intro fuel
      rw [validateValue, validateDocument, validateWithin]
      simp only [hnone, hchanges, hreporter, List.isEmpty_nil, Bool.or_true,
        if_true]
    constructor
    · rintro ⟨fuel, hfuel⟩
      rw [hrun] at hfuel
      exact (Option.some.inj hfuel).symm
    · rintro rfl
      exact ⟨0, hrun 0⟩
  · have hsome : (checkDocumentValue P H value).changes ≠ [] := by
      rw [htree] at hchanges
      rw [hvalue]
      simpa [WalkState.carry] using hchanges
    have hrun : ∀ fuel, validateValue P H fuel value =
        (Json.tree.clone fuel json).bind fun document =>
          ((checkDocumentValue P H value).changes.mapM
            (NormalizationChange.copy (H.clone fuel))).map fun changes =>
              checkPreview (checkDocumentValue P Json.tree json).reporter
                changes (createPreview document changes)
                (validateDocument P (createPreview document changes)) := by
      intro fuel
      rw [validateValue]
      simp only [Reporter.result_accepts, hreporter, hjson, hclone,
        List.isEmpty_eq_false_iff.mpr hsome, Bool.not_true, Bool.or_self,
        Bool.false_eq_true, if_false]
      cases Json.tree.clone fuel json with
      | none => rfl
      | some document =>
          cases (checkDocumentValue P H value).changes.mapM
            (NormalizationChange.copy (H.clone fuel)) <;> rfl
    have hpreview := checkPreview_of_accepts P hdistinct hjson hchanges
    constructor
    · rintro ⟨fuel, hfuel⟩
      rw [hrun] at hfuel
      obtain ⟨document, hdocument, hfuel⟩ := Option.bind_eq_some_iff.mp hfuel
      obtain ⟨changes, hcopies, rfl⟩ := Option.map_eq_some_iff.mp hfuel
      obtain rfl := (clone_tree fuel).1 document hdocument
      have heq : changes = (checkDocumentValue P Json.tree document).changes := by
        rw [hvalue] at hcopies
        rw [htree]
        have hcopied := mapM_eq_some_iff.mp hcopies
        simp only [WalkState.carry, List.forall₂_map_left_iff] at hcopied ⊢
        have hmoved : List.Forall₂ (· = ·) changes (walk.changes.map
            (NormalizationChange.moved (fun x => x.1.2) [])) := by
          rw [List.forall₂_map_right_iff]
          exact (hcopied.imp fun x change h => copy_moved h).flip
        rwa [List.forall₂_eq_eq_eq] at hmoved
      rw [heq]
      exact hpreview
    · rintro rfl
      obtain ⟨bound, hbound⟩ := exists_copies walk.changes
      refine ⟨max bound (sizeOf json), ?_⟩
      rw [hrun, (clone_tree _).2 (by omega), hvalue]
      have hcopies := hbound (max bound (sizeOf json)) (by omega)
      simp only [WalkState.carry] at hcopies ⊢
      rw [hcopies, Option.bind_some, Option.map_some]
      rw [htree] at hpreview ⊢
      exact congrArg some hpreview

end Trees

/-! ## Positions in a value and in its tree -/

section Positions

variable {ι : Type} {H : Values ι}

theorem lookup_spelled {ms : List (JsString × Json)}
    {members : List (JsString × ι)}
    (h : List.Forall₂ (fun m member => m.1 = member.1 ∧
      Json.Spells H m.2 member.2) ms members) (key : JsString) :
    Option.Rel (fun j v => Json.Spells H j v) (ms.lookup key)
      (members.lookup key) := by
  induction h with
  | nil => exact .none
  | cons hm _ ih =>
      rw [List.lookup_cons, List.lookup_cons, ← hm.1]
      split
      · exact .some hm.2
      · exact ih

theorem getElem?_spelled {items : List Json} {entries : List ι}
    (h : List.Forall₂ (fun j v => Json.Spells H j v) items entries) (i : ℕ) :
    Option.Rel (fun j v => Json.Spells H j v) items[i]? entries[i]? := by
  induction h generalizing i with
  | nil => exact .none
  | cons hitem _ ih =>
      cases i with
      | zero => exact .some hitem
      | succ i => exact ih i

theorem lookup_data (members : List (JsString × ι)) (key : JsString) :
    (members.map fun m => (m.1, Slot.data m.2 true)).lookup key =
      (members.lookup key).map fun v => Slot.data v true := by
  induction members with
  | nil => rfl
  | cons m rest ih =>
      rw [List.map_cons, List.lookup_cons, List.lookup_cons, ih]
      split <;> rfl

/-- A value and its tree have the same children. -/
theorem child_spelled {json : Json} {value : ι}
    (h : json.Spells H value) (segment : Segment) :
    Option.Rel (fun j v => Json.Spells H j v) (json.child? segment)
      (H.child value segment) := by
  have hscalar : ∀ {shape : Shape ι}, H.look value = shape →
      (∀ e n s, shape ≠ .array e n s) → (∀ p m s, shape ≠ .object p m s) →
      H.child value segment = none := by
    rintro shape rfl harray hobject
    unfold Values.child
    split
    next hlook => exact absurd hlook (hobject _ _ _)
    next hlook => exact absurd hlook (harray _ _ _)
    next => rfl
  cases json with
  | arr items =>
      obtain ⟨entries, hlook, hitems⟩ := Json.spells_arr.mp h
      cases segment with
      | key name => simp [Json.child?, Values.child, hlook]
      | index i =>
          have hget : ((entries.map fun entry => some (Slot.data entry
              true))[i]?) = (entries[i]?).map fun entry =>
                some (Slot.data entry true) := List.getElem?_map
          have hrel := getElem?_spelled hitems i
          simp only [Json.child?, Values.child, hlook, hget]
          generalize items[i]? = j, entries[i]? = v at hrel ⊢
          cases hrel with
          | none => exact .none
          | some hv => exact .some hv
  | obj ms =>
      obtain ⟨members, hlook, hms⟩ := Json.spells_obj.mp h
      cases segment with
      | index i => simp [Json.child?, Values.child, hlook]
      | key name =>
          simp only [Json.child?, Values.child, hlook, lookup_data]
          have hrel := lookup_spelled hms name
          generalize ms.lookup name = j, members.lookup name = v at hrel ⊢
          cases hrel with
          | none => exact .none
          | some hv => exact .some hv
  | null =>
      rw [hscalar h (by simp) (by simp)]
      exact .none
  | bool b =>
      rw [hscalar h (by simp) (by simp)]
      exact .none
  | num n =>
      rw [hscalar h (by simp) (by simp)]
      exact .none
  | str text =>
      rw [hscalar h (by simp) (by simp)]
      exact .none

/-- A value and its tree have the same positions. -/
theorem at_spelled {json : Json} {value : ι} (h : json.Spells H value)
    (path : FieldPath) :
    Option.Rel (fun j v => Json.Spells H j v) (json.get? path)
      (H.at value path) := by
  induction path generalizing json value with
  | nil => exact .some h
  | cons segment rest ih =>
      rw [Json.get?_cons, Values.at]
      have hchild := child_spelled h segment
      cases hj : json.child? segment with
      | none =>
          rw [hj] at hchild
          cases hv : H.child value segment with
          | none => exact .none
          | some v => rw [hv] at hchild; cases hchild
      | some j =>
          rw [hj] at hchild
          cases hv : H.child value segment with
          | none => rw [hv] at hchild; cases hchild
          | some v =>
              rw [hv] at hchild
              cases hchild with
              | some hchild => exact ih hchild

end Positions

/-! ## The description of an accepted value -/

/-- What a description says about the documents that the walk visited. -/
structure Describes (P : Platform) {ι : Type} (H : Values ι) (root : ι)
    (visited : List (Node ι)) (nodes : List DocumentNode) : Prop where
  paths : nodes.map DocumentNode.path = visited.map Node.path
  first : ∃ node rest, nodes = node :: rest ∧ node.path = []
  distinct : (nodes.map DocumentNode.path).Nodup
  resolves : ∀ node ∈ nodes, ∃ value,
    H.at root node.path = some value ∧ isRecord H value = true
  parent : ∀ before node after, nodes = before ++ node :: after →
    node.path ≠ [] → ∃ parent ∈ before, ∃ key name,
      (node.path = parent.path ++ [.key key] ∨
        ∃ i, node.path = parent.path ++ [.key key, .index i]) ∧
      node.property = some name ∧
      key ∈ (parent.properties.lookup name).getD [] ∧
      ∃ source ∈ visited, source.path = parent.path ∧
        (resolveProperty P key source.context).name = some name
  complete : ∀ node ∈ visited, ∀ field ∈ node.fields, ∀ name,
    field.name = some name → EmbedsDocuments P node.type name →
    ∀ p value, (p = node.path ++ [.key field.source] ∨
        ∃ i, p = node.path ++ [.key field.source, .index i]) →
      H.at root p = some value → isRecord H value = true →
      ∃ other ∈ nodes, other.path = p

section Described

variable (P : Platform) {ι : Type} {H : Values ι} {root : ι} {json : Json}

theorem isRecord_spelled {j : Json} {v : ι} (h : j.Spells H v) :
    isRecord H v = true ↔ ∃ ms, j = .obj ms := by
  cases j with
  | obj ms =>
      obtain ⟨members, hlook, -⟩ := Json.spells_obj.mp h
      simp [isRecord, hlook]
  | arr items =>
      obtain ⟨entries, hlook, -⟩ := Json.spells_arr.mp h
      simp [isRecord, hlook]
  | null =>
      have hlook : H.look v = .null := h
      simp [isRecord, hlook]
  | bool b =>
      have hlook : H.look v = .bool b := h
      simp [isRecord, hlook]
  | num n =>
      have hlook : H.look v = .number n := h
      simp [isRecord, hlook]
  | str text =>
      have hlook : H.look v = .string text := h
      simp [isRecord, hlook]

/-- The objects of a value are at the objects of its tree. -/
theorem at_record_iff (hspells : json.Spells H root) {p : FieldPath} :
    (∃ value, H.at root p = some value ∧ isRecord H value = true) ↔
      ∃ ms, json.get? p = some (.obj ms) := by
  have hrel := at_spelled hspells p
  generalize json.get? p = j, H.at root p = v at hrel ⊢
  cases hrel with
  | none => simp
  | some hv => simp [isRecord_spelled hv]

theorem mem_valueEntries_of_get? {value : Json} {path p : FieldPath}
    {ms : List (JsString × Json)}
    (h : (p = path ∧ value = .obj ms) ∨
      ∃ i, p = path ++ [.index i] ∧ value.child? (.index i) = some (.obj ms)) :
    (.obj ms, p) ∈ valueEntries value path := by
  rcases h with ⟨rfl, rfl⟩ | ⟨i, rfl, hchild⟩
  · simp [valueEntries]
  · cases value with
    | arr items =>
        exact List.mem_map.mpr ⟨(.obj ms, i),
          List.mk_mem_zipIdx_iff_getElem?.mpr hchild, rfl⟩
    | _ => cases hchild

theorem describes_of_accepts (hdistinct : json.Distinct)
    (hspells : json.Spells H root)
    (haccepts : (checkDocumentValue P H root).reporter.accepts = true)
    {nodes : List DocumentNode}
    (hnodes : describeValue P H root = some nodes) :
    Describes P H root (checkDocumentValue P H root).visited nodes := by
  obtain ⟨walk, hvalue, htree⟩ := exists_spelled_walk P hspells (.inl haccepts)
  obtain ⟨hjson, hdescribe⟩ := describeValue_eq P hspells haccepts
  rw [hdescribe] at hnodes
  obtain ⟨-, rfl⟩ := describeDocument_eq_some hnodes
  obtain ⟨top, haccepted⟩ := exists_accepted P hjson
  obtain ⟨⟨rest, hrest, -⟩, hnodup⟩ :=
    visited_ordered hdistinct hjson haccepted
  have hvisited : (checkDocumentValue P H root).visited =
      walk.visited.map (Node.moved (fun x => x.1.1) []) := by
    rw [hvalue]
    rfl
  have htreeVisited : (checkDocumentValue P Json.tree json).visited =
      walk.visited.map (Node.moved (fun x => x.1.2) []) := by
    rw [htree]
    rfl
  have hpath : ∀ node, (describedNode P json node).path = node.path :=
    fun node => assignProperty_path _ _
  have hpaths : (describedNodes P json).map DocumentNode.path =
      (checkDocumentValue P Json.tree json).visited.map Node.path := by
    rw [describedNodes, List.map_map]
    exact List.map_congr_left fun node _ => hpath node
  have hreaches : ∀ node ∈ (checkDocumentValue P Json.tree json).visited,
      Reaches P top node := fun node => (haccepted.visited node).mp
  constructor
  case paths =>
    rw [hpaths, hvisited, htreeVisited, List.map_map, List.map_map]
    rfl
  case first =>
    refine ⟨describedNode P json top, rest.map (describedNode P json), ?_, ?_⟩
    · rw [describedNodes, hrest, List.map_cons]
    · rw [hpath, haccepted.root_path]
  case distinct =>
    rw [hpaths]
    exact hnodup
  case resolves =>
    intro n hn
    obtain ⟨node, hnode, rfl⟩ := List.mem_map.mp hn
    obtain ⟨ms, hget, -⟩ :=
      (haccepted.nodeAt hdistinct (hreaches node hnode)).values
    rw [hpath]
    exact (at_record_iff hspells).mpr ⟨ms, hget⟩
  case parent =>
    intro before n after hsplit hne
    obtain ⟨before, others, hmap, rfl, hothers⟩ :=
      List.map_eq_append_iff.mp hsplit
    obtain ⟨node, after, rfl, rfl, rfl⟩ := List.map_eq_cons_iff.mp hothers
    rw [hpath] at hne
    obtain ⟨parent, hparent, hembedded⟩ :=
      exists_parent hdistinct hjson haccepted hmap hne
    have hmem : parent ∈ (checkDocumentValue P Json.tree json).visited := by
      rw [hmap]
      exact List.mem_append_left _ hparent
    obtain ⟨field, hfield, hheld⟩ := (embedded_iff_heldBy P).mp hembedded
    obtain ⟨name, hname, hproperty⟩ := describedNode_property hdistinct
      haccepted (hreaches parent hmem) hfield hheld
    refine ⟨describedNode P json parent, List.mem_map_of_mem hparent,
      field.source, name, ?_, hproperty, ?_, ?_⟩
    · rw [hpath, hpath]
      exact hheld.path
    · have hfields : (describedNode P json parent).properties =
          nodeProperties parent.fields := assignProperty_properties _ _
      rw [hfields, nodeProperties_lookup]
      obtain ⟨visits, key, range, hfollow, -⟩ := id hheld
      refine List.mem_map_of_mem (List.mem_filter.mpr
        ⟨(mem_checkedFields.mp hfield).1, ?_⟩)
      simp [hname, (check_references P hfollow).2.1]
    · rw [htreeVisited] at hmem
      obtain ⟨x, hx, rfl⟩ := List.mem_map.mp hmem
      refine ⟨x.moved (fun y => y.1.1) [], ?_, by rw [hpath]; rfl, ?_⟩
      · rw [hvisited]
        exact List.mem_map_of_mem hx
      · have hat := haccepted.nodeAt hdistinct (hreaches _
          (htreeVisited ▸ List.mem_map_of_mem hx))
        have hread := (mem_checkedFields.mp hfield).1
        rw [hat.fields, mem_readFields] at hread
        obtain ⟨entry, -, -, rfl⟩ := hread
        dsimp only at hname ⊢
        rwa [resolveProperty_source]
  case complete =>
    intro node hnode field hfield name hname hembeds p value hp hat hrecord
    rw [hvisited] at hnode
    obtain ⟨x, hx, rfl⟩ := List.mem_map.mp hnode
    obtain ⟨g, hg, rfl⟩ := List.mem_map.mp hfield
    have hmem : x.moved (fun y => y.1.2) [] ∈
        (checkDocumentValue P Json.tree json).visited := by
      rw [htreeVisited]
      exact List.mem_map_of_mem hx
    have hgfield : g.moved (fun y => y.1.2) ∈
        (x.moved (fun y => y.1.2) []).fields := List.mem_map_of_mem hg
    obtain ⟨ms, hget⟩ := (at_record_iff hspells).mp ⟨value, hat, hrecord⟩
    have hvalue := (haccepted.nodeAt hdistinct
      (hreaches _ hmem)).get?_field hdistinct hgfield
    have hentry : (.obj ms, p) ∈ valueEntries (g.moved (fun y => y.1.2)).value
        (x.path ++ [.key g.source]) := by
      refine mem_valueEntries_of_get? ?_
      rcases hp with rfl | ⟨i, rfl⟩
      · exact .inl ⟨rfl, Option.some.inj (hvalue.symm.trans hget)⟩
      · refine .inr ⟨i, by simp [Node.moved, Field.moved], ?_⟩
        have hconcat : ((x.moved (fun y => y.1.1) []).path ++
            [.key (g.moved (fun y => y.1.1)).source, .index i]) =
              (x.path ++ [.key g.source]) ++ [.index i] := by
          simp [Node.moved, Field.moved]
        have hchild := hconcat ▸ hget
        rw [Json.get?_concat] at hchild
        obtain ⟨held, hheld, hchild⟩ := Option.bind_eq_some_iff.mp hchild
        obtain rfl := Option.some.inj (hheld.symm.trans hvalue)
        exact hchild
    obtain ⟨child, hchild, rfl⟩ := exists_visited haccepted
      (hreaches _ hmem) hgfield hname hembeds hentry
    exact ⟨describedNode P json child, List.mem_map_of_mem hchild, hpath child⟩

end Described

/-- Validation of any value has one result.  The value is described when the
result is complete and without errors, and then its description lists the
documents that vocabulary properties embed. -/
theorem describeValue_agrees (P : Platform) (h : Heap) (root : JsValue) :
    (∃ result, ∀ other,
      Validates P h.values root other ↔ other = result) ∧
    (∀ result, Validates P h.values root result →
      ((describeValue P h.values root).isSome = true ↔
        result.accepts = true)) ∧
    ∀ nodes, describeValue P h.values root = some nodes →
      Describes P h.values root (checkDocumentValue P h.values root).visited
        nodes := by
  by_cases haccepts :
      (checkDocumentValue P h.values root).reporter.accepts = true
  · obtain ⟨json, hdistinct, hspells⟩ := plain_of_document h.lawful _
      (quietWalk_of_accepts haccepts)
    obtain ⟨hjson, hdescribe⟩ := describeValue_eq P hspells haccepts
    refine ⟨⟨_, validates_iff P hdistinct hspells haccepts⟩, ?_, ?_⟩
    · intro result hresult
      rw [validates_iff P hdistinct hspells haccepts] at hresult
      rw [hresult, hdescribe]
      exact describeDocument_isSome hdistinct
    · intro nodes hnodes
      exact describes_of_accepts P hdistinct hspells haccepts hnodes
  · have hresult : ∀ fuel, validateValue P h.values fuel root =
        some (checkDocumentValue P h.values root).reporter.result := by
      intro fuel
      rw [Bool.not_eq_true] at haccepts
      rw [validateValue]
      simp only [Reporter.result_accepts, haccepts, Bool.not_false,
        Bool.true_or, if_true]
    have hnone : describeValue P h.values root = none := by
      rw [describeValue]
      dsimp only
      rw [if_neg haccepts]
    refine ⟨⟨(checkDocumentValue P h.values root).reporter.result,
      fun other => ⟨?_, ?_⟩⟩, ?_, ?_⟩
    · rintro ⟨fuel, hfuel⟩
      rw [hresult] at hfuel
      exact (Option.some.inj hfuel).symm
    · rintro rfl
      exact ⟨0, hresult 0⟩
    · rintro result ⟨fuel, hfuel⟩
      rw [hresult] at hfuel
      obtain rfl := Option.some.inj hfuel
      rw [hnone, Reporter.result_accepts]
      simpa using haccepts
    · intro nodes hnodes
      rw [hnone] at hnodes
      cases hnodes

end Document

end DrFed
