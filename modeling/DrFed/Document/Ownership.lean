import DrFed.Document.Outcome
import DrFed.Document.Position
import DrFed.Document.Preview
import DrFed.Document.Reduced
import DrFed.Support.Lists

/-!
# Server-owned fields

A document that preparation lets through carries, for every server-owned
field, exactly the server's value: read over all spellings of the property at
the position of the field, in the context in force there.
-/

namespace DrFed.Document

/-! ## Properties by meaning -/

section Platform

variable (P : Platform)

/-- The values of a property of a record, over every key that resolves to
it. -/
def semanticValues (ms : List (JsString × Json)) (context : Terms)
    (property : JsString) : List Json :=
  (aliasesOf P ms context property).flatMap fun entry => presentValues entry.2

/-- The values of a property of the object at a path. -/
def propertyAt (document : Json) (path : FieldPath) (property : JsString) :
    Option (List Json) :=
  match document.get? path, contextAt P document [] none path with
  | some (.obj ms), some context => some (semanticValues P ms context property)
  | _, _ => none

/-- The property that a server-owned field names in a document. -/
def ownedProperty (document : Json) (field : ServerOwnedField) :
    Option JsString :=
  (contextAt P document [] none field.parent).bind fun context =>
    (resolveProperty P field.source context).name

/-- The document carries the value of a server-owned field, and no other. -/
def Owns (document : Json) (field : ServerOwnedField) : Prop :=
  ∃ property, ownedProperty P document field = some property ∧
    propertyAt P document field.parent property = some [.str field.value]

/-! ## Present values -/

theorem suppliedValues_fst (value : Json) (path : FieldPath) :
    (suppliedValues value path).map Prod.fst = presentValues value := by
  cases value with
  | arr items =>
      simp only [suppliedValues, presentValues]
      have hindex : ∀ n : ℕ,
          ((items.zipIdx n).filterMap (suppliedItem path)).map Prod.fst =
          items.filter fun item => !isNull Json.tree item := by
        induction items with
        | nil => simp
        | cons item rest ih =>
            intro n
            rw [List.zipIdx_cons, List.filterMap_cons]
            cases item with
            | null =>
                rw [List.filter_cons_of_neg (by decide)]
                exact ih (n + 1)
            | _ =>
                rw [List.filter_cons_of_pos rfl]
                exact congrArg (List.cons _) (ih (n + 1))
      exact hindex 0
  | _ => rfl

/-- A value without present values holds no object. -/
theorem get?_of_presentValues_nil {value : Json}
    (h : presentValues value = []) {rest : FieldPath}
    {ms : List (JsString × Json)} : value.get? rest ≠ some (.obj ms) := by
  intro hget
  have hnull : ∀ (q : FieldPath), Json.null.get? q ≠ some (.obj ms) := by
    intro q
    cases q with
    | nil => simp
    | cons segment q => simp [Json.get?_cons, Json.child?]
  cases value with
  | null => exact hnull rest hget
  | arr items =>
      cases rest with
      | nil => simp at hget
      | cons segment rest =>
          rw [Json.get?_cons] at hget
          obtain ⟨child, hchild, hrest⟩ := Option.bind_eq_some_iff.mp hget
          cases segment with
          | key name => cases hchild
          | index i =>
              have hmem : child ∈ items := List.mem_of_getElem? hchild
              have hall := List.filter_eq_nil_iff.mp h child hmem
              have hchildNull : child = .null := by simpa using hall
              exact hnull rest (hchildNull ▸ hrest)
  | _ => cases h

/-- A value that carries one text holds no object. -/
theorem get?_of_presentValues_text {value : Json} {text : JsString}
    (h : presentValues value = [.str text]) (rest : FieldPath)
    (ms : List (JsString × Json)) : value.get? rest ≠ some (.obj ms) := by
  intro hget
  have hscalar : ∀ (v : Json) (q : FieldPath), v = .null ∨ v = .str text →
      v.get? q ≠ some (.obj ms) := by
    rintro v q (rfl | rfl) <;> cases q <;> simp [Json.get?_cons, Json.child?]
  cases value with
  | arr items =>
      cases rest with
      | nil => simp at hget
      | cons segment rest =>
          rw [Json.get?_cons] at hget
          obtain ⟨child, hchild, hrest⟩ := Option.bind_eq_some_iff.mp hget
          cases segment with
          | key name => cases hchild
          | index i =>
              refine hscalar child rest ?_ hrest
              by_cases hnull : child = .null
              · exact .inl hnull
              · have hmem : child ∈ presentValues (.arr items) := by
                  refine List.mem_filter.mpr ⟨List.mem_of_getElem? hchild, ?_⟩
                  rw [← isNull_tree, Bool.not_eq_true] at hnull
                  simp [hnull]
                rw [h, List.mem_singleton] at hmem
                exact .inr hmem
  | str s => exact hscalar _ rest (.inr (by simpa [presentValues] using h)) hget
  | _ => cases h

theorem presentValues_of_omittable {name : Option JsString} {value : Json}
    (h : Omittable name value) : presentValues value = [] := by
  rcases h with rfl | ⟨-, rfl | ⟨items, rfl, hall⟩⟩
  · rfl
  · rfl
  · refine List.filter_eq_nil_iff.mpr fun item hitem => ?_
    simp [(isNull_tree item).mpr (hall item hitem)]

/-! ## Semantic values -/

theorem mem_aliasesOf {ms : List (JsString × Json)} {context : Terms}
    {property : JsString} {entry : JsString × Json} :
    entry ∈ aliasesOf P ms context property ↔
      entry ∈ ms ∧
        (resolveProperty P entry.1 context).name = some property := by
  simp [aliasesOf]

theorem semanticValues_perm {ms others : List (JsString × Json)}
    (h : ms.Perm others) (context : Terms) (property : JsString) :
    (semanticValues P ms context property).Perm
      (semanticValues P others context property) :=
  (h.filter _).flatMap_right _

theorem semanticValues_eq_nil {ms : List (JsString × Json)} {context : Terms}
    {property : JsString} :
    semanticValues P ms context property = [] ↔
      ∀ entry ∈ ms, (resolveProperty P entry.1 context).name = some property →
        presentValues entry.2 = [] := by
  simp only [semanticValues, List.flatMap_eq_nil_iff, mem_aliasesOf, and_imp]

/-- One spelling carries one value, and every other spelling carries none. -/
theorem semanticValues_eq_singleton {ms : List (JsString × Json)}
    (hnodup : (ms.map Prod.fst).Nodup) {context : Terms} {property : JsString}
    {x : Json} :
    semanticValues P ms context property = [x] ↔
      ∃ key value, (key, value) ∈ ms ∧
        (resolveProperty P key context).name = some property ∧
        presentValues value = [x] ∧
        ∀ entry ∈ ms, entry.1 ≠ key →
          (resolveProperty P entry.1 context).name = some property →
          presentValues entry.2 = [] := by
  induction ms with
  | nil => simp [semanticValues, aliasesOf]
  | cons head rest ih =>
      rw [List.map_cons, List.nodup_cons] at hnodup
      have hkeys : ∀ entry ∈ rest, entry.1 ≠ head.1 := by
        intro entry hentry heq
        exact hnodup.1 (heq ▸ List.mem_map_of_mem hentry)
      by_cases hhead : (resolveProperty P head.1 context).name = some property
      · have hsplit : semanticValues P (head :: rest) context property =
            presentValues head.2 ++ semanticValues P rest context property := by
          simp [semanticValues, aliasesOf, hhead]
        rw [hsplit, List.append_eq_singleton_iff]
        constructor
        · rintro (⟨hnone, hrest⟩ | ⟨hvalue, hrest⟩)
          · obtain ⟨key, value, hmem, hname, hpresent, hothers⟩ :=
              (ih hnodup.2).mp hrest
            refine ⟨key, value, List.mem_cons_of_mem _ hmem, hname, hpresent,
              fun entry hentry hne hentryName => ?_⟩
            rcases List.mem_cons.mp hentry with rfl | hentry
            · exact hnone
            · exact hothers entry hentry hne hentryName
          · refine ⟨head.1, head.2, List.mem_cons_self, hhead, hvalue,
              fun entry hentry hne hentryName => ?_⟩
            rcases List.mem_cons.mp hentry with rfl | hentry
            · exact absurd rfl hne
            · exact (semanticValues_eq_nil P).mp hrest entry hentry hentryName
        · rintro ⟨key, value, hmem, hname, hpresent, hothers⟩
          rcases List.mem_cons.mp hmem with heq | hmem
          · refine .inr ⟨heq ▸ hpresent, (semanticValues_eq_nil P).mpr ?_⟩
            intro entry hentry hentryName
            refine hothers entry (List.mem_cons_of_mem _ hentry) ?_ hentryName
            rw [show key = head.1 from congrArg Prod.fst heq]
            exact hkeys entry hentry
          · refine .inl ⟨hothers head List.mem_cons_self
              (hkeys _ hmem).symm hhead, (ih hnodup.2).mpr ⟨key, value, hmem,
                hname, hpresent, fun entry hentry =>
                  hothers entry (List.mem_cons_of_mem _ hentry)⟩⟩
      · have hsplit : semanticValues P (head :: rest) context property =
            semanticValues P rest context property := by
          simp [semanticValues, aliasesOf, hhead]
        rw [hsplit, ih hnodup.2]
        constructor
        · rintro ⟨key, value, hmem, hname, hpresent, hothers⟩
          refine ⟨key, value, List.mem_cons_of_mem _ hmem, hname, hpresent,
            fun entry hentry hne hentryName => ?_⟩
          rcases List.mem_cons.mp hentry with rfl | hentry
          · exact absurd hentryName hhead
          · exact hothers entry hentry hne hentryName
        · rintro ⟨key, value, hmem, hname, hpresent, hothers⟩
          rcases List.mem_cons.mp hmem with heq | hmem
          · exact absurd (show (resolveProperty P head.1 context).name =
              some property by rw [← heq]; exact hname) hhead
          · exact ⟨key, value, hmem, hname, hpresent, fun entry hentry =>
              hothers entry (List.mem_cons_of_mem _ hentry)⟩

/-! ## Checked fields -/

theorem targetAt_eq_some {visited : List (Node Json)} {path : FieldPath}
    {node : Node Json} (h : targetAt visited path = some node) :
    node ∈ visited ∧ node.path = path := by
  unfold targetAt at h
  have hmem := List.mem_of_find?_eq_some h
  have hpath := List.find?_some h
  exact ⟨List.mem_reverse.mp hmem, by simpa using hpath⟩

theorem checkServerOwnedField_eq_ok {field : ServerOwnedField}
    {context : Terms} {seen after : SeenFields} {property : JsString}
    (h : checkServerOwnedField P field context seen = .ok (property, after)) :
    (resolveProperty P field.source context).name = some property ∧
      (field.parent, property) ∉ seen ∧
      after = (field.parent, property) :: seen := by
  unfold checkServerOwnedField at h
  dsimp only at h
  split at h
  · cases h
  next name hname =>
    split at h
    · cases h
    · split at h
      · cases h
      next hseen =>
        have hresult : (name, (field.parent, name) :: seen) =
            (property, after) := by
          split at h <;> split at h <;>
            first
            | exact Except.ok.inj h
            | cases h
        obtain ⟨rfl, rfl⟩ := Prod.mk.inj hresult
        exact ⟨hname, by simpa using hseen, rfl⟩

/-- What a checked field is: its target is the document at its parent path,
where its key resolves to its property. -/
structure ChecksField (visited : List (Node Json)) (checked : CheckedField) :
    Prop where
  target : checked.target ∈ visited
  parent : checked.target.path = checked.field.parent
  property : (resolveProperty P checked.field.source
    checked.target.context).name = some checked.property

/-- A semantic field: the position and the property. -/
def CheckedField.position (checked : CheckedField) : FieldPath × JsString :=
  (checked.field.parent, checked.property)

theorem checkServerOwnedFields_eq_ok {document : Json}
    {visited : List (Node Json)} {fields : List ServerOwnedField}
    {seen : SeenFields} {checked : List CheckedField}
    (h : checkServerOwnedFields P document visited [] false fields seen =
      .ok checked) :
    checked.map CheckedField.field = fields ∧
      (∀ c ∈ checked, ChecksField P visited c ∧ c.position ∉ seen) ∧
      (checked.map CheckedField.position).Nodup := by
  induction fields generalizing seen checked with
  | nil =>
      cases h
      simp
  | cons field rest ih =>
      rw [checkServerOwnedFields] at h
      split at h
      · cases h
      · split at h
        next => simp at h
        next target htarget =>
          cases hfield : checkServerOwnedField P field target.context seen with
          | error e =>
              simp only [hfield, bind, Except.bind] at h
              cases h
          | ok result =>
              obtain ⟨property, after⟩ := result
              cases hrest : checkServerOwnedFields P document visited [] false
                  rest after with
              | error e =>
                  simp only [hfield, hrest, bind, Except.bind] at h
                  cases h
              | ok others =>
                  simp only [hfield, hrest, bind, Except.bind, pure,
                    Except.pure, Except.ok.injEq] at h
                  subst h
                  obtain ⟨hname, hseen, rfl⟩ :=
                    checkServerOwnedField_eq_ok P hfield
                  obtain ⟨hmap, hchecked, hnodup⟩ := ih hrest
                  obtain ⟨hvisited, hpath⟩ := targetAt_eq_some htarget
                  refine ⟨by rw [List.map_cons, hmap], ?_, ?_⟩
                  · intro c hc
                    rcases List.mem_cons.mp hc with rfl | hc
                    · exact ⟨⟨hvisited, hpath, hname⟩, hseen⟩
                    · obtain ⟨hchecks, hnot⟩ := hchecked c hc
                      exact ⟨hchecks,
                        fun hmem => hnot (List.mem_cons_of_mem _ hmem)⟩
                  · rw [List.map_cons, List.nodup_cons]
                    refine ⟨fun hmem => ?_, hnodup⟩
                    obtain ⟨c, hc, heq⟩ := List.mem_map.mp hmem
                    refine (hchecked c hc).2 ?_
                    rw [heq]
                    exact List.mem_cons_self

/-! ## Proposals -/

/-- The values that a document supplies for a checked field. -/
def suppliedOf (checked : CheckedField) : List (Json × FieldPath) :=
  (aliasesOf P checked.target.values checked.target.context
    checked.property).flatMap fun entry =>
      suppliedValues entry.2 (checked.field.parent ++ [.key entry.1])

theorem suppliedOf_fst (checked : CheckedField) :
    (suppliedOf P checked).map Prod.fst =
      semanticValues P checked.target.values checked.target.context
        checked.property := by
  simp only [suppliedOf, semanticValues, List.map_flatMap, suppliedValues_fst]

/-- A change that gives a checked field its value. -/
structure Assigns (checked : CheckedField) (change : Change) : Prop where
  key : ∃ key, change.path = checked.field.parent ++ [.key key] ∧
    (resolveProperty P key checked.target.context).name =
      some checked.property
  after : change.after? = some (.str checked.field.value)
  kept : change.isRemove = false

/-- The proposal of one field: an assignment after the omission it replaces,
nothing, or a conflict. -/
inductive Proposes (checked : CheckedField) (changes : List Change) :
    List Diagnostic × List Change → Prop
  | assign (change : Change) (hsupplied : suppliedOf P checked = [])
      (hassigns : Assigns P checked change) :
      Proposes checked changes
        ([], changes.eraseP (isOmissionAt change.path) ++ [change])
  | agree (hsupplied : (suppliedOf P checked).map Prod.fst =
        [.str checked.field.value]) :
      Proposes checked changes ([], changes)
  | conflict (findings : List Diagnostic) (herror : hasError findings = true) :
      Proposes checked changes (findings, changes)

theorem isText_eq_true {value : Json} {text : JsString}
    (h : isText value text = true) : value = .str text := by
  cases value with
  | str s => simpa [isText] using h
  | _ => cases h

theorem proposeServerField_proposes {checked : CheckedField}
    (hproperty : (resolveProperty P checked.field.source
      checked.target.context).name = some checked.property)
    (changes : List Change) :
    Proposes P checked changes (proposeServerField P checked changes) := by
  obtain ⟨field, target, property⟩ := checked
  have hsupplied : suppliedOf P ⟨field, target, property⟩ =
      (aliasesOf P target.values target.context property).flatMap fun entry =>
        suppliedValues entry.2 (field.parent ++ [.key entry.1]) := rfl
  unfold proposeServerField
  dsimp only
  rw [← hsupplied]
  split
  next hnone =>
    -- The chosen key resolves to the property, whichever way it was chosen.
    have hkey : (resolveProperty P
        (if (target.values.lookup field.source).isSome then field.source
        else ((aliasesOf P target.values target.context property).head?.map
          Prod.fst).getD field.source) target.context).name =
          some property := by
      split
      · exact hproperty
      · cases hhead : (aliasesOf P target.values target.context
            property).head? with
        | none => exact hproperty
        | some entry =>
            exact ((mem_aliasesOf P).mp (List.mem_of_mem_head? hhead)).2
    generalize (if (target.values.lookup field.source).isSome then field.source
      else ((aliasesOf P target.values target.context property).head?.map
        Prod.fst).getD field.source) = key at hkey ⊢
    split
    · exact .assign (.replace _ _ _ _ _) hnone ⟨⟨key, rfl, hkey⟩, rfl, rfl⟩
    · exact .assign (.add _ _ _ _) hnone ⟨⟨key, rfl, hkey⟩, rfl, rfl⟩
  next entry path hone =>
    split
    next htext =>
      refine .agree ?_
      rw [hone, isText_eq_true htext]
      rfl
    next => exact .conflict _ rfl
  next several hnil hone =>
    refine .conflict _ ?_
    obtain ⟨first, rest, heq⟩ := List.exists_cons_of_ne_nil hnil
    rw [heq]
    rfl

theorem eraseP_isOmissionAt (path : FieldPath) (kept : List Change)
    {assigned : List Change} (h : ∀ c ∈ assigned, c.isRemove = false) :
    ∃ others, others.Sublist kept ∧
      (kept ++ assigned).eraseP (isOmissionAt path) = others ++ assigned := by
  have hnone : ∀ c ∈ assigned, ¬ isOmissionAt path c = true := by
    intro c hc
    simp [isOmissionAt, h c hc]
  rw [List.eraseP_append]
  split
  · exact ⟨_, List.eraseP_sublist, rfl⟩
  · exact ⟨kept, .refl _, by rw [List.eraseP_of_forall_not hnone]⟩

theorem proposeServerFields_proposed {checked : List CheckedField}
    (hproperty : ∀ c ∈ checked, (resolveProperty P c.field.source
      c.target.context).name = some c.property)
    {kept : List Change} (assigned : List Change)
    (hkept : ∀ c ∈ assigned, c.isRemove = false)
    (hquiet : hasError (proposeServerFields P checked
      (kept ++ assigned)).1 = false) :
    ∃ others more, (proposeServerFields P checked (kept ++ assigned)).2 =
        others ++ (assigned ++ more) ∧ others.Sublist kept ∧
      List.Forall₂ (Assigns P)
        (checked.filter fun c => (suppliedOf P c).isEmpty) more ∧
      ∀ c ∈ checked, suppliedOf P c ≠ [] →
        (suppliedOf P c).map Prod.fst = [.str c.field.value] := by
  induction checked generalizing kept assigned with
  | nil => exact ⟨kept, [], by simp [proposeServerFields], .refl _, .nil, by simp⟩
  | cons c rest ih =>
      have hstep := proposeServerField_proposes P
        (hproperty c List.mem_cons_self) (kept ++ assigned)
      have hrest := fun d hd => hproperty d (List.mem_cons_of_mem _ hd)
      rw [proposeServerFields] at hquiet ⊢
      dsimp only at hquiet ⊢
      rw [hasError_append, Bool.or_eq_false_iff] at hquiet
      generalize proposeServerField P c (kept ++ assigned) = proposed at *
      cases hstep with
      | assign change hsupplied hassigns =>
          obtain ⟨others, hothers, heq⟩ :=
            eraseP_isOmissionAt change.path kept hkept
          simp only [heq] at hquiet ⊢
          rw [List.append_assoc] at hquiet ⊢
          obtain ⟨final, more, hresult, hsub, hall, hagree⟩ := ih hrest
            (assigned ++ [change]) (by
              intro d hd
              rcases List.mem_append.mp hd with hd | hd
              · exact hkept d hd
              · exact List.mem_singleton.mp hd ▸ hassigns.kept) hquiet.2
          refine ⟨final, change :: more, by simp [hresult],
            hsub.trans hothers, ?_, ?_⟩
          · rw [List.filter_cons_of_pos (by simp [hsupplied])]
            exact .cons hassigns hall
          · intro d hd hne
            rcases List.mem_cons.mp hd with rfl | hd
            · exact absurd hsupplied hne
            · exact hagree d hd hne
      | agree hsupplied =>
          obtain ⟨final, more, hresult, hsub, hall, hagree⟩ :=
            ih hrest _ hkept hquiet.2
          refine ⟨final, more, hresult, hsub, ?_, ?_⟩
          · rw [List.filter_cons_of_neg]
            · exact hall
            · intro hempty
              rw [List.isEmpty_iff.mp hempty] at hsupplied
              cases hsupplied
          · intro d hd hne
            rcases List.mem_cons.mp hd with rfl | hd
            · exact hsupplied
            · exact hagree d hd hne
      | conflict findings herror =>
          exact absurd (herror.symm.trans hquiet.1) (by decide)

/-! ## Changes of a preview -/

/-- A change of a member that carries no value, in a document that the walk
has read. -/
structure ChangesMember (document : Json) (change : Change) : Prop where
  member : ∃ node key, NodeAt P document node ∧
    change.path = node.path ++ [.key key] ∧
    (resolveProperty P key node.context).name.isSome
  bare : ∀ value, document.get? change.path = some value →
    presentValues value = []

section Frame

variable {P} {document : Json} {changes : List Change}

theorem NodeAt.get? {node : Node Json} (h : NodeAt P document node) :
    ∃ ms, document.get? node.path = some (.obj ms) := by
  obtain ⟨ms, hget, -⟩ := h.values
  exact ⟨ms, hget⟩

/-- No object is at or below a changed member. -/
theorem ChangesMember.not_beyond {change : Change}
    (h : ChangesMember P document change) {p : FieldPath}
    {ms : List (JsString × Json)} (hget : document.get? p = some (.obj ms)) :
    ¬ change.path <+: p := by
  rintro ⟨rest, rfl⟩
  rw [Json.get?_append] at hget
  obtain ⟨value, hvalue, hrest⟩ := Option.bind_eq_some_iff.mp hget
  exact get?_of_presentValues_nil (h.bare value hvalue) hrest

theorem prefix_concat {α : Type} {p q : List α} {x : α}
    (h : p <+: q ++ [x]) : p = q ++ [x] ∨ p <+: q :=
  List.prefix_concat_iff.mp h

/-- Changed members are not inside one another. -/
theorem ChangesMember.eq_of_begin {change other : Change}
    (h : ChangesMember P document change)
    (hother : ChangesMember P document other)
    (hbegin : change.path <+: other.path) : change.path = other.path := by
  obtain ⟨node, key, hnode, hpath, -⟩ := hother.member
  obtain ⟨ms, hget⟩ := hnode.get?
  rw [hpath] at hbegin ⊢
  rcases prefix_concat hbegin with heq | hbelow
  · exact heq
  · exact absurd hbelow (h.not_beyond hget)

/-- A preview reads like the document along the path to a document of the
walk. -/
theorem readsAlike_preview (hdistinct : document.Distinct)
    (hchanges : ∀ change ∈ changes, ChangesMember P document change)
    {node : Node Json} (hnode : NodeAt P document node) :
    ReadsAlike document (createPreview document changes) node.path := by
  obtain ⟨ms, hget⟩ := hnode.get?
  constructor
  · intro q hq
    refine createPreview_label (fun change hchange hbegin => ?_) document
    exact (hchanges change hchange).not_beyond hget (hbegin.trans hq)
  · intro q fields _ hobj
    refine createPreview_get? (fun change hchange => ?_) document
    obtain ⟨owner, key, howner, hpath, hname⟩ := (hchanges change hchange).member
    constructor
    · intro hbegin
      rcases prefix_concat hbegin with heq | hbelow
      · rw [hpath] at heq
        obtain ⟨-, hkey⟩ := List.append_inj' heq rfl
        have hkey' : key = js "@context" := by simpa using hkey
        rw [hkey', resolveProperty_context (howner.wellFormed hdistinct)]
          at hname
        cases hname
      · exact (hchanges change hchange).not_beyond hobj hbelow
    · intro hbegin
      rw [hpath] at hbegin
      rcases prefix_concat hbegin with heq | hbelow
      · obtain ⟨-, hkey⟩ := List.append_inj' heq rfl
        have hkey' : key = js "@context" := by simpa using hkey.symm
        rw [hkey', resolveProperty_context (howner.wellFormed hdistinct)]
          at hname
        cases hname
      · refine howner.outside (hbelow.subset ?_)
        simp

/-- A document of the walk is still an object with its context. -/
theorem preview_node (hdistinct : document.Distinct)
    (hchanges : ∀ change ∈ changes, ChangesMember P document change)
    {node : Node Json} (hnode : NodeAt P document node)
    (hafter : ∀ change ∈ changes, ∀ after, change.after? = some after →
      after.Distinct) :
    ∃ ms, (createPreview document changes).get? node.path = some (.obj ms) ∧
      (ms.map Prod.fst).Nodup ∧
      contextAt P (createPreview document changes) [] none node.path =
        some node.context := by
  have hread := readsAlike_preview hdistinct hchanges hnode
  have hpreview := createPreview_distinct hdistinct hafter
  obtain ⟨fields, hget⟩ := hnode.get?
  have hlabel := hread.label node.path List.prefix_rfl
  rw [hget, Option.map_some] at hlabel
  obtain ⟨value, hvalue, hobj⟩ := Option.map_eq_some_iff.mp hlabel
  obtain ⟨ms, rfl⟩ := Json.label_eq_obj hobj
  refine ⟨ms, hvalue, (Json.distinct_obj.mp (hpreview.get? hvalue)).1, ?_⟩
  rw [hread.contextAt P hdistinct hpreview, hnode.context]

/-- A member without an object in it that no change is about keeps its
value. -/
theorem preview_member
    (hchanges : ∀ change ∈ changes, ChangesMember P document change)
    {node : Node Json} (hnode : NodeAt P document node) {key : JsString}
    {value : Json}
    (hvalue : document.get? (node.path ++ [.key key]) = some value)
    (hflat : ∀ rest ms, value.get? rest ≠ some (.obj ms))
    (hother : ∀ change ∈ changes, change.path ≠ node.path ++ [.key key]) :
    (createPreview document changes).get? (node.path ++ [.key key]) =
      some value := by
  rw [createPreview_get? (fun change hchange => ?_) document, hvalue]
  obtain ⟨ms, hget⟩ := hnode.get?
  have hmember := hchanges change hchange
  constructor
  · intro hbegin
    rcases prefix_concat hbegin with heq | hbelow
    · exact hother change hchange heq
    · exact hmember.not_beyond hget hbelow
  · intro hbegin
    obtain ⟨owner, k, howner, hpath, -⟩ := hmember.member
    rw [hpath] at hbegin
    rcases prefix_concat hbegin with heq | ⟨rest, hrest⟩
    · exact hother change hchange (hpath.trans heq.symm)
    · obtain ⟨fields, hfields⟩ := howner.get?
      rw [← hrest, Json.get?_append, hvalue, Option.bind_some] at hfields
      exact hflat rest fields hfields

/-- The last change at a member decides what is there. -/
theorem preview_changed
    (hchanges : ∀ change ∈ changes, ChangesMember P document change)
    (first second : List Change) {change : Change}
    (hsplit : changes = first ++ change :: second)
    (hlast : ∀ c ∈ second, c.path ≠ change.path) :
    (createPreview document changes).get? change.path = change.after? := by
  have hself := hchanges change (by simp [hsplit])
  obtain ⟨node, key, hnode, hpath, -⟩ := hself.member
  obtain ⟨ms, hget⟩ := hnode.get?
  have hmem : ∀ c ∈ second, c ∈ changes := by
    intro c hc
    simp [hsplit, hc]
  rw [hsplit]
  refine createPreview_last hpath hget (fun c hc => ?_) fun c hc => ⟨?_, ?_⟩
  · exact (hchanges c (by simp [hsplit, hc])).not_beyond hget
  · intro hbegin
    exact hlast c hc ((hchanges c (hmem c hc)).eq_of_begin hself hbegin)
  · intro hbegin
    exact hlast c hc (hself.eq_of_begin (hchanges c (hmem c hc)) hbegin).symm

/-- A member without a value that changes at most remove has none in the
preview. -/
theorem preview_bare
    (hchanges : ∀ change ∈ changes, ChangesMember P document change)
    {node : Node Json} (hnode : NodeAt P document node) (key : JsString)
    (hremoved : ∀ change ∈ changes, change.path = node.path ++ [.key key] →
      change.after? = none)
    (hbare : ∀ value, document.get? (node.path ++ [.key key]) = some value →
      presentValues value = []) {value : Json}
    (hvalue : (createPreview document changes).get?
      (node.path ++ [.key key]) = some value) : presentValues value = [] := by
  by_cases hchanged : ∃ change ∈ changes,
      change.path = node.path ++ [.key key]
  · obtain ⟨first, change, second, hsplit, hpath, hlast⟩ :=
      ListSplit.exists_last hchanged
    have hfinal := preview_changed hchanges first second hsplit
      fun c hc heq => hlast c hc (heq.trans hpath)
    rw [hpath, hvalue, hremoved change (by simp [hsplit]) hpath] at hfinal
    cases hfinal
  · have hother : ∀ change ∈ changes,
        change.path ≠ node.path ++ [.key key] :=
      fun change hchange heq => hchanged ⟨change, hchange, heq⟩
    cases hget : document.get? (node.path ++ [.key key]) with
    | none =>
        obtain ⟨ms, hobject⟩ := hnode.get?
        have hlabel := createPreview_label
          (p := node.path ++ [.key key]) (fun change hchange hbegin => by
            rcases prefix_concat hbegin with heq | hbelow
            · exact hother change hchange heq
            · exact (hchanges change hchange).not_beyond hobject hbelow)
          document
        rw [hvalue, hget] at hlabel
        cases hlabel
    | some before =>
        have hnone := hbare before hget
        have hkept := preview_member hchanges hnode hget
          (fun rest ms => get?_of_presentValues_nil hnone) hother
        rw [hvalue] at hkept
        exact Option.some.inj hkept ▸ hnone

end Frame

/-! ## The changes of a preparation -/

/-- The omission of an empty list or of an absent identifier. -/
def IsOmission (document : Json) (change : Change) : Prop :=
  change.after? = none ∧ ∃ parent key context before,
    change.path = parent ++ [.key key] ∧
    contextAt P document [] none parent = some context ∧
    document.get? change.path = some before ∧
    Omittable (resolveProperty P key context).name before

/-- The assignment of a server-owned value to a key of its property. -/
def IsAssignment (document : Json) (fields : List ServerOwnedField)
    (change : Change) : Prop :=
  ∃ field ∈ fields, ∃ key context,
    change.path = field.parent ++ [.key key] ∧
    contextAt P document [] none field.parent = some context ∧
    (resolveProperty P key context).name = ownedProperty P document field ∧
    change.after? = some (.str field.value)

section Prepared

variable {P} {document : Json} {root : Node Json}

/-- An omission that the walk proposes is about a member without a value. -/
theorem Accepted.omission (hdistinct : document.Distinct)
    (haccepted : Accepted P document root) {change : Change}
    (hchange : change ∈ (checkDocumentValue P Json.tree document).changes) :
    ChangesMember P document change ∧ change.after? = none ∧
      ∃ node key before, NodeAt P document node ∧
        change.path = node.path ++ [.key key] ∧
        document.get? change.path = some before ∧
        Omittable (resolveProperty P key node.context).name before := by
  obtain ⟨node, hreach, field, hfield, hevent⟩ :=
    (haccepted.changes change).mp hchange
  have hnode := haccepted.nodeAt hdistinct hreach
  obtain ⟨⟨reason, message, rfl, -⟩, hname, homittable⟩ :=
    check_change P hevent
  have hmem := (mem_checkedFields.mp hfield).1
  rw [hnode.fields, mem_readFields] at hmem
  obtain ⟨⟨key, member⟩, hmember, -, rfl⟩ := hmem
  obtain ⟨ms, hget, hvalues⟩ := hnode.values
  have hlookup : document.get? (node.path ++ [.key key]) = some member := by
    rw [Json.get?_concat, hget]
    rw [hvalues, mem_ownProperties] at hmember
    exact AssocList.lookup_eq_some_of_mem
      (Json.distinct_obj.mp (hdistinct.get? hget)).1 hmember
  simp only [resolveProperty_source] at hname homittable ⊢
  have hpath : (NormalizationChange.remove reason (node.path ++ [.key key])
      member message : Change).path = node.path ++ [.key key] := rfl
  refine ⟨⟨⟨node, key, hnode, rfl, hname⟩, fun value hvalue => ?_⟩, rfl,
    node, key, member, hnode, rfl, hlookup, homittable⟩
  rw [hpath, hlookup] at hvalue
  exact Option.some.inj hvalue ▸ presentValues_of_omittable homittable

/-- What the document holds at a key of a checked field. -/
theorem ChecksField.nodeAt (hdistinct : document.Distinct)
    (haccepted : Accepted P document root) {checked : CheckedField}
    (h : ChecksField P (checkDocumentValue P Json.tree document).visited
      checked) : NodeAt P document checked.target :=
  haccepted.nodeAt hdistinct ((haccepted.visited _).mp h.target)

theorem mem_target {node : Node Json} (hdistinct : document.Distinct)
    (hnode : NodeAt P document node) {key : JsString} {value : Json} :
    document.get? (node.path ++ [.key key]) = some value ↔
      (key, value) ∈ node.values := by
  obtain ⟨ms, hget, hvalues⟩ := hnode.values
  rw [hvalues, mem_ownProperties, Json.get?_concat, hget]
  exact ⟨fun h => AssocList.mem_of_lookup_eq_some h,
    fun h => AssocList.lookup_eq_some_of_mem
      (Json.distinct_obj.mp (hdistinct.get? hget)).1 h⟩

/-- An assignment is about a member without a value. -/
theorem Assigns.changesMember (hdistinct : document.Distinct)
    {checked : CheckedField} (hnode : NodeAt P document checked.target)
    (hparent : checked.target.path = checked.field.parent)
    (hsupplied : suppliedOf P checked = []) {change : Change}
    (h : Assigns P checked change) : ChangesMember P document change := by
  obtain ⟨key, hpath, hname⟩ := h.key
  refine ⟨⟨checked.target, key, hnode, by rw [hpath, hparent],
    by simp [hname]⟩, fun value hvalue => ?_⟩
  rw [hpath, ← hparent, mem_target hdistinct hnode] at hvalue
  have hnone : semanticValues P checked.target.values checked.target.context
      checked.property = [] := by
    rw [← suppliedOf_fst, hsupplied, List.map_nil]
  exact (semanticValues_eq_nil P).mp hnone _ hvalue hname

/-- Proposals without a conflict, for a document with an accepted walk. -/
structure Proposal (P : Platform) (document : Json) (root : Node Json)
    (checked : List CheckedField) (kept assigned : List Change) : Prop where
  distinct : document.Distinct
  accepted : Accepted P document root
  checks : ∀ c ∈ checked,
    ChecksField P (checkDocumentValue P Json.tree document).visited c
  nodup : (checked.map CheckedField.position).Nodup
  kept : ∀ change ∈ kept,
    change ∈ (checkDocumentValue P Json.tree document).changes
  assigned : List.Forall₂ (Assigns P)
    (checked.filter fun c => (suppliedOf P c).isEmpty) assigned
  agree : ∀ c ∈ checked, suppliedOf P c ≠ [] →
    (suppliedOf P c).map Prod.fst = [.str c.field.value]

namespace Proposal

variable {checked : List CheckedField} {kept assigned : List Change}

theorem nodeAt (h : Proposal P document root checked kept assigned)
    {c : CheckedField} (hc : c ∈ checked) : NodeAt P document c.target :=
  (h.checks c hc).nodeAt h.distinct h.accepted

theorem exists_checked (h : Proposal P document root checked kept assigned)
    {change : Change} (hchange : change ∈ assigned) :
    ∃ c ∈ checked, suppliedOf P c = [] ∧ Assigns P c change := by
  obtain ⟨c, hc, hassigns⟩ := ListSplit.exists_of_mem_right h.assigned hchange
  obtain ⟨hmem, hempty⟩ := List.mem_filter.mp hc
  exact ⟨c, hmem, List.isEmpty_iff.mp hempty, hassigns⟩

theorem changesMember (h : Proposal P document root checked kept assigned) :
    ∀ change ∈ kept ++ assigned, ChangesMember P document change := by
  intro change hchange
  rcases List.mem_append.mp hchange with hchange | hchange
  · exact (h.accepted.omission h.distinct (h.kept change hchange)).1
  · obtain ⟨c, hc, hsupplied, hassigns⟩ := h.exists_checked hchange
    exact hassigns.changesMember h.distinct (h.nodeAt hc) (h.checks c hc).parent
      hsupplied

theorem after_distinct
    (h : Proposal P document root checked kept assigned) :
    ∀ change ∈ kept ++ assigned, ∀ after, change.after? = some after → after.Distinct := by
  intro change hchange after hafter
  rcases List.mem_append.mp hchange with hchange | hchange
  · rw [(h.accepted.omission h.distinct (h.kept change hchange)).2.1] at hafter
    cases hafter
  · obtain ⟨c, -, -, hassigns⟩ := h.exists_checked hchange
    rw [hassigns.after] at hafter
    cases hafter
    trivial

/-- Two fields with keys at one path are the same field. -/
theorem position_eq
    (h : Proposal P document root checked kept assigned)
    {c d : CheckedField} (hc : c ∈ checked) (hd : d ∈ checked)
    {key : JsString} (hname : (resolveProperty P key c.target.context).name =
      some c.property) {change : Change} (hassigns : Assigns P d change)
    (hpath : change.path = c.target.path ++ [.key key]) :
    c.position = d.position := by
  obtain ⟨other, hother, hotherName⟩ := hassigns.key
  rw [hother, ← (h.checks d hd).parent] at hpath
  obtain ⟨hparent, hkey⟩ := List.append_inj' hpath rfl
  have hkey' : other = key := by simpa using hkey
  have htarget : d.target = c.target :=
    (h.nodeAt hd).unique (h.nodeAt hc) hparent
  rw [htarget, hkey', hname] at hotherName
  rw [CheckedField.position, CheckedField.position,
    ← (h.checks c hc).parent, ← (h.checks d hd).parent, htarget,
    Option.some.inj hotherName]

/-- A field that the document agrees on or leaves open, apart from the key
that carries its value, has no value in the preview. -/
theorem owns_of_key
    (h : Proposal P document root checked kept assigned)
    {c : CheckedField} (hc : c ∈ checked) (key : JsString) (value : Json)
    (hname : (resolveProperty P key c.target.context).name = some c.property)
    (hvalue : (createPreview document (kept ++ assigned)).get?
      (c.target.path ++ [.key key]) = some value)
    (hpresent : presentValues value = [.str c.field.value])
    (hothers : ∀ entry ∈ c.target.values, entry.1 ≠ key →
      (resolveProperty P entry.1 c.target.context).name = some c.property →
      presentValues entry.2 = [])
    (hunassigned : ∀ change ∈ assigned, ∀ other, other ≠ key →
      (resolveProperty P other c.target.context).name = some c.property →
      change.path ≠ c.target.path ++ [.key other]) :
    Owns P (createPreview document (kept ++ assigned)) c.field := by
  have hchecks := h.checks c hc
  have hnode := h.nodeAt hc
  obtain ⟨ms, hms, hnodup, hcontext⟩ :=
    preview_node h.distinct h.changesMember hnode h.after_distinct
  have hlookup : ∀ k, (createPreview document (kept ++ assigned)).get?
      (c.target.path ++ [.key k]) = ms.lookup k := by
    intro k
    rw [Json.get?_concat, hms]
    rfl
  refine ⟨c.property, ?_, ?_⟩
  · rw [ownedProperty, ← hchecks.parent, hcontext]
    exact hchecks.property
  · simp only [propertyAt, ← hchecks.parent, hms, hcontext]
    refine congrArg some ((semanticValues_eq_singleton P hnodup).mpr
      ⟨key, value, ?_, hname, hpresent, ?_⟩)
    · rw [hlookup] at hvalue
      exact AssocList.mem_of_lookup_eq_some hvalue
    · intro entry hentry hne hentryName
      refine preview_bare h.changesMember hnode entry.1 ?_ ?_
        ((hlookup entry.1).trans
          (AssocList.lookup_eq_some_of_mem hnodup hentry))
      · intro change hchange hpath
        rcases List.mem_append.mp hchange with hchange | hchange
        · exact (h.accepted.omission h.distinct (h.kept change hchange)).2.1
        · exact absurd hpath
            (hunassigned change hchange entry.1 hne hentryName)
      · intro before hbefore
        exact hothers _ ((mem_target h.distinct hnode).mp hbefore) hne
          hentryName

/-- The preview carries every server-owned value. -/
theorem owns (h : Proposal P document root checked kept assigned)
    {c : CheckedField} (hc : c ∈ checked) :
    Owns P (createPreview document (kept ++ assigned)) c.field := by
  have hnode := h.nodeAt hc
  by_cases hsupplied : suppliedOf P c = []
  · -- The field is assigned; no other assignment is at one of its keys.
    have hbare : semanticValues P c.target.values c.target.context
        c.property = [] := by
      rw [← suppliedOf_fst, hsupplied, List.map_nil]
    obtain ⟨l₁, l₂, m₁, change, m₂, hl, hm, hassigns, h₁, h₂⟩ :=
      ListSplit.forall₂_split h.assigned
        (List.mem_filter.mpr ⟨hc, by simp [hsupplied]⟩)
    have hsublist : ((l₁ ++ c :: l₂).map CheckedField.position).Nodup := by
      rw [← hl]
      exact (List.filter_sublist.map _).nodup h.nodup
    have hothers : ∀ other, other ∈ m₁ ∨ other ∈ m₂ → ∀ key,
        (resolveProperty P key c.target.context).name = some c.property →
        other.path ≠ c.target.path ++ [.key key] := by
      intro other hother key hname hpath
      have hpartner : ∃ d, (d ∈ l₁ ∨ d ∈ l₂) ∧ Assigns P d other := by
        rcases hother with hother | hother
        · obtain ⟨d, hd, hda⟩ := ListSplit.exists_of_mem_right h₁ hother
          exact ⟨d, .inl hd, hda⟩
        · obtain ⟨d, hd, hda⟩ := ListSplit.exists_of_mem_right h₂ hother
          exact ⟨d, .inr hd, hda⟩
      obtain ⟨d, hd, hda⟩ := hpartner
      have hdmem : d ∈ l₁ ++ c :: l₂ := by
        rcases hd with hd | hd <;> simp [hd]
      have hdchecked : d ∈ checked := by
        rw [← hl] at hdmem
        exact (List.mem_filter.mp hdmem).1
      have hposition := h.position_eq hc hdchecked hname hda hpath
      rw [List.map_append, List.map_cons, List.nodup_append,
        List.nodup_cons] at hsublist
      obtain ⟨-, ⟨hnotRight, -⟩, hnotLeft⟩ := hsublist
      rcases hd with hd | hd
      · exact hnotLeft _ (List.mem_map_of_mem hd) _ List.mem_cons_self
          hposition.symm
      · exact hnotRight (hposition ▸ List.mem_map_of_mem hd)
    obtain ⟨key, hpath, hname⟩ := hassigns.key
    rw [← (h.checks c hc).parent] at hpath
    refine h.owns_of_key hc key (.str c.field.value) hname ?_ rfl ?_ ?_
    · rw [← hpath, ← hassigns.after]
      refine preview_changed h.changesMember (kept ++ m₁) m₂
        (by rw [hm]; simp) fun d hd heq => ?_
      exact hothers d (.inr hd) key hname (heq.trans hpath)
    · intro entry hentry _ hentryName
      exact (semanticValues_eq_nil P).mp hbare entry hentry hentryName
    · intro other hother k hne hk hkpath
      rw [hm, List.mem_append, List.mem_cons] at hother
      rcases hother with hother | rfl | hother
      · exact hothers other (.inl hother) k hk hkpath
      · rw [hpath] at hkpath
        obtain ⟨-, hkeys⟩ := List.append_inj' hkpath rfl
        exact hne (by simpa using hkeys.symm)
      · exact hothers other (.inr hother) k hk hkpath
  · -- The document supplies the value under one key, which does not change.
    have hagree := h.agree c hc hsupplied
    rw [suppliedOf_fst, semanticValues_eq_singleton P
      (hnode.nodup h.distinct)] at hagree
    obtain ⟨key, value, hmem, hname, hpresent, hothers⟩ := hagree
    have hvalue := (mem_target h.distinct hnode).mpr hmem
    have hunassigned : ∀ change ∈ assigned, ∀ k,
        (resolveProperty P k c.target.context).name = some c.property →
        change.path ≠ c.target.path ++ [.key k] := by
      intro change hchange k hk hpath
      obtain ⟨d, hd, hempty, hda⟩ := h.exists_checked hchange
      have hposition := h.position_eq hc hd hk hda hpath
      have heq : c = d := List.inj_on_of_nodup_map h.nodup hc hd hposition
      exact hsupplied (heq ▸ hempty)
    have hunchanged : ∀ change ∈ kept ++ assigned,
        change.path ≠ c.target.path ++ [.key key] := by
      intro change hchange hpath
      have hbare := (h.changesMember change hchange).bare value
        (by rw [hpath]; exact hvalue)
      rw [hpresent] at hbare
      cases hbare
    refine h.owns_of_key hc _ _ hname
      (preview_member h.changesMember hnode hvalue
        (get?_of_presentValues_text hpresent) hunchanged) hpresent hothers
      fun change hchange k _ hk => hunassigned change hchange k hk

/-- A reported change is the assignment of a server-owned value, or an
omission; a key that is omitted is absent in the preview or assigned. -/
theorem change_cases (h : Proposal P document root checked kept assigned)
    {fields : List ServerOwnedField}
    (hfields : checked.map CheckedField.field = fields) {change : Change}
    (hchange : change ∈ kept ++ assigned) :
    IsAssignment P document fields change ∨
    (IsOmission P document change ∧
      ((createPreview document (kept ++ assigned)).get? change.path = none ∨
        ∃ other ∈ kept ++ assigned, other.path = change.path ∧
          IsAssignment P document fields other)) := by
  have hassignment : ∀ other ∈ assigned,
      IsAssignment P document fields other := by
    intro other hother
    obtain ⟨c, hc, -, hassigns⟩ := h.exists_checked hother
    obtain ⟨key, hpath, hname⟩ := hassigns.key
    have hcontext := (h.nodeAt hc).context
    have hproperty := (h.checks c hc).property
    rw [(h.checks c hc).parent] at hcontext
    refine ⟨c.field, by rw [← hfields]; exact List.mem_map_of_mem hc, key,
      c.target.context, hpath, hcontext, ?_, hassigns.after⟩
    rw [hname, ownedProperty, hcontext]
    exact hproperty.symm
  rcases List.mem_append.mp hchange with hkept | hassigned
  · obtain ⟨-, hafter, node, key, before, hnode, hpath, hbefore, homittable⟩ :=
      h.accepted.omission h.distinct (h.kept change hkept)
    refine .inr ⟨⟨hafter, node.path, key, node.context, before, hpath,
      hnode.context, hbefore, homittable⟩, ?_⟩
    obtain ⟨first, last, second, hsplit, hlast, hafterLast⟩ :=
      ListSplit.exists_last (p := fun c : Change => c.path = change.path)
        ⟨change, hchange, rfl⟩
    have hmem : last ∈ kept ++ assigned := by simp [hsplit]
    have hfinal := preview_changed h.changesMember _ _ hsplit
      fun c hc heq => hafterLast c hc (heq.trans hlast)
    rw [hlast] at hfinal
    rcases List.mem_append.mp hmem with hmem | hmem
    · refine .inl ?_
      rw [hfinal, (h.accepted.omission h.distinct (h.kept last hmem)).2.1]
    · exact .inr ⟨last, List.mem_append_right _ hmem, hlast,
        hassignment last hmem⟩
  · exact .inl (hassignment change hassigned)

end Proposal

/-- The proposals of a preparation without an error. -/
theorem Prepared.proposal (hdistinct : document.Distinct)
    {fields : List ServerOwnedField} {checked : List CheckedField} {result : ValidationResult}
    (h : Prepared P document checked result)
    (hchecked : checkServerOwnedFields P document
      (checkDocumentValue P Json.tree document).visited
      (checkDocumentValue P Json.tree document).unavailable
      ((checkDocumentValue P Json.tree document).reporter.diagnostics.any
        fun d => d.reason == .diagnosticLimitReached) fields [] = .ok checked) :
    checked.map CheckedField.field = fields ∧ ∃ root kept assigned,
      Proposal P document root checked kept assigned ∧
      (proposeServerFields P checked
        (checkDocumentValue P Json.tree document).changes).2 =
          kept ++ assigned := by
  obtain ⟨root, haccepted⟩ := exists_accepted P h.walk
  have hquiet : ((checkDocumentValue P Json.tree
      document).reporter.diagnostics.any fun d =>
        d.reason == .diagnosticLimitReached) = false := by
    have hnone := (checkDocumentValue_sound P document).accepts_iff.mp h.walk
    rw [hasError, List.any_eq_false] at hnone
    rw [List.any_eq_false]
    intro d hd hreason
    refine hnone d hd ?_
    rw [isError_congr (d := d) (e := limitDiagnostic) (beq_iff_eq.mp hreason)]
    rfl
  rw [haccepted.unavailable, hquiet] at hchecked
  obtain ⟨hmap, hchecks, hnodup⟩ := checkServerOwnedFields_eq_ok P hchecked
  have hproposals := h.proposals
  rw [← List.append_nil (checkDocumentValue P Json.tree document).changes]
    at hproposals
  obtain ⟨kept, assigned, hresult, hsub, hall, hagree⟩ :=
    proposeServerFields_proposed P (fun c hc => (hchecks c hc).1.property)
      [] (by simp) hproposals
  rw [List.append_nil, List.nil_append] at hresult
  exact ⟨hmap, root, kept, assigned,
    ⟨hdistinct, haccepted, fun c hc => (hchecks c hc).1, hnodup,
      fun change hchange => hsub.subset hchange, hall, hagree⟩, hresult⟩

/-- What the document holds under the property of a checked field. -/
theorem Proposal.propertyAt {checked : List CheckedField}
    {kept assigned : List Change}
    (h : Proposal P document root checked kept assigned) {c : CheckedField}
    (hc : c ∈ checked) :
    ownedProperty P document c.field = some c.property ∧
      ∃ values, propertyAt P document c.field.parent c.property =
          some values ∧
        values.Perm ((suppliedOf P c).map Prod.fst) := by
  have hnode := h.nodeAt hc
  have hchecks := h.checks c hc
  obtain ⟨ms, hget, hvalues⟩ := hnode.values
  rw [hchecks.parent] at hget
  have hcontext := hnode.context
  rw [hchecks.parent] at hcontext
  refine ⟨?_, semanticValues P ms c.target.context c.property, ?_, ?_⟩
  · rw [ownedProperty, hcontext]
    exact hchecks.property
  · simp only [Document.propertyAt, hget, hcontext]
  · rw [suppliedOf_fst, hvalues]
    exact semanticValues_perm P (ownProperties_perm ms).symm _ _

end Prepared

/-! ## Preparation owns its fields -/

/-- Preparation that does not throw: a preview carries every server-owned
value and otherwise differs from the document only by the omissions it
reports; without a preview and without an error the document already carries
these values; and a document that supplies anything else is refused. -/
theorem prepareDocument_owns (document : JsonDocument)
    (options : DocumentPreparationOptions) (result : ValidationResult)
    (h : prepareDocument P document.value options = .ok result) :
    (∀ preview, result.normalizedDocument = some preview →
      (∀ field ∈ options.serverOwnedFields, Owns P preview field) ∧
      (∀ path, (∀ change ∈ result.changes, ¬ change.path <+: path) →
        (preview.get? path).map Json.label =
          (document.value.get? path).map Json.label) ∧
      ∀ change ∈ result.changes,
        IsAssignment P document.value options.serverOwnedFields change ∨
        (IsOmission P document.value change ∧
          (preview.get? change.path = none ∨
            ∃ other ∈ result.changes, other.path = change.path ∧
              IsAssignment P document.value options.serverOwnedFields
                other))) ∧
    (result.normalizedDocument = none → hasError result.diagnostics = false →
      ∀ field ∈ options.serverOwnedFields, Owns P document.value field) ∧
    ∀ field ∈ options.serverOwnedFields, ∀ property values,
      ownedProperty P document.value field = some property →
      propertyAt P document.value field.parent property = some values →
      values ≠ [] → values ≠ [.str field.value] →
      hasError result.diagnostics = true ∧
        result.normalizedDocument = none := by
  obtain ⟨-, checked, hchecked, rfl⟩ := prepareDocument_eq_ok P h
  have hcases := prepareChecked_cases P document.value options.authority checked
  dsimp only at hcases
  generalize prepareChecked P document.value
    (checkDocumentValue P Json.tree document.value) options.authority checked =
      result at hcases ⊢
  rcases hcases with ⟨herror, hnone⟩ | ⟨hquiet, -, hprepared⟩
  · refine ⟨fun preview hpreview => ?_, fun _ hquiet => ?_,
      fun _ _ _ _ _ _ _ _ => ⟨herror, hnone⟩⟩
    · rw [hnone] at hpreview
      cases hpreview
    · rw [herror] at hquiet
      cases hquiet
  · obtain ⟨hfields, root, kept, assigned, hproposal, hchanges⟩ :=
      hprepared.proposal document.distinct hchecked
    have hfield : ∀ field ∈ options.serverOwnedFields,
        ∃ c ∈ checked, c.field = field := by
      intro field hmem
      rw [← hfields] at hmem
      exact List.mem_map.mp hmem
    have hsupplied : ∀ field ∈ options.serverOwnedFields,
        ∀ property values,
        ownedProperty P document.value field = some property →
        propertyAt P document.value field.parent property = some values →
        values = [] ∨ values = [.str field.value] := by
      intro field hmem property values hproperty hvalues
      obtain ⟨c, hc, rfl⟩ := hfield field hmem
      obtain ⟨hown, others, hothers, hperm⟩ := hproposal.propertyAt hc
      rw [hown] at hproperty
      cases hproperty
      rw [hothers] at hvalues
      cases hvalues
      by_cases hempty : suppliedOf P c = []
      · rw [hempty, List.map_nil] at hperm
        exact .inl hperm.eq_nil
      · rw [hproposal.agree c hc hempty] at hperm
        exact .inr (List.perm_singleton.mp hperm)
    refine ⟨fun preview hpreview => ?_, fun hnone _ => ?_,
      fun field hmem property values hproperty hvalues hne hne' => ?_⟩
    · rcases hprepared.outcome with ⟨-, hnone⟩ | ⟨hresult, hdocument⟩
      · rw [hnone] at hpreview
        cases hpreview
      · rw [hdocument] at hpreview
        obtain rfl := Option.some.inj hpreview
        rw [hresult, hchanges]
        refine ⟨fun field hmem => ?_, fun path hpath => ?_, fun change hchange =>
          ?_⟩
        · obtain ⟨c, hc, rfl⟩ := hfield field hmem
          exact hproposal.owns hc
        · exact createPreview_label hpath document.value
        · exact hproposal.change_cases hfields hchange
    · rcases hprepared.outcome with ⟨hempty, -⟩ | ⟨-, hdocument⟩
      · intro field hmem
        obtain ⟨c, hc, rfl⟩ := hfield field hmem
        rw [hchanges] at hempty
        have howns := hproposal.owns hc
        rw [hempty] at howns
        exact howns
      · rw [hnone] at hdocument
        cases hdocument
    · rcases hsupplied field hmem property values hproperty hvalues with
        hnil | hone
      · exact absurd hnil hne
      · exact absurd hone hne'

end Platform

/-! ## A note with open fields -/

/-- A note that leaves its identifier and author open, in two ways. -/
def openNote : JsonDocument where
  value := .obj [(js "type", .str (js "Note")),
    (js "content", .str (js "hi")), (js "id", .null),
    (js "attributedTo", .arr []), (js "to", .arr [])]
  distinct := by decide

def openNoteOptions : DocumentPreparationOptions where
  authority := [⟨true, []⟩]
  serverOwnedFields :=
    [⟨[.key (js "id")], js "https://h.example/notes/1"⟩,
      ⟨[.key (js "attributedTo")], js "https://h.example/actors/1"⟩,
      ⟨[.key (js "published")], js "2026-01-01T00:00:00Z"⟩]

theorem prepareDocument_owns_openNote :
    ∃ result preview,
      prepareDocument reducedPlatform openNote.value openNoteOptions =
        .ok result ∧
      result.normalizedDocument = some preview ∧
      ∀ field ∈ openNoteOptions.serverOwnedFields,
        Owns reducedPlatform preview field := by
  have hsome : ((prepareDocument reducedPlatform openNote.value
      openNoteOptions).toOption.bind
        ValidationResult.normalizedDocument).isSome = true := by
    decide +kernel
  obtain ⟨preview, hpreview⟩ := Option.isSome_iff_exists.mp hsome
  cases hresult : prepareDocument reducedPlatform openNote.value
      openNoteOptions with
  | error e =>
      rw [hresult] at hpreview
      cases hpreview
  | ok result =>
      rw [hresult] at hpreview
      exact ⟨result, preview, rfl, hpreview,
        ((prepareDocument_owns reducedPlatform openNote openNoteOptions result
          hresult).1 preview hpreview).1⟩

end DrFed.Document
