import DrFed.Document.Admitted
import DrFed.Document.Natural

/-!
# Walks over one value in two representations

A map between representations that the walk reads alike takes the walk over a
value to the walk over its image.  Comparing objects by identity makes no
difference where the walk reports no error, and where no value contains itself.
-/

namespace DrFed.Document

/-! ## Values without cycles -/

section Fresh

variable {κ : Type} (G : Values κ)

/-- Nothing below a value is one of the values around it or contains
itself. -/
structure Fresh (outer : List κ) (value : κ) : Prop where
  outer : ∀ other ∈ outer, ∀ inner, G.Leads value inner →
    G.same inner other = false
  below : ∀ inner other, G.Leads value inner →
    Relation.TransGen G.Holds inner other → G.same other inner = false

variable {G} {outer : List κ} {value child : κ}

theorem Fresh.not_any (h : Fresh G outer value) :
    ¬ outer.any (G.same value) = true := by
  rw [List.any_eq_true]
  rintro ⟨other, hother, hsame⟩
  rw [h.outer other hother value .refl] at hsame
  cases hsame

theorem Fresh.held (h : Fresh G outer value)
    (hheld : Relation.TransGen G.Holds value child) :
    Fresh G (value :: outer) child := by
  have hleads := hheld.to_reflTransGen
  constructor
  · intro other hother inner hinner
    rcases List.mem_cons.mp hother with rfl | hother
    · exact h.below _ inner .refl (hheld.trans_left hinner)
    · exact h.outer other hother inner (hleads.trans hinner)
  · exact fun inner other hinner hbelow =>
      h.below inner other (hleads.trans hinner) hbelow

theorem fresh_of_never (h : ∀ a b, G.same a b = false) :
    Fresh G outer value :=
  ⟨fun _ _ _ _ => h _ _, fun _ _ _ _ => h _ _⟩

/-- A spelled value is a tree. -/
theorem fresh_of_spells (hlawful : G.Lawful) {json : Json}
    (hspells : json.Spells G value) : Fresh G [] value := by
  refine ⟨fun _ h => absurd h List.not_mem_nil, ?_⟩
  intro inner other hleads hbelow
  by_contra hsame
  obtain rfl := hlawful.eq _ _ (eq_true_of_ne_false hsame)
  obtain ⟨held, hheld, hback⟩ := Relation.TransGen.head'_iff.mp hbelow
  exact hspells.acyclic hleads hheld hback

theorem holds_of_visitList {entries : List (Option (Slot κ))}
    {named : List (JsString × Slot κ)} {symbols : ℕ}
    (hlook : G.look value = .array entries named symbols)
    {path p : FieldPath} {entry : κ}
    (hentry : .entry entry p ∈ visitList entries named symbols path) :
    G.Holds value entry := by
  obtain ⟨i, -, hchild⟩ := child_of_visitList hlook hentry
  exact Values.holds_of_child hchild

theorem holds_of_readDocument {path : FieldPath}
    {values : List (JsString × κ)}
    (hread : readDocument G value path = .ok values) {entry : JsString × κ}
    (hentry : entry ∈ values) : G.Holds value entry.2 := by
  obtain ⟨members, hlook, hperm⟩ := readDocument_members hread
  refine .member true members 0 hlook entry.1 entry.2 true ?_
  exact hperm.mem_iff.mpr (List.mem_map.mpr ⟨entry, hentry, rfl⟩)

variable {P : Platform} {path p : FieldPath} {inherited : Option Terms}
  {expected : Option (List VocabularyType)} {findings : List Diagnostic}
  {node : Node κ} {field : Field κ} {entry : κ}

theorem holds_of_extension
    (hread : readNode P G value path inherited expected =
      (findings, some node)) (hfield : field ∈ node.checkedFields)
    (hfollow : (node.check P G field).2 = .extension entry p) :
    G.Holds value entry := by
  obtain ⟨-, hdocument, hmem⟩ := mem_values_of_checkedFields hread hfield
  obtain ⟨-, rfl, rfl⟩ := check_extension hfollow
  exact holds_of_readDocument hdocument hmem

theorem holds_of_references
    (hread : readNode P G value path inherited expected =
      (findings, some node)) (hfield : field ∈ node.checkedFields)
    {visits : List (Visit κ)} {key : JsString}
    {range : Option (List VocabularyType)}
    (hfollow : (node.check P G field).2 = .references visits key range)
    (hentry : .entry entry p ∈ visits) :
    Relation.TransGen G.Holds value entry := by
  obtain ⟨-, hdocument, hmem⟩ := mem_values_of_checkedFields hread hfield
  have hheld := holds_of_readDocument hdocument hmem
  obtain ⟨-, hvisits⟩ := check_scheduled hfollow
  rw [hvisits] at hentry
  rcases mem_scheduledVisits hentry with ⟨rfl, -, -⟩ |
    ⟨entries, named, symbols, hlook, hvisit⟩
  · exact .single hheld
  · exact .tail (.single hheld) (holds_of_visitList hlook hvisit)

end Fresh

section Walks

variable {ι κ : Type} (f : ι → κ)

@[simp] theorem Diagnostic.under_nil (d : Diagnostic) : d.under [] = d := rfl

@[simp] theorem map_under_nil (findings : List Diagnostic) :
    findings.map (Diagnostic.under []) = findings :=
  List.map_id findings

/-- The image of the items of a walk. -/
abbrev carryItems (items : List (Item ι)) : List (Item κ) :=
  items.map (List.map (Event.moved f []))

/-- The image of a walk. -/
def carryWalk (walk : Item ι × List (Item ι)) : Item κ × List (Item κ) :=
  (walk.1.map (Event.moved f []), carryItems f walk.2)

/-- The image of a walk over an extension value. -/
def carryExtension (result : List Diagnostic × List (Item ι)) :
    List Diagnostic × List (Item κ) :=
  (result.1, carryItems f result.2)

variable {f} {H : Values ι} {G : Values κ}

theorem flatMap_congr_map {α β γ δ : Type} {entries : List α} {g : α → β}
    {left : β → List δ} {right : α → List γ} {h : γ → δ}
    (hsame : ∀ entry ∈ entries, left (g entry) = (right entry).map h) :
    (entries.map g).flatMap left = (entries.flatMap right).map h := by
  rw [List.flatMap_map, List.map_flatMap]
  exact List.flatMap_congr hsame

theorem carryItems_extension {result : List Diagnostic × List (Item ι)} :
    (reports (carryExtension f result).1 : Item κ) ::
        (carryExtension f result).2 =
      carryItems f (reports result.1 :: result.2) := by
  simp [carryExtension, carryItems]

section Extensions

variable (hreads : H.Reads G f) (hsame : ∀ a b, H.same a b = false)

include hreads hsame in
theorem checkExtension_carried (fuel : ℕ) {inner : List ι} {outer : List κ}
    {value : ι} {path : FieldPath} {keywords : Bool}
    (hfresh : QuietExtension
        (checkExtension G fuel outer (f value) path keywords) ∨
      Fresh G outer (f value)) :
    checkExtension G fuel outer (f value) path keywords =
      carryExtension f (checkExtension H fuel inner value path keywords) := by
  induction fuel generalizing inner outer value path keywords with
  | zero => rfl
  | succ fuel ih =>
      have hinner : ¬ inner.any (H.same value) = true := by
        simp [hsame]
      have houter : isContainer G (f value) = true →
          ¬ outer.any (G.same (f value)) = true := by
        intro hcontainer
        rcases hfresh with hquiet | hnone
        · obtain ⟨-, n, -, hany, -⟩ := hquiet.inv
          exact hany hcontainer
        · exact hnone.not_any
      rw [checkExtension, checkExtension]
      by_cases hdeep : path.length > maximumPathDepth
      · rw [if_pos hdeep, if_pos hdeep]
        rfl
      · rw [if_neg hdeep, if_neg hdeep]
        have hlook := hreads value
        cases hshape : H.look value with
        | array entries named symbols =>
            rw [hshape] at hlook
            have hcontainer : isContainer G (f value) = true := by
              simp [isContainer, hlook, Shape.map]
            simp only [hlook, Shape.map, if_neg (houter hcontainer),
              if_neg hinner]
            have hvisits := visitList_moved (f := f) [] entries named symbols path
            rw [List.nil_append] at hvisits
            rw [hvisits, findings_moved, map_under_nil]
            refine Prod.ext rfl (flatMap_congr_map fun visit hvisit => ?_)
            cases visit with
            | finding d => rfl
            | entry entry p =>
                have hmoved : .entry (f entry) p ∈ visitList
                    (entries.map (Option.map (Slot.map f)))
                    (named.map fun entry => (entry.1, entry.2.map f))
                    symbols path :=
                  hvisits ▸ List.mem_map_of_mem hvisit
                have hentry : checkExtension G fuel (f value :: outer)
                    (f entry) p keywords = carryExtension f
                      (checkExtension H fuel (value :: inner) entry p
                        keywords) := by
                  refine ih (hfresh.imp (fun hquiet => ?_) fun hnone =>
                    hnone.held (.single (holds_of_visitList hlook hmoved)))
                  obtain ⟨-, n, hn, -, harray, -⟩ := hquiet.inv
                  obtain rfl := Nat.succ.inj hn
                  exact (harray _ _ _ hlook).2 _ _ hmoved
                exact (congrArg (fun result => (reports result.1 : Item κ) ::
                  result.2) hentry).trans carryItems_extension
        | object plain members symbols =>
            rw [hshape] at hlook
            have hcontainer : isContainer G (f value) = true := by
              simp [isContainer, hlook, Shape.map]
            simp only [hlook, Shape.map, if_neg (houter hcontainer),
              if_neg hinner]
            have hread := readDocument_moved hreads [] value path
            rw [List.nil_append] at hread
            cases hdocument : readDocument H value path with
            | error d =>
                rw [hread, hdocument]
                rfl
            | ok values =>
                rw [hdocument] at hread
                have hkeywords := checkExtensionKeywords_moved hreads [] values
                  path
                rw [List.nil_append, map_under_nil] at hkeywords
                simp only [hread, moveResult, hkeywords]
                refine Prod.ext rfl
                  (flatMap_congr_map fun entry hentry => ?_)
                have hmember : checkExtension G fuel (f value :: outer)
                    (f entry.2) (path ++ [.key entry.1])
                    (innerKeywords H keywords values path entry.1) =
                      carryExtension f (checkExtension H fuel (value :: inner)
                        entry.2 (path ++ [.key entry.1])
                        (innerKeywords H keywords values path entry.1)) := by
                  have hmoved : (entry.1, f entry.2) ∈
                      values.map fun entry => (entry.1, f entry.2) :=
                    List.mem_map_of_mem hentry
                  refine ih (hfresh.imp (fun hquiet => ?_) fun hnone =>
                    hnone.held (.single (holds_of_readDocument hread hmoved)))
                  obtain ⟨-, n, hn, -, -, hobject, -⟩ := hquiet.inv
                  obtain rfl := Nat.succ.inj hn
                  obtain ⟨others, hothers, hquiet⟩ := hobject _ _ _ hlook
                  rw [hread] at hothers
                  obtain rfl := Except.ok.inj hothers
                  have hinner := hquiet (entry.1, f entry.2) hmoved
                  simpa only [innerKeywords, hkeywords] using hinner
                exact (congrArg (fun result => (reports result.1 : Item κ) ::
                  result.2) hmember).trans carryItems_extension
        | _ =>
            rw [hshape] at hlook
            simp only [hlook, Shape.map]
            rfl

end Extensions

section Documents

variable (P : Platform) (hreads : H.Reads G f)

include hreads in
theorem isRecord_moved (value : ι) : isRecord G (f value) = isRecord H value := by
  unfold isRecord
  rw [hreads value]
  cases H.look value <;> rfl

include hreads in
/-- The items of the image of a field, when the walks below it are images. -/
theorem fieldItems_carried
    {embedded : ι → FieldPath → Option (List VocabularyType) → JsString →
      Item ι × List (Item ι)}
    {embedded' : κ → FieldPath → Option (List VocabularyType) → JsString →
      Item κ × List (Item κ)}
    {extension : ι → FieldPath → List Diagnostic × List (Item ι)}
    {extension' : κ → FieldPath → List Diagnostic × List (Item κ)}
    {checked : Item ι × FollowUp ι}
    (hembedded : ∀ visits key range, checked.2 = .references visits key range →
      ∀ entry p, .entry entry p ∈ visits → isRecord H entry = true →
      embedded' (f entry) p range key =
        carryWalk f (embedded entry p range key))
    (hextension : ∀ entry p, checked.2 = .extension entry p →
      extension' (f entry) p = carryExtension f (extension entry p)) :
    fieldItems P G embedded' extension'
        (checked.1.map (Event.moved f []), checked.2.moved f []) =
      carryItems f (fieldItems P H embedded extension checked) := by
  obtain ⟨events, follow⟩ := checked
  cases follow with
  | nothing => rfl
  | extension entry p =>
      have hvalue := hextension entry p rfl
      simp only [fieldItems, FollowUp.moved, List.nil_append, hvalue,
        carryExtension, carryItems, List.map_cons, List.map_append,
        moved_reports, map_under_nil]
  | references visits key range =>
      simp only [fieldItems, FollowUp.moved, carryItems, List.map_cons]
      refine congrArg (_ :: ·) (flatMap_congr_map fun visit hvisit => ?_)
      cases visit with
      | finding d => rfl
      | entry entry p =>
          have hreference := checkReference_moved hreads [] P.toRuntime entry p
          rw [List.nil_append, map_under_nil] at hreference
          simp only [visitItems, Visit.moved, List.nil_append,
            isRecord_moved hreads]
          by_cases hentry : isRecord H entry = true
          · rw [if_pos hentry, if_pos hentry,
              hembedded visits key range rfl entry p hvisit hentry]
            rfl
          · rw [if_neg hentry, if_neg hentry, hreference, List.map_singleton,
              moved_reports, map_under_nil]

theorem checkedFields_moved (node : Node ι) :
    (node.moved f []).checkedFields =
      node.checkedFields.map (Field.moved f) := by
  simp only [Node.checkedFields, Node.moved, List.filter_map]
  rfl

include hreads in
/-- A walk that reports no error, or over a value without cycles, is the image
of the walk over the other representation. -/
theorem checkDocument_carried (hsame : ∀ a b, H.same a b = false) (fuel : ℕ)
    {inner : List ι} {outer : List κ} {value : ι} {path : FieldPath}
    {inherited : Option Terms} {expected fedify : Option (List VocabularyType)}
    (hfresh : QuietWalk (checkDocument P G fuel outer (f value) path inherited
        expected fedify) ∨ Fresh G outer (f value)) :
    checkDocument P G fuel outer (f value) path inherited expected fedify =
      carryWalk f (checkDocument P H fuel inner value path inherited expected
        fedify) := by
  induction fuel generalizing inner outer value path inherited expected fedify
    with
  | zero => rfl
  | succ fuel ih =>
      have hinner : ¬ (isContainer H value && inner.any (H.same value)) =
          true := by
        simp [hsame]
      have houter : ¬ (isContainer G (f value) &&
          outer.any (G.same (f value))) = true := by
        rcases hfresh with hquiet | hnone
        · obtain ⟨-, n, -, hany, -⟩ := hquiet.inv
          exact hany
        · simp [hnone.not_any]
      have hread := readNode_moved hreads [] P value path inherited expected
      rw [List.nil_append, map_under_nil] at hread
      have hfields : ∀ findings node,
          readNode P H value path inherited expected = (findings, some node) →
          ∀ field ∈ node.checkedFields,
            QuietField G P fuel (f value :: outer) (node.moved f [])
              (field.moved f) ∨ Fresh G outer (f value) := by
        intro findings node hnode field hfield
        refine hfresh.imp_left fun hquiet => ?_
        obtain ⟨-, n, hn, -, others, other, hother, hquiet⟩ := hquiet.inv
        obtain rfl := Nat.succ.inj hn
        rw [hread, hnode] at hother
        obtain ⟨-, heq⟩ := Prod.mk.inj hother
        obtain rfl := Option.some.inj heq
        exact hquiet _ (checkedFields_moved node ▸ List.mem_map_of_mem hfield)
      rw [checkDocument, checkDocument]
      by_cases hdeep : path.length > maximumPathDepth
      · rw [if_pos hdeep, if_pos hdeep]
        rfl
      · rw [if_neg hdeep, if_neg hdeep, if_neg hinner, if_neg houter, hread]
        cases hnode : readNode P H value path inherited expected with
        | mk findings found =>
          cases found with
          | none => simp [carryWalk, carryItems, Event.moved]
          | some node =>
              have hfields := hfields findings node hnode
              have hmovedNode := hread
              rw [hnode] at hmovedNode
              have hmovedField : ∀ field ∈ node.checkedFields,
                  field.moved f ∈ (node.moved f []).checkedFields :=
                fun field hfield => checkedFields_moved node ▸
                  List.mem_map_of_mem hfield
              simp only [carryWalk, Option.map_some, List.map_append,
                moved_reports, map_under_nil, List.map_singleton, Event.moved,
                checkedFields_moved]
              refine Prod.ext rfl (flatMap_congr_map fun field hfield => ?_)
              have hcheck := Node.check_moved hreads [] P node field
              rw [hcheck]
              refine fieldItems_carried P hreads ?_ ?_
              · intro visits key range hfollow entry p hentry hrecord
                have hmoved : ((node.moved f []).check P G
                    (field.moved f)).2 = .references
                      (visits.map (Visit.moved f [])) key range := by
                  rw [hcheck, hfollow]
                  rfl
                refine ih ((hfields field hfield).imp (fun hquiet => ?_)
                  fun hnone => hnone.held (holds_of_references hmovedNode
                    (hmovedField field hfield) hmoved
                    (List.mem_map_of_mem hentry)))
                have hbelow := hquiet.entries _ _ _ hmoved (f entry) p
                  (List.mem_map_of_mem hentry)
                unfold QuietEntry at hbelow
                rwa [isRecord_moved hreads, if_pos hrecord] at hbelow
              · intro entry p hfollow
                have hmoved : ((node.moved f []).check P G
                    (field.moved f)).2 = .extension (f entry) p := by
                  rw [hcheck, hfollow]
                  rfl
                refine checkExtension_carried hreads hsame fuel
                  ((hfields field hfield).imp
                    (fun hquiet => hquiet.extension (f entry) p hmoved)
                    fun hnone => hnone.held (.single
                      (holds_of_extension hmovedNode
                        (hmovedField field hfield) hmoved)))

end Documents

/-! ## States of a walk -/

section States

variable (f) in
/-- The image of the state of a walk. -/
def WalkState.carry (s : WalkState ι) : WalkState κ where
  reporter := s.reporter
  changes := s.changes.map (NormalizationChange.moved f [])
  visited := s.visited.map (Node.moved f [])
  unavailable := s.unavailable

theorem WalkState.runItem_carried (s : WalkState ι) (item : Item ι) :
    (s.carry f).runItem (item.map (Event.moved f [])) =
      (s.runItem item).carry f := by
  induction item generalizing s with
  | nil => rfl
  | cons event rest ih =>
      have happly : (s.carry f).apply (event.moved f []) =
          (s.apply event).carry f := by
        cases event <;>
          simp [WalkState.apply, WalkState.carry, Event.moved]
      have hrest := ih (s.apply event)
      rw [← happly] at hrest
      exact hrest

theorem WalkState.runItems_carried (s : WalkState ι)
    (items : List (Item ι)) :
    (s.carry f).runItems (carryItems f items) =
      (s.runItems items).carry f := by
  induction items generalizing s with
  | nil => rfl
  | cons item rest ih =>
      have hreporter : (s.carry f).reporter = s.reporter := rfl
      have hcons : carryItems f (item :: rest) =
          item.map (Event.moved f []) :: carryItems f rest := rfl
      rw [hcons, WalkState.runItems, WalkState.runItems, hreporter,
        WalkState.runItem_carried, ih]
      split <;> rfl

theorem checkDocumentValue_carried (P : Platform) (hreads : H.Reads G f)
    (hsame : ∀ a b, H.same a b = false) {value : ι}
    (hfresh : (checkDocumentValue P G (f value)).reporter.accepts = true ∨
      Fresh G [] (f value)) :
    checkDocumentValue P G (f value) =
      (checkDocumentValue P H value).carry f := by
  have hwalk : checkDocument P G walkFuel [] (f value) [] none none none =
      carryWalk f (checkDocument P H walkFuel [] value [] none none none) :=
    checkDocument_carried P hreads hsame walkFuel
      (hfresh.imp_left quietWalk_of_accepts)
  have hstart : (WalkState.start : WalkState κ) =
      (WalkState.start : WalkState ι).carry f := rfl
  unfold checkDocumentValue
  rw [hwalk, carryWalk]
  dsimp only
  rw [hstart, WalkState.runItem_carried, WalkState.runItems_carried]

end States

/-! ## Descriptions -/

section Descriptions

theorem textEntries_moved (hreads : H.Reads G f) (value : ι)
    (path : FieldPath) :
    textEntries G (f value) path = textEntries H value path := by
  unfold textEntries
  rw [hreads value]
  cases H.look value with
  | array entries named symbols =>
      simp only [Shape.map, List.zipIdx_map, List.filterMap_map]
      refine List.filterMap_congr fun entry _ => ?_
      obtain ⟨slot, i⟩ := entry
      rcases slot with - | slot
      · rfl
      · cases slot with
        | accessor => rfl
        | data entry enumerable =>
            cases enumerable with
            | false => rfl
            | true =>
                simp [Slot.map, Slot.value?, stringOf_moved hreads]
  | _ => rfl

theorem describeRecord_moved (P : Platform) (hreads : H.Reads G f)
    (node : Node ι) :
    describeRecord P G (node.moved f []) = describeRecord P H node := by
  have hproperties : nodeProperties (node.fields.map (Field.moved f)) =
      nodeProperties node.fields := by
    unfold nodeProperties
    rw [List.foldl_map]
    rfl
  have hidentifiers : ∀ field : Field ι,
      identifiersIn G node.path node.context (field.moved f) =
        identifiersIn H node.path node.context field := by
    intro field
    simp only [identifiersIn, Field.moved, textEntries_moved hreads]
  simp only [describeRecord, Node.moved, hproperties, List.flatMap_map,
    hidentifiers, List.nil_append]

theorem textEntries_tree (value : Json) (path : FieldPath) :
    textEntries Json.tree value path = stringEntries value path := by
  cases value with
  | arr items =>
      simp only [textEntries, Json.look_tree, Json.shape, List.zipIdx_map,
        List.filterMap_map, stringEntries]
      refine List.filterMap_congr fun entry _ => ?_
      obtain ⟨item, i⟩ := entry
      cases item <;> rfl
  | _ => rfl

theorem describeRecord_tree (P : Platform) (node : Node Json) :
    describeRecord P Json.tree node = describeNode P node := by
  have hidentifiers : identifiersIn Json.tree node.path node.context =
      fieldIdentifiers node.path node.context := by
    funext field
    simp only [identifiersIn, textEntries_tree]
    rfl
  rw [describeRecord, hidentifiers]
  rfl

end Descriptions

end Walks

/-! ## Values with the trees that they spell -/

section Spelled

variable {ι : Type} (H : Values ι)

/-- A value with a tree that it spells. -/
abbrev Spelled : Type := {pair : ι × Json // pair.2.Spells H pair.1}

variable {H}

theorem exists_spelled {α β : Type} {R : α → β → Prop} {xs : List α}
    {ys : List β} (h : List.Forall₂ R xs ys) :
    ∃ zs : List {pair : β × α // R pair.2 pair.1},
      zs.map (fun z => z.1.2) = xs ∧ zs.map (fun z => z.1.1) = ys := by
  induction h with
  | nil => exact ⟨[], rfl, rfl⟩
  | cons hxy _ ih =>
      obtain ⟨zs, hxs, hys⟩ := ih
      exact ⟨⟨(_, _), hxy⟩ :: zs, by rw [List.map_cons, hxs],
        by rw [List.map_cons, hys]⟩

/-- The shape of a value and of its tree, at once. -/
theorem exists_spelled_shape (x : Spelled H) :
    ∃ shape : Shape (Spelled H),
      shape.map (fun y => y.1.1) = H.look x.1.1 ∧
        shape.map (fun y => y.1.2) = x.1.2.shape := by
  obtain ⟨⟨value, json⟩, hspells⟩ := x
  cases json with
  | null => exact ⟨.null, by rw [Shape.map]; exact hspells.symm, rfl⟩
  | bool b => exact ⟨.bool b, by rw [Shape.map]; exact hspells.symm, rfl⟩
  | num n => exact ⟨.number n, by rw [Shape.map]; exact hspells.symm, rfl⟩
  | str text => exact ⟨.string text, by rw [Shape.map]; exact hspells.symm, rfl⟩
  | arr items =>
      obtain ⟨entries, hlook, hitems⟩ := Json.spells_arr.mp hspells
      obtain ⟨zs, rfl, rfl⟩ := exists_spelled hitems
      refine ⟨.array (zs.map fun z => some (.data z true)) [] 0, ?_, ?_⟩
      · rw [hlook]
        simp [Shape.map, Function.comp_def]
      · simp [Shape.map, Json.shape, Function.comp_def]
  | obj ms =>
      obtain ⟨members, hlook, hms⟩ := Json.spells_obj.mp hspells
      obtain ⟨zs, rfl, rfl⟩ := exists_spelled hms
      refine ⟨.object true (zs.map fun z => (z.1.1.1,
        .data ⟨(z.1.1.2, z.1.2.2), z.2.2⟩ true)) 0, ?_, ?_⟩
      · rw [hlook]
        simp [Shape.map, Function.comp_def]
      · simp only [Shape.map, Json.shape, List.map_map, Function.comp_def,
          Slot.map]
        congr 1
        refine List.map_congr_left fun z _ => ?_
        rw [z.2.1]

/-- A value and its tree, read at once. -/
noncomputable def spelledValues (H : Values ι) : Values (Spelled H) where
  look x := (exists_spelled_shape x).choose
  same _ _ := false

theorem spelledValues_fst : (spelledValues H).Reads H fun x => x.1.1 :=
  fun x => (exists_spelled_shape x).choose_spec.1.symm

theorem spelledValues_snd : (spelledValues H).Reads Json.tree fun x => x.1.2 :=
  fun x => (exists_spelled_shape x).choose_spec.2.symm

end Spelled

end DrFed.Document
