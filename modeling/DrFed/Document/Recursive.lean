import DrFed.Document.Admitted

/-!
# The recursive traversal

The walk as a plain recursion: a document is checked, then its properties in
the order of their keys and the items of a list in the order of their indices,
each with everything below it before the next one.  The cycle set is the path
of values that are being checked.  The work stack does the same, with the
integer-like keys of an extension value before its other ones and without the
lists of references in the cycle set.
-/

namespace DrFed.Document

section Platform

variable (P : Platform) {ι : Type} (H : Values ι)

/-! ## The traversal -/

/-- What a traversal leaves open: the order of the members of an extension
value, and what the value of a property adds to the cycle set of the documents
in it. -/
structure Manner (ι : Type) where
  members : List (JsString × ι) → List (JsString × ι)
  entered : ι → List ι

/-- Members as `Object.keys` lists them, and no lists in the cycle set. -/
def Manner.own : Manner ι := ⟨fun members => members, fun _ => []⟩

/-- Members in the order of their keys. -/
def Manner.sorted : Manner ι := ⟨sortByKey, fun _ => []⟩

/-- The list of a property is in the cycle set of the documents in it. -/
def Manner.listing : Manner ι where
  members members := members
  entered value :=
    match H.look value with
    | .array .. => [value]
    | _ => []

variable (manner : Manner ι)

/-- Go on with the next part unless the reporter is cut off. -/
def WalkState.proceed (s : WalkState ι) (next : WalkState ι → WalkState ι) :
    WalkState ι :=
  if s.reporter.truncated then s else next s

/-- Check the parts of a list one after the other. -/
def WalkState.forEach {α : Type} (s : WalkState ι) (entries : List α)
    (check : α → WalkState ι → WalkState ι) : WalkState ι :=
  entries.foldl (fun s entry => s.proceed (check entry)) s

/-- Traverse an extension value. -/
def traverseExtension : ℕ → List ι → ι → FieldPath → Bool →
    WalkState ι → WalkState ι
  | 0, _, _, path, _, s => s.runItem (reports [depthFinding path])
  | fuel + 1, ancestors, value, path, keywords, s =>
      if path.length > maximumPathDepth then
        s.runItem (reports [depthFinding path])
      else
        match H.look value with
        | .foreign =>
            s.runItem (reports
              [⟨.nonJsonValue, path, "Expected a JSON value."⟩])
        | .array entries named symbols =>
            if ancestors.any (H.same value) then
              s.runItem (reports [cycleFinding path])
            else
              let visits := visitList entries named symbols path
              (s.runItem (reports (visits.filterMap Visit.finding?))).forEach
                visits fun visit s =>
                  match visit with
                  | .finding _ => s
                  | .entry entry entryPath =>
                      traverseExtension fuel (value :: ancestors) entry
                        entryPath keywords s
        | .object .. =>
            if ancestors.any (H.same value) then
              s.runItem (reports [cycleFinding path])
            else
              match readDocument H value path with
              | .error d => s.runItem (reports [d])
              | .ok values =>
                  let checked :=
                    if keywords then checkExtensionKeywords H values path
                    else ([], false)
                  (s.runItem (reports checked.1)).forEach
                    (manner.members values) fun entry s =>
                      traverseExtension fuel (value :: ancestors) entry.2
                        (path ++ [.key entry.1])
                        (keywords && !(checked.2 && entry.1 == js "@value")) s
        | _ => s.runItem []

/-- Traverse an entry of a reference property: an embedded document, or a
reference. -/
def traverseVisit
    (embedded : ι → FieldPath → Option (List VocabularyType) → JsString →
      WalkState ι → WalkState ι)
    (key : JsString) (collectionRange : Option (List VocabularyType))
    (visit : Visit ι) (s : WalkState ι) : WalkState ι :=
  match visit with
  | .finding d => s.runItem [.report d]
  | .entry entry path =>
      if isRecord H entry then embedded entry path collectionRange key s
      else s.runItem (reports (checkReference P.toRuntime H entry path))

/-- Traverse a property: its own checks, then what it holds. -/
def traverseField
    (embedded : ι → FieldPath → Option (List VocabularyType) → JsString →
      WalkState ι → WalkState ι)
    (extension : ι → FieldPath → WalkState ι → WalkState ι)
    (checked : Item ι × FollowUp ι) (s : WalkState ι) : WalkState ι :=
  match checked.2 with
  | .nothing => s.runItem checked.1
  | .extension entry path => extension entry path (s.runItem checked.1)
  | .references visits key collectionRange =>
      (s.runItem checked.1).forEach visits
        (traverseVisit P H embedded key collectionRange)

/-- Traverse a document. -/
def traverseDocument : ℕ → List ι → ι → FieldPath → Option Terms →
    Option (List VocabularyType) → Option (List VocabularyType) →
    WalkState ι → WalkState ι
  | 0, _, _, path, _, _, _, s =>
      s.runItem [.report (depthFinding path), .unavailable path]
  | fuel + 1, ancestors, value, path, inherited, expectedTypes, fedifyTypes,
      s =>
      if path.length > maximumPathDepth then
        s.runItem [.report (depthFinding path), .unavailable path]
      else if isContainer H value && ancestors.any (H.same value) then
        s.runItem [.report (cycleFinding path), .unavailable path]
      else
        match readNode P H value path inherited expectedTypes with
        | (findings, none) =>
            s.runItem (reports findings ++ [.unavailable path])
        | (findings, some node) =>
            (s.runItem (reports findings ++
                reports (checkEmbeddedFedifyRange P.toRuntime node.type
                  fedifyTypes path) ++ [.visit node])).forEach
              node.checkedFields fun field =>
                traverseField P H
                  (fun entry entryPath range key =>
                    traverseDocument fuel
                      (manner.entered field.value ++ value :: ancestors)
                      entry entryPath (some node.context) range
                      (getEmbeddedFedifyRange key range))
                  (fun entry entryPath =>
                    traverseExtension H manner fuel (value :: ancestors) entry
                      entryPath true)
                  (node.check P H field)

/-- The whole traversal of a value. -/
def traverse (fuel : ℕ) (document : ι) : WalkState ι :=
  traverseDocument P H manner fuel [] document [] none none none
    WalkState.start

/-! ## Its events -/

variable {P H}

theorem WalkState.proceed_runItems (s : WalkState ι) (item : Item ι)
    (items : List (Item ι)) :
    s.proceed (fun s => (s.runItem item).runItems items) =
      s.runItems (item :: items) := rfl

theorem WalkState.forEach_runItems {α : Type} {entries : List α}
    {check : α → WalkState ι → WalkState ι} {items : α → List (Item ι)}
    (h : ∀ entry ∈ entries, ∀ s : WalkState ι, s.proceed (check entry) =
      s.runItems (items entry)) (s : WalkState ι) :
    s.forEach entries check = s.runItems (entries.flatMap items) := by
  induction entries generalizing s with
  | nil => rfl
  | cons entry rest ih =>
      have hrest := ih (fun other hother =>
        h other (List.mem_cons_of_mem _ hother)) (s.runItems (items entry))
      rw [List.flatMap_cons, WalkState.runItems_append, ← hrest,
        ← h entry List.mem_cons_self]
      rfl

theorem proceed_self (s : WalkState ι) :
    s.proceed (fun s => s) = s.runItems [] := by
  unfold WalkState.proceed
  split <;> rfl

/-- The traversal of an extension value runs the items of the walk over it. -/
theorem traverseExtension_eq (fuel : ℕ) (ancestors : List ι) (value : ι)
    (path : FieldPath) (keywords : Bool) (s : WalkState ι) :
    traverseExtension H .own fuel ancestors value path keywords s =
      (s.runItem (reports
        (checkExtension H fuel ancestors value path keywords).1)).runItems
        (checkExtension H fuel ancestors value path keywords).2 := by
  induction fuel generalizing ancestors value path keywords s with
  | zero => rfl
  | succ fuel ih =>
      have hchild : ∀ (entry : ι) (p : FieldPath) (inner : Bool)
          (s : WalkState ι),
          s.proceed (traverseExtension H .own fuel (value :: ancestors) entry p
              inner) =
            s.runItems (reports (checkExtension H fuel (value :: ancestors)
                entry p inner).1 ::
              (checkExtension H fuel (value :: ancestors) entry p inner).2) := by
        intro entry p inner s
        rw [← WalkState.proceed_runItems]
        exact congrArg s.proceed (funext fun s => ih _ _ _ _ s)
      rw [traverseExtension, checkExtension]
      split
      next => rfl
      next =>
        cases H.look value with
        | array entries named symbols =>
            dsimp only
            split
            next => rfl
            next =>
              refine WalkState.forEach_runItems (fun visit _ s => ?_) _
              cases visit with
              | finding d => exact proceed_self s
              | entry entry p => exact hchild entry p keywords s
        | object plain members symbols =>
            dsimp only
            split
            next => rfl
            next =>
              cases readDocument H value path with
              | error d => rfl
              | ok values =>
                  exact WalkState.forEach_runItems
                    (fun entry _ s => hchild _ _ _ s) _
        | _ => rfl

/-- The traversal of a property runs its items, when the traversals below it
do. -/
theorem traverseField_eq
    {embedded : ι → FieldPath → Option (List VocabularyType) → JsString →
      WalkState ι → WalkState ι}
    {embeddedItems : ι → FieldPath → Option (List VocabularyType) →
      JsString → Item ι × List (Item ι)}
    {extension : ι → FieldPath → WalkState ι → WalkState ι}
    {extensionItems : ι → FieldPath → List Diagnostic × List (Item ι)}
    (hembedded : ∀ entry path range key s, embedded entry path range key s =
      (s.runItem (embeddedItems entry path range key).1).runItems
        (embeddedItems entry path range key).2)
    (hextension : ∀ entry path s, extension entry path s =
      (s.runItem (reports (extensionItems entry path).1)).runItems
        (extensionItems entry path).2)
    (checked : Item ι × FollowUp ι) (s : WalkState ι) :
    s.proceed (traverseField P H embedded extension checked) =
      s.runItems (fieldItems P H embeddedItems extensionItems checked) := by
  obtain ⟨events, follow⟩ := checked
  cases follow with
  | nothing => rfl
  | extension entry path =>
      rw [fieldItems, ← WalkState.proceed_runItems]
      refine congrArg s.proceed (funext fun s => ?_)
      rw [traverseField]
      dsimp only
      rw [hextension, ← WalkState.runItem_append]
  | references visits key range =>
      rw [fieldItems, ← WalkState.proceed_runItems]
      refine congrArg s.proceed (funext fun s => ?_)
      refine WalkState.forEach_runItems (fun visit _ s => ?_) _
      cases visit with
      | finding d => rfl
      | entry entry path =>
          unfold visitItems
          by_cases hrecord : isRecord H entry = true
          · simp only [hrecord, if_true]
            rw [← WalkState.proceed_runItems]
            refine congrArg s.proceed (funext fun s => ?_)
            rw [traverseVisit]
            simp only [hrecord, if_true, hembedded]
          · simp only [hrecord, Bool.false_eq_true, if_false]
            rw [← WalkState.proceed_runItems]
            refine congrArg s.proceed (funext fun s => ?_)
            rw [traverseVisit]
            simp only [hrecord, Bool.false_eq_true, if_false]
            rfl

/-- The traversal of a document runs the items of the walk over it. -/
theorem traverseDocument_eq (fuel : ℕ) (ancestors : List ι) (value : ι)
    (path : FieldPath) (inherited : Option Terms)
    (expected fedify : Option (List VocabularyType)) (s : WalkState ι) :
    traverseDocument P H .own fuel ancestors value path inherited expected
        fedify s =
      (s.runItem (checkDocument P H fuel ancestors value path inherited
        expected fedify).1).runItems
        (checkDocument P H fuel ancestors value path inherited expected
          fedify).2 := by
  induction fuel generalizing ancestors value path inherited expected fedify s
    with
  | zero => rfl
  | succ fuel ih =>
      rw [traverseDocument, checkDocument]
      split
      next => rfl
      next =>
        split
        next => rfl
        next =>
          cases readNode P H value path inherited expected with
          | mk findings found =>
            cases found with
            | none => rfl
            | some node =>
                refine WalkState.forEach_runItems (fun field _ s => ?_) _
                refine traverseField_eq ?_ ?_ _ s
                · intro entry entryPath range key s
                  exact ih ..
                · intro entry entryPath s
                  exact traverseExtension_eq ..

/-! ## The work stack -/

theorem StackState.rightUnique :
    Relator.RightUnique fun s s' : StackState ι => s.step P H = some s' := by
  intro s s' s'' hstep hstep'
  exact Option.some.inj (hstep.symm.trans hstep')

/-- Every run of the loop leads to the state in which it ends. -/
theorem StackState.Steps.to_end {s s' t : StackState ι}
    (hsteps : StackState.Steps P H s s') (hend : s'.step P H = none)
    (hother : StackState.Steps P H s t) : StackState.Steps P H t s' := by
  rcases hsteps.total_of_right_unique StackState.rightUnique hother with
    hmore | hback
  · rcases hmore.cases_head with rfl | ⟨next, hnext, -⟩
    · exact .refl
    · rw [hend] at hnext
      cases hnext
  · exact hback

variable (P) in
/-- The loop ends, and it leaves what the recursion leaves: the same
diagnostics, cut off at the same place, and the same changes. -/
theorem stack_traverses (h : Heap) (root : JsValue) :
    ∃ s, StackState.Steps P h.values (StackState.start P h.values root) s ∧
      s.step P h.values = none ∧
      (∀ t, StackState.Steps P h.values (StackState.start P h.values root) t →
        StackState.Steps P h.values t s) ∧
      ∀ fuel, maximumPathDepth < fuel →
        s.walk = traverse P h.values .own fuel root := by
  obtain ⟨s, hsteps, hend, -⟩ := stack_runs (P := P) h.lawful root
  refine ⟨s, hsteps, hend, fun t ht => hsteps.to_end hend ht, ?_⟩
  intro fuel hfuel
  obtain ⟨s', hsteps', hend', hwalk'⟩ :=
    stack_runs_of_fuel (P := P) h.lawful root hfuel
  have hsame : s' = s := by
    rcases (hsteps.to_end hend hsteps').cases_head with heq | ⟨next, hnext, -⟩
    · exact heq
    · rw [hend'] at hnext
      cases hnext
  rw [← hsame, hwalk', traverse, traverseDocument_eq]

/-- A note whose extension value refers to the note under two integer-like
keys. -/
def numberedHeap : Heap
  | 0 => .record true
      [(js "@context", .data (.string activityStreamsContext) true),
        (js "type", .data (.string (js "Note")) true),
        (js "siblings", .data (.ref 1) true)] [] (by decide +kernel)
  | _ => .record true
      [(js "10", .data (.ref 0) true), (js "9", .data (.ref 0) true)] []
      (by decide +kernel)

/-- The loop takes the integer-like members of an extension value by number,
and a list of references is not in its cycle set. -/
theorem traverse_manners :
    (traverse reducedPlatform numberedHeap.values .sorted walkFuel
        (.ref 0)).reporter.diagnostics ≠
      (checkDocumentValue reducedPlatform numberedHeap.values
        (.ref 0)).reporter.diagnostics ∧
    (traverse reducedPlatform listedHeap.values
        (.listing listedHeap.values) walkFuel (.ref 0)).reporter.diagnostics ≠
      (checkDocumentValue reducedPlatform listedHeap.values
        (.ref 0)).reporter.diagnostics := by
  constructor <;> decide +kernel

end Platform

end DrFed.Document
