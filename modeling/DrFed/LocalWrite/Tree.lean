import DrFed.Document.Ownership
import DrFed.Js.Amend
import DrFed.LocalWrite.Creation

/-!
# The tree of new resources

The loop of a create takes the resources deepest first and rewrites the
working parent in place.  What it saves is told here without the loop: every
document is the prepared one with each outermost referenced resource below it
replaced by its IRI.
-/

namespace DrFed.LocalWrite

open Document Store

/-! ## Paths and their keys -/

theorem ownProperty_of_child? {value child : Json} {segment : Segment}
    (h : value.child? segment = some child) :
    ownProperty value segment = some child := by
  cases value with
  | obj ms =>
      cases segment with
      | key name => exact h
      | index i => simp [Json.child?] at h
  | arr items =>
      cases segment with
      | key name => simp [Json.child?] at h
      | index i => exact h
  | _ => simp [Json.child?] at h

theorem valueAt_of_get? {document value : Json} {path : FieldPath}
    (h : document.get? path = some value) :
    valueAt document path = some value := by
  induction path generalizing document with
  | nil => exact h
  | cons segment rest ih =>
      rw [Json.get?_cons] at h
      obtain ⟨child, hchild, hrest⟩ := Option.bind_eq_some_iff.mp h
      rw [valueAt, ownProperty_of_child? hchild, Option.bind_some]
      exact ih hrest

theorem setAt_of_get? {document : Json} {path : FieldPath} {segment : Segment}
    {before : Json} (h : document.get? (path ++ [segment]) = some before)
    (value : Json) :
    setAt document (path ++ [segment]) value =
      .ok (document.update path fun parent => parent.setChild segment value) := by
  rw [Json.get?_concat] at h
  obtain ⟨parent, hparent, hchild⟩ := Option.bind_eq_some_iff.mp h
  have hvalue := valueAt_of_get? hparent
  cases parent with
  | obj ms => simp [setAt, hvalue]
  | arr items => simp [setAt, hvalue]
  | _ => simp [Json.child?] at hchild

/-! ## What a document refers to -/

/-- The IRIs that stand in place of referenced resources. -/
def references (planned : List PlannedResource) : Amendments := fun path =>
  match planned.find? fun resource =>
      resource.path == path &&
        resource.representation == some .reference with
  | some resource => .put (.str resource.iri)
  | none => .keep

theorem references_eq_keep {planned : List PlannedResource}
    {path : FieldPath} :
    references planned path = .keep ↔
      ∀ resource ∈ planned, resource.path = path →
        resource.representation ≠ some .reference := by
  rw [references]
  split
  next resource hfind =>
    have hgood := List.find?_some hfind
    rw [Bool.and_eq_true, beq_iff_eq, beq_iff_eq] at hgood
    refine iff_of_false (by simp) fun hall => ?_
    exact hall resource (List.mem_of_find?_eq_some hfind) hgood.1 hgood.2
  next hfind =>
    refine iff_of_true rfl fun resource hmem hpath hreference => ?_
    have hnot := List.find?_eq_none.mp hfind resource hmem
    simp [hpath, hreference] at hnot

theorem references_eq_put {planned : List PlannedResource}
    (hnodup : (planned.map fun r => r.path).Nodup) {path : FieldPath}
    {value : Json} :
    references planned path = .put value ↔
      ∃ resource ∈ planned, resource.path = path ∧
        resource.representation = some .reference ∧
        value = .str resource.iri := by
  rw [references]
  constructor
  · intro h
    split at h
    next resource hfind =>
      have hgood := List.find?_some hfind
      rw [Bool.and_eq_true, beq_iff_eq, beq_iff_eq] at hgood
      exact ⟨resource, List.mem_of_find?_eq_some hfind, hgood.1, hgood.2,
        (Amendment.put.inj h).symm⟩
    next => cases h
  · rintro ⟨resource, hmem, hpath, hreference, rfl⟩
    split
    next other hfind =>
      have hgood := List.find?_some hfind
      rw [Bool.and_eq_true, beq_iff_eq, beq_iff_eq] at hgood
      rw [List.inj_on_of_nodup_map hnodup (List.mem_of_find?_eq_some hfind)
        hmem (hgood.1.trans hpath.symm)]
    next hfind =>
      have hnot := List.find?_eq_none.mp hfind resource hmem
      simp [hpath, hreference] at hnot

theorem references_cases (planned : List PlannedResource) (path : FieldPath) :
    references planned path = .keep ∨
      ∃ iri, references planned path = .put (.str iri) := by
  rw [references]
  split
  · exact .inr ⟨_, rfl⟩
  · exact .inl rfl

/-- The value at a path with every outermost referenced resource below it
replaced by its IRI. -/
def embeddedValue (prepared : Json) (planned : List PlannedResource)
    (path : FieldPath) : Json :=
  ((prepared.get? path).getD .null).amend ((references planned).beneath path)

section Saved

variable (server : Server) (P : Platform)

/-- The document that is saved for a planned resource. -/
def savedDocument (prepared : Json) (preparedNodes : List FieldPath)
    (planned : List PlannedResource) (path : FieldPath) : Json :=
  let value := embeddedValue prepared planned path
  if path.isEmpty then value
  else
    .obj (materialize server (contextChain prepared preparedNodes path)
      value.members path).1

variable {server P} {prepared : Json} {preparedNodes : List FieldPath}

/-- One round of the loop, for a resource no shallower than those done.  It
saves the document told above and, for a referenced resource, adds its IRI to
the working parent. -/
structure Round (server : Server) (P : Platform) (prepared : Json)
    (preparedNodes : List FieldPath) (done : List PlannedResource)
    (planned : PlannedResource) (s after : SaveState) : Prop where
  working : after.working = prepared.amend (references (done ++ [planned]))
  resources : after.resources = s.resources ++ [prepareResource P planned
    (savedDocument server prepared preparedNodes done planned.path)]
  accepts : planned.path ≠ [] → (validateDocument P
    (savedDocument server prepared preparedNodes done planned.path)).accepts =
      true
  indexable : planned.path ≠ [] → checkIndexable P
    (savedDocument server prepared preparedNodes done planned.path) = []

theorem keep_of_deeper {done : List PlannedResource} {path : FieldPath}
    (hdeep : ∀ d ∈ done, path.length ≤ d.path.length ∧ d.path ≠ path) :
    ∀ q, q <+: path → q ≠ [] → references done q = .keep := by
  intro q hbegins _
  refine references_eq_keep.mpr fun d hd hpath => ?_
  obtain ⟨hlength, hne⟩ := hdeep d hd
  rw [hpath] at hlength hne
  exact absurd (hbegins.eq_of_length_le hlength) hne

theorem get?_working {done : List PlannedResource} {path : FieldPath}
    (hdeep : ∀ d ∈ done, path.length ≤ d.path.length ∧ d.path ≠ path)
    {value : Json} (hvalue : prepared.get? path = some value) :
    (prepared.amend (references done)).get? path =
      some (embeddedValue prepared done path) := by
  rw [Json.get?_amend _ prepared path (keep_of_deeper hdeep), hvalue,
    embeddedValue, hvalue]
  rfl

theorem references_append {done : List PlannedResource}
    {planned : PlannedResource} (hrepresentation :
      planned.representation ≠ some .reference) :
    references (done ++ [planned]) = references done := by
  funext path
  simp [references, List.find?_append, hrepresentation]

theorem references_append_of_ne {done : List PlannedResource}
    {planned : PlannedResource} {path : FieldPath}
    (hne : planned.path ≠ path) :
    references (done ++ [planned]) path = references done path := by
  simp [references, List.find?_append, hne]

theorem references_append_reference {done : List PlannedResource}
    {planned : PlannedResource}
    (hreference : planned.representation = some .reference)
    (hnew : ∀ d ∈ done, d.path ≠ planned.path) :
    references (done ++ [planned]) =
      (Amendments.single planned.path (.put (.str planned.iri))).onto
        (references done) := by
  funext path
  by_cases hpath : path = planned.path
  · subst hpath
    have hnone : done.find? (fun resource =>
        resource.path == planned.path &&
          resource.representation == some .reference) = none := by
      refine List.find?_eq_none.mpr fun d hd => ?_
      simp [hnew d hd]
    simp [references, Amendments.onto, Amendments.single, List.find?_append,
      hnone, hreference]
  · rw [references_append_of_ne fun heq => hpath heq.symm, Amendments.onto,
      Amendments.single, if_neg hpath]

/-- To set a position of the working parent is one more amendment, when
nothing above it has been replaced. -/
theorem update_working (hdistinct : prepared.Distinct)
    {done : List PlannedResource} {planned : PlannedResource}
    (hdeep : ∀ d ∈ done, planned.path.length ≤ d.path.length ∧
      d.path ≠ planned.path) {path : FieldPath} {segment : Segment}
    (hpath : planned.path = path ++ [segment])
    (hpart : (prepared.get? planned.path).isSome)
    (hreference : planned.representation = some .reference) :
    (prepared.amend (references done)).update path
        (fun parent => parent.setChild segment (.str planned.iri)) =
      prepared.amend (references (done ++ [planned])) := by
  have hkeep := keep_of_deeper hdeep
  have hputs : (prepared.amend (references done)).Distinct := by
    refine Json.Distinct.amend (fun q value hput => ?_) hdistinct
    rcases references_cases done q with h | ⟨iri, h⟩
    · rw [h] at hput
      cases hput
    · rw [h] at hput
      obtain rfl := Amendment.put.inj hput
      trivial
  have hsingle : (prepared.amend (references done)).update path
      (fun parent => parent.setChild segment (.str planned.iri)) =
      (prepared.amend (references done)).amend
        (.single planned.path (.put (.str planned.iri))) := by
    rw [hpath]
    refine Json.update_amend path hputs fun parent hparent => ?_
    refine Json.setChild_amend (hputs.get? hparent) ?_ _
    obtain ⟨value, hvalue⟩ := Option.isSome_iff_exists.mp hpart
    have hget := get?_working hdeep hvalue
    rw [hpath, Json.get?_concat, hparent, Option.bind_some] at hget
    rw [hget]
    rfl
  rw [hsingle, references_append_reference hreference fun d hd => (hdeep d hd).2]
  refine Json.amend_amend (fun q r hq hr hne => ?_) prepared
  have hsame : q = planned.path := by
    by_contra hother
    exact hq (if_neg hother)
  exact hkeep r (hsame ▸ hr) hne

section Loop

variable {s after : SaveState} {done : List PlannedResource}
  {planned : PlannedResource}

theorem saveResource_root (hpath : planned.path = []) :
    saveResource server P prepared preparedNodes s planned =
      .ok (s.save P planned s.working) := by
  simp [saveResource, hpath, pure, Except.pure]

/-- What a round does for a nested resource. -/
theorem saveResource_nested (hpath : planned.path ≠ [])
    (h : saveResource server P prepared preparedNodes s planned = .ok after) :
    ∃ value standalone changes,
      extractNested server P prepared preparedNodes s.working planned.path =
        .ok (value, standalone, changes) ∧
      checkIndexable P standalone = [] ∧
      after.resources =
        s.resources ++ [prepareResource P planned standalone] ∧
      ((planned.representation ≠ some .reference ∧
          after.working = s.working) ∨
        (planned.representation = some .reference ∧
          setAt s.working planned.path (.str planned.iri) =
            .ok after.working)) := by
  rw [saveResource, if_neg (by simpa using hpath)] at h
  obtain ⟨⟨value, standalone, changes⟩, hextract, h⟩ := exists_of_bind_ok h
  refine ⟨value, standalone, changes, hextract, ?_⟩
  dsimp only at h
  by_cases hindexable : (checkIndexable P standalone).isEmpty
  · rw [if_neg (by simpa using hindexable)] at h
    refine ⟨List.isEmpty_iff.mp hindexable, ?_⟩
    by_cases hreference : planned.representation = some .reference
    · rw [if_pos hreference] at h
      obtain ⟨working, hset, h⟩ := exists_of_bind_ok h
      obtain rfl := Except.ok.inj h
      exact ⟨rfl, .inr ⟨hreference, hset⟩⟩
    · rw [if_neg hreference] at h
      obtain rfl := Except.ok.inj h
      exact ⟨rfl, .inl ⟨hreference, rfl⟩⟩
  · rw [if_pos (by simpa using hindexable)] at h
    cases h

theorem extractNested_eq_ok {working value standalone : Json}
    {path : FieldPath} {changes : List Change}
    {ms : List (JsString × Json)} (hvalue : valueAt working path = some (.obj ms))
    (h : extractNested server P prepared preparedNodes working path =
      .ok (value, standalone, changes)) :
    standalone =
        .obj (materialize server (contextChain prepared preparedNodes path) ms
          path).1 ∧
      (validateDocument P standalone).accepts = true := by
  simp only [extractNested, hvalue] at h
  split at h
  · obtain ⟨-, rfl, -⟩ := Prod.mk.injEq .. ▸ Except.ok.inj h
    exact ⟨rfl, by assumption⟩
  · cases h

theorem saveResource_round
    (hworking : s.working = prepared.amend (references done))
    (hdistinct : prepared.Distinct)
    (hdeep : ∀ d ∈ done, planned.path.length ≤ d.path.length ∧
      d.path ≠ planned.path)
    {ms : List (JsString × Json)}
    (hvalue : prepared.get? planned.path = some (.obj ms))
    (h : saveResource server P prepared preparedNodes s planned =
      .ok after) :
    Round server P prepared preparedNodes done planned s after := by
  by_cases hroot : planned.path = []
  · rw [saveResource_root hroot] at h
    obtain rfl := Except.ok.inj h
    refine ⟨?_, ?_, fun hne => absurd hroot hne, fun hne => absurd hroot hne⟩
    · refine hworking.trans (Json.amend_congr (fun q hq => ?_) prepared)
      exact (references_append_of_ne fun heq => hq (heq.symm.trans hroot)).symm
    · simp [SaveState.save, savedDocument, embeddedValue, hroot, hworking]
  · obtain ⟨value, standalone, changes, hextract, hindexable, hresources,
      hafter⟩ := saveResource_nested hroot h
    have hget := get?_working hdeep hvalue
    rw [← hworking] at hget
    obtain ⟨fields, hfields⟩ : ∃ fields,
        embeddedValue prepared done planned.path = .obj fields := by
      rw [embeddedValue, hvalue, Option.getD_some, Json.amend_obj]
      exact ⟨_, rfl⟩
    rw [hfields] at hget
    obtain ⟨rfl, haccepts⟩ :=
      extractNested_eq_ok (valueAt_of_get? hget) hextract
    have hsaved : savedDocument server prepared preparedNodes done
        planned.path = .obj (materialize server
          (contextChain prepared preparedNodes planned.path) fields
          planned.path).1 := by
      simp [savedDocument, hroot, hfields]
    refine ⟨?_, by rw [hresources, hsaved], fun _ => hsaved ▸ haccepts,
      fun _ => hsaved ▸ hindexable⟩
    rcases hafter with ⟨hkept, hsame⟩ | ⟨hreference, hset⟩
    · rw [hsame, hworking, references_append hkept]
    · obtain ⟨init, segment, hpath⟩ : ∃ init segment,
          planned.path = init ++ [segment] :=
        ⟨_, _, (List.dropLast_append_getLast hroot).symm⟩
      rw [hpath, setAt_of_get? (hpath ▸ hget)] at hset
      obtain hset := Except.ok.inj hset
      rw [← hset, hworking]
      exact update_working hdistinct hdeep hpath (by rw [hvalue]; rfl)
        hreference

/-- Resources no deeper than a path are not below it. -/
theorem embeddedValue_append {done rest : List PlannedResource}
    {path : FieldPath} (hshallow : ∀ d ∈ rest, d.path.length ≤ path.length) :
    embeddedValue prepared (done ++ rest) path =
      embeddedValue prepared done path := by
  refine Json.amend_congr (fun q hq => ?_) _
  have hlonger : 0 < q.length := List.length_pos_of_ne_nil hq
  have hnone : rest.find? (fun resource => resource.path == path ++ q &&
      resource.representation == some .reference) = none := by
    refine List.find?_eq_none.mpr fun d hd hgood => ?_
    rw [Bool.and_eq_true, beq_iff_eq] at hgood
    have hlength := hshallow d hd
    rw [hgood.1, List.length_append] at hlength
    omega
  simp [references, Amendments.beneath, List.find?_append, hnone]

theorem savedDocument_append {done rest : List PlannedResource}
    {path : FieldPath} (hshallow : ∀ d ∈ rest, d.path.length ≤ path.length) :
    savedDocument server prepared preparedNodes (done ++ rest) path =
      savedDocument server prepared preparedNodes done path := by
  rw [savedDocument, embeddedValue_append hshallow, savedDocument]

/-- What the loop makes of the resources that are left. -/
structure Run (server : Server) (P : Platform) (prepared : Json)
    (preparedNodes : List FieldPath) (planned rest : List PlannedResource)
    (s after : SaveState) : Prop where
  working : after.working = prepared.amend (references planned)
  resources : after.resources = s.resources ++ rest.map fun resource =>
    prepareResource P resource
      (savedDocument server prepared preparedNodes planned resource.path)
  nested : ∀ resource ∈ rest, resource.path ≠ [] →
    (validateDocument P (savedDocument server prepared preparedNodes planned
        resource.path)).accepts = true ∧
      checkIndexable P (savedDocument server prepared preparedNodes planned
        resource.path) = []

theorem saveResources_run (hdistinct : prepared.Distinct)
    {rest : List PlannedResource}
    (hworking : s.working = prepared.amend (references done))
    (hdeep : (done ++ rest).Pairwise fun a b =>
      b.path.length ≤ a.path.length)
    (hnodup : ((done ++ rest).map fun r => r.path).Nodup)
    (hvalues : ∀ resource ∈ rest, ∃ ms,
      prepared.get? resource.path = some (.obj ms))
    (h : rest.foldlM (saveResource server P prepared preparedNodes) s =
      .ok after) :
    Run server P prepared preparedNodes (done ++ rest) rest s after := by
  induction rest generalizing done s with
  | nil =>
      obtain rfl := Except.ok.inj h
      exact ⟨by rw [List.append_nil, hworking], by simp,
        fun resource hmem => absurd hmem List.not_mem_nil⟩
  | cons planned rest ih =>
      obtain ⟨middle, hround, hrest⟩ := exists_of_bind_ok h
      obtain ⟨ms, hvalue⟩ := hvalues planned List.mem_cons_self
      have hbefore : ∀ d ∈ done, planned.path.length ≤ d.path.length ∧
          d.path ≠ planned.path := by
        intro d hd
        refine ⟨(List.pairwise_append.mp hdeep).2.2 d hd planned
          List.mem_cons_self, fun heq => ?_⟩
        rw [List.map_append, List.nodup_append] at hnodup
        exact hnodup.2.2 _ (List.mem_map_of_mem hd) _
          (List.mem_map_of_mem List.mem_cons_self) heq
      have hround := saveResource_round hworking hdistinct hbefore hvalue hround
      have hsplit : done ++ planned :: rest = (done ++ [planned]) ++ rest := by
        simp
      have hshallow : ∀ d ∈ planned :: rest,
          d.path.length ≤ planned.path.length := by
        intro d hd
        rcases List.mem_cons.mp hd with rfl | hd
        · exact le_refl _
        · have hpairs := (List.pairwise_append.mp hdeep).2.1
          exact (List.pairwise_cons.mp hpairs).1 d hd
      have hsaved : savedDocument server prepared preparedNodes
          (done ++ planned :: rest) planned.path =
          savedDocument server prepared preparedNodes done planned.path :=
        savedDocument_append hshallow
      rw [hsplit] at hdeep hnodup
      have hrun := ih hround.working hdeep hnodup
        (fun resource hmem => hvalues resource (List.mem_cons_of_mem _ hmem))
        hrest
      rw [← hsplit] at hrun
      refine ⟨hrun.working, ?_, ?_⟩
      · rw [hrun.resources, hround.resources, List.map_cons, hsaved,
          List.append_assoc, List.singleton_append]
      · intro resource hmem hne
        rcases List.mem_cons.mp hmem with rfl | hmem
        · rw [hsaved]
          exact ⟨hround.accepts hne, hround.indexable hne⟩
        · exact hrun.nested resource hmem hne

end Loop

end Saved

end DrFed.LocalWrite
