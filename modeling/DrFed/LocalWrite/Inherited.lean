import DrFed.Document.Inherited
import DrFed.LocalWrite.Created

/-!
# Contexts of saved documents

A nested resource is saved with the entries of all contexts on the way to it,
so that its document is read in the context that its part of the prepared
document was read in.
-/

namespace DrFed.LocalWrite

open Document Store

theorem valueAt_append (document : Json) (p q : FieldPath) :
    valueAt document (p ++ q) =
      (valueAt document p).bind fun value => valueAt value q := by
  induction p generalizing document with
  | nil => rfl
  | cons segment rest ih =>
      rw [List.cons_append, valueAt, valueAt, Option.bind_assoc]
      exact congrArg _ (funext fun value => ih value)

theorem valueAt_context {document : Json} {path : FieldPath}
    {ms : List (JsString × Json)} (h : document.get? path = some (.obj ms)) :
    valueAt document (path ++ [.key (js "@context")]) =
      ms.lookup (js "@context") := by
  rw [valueAt_append, valueAt_of_get? h, Option.bind_some, valueAt, ownProperty]
  cases ms.lookup (js "@context") <;> rfl

section Chain

variable {prepared : Json} {paths : List FieldPath}

/-- What one more segment adds to the chain. -/
theorem contextChain_concat (path : FieldPath) (segment : Segment) :
    contextChain prepared paths (path ++ [segment]) =
      contextChain prepared paths path ++
        if paths.contains (path ++ [segment]) then
          contextEntries (valueAt prepared
            (path ++ [segment] ++ [.key (js "@context")]))
        else [] := by
  have hshorter : ((List.range (path.length + 1)).flatMap fun length =>
      if paths.contains ((path ++ [segment]).take length) then
        contextEntries (valueAt prepared
          ((path ++ [segment]).take length ++ [.key (js "@context")]))
      else []) = (List.range (path.length + 1)).flatMap fun length =>
        if paths.contains (path.take length) then
          contextEntries
            (valueAt prepared (path.take length ++ [.key (js "@context")]))
        else [] := by
    refine List.flatMap_congr fun length hlength => ?_
    rw [List.take_append_of_le_length
      (Nat.lt_succ_iff.mp (List.mem_range.mp hlength))]
  have hlast : (path ++ [segment]).take (path.length + 1) =
      path ++ [segment] := List.take_of_length_le (by simp)
  unfold contextChain
  dsimp only
  rw [List.length_append, List.length_singleton, List.range_succ,
    List.flatMap_append, hshorter, List.flatMap_singleton, hlast]
  split <;> simp only [List.cons_append]

theorem contextChain_outside {path : FieldPath} {segment : Segment}
    (h : path ++ [segment] ∉ paths) :
    contextChain prepared paths (path ++ [segment]) =
      contextChain prepared paths path := by
  rw [contextChain_concat, if_neg (by simpa using h), List.append_nil]

theorem contextChain_inside {path : FieldPath} {segment : Segment}
    (h : path ++ [segment] ∈ paths) {ms : List (JsString × Json)}
    (hobject : prepared.get? (path ++ [segment]) = some (.obj ms)) :
    contextChain prepared paths (path ++ [segment]) =
      contextChain prepared paths path ++
        contextEntries (ms.lookup (js "@context")) := by
  rw [contextChain_concat, if_pos (by simpa using h), valueAt_context hobject]

theorem contextChain_start {ms : List (JsString × Json)} (h : [] ∈ paths) :
    contextChain (.obj ms) paths [] =
      if ((Json.obj ms).member? (js "@context")).isNone then
        .str activityStreamsContext ::
          contextEntries (ms.lookup (js "@context"))
      else contextEntries (ms.lookup (js "@context")) := by
  have hmem : paths.contains [] = true := by simpa using h
  have hvalue : valueAt (.obj ms) ([] ++ [.key (js "@context")]) =
      ms.lookup (js "@context") := valueAt_context rfl
  unfold contextChain
  simp only [List.length_nil, Nat.zero_add, List.range_one,
    List.flatMap_singleton, List.take_nil, hmem, if_true, hvalue]

/-- The entries on the way to the root are on the way to every document. -/
theorem contextChain_nil {path : FieldPath}
    (h : contextChain prepared paths path = []) :
    contextChain prepared paths [] = [] := by
  induction path using List.reverseRecOn with
  | nil => exact h
  | append_singleton path segment ih =>
      rw [contextChain_concat, List.append_eq_nil_iff] at h
      exact ih h.1

theorem mem_contextEntries {value : Option Json} {entry : Json} :
    entry ∈ contextEntries value ↔
      ∃ found, value = some found ∧ entry ∈ Document.contextEntries found := by
  cases value with
  | none => simp [contextEntries]
  | some found => cases found <;> simp [contextEntries, Document.contextEntries]

theorem contextEntries_some (value : Json) :
    contextEntries (some value) = Document.contextEntries value := by
  cases value <;> rfl

end Chain

section Platform

variable {P : Platform} {prepared : Json} {root node : Node Json}
  {paths : List FieldPath}

variable (P) in
/-- The bundled context that is assumed without another. -/
theorem contextStep_standard : ContextStep P (.str activityStreamsContext) []
    P.standardTerms := by
  obtain ⟨standard, security, -, -, heq, htables⟩ := P.tables_cases
  have hstep := ContextStep.bundled (P := P) activityStreamsContext
    activityStreamsContext standard [] (by decide)
    (by rw [htables, AssocList.lookup_cons_eq, if_pos rfl])
  rwa [← heq, putAll_append (by simpa using (standardTerms_wellFormed P).nodup),
    List.nil_append] at hstep

variable (hdistinct : prepared.Distinct) (haccepted : Accepted P prepared root)
  (hpaths : ∀ path, path ∈ paths ↔ ∃ n, Reaches P root n ∧ n.path = path)

include hdistinct haccepted hpaths

theorem contextChain_root :
    ContextRun P (contextChain prepared paths []) [] root.context ∧
      (contextChain prepared paths [] = [] → P.standardTerms = []) := by
  have hroot := haccepted.nodeAt hdistinct .refl
  have hpath := haccepted.root_path
  obtain ⟨ms, hobject, -⟩ := hroot.values
  rw [hpath, Json.get?_nil] at hobject
  obtain rfl := Option.some.inj hobject
  have hcontext := hroot.context
  rw [hpath] at hcontext
  rw [contextChain_start ((hpaths []).mpr ⟨root, .refl, hpath⟩)]
  rcases ownContext_eq_some (Json.distinct_obj.mp hdistinct).1 hcontext with
    ⟨hnone, hstandard⟩ | ⟨value, hvalue, hrun, hkeeps⟩
  · rw [if_pos (by simpa [Json.member?] using hnone), hnone, hstandard]
    refine ⟨.cons (contextStep_standard P) (.nil _), fun h => ?_⟩
    cases h
  · rw [if_neg (by simp [Json.member?, hvalue]), hvalue, contextEntries_some]
    refine ⟨hrun, fun hempty => ?_⟩
    rw [hempty] at hrun
    rw [hrun.unique (.nil _)] at hkeeps
    refine List.eq_nil_iff_forall_not_mem.mpr fun entry hentry => ?_
    cases hkeeps entry hentry

/-- The entries on the way to an embedded document are those on the way to
the document that embeds it, and its own. -/
theorem contextChain_embedded {parent child : Node Json}
    (hparent : Reaches P root parent) (hembedded : Embedded P parent child)
    {ms : List (JsString × Json)}
    (hobject : prepared.get? child.path = some (.obj ms)) :
    contextChain prepared paths child.path =
      contextChain prepared paths parent.path ++
        contextEntries (ms.lookup (js "@context")) := by
  have hmem := (hpaths child.path).mpr ⟨child, hparent.tail hembedded, rfl⟩
  obtain ⟨key, name, -, -, -, hpath | ⟨i, hpath⟩⟩ :=
    haccepted.embedsAt hdistinct hparent hembedded
  · rw [hpath] at hmem hobject ⊢
    exact contextChain_inside hmem hobject
  · have hsplit : parent.path ++ [Segment.key key, .index i] =
        parent.path ++ [.key key] ++ [.index i] := by simp
    rw [hpath, hsplit] at hmem hobject ⊢
    rw [contextChain_inside hmem hobject, contextChain_outside]
    intro hlist
    obtain ⟨other, hother, hotherPath⟩ := (hpaths _).mp hlist
    obtain ⟨fields, hfields⟩ := haccepted.get?_reached hdistinct hother
    rw [hotherPath] at hfields
    rw [Json.get?_concat, hfields] at hobject
    cases hobject

/-- The entries on the way to a document end with its own. -/
theorem contextChain_own (hreach : Reaches P root node)
    {ms : List (JsString × Json)}
    (hobject : prepared.get? node.path = some (.obj ms)) :
    ∃ before, contextChain prepared paths node.path =
      before ++ contextEntries (ms.lookup (js "@context")) := by
  rcases Relation.ReflTransGen.cases_tail hreach with rfl |
    ⟨parent, hparent, hembedded⟩
  · have hpath := haccepted.root_path
    rw [hpath, Json.get?_nil] at hobject
    obtain rfl := Option.some.inj hobject
    have hmem := (hpaths []).mpr ⟨node, .refl, hpath⟩
    rw [hpath, contextChain_start hmem]
    split
    · exact ⟨[_], rfl⟩
    · exact ⟨[], rfl⟩
  · exact ⟨_, contextChain_embedded hdistinct haccepted hpaths hparent
      hembedded hobject⟩

/-- The context of a document is that of the entries on the way to it. -/
theorem contextChain_run (hreach : Reaches P root node) :
    ContextRun P (contextChain prepared paths node.path) [] node.context := by
  induction hreach with
  | refl =>
      rw [haccepted.root_path]
      exact (contextChain_root hdistinct haccepted hpaths).1
  | @tail parent child hparent hembedded ih =>
      have hchild := haccepted.nodeAt hdistinct (hparent.tail hembedded)
      obtain ⟨ms, hobject, -⟩ := hchild.values
      have hown := (haccepted.nodeAt hdistinct hparent).contextAt_embedded
        hdistinct (haccepted.embedsAt hdistinct hparent hembedded) hobject
      rw [hchild.context] at hown
      rw [contextChain_embedded hdistinct haccepted hpaths hparent hembedded
        hobject]
      refine ih.append ?_
      rcases ownContext_eq_some (Json.distinct_obj.mp (hdistinct.get?
        hobject)).1 hown.symm with ⟨hnone, hcontext⟩ | ⟨value, hvalue, hrun, -⟩
      · rw [hnone, hcontext]
        exact .nil _
      · rw [hvalue, contextEntries_some]
        exact hrun

theorem contextChain_distinct (hreach : Reaches P root node) :
    ∀ entry ∈ contextChain prepared paths node.path, entry.Distinct := by
  have hown : ∀ {n : Node Json} {ms : List (JsString × Json)},
      prepared.get? n.path = some (.obj ms) →
      ∀ entry ∈ contextEntries (ms.lookup (js "@context")),
        entry.Distinct := by
    intro n ms hobject entry hentry
    obtain ⟨value, hvalue, hmem⟩ := mem_contextEntries.mp hentry
    exact distinct_contextEntries ((Json.distinct_obj.mp (hdistinct.get?
      hobject)).2 _ (AssocList.mem_of_lookup_eq_some hvalue)) hmem
  induction hreach with
  | refl =>
      have hpath := haccepted.root_path
      obtain ⟨ms, hobject⟩ := haccepted.get?_reached hdistinct .refl
      have hentries := hown hobject
      rw [hpath, Json.get?_nil] at hobject
      obtain rfl := Option.some.inj hobject
      rw [hpath, contextChain_start ((hpaths []).mpr ⟨root, .refl, hpath⟩)]
      split
      · exact List.forall_mem_cons.mpr ⟨trivial, hentries⟩
      · exact hentries
  | @tail parent child hparent hembedded ih =>
      obtain ⟨ms, hobject⟩ :=
        haccepted.get?_reached hdistinct (hparent.tail hembedded)
      rw [contextChain_embedded hdistinct haccepted hpaths hparent hembedded
        hobject]
      exact List.forall_mem_append.mpr ⟨ih, hown hobject⟩

end Platform

/-! ## Stating the chain -/

section Materialized

variable {P : Platform} {chain : List Json} {context : Terms}

theorem contextEntries_chainContext (h : ContextRun P chain [] context) :
    Document.contextEntries (chainContext chain) = chain := by
  unfold chainContext
  split
  · obtain ⟨before, after, hstep⟩ := h.step (List.mem_singleton_self _)
    exact hstep.contextEntries_eq
  · rfl

theorem distinct_chainContext (hdistinct : ∀ entry ∈ chain, entry.Distinct) :
    (chainContext chain).Distinct := by
  unfold chainContext
  split
  · exact hdistinct _ (List.mem_singleton_self _)
  · exact Json.distinct_arr.mpr hdistinct

theorem numberless_chainContext (h : ContextRun P chain [] context)
    (hdistinct : ∀ entry ∈ chain, entry.Distinct) :
    (chainContext chain).Numberless := by
  refine numberless_of_contextEntries fun entry hentry => ?_
  rw [contextEntries_chainContext h] at hentry
  exact h.numberless hentry (hdistinct entry hentry)

/-- A saved resource states the entries of its chain, if there are any. -/
theorem lookup_materialize (server : Server) (path : FieldPath)
    {ms : List (JsString × Json)} {before : List Json}
    (h : ContextRun P chain [] context)
    (hdistinct : ∀ entry ∈ chain, entry.Distinct)
    (hown : chain = before ++ contextEntries (ms.lookup (js "@context"))) :
    (chain = [] ∧ (materialize server chain ms path).1 = ms) ∨
      (materialize server chain ms path).1.lookup (js "@context") =
        some (chainContext chain) := by
  unfold materialize
  dsimp only
  split
  next hsame =>
    rw [Bool.or_eq_true, List.isEmpty_iff, decide_eq_true_iff] at hsame
    rcases hsame with hempty | htext
    · exact .inl ⟨hempty, rfl⟩
    · refine .inr ?_
      cases hvalue : ms.lookup (js "@context") with
      | none =>
          rw [hvalue, Option.getD_none] at htext
          have hnull : chainContext chain = .null :=
            Json.stringify_injective_of_numberless
              (numberless_chainContext h hdistinct) trivial htext
          have hentries := contextEntries_chainContext h
          rw [hnull] at hentries
          rw [← hentries] at h
          obtain ⟨first, last, hstep⟩ := h.step (List.mem_singleton_self _)
          cases hstep
      | some value =>
          rw [hvalue, Option.getD_some] at htext
          refine congrArg some (Json.stringify_injective_of_numberless
            (numberless_chainContext h hdistinct) ?_ htext).symm
          refine numberless_of_contextEntries fun entry hentry => ?_
          have hmem : entry ∈ chain := by
            rw [hown, hvalue, contextEntries_some]
            exact List.mem_append_right _ hentry
          exact h.numberless hmem (hdistinct entry hmem)
  next =>
    refine .inr ?_
    rw [AssocList.lookup_put, if_pos rfl]

end Materialized

section Saved

variable {P : Platform} {server : Server} {prepared : Json}
  {root node : Node Json} {paths : List FieldPath}

/-- A nested resource is read in the context of its part. -/
theorem context_materialize (hdistinct : prepared.Distinct)
    (haccepted : Accepted P prepared root)
    (hpaths : ∀ path, path ∈ paths ↔ ∃ n, Reaches P root n ∧ n.path = path)
    (hreach : Reaches P root node) {ms fields : List (JsString × Json)}
    (hobject : prepared.get? node.path = some (.obj ms))
    (hkept : fields.lookup (js "@context") = ms.lookup (js "@context"))
    {root' : Node Json} (hnodup : ((materialize server
      (contextChain prepared paths node.path) fields node.path).1.map
        Prod.fst).Nodup)
    (haccepted' : Accepted P (.obj (materialize server
      (contextChain prepared paths node.path) fields node.path).1) root')
    (hnode' : NodeAt P (.obj (materialize server
      (contextChain prepared paths node.path) fields node.path).1) root') :
    root'.context = node.context := by
  have hrun := contextChain_run hdistinct haccepted hpaths hreach
  obtain ⟨before, hown⟩ :=
    contextChain_own hdistinct haccepted hpaths hreach hobject
  rw [← hkept] at hown
  have hcontext := hnode'.context
  rw [haccepted'.root_path] at hcontext
  rcases lookup_materialize server node.path hrun
    (contextChain_distinct hdistinct haccepted hpaths hreach) hown with
    ⟨hempty, hsame⟩ | hstated
  · have hstandard := (contextChain_root hdistinct haccepted hpaths).2
      (contextChain_nil hempty)
    rw [hempty] at hrun
    rw [hempty, eq_comm, List.append_eq_nil_iff] at hown
    rw [hrun.unique (.nil _)]
    rcases ownContext_eq_some hnodup hcontext with ⟨-, hassumed⟩ |
      ⟨value, hvalue, hrun', -⟩
    · rw [hassumed, Option.getD_none, hstandard]
    · rw [hsame] at hvalue
      rw [hvalue, contextEntries_some] at hown
      rw [hown.2] at hrun'
      exact hrun'.unique (.nil _)
  · rcases ownContext_eq_some hnodup hcontext with ⟨hnone, -⟩ |
      ⟨value, hvalue, hrun', -⟩
    · rw [hstated] at hnone
      cases hnone
    · rw [hstated] at hvalue
      rw [← Option.some.inj hvalue, contextEntries_chainContext hrun] at hrun'
      exact hrun'.unique hrun

end Saved

end DrFed.LocalWrite
