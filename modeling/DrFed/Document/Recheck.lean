import Mathlib.Data.List.Induction
import DrFed.Document.Amended

/-!
# Checking a preview again

Validation checks the preview of the omissions that it proposes.  The preview
is the document with these fields dropped, so the second walk finds nothing
that the first one did not find, and validation accepts exactly the documents
that one walk accepts.
-/

namespace DrFed.Document

/-! ## Short reports -/

namespace Reporter

/-- As long as there are few findings, all of them are kept. -/
theorem reportAll_of_few {r : Reporter} (htruncated : r.truncated = false)
    {ds : List Diagnostic}
    (hfew : r.diagnostics.length + ds.length ≤ maximumDiagnostics) :
    r.reportAll ds =
      { diagnostics := r.diagnostics ++ ds
        complete := r.complete && ds.all fun d => d.category != .support
        truncated := false } := by
  induction ds generalizing r with
  | nil =>
      obtain ⟨diagnostics, complete, truncated⟩ := r
      cases htruncated
      simp [reportAll]
  | cons d ds ih =>
      rw [List.length_cons] at hfew
      have hne : r.diagnostics.length ≠ maximumDiagnostics := by omega
      have hstep : r.report d =
          { diagnostics := r.diagnostics ++ [d]
            complete := r.complete && d.category != .support
            truncated := false } := by
        simp [report, htruncated, hne]
      have hrest := @ih (r.report d) (by rw [hstep]) (by
        rw [hstep, List.length_append, List.length_singleton]
        omega)
      change (r.report d).reportAll ds = _
      rw [hrest, hstep]
      simp [Bool.and_assoc]

/-- With too many findings the report is cut off. -/
theorem truncated_of_many {r : Reporter} {ds : List Diagnostic}
    (hmany : maximumDiagnostics < r.diagnostics.length + ds.length)
    (hfit : r.diagnostics.length ≤ maximumDiagnostics) :
    (r.reportAll ds).truncated = true := by
  induction ds generalizing r with
  | nil =>
      rw [List.length_nil] at hmany
      omega
  | cons d ds ih =>
      have hstay : ∀ (r : Reporter) (ds : List Diagnostic),
          r.truncated = true → (r.reportAll ds).truncated = true := by
        intro r ds h
        induction ds with
        | nil => exact h
        | cons e es ih =>
            change ((r.report e).reportAll es).truncated = true
            rw [report, if_pos h]
            exact ih
      change ((r.report d).reportAll ds).truncated = true
      by_cases htruncated : r.truncated = true
      · exact hstay _ _ (by rw [report, if_pos htruncated]; exact htruncated)
      · by_cases hfull : r.diagnostics.length = maximumDiagnostics
        · exact hstay _ _ (by rw [report, if_neg htruncated, if_pos hfull])
        · rw [List.length_cons] at hmany
          refine ih ?_ ?_
          · rw [report, if_neg htruncated, if_neg hfull]
            simp only [List.length_append, List.length_singleton]
            omega
          · rw [report, if_neg htruncated, if_neg hfull]
            simp only [List.length_append, List.length_singleton]
            omega

/-- What a fresh reporter accepts. -/
theorem createReporter_accepts {ds : List Diagnostic} :
    (createReporter.reportAll ds).accepts = true ↔
      hasError ds = false ∧ ds.length ≤ maximumDiagnostics := by
  have hsound := createReporter_sound.reportAll ds
  constructor
  · intro haccepts
    refine ⟨(accepts_reportAll createReporter_sound haccepts).2, ?_⟩
    by_contra hmany
    have htruncated : (createReporter.reportAll ds).truncated = true := by
      apply truncated_of_many
      · simp only [createReporter, List.length_nil]
        omega
      · exact Nat.zero_le _
    rw [hsound.accepts_iff, hsound.truncated htruncated] at haccepts
    cases haccepts
  · rintro ⟨hquiet, hfew⟩
    rw [hsound.accepts_iff, reportAll_of_few rfl (by
      simp only [createReporter, List.length_nil]
      omega)]
    exact hquiet

end Reporter

section Platform

variable {P : Platform}

/-! ## What one walk accepts -/

theorem reportsOf_append {ι : Type} (events others : Item ι) :
    reportsOf (events ++ others) = reportsOf events ++ reportsOf others :=
  List.filterMap_append

/-- A run with few findings runs all of its items. -/
theorem WalkState.runItems_of_few {ι : Type} {s : WalkState ι}
    (htruncated : s.reporter.truncated = false) {items : List (Item ι)}
    (hfew : s.reporter.diagnostics.length +
      (reportsOf items.flatten).length ≤ maximumDiagnostics) :
    s.runItems items = s.runItem items.flatten := by
  induction items generalizing s with
  | nil => rfl
  | cons item rest ih =>
      rw [List.flatten_cons, reportsOf_append, List.length_append] at hfew
      have hstep : (s.runItem item).reporter =
          s.reporter.reportAll (reportsOf item) := by rw [runItem_eq]
      have hreporter : s.reporter.reportAll (reportsOf item) = _ :=
        Reporter.reportAll_of_few htruncated (by omega)
      rw [runItems, htruncated, if_neg Bool.false_ne_true, List.flatten_cons,
        runItem_append]
      apply ih
      · rw [hstep, hreporter]
      · rw [hstep, hreporter, List.length_append]
        omega

variable (P) in
/-- All events of the walk over a document. -/
def documentEvents (document : Json) : Item Json :=
  walkEvents (checkDocument P Json.tree walkFuel [] document [] none none none)

/-- A walk with few findings runs all of its events. -/
theorem checkDocumentValue_of_few {document : Json}
    (hfew : (reportsOf (documentEvents P document)).length ≤
      maximumDiagnostics) :
    checkDocumentValue P Json.tree document =
      WalkState.start.runItem (documentEvents P document) := by
  rw [documentEvents, walkEvents] at hfew ⊢
  rw [reportsOf_append, List.length_append] at hfew
  rw [WalkState.runItem_append]
  have hstart : (WalkState.start (ι := Json)).reporter = createReporter := rfl
  have hfirst : createReporter.reportAll (reportsOf (checkDocument P Json.tree
      walkFuel [] document [] none none none).1) = _ :=
    Reporter.reportAll_of_few rfl (by
      simp only [createReporter, List.length_nil]
      omega)
  apply WalkState.runItems_of_few <;>
    rw [WalkState.runItem_eq, hstart, hfirst]
  simp only [createReporter, List.nil_append]
  exact hfew

theorem runItem_documentEvents_reporter (document : Json) :
    (WalkState.start.runItem (documentEvents P document)).reporter =
      createReporter.reportAll (reportsOf (documentEvents P document)) := by
  rw [WalkState.runItem_eq]
  rfl

/-- An accepted walk runs all of its events. -/
theorem checkDocumentValue_of_accepts {document : Json}
    (haccepts :
      (checkDocumentValue P Json.tree document).reporter.accepts = true) :
    checkDocumentValue P Json.tree document =
      WalkState.start.runItem (documentEvents P document) := by
  have hsound : (WalkState.start.runItem (checkDocument P Json.tree walkFuel []
      document [] none none none).1).reporter.Sound := by
    rw [WalkState.runItem_eq]
    exact Reporter.createReporter_sound.reportAll _
  rw [documentEvents, walkEvents, WalkState.runItem_append]
  exact WalkState.runItems_of_accepts hsound haccepts

/-- A walk is accepted when it reports no error and few findings. -/
theorem checkDocumentValue_accepts {document : Json} :
    (checkDocumentValue P Json.tree document).reporter.accepts = true ↔
      hasError (reportsOf (documentEvents P document)) = false ∧
        (reportsOf (documentEvents P document)).length ≤ maximumDiagnostics := by
  rw [← Reporter.createReporter_accepts, ← runItem_documentEvents_reporter]
  constructor
  · intro haccepts
    rw [← checkDocumentValue_of_accepts haccepts]
    exact haccepts
  · intro haccepts
    have hfew := haccepts
    rw [runItem_documentEvents_reporter, Reporter.createReporter_accepts] at hfew
    rw [checkDocumentValue_of_few hfew.2]
    exact haccepts

/-- What an accepted walk leaves. -/
theorem checkDocumentValue_eq {document : Json}
    (haccepts :
      (checkDocumentValue P Json.tree document).reporter.accepts = true) :
    (checkDocumentValue P Json.tree document).reporter.diagnostics =
        reportsOf (documentEvents P document) ∧
      (checkDocumentValue P Json.tree document).changes =
        changesOf (documentEvents P document) ∧
      (checkDocumentValue P Json.tree document).visited =
        visitsOf (documentEvents P document) := by
  have hfew := (checkDocumentValue_accepts.mp haccepts).2
  have hreporter : createReporter.reportAll
      (reportsOf (documentEvents P document)) = _ :=
    Reporter.reportAll_of_few rfl (by
      simp only [createReporter, List.length_nil]
      omega)
  rw [checkDocumentValue_of_accepts haccepts]
  refine ⟨?_, ?_, ?_⟩
  · rw [runItem_documentEvents_reporter, hreporter]
    rfl
  · rw [WalkState.runItem_eq]
    rfl
  · rw [WalkState.runItem_eq]
    rfl

/-! ## Amended documents -/

/-- The walk over an amended document is accepted, with findings among those
of the document, and proposes only changes of fields that were kept. -/
theorem checkDocumentValue_amended {ρ : Amendments} {document : Json}
    {root : Node Json} (hdistinct : document.Distinct)
    (haccepts :
      (checkDocumentValue P Json.tree document).reporter.accepts = true)
    (haccepted : Accepted P document root) (hamends : Amends P ρ root) :
    let walk := checkDocumentValue P Json.tree document
    let amended := checkDocumentValue P Json.tree (document.amend ρ)
    amended.reporter.accepts = true ∧
      amended.reporter.diagnostics ⊆ walk.reporter.diagnostics ∧
      ∀ change ∈ amended.changes,
        change ∈ walk.changes ∧ ρ change.path = .keep := by
  obtain ⟨hquiet, hfew⟩ := checkDocumentValue_accepts.mp haccepts
  obtain ⟨findings, hread⟩ := haccepted.read
  have hwithin : Within ρ (documentEvents P (document.amend ρ))
      (documentEvents P document) :=
    checkDocument_amended hdistinct (quiet_iff.mpr hquiet) hread hamends
  have hamended : (checkDocumentValue P Json.tree
      (document.amend ρ)).reporter.accepts = true := by
    rw [checkDocumentValue_accepts]
    refine ⟨?_, hwithin.reports.length_le.trans hfew⟩
    rw [hasError, List.any_eq_false] at hquiet ⊢
    exact fun d hd => hquiet d (hwithin.reports.subset hd)
  obtain ⟨hdiagnostics, hchanges, -⟩ := checkDocumentValue_eq haccepts
  obtain ⟨hdiagnostics', hchanges', -⟩ := checkDocumentValue_eq hamended
  refine ⟨hamended, ?_, ?_⟩
  · rw [hdiagnostics, hdiagnostics']
    exact hwithin.reports.subset
  · intro change hchange
    rw [hchanges', mem_changesOf] at hchange
    rw [hchanges, mem_changesOf]
    exact hwithin.changes change hchange

/-! ## Proposed omissions -/

/-- The amendments that drop what changes remove. -/
def omissions (changes : List Change) : Amendments := fun path =>
  if changes.any fun change => change.path == path then .drop else .keep

theorem omissions_eq_keep {changes : List Change} {path : FieldPath} :
    omissions changes path = .keep ↔
      ∀ change ∈ changes, change.path ≠ path := by
  unfold omissions
  split
  next h =>
    obtain ⟨change, hmem, heq⟩ := List.any_eq_true.mp h
    refine ⟨(fun h => nomatch h), fun hne => ?_⟩
    exact absurd (beq_iff_eq.mp heq) (hne change hmem)
  next h =>
    refine ⟨fun _ change hmem heq => h ?_, fun _ => rfl⟩
    exact List.any_eq_true.mpr ⟨change, hmem, beq_iff_eq.mpr heq⟩

section Omissions

variable {document : Json} {root : Node Json}

/-- The omissions that a walk proposes are amendments of its document. -/
theorem amends_omissions (hdistinct : document.Distinct)
    (haccepted : Accepted P document root) :
    Amends P (omissions (checkDocumentValue P Json.tree document).changes)
      root := by
  intro node hnode
  have hnodeAt := haccepted.nodeAt hdistinct hnode
  constructor
  · intro rest
    rw [omissions_eq_keep]
    intro change hchange hpath
    obtain ⟨field, hfield, hsource, -⟩ :=
      haccepted.change_below hdistinct hchange hnode hpath
    have hmem := (mem_checkedFields.mp hfield).1
    rw [hnodeAt.fields, mem_readFields] at hmem
    obtain ⟨entry, -, hne, rfl⟩ := hmem
    exact hne (by simpa using hsource)
  · intro field hfield
    by_cases hdrop : ∃ change, field ∈ node.checkedFields ∧
        .change change ∈ (node.check P Json.tree field).1
    · obtain ⟨change, hchecked, hevent⟩ := hdrop
      refine .omitted ?_ ⟨change, hevent⟩
      have hmem := (haccepted.changes change).mpr
        ⟨node, hnode, field, hchecked, hevent⟩
      obtain ⟨⟨reason, message, heq, -⟩, -⟩ := check_change P hevent
      unfold omissions
      rw [if_pos]
      refine List.any_eq_true.mpr ⟨change, hmem, ?_⟩
      rw [heq]
      exact beq_self_eq_true _
    · -- No change is at the field, so those below it are below what it holds.
      have hbelow : ∀ change ∈ (checkDocumentValue P Json.tree
          document).changes, ∀ rest,
          change.path = node.path ++ .key field.source :: rest →
            rest ≠ [] ∧ ∃ child, HeldBy P node field child := by
        intro change hchange rest hpath
        obtain ⟨held, hheld, hsource, hcase⟩ :=
          haccepted.change_below hdistinct hchange hnode hpath
        obtain rfl := hnodeAt.field_unique hdistinct
          (mem_checkedFields.mp hheld).1 hfield hsource
        rcases hcase with ⟨-, hevent⟩ | hchild
        · exact absurd ⟨change, hheld, hevent⟩ hdrop
        · exact hchild
      by_cases hfollow : ∃ visits key range,
          (node.check P Json.tree field).2 = .references visits key range
      · obtain ⟨visits, key, range, hfollow⟩ := hfollow
        have hkeep : omissions (checkDocumentValue P Json.tree
            document).changes (node.path ++ [.key field.source]) = .keep := by
          rw [omissions_eq_keep]
          intro change hchange hpath
          exact (hbelow change hchange [] hpath).1 rfl
        refine .references visits key range hfollow (fun _ _ => hkeep) ?_
        intro entry path hentry
        left
        rcases valueEntries_path hentry with ⟨rfl, -⟩ | ⟨i, -, rfl, -⟩
        · exact hkeep
        · rw [omissions_eq_keep]
          intro change hchange hpath
          obtain ⟨-, other, name, hlast⟩ := haccepted.change_last hchange
          rw [hlast] at hpath
          obtain ⟨-, hsegment⟩ := List.append_inj' hpath rfl
          cases hsegment
      · refine .untouched fun rest => ?_
        rw [omissions_eq_keep]
        intro change hchange hpath
        obtain ⟨-, child, visits, key, range, hrefs, -⟩ :=
          hbelow change hchange rest hpath
        exact hfollow ⟨visits, key, range, hrefs⟩

/-- Distinct omissions of a walk are not below one another. -/
theorem not_below_change (hdistinct : document.Distinct)
    (haccepted : Accepted P document root) {change other : Change}
    (hchange : change ∈ (checkDocumentValue P Json.tree document).changes)
    (hother : other ∈ (checkDocumentValue P Json.tree document).changes)
    (hne : change.path ≠ other.path) : ¬ change.path <+: other.path := by
  intro hbelow
  obtain ⟨node, hnode, field, hfield, hevent⟩ :=
    (haccepted.changes change).mp hchange
  obtain ⟨⟨reason, message, rfl, -⟩, -⟩ := check_change P hevent
  obtain ⟨rest, hrest⟩ := hbelow
  have hpath : other.path = node.path ++ .key field.source :: rest := by
    rw [← hrest]
    exact List.append_assoc _ _ _
  obtain ⟨held, hheld, hsource, hcase⟩ :=
    haccepted.change_below hdistinct hother hnode hpath
  obtain rfl := (haccepted.nodeAt hdistinct hnode).field_unique hdistinct
    (mem_checkedFields.mp hheld).1 (mem_checkedFields.mp hfield).1 hsource
  rcases hcase with ⟨rfl, -⟩ | ⟨-, child, hchild⟩
  · exact hne (by simpa using hrest)
  · exact hchild.no_change _ hevent

/-- The omissions of a walk are at different positions, none of them below
another. -/
theorem changes_apart (hdistinct : document.Distinct)
    (haccepts :
      (checkDocumentValue P Json.tree document).reporter.accepts = true)
    (haccepted : Accepted P document root) :
    (checkDocumentValue P Json.tree document).changes.Pairwise
      fun change other => change.path ≠ other.path ∧
        ¬ change.path <+: other.path ∧ ¬ other.path <+: change.path := by
  have hordered : WalkOrdered P root (documentEvents P document) := by
    obtain ⟨findings, hread⟩ := haccepted.read
    exact checkDocument_ordered hdistinct
      (quiet_iff.mpr (checkDocumentValue_accepts.mp haccepts).1) hread
  have hnodup := hordered.nodup.sublist (changes_sublist _)
  rw [← (checkDocumentValue_eq haccepts).2.1, List.Nodup, List.pairwise_map]
    at hnodup
  exact hnodup.imp_of_mem fun {change other} hchange hother hne =>
    ⟨hne, not_below_change hdistinct haccepted hchange hother hne,
      not_below_change hdistinct haccepted hother hchange hne.symm⟩

/-- The preview of removals, at positions that are not below one another, is
the document with these positions dropped. -/
theorem createPreview_eq_amend {changes : List Change}
    (hdistinct : document.Distinct)
    (hchanges : ∀ change ∈ changes, change.after? = none ∧
      ∃ path key, change.path = path ++ [.key key])
    (hpaths : changes.Pairwise fun change other =>
      ¬ change.path <+: other.path) :
    createPreview document changes = document.amend (omissions changes) := by
  induction changes using List.reverseRecOn with
  | nil =>
      have hkeep : ∀ q, q ≠ [] → omissions [] q = .keep := fun _ _ => rfl
      exact (Json.amend_of_keep _ hkeep document).symm
  | append_singleton changes change ih =>
      rw [List.pairwise_append] at hpaths
      have hprevious := ih
        (fun other hother => hchanges other (List.mem_append_left _ hother))
        hpaths.1
      obtain ⟨hafter, path, key, hpath⟩ :=
        hchanges change (List.mem_append_right _ (List.mem_singleton_self _))
      have hamended : (document.amend (omissions changes)).Distinct := by
        refine hdistinct.amend fun p value hput => ?_
        unfold omissions at hput
        split at hput <;> cases hput
      have happly : applyChange (document.amend (omissions changes)) change =
          (document.amend (omissions changes)).amend
            (Amendments.single change.path .drop) := by
        rw [applyChange, updateParent, hpath, List.getLast?_concat,
          List.dropLast_concat]
        refine Json.update_amend path hamended fun child _ => ?_
        rw [editChild, hafter]
        exact Json.removeChild_amend child key
      have hclear : (Amendments.single change.path .drop).Clear
          (omissions changes) := by
        intro q r hq hr hne
        have hqpath : q = change.path := by
          by_contra hother
          exact hq (by rw [Amendments.single, if_neg hother])
        rw [omissions_eq_keep]
        rintro other hother rfl
        exact hpaths.2.2 other hother change (List.mem_singleton_self _)
          (hqpath ▸ hr)
      rw [createPreview_append, hprevious]
      change applyChange (document.amend (omissions changes)) change = _
      rw [happly, Json.amend_amend hclear]
      congr 1
      funext q
      unfold Amendments.onto Amendments.single omissions
      rw [List.any_append]
      by_cases hq : q = change.path
      · simp [hq]
      · have hne : ¬ change.path = q := fun h => hq h.symm
        simp [hq, hne]

/-- The preview of an accepted walk. -/
theorem preview_eq_amend (hdistinct : document.Distinct)
    (haccepts :
      (checkDocumentValue P Json.tree document).reporter.accepts = true)
    (haccepted : Accepted P document root) :
    createPreview document (checkDocumentValue P Json.tree document).changes =
      document.amend
        (omissions (checkDocumentValue P Json.tree document).changes) := by
  refine createPreview_eq_amend hdistinct
    (fun change hchange => haccepted.change_last hchange) ?_
  exact (changes_apart hdistinct haccepts haccepted).imp fun h => h.2.1

/-- The walk over the preview of an accepted walk finds nothing new and
proposes no change. -/
theorem recheck (hdistinct : document.Distinct)
    (haccepts :
      (checkDocumentValue P Json.tree document).reporter.accepts = true) :
    let walk := checkDocumentValue P Json.tree document
    let again := checkDocumentValue P Json.tree
      (createPreview document walk.changes)
    again.reporter.accepts = true ∧
      again.reporter.diagnostics ⊆ walk.reporter.diagnostics ∧
      again.changes = [] := by
  obtain ⟨root, haccepted⟩ := exists_accepted P haccepts
  obtain ⟨hagain, hdiagnostics, hchanges⟩ := checkDocumentValue_amended
    hdistinct haccepts haccepted (amends_omissions hdistinct haccepted)
  dsimp only
  rw [preview_eq_amend hdistinct haccepts haccepted]
  refine ⟨hagain, hdiagnostics, ?_⟩
  rw [List.eq_nil_iff_forall_not_mem]
  intro change hchange
  obtain ⟨hmem, hkeep⟩ := hchanges change hchange
  exact omissions_eq_keep.mp hkeep change hmem rfl

/-- An accepted document has a member. -/
theorem memberCount_pos (haccepted : Accepted P document root) :
    0 < memberCount document := by
  obtain ⟨findings, hread⟩ := haccepted.read
  have hnode := readNode_eq_some P hread
  obtain ⟨ms, rfl, hvalues⟩ := hnode.values
  obtain ⟨-, hcheck⟩ := checkDocumentType_eq_ok.mp hnode.type
  obtain ⟨text, htext⟩ := checkType_eq_ok hcheck
  have hmem := AssocList.mem_of_lookup_eq_some htext
  rw [hvalues, mem_ownProperties] at hmem
  cases ms with
  | nil => cases hmem
  | cons entry rest =>
      rw [memberCount, memberCountMembers]
      omega

end Omissions

/-! ## Validation -/

theorem Reporter.result_accepts (r : Reporter) : r.result.accepts = r.accepts :=
  rfl

/-- Findings that were reported before are not reported again. -/
theorem reportPreviewDiagnostics_of_subset {checked : List Diagnostic}
    {r : Reporter} (h : checked ⊆ r.diagnostics) :
    reportPreviewDiagnostics checked r = r := by
  unfold reportPreviewDiagnostics
  refine List.foldlRecOn (motive := fun s : Reporter => s = r) _ _ rfl ?_
  rintro s rfl d hd
  rw [if_pos]
  exact List.any_eq_true.mpr ⟨d, h hd, by simp⟩

/-- What validation makes of an accepted walk. -/
theorem validateWithin_of_accepts {fuel : ℕ} {document : Json}
    (hdistinct : document.Distinct)
    (haccepts :
      (checkDocumentValue P Json.tree document).reporter.accepts = true) :
    let walk := checkDocumentValue P Json.tree document
    validateWithin P (fuel + 2) document =
      { complete := true
        diagnostics := walk.reporter.diagnostics
        normalizedDocument :=
          if walk.changes = [] then none
          else some (createPreview document walk.changes)
        changes := walk.changes } := by
  obtain ⟨hagain, hdiagnostics, hchanges⟩ := recheck hdistinct haccepts
  have hcomplete : (checkDocumentValue P Json.tree
      document).reporter.complete = true := (Bool.and_eq_true_iff.mp haccepts).1
  have hcompleteAgain := (Bool.and_eq_true_iff.mp hagain).1
  dsimp only at hchanges hdiagnostics hagain hcompleteAgain ⊢
  have hchecked : validateWithin P (fuel + 1)
      (createPreview document (checkDocumentValue P Json.tree document).changes) =
        (checkDocumentValue P Json.tree (createPreview document
          (checkDocumentValue P Json.tree document).changes)).reporter.result := by
    rw [validateWithin]
    simp only [Reporter.result_accepts, hagain, hchanges, List.isEmpty_nil,
      Bool.or_true, if_true]
  rw [validateWithin]
  simp only [Reporter.result_accepts, haccepts, Bool.not_true, Bool.false_or]
  by_cases hnil : (checkDocumentValue P Json.tree document).changes = []
  · simp [hnil, Reporter.result, hcomplete]
  · have hempty : (checkDocumentValue P Json.tree document).changes.isEmpty =
        false := by simpa using hnil
    have hresult : ∀ r : Reporter, r.result.diagnostics = r.diagnostics ∧
        r.result.complete = r.complete := fun _ => ⟨rfl, rfl⟩
    simp only [hempty, Bool.false_eq_true, if_false, hchecked,
      (hresult _).1, (hresult _).2,
      reportPreviewDiagnostics_of_subset hdiagnostics,
      haccepts, hcompleteAgain, hcomplete, Bool.not_true, Bool.or_self, hnil]

/-- Validation accepts a document when the walk does, and then reports what
the walk reported. -/
theorem validateDocument_of_accepts {document : Json}
    (hdistinct : document.Distinct)
    (haccepts :
      (checkDocumentValue P Json.tree document).reporter.accepts = true) :
    let walk := checkDocumentValue P Json.tree document
    validateDocument P document =
      { complete := true
        diagnostics := walk.reporter.diagnostics
        normalizedDocument :=
          if walk.changes = [] then none
          else some (createPreview document walk.changes)
        changes := walk.changes } := by
  obtain ⟨root, haccepted⟩ := exists_accepted P haccepts
  obtain ⟨fuel, hfuel⟩ := Nat.exists_eq_succ_of_ne_zero
    (Nat.ne_of_gt (memberCount_pos haccepted))
  rw [validateDocument, hfuel]
  exact validateWithin_of_accepts hdistinct haccepts

theorem validateDocument_accepts_iff {document : Json}
    (hdistinct : document.Distinct) :
    (validateDocument P document).accepts = true ↔
      (checkDocumentValue P Json.tree document).reporter.accepts = true := by
  constructor
  · intro hvalid
    by_contra hwalk
    rw [Bool.not_eq_true] at hwalk
    rw [validateDocument, validateWithin] at hvalid
    simp only [Reporter.result_accepts, hwalk, Bool.not_false, Bool.true_or,
      if_true, Bool.false_eq_true] at hvalid
  · intro haccepts
    obtain ⟨hcomplete, hnone⟩ := Bool.and_eq_true_iff.mp haccepts
    rw [validateDocument_of_accepts hdistinct haccepts,
      ValidationResult.accepts]
    exact Bool.and_eq_true_iff.mpr ⟨rfl, hnone⟩

/-- A document is described when validation accepts it. -/
theorem describeDocument_isSome {document : Json}
    (hdistinct : document.Distinct) :
    (describeDocument P document).isSome = true ↔
      (validateDocument P document).accepts = true := by
  rw [validateDocument_accepts_iff hdistinct]
  unfold describeDocument
  dsimp only
  split
  next haccepts => simp [haccepts]
  next haccepts => simp [haccepts]

end Platform

end DrFed.Document
