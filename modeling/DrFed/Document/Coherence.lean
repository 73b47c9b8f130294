import DrFed.Document.Apart
import DrFed.Document.Prepared
import DrFed.Support.Truncation

/-!
# Coherent results

What a call reports is kept up to the limit, whether it comes from the walk,
the server or the preview.  The results of validation and of preparation say
so at every place where they are returned, also when the findings of the
preview were cut off before they are merged.
-/

namespace DrFed.Document

open Truncation

/-! ## What a reporter keeps -/

abbrev cutFindings (findings : List Diagnostic) : List Diagnostic :=
  cut maximumDiagnostics limitDiagnostic findings

abbrev addFindings (there findings : List Diagnostic) : List Diagnostic :=
  addNew Diagnostic.key there findings

namespace Reporter

theorem reportAll_append (r : Reporter) (ds others : List Diagnostic) :
    r.reportAll (ds ++ others) = (r.reportAll ds).reportAll others :=
  List.foldl_append

theorem reportAll_of_truncated {r : Reporter} (h : r.truncated = true)
    (ds : List Diagnostic) : r.reportAll ds = r := by
  induction ds with
  | nil => rfl
  | cons d rest ih =>
      change (r.report d).reportAll rest = r
      rw [report, if_pos h]
      exact ih

/-- A reporter keeps what is reported up to the limit. -/
theorem reportAll_eq (offered : List Diagnostic) :
    createReporter.reportAll offered =
      { diagnostics := cutFindings offered
        complete := decide (offered.length ≤ maximumDiagnostics) &&
          offered.all fun d => d.category != .support
        truncated := decide (maximumDiagnostics < offered.length) } := by
  by_cases hfew : offered.length ≤ maximumDiagnostics
  · have hfit : createReporter.diagnostics.length + offered.length ≤
        maximumDiagnostics := by
      simpa [createReporter] using hfew
    rw [reportAll_of_few rfl hfit, cutFindings, cut_of_le hfew]
    simp [createReporter, hfew, Nat.not_lt.mpr hfew]
  · have hlong : maximumDiagnostics < offered.length := Nat.lt_of_not_le hfew
    generalize hfirst : offered.take maximumDiagnostics = first
    obtain ⟨d, rest, hrest⟩ : ∃ d rest,
        offered.drop maximumDiagnostics = d :: rest := by
      cases hdrop : offered.drop maximumDiagnostics with
      | nil => exact absurd (List.drop_eq_nil_iff.mp hdrop) hfew
      | cons d rest => exact ⟨d, rest, rfl⟩
    have hlength : first.length = maximumDiagnostics := by
      rw [← hfirst, List.length_take]
      omega
    have hsplit : offered = first ++ d :: rest := by
      rw [← hfirst, ← hrest, List.take_append_drop]
    have hfit : createReporter.diagnostics.length + first.length ≤
        maximumDiagnostics := by
      simp [createReporter, hlength]
    have hkept := reportAll_of_few rfl hfit
    have hdropped : first.drop maximumDiagnostics = [] :=
      List.drop_eq_nil_iff.mpr (Nat.le_of_eq hlength)
    have hset : first.set (maximumDiagnostics - 1) limitDiagnostic =
        first.take (maximumDiagnostics - 1) ++ [limitDiagnostic] := by
      rw [List.set_eq_take_append_cons_drop, if_pos (by rw [hlength]; decide)]
      exact congrArg (_ ++ limitDiagnostic :: ·) hdropped
    have hlast : (createReporter.reportAll first).report d =
        { diagnostics := first.take (maximumDiagnostics - 1) ++
            [limitDiagnostic]
          complete := false
          truncated := true } := by
      rw [hkept, ← hset]
      simp [report, createReporter, hlength]
    have hall : createReporter.reportAll (first ++ d :: rest) =
        ((createReporter.reportAll first).report d).reportAll rest :=
      reportAll_append _ _ _
    rw [cutFindings, cut_of_lt hlong, decide_eq_false hfew,
      decide_eq_true hlong, hsplit, hall, hlast,
      reportAll_of_truncated rfl, List.take_append_of_le_length
        (by rw [hlength]; decide)]
    rfl

theorem reportAll_diagnostics (offered : List Diagnostic) :
    (createReporter.reportAll offered).diagnostics = cutFindings offered := by
  rw [reportAll_eq]

/-- A reporter takes up the findings of a preview that are new to it. -/
theorem reportPreviewDiagnostics_eq (offered findings : List Diagnostic) :
    reportPreviewDiagnostics findings (createReporter.reportAll offered) =
      createReporter.reportAll (addFindings offered findings) := by
  induction findings using List.reverseRecOn with
  | nil => rfl
  | append_singleton findings d ih =>
      have hstep : reportPreviewDiagnostics (findings ++ [d])
          (createReporter.reportAll offered) =
            reportPreviewDiagnostics [d] (reportPreviewDiagnostics findings
              (createReporter.reportAll offered)) := List.foldl_append
      have hsplit : addFindings offered (findings ++ [d]) =
          addNew Diagnostic.key (addFindings offered findings) [d] :=
        addNew_append _ _ _ _
      rw [hstep, ih, hsplit]
      generalize addFindings offered findings = there
      have hone : reportPreviewDiagnostics [d] (createReporter.reportAll there) =
          if (createReporter.reportAll there).diagnostics.any fun existing =>
              existing.reason == d.reason && existing.path == d.path then
            createReporter.reportAll there
          else (createReporter.reportAll there).report d := rfl
      have hany : (there.any fun existing => existing.reason == d.reason &&
          existing.path == d.path) = true ↔
            d.key ∈ there.map Diagnostic.key := by
        rw [List.any_eq_true, List.mem_map]
        simp [Diagnostic.key, Prod.ext_iff]
      have happend : createReporter.reportAll (there ++ [d]) =
          (createReporter.reportAll there).report d := reportAll_append _ _ _
      by_cases hfew : there.length ≤ maximumDiagnostics
      · rw [hone, reportAll_diagnostics, cutFindings, cut_of_le hfew]
        by_cases hmem : d.key ∈ there.map Diagnostic.key
        · rw [if_pos (hany.mpr hmem), addNew_of_mem hmem]
        · rw [if_neg fun hfound => hmem (hany.mp hfound),
            addNew_of_notMem hmem, happend]
      · -- A reporter that is cut off changes no more.
        have htruncated : (createReporter.reportAll there).truncated = true := by
          rw [reportAll_eq]
          exact decide_eq_true (Nat.lt_of_not_le hfew)
        have hsame : (createReporter.reportAll there).report d =
            createReporter.reportAll there := if_pos htruncated
        rw [hone, hsame, ite_self]
        by_cases hmem : d.key ∈ there.map Diagnostic.key
        · rw [addNew_of_mem hmem]
        · rw [addNew_of_notMem hmem, happend, hsame]

end Reporter

/-- The reporter of a walk has been offered everything that the walk finds. -/
theorem runItems_reporter {ι : Type} (s : WalkState ι) (items : List (Item ι)) :
    (s.runItems items).reporter =
      s.reporter.reportAll (reportsOf items.flatten) := by
  induction items generalizing s with
  | nil => rfl
  | cons item rest ih =>
      rw [WalkState.runItems, List.flatten_cons, reportsOf_append,
        Reporter.reportAll_append]
      have hitem : (s.runItem item).reporter =
          s.reporter.reportAll (reportsOf item) := by
        rw [WalkState.runItem_eq]
      split
      next htruncated =>
        rw [Reporter.reportAll_of_truncated htruncated,
          Reporter.reportAll_of_truncated htruncated]
      next => rw [ih, hitem]

theorem checkDocumentValue_reporter {ι : Type} (P : Platform) (H : Values ι)
    (value : ι) :
    (checkDocumentValue P H value).reporter =
      createReporter.reportAll (walkFindings P H value) := by
  rw [checkDocumentValue, runItems_reporter, WalkState.runItem_eq,
    walkFindings, walkEvents, reportsOf_append, Reporter.reportAll_append]
  rfl

/-! ## Coherence -/

/-- Findings among which none says that the limit is reached. -/
def Unmarked (findings : List Diagnostic) : Prop :=
  ∀ d ∈ findings, d.reason ≠ .diagnosticLimitReached

theorem Ordinary.unmarked {findings : List Diagnostic}
    (h : Ordinary findings) : Unmarked findings := by
  intro d hd heq
  have hknown := h d hd
  rw [heq] at hknown
  revert hknown
  decide

theorem Unmarked.append {findings others : List Diagnostic}
    (h : Unmarked findings) (h' : Unmarked others) :
    Unmarked (findings ++ others) :=
  List.forall_mem_append.mpr ⟨h, h'⟩

theorem Unmarked.key {findings : List Diagnostic} (h : Unmarked findings) :
    limitDiagnostic.key ∉ findings.map Diagnostic.key := by
  intro hmem
  obtain ⟨d, hd, hkey⟩ := List.mem_map.mp hmem
  exact h d hd (congrArg Prod.fst hkey)

/-- What holds of a result, given the findings that its call reported, first
those before a preview and then all. -/
structure Coherent (before reported : List Diagnostic)
    (result : DocumentValidationResult) : Prop where
  few : result.diagnostics.length ≤ maximumDiagnostics
  complete : result.complete = false ↔
    ∃ d ∈ result.diagnostics, d.category = .support
  limit : (∃ d ∈ result.diagnostics, d.reason = .diagnosticLimitReached) ↔
    maximumDiagnostics < reported.length
  last : ∀ i d, result.diagnostics[i]? = some d →
    d.reason = .diagnosticLimitReached → i + 1 = maximumDiagnostics
  normalized : ∀ preview, result.normalizedDocument = some preview →
    result.complete = true ∧ hasError result.diagnostics = false ∧
      result.changes ≠ []
  changes : result.changes ≠ [] → result.normalizedDocument.isSome
  added : ∀ i j d e, i < j → before.length ≤ j →
    result.diagnostics[i]? = some d → result.diagnostics[j]? = some e →
      d.key ≠ e.key

section Coherent

variable {before reported added findings : List Diagnostic}

theorem exists_key_iff {others : List Diagnostic}
    (hkeys : findings.map Diagnostic.key = others.map Diagnostic.key)
    (p : DiagnosticReason × FieldPath → Prop) :
    (∃ d ∈ findings, p d.key) ↔ ∃ d ∈ others, p d.key := by
  have hmap : ∀ ds : List Diagnostic,
      (∃ d ∈ ds, p d.key) ↔ ∃ k ∈ ds.map Diagnostic.key, p k := by
    simp
  rw [hmap, hmap, hkeys]

theorem limit_support : limitDiagnostic.category = .support := rfl

/-- A reporter is complete when it keeps no support finding. -/
theorem reportAll_complete :
    (createReporter.reportAll reported).complete = false ↔
      ∃ d ∈ cutFindings reported, d.category = .support := by
  rw [Reporter.reportAll_eq]
  by_cases hlong : maximumDiagnostics < reported.length
  · have hlimit : limitDiagnostic ∈ cutFindings reported := by
      rw [cutFindings, cut_of_lt hlong]
      exact List.mem_append_right _ (List.mem_singleton_self _)
    simp only [decide_eq_false (Nat.not_le_of_lt hlong), Bool.false_and,
      true_iff]
    exact ⟨_, hlimit, limit_support⟩
  · have hfew : reported.length ≤ maximumDiagnostics := Nat.le_of_not_lt hlong
    rw [cutFindings, cut_of_le hfew]
    simp [hfew]

/-- The keys of what is kept are those of the findings, so what is taken up
from a preview differs from all that is before it. -/
theorem cut_added_ne (hunmarked : Unmarked (before ++ added))
    (hnew : ∀ first d rest, added = first ++ d :: rest →
      d.key ∉ (before ++ first).map Diagnostic.key) {i j : ℕ}
    {d e : Diagnostic} (hij : i < j) (hj : before.length ≤ j)
    (hd : (cutFindings (before ++ added))[i]? = some d)
    (he : (cutFindings (before ++ added))[j]? = some e) : d.key ≠ e.key := by
  have hsecond : ∀ {d e : Diagnostic}, (before ++ added)[i]? = some d →
      (before ++ added)[j]? = some e → d.key ≠ e.key := by
    intro d e hd he heq
    rw [List.getElem?_append_right hj] at he
    obtain ⟨hlt, hget⟩ := List.getElem?_eq_some_iff.mp he
    have hsplit : added = added.take (j - before.length) ++
        e :: added.drop (j - before.length + 1) := by
      rw [← hget, ← List.drop_eq_getElem_cons hlt, List.take_append_drop]
    refine hnew _ e _ hsplit (heq ▸ List.mem_map_of_mem ?_)
    rcases Nat.lt_or_ge i before.length with hbefore | hafter
    · rw [List.getElem?_append_left hbefore] at hd
      exact List.mem_append_left _ (List.mem_of_getElem? hd)
    · rw [List.getElem?_append_right hafter] at hd
      have hearlier : (added.take (j - before.length))[i - before.length]? =
          some d := by
        rw [List.getElem?_take_of_lt (by omega), hd]
      exact List.mem_append_right _ (List.mem_of_getElem? hearlier)
  by_cases hlong : maximumDiagnostics < (before ++ added).length
  · rw [cutFindings, cut_of_lt hlong] at hd he
    have hlength : ((before ++ added).take (maximumDiagnostics - 1)).length =
        maximumDiagnostics - 1 := by
      rw [List.length_take]
      omega
    have hkept : ∀ {k : ℕ} {x : Diagnostic}, k < maximumDiagnostics - 1 →
        ((before ++ added).take (maximumDiagnostics - 1) ++
          [limitDiagnostic])[k]? = some x → (before ++ added)[k]? = some x := by
      intro k x hk hx
      rw [List.getElem?_append_left (by omega),
        List.getElem?_take_of_lt hk] at hx
      exact hx
    have hjle : j ≤ maximumDiagnostics - 1 := by
      obtain ⟨hbound, -⟩ := List.getElem?_eq_some_iff.mp he
      rw [List.length_append, hlength, List.length_singleton] at hbound
      omega
    rcases Nat.lt_or_ge j (maximumDiagnostics - 1) with hlt | hge
    · exact hsecond (hkept (by omega) hd) (hkept hlt he)
    · obtain rfl : j = maximumDiagnostics - 1 := by omega
      rw [List.getElem?_append_right (by omega), hlength, Nat.sub_self] at he
      obtain rfl := Option.some.inj he
      have hmem := List.mem_of_getElem? (hkept hij hd)
      intro heq
      exact hunmarked d hmem (congrArg Prod.fst heq)
  · rw [cutFindings, cut_of_le (Nat.le_of_not_lt hlong)] at hd he
    exact hsecond hd he

/-- Results with the findings of a reporter are coherent, whatever messages
these have. -/
theorem coherent_of_reporter (hunmarked : Unmarked (before ++ added))
    (hnew : ∀ first d rest, added = first ++ d :: rest →
      d.key ∉ (before ++ first).map Diagnostic.key)
    {result : DocumentValidationResult}
    (hkeys : result.diagnostics.map Diagnostic.key =
      (cutFindings (before ++ added)).map Diagnostic.key)
    (hcomplete : result.complete =
      (createReporter.reportAll (before ++ added)).complete)
    (hoffer : (result.normalizedDocument = none ∧ result.changes = []) ∨
      ((createReporter.reportAll (before ++ added)).accepts = true ∧
        result.normalizedDocument.isSome ∧ result.changes ≠ [])) :
    Coherent before (before ++ added) result := by
  have hmarked := exists_key_iff hkeys fun k => k.1 = .diagnosticLimitReached
  have hget : ∀ (i : ℕ) (d : Diagnostic), result.diagnostics[i]? = some d →
      ∃ kept : Diagnostic, (cutFindings (before ++ added))[i]? = some kept ∧
        kept.key = d.key := by
    intro i d hd
    have hi : (result.diagnostics.map Diagnostic.key)[i]? = some d.key := by
      rw [List.getElem?_map, hd]
      rfl
    rw [hkeys, List.getElem?_map] at hi
    exact Option.map_eq_some_iff.mp hi
  constructor
  · have hlength := congrArg List.length hkeys
    rw [List.length_map, List.length_map] at hlength
    rw [hlength]
    exact length_cut_le (by decide)
  · rw [hcomplete, reportAll_complete]
    exact (exists_key_iff hkeys fun k =>
      (diagnosticReasons k.1).1 = .support).symm
  · exact hmarked.trans (@exists_marker_iff _ maximumDiagnostics
      limitDiagnostic _ (fun d => d.reason = .diagnosticLimitReached) rfl
      hunmarked)
  · intro i d hd hreason
    obtain ⟨kept, hkept, hkey⟩ := hget i d hd
    have hlast := marker_last hunmarked hkept
      ((congrArg Prod.fst hkey).trans hreason)
    rw [hlast]
    rfl
  · intro preview hpreview
    rcases hoffer with ⟨hnone, -⟩ | ⟨haccepts, -, hchanges⟩
    · rw [hnone] at hpreview
      cases hpreview
    · obtain ⟨hwhole, hquiet⟩ := Bool.and_eq_true_iff.mp haccepts
      refine ⟨hcomplete.trans hwhole, ?_, hchanges⟩
      rw [Bool.not_eq_true', Reporter.reportAll_diagnostics] at hquiet
      have herror := exists_key_iff hkeys fun k =>
        ((diagnosticReasons k.1).2 == .error) = true
      rw [hasError, ← Bool.not_eq_true, List.any_eq_true] at hquiet ⊢
      exact fun hfound => hquiet (herror.mp hfound)
  · intro hchanges
    rcases hoffer with ⟨-, hnil⟩ | ⟨-, hsome, -⟩
    · exact absurd hnil hchanges
    · exact hsome
  · intro i j d e hij hj hd he heq
    obtain ⟨first, hfirst, hfirstKey⟩ := hget i d hd
    obtain ⟨second, hsecond, hsecondKey⟩ := hget j e he
    refine cut_added_ne hunmarked hnew hij hj hfirst hsecond ?_
    rw [hfirstKey, hsecondKey, heq]

end Coherent

/-! ## Merged previews -/

section Merged

variable {before inner : List Diagnostic}

theorem reportAll_complete_congr {reported others : List Diagnostic}
    (h : cutFindings reported = cutFindings others) :
    (createReporter.reportAll reported).complete =
      (createReporter.reportAll others).complete := by
  have hfalse : (createReporter.reportAll reported).complete = false ↔
      (createReporter.reportAll others).complete = false := by
    rw [reportAll_complete, reportAll_complete, h]
  generalize (createReporter.reportAll reported).complete = complete at hfalse ⊢
  generalize (createReporter.reportAll others).complete = other at hfalse ⊢
  cases complete <;> cases other <;> simp_all

theorem reportAll_accepts_congr {reported others : List Diagnostic}
    (h : cutFindings reported = cutFindings others) :
    (createReporter.reportAll reported).accepts =
      (createReporter.reportAll others).accepts := by
  rw [Reporter.accepts, Reporter.accepts, reportAll_complete_congr h,
    Reporter.reportAll_diagnostics, Reporter.reportAll_diagnostics, h]

/-- What a call reports of a preview that was validated on its own. -/
structure Merges (before inner : List Diagnostic)
    (checked : DocumentValidationResult) : Prop where
  unmarked : Unmarked before
  found : Unmarked inner
  keys : inner.length ≤ maximumDiagnostics ∨
    (inner.map Diagnostic.key).Nodup
  diagnostics : checked.diagnostics = cutFindings inner
  complete : checked.complete = (createReporter.reportAll inner).complete

variable {checked : DocumentValidationResult}

/-- The findings of a preview may be cut off before they are merged. -/
theorem Merges.cut_eq (h : Merges before inner checked) :
    cutFindings (addFindings before (cutFindings inner)) =
      cutFindings (addFindings before inner) := by
  refine cut_addNew_cut (by decide) ?_ h.keys
  rw [List.map_append, List.mem_append, not_or]
  exact ⟨h.unmarked.key, h.found.key⟩

theorem Merges.reporter (h : Merges before inner checked) :
    reportPreviewDiagnostics checked.diagnostics
        (createReporter.reportAll before) =
      createReporter.reportAll (addFindings before (cutFindings inner)) := by
  rw [h.diagnostics, Reporter.reportPreviewDiagnostics_eq]

/-- A preview that is not complete leaves its call not complete. -/
theorem Merges.complete_of_preview (h : Merges before inner checked)
    (hchecked : checked.complete = false) :
    (createReporter.reportAll
      (addFindings before (cutFindings inner))).complete = false := by
  rw [h.complete, reportAll_complete] at hchecked
  obtain ⟨d, hd, hsupport⟩ := hchecked
  have hmem : d.key ∈ (addFindings before (cutFindings inner)).map
      Diagnostic.key := key_mem_addNew (.inr hd)
  obtain ⟨e, he, hkey⟩ := List.mem_map.mp hmem
  have hreason : e.reason = d.reason := congrArg Prod.fst hkey
  have hcategory : e.category = .support := by
    rw [Diagnostic.category, hreason]
    exact hsupport
  rw [Reporter.reportAll_eq]
  dsimp only
  rw [Bool.and_eq_false_iff]
  right
  rw [← Bool.not_eq_true, List.all_eq_true]
  intro hall
  have hne := hall e he
  rw [hcategory] at hne
  cases hne

/-- A result with a merged preview is coherent. -/
theorem Merges.coherent (h : Merges before inner checked)
    {result : DocumentValidationResult}
    (hkeys : result.diagnostics.map Diagnostic.key =
      (reportPreviewDiagnostics checked.diagnostics
        (createReporter.reportAll before)).diagnostics.map Diagnostic.key)
    (hcomplete : result.complete = (checked.complete &&
      (reportPreviewDiagnostics checked.diagnostics
        (createReporter.reportAll before)).complete))
    (hoffer : (result.normalizedDocument = none ∧ result.changes = []) ∨
      ((reportPreviewDiagnostics checked.diagnostics
        (createReporter.reportAll before)).accepts = true ∧
        result.normalizedDocument.isSome ∧ result.changes ≠ [])) :
    Coherent before (addFindings before inner) result := by
  rw [h.reporter] at hkeys hcomplete hoffer
  rw [Reporter.reportAll_diagnostics, h.cut_eq] at hkeys
  rw [reportAll_accepts_congr h.cut_eq] at hoffer
  have hwhole : (checked.complete && (createReporter.reportAll
      (addFindings before (cutFindings inner))).complete) =
        (createReporter.reportAll (addFindings before inner)).complete := by
    rw [← reportAll_complete_congr h.cut_eq]
    cases hchecked : checked.complete with
    | true => exact Bool.true_and _
    | false => rw [h.complete_of_preview hchecked, Bool.and_false]
  rw [hwhole] at hcomplete
  obtain ⟨added, hadded, hsub, hnew⟩ :=
    exists_addNew Diagnostic.key before inner
  change addFindings before inner = before ++ added at hadded
  rw [hadded] at hkeys hcomplete hoffer ⊢
  exact coherent_of_reporter
    (h.unmarked.append fun d hd => h.found d (hsub.subset hd)) hnew hkeys
    hcomplete hoffer

end Merged

end DrFed.Document
