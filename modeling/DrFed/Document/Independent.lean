import DrFed.Document.Reduced
import DrFed.Document.Resolved

/-!
# Independence of the key order

A context object whose definitions can all be read in one term map, none of
them depending on itself, is accepted: every sweep resolves at least one of the
pending names, and none of them is refused.
-/

namespace DrFed.Document

open Relation

section Follows

variable {R : Runtime} {ι : Type} {H : Values ι} {values : List (JsString × ι)}
  {path : FieldPath} {protectedTerms : Option Terms} {outer target : Terms} {s : Sweep}

/-- A sweep without findings whose terms are those of a target, but for the
pending names. -/
structure Follows (values : List (JsString × ι)) (target : Terms) (s : Sweep) : Prop where
  findings : s.findings = []
  nodup : s.pending.Nodup
  names : ∀ name ∈ s.pending, values.lookup name ≠ none
  fresh : ∀ name ∈ s.pending, s.terms.lookup name = none
  agrees : ∀ name, name ∉ s.pending → s.terms.lookup name = target.lookup name

/-- A target that expands and accepts the definitions. -/
structure Solves (R : Runtime) (H : Values ι) (values : List (JsString × ι))
    (path : FieldPath) (protectedTerms : Option Terms) (outer target : Terms) : Prop where
  expands : Expands R H values path protectedTerms outer target
  accepts : Accepts R H values path protectedTerms target

theorem Solves.reads (h : Solves R H values path protectedTerms outer target) {name : JsString}
    {definition : ι} (hlookup : values.lookup name = some definition)
    (hcheck : checkTermName H protectedTerms.isNone values (path ++ [.key name]) name = none) :
    ∃ term, readContextTerm R H definition (path ++ [.key name]) target [] = .ok term ∧
      target.lookup name = some term := by
  cases hread : readContextTerm R H definition (path ++ [.key name]) target [] with
  | ok term => exact ⟨term, rfl, h.expands.defined name definition term hlookup hcheck hread⟩
  | error e =>
      cases e with
      | none => exact absurd hread (h.accepts.resolvable name definition hlookup hcheck)
      | some d => exact absurd hread (h.accepts.wellFormed name definition hlookup hcheck d)

/-- Removing a pending name, with its term in the target. -/
theorem Follows.remove (h : Follows values target s) {name : JsString} {terms : Terms}
    {resolved : Bool} (hname : name ∈ s.pending)
    (hterm : terms.lookup name = target.lookup name)
    (hkeep : ∀ other, other ≠ name → terms.lookup other = s.terms.lookup other) :
    Follows values target ⟨terms, s.pending.erase name, s.findings, resolved⟩ := by
  constructor
  · exact h.findings
  · exact h.nodup.erase name
  · exact fun other hother => h.names other (List.mem_of_mem_erase hother)
  · intro other hother
    have hne : other ≠ name := by
      rintro rfl
      exact h.nodup.not_mem_erase hother
    exact (hkeep other hne).trans (h.fresh other (List.mem_of_mem_erase hother))
  · intro other hother
    by_cases heq : other = name
    · rw [heq, hterm]
    · rw [hkeep other heq]
      exact h.agrees other fun hmem => hother ((List.mem_erase_of_ne heq).mpr hmem)

/-- One turn: a keyword is skipped, a definition is resolved, or it depends on a
pending name and waits. -/
theorem sweepName_follows (hsolves : Solves R H values path protectedTerms outer target)
    (h : Follows values target s) {name : JsString} (hname : name ∈ s.pending) :
    (sweepName R H values path protectedTerms s name = s ∧
      checkTermName H protectedTerms.isNone values (path ++ [.key name]) name = none ∧
      ∃ other ∈ s.pending, DependsOn H values path name other) ∨
    (Follows values target (sweepName R H values path protectedTerms s name) ∧
      (sweepName R H values path protectedTerms s name).pending = s.pending.erase name ∧
      (sweepName R H values path protectedTerms s name).resolved =
        (s.resolved || (checkTermName H protectedTerms.isNone values (path ++ [.key name])
          name).isNone)) := by
  have hsome := h.names name hname
  cases hcheck : checkTermName H protectedTerms.isNone values (path ++ [.key name]) name with
  | some result =>
      cases result with
      | some d => exact absurd hcheck (hsolves.accepts.named name hsome d)
      | none =>
          right
          have hstep : sweepName R H values path protectedTerms s name =
              { s with pending := s.pending.erase name } := by
            simp only [sweepName, hcheck]
          rw [hstep]
          refine ⟨h.remove hname ?_ fun _ _ => rfl, rfl, ?_⟩
          · rw [h.fresh name hname, hsolves.expands.skipped name hsome hcheck]
          · simp
  | none =>
      obtain ⟨definition, hlookup⟩ := Option.ne_none_iff_exists'.mp hsome
      obtain ⟨term, hread, hterm⟩ := hsolves.reads hlookup hcheck
      have hwaits := readContextTerm_waits hread fun text _ => resolveTerm_agrees h.agrees
      rcases hwaits with hwait | hok
      · left
        refine ⟨?_, rfl, ?_⟩
        · simp only [sweepName, hcheck, hlookup, hwait]
        · -- Otherwise it would be read as in the target.
          by_contra hnone
          push Not at hnone
          have hsame : readContextTerm R H definition (path ++ [.key name]) s.terms s.pending =
              readContextTerm R H definition (path ++ [.key name]) target [] := by
            apply readContextTerm_congr
            intro text htext
            have hfree : ∀ other ∈ mentions text, other ∉ s.pending := by
              intro other hmention hmem
              apply hnone other hmem
              refine ⟨(checkTermName_eq_none hcheck).2.2, ?_, definition, hlookup, text, htext,
                hmention⟩
              exact Option.isSome_iff_ne_none.mpr (h.names other hmem)
            apply resolveTerm_congr
            · exact fun other hmention => iff_of_false (hfree other hmention) List.not_mem_nil
            · exact fun other hmention => h.agrees other (hfree other hmention)
          rw [hwait, hread] at hsame
          cases hsame
      · right
        have hallowed : ¬ ((protectedTerms.bind fun terms => terms.lookup name).isSome = true ∧
            (protectedTerms.bind fun terms => terms.lookup name) ≠ some term) := by
          rintro ⟨horiginal, hne⟩
          obtain ⟨original, horiginal⟩ := Option.isSome_iff_exists.mp horiginal
          apply hne
          rw [horiginal, hsolves.accepts.compatible name definition term original hlookup hcheck
            hread horiginal]
        have hstep : sweepName R H values path protectedTerms s name =
            { terms := AssocList.put name term s.terms
              pending := s.pending.erase name
              findings := s.findings
              resolved := true } := by
          simp only [sweepName, hcheck, hlookup, hok, if_neg hallowed]
        rw [hstep]
        refine ⟨h.remove hname ?_ ?_, rfl, by simp⟩
        · rw [AssocList.lookup_put, if_pos rfl, hterm]
        · intro other hne
          rw [AssocList.lookup_put, if_neg hne]

/-- One sweep: keywords are skipped, and a definition that depends on no pending
name is resolved. -/
theorem sweepNames_follows (hsolves : Solves R H values path protectedTerms outer target)
    (h : Follows values target s) {names : List JsString} (hnames : names.Nodup)
    (hsub : ∀ name ∈ names, name ∈ s.pending) :
    let swept := names.foldl (sweepName R H values path protectedTerms) s
    Follows values target swept ∧ (∀ other ∈ swept.pending, other ∈ s.pending) ∧
      (s.resolved = true → swept.resolved = true) ∧
      (∀ name ∈ names,
        checkTermName H protectedTerms.isNone values (path ++ [.key name]) name ≠ none →
          name ∉ swept.pending) ∧
      ∀ name ∈ names, (∀ other ∈ s.pending, ¬ DependsOn H values path name other) →
        checkTermName H protectedTerms.isNone values (path ++ [.key name]) name = none →
          swept.resolved = true ∧ name ∉ swept.pending := by
  induction names generalizing s with
  | nil =>
      refine ⟨h, fun _ hother => hother, fun hresolved => hresolved, ?_, ?_⟩
      · exact fun name hname => absurd hname List.not_mem_nil
      · exact fun name hname => absurd hname List.not_mem_nil
  | cons name rest ih =>
      rw [List.nodup_cons] at hnames
      have hname := hsub name List.mem_cons_self
      have hrest : ∀ other ∈ rest, other ∈ s.pending :=
        fun other hother => hsub other (List.mem_cons_of_mem name hother)
      simp only [List.foldl_cons]
      rcases sweepName_follows hsolves h hname with
        ⟨hstep, hcheck, blocker, hblocker, hdepends⟩ | ⟨hfollows, hpending, hresolved⟩
      · rw [hstep]
        obtain ⟨hfollows, hkeep, hmono, hskipped, hfree⟩ := ih h hnames.2 hrest
        refine ⟨hfollows, hkeep, hmono, ?_, ?_⟩
        · intro other hother hother'
          rcases List.mem_cons.mp hother with rfl | hother
          · exact absurd hcheck hother'
          · exact hskipped other hother hother'
        · intro other hother hnone
          rcases List.mem_cons.mp hother with rfl | hother
          · exact absurd hdepends (hnone blocker hblocker)
          · exact hfree other hother hnone
      · have hrest' : ∀ other ∈ rest,
            other ∈ (sweepName R H values path protectedTerms s name).pending := by
          intro other hother
          rw [hpending]
          have hne : other ≠ name := fun heq => hnames.1 (heq ▸ hother)
          exact (List.mem_erase_of_ne hne).mpr (hrest other hother)
        obtain ⟨hfinal, hkeep, hmono, hskipped, hfree⟩ := ih hfollows hnames.2 hrest'
        have hold : ∀ other,
            other ∈ (sweepName R H values path protectedTerms s name).pending →
              other ∈ s.pending := by
          intro other hother
          rw [hpending] at hother
          exact List.mem_of_mem_erase hother
        have hgone : name ∉ (rest.foldl (sweepName R H values path protectedTerms)
            (sweepName R H values path protectedTerms s name)).pending := by
          intro hmem
          have herased := hkeep name hmem
          rw [hpending] at herased
          exact h.nodup.not_mem_erase herased
        refine ⟨hfinal, fun other hother => hold other (hkeep other hother), ?_, ?_, ?_⟩
        · intro hs
          apply hmono
          rw [hresolved, hs, Bool.true_or]
        · intro other hother hskip
          rcases List.mem_cons.mp hother with rfl | hother
          · exact hgone
          · exact hskipped other hother hskip
        · intro other hother hnone hcheck
          rcases List.mem_cons.mp hother with rfl | hother
          · refine ⟨hmono ?_, hgone⟩
            rw [hresolved, hcheck, Option.isNone_none, Bool.or_true]
          · exact hfree other hother (fun b hb => hnone b (hold b hb)) hcheck

/-- Of the pending definitions one depends on no pending name. -/
theorem Follows.exists_free (h : Follows values target s)
    (hsolves : Solves R H values path protectedTerms outer target)
    (hacyclic : Acyclic (DependsOn H values path)) {name : JsString} (hname : name ∈ s.pending)
    (hcheck : checkTermName H protectedTerms.isNone values (path ++ [.key name]) name = none) :
    ∃ free ∈ s.pending,
      checkTermName H protectedTerms.isNone values (path ++ [.key free]) free = none ∧
        ∀ other ∈ s.pending, ¬ DependsOn H values path free other := by
  let definitions := s.pending.filter fun name =>
    (checkTermName H protectedTerms.isNone values (path ++ [.key name]) name).isNone
  have hmem : ∀ other, other ∈ definitions ↔ other ∈ s.pending ∧
      checkTermName H protectedTerms.isNone values (path ++ [.key other]) other = none := by
    intro other
    rw [List.mem_filter, Option.isNone_iff_eq_none]
  have hne : definitions ≠ [] := List.ne_nil_of_mem ((hmem name).mpr ⟨hname, hcheck⟩)
  obtain ⟨free, hfree, hlast⟩ := hacyclic.exists_last hne
  obtain ⟨hpending, hfreeCheck⟩ := (hmem free).mp hfree
  refine ⟨free, hpending, hfreeCheck, ?_⟩
  intro other hother hdepends
  by_cases hdefinition :
      checkTermName H protectedTerms.isNone values (path ++ [.key other]) other = none
  · exact hlast other ((hmem other).mpr ⟨hother, hdefinition⟩) hdepends
  · -- A definition that can be read does not name a keyword that is skipped.
    obtain ⟨result, hresult⟩ := Option.ne_none_iff_exists'.mp hdefinition
    have hvocab : other = js "@vocab" := by
      cases result with
      | none => exact checkTermName_eq_skip hresult
      | some d => exact absurd hresult (hsolves.accepts.named other (h.names other hother) d)
    obtain ⟨-, -, definition, hlookup, text, htext, hmention⟩ := hdepends
    obtain ⟨term, hread, -⟩ := hsolves.reads hlookup hfreeCheck
    have hkeyword := (resolved_of_readContextTerm hread htext).2
    cases hat : startsWithAt text with
    | false =>
        have hstart := startsWithAt_mention hmention hat
        rw [hvocab] at hstart
        exact absurd hstart (by decide)
    | true =>
        rcases mem_mentions.mp hmention with rfl | ⟨suffix, hcut⟩
        · rcases hkeyword hat with heq | heq
          · exact absurd (hvocab.symm.trans heq) (by decide)
          · exact absurd (hvocab.symm.trans heq) (by decide)
        · rcases hkeyword hat with rfl | rfl <;> cases hcut

/-- Sweeping to the end resolves every definition. -/
theorem sweepAll_follows (hsolves : Solves R H values path protectedTerms outer target)
    (hacyclic : Acyclic (DependsOn H values path)) {fuel : ℕ} (h : Follows values target s)
    (hfuel : s.pending.length ≤ fuel) :
    (sweepAll R H values path protectedTerms fuel s).findings = [] := by
  induction fuel generalizing s with
  | zero =>
      have hnil : s.pending = [] := List.length_eq_zero_iff.mp (Nat.le_zero.mp hfuel)
      rw [sweepAll, hnil]
      exact h.findings
  | succ fuel ih =>
      rw [sweepAll]
      by_cases hempty : s.pending.isEmpty = true
      · rw [if_pos hempty]
        exact h.findings
      rw [if_neg hempty]
      have hstart : Follows values target { s with resolved := false } :=
        ⟨h.findings, h.nodup, h.names, h.fresh, h.agrees⟩
      obtain ⟨hswept, hkeep, -, hskipped, hfree⟩ :=
        sweepNames_follows hsolves hstart h.nodup fun name hname => hname
      change Follows values target (sweepPending R H values path protectedTerms s) at hswept
      have hprogress : ((sweepPending R H values path protectedTerms s).resolved = true ∧
          (sweepPending R H values path protectedTerms s).pending.length < s.pending.length) ∨
          (sweepPending R H values path protectedTerms s).pending = [] := by
        by_cases hdefinitions : ∃ name ∈ s.pending,
            checkTermName H protectedTerms.isNone values (path ++ [.key name]) name = none
        · obtain ⟨name, hname, hcheck⟩ := hdefinitions
          obtain ⟨free, hpending, hfreeCheck, hnone⟩ := h.exists_free hsolves hacyclic hname hcheck
          obtain ⟨hresolved, hgone⟩ := hfree free hpending hnone hfreeCheck
          refine .inl ⟨hresolved, ?_⟩
          have hsubset : free :: (sweepPending R H values path protectedTerms s).pending ⊆
              s.pending :=
            List.cons_subset.mpr ⟨hpending, hkeep⟩
          exact (List.subperm_of_subset (List.nodup_cons.mpr ⟨hgone, hswept.nodup⟩)
            hsubset).length_le
        · right
          push Not at hdefinitions
          rw [List.eq_nil_iff_forall_not_mem]
          intro name hname
          exact hskipped name (hkeep name hname) (hdefinitions name (hkeep name hname)) hname
      simp only [hswept.findings, List.isEmpty_nil, Bool.not_true, Bool.false_eq_true, if_false]
      rcases hprogress with ⟨hresolved, hshorter⟩ | hnil
      · rw [if_pos (.inl hresolved)]
        exact ih hswept (by omega)
      · rw [if_pos (.inr (List.isEmpty_iff.mpr hnil))]
        apply ih hswept
        rw [hnil]
        exact Nat.zero_le fuel

/-- An object without cycles whose definitions can be read in one map is
accepted. -/
theorem exists_result (hsolves : Solves R H values path protectedTerms outer target)
    (hacyclic : Acyclic (DependsOn H values path)) (hnodup : (values.map Prod.fst).Nodup) :
    ∃ result, applyContextTerms R H values path outer protectedTerms = ([], result) := by
  have hstart : Follows values target (startSweep values outer) := by
    refine ⟨rfl, hnodup, fun name => lookup_ne_none_iff.mpr, ?_, ?_⟩
    · intro name hname
      exact (AssocList.lookup_removeAll _ _ _).trans (if_pos hname)
    · intro name hname
      have houter := hsolves.expands.others name (AssocList.lookup_eq_none_iff.mpr hname)
      exact ((AssocList.lookup_removeAll _ _ _).trans (if_neg hname)).trans houter.symm
  have hfindings := sweepAll_follows hsolves hacyclic hstart
    (Nat.le_refl (values.map Prod.fst).length)
  exact ⟨_, Prod.ext hfindings rfl⟩

end Follows

/-! ## Termination -/

section Termination

variable {R : Runtime} {ι : Type} {H : Values ι} {values : List (JsString × ι)}
  {path : FieldPath} {protectedTerms : Option Terms} {s : Sweep}

/-- A sweep without findings that resolves something leaves fewer names. -/
theorem sweepNames_shorter {names : List JsString} (hnames : names.Nodup)
    (hsub : ∀ name ∈ names, name ∈ s.pending) (hnodup : s.pending.Nodup)
    (hquiet : (names.foldl (sweepName R H values path protectedTerms) s).findings = []) :
    let swept := names.foldl (sweepName R H values path protectedTerms) s
    swept.pending.Nodup ∧ swept.pending.length ≤ s.pending.length ∧
      (swept.resolved = true → s.resolved = true ∨
        swept.pending.length < s.pending.length) := by
  induction names generalizing s with
  | nil => exact ⟨hnodup, Nat.le_refl _, fun hresolved => .inl hresolved⟩
  | cons name rest ih =>
      rw [List.nodup_cons] at hnames
      have hname := hsub name List.mem_cons_self
      have hlength : (s.pending.erase name).length + 1 = s.pending.length :=
        List.length_erase_add_one hname
      have hrest : ∀ other ∈ rest, other ∈ s.pending.erase name := by
        intro other hother
        have hne : other ≠ name := fun heq => hnames.1 (heq ▸ hother)
        exact (List.mem_erase_of_ne hne).mpr (hsub other (List.mem_cons_of_mem name hother))
      simp only [List.foldl_cons] at hquiet ⊢
      have hafter := sweepNames_findings R H hquiet
      rcases sweepName_cases R H hname hafter with hstep | ⟨-, hstep⟩ | ⟨term, -, hstep⟩
      · rw [hstep] at hquiet ⊢
        exact ih hnames.2 (fun other hother => hsub other (List.mem_cons_of_mem name hother))
          hnodup hquiet
      · rw [hstep] at hquiet ⊢
        obtain ⟨hnodup', hle, hresolved⟩ := ih hnames.2 hrest (hnodup.erase name) hquiet
        refine ⟨hnodup', by simp only at hle; omega, fun h => ?_⟩
        rcases hresolved h with hold | hlt
        · exact .inl hold
        · simp only at hlt
          right
          omega
      · rw [hstep] at hquiet ⊢
        obtain ⟨hnodup', hle, -⟩ := ih hnames.2 hrest (hnodup.erase name) hquiet
        simp only at hle
        exact ⟨hnodup', by omega, fun _ => .inr (by omega)⟩

/-- The loop ends, after as many sweeps as there are names. -/
theorem sweeps_sweepAll {fuel : ℕ} (hnodup : s.pending.Nodup)
    (hfuel : s.pending.length ≤ fuel) :
    Sweeps R H values path protectedTerms s (sweepAll R H values path protectedTerms fuel s) := by
  induction fuel generalizing s with
  | zero =>
      have hnil : s.pending = [] := List.length_eq_zero_iff.mp (Nat.le_zero.mp hfuel)
      have hstay : sweepAll R H values path protectedTerms 0 s = s := by
        rw [sweepAll, hnil]
        rfl
      rw [hstay]
      exact .done s hnil
  | succ fuel ih =>
      rw [sweepAll]
      split
      next hempty => exact .done s (List.isEmpty_iff.mp hempty)
      next hempty =>
        rw [List.isEmpty_iff] at hempty
        simp only
        split
        next hfound =>
          apply Sweeps.invalid s hempty
          simpa using hfound
        next hfound =>
          have hquiet : (sweepPending R H values path protectedTerms s).findings = [] := by
            simpa using hfound
          have hshorter : (sweepPending R H values path protectedTerms s).pending.Nodup ∧
              (sweepPending R H values path protectedTerms s).pending.length ≤
                s.pending.length ∧
              ((sweepPending R H values path protectedTerms s).resolved = true →
                false = true ∨ (sweepPending R H values path protectedTerms s).pending.length <
                  s.pending.length) :=
            @sweepNames_shorter R ι H values path protectedTerms { s with resolved := false }
              s.pending hnodup (fun name hname => hname) hnodup hquiet
          obtain ⟨hnodup', -, hlt⟩ := hshorter
          split
          next hprogress =>
            rw [List.isEmpty_iff] at hprogress
            apply Sweeps.next s _ hempty hquiet hprogress
            apply ih hnodup'
            rcases hprogress with hresolved | hnil
            · have hless := (hlt hresolved).resolve_left Bool.false_ne_true
              omega
            · rw [hnil]
              exact Nat.zero_le fuel
          next hprogress =>
            rw [not_or, List.isEmpty_iff, Bool.not_eq_true] at hprogress
            exact .stuck s hempty hquiet hprogress.1 hprogress.2

end Termination

/-! ## The order of the keys -/

section Order

variable {R : Runtime} {ι : Type} {H : Values ι} {values values' : List (JsString × ι)}
  {path : FieldPath} {protectedTerms : Option Terms} {outer target : Terms}

theorem dependsOn_congr (h : ∀ name, values'.lookup name = values.lookup name) :
    DependsOn H values' path = DependsOn H values path := by
  funext name other
  simp only [DependsOn, h]

/-- What expands and accepts the definitions does so in every order of them. -/
theorem Solves.congr (hsolves : Solves R H values path protectedTerms outer target)
    (h : ∀ name, values'.lookup name = values.lookup name) :
    Solves R H values' path protectedTerms outer target := by
  have hcheck : ∀ name,
      checkTermName H protectedTerms.isNone values' (path ++ [.key name]) name =
        checkTermName H protectedTerms.isNone values (path ++ [.key name]) name :=
    fun name => checkTermName_congr (h name)
  obtain ⟨⟨hothers, hskipped, hdefined⟩, ⟨hnamed, hwellFormed, hresolvable, hcompatible⟩⟩ :=
    hsolves
  constructor
  · constructor
    · simpa only [h] using hothers
    · simpa only [h, hcheck] using hskipped
    · simpa only [h, hcheck] using hdefined
  · constructor
    · simpa only [h, hcheck] using hnamed
    · simpa only [h, hcheck] using hwellFormed
    · simpa only [h, hcheck] using hresolvable
    · simpa only [h, hcheck] using hcompatible

/-- A context object is resolved independently of the order of its keys. -/
theorem applyContextTerms_resolves (hnodup : (values.map Prod.fst).Nodup)
    (hcolon : ∀ name term, outer.lookup name = some term → unit ':' ∉ name) :
    ResolvesContext R H values path protectedTerms outer := by
  constructor
  · exact ⟨_, sweeps_sweepAll hnodup (Nat.le_refl (values.map Prod.fst).length), rfl⟩
  · constructor
    · rintro ⟨result, hresult⟩
      exact ⟨acyclic_of_accepted hnodup hcolon hresult, result,
        expands_of_accepted hnodup hresult⟩
    · rintro ⟨hacyclic, terms, hexpands, haccepts⟩
      exact exists_result ⟨hexpands, haccepts⟩ hacyclic hnodup
  · intro result hresult
    exact ⟨(expands_of_accepted hnodup hresult).1,
      fun terms hterms name => expands_unique hnodup hresult hterms name⟩
  · intro values' hperm result hresult
    have hnodup' : (values'.map Prod.fst).Nodup := (hperm.map Prod.fst).nodup_iff.mpr hnodup
    have hlookup : ∀ name, values'.lookup name = values.lookup name :=
      fun name => AssocList.lookup_perm hperm hnodup' name
    obtain ⟨hexpands, haccepts⟩ := expands_of_accepted hnodup hresult
    have hsolves := (Solves.mk hexpands haccepts).congr hlookup
    have hacyclic : Acyclic (DependsOn H values' path) := by
      rw [dependsOn_congr hlookup]
      exact acyclic_of_accepted hnodup hcolon hresult
    obtain ⟨result', hresult'⟩ := exists_result hsolves hacyclic hnodup'
    exact ⟨result', hresult',
      fun name => (expands_unique hnodup' hresult' hsolves.expands name).symm⟩

end Order

/-- Definitions of which the first names the last. -/
def chainedDefinitions : List (JsString × Json) :=
  [(js "name", .str (js "vocab:name")), (js "id", .str (js "@id")),
    (js "vocab", .str (js "https://local.example/vocab#"))]

/-- A term that they shadow. -/
def shadowedTerms : Terms := [(js "name", ⟨js "https://old.example/name", none, none, false⟩)]

theorem applyContextTerms_resolves_chained :
    ResolvesContext reducedRuntime Json.tree chainedDefinitions [] (some []) shadowedTerms := by
  apply applyContextTerms_resolves
  · decide
  · intro name term hlookup
    have hmem := AssocList.mem_of_lookup_eq_some hlookup
    rw [shadowedTerms, List.mem_singleton] at hmem
    rw [(Prod.mk.inj hmem).1]
    decide

example :
    applyContextTerms reducedRuntime Json.tree chainedDefinitions [] shadowedTerms (some []) =
      ([], [(js "id", ⟨js "@id", none, none, false⟩),
        (js "vocab", ⟨js "https://local.example/vocab#", none, none, true⟩),
        (js "name", ⟨js "https://local.example/vocab#name", none, none, false⟩)]) := by
  decide

end DrFed.Document
