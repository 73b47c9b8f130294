import DrFed.Document.Dependence
import DrFed.Support.Acyclic

/-!
# Resolution of a context

The definitions of a context object are resolved whatever the order of its
keys is: just when each of them can be read in one common term map and none
depends on itself, and then to that map.
-/

namespace DrFed.Document

open Relation

section Resolved

variable (R : Runtime) {ι : Type} (H : Values ι) (values : List (JsString × ι))
  (path : FieldPath) (protectedTerms : Option Terms)

/-- Every definition is expanded by the map itself, and every other term is
that of the outer map. -/
structure Expands (outer terms : Terms) : Prop where
  others : ∀ name, values.lookup name = none → terms.lookup name = outer.lookup name
  skipped : ∀ name, values.lookup name ≠ none →
    checkTermName H protectedTerms.isNone values (path ++ [.key name]) name = some none →
      terms.lookup name = none
  defined : ∀ name definition term, values.lookup name = some definition →
    checkTermName H protectedTerms.isNone values (path ++ [.key name]) name = none →
      readContextTerm R H definition (path ++ [.key name]) terms [] = .ok term →
        terms.lookup name = some term

/-- In a complete map every definition is well formed, resolvable and compatible
with the protected terms. -/
structure Accepts (terms : Terms) : Prop where
  named : ∀ name, values.lookup name ≠ none → ∀ d,
    checkTermName H protectedTerms.isNone values (path ++ [.key name]) name ≠ some (some d)
  wellFormed : ∀ name definition, values.lookup name = some definition →
    checkTermName H protectedTerms.isNone values (path ++ [.key name]) name = none → ∀ d,
      readContextTerm R H definition (path ++ [.key name]) terms [] ≠ .error (some d)
  resolvable : ∀ name definition, values.lookup name = some definition →
    checkTermName H protectedTerms.isNone values (path ++ [.key name]) name = none →
      readContextTerm R H definition (path ++ [.key name]) terms [] ≠ .error none
  compatible : ∀ name definition term original, values.lookup name = some definition →
    checkTermName H protectedTerms.isNone values (path ++ [.key name]) name = none →
      readContextTerm R H definition (path ++ [.key name]) terms [] = .ok term →
        (protectedTerms.bind fun terms => terms.lookup name) = some original →
          original = term

/-- The loop over the pending names, sweep after sweep. -/
inductive Sweeps : Sweep → Sweep → Prop
  | done (s : Sweep) (hdone : s.pending = []) : Sweeps s s
  | invalid (s : Sweep) (hpending : s.pending ≠ [])
      (hfound : (sweepPending R H values path protectedTerms s).findings ≠ []) :
      Sweeps s (sweepPending R H values path protectedTerms s)
  | stuck (s : Sweep) (hpending : s.pending ≠ [])
      (hquiet : (sweepPending R H values path protectedTerms s).findings = [])
      (hunresolved : (sweepPending R H values path protectedTerms s).resolved = false)
      (hleft : (sweepPending R H values path protectedTerms s).pending ≠ []) :
      Sweeps s (reportUnresolved path (sweepPending R H values path protectedTerms s))
  | next (s final : Sweep) (hpending : s.pending ≠ [])
      (hquiet : (sweepPending R H values path protectedTerms s).findings = [])
      (hprogress : (sweepPending R H values path protectedTerms s).resolved = true ∨
        (sweepPending R H values path protectedTerms s).pending = [])
      (hrest : Sweeps (sweepPending R H values path protectedTerms s) final) :
      Sweeps s final

/-- The state in which the loop starts. -/
def startSweep (outer : Terms) : Sweep where
  terms := AssocList.removeAll (values.map Prod.fst) outer
  pending := values.map Prod.fst
  findings := []
  resolved := false

/-- What it means that a context object is resolved independently of the order
of its keys. -/
structure ResolvesContext (outer : Terms) : Prop where
  terminates : ∃ final, Sweeps R H values path protectedTerms (startSweep values outer) final ∧
    applyContextTerms R H values path outer protectedTerms = (final.findings, final.terms)
  succeeds : (∃ result, applyContextTerms R H values path outer protectedTerms = ([], result)) ↔
    Acyclic (DependsOn H values path) ∧
      ∃ terms, Expands R H values path protectedTerms outer terms ∧
        Accepts R H values path protectedTerms terms
  expands : ∀ result, applyContextTerms R H values path outer protectedTerms = ([], result) →
    Expands R H values path protectedTerms outer result ∧
      ∀ terms, Expands R H values path protectedTerms outer terms →
        ∀ name, terms.lookup name = result.lookup name
  ordered : ∀ values', values'.Perm values → ∀ result,
    applyContextTerms R H values path outer protectedTerms = ([], result) →
      ∃ result', applyContextTerms R H values' path outer protectedTerms = ([], result') ∧
        ∀ name, result'.lookup name = result.lookup name

end Resolved

/-! ## Accepted objects -/

section Accepted

variable {R : Runtime} {ι : Type} {H : Values ι} {values : List (JsString × ι)}
  {path : FieldPath} {protectedTerms : Option Terms} {outer result : Terms}

theorem lookup_ne_none_iff {name : JsString} :
    values.lookup name ≠ none ↔ name ∈ values.map Prod.fst := by
  rw [Ne, AssocList.lookup_eq_none_iff, not_not]

/-- What is left of a name that is no longer pending. -/
def Done (R : Runtime) (H : Values ι) (values : List (JsString × ι)) (path : FieldPath)
    (protectedTerms : Option Terms) (terms : Terms) (pending : List JsString)
    (name : JsString) : Prop :=
  (checkTermName H protectedTerms.isNone values (path ++ [.key name]) name = some none ∧
    terms.lookup name = none) ∨
  (checkTermName H protectedTerms.isNone values (path ++ [.key name]) name = none ∧
    ∃ definition term, values.lookup name = some definition ∧
      readContextTerm R H definition (path ++ [.key name]) terms pending = .ok term ∧
      terms.lookup name = some term ∧
      ∀ original, (protectedTerms.bind fun terms => terms.lookup name) = some original →
        original = term)

/-- What holds between two turns of the loop over an accepted object. -/
structure Partial (R : Runtime) (H : Values ι) (values : List (JsString × ι))
    (path : FieldPath) (protectedTerms : Option Terms) (outer terms : Terms)
    (pending : List JsString) : Prop where
  names : ∀ name ∈ pending, values.lookup name ≠ none
  others : ∀ name, values.lookup name = none → terms.lookup name = outer.lookup name
  fresh : ∀ name ∈ pending, terms.lookup name = none
  settled : ∀ name, values.lookup name ≠ none → name ∉ pending →
    Done R H values path protectedTerms terms pending name

/-- What is done stays done while other names are resolved. -/
theorem Done.keep {terms terms' : Terms} {pending pending' : List JsString} {name : JsString}
    (h : Done R H values path protectedTerms terms pending name)
    (hname : name ∉ pending) (hpending : ∀ other ∈ pending', other ∈ pending)
    (hagree : ∀ other, other ∉ pending → terms.lookup other = terms'.lookup other) :
    Done R H values path protectedTerms terms' pending' name := by
  rcases h with ⟨hskip, hnone⟩ | ⟨hcheck, definition, term, hlookup, hread, hterm, hallowed⟩
  · exact .inl ⟨hskip, (hagree name hname).symm.trans hnone⟩
  · exact .inr ⟨hcheck, definition, term, hlookup,
      readContextTerm_settled hread hpending hagree, (hagree name hname).symm.trans hterm,
      hallowed⟩

theorem partial_invariant :
    SweepInvariant R H values path protectedTerms
      (Partial R H values path protectedTerms outer) := by
  constructor
  · intro terms pending name hnodup h hskip
    refine ⟨fun other hother => h.names other (List.mem_of_mem_erase hother), h.others,
      fun other hother => h.fresh other (List.mem_of_mem_erase hother), ?_⟩
    intro other hlookup hother
    by_cases hmem : other ∈ pending
    · obtain rfl : other = name := by
        by_contra hne
        exact hother ((List.mem_erase_of_ne hne).mpr hmem)
      exact .inl ⟨hskip, h.fresh other hmem⟩
    · exact (h.settled other hlookup hmem).keep hmem (fun _ => List.mem_of_mem_erase)
        fun _ _ => rfl
  · intro terms pending name term hnodup h hresolution
    have hagree : ∀ other, other ∉ pending →
        terms.lookup other = (AssocList.put name term terms).lookup other := by
      intro other hother
      have hne : other ≠ name := fun heq => hother (heq ▸ hresolution.isPending)
      rw [AssocList.lookup_put, if_neg hne]
    obtain ⟨definition, hlookup, hread⟩ := hresolution.definition
    refine ⟨fun other hother => h.names other (List.mem_of_mem_erase hother), ?_, ?_, ?_⟩
    · intro other hother
      have hne : other ≠ name := by
        rintro rfl
        exact h.names other hresolution.isPending hother
      rw [AssocList.lookup_put, if_neg hne]
      exact h.others other hother
    · intro other hother
      have hne : other ≠ name := by
        rintro rfl
        exact hnodup.not_mem_erase hother
      rw [AssocList.lookup_put, if_neg hne]
      exact h.fresh other (List.mem_of_mem_erase hother)
    · intro other hother hgone
      by_cases hmem : other ∈ pending
      · obtain rfl : other = name := by
          by_contra hne
          exact hgone ((List.mem_erase_of_ne hne).mpr hmem)
        refine .inr ⟨hresolution.named, definition, term, hlookup, ?_, ?_, hresolution.allowed⟩
        · exact readContextTerm_settled hread (fun _ => List.mem_of_mem_erase) hagree
        · rw [AssocList.lookup_put, if_pos rfl]
      · exact (h.settled other hother hmem).keep hmem (fun _ => List.mem_of_mem_erase) hagree

theorem partial_start :
    Partial R H values path protectedTerms outer
      (AssocList.removeAll (values.map Prod.fst) outer) (values.map Prod.fst) := by
  refine ⟨fun name => lookup_ne_none_iff.mpr, ?_, ?_, ?_⟩
  · intro name hname
    rw [AssocList.lookup_removeAll, if_neg fun hmem => lookup_ne_none_iff.mpr hmem hname]
  · intro name hname
    rw [AssocList.lookup_removeAll, if_pos hname]
  · intro name hname hgone
    exact absurd (lookup_ne_none_iff.mp hname) hgone

/-- An accepted object is expanded by the resulting map. -/
theorem expands_of_accepted (hnodup : (values.map Prod.fst).Nodup)
    (h : applyContextTerms R H values path outer protectedTerms = ([], result)) :
    Expands R H values path protectedTerms outer result ∧
      Accepts R H values path protectedTerms result := by
  have hstart : Partial R H values path protectedTerms outer
      (AssocList.removeAll (values.map Prod.fst) outer) (values.map Prod.fst) := partial_start
  have hfinal := applyContextTerms_invariant R H partial_invariant hnodup hstart h
  have hdone : ∀ name, values.lookup name ≠ none →
      Done R H values path protectedTerms result [] name :=
    fun name hname => hfinal.settled name hname List.not_mem_nil
  have hread : ∀ name definition, values.lookup name = some definition →
      checkTermName H protectedTerms.isNone values (path ++ [.key name]) name = none →
        ∃ term, readContextTerm R H definition (path ++ [.key name]) result [] = .ok term ∧
          result.lookup name = some term ∧
          ∀ original, (protectedTerms.bind fun terms => terms.lookup name) = some original →
            original = term := by
    intro name definition hlookup hcheck
    have hsome : values.lookup name ≠ none := by
      rw [hlookup]
      exact Option.some_ne_none definition
    rcases hdone name hsome with ⟨hskip, -⟩ | ⟨-, other, term, hother, hread, hterm, hallowed⟩
    · rw [hcheck] at hskip
      cases hskip
    · obtain rfl := Option.some.inj (hlookup.symm.trans hother)
      exact ⟨term, hread, hterm, hallowed⟩
  constructor
  · refine ⟨hfinal.others, ?_, ?_⟩
    · intro name hname hskip
      rcases hdone name hname with ⟨-, hnone⟩ | ⟨hcheck, -⟩
      · exact hnone
      · rw [hcheck] at hskip
        cases hskip
    · intro name definition term hlookup hcheck hok
      obtain ⟨other, hother, hterm, -⟩ := hread name definition hlookup hcheck
      rw [hok] at hother
      rw [hterm, Except.ok.inj hother]
  · refine ⟨?_, ?_, ?_, ?_⟩
    · intro name hname d hbad
      rcases hdone name hname with ⟨hskip, -⟩ | ⟨hcheck, -⟩
      · rw [hskip] at hbad
        cases hbad
      · rw [hcheck] at hbad
        cases hbad
    · intro name definition hlookup hcheck d hbad
      obtain ⟨term, hok, -⟩ := hread name definition hlookup hcheck
      rw [hok] at hbad
      cases hbad
    · intro name definition hlookup hcheck hbad
      obtain ⟨term, hok, -⟩ := hread name definition hlookup hcheck
      rw [hok] at hbad
      cases hbad
    · intro name definition term original hlookup hcheck hok horiginal
      obtain ⟨other, hother, -, hallowed⟩ := hread name definition hlookup hcheck
      rw [hok] at hother
      rw [Except.ok.inj hother]
      exact hallowed original horiginal

/-- No other map expands the definitions of an accepted object. -/
theorem expands_unique (hnodup : (values.map Prod.fst).Nodup)
    (h : applyContextTerms R H values path outer protectedTerms = ([], result)) {terms : Terms}
    (hterms : Expands R H values path protectedTerms outer terms) (name : JsString) :
    terms.lookup name = result.lookup name := by
  have hinv : SweepInvariant R H values path protectedTerms fun t pending =>
      (∀ name ∈ pending, values.lookup name ≠ none ∧ t.lookup name = none) ∧
        ∀ name, name ∉ pending → t.lookup name = terms.lookup name := by
    constructor
    · rintro t pending skipped hpending ⟨hnames, hagree⟩ hskip
      refine ⟨fun other hother => hnames other (List.mem_of_mem_erase hother), ?_⟩
      intro other hother
      by_cases hmem : other ∈ pending
      · obtain rfl : other = skipped := by
          by_contra hne
          exact hother ((List.mem_erase_of_ne hne).mpr hmem)
        rw [(hnames other hmem).2, hterms.skipped other (hnames other hmem).1 hskip]
      · exact hagree other hmem
    · rintro t pending resolved term hpending ⟨hnames, hagree⟩ hresolution
      constructor
      · intro other hother
        have hne : other ≠ resolved := by
          rintro rfl
          exact hpending.not_mem_erase hother
        rw [AssocList.lookup_put, if_neg hne]
        exact hnames other (List.mem_of_mem_erase hother)
      · intro other hother
        rw [AssocList.lookup_put]
        split
        next heq =>
          subst heq
          obtain ⟨definition, hlookup, hread⟩ := hresolution.definition
          have hsame : readContextTerm R H definition (path ++ [.key other]) terms [] =
              .ok term :=
            readContextTerm_settled hread (fun _ hmem => absurd hmem List.not_mem_nil) hagree
          exact (hterms.defined _ definition term hlookup hresolution.named hsame).symm
        next hne =>
          exact hagree other fun hmem => hother ((List.mem_erase_of_ne hne).mpr hmem)
  have hstart : (∀ name ∈ values.map Prod.fst, values.lookup name ≠ none ∧
      (AssocList.removeAll (values.map Prod.fst) outer).lookup name = none) ∧
      ∀ name, name ∉ values.map Prod.fst →
        (AssocList.removeAll (values.map Prod.fst) outer).lookup name = terms.lookup name := by
    constructor
    · intro other hother
      rw [AssocList.lookup_removeAll, if_pos hother]
      exact ⟨lookup_ne_none_iff.mpr hother, rfl⟩
    · intro other hother
      rw [AssocList.lookup_removeAll, if_neg hother]
      exact (hterms.others other (AssocList.lookup_eq_none_iff.mpr hother)).symm
  have hfinal := applyContextTerms_invariant R H hinv hnodup hstart h
  exact (hfinal.2 name List.not_mem_nil).symm

/-- A resolved definition depends on no pending name. -/
theorem Resolution.not_pending {terms : Terms} {pending : List JsString}
    {name other : JsString} {term : ContextTerm}
    (h : Resolution R H values path protectedTerms terms pending name term)
    (hnamed : ∀ name, values.lookup name ≠ none → ∀ d,
      checkTermName H protectedTerms.isNone values (path ++ [.key name]) name ≠ some (some d))
    (hcolon : ∀ name term, terms.lookup name = some term → unit ':' ∉ name)
    (hdepends : DependsOn H values path name other) : other ∉ pending := by
  intro hpending
  obtain ⟨-, hother, definition, hlookup, text, htext, hmention⟩ := hdepends
  obtain ⟨definition', hlookup', hread⟩ := h.definition
  obtain rfl := Option.some.inj (hlookup.symm.trans hlookup')
  have hresolved := (resolved_of_readContextTerm hread htext).1
  have hkeyword : ¬ (text = js "@id" ∨ text = js "@type") := by
    -- A keyword names itself only, and is no name of a definition.
    intro hkeyword
    have hsame : other = text := by
      rcases mem_mentions.mp hmention with heq | ⟨suffix, hcut⟩
      · exact heq
      · rcases hkeyword with rfl | rfl <;> cases hcut
    have hat : startsWithAt other = true ∧ other ≠ js "@vocab" := by
      rw [hsame]
      rcases hkeyword with rfl | rfl <;> decide
    obtain ⟨d, hd⟩ := @checkTermName_keyword ι H protectedTerms.isNone values
      (path ++ [.key other]) other hat.1 hat.2
    have hsome : values.lookup other ≠ none := by
      rw [← Option.isSome_iff_ne_none]
      exact hother
    exact hnamed other hsome d hd
  apply hresolved
  apply resolveTerm_pending hmention hpending hkeyword
  intro hne
  obtain ⟨suffix, hcut⟩ := (mem_mentions.mp hmention).resolve_left hne
  cases hterm : terms.lookup text with
  | none => rfl
  | some found =>
      apply absurd _ (hcolon text found hterm)
      rw [(cutColon_eq_some hcut).1]
      exact List.mem_append_right _ List.mem_cons_self

/-- The definitions of an accepted object do not depend on themselves: those
that are no longer pending are settled. -/
theorem acyclic_of_accepted (hnodup : (values.map Prod.fst).Nodup)
    (hcolon : ∀ name term, outer.lookup name = some term → unit ':' ∉ name)
    (h : applyContextTerms R H values path outer protectedTerms = ([], result)) :
    Acyclic (DependsOn H values path) := by
  have hnamed := (expands_of_accepted hnodup h).2.named
  have hinv : SweepInvariant R H values path protectedTerms fun terms pending =>
      Settled (DependsOn H values path) {name | name ∉ pending} ∧
        ∀ name term, terms.lookup name = some term → unit ':' ∉ name := by
    have herase : ∀ (pending : List JsString) (name : JsString), pending.Nodup →
        name ∈ pending →
          {other | other ∉ pending.erase name} = insert name {other | other ∉ pending} := by
      intro pending name hpending hname
      ext other
      rw [Set.mem_ofPred_eq, Set.mem_insert_iff, Set.mem_ofPred_eq, hpending.mem_erase_iff,
        not_and_or, not_not]
    constructor
    · rintro terms pending name hpending ⟨hsettled, hterms⟩ hskip
      refine ⟨?_, hterms⟩
      have hkeyword : startsWithAt name = true := by
        rw [checkTermName_eq_skip hskip]
        rfl
      by_cases hname : name ∈ pending
      · rw [herase pending name hpending hname]
        apply hsettled.insert (not_not.mpr hname)
        intro other hdepends
        rw [hdepends.1] at hkeyword
        cases hkeyword
      · rwa [List.erase_of_not_mem hname]
    · rintro terms pending name term hpending ⟨hsettled, hterms⟩ hresolution
      constructor
      · rw [herase pending name hpending hresolution.isPending]
        apply hsettled.insert (not_not.mpr hresolution.isPending)
        exact fun other hdepends => hresolution.not_pending hnamed hterms hdepends
      · intro other found hfound
        rw [AssocList.lookup_put] at hfound
        split at hfound
        next heq =>
          subst heq
          exact (checkTermName_eq_none hresolution.named).2.1
        next => exact hterms other found hfound
  have hstart : Settled (DependsOn H values path) {name | name ∉ values.map Prod.fst} := by
    have hnone : ∀ name, name ∉ values.map Prod.fst → ∀ other,
        ¬ DependsOn H values path name other := by
      rintro name hname other ⟨-, -, definition, hlookup, -⟩
      rw [AssocList.lookup_eq_none_iff.mpr hname] at hlookup
      cases hlookup
    refine ⟨fun name hname other hdepends => absurd hdepends (hnone name hname other), ?_⟩
    intro name hname hcycle
    obtain ⟨other, hfirst, -⟩ := TransGen.head'_iff.mp hcycle
    exact hnone name hname other hfirst
  have hterms : ∀ name term,
      (AssocList.removeAll (values.map Prod.fst) outer).lookup name = some term →
        unit ':' ∉ name := by
    intro name term hlookup
    rw [AssocList.lookup_removeAll] at hlookup
    split at hlookup
    next => cases hlookup
    next => exact hcolon name term hlookup
  have hfinal := (applyContextTerms_invariant R H hinv hnodup ⟨hstart, hterms⟩ h).1
  have huniv : {name : JsString | name ∉ ([] : List JsString)} = Set.univ := by
    ext name
    simp
  rw [huniv] at hfinal
  exact hfinal.acyclic_univ

end Accepted

end DrFed.Document
