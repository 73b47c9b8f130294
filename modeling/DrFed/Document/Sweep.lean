import DrFed.Document.Reading

/-!
# Runs of the sweep

Once a context object is accepted, the sweep over its definitions is a
sequence of resolutions, each of a pending name whose definition reads only
names that are not pending any more.  Invariants of the term map are proved
from what one resolution does.
-/

namespace DrFed.Document

section Runs

variable (R : Runtime) {ι : Type} (H : Values ι) {values : List (JsString × ι)}
  {path : FieldPath} {protectedTerms : Option Terms}

/-- A definition that a sweep resolves, against the terms and the pending
names of that moment. -/
structure Resolution (values : List (JsString × ι)) (path : FieldPath)
    (protectedTerms : Option Terms) (terms : Terms) (pending : List JsString)
    (name : JsString) (term : ContextTerm) : Prop where
  isPending : name ∈ pending
  named : checkTermName H protectedTerms.isNone values
    (path ++ [.key name]) name = none
  definition : ∃ definition, values.lookup name = some definition ∧
    readContextTerm R H definition (path ++ [.key name]) terms
      pending = .ok term
  allowed : ∀ original,
    (protectedTerms.bind fun terms => terms.lookup name) = some original →
      original = term

/-- What one turn of the loop does to a sweep without findings. -/
theorem sweepName_cases {s : Sweep} {name : JsString}
    (hpending : name ∈ s.pending)
    (hafter : (sweepName R H values path protectedTerms s
      name).findings = []) :
    sweepName R H values path protectedTerms s name = s ∨
    (checkTermName H protectedTerms.isNone values (path ++ [.key name]) name =
        some none ∧
      sweepName R H values path protectedTerms s name =
        { s with pending := s.pending.erase name }) ∨
    ∃ term, Resolution R H values path protectedTerms s.terms s.pending name
        term ∧
      sweepName R H values path protectedTerms s name =
        { terms := AssocList.put name term s.terms
          pending := s.pending.erase name
          findings := s.findings
          resolved := true } := by
  have hfind : ∀ d, (s.find d).findings ≠ [] := by simp [Sweep.find]
  unfold sweepName at hafter ⊢
  dsimp only at hafter ⊢
  split at hafter
  · exact absurd hafter (hfind _)
  next hname =>
    exact .inr (.inl ⟨hname, rfl⟩)
  next hname =>
    split at hafter
    next hlookup => exact .inl rfl
    next definition hlookup =>
      split at hafter
      next hread => exact .inl rfl
      next d hread => exact absurd hafter (hfind _)
      next term hread =>
        split at hafter
        · exact absurd hafter (hfind _)
        next hallowed =>
          rw [if_neg hallowed]
          refine .inr (.inr ⟨term, ⟨hpending, hname,
            ⟨definition, hlookup, hread⟩, fun original horiginal => ?_⟩, rfl⟩)
          by_contra hne
          apply hallowed
          rw [horiginal]
          exact ⟨rfl, fun h => hne (Option.some.inj h)⟩

variable {I : Terms → List JsString → Prop}

/-- An invariant of the term map that skipping a keyword and resolving a
pending name preserve. -/
structure SweepInvariant (values : List (JsString × ι)) (path : FieldPath)
    (protectedTerms : Option Terms)
    (I : Terms → List JsString → Prop) : Prop where
  skip : ∀ terms pending name, pending.Nodup → I terms pending →
    checkTermName H protectedTerms.isNone values (path ++ [.key name]) name =
      some none → I terms (pending.erase name)
  resolve : ∀ terms pending name term, pending.Nodup → I terms pending →
    Resolution R H values path protectedTerms terms pending name term →
    I (AssocList.put name term terms) (pending.erase name)

/-- Findings never disappear. -/
theorem sweepName_findings {s : Sweep} {name : JsString}
    (h : (sweepName R H values path protectedTerms s name).findings =
      []) : s.findings = [] := by
  have hfind : ∀ d, (s.find d).findings ≠ [] := by simp [Sweep.find]
  unfold sweepName at h
  dsimp only at h
  split at h
  · exact absurd h (hfind _)
  · exact h
  · split at h
    · exact h
    · split at h
      · exact h
      · exact absurd h (hfind _)
      · split at h
        · exact absurd h (hfind _)
        · exact h

theorem sweepNames_findings {names : List JsString} {s : Sweep}
    (h : (names.foldl (sweepName R H values path protectedTerms)
      s).findings = []) : s.findings = [] := by
  induction names generalizing s with
  | nil => exact h
  | cons name rest ih => exact sweepName_findings R H (ih h)

/-- One sweep preserves an invariant. -/
theorem sweepNames_invariant
    (hinv : SweepInvariant R H values path protectedTerms I)
    {names : List JsString} {s : Sweep} (hnames : names.Nodup)
    (hsub : ∀ name ∈ names, name ∈ s.pending) (hnodup : s.pending.Nodup)
    (hI : I s.terms s.pending)
    (h : (names.foldl (sweepName R H values path protectedTerms)
      s).findings = []) :
    let swept := names.foldl (sweepName R H values path
      protectedTerms) s
    swept.pending.Nodup ∧ I swept.terms swept.pending := by
  induction names generalizing s with
  | nil => exact ⟨hnodup, hI⟩
  | cons name rest ih =>
      rw [List.nodup_cons] at hnames
      have hafter : (sweepName R H values path protectedTerms s
          name).findings = [] := sweepNames_findings R H h
      have hrest : ∀ other ∈ rest, other ∈ s.pending.erase name := by
        intro other hother
        have hne : other ≠ name := fun heq => hnames.1 (heq ▸ hother)
        exact (List.mem_erase_of_ne hne).mpr
          (hsub other (List.mem_cons_of_mem _ hother))
      have hmem := hsub name List.mem_cons_self
      rw [List.foldl_cons] at h ⊢
      rcases sweepName_cases R H hmem hafter with heq | ⟨hskip, heq⟩ |
        ⟨term, hresolution, heq⟩
      · rw [heq] at h ⊢
        exact ih hnames.2
          (fun other hother => hsub other (List.mem_cons_of_mem _ hother))
          hnodup hI h
      · rw [heq] at h ⊢
        exact ih hnames.2 hrest (hnodup.erase name)
          (hinv.skip _ _ name hnodup hI hskip) h
      · rw [heq] at h ⊢
        exact ih hnames.2 hrest (hnodup.erase name)
          (hinv.resolve _ _ name term hnodup hI hresolution) h

/-- Sweeping to the end preserves an invariant and leaves nothing pending. -/
theorem sweepAll_invariant
    (hinv : SweepInvariant R H values path protectedTerms I) {fuel : ℕ}
    {s : Sweep} (hnodup : s.pending.Nodup) (hI : I s.terms s.pending)
    (h : (sweepAll R H values path protectedTerms fuel s).findings =
      []) :
    I (sweepAll R H values path protectedTerms fuel s).terms [] := by
  have hunresolved : ∀ s : Sweep, (reportUnresolved path s).findings = [] →
      s.pending = [] := by
    intro s hs
    unfold reportUnresolved at hs
    cases hpending : s.pending with
    | nil => rfl
    | cons name rest =>
        rw [hpending, List.foldl_cons] at hs
        have hmono : ∀ (names : List JsString) (acc : Sweep),
            (names.foldl (fun acc name => acc.find ⟨.invalidContext,
              path ++ [.key name],
              "The term has an unresolved or cyclic IRI mapping."⟩)
              acc).findings = [] → acc.findings = [] := by
          intro names
          induction names with
          | nil => exact fun acc h => h
          | cons other others ih =>
              intro acc h
              have := ih _ h
              simp [Sweep.find] at this
        have := hmono rest _ hs
        simp [Sweep.find] at this
  induction fuel generalizing s with
  | zero =>
      unfold sweepAll at h ⊢
      split at h
      next hempty =>
        rw [if_pos hempty]
        rw [List.isEmpty_iff] at hempty
        exact hempty ▸ hI
      next hempty =>
        rw [List.isEmpty_iff] at hempty
        exact absurd (hunresolved s h) hempty
  | succ fuel ih =>
      unfold sweepAll at h ⊢
      split at h
      next hempty =>
        rw [if_pos hempty]
        rw [List.isEmpty_iff] at hempty
        exact hempty ▸ hI
      next hempty =>
        rw [if_neg hempty]
        dsimp only at h ⊢
        have hswept : ∀ hquiet :
            (sweepPending R H values path protectedTerms s).findings =
              [], (sweepPending R H values path protectedTerms
                s).pending.Nodup ∧
              I (sweepPending R H values path protectedTerms s).terms
                (sweepPending R H values path protectedTerms
                  s).pending :=
          fun hquiet => sweepNames_invariant R H hinv hnodup
            (fun name hname => hname) hnodup hI hquiet
        split at h
        next hfindings =>
          simp [h] at hfindings
        next hfindings =>
          rw [if_neg hfindings]
          have hquiet : (sweepPending R H values path protectedTerms
              s).findings = [] := by simpa using hfindings
          obtain ⟨hnodup', hI'⟩ := hswept hquiet
          split at h
          next hprogress =>
            rw [if_pos hprogress]
            exact ih hnodup' hI' h
          next hprogress =>
            rw [not_or, List.isEmpty_iff] at hprogress
            exact absurd (hunresolved _ h) hprogress.2

/-- The invariant rule for an accepted context object. -/
theorem applyContextTerms_invariant
    (hinv : SweepInvariant R H values path protectedTerms I)
    (hnodup : (values.map Prod.fst).Nodup) {terms result : Terms}
    (hI : I (AssocList.removeAll (values.map Prod.fst) terms)
      (values.map Prod.fst))
    (h : applyContextTerms R H values path terms protectedTerms =
      ([], result)) : I result [] := by
  unfold applyContextTerms at h
  obtain ⟨hfindings, rfl⟩ := Prod.mk.inj h
  exact sweepAll_invariant R H hinv (s := ⟨_, _, [], false⟩) hnodup hI hfindings

end Runs

/-! ## What a definition resolves to -/

/-- The IRI mapping that a definition states. -/
def definitionId : Json → Option JsString
  | .str id => some id
  | .obj ms =>
      match (ownProperties ms).lookup (js "@id") with
      | some (.str id) => some id
      | _ => none
  | _ => none

/-- A definition by a plain string. -/
def isSimpleDefinition : Json → Bool
  | .str _ => true
  | _ => false

/-- A definition with `@prefix: true`. -/
def declaresPrefix : Json → Bool
  | .obj ms =>
      match (ownProperties ms).lookup (js "@prefix") with
      | some (.bool flag) => flag
      | _ => false
  | _ => false

section Terms

variable (R : Runtime)

/-- What an accepted definition says of its term. -/
structure ReadTerm (definition : Json) (terms : Terms)
    (pending : List JsString) (term : ContextTerm) : Prop where
  id : ∃ id, definitionId definition = some id ∧
    resolveTerm R id terms pending = some term.iri
  prefixFlag : term.prefixFlag = (declaresPrefix definition ||
    (isSimpleDefinition definition && endsLikePrefix term.iri))
  keyword : startsWithAt term.iri = true → declaresPrefix definition = false

theorem resolveContextTerm_eq_ok {id : JsString}
    {values : List (JsString × Json)} {implicitPrefix : Bool}
    {path : FieldPath} {terms : Terms} {pending : List JsString}
    {term : ContextTerm}
    (h : resolveContextTerm R Json.tree id values implicitPrefix path terms
      pending = .ok term) :
    resolveTerm R id terms pending = some term.iri ∧
      (startsWithAt term.iri = true →
        ∀ entry ∈ values, entry.1 = js "@id") ∧
      ∃ flag, readPrefixFlag Json.tree values path = .ok flag ∧
        term.prefixFlag = (flag || (implicitPrefix &&
          endsLikePrefix term.iri)) := by
  unfold resolveContextTerm at h
  split at h
  · cases h
  next iri hiri =>
    split at h
    · cases h
    next hkeyword =>
      cases htype : readCoercion R Json.tree values path terms pending with
      | error e =>
          rw [htype] at h
          cases h
      | ok type =>
          cases hcontainer : readContainer Json.tree values path with
          | error e =>
              rw [htype, hcontainer] at h
              cases h
          | ok container =>
              cases hflag : readPrefixFlag Json.tree values path with
              | error e =>
                  rw [htype, hcontainer, hflag] at h
                  cases h
              | ok flag =>
                  rw [htype, hcontainer, hflag] at h
                  cases h
                  refine ⟨hiri, fun hat entry hentry => ?_, flag, rfl, rfl⟩
                  by_contra hne
                  exact hkeyword ⟨hat, List.any_eq_true.mpr
                    ⟨entry, hentry, by simpa using hne⟩⟩

theorem readDefinition_eq_ok {values : List (JsString × Json)}
    {implicitPrefix : Bool} {path : FieldPath} {terms : Terms}
    {pending : List JsString} {id : Option JsString} {term : ContextTerm}
    (h : readDefinition R Json.tree values implicitPrefix path terms pending
      id = .ok term) :
    ∃ text, id = some text ∧ resolveContextTerm R Json.tree text values
      implicitPrefix path terms pending = .ok term := by
  unfold readDefinition at h
  split at h
  · cases h
  next text =>
    split at h
    · cases h
    · split at h
      · cases h
      · exact ⟨text, rfl, h⟩

theorem readContextTerm_eq_ok {definition : Json} {path : FieldPath}
    {terms : Terms} {pending : List JsString} {term : ContextTerm}
    (h : readContextTerm R Json.tree definition path terms pending =
      .ok term) : ReadTerm R definition terms pending term := by
  unfold readContextTerm at h
  cases definition with
  | str text =>
      obtain ⟨id, hid, hread⟩ := readDefinition_eq_ok R h
      cases hid
      obtain ⟨hiri, hkeyword, flag, hflag, hbegin⟩ :=
        resolveContextTerm_eq_ok R hread
      have hfalse : flag = false := by
        have hnone : ([(js "@id", Json.str text)] : List _).lookup
            (js "@prefix") = none := rfl
        rw [readPrefixFlag, hnone] at hflag
        exact (Except.ok.inj hflag).symm
      refine ⟨⟨text, rfl, hiri⟩, ?_, fun _ => rfl⟩
      rw [hbegin, hfalse]
      rfl
  | obj ms =>
      simp only [Json.look_tree, Json.shape, readDocument_obj] at h
      unfold readExpandedTerm at h
      split at h
      · cases h
      · split at h
        · cases h
        next idValue hid =>
          obtain ⟨id, hstring, hread⟩ := readDefinition_eq_ok R h
          obtain ⟨hiri, hkeyword, flag, hflag, hbegin⟩ :=
            resolveContextTerm_eq_ok R hread
          have hdefinition : definitionId (.obj ms) = some id := by
            cases idValue with
            | str text =>
                cases hstring
                simp only [definitionId, hid]
            | _ => cases hstring
          have hdeclares : declaresPrefix (.obj ms) = flag := by
            unfold readPrefixFlag at hflag
            split at hflag
            next hnone =>
              cases hflag
              simp only [declaresPrefix, hnone]
            next value hsome =>
              cases value with
              | bool b =>
                  cases hflag
                  simp only [declaresPrefix, hsome]
              | _ => cases hflag
          refine ⟨⟨id, hdefinition, hiri⟩, ?_, fun hat => ?_⟩
          · rw [hbegin, hdeclares]
            rfl
          · simp only [declaresPrefix]
            split
            next b hsome =>
              have := hkeyword hat _ (AssocList.mem_of_lookup_eq_some hsome)
              exact absurd this (by decide : js "@prefix" ≠ js "@id")
            next => rfl
  | _ => cases h

/-! ## Well-formed terms -/

/-- The IRI of a term: one of the two keywords that may be aliased, or an
absolute IRI. -/
def IsTermIri (iri : JsString) : Prop :=
  iri = js "@id" ∨ iri = js "@type" ∨ isSupportedContextUri R iri = true

/-- What holds of every term in force. -/
structure WellFormedTerm (name : JsString) (term : ContextTerm) : Prop where
  iri : IsTermIri R term.iri
  noColon : unit ':' ∉ name
  noKeyword : startsWithAt name = false
  prefixIri : term.prefixFlag = true → isSupportedContextUri R term.iri = true

structure WellFormedTerms (terms : Terms) : Prop where
  nodup : (terms.map Prod.fst).Nodup
  term : ∀ name term, terms.lookup name = some term →
    WellFormedTerm R name term

theorem wellFormedTerms_nil : WellFormedTerms R [] :=
  ⟨by simp, by simp⟩

variable {R}

theorem supportedUri?_eq_some {value iri : JsString}
    (h : supportedUri? R value = some iri) :
    iri = value ∧ isSupportedContextUri R value = true := by
  unfold supportedUri? at h
  split at h
  · exact ⟨(Option.some.inj h).symm, by assumption⟩
  · cases h

theorem resolveTerm_isTermIri {terms : Terms} (hterms : WellFormedTerms R terms)
    {value iri : JsString} {pending : List JsString}
    (h : resolveTerm R value terms pending = some iri) : IsTermIri R iri := by
  have huri : ∀ v, supportedUri? R v = some iri → IsTermIri R iri := by
    intro v hv
    obtain ⟨rfl, huri⟩ := supportedUri?_eq_some hv
    exact .inr (.inr huri)
  unfold resolveTerm at h
  split at h
  next hkeyword =>
    obtain rfl := Option.some.inj h
    exact hkeyword.elim .inl fun h => .inr (.inl h)
  next =>
    split at h
    · cases h
    · split at h
      next term hlookup =>
        obtain rfl := Option.some.inj h
        exact (hterms.term value term hlookup).iri
      next =>
        split at h
        · cases h
        · split at h
          · cases h
          · split at h
            · split at h <;> exact huri _ h
            · exact huri _ h

theorem checkTermName_eq_none {ι : Type} {H : Values ι} {isBundled : Bool}
    {values : List (JsString × ι)} {path : FieldPath} {name : JsString}
    (h : checkTermName H isBundled values path name = none) :
    name ≠ [] ∧ unit ':' ∉ name ∧ startsWithAt name = false := by
  unfold checkTermName at h
  split at h
  · cases h
  next hempty =>
    split at h
    · cases h
    next hcolon =>
      split at h
      · split at h <;> cases h
      next hat => exact ⟨by simpa using hempty, by simpa using hcolon,
          by simpa using hat⟩

theorem Resolution.wellFormed {values : List (JsString × Json)}
    {path : FieldPath} {protectedTerms : Option Terms} {terms : Terms}
    {pending : List JsString} {name : JsString} {term : ContextTerm}
    (h : Resolution R Json.tree values path protectedTerms terms pending name term)
    (hterms : WellFormedTerms R terms) : WellFormedTerm R name term := by
  obtain ⟨-, hcolon, hat⟩ := checkTermName_eq_none h.named
  obtain ⟨definition, -, hread⟩ := h.definition
  have hterm := readContextTerm_eq_ok R hread
  obtain ⟨id, -, hresolve⟩ := hterm.id
  have hiri := resolveTerm_isTermIri hterms hresolve
  have hkeyword : ∀ keyword, startsWithAt keyword = true →
      endsLikePrefix keyword = false → term.iri = keyword →
      term.prefixFlag = false := by
    intro keyword hstart hends heq
    rw [hterm.prefixFlag, hterm.keyword (heq ▸ hstart), heq, hends]
    simp
  refine ⟨hiri, hcolon, hat, fun hflag => ?_⟩
  rcases hiri with heq | heq | huri
  · rw [hkeyword _ (by decide) (by decide) heq] at hflag
    contradiction
  · rw [hkeyword _ (by decide) (by decide) heq] at hflag
    contradiction
  · exact huri

theorem applyContextTerms_wellFormed {values : List (JsString × Json)}
    {path : FieldPath} {protectedTerms : Option Terms} {terms result : Terms}
    (hnodup : (values.map Prod.fst).Nodup) (hterms : WellFormedTerms R terms)
    (h : applyContextTerms R Json.tree values path terms protectedTerms =
      ([], result)) : WellFormedTerms R result := by
  refine applyContextTerms_invariant R Json.tree (I := fun t _ => WellFormedTerms R t)
    ⟨fun _ _ _ _ hI _ => hI, ?_⟩ hnodup ?_ h
  · intro t pending name term _ hI hresolution
    refine ⟨AssocList.nodup_put hI.nodup, fun other found hfound => ?_⟩
    rw [AssocList.lookup_put] at hfound
    split at hfound
    next heq =>
      obtain rfl := Option.some.inj hfound
      exact heq ▸ hresolution.wellFormed hI
    next => exact hI.term other found hfound
  · refine ⟨AssocList.nodup_removeAll hterms.nodup, fun name term hlookup => ?_⟩
    rw [AssocList.lookup_removeAll] at hlookup
    split at hlookup
    · cases hlookup
    · exact hterms.term name term hlookup

end Terms

/-! ## Contexts of a document -/

section Platform

variable {P : Platform}

theorem interpretBundled_wellFormed {url : JsString} {terms : Terms}
    (h : interpretBundled P.toRuntime url = some terms) :
    WellFormedTerms P.toRuntime terms := by
  have hdistinct := (P.preloadedContexts url).distinct
  rw [Json.distinct_obj] at hdistinct
  unfold interpretBundled at h
  split at h
  next result hresult =>
    obtain rfl := Option.some.inj h
    exact applyContextTerms_wellFormed hdistinct.1 (wellFormedTerms_nil _)
      hresult
  next => cases h

/-- The two bundled contexts, as the tables hold them. -/
theorem Platform.tables_cases (P : Platform) :
    ∃ standard security,
      interpretBundled P.toRuntime activityStreamsContext = some standard ∧
      interpretBundled P.toRuntime securityContext = some security ∧
      P.standardTerms = standard ∧
      P.tables.bundledContexts = [(activityStreamsContext, standard),
        (securityContext, security)] := by
  have h := P.tables_eq
  unfold getContextTables at h
  cases hstandard : interpretBundled P.toRuntime activityStreamsContext with
  | none =>
      rw [hstandard] at h
      cases h
  | some standard =>
      cases hsecurity : interpretBundled P.toRuntime securityContext with
      | none =>
          rw [hstandard, hsecurity] at h
          cases h
      | some security =>
          rw [hstandard, hsecurity] at h
          have htables := (Option.some.inj h).symm
          exact ⟨standard, security, rfl, rfl,
            by rw [Platform.standardTerms, htables], by rw [htables]⟩

theorem standardTerms_wellFormed (P : Platform) :
    WellFormedTerms P.toRuntime P.standardTerms := by
  obtain ⟨standard, -, hstandard, -, heq, -⟩ := P.tables_cases
  rw [heq]
  exact interpretBundled_wellFormed hstandard

theorem bundledContexts_wellFormed {url : JsString} {terms : Terms}
    (h : P.tables.bundledContexts.lookup url = some terms) :
    WellFormedTerms P.toRuntime terms := by
  obtain ⟨standard, security, hstandard, hsecurity, -, htables⟩ :=
    P.tables_cases
  rw [htables] at h
  have hmem := AssocList.mem_of_lookup_eq_some h
  rcases List.mem_cons.mp hmem with heq | hmem
  · obtain ⟨-, rfl⟩ := Prod.mk.inj heq
    exact interpretBundled_wellFormed hstandard
  · obtain ⟨-, rfl⟩ := Prod.mk.inj (List.mem_singleton.mp hmem)
    exact interpretBundled_wellFormed hsecurity

theorem WellFormedTerms.putAll {R : Runtime} {updates terms : Terms}
    (hupdates : WellFormedTerms R updates)
    (hterms : WellFormedTerms R terms) :
    WellFormedTerms R (AssocList.putAll updates terms) := by
  refine ⟨AssocList.nodup_putAll hterms.nodup, fun name term hlookup => ?_⟩
  rw [AssocList.lookup_putAll,
    ← AssocList.lookup_perm (List.reverse_perm updates).symm hupdates.nodup]
    at hlookup
  rcases Option.or_eq_some_iff.mp hlookup with h | ⟨-, h⟩
  · exact hupdates.term name term h
  · exact hterms.term name term h

/-! ## The steps of a context value

An accepted context value is a list of steps: bundled contexts and inline
contexts, applied in order. -/

/-- One accepted entry of a context. -/
inductive ContextStep (P : Platform) : Json → Terms → Terms → Prop
  | bundled (text url : JsString) (bundled terms : Terms)
      (hurl : url = if text = js "http://www.w3.org/ns/activitystreams" then
        activityStreamsContext else text)
      (hbundled : P.tables.bundledContexts.lookup url = some bundled) :
      ContextStep P (.str text) terms (AssocList.putAll bundled terms)
  | inline (ms : List (JsString × Json)) (path : FieldPath)
      (terms result : Terms)
      (happly : applyContextTerms P.toRuntime Json.tree (ownProperties ms)
        path terms (some P.standardTerms) = ([], result)) :
      ContextStep P (.obj ms) terms result

/-- The accepted entries of a context, in order. -/
inductive ContextRun (P : Platform) : List Json → Terms → Terms → Prop
  | nil (terms : Terms) : ContextRun P [] terms terms
  | cons {entry : Json} {rest : List Json} {terms middle result : Terms}
      (hstep : ContextStep P entry terms middle)
      (hrest : ContextRun P rest middle result) :
      ContextRun P (entry :: rest) terms result

/-- The entries of a `@context` value. -/
def contextEntries : Json → List Json
  | .arr items => items
  | value => [value]

theorem applyContextEntry_eq_ok {value : Json} {path : FieldPath}
    {terms result : Terms}
    (h : applyContextEntry P Json.tree value path terms = ([], result)) :
    ContextStep P value terms result := by
  unfold applyContextEntry at h
  cases value with
  | str text =>
      simp only [Json.look_tree, Json.shape] at h
      split at h
      · cases h
      next bundled hbundled =>
        obtain ⟨-, rfl⟩ := Prod.mk.inj h
        exact .bundled text _ bundled terms rfl hbundled
  | obj ms =>
      simp only [Json.look_tree, Json.shape, readDocument_obj] at h
      exact .inline ms path terms result h
  | _ => cases h

theorem applyContextList_eq_ok {entries : List (Json × FieldPath)}
    {terms result : Terms}
    (h : applyContextList P Json.tree
      (entries.map fun e => .entry e.1 e.2) terms = ([], result)) :
    ContextRun P (entries.map Prod.fst) terms result := by
  induction entries generalizing terms with
  | nil =>
      obtain ⟨-, rfl⟩ := Prod.mk.inj h
      exact .nil terms
  | cons e rest ih =>
      simp only [List.map_cons, applyContextList, Prod.mk.injEq,
        List.append_eq_nil_iff] at h
      obtain ⟨⟨hfirst, hfindings⟩, hresult⟩ := h
      exact .cons (applyContextEntry_eq_ok (Prod.ext hfirst rfl))
        (ih (Prod.ext hfindings hresult))

theorem applyContext_eq_ok {context : Json} {path : FieldPath}
    {terms result : Terms}
    (h : applyContext P Json.tree context path terms = ([], result)) :
    ContextRun P (contextEntries context) terms result := by
  unfold applyContext at h
  cases context with
  | arr items =>
      simp only [Json.look_tree, Json.shape, visitList_tree] at h
      have hrun := applyContextList_eq_ok h
      have hfst : (valueEntries (.arr items) path).map Prod.fst = items := by
        simp only [valueEntries, List.map_map, Function.comp_def]
        exact List.zipIdx_map_fst 0 items
      rwa [hfst] at hrun
  | _ => exact .cons (applyContextEntry_eq_ok h) (.nil _)

/-- The context of a record: inherited, assumed, or read and found to keep
the standard terms. -/
theorem checkContext_eq_some {values : List (JsString × Json)}
    {path : FieldPath} {inherited : Option Terms} {context : Terms}
    (h : (checkContext P Json.tree values path inherited).2 = some context) :
    (values.lookup (js "@context") = none ∧
      context = inherited.getD P.standardTerms) ∨
    ∃ value, values.lookup (js "@context") = some value ∧
      ContextRun P (contextEntries value) (inherited.getD []) context ∧
      ∀ entry ∈ P.standardTerms, context.lookup entry.1 = some entry.2 := by
  unfold checkContext at h
  dsimp only at h
  split at h
  next hnone =>
    refine .inl ⟨hnone, ?_⟩
    split at h
    · exact (Option.some.inj h).symm
    · exact (Option.some.inj h).symm
  next value hvalue =>
    refine .inr ⟨value, hvalue, ?_⟩
    split at h
    next terms happly =>
      split at h
      next hstandard =>
        obtain rfl := Option.some.inj h
        refine ⟨applyContext_eq_ok happly, fun entry hentry => ?_⟩
        simpa using List.all_eq_true.mp hstandard entry hentry
      next => cases h
    next => cases h

theorem ContextStep.wellFormed {entry : Json} {terms result : Terms}
    (h : ContextStep P entry terms result) (hdistinct : entry.Distinct)
    (hterms : WellFormedTerms P.toRuntime terms) :
    WellFormedTerms P.toRuntime result := by
  cases h with
  | bundled text url bundled _ hurl hbundled =>
      exact (bundledContexts_wellFormed hbundled).putAll hterms
  | inline ms path _ _ happly =>
      rw [Json.distinct_obj] at hdistinct
      exact applyContextTerms_wellFormed (nodup_ownProperties hdistinct.1)
        hterms happly

theorem ContextRun.wellFormed {entries : List Json} {terms result : Terms}
    (h : ContextRun P entries terms result)
    (hdistinct : ∀ entry ∈ entries, entry.Distinct)
    (hterms : WellFormedTerms P.toRuntime terms) :
    WellFormedTerms P.toRuntime result := by
  induction h with
  | nil => exact hterms
  | cons hstep _ ih =>
      exact ih (fun entry hentry => hdistinct entry (List.mem_cons_of_mem _
        hentry)) (hstep.wellFormed (hdistinct _ List.mem_cons_self) hterms)

/-- The context key itself names no property. -/
theorem resolveProperty_context {context : Terms}
    (h : WellFormedTerms P.toRuntime context) :
    (resolveProperty P (js "@context") context).name = none := by
  have hlookup : context.lookup (js "@context") = none := by
    cases hterm : context.lookup (js "@context") with
    | none => rfl
    | some term =>
        exact absurd (h.term _ term hterm).noKeyword (by decide)
  have hresolve : resolveTerm P.toRuntime (js "@context") context [] =
      none := by
    have hkeyword : ¬ (js "@context" = js "@id" ∨ js "@context" = js "@type") := by
      decide
    have hcut : cutColon (js "@context") = none := by decide
    simp only [resolveTerm, if_neg hkeyword, List.not_mem_nil, if_false,
      hlookup, hcut]
  have hfind : ∀ terms : Terms, terms.find? (fun _ => false) = none := by
    intro terms
    rw [List.find?_eq_none]
    simp
  unfold resolveProperty
  simp [hlookup, hresolve, hfind]

theorem distinct_contextEntries {value entry : Json} (h : value.Distinct)
    (hentry : entry ∈ contextEntries value) : entry.Distinct := by
  cases value with
  | arr items => exact Json.distinct_arr.mp h entry hentry
  | _ => exact List.mem_singleton.mp hentry ▸ h

theorem checkContext_wellFormed {values : List (JsString × Json)}
    {path : FieldPath} {inherited : Option Terms} {context : Terms}
    (hvalues : ∀ entry ∈ values, entry.2.Distinct)
    (hinherited : ∀ terms, inherited = some terms →
      WellFormedTerms P.toRuntime terms)
    (h : (checkContext P Json.tree values path inherited).2 = some context) :
    WellFormedTerms P.toRuntime context := by
  rcases checkContext_eq_some h with ⟨-, rfl⟩ | ⟨value, hvalue, hrun, -⟩
  · cases inherited with
    | none => exact standardTerms_wellFormed P
    | some terms => exact hinherited terms rfl
  · refine hrun.wellFormed (fun entry hentry => distinct_contextEntries
      (hvalues _ (AssocList.mem_of_lookup_eq_some hvalue)) hentry) ?_
    cases inherited with
    | none => exact wellFormedTerms_nil _
    | some terms => exact hinherited terms rfl

end Platform

end DrFed.Document
