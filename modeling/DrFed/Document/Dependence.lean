import DrFed.Document.Sweep

/-!
# Dependence of definitions

The terms that a definition names, and that reading it looks at nothing else of
the term map and of the pending names.
-/

namespace DrFed.Document

/-- A text names itself and the part before its first colon. -/
def mentions (text : JsString) : List JsString :=
  text :: ((cutColon text).map Prod.fst).toList

section Texts

variable {ι : Type} (H : Values ι)

/-- The members that a definition is read from. -/
def definitionMembers (definition : ι) (path : FieldPath) : List (JsString × ι) :=
  match H.look definition with
  | .string _ => [(js "@id", definition)]
  | .object .. =>
      match readDocument H definition path with
      | .error _ => []
      | .ok members => members
  | _ => []

/-- The strings that a definition has for its `@id` and its `@type`. -/
def definitionTexts (definition : ι) (path : FieldPath) : List JsString :=
  [js "@id", js "@type"].filterMap fun key =>
    ((definitionMembers H definition path).lookup key).bind (stringOf H)

/-- A definition depends on another one of its object that its `@id` or `@type`
names. -/
def DependsOn (values : List (JsString × ι)) (path : FieldPath) (name other : JsString) :
    Prop :=
  startsWithAt name = false ∧ (values.lookup other).isSome ∧
    ∃ definition, values.lookup name = some definition ∧
      ∃ text ∈ definitionTexts H definition (path ++ [.key name]), other ∈ mentions text

variable {H}

theorem mem_definitionTexts {definition : ι} {path : FieldPath} {text : JsString} :
    text ∈ definitionTexts H definition path ↔
      ((definitionMembers H definition path).lookup (js "@id")).bind (stringOf H) = some text ∨
        ((definitionMembers H definition path).lookup (js "@type")).bind (stringOf H) =
          some text := by
  rw [definitionTexts, List.mem_filterMap]
  constructor
  · rintro ⟨key, hkey, htext⟩
    rcases List.mem_cons.mp hkey with rfl | hkey
    · exact .inl htext
    · rw [List.mem_singleton.mp hkey] at htext
      exact .inr htext
  · rintro (htext | htext)
    · exact ⟨_, List.mem_cons_self, htext⟩
    · exact ⟨_, List.mem_cons_of_mem _ (List.mem_singleton_self _), htext⟩

theorem mem_mentions {text name : JsString} :
    name ∈ mentions text ↔ name = text ∨ ∃ suffix, cutColon text = some (name, suffix) := by
  rw [mentions, List.mem_cons, Option.mem_toList, Option.map_eq_some_iff]
  refine or_congr_right ?_
  constructor
  · rintro ⟨⟨_, suffix⟩, hcut, rfl⟩
    exact ⟨suffix, hcut⟩
  · rintro ⟨suffix, hcut⟩
    exact ⟨_, hcut, rfl⟩

/-- What a text other than a keyword names is no keyword. -/
theorem startsWithAt_mention {text name : JsString} (h : name ∈ mentions text)
    (htext : startsWithAt text = false) : startsWithAt name = false := by
  rcases mem_mentions.mp h with rfl | ⟨suffix, hcut⟩
  · exact htext
  · obtain ⟨rfl, -⟩ := cutColon_eq_some hcut
    cases name with
    | nil => rfl
    | cons c rest => exact htext

end Texts

/-! ## Resolving a text -/

section Resolve

variable {R : Runtime} {text iri : JsString} {terms terms' : Terms}
  {pending pending' : List JsString}

/-- Nothing but what a text names decides what it resolves to. -/
theorem resolveTerm_congr (hpending : ∀ name ∈ mentions text, (name ∈ pending ↔ name ∈ pending'))
    (hterms : ∀ name ∈ mentions text, terms.lookup name = terms'.lookup name) :
    resolveTerm R text terms pending = resolveTerm R text terms' pending' := by
  have hself : text ∈ mentions text := mem_mentions.mpr (.inl rfl)
  rw [resolveTerm, resolveTerm, hterms text hself]
  simp only [hpending text hself]
  cases hcut : cutColon text with
  | none => rfl
  | some parts =>
      obtain ⟨name, suffix⟩ := parts
      have hname : name ∈ mentions text := mem_mentions.mpr (.inr ⟨suffix, hcut⟩)
      simp only [hterms name hname, hpending name hname]

theorem resolveTerm_keyword (h : text = js "@id" ∨ text = js "@type") :
    resolveTerm R text terms pending = some text := if_pos h

/-- A text that names a pending term is not resolved, unless it is itself a term
or a keyword. -/
theorem resolveTerm_pending {name : JsString} (hname : name ∈ mentions text)
    (hpending : name ∈ pending) (hkeyword : ¬ (text = js "@id" ∨ text = js "@type"))
    (hterm : name ≠ text → terms.lookup text = none) :
    resolveTerm R text terms pending = none := by
  rw [resolveTerm, if_neg hkeyword]
  split
  next => rfl
  next hself =>
    rcases mem_mentions.mp hname with rfl | ⟨suffix, hcut⟩
    · exact absurd hpending hself
    · have hne : name ≠ text := by
        rintro rfl
        exact hself hpending
      rw [hterm hne, hcut]
      exact if_pos hpending

/-- Where terms agree outside the pending names, a text is not resolved or
resolves to the same. -/
theorem resolveTerm_agrees (hagree : ∀ name, name ∉ pending →
      terms.lookup name = terms'.lookup name) :
    resolveTerm R text terms pending = none ∨
      resolveTerm R text terms pending = resolveTerm R text terms' [] := by
  by_cases hkeyword : text = js "@id" ∨ text = js "@type"
  · right
    rw [resolveTerm_keyword hkeyword, resolveTerm_keyword hkeyword]
  rw [resolveTerm, resolveTerm, if_neg hkeyword, if_neg hkeyword, if_neg List.not_mem_nil]
  split
  next => exact .inl rfl
  next hself =>
    rw [hagree text hself]
    cases terms'.lookup text with
    | some term => exact .inr rfl
    | none =>
        cases cutColon text with
        | none => exact .inr rfl
        | some parts =>
            obtain ⟨name, suffix⟩ := parts
            by_cases hname : name ∈ pending
            · exact .inl (if_pos hname)
            · right
              simp only [if_neg hname, if_neg List.not_mem_nil, hagree name hname]

end Resolve

/-! ## Reading a definition -/

section Read

variable {R : Runtime} {ι : Type} {H : Values ι} {definition : ι} {path : FieldPath}
  {terms terms' : Terms} {pending pending' : List JsString} {term : ContextTerm}

/-- The terms and the pending names matter to a definition only after its form
is accepted. -/
theorem readContextTerm_cases (definition : ι) (path : FieldPath) :
    (∃ e, ∀ terms pending, readContextTerm R H definition path terms pending = .error e) ∨
    ∃ id implicitPrefix,
      ((definitionMembers H definition path).lookup (js "@id")).bind (stringOf H) = some id ∧
      (startsWithAt id = true → id = js "@id" ∨ id = js "@type") ∧
      ∀ terms pending, readContextTerm R H definition path terms pending =
        resolveContextTerm R H id (definitionMembers H definition path) implicitPrefix path
          terms pending := by
  -- A definition whose id is read from its members.
  have hread : ∀ (id : Option JsString) (values : List (JsString × ι)) (implicitPrefix : Bool),
      (∃ e, ∀ terms pending,
        readDefinition R H values implicitPrefix path terms pending id = .error e) ∨
      ∃ text, id = some text ∧
        (startsWithAt text = true → text = js "@id" ∨ text = js "@type") ∧
        ∀ terms pending, readDefinition R H values implicitPrefix path terms pending id =
          resolveContextTerm R H text values implicitPrefix path terms pending := by
    intro id values implicitPrefix
    cases id with
    | none => exact .inl ⟨_, fun _ _ => rfl⟩
    | some text =>
        by_cases hrelative : (text.head?.any fun c => (js "#/.").contains c) = true ∨
            (js "_:").isPrefixOf text = true
        · exact .inl ⟨_, fun _ _ => if_pos hrelative⟩
        · by_cases halias : startsWithAt text = true ∧ text ≠ js "@id" ∧ text ≠ js "@type"
          · exact .inl ⟨_, fun _ _ => (if_neg hrelative).trans (if_pos halias)⟩
          · right
            refine ⟨text, rfl, fun hat => ?_, fun _ _ => (if_neg hrelative).trans (if_neg halias)⟩
            by_contra hother
            rw [not_or] at hother
            exact halias ⟨hat, hother⟩
  cases hlook : H.look definition with
  | string id =>
      have hmembers : definitionMembers H definition path = [(js "@id", definition)] := by
        rw [definitionMembers, hlook]
      have hid : ((definitionMembers H definition path).lookup (js "@id")).bind
          (stringOf H) = some id := by
        rw [hmembers, List.lookup_cons_self, Option.bind_some, stringOf, hlook]
      simp only [readContextTerm, hlook]
      rcases hread (some id) [(js "@id", definition)] true with hrefused | ⟨text, htext, hat, hok⟩
      · exact .inl hrefused
      · right
        rw [← hmembers] at hok
        exact ⟨text, true, hid.trans htext, hat, hmembers ▸ hok⟩
  | object plain members symbols =>
      simp only [readContextTerm, hlook]
      cases hdocument : readDocument H definition path with
      | error d => exact .inl ⟨_, fun _ _ => rfl⟩
      | ok values =>
          have hmembers : definitionMembers H definition path = values := by
            rw [definitionMembers, hlook]
            simp only [hdocument]
          rw [hmembers]
          simp only [readExpandedTerm]
          by_cases hkeys : (values.any fun entry => !definitionKeys.contains entry.1) = true
          · left
            exact ⟨_, fun _ _ => if_pos hkeys⟩
          · simp only [if_neg hkeys]
            cases hid : values.lookup (js "@id") with
            | none => exact .inl ⟨_, fun _ _ => rfl⟩
            | some id =>
                rcases hread (stringOf H id) values false with
                  hrefused | ⟨text, htext, hat, hok⟩
                · exact .inl hrefused
                · exact .inr ⟨text, false, htext, hat, hok⟩
  | _ =>
      left
      simp only [readContextTerm, hlook]
      exact ⟨_, fun _ _ => rfl⟩

/-- How a coercion is read: the same whatever the terms are, or by what its
text resolves to. -/
theorem readCoercion_cases (values : List (JsString × ι)) (path : FieldPath) :
    (∃ result, ∀ terms pending, readCoercion R H values path terms pending = result ∧
      ∀ type, result = .ok type → (values.lookup (js "@type")).bind (stringOf H) = none) ∨
    ∃ text, (values.lookup (js "@type")).bind (stringOf H) = some text ∧
      (startsWithAt text = true → text = js "@id") ∧
      ∀ terms pending, readCoercion R H values path terms pending =
        match resolveTerm R text terms pending with
        | none => .error none
        | some expanded => .ok (some expanded) := by
  cases htype : values.lookup (js "@type") with
  | none =>
      left
      refine ⟨.ok none, fun terms pending => ⟨?_, fun _ _ => rfl⟩⟩
      rw [readCoercion, htype]
  | some value =>
      cases htext : stringOf H value with
      | none =>
          left
          refine ⟨.error none, fun terms pending => ⟨?_, ?_⟩⟩
          · rw [readCoercion, htype]
            simp only [htext]
          · rintro type ⟨⟩
      | some text =>
          by_cases hat : startsWithAt text = true ∧ text ≠ js "@id"
          · left
            simp only [readCoercion, htype, htext, if_pos hat]
            refine ⟨_, fun _ _ => ⟨rfl, ?_⟩⟩
            rintro type ⟨⟩
          · right
            refine ⟨text, htext, ?_, fun terms pending => ?_⟩
            · intro hstart
              by_contra hne
              exact hat ⟨hstart, hne⟩
            · simp only [readCoercion, htype, htext]
              exact if_neg hat

/-- What is resolved of a definition decides how it is read. -/
theorem readContextTerm_congr
    (h : ∀ text ∈ definitionTexts H definition path,
      resolveTerm R text terms pending = resolveTerm R text terms' pending') :
    readContextTerm R H definition path terms pending =
      readContextTerm R H definition path terms' pending' := by
  rcases readContextTerm_cases (R := R) (H := H) definition path with
    ⟨e, hrefused⟩ | ⟨id, implicitPrefix, hid, -, hread⟩
  · rw [hrefused, hrefused]
  · have hcoercion : readCoercion R H (definitionMembers H definition path) path terms pending =
        readCoercion R H (definitionMembers H definition path) path terms' pending' := by
      rcases readCoercion_cases (R := R) (H := H) (definitionMembers H definition path) path with
        ⟨result, hresult⟩ | ⟨text, htext, -, htype⟩
      · rw [(hresult terms pending).1, (hresult terms' pending').1]
      · rw [htype, htype, h text (mem_definitionTexts.mpr (.inr htext))]
    rw [hread, hread, resolveContextTerm, resolveContextTerm,
      h id (mem_definitionTexts.mpr (.inl hid)), hcoercion]

/-- The texts of a definition that is read are resolved, and keywords only where
they are supported. -/
theorem resolved_of_readContextTerm
    (h : readContextTerm R H definition path terms pending = .ok term) {text : JsString}
    (htext : text ∈ definitionTexts H definition path) :
    resolveTerm R text terms pending ≠ none ∧
      (startsWithAt text = true → text = js "@id" ∨ text = js "@type") := by
  rcases readContextTerm_cases (R := R) (H := H) definition path with
    ⟨e, hrefused⟩ | ⟨id, implicitPrefix, hid, hat, hread⟩
  · rw [hrefused] at h
    cases h
  · rw [hread, resolveContextTerm] at h
    split at h
    next => cases h
    next iri hiri =>
      split at h
      next => cases h
      next =>
        rcases mem_definitionTexts.mp htext with heq | heq
        · obtain rfl := Option.some.inj (hid.symm.trans heq)
          refine ⟨?_, hat⟩
          rw [hiri]
          exact Option.some_ne_none iri
        · rcases readCoercion_cases (R := R) (H := H) (definitionMembers H definition path)
            path with ⟨result, hresult⟩ | ⟨other, hother, hstart, htype⟩
          · rw [(hresult terms pending).1] at h
            cases result with
            | error e => cases h
            | ok type =>
                rw [(hresult terms pending).2 type rfl] at heq
                cases heq
          · obtain rfl := Option.some.inj (hother.symm.trans heq)
            refine ⟨?_, fun hstarts => .inl (hstart hstarts)⟩
            intro hnone
            rw [htype, hnone] at h
            cases h

/-- A definition that can be read is read the same, or waits, where every text
of it resolves the same or not at all. -/
theorem readContextTerm_waits
    (h : readContextTerm R H definition path terms' pending' = .ok term)
    (hagree : ∀ text ∈ definitionTexts H definition path,
      resolveTerm R text terms pending = none ∨
        resolveTerm R text terms pending = resolveTerm R text terms' pending') :
    readContextTerm R H definition path terms pending = .error none ∨
      readContextTerm R H definition path terms pending = .ok term := by
  by_cases hall : ∀ text ∈ definitionTexts H definition path,
      resolveTerm R text terms pending = resolveTerm R text terms' pending'
  · right
    rw [readContextTerm_congr hall, h]
  left
  push Not at hall
  obtain ⟨text, htext, hne⟩ := hall
  have hnone : resolveTerm R text terms pending = none :=
    (hagree text htext).resolve_right hne
  rcases readContextTerm_cases (R := R) (H := H) definition path with
    ⟨e, hrefused⟩ | ⟨id, implicitPrefix, hid, -, hread⟩
  · rw [hrefused] at h
    cases h
  · rw [hread, resolveContextTerm] at h ⊢
    rcases hagree id (mem_definitionTexts.mpr (.inl hid)) with hwaits | hsame
    · rw [hwaits]
    · rw [hsame]
      split at h
      next => cases h
      next iri hiri =>
        split at h
        next => cases h
        next hkeyword =>
          -- The id resolves, so the text is that of the coercion.
          have htype : ((definitionMembers H definition path).lookup (js "@type")).bind
              (stringOf H) = some text := by
            rcases mem_definitionTexts.mp htext with heq | heq
            · obtain rfl := Option.some.inj (hid.symm.trans heq)
              exact absurd hsame hne
            · exact heq
          simp only [if_neg hkeyword]
          rcases readCoercion_cases (R := R) (H := H) (definitionMembers H definition path)
            path with ⟨result, hresult⟩ | ⟨other, hother, -, hcoercion⟩
          · rw [(hresult terms' pending').1] at h
            cases result with
            | error e => cases h
            | ok type =>
                rw [(hresult terms pending).2 type rfl] at htype
                cases htype
          · obtain rfl := Option.some.inj (hother.symm.trans htype)
            rw [hcoercion, hnone]
            rfl

/-- A definition that was read stays readable when fewer names are pending and
the other terms are kept. -/
theorem readContextTerm_settled
    (h : readContextTerm R H definition path terms pending = .ok term)
    (hpending : ∀ name ∈ pending', name ∈ pending)
    (hagree : ∀ name, name ∉ pending → terms.lookup name = terms'.lookup name) :
    readContextTerm R H definition path terms' pending' = .ok term := by
  rw [← h]
  apply readContextTerm_congr
  intro text htext
  have hresolved := (resolved_of_readContextTerm h htext).1
  by_cases hkeyword : text = js "@id" ∨ text = js "@type"
  · rw [resolveTerm_keyword hkeyword, resolveTerm_keyword hkeyword]
  rw [resolveTerm, if_neg hkeyword] at hresolved
  rw [resolveTerm, resolveTerm, if_neg hkeyword, if_neg hkeyword]
  split at hresolved
  next => exact absurd rfl hresolved
  next hself =>
    rw [if_neg hself, if_neg fun hmem => hself (hpending _ hmem), ← hagree text hself]
    cases hterm : terms.lookup text with
    | some term => rfl
    | none =>
        rw [hterm] at hresolved
        cases hcut : cutColon text with
        | none => rfl
        | some parts =>
            obtain ⟨name, suffix⟩ := parts
            rw [hcut] at hresolved
            simp only at hresolved ⊢
            split at hresolved
            next => exact absurd rfl hresolved
            next hname =>
              rw [if_neg hname, if_neg fun hmem => hname (hpending _ hmem), hagree name hname]

end Read

/-! ## Names -/

section Names

variable {ι : Type} {H : Values ι} {isBundled : Bool} {values values' : List (JsString × ι)}
  {path : FieldPath} {name : JsString}

theorem checkTermName_eq_skip (h : checkTermName H isBundled values path name = some none) :
    name = js "@vocab" := by
  rw [checkTermName] at h
  split at h
  · cases h
  · split at h
    · cases h
    · split at h
      · split at h
        next hvocab => exact hvocab.2.1
        next => cases h
      · cases h

/-- A keyword other than `@vocab` is no name of a term. -/
theorem checkTermName_keyword (hat : startsWithAt name = true) (hname : name ≠ js "@vocab") :
    ∃ d, checkTermName H isBundled values path name = some (some d) := by
  cases hcheck : checkTermName H isBundled values path name with
  | none =>
      rw [(checkTermName_eq_none hcheck).2.2] at hat
      cases hat
  | some result =>
      cases result with
      | some d => exact ⟨d, rfl⟩
      | none => exact absurd (checkTermName_eq_skip hcheck) hname

theorem checkTermName_congr (h : values.lookup name = values'.lookup name) :
    checkTermName H isBundled values path name = checkTermName H isBundled values' path name := by
  rw [checkTermName, checkTermName, h]

end Names

end DrFed.Document
