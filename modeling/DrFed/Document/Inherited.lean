import DrFed.Document.Kept
import DrFed.Document.Natural
import DrFed.Js.Stringify

/-!
# Inherited contexts

The context in force for an embedded document is that of stating, one after
the other, the entries of the contexts on the way to it.  Accepted entries are
contexts by name and inline contexts, and no numbers occur in them.
-/

namespace DrFed.Document

section Platform

variable {P : Platform}

/-! ## Stating entries -/

/-- The terms that a context object defines do not depend on where it is. -/
theorem applyContextTerms_path (values : List (JsString × Json))
    (path other : FieldPath) (terms : Terms) (protectedTerms : Option Terms) :
    (applyContextTerms P.toRuntime Json.tree values path terms
        protectedTerms).2 =
      (applyContextTerms P.toRuntime Json.tree values other terms
        protectedTerms).2 := by
  have hroot : ∀ base, (applyContextTerms P.toRuntime Json.tree values base
      terms protectedTerms).2 = (applyContextTerms P.toRuntime Json.tree values
        [] terms protectedTerms).2 := by
    intro base
    have hmoved := applyContextTerms_moved Json.tree.reads_id base P.toRuntime
      values [] protectedTerms terms
    have hsame : moveMembers id values = values := by simp [moveMembers]
    rw [List.append_nil, hsame] at hmoved
    rw [hmoved]
  rw [hroot path, hroot other]

theorem ContextStep.unique {entry : Json} {terms result other : Terms}
    (h : ContextStep P entry terms result)
    (h' : ContextStep P entry terms other) : result = other := by
  cases h with
  | bundled text url bundled _ hurl hbundled =>
      cases h' with
      | bundled _ url' bundled' _ hurl' hbundled' =>
          rw [hurl', ← hurl, hbundled] at hbundled'
          rw [Option.some.inj hbundled']
  | inline ms path _ _ happly =>
      cases h' with
      | inline _ path' _ _ happly' =>
          have hpath := applyContextTerms_path (P := P) (ownProperties ms) path
            path' terms (some P.standardTerms)
          rwa [happly, happly'] at hpath

theorem ContextRun.append {entries rest : List Json}
    {terms middle result : Terms} (h : ContextRun P entries terms middle)
    (h' : ContextRun P rest middle result) :
    ContextRun P (entries ++ rest) terms result := by
  induction h with
  | nil => exact h'
  | cons hstep _ ih => exact .cons hstep (ih h')

/-- The entries alone determine what their context defines. -/
theorem ContextRun.unique {entries : List Json} {terms result other : Terms}
    (h : ContextRun P entries terms result)
    (h' : ContextRun P entries terms other) : result = other := by
  induction h with
  | nil =>
      obtain _ | _ := h'
      rfl
  | cons hstep _ ih =>
      obtain _ | ⟨hstep', hrest'⟩ := h'
      apply ih
      rwa [hstep.unique hstep']

theorem ContextRun.step {entries : List Json} {terms result : Terms}
    (h : ContextRun P entries terms result) {entry : Json}
    (hentry : entry ∈ entries) :
    ∃ before after, ContextStep P entry before after := by
  induction h with
  | nil => simp at hentry
  | cons hstep _ ih =>
      rcases List.mem_cons.mp hentry with rfl | hentry
      · exact ⟨_, _, hstep⟩
      · exact ih hentry

/-- An entry is not a list of entries. -/
theorem ContextStep.contextEntries_eq {entry : Json} {terms result : Terms}
    (h : ContextStep P entry terms result) :
    contextEntries entry = [entry] := by
  cases h <;> rfl

/-! ## Contexts without numbers -/

theorem resolveContextTerm_reads {id : JsString}
    {values : List (JsString × Json)} {implicitPrefix : Bool}
    {path : FieldPath} {terms : Terms} {pending : List JsString}
    {term : ContextTerm}
    (h : resolveContextTerm P.toRuntime Json.tree id values implicitPrefix path
      terms pending = .ok term) :
    (∃ type, readCoercion P.toRuntime Json.tree values path terms pending =
      .ok type) ∧
    (∃ container, readContainer Json.tree values path = .ok container) ∧
    ∃ flag, readPrefixFlag Json.tree values path = .ok flag := by
  unfold resolveContextTerm at h
  split at h
  · cases h
  · split at h
    · cases h
    · cases htype : readCoercion P.toRuntime Json.tree values path terms
          pending with
      | error e => simp [htype, bind, Except.bind] at h
      | ok type =>
          cases hcontainer : readContainer Json.tree values path with
          | error e => simp [htype, hcontainer, bind, Except.bind] at h
          | ok container =>
              cases hflag : readPrefixFlag Json.tree values path with
              | error e =>
                  simp [htype, hcontainer, hflag, bind, Except.bind] at h
              | ok flag => exact ⟨⟨type, rfl⟩, ⟨container, rfl⟩, flag, rfl⟩

theorem stringOf_numberless {value : Json} {text : JsString}
    (h : stringOf Json.tree value = some text) : value.Numberless := by
  cases value with
  | str text => trivial
  | _ => cases h

/-- The entries that a simple definition may have are strings and a flag. -/
theorem readExpandedTerm_numberless {values : List (JsString × Json)}
    {path : FieldPath} {terms : Terms} {pending : List JsString}
    {term : ContextTerm} (hnodup : (values.map Prod.fst).Nodup)
    (h : readExpandedTerm P.toRuntime Json.tree values path terms pending =
      .ok term) : ∀ entry ∈ values, entry.2.Numberless := by
  unfold readExpandedTerm at h
  split at h
  · cases h
  next hkeys =>
    split at h
    · cases h
    next idValue hid =>
      obtain ⟨text, htext, hresolve⟩ := readDefinition_eq_ok P.toRuntime h
      obtain ⟨⟨type, htype⟩, ⟨container, hcontainer⟩, flag, hflag⟩ :=
        resolveContextTerm_reads hresolve
      rintro ⟨key, value⟩ hmem
      have hlookup := AssocList.lookup_eq_some_of_mem hnodup hmem
      have hkey : key ∈ definitionKeys := by
        by_contra hother
        exact hkeys (List.any_eq_true.mpr ⟨(key, value), hmem, by
          simpa using hother⟩)
      have hcases : key = js "@id" ∨ key = js "@type" ∨
          key = js "@container" ∨ key = js "@prefix" := by
        simpa [definitionKeys] using hkey
      rcases hcases with rfl | rfl | rfl | rfl
      · rw [hid] at hlookup
        exact stringOf_numberless (Option.some.inj hlookup ▸ htext)
      · unfold readCoercion at htype
        rw [hlookup] at htype
        dsimp only at htype
        split at htype
        · cases htype
        next hstring => exact stringOf_numberless hstring
      · unfold readContainer at hcontainer
        rw [hlookup] at hcontainer
        dsimp only at hcontainer
        cases hstring : stringOf Json.tree value with
        | some text => exact stringOf_numberless hstring
        | none => simp [hstring] at hcontainer
      · unfold readPrefixFlag at hflag
        rw [hlookup] at hflag
        cases value with
        | bool flag => trivial
        | _ => cases hflag

theorem readContextTerm_numberless {definition : Json}
    (hdistinct : definition.Distinct) {path : FieldPath} {terms : Terms}
    {pending : List JsString} {term : ContextTerm}
    (h : readContextTerm P.toRuntime Json.tree definition path terms pending =
      .ok term) : definition.Numberless := by
  unfold readContextTerm at h
  cases definition with
  | str text => trivial
  | obj ms =>
      simp only [Json.look_tree, Json.shape, readDocument_obj] at h
      rw [Json.distinct_obj] at hdistinct
      have hmembers := readExpandedTerm_numberless
        (nodup_ownProperties hdistinct.1) h
      exact Json.everyNumber_obj.mpr fun entry hentry =>
        hmembers entry (mem_ownProperties.mpr hentry)
  | _ => cases h

/-- Every definition of an accepted inline context was read. -/
theorem applyContextTerms_numberless {values : List (JsString × Json)}
    {path : FieldPath} {protectedTerms terms result : Terms}
    (hnodup : (values.map Prod.fst).Nodup)
    (hdistinct : ∀ entry ∈ values, entry.2.Distinct)
    (h : applyContextTerms P.toRuntime Json.tree values path terms
      (some protectedTerms) = ([], result)) :
    ∀ entry ∈ values, entry.2.Numberless := by
  have hread := applyContextTerms_invariant P.toRuntime Json.tree
    (I := fun _ pending => ∀ name definition, (name, definition) ∈ values →
      name ∉ pending → definition.Numberless) ⟨?_, ?_⟩ hnodup ?_ h
  · rintro ⟨name, definition⟩ hmem
    exact hread name definition hmem List.not_mem_nil
  · intro terms pending name _ _ hskip
    unfold checkTermName at hskip
    split at hskip
    · cases hskip
    · split at hskip
      · cases hskip
      · split at hskip
        · simp at hskip
        · cases hskip
  · intro terms pending name term hpending hI hresolution other definition
      hmem hnot
    by_cases hname : other = name
    · obtain ⟨found, hfound, hread⟩ := hresolution.definition
      have hlookup := AssocList.lookup_eq_some_of_mem hnodup hmem
      rw [hname, hfound] at hlookup
      exact readContextTerm_numberless (hdistinct _ hmem)
        (Option.some.inj hlookup ▸ hread)
    · exact hI other definition hmem fun hother =>
        hnot ((List.mem_erase_of_ne hname).mpr hother)
  · intro name definition hmem hnot
    exact absurd (List.mem_map_of_mem hmem) hnot

theorem ContextStep.numberless {entry : Json} {terms result : Terms}
    (h : ContextStep P entry terms result) (hdistinct : entry.Distinct) :
    entry.Numberless := by
  cases h with
  | bundled => trivial
  | inline ms path _ _ happly =>
      rw [Json.distinct_obj] at hdistinct
      have hmembers := applyContextTerms_numberless
        (nodup_ownProperties hdistinct.1)
        (fun entry hentry => hdistinct.2 entry (mem_ownProperties.mp hentry))
        happly
      exact Json.everyNumber_obj.mpr fun entry hentry =>
        hmembers entry (mem_ownProperties.mpr hentry)

theorem ContextRun.numberless {entries : List Json} {terms result : Terms}
    (h : ContextRun P entries terms result) {entry : Json}
    (hentry : entry ∈ entries) (hdistinct : entry.Distinct) :
    entry.Numberless := by
  obtain ⟨before, after, hstep⟩ := h.step hentry
  exact hstep.numberless hdistinct

theorem numberless_of_contextEntries {value : Json}
    (h : ∀ entry ∈ contextEntries value, entry.Numberless) :
    value.Numberless := by
  cases value with
  | arr items => exact Json.everyNumber_arr.mpr h
  | _ => exact h _ List.mem_cons_self

/-! ## The context of a record -/

/-- What a record with a context of its own, or without one, is read in. -/
theorem ownContext_eq_some {ms : List (JsString × Json)} {path : FieldPath}
    {inherited : Option Terms} {context : Terms}
    (hnodup : (ms.map Prod.fst).Nodup)
    (h : ownContext P ms path inherited = some context) :
    (ms.lookup (js "@context") = none ∧
      context = inherited.getD P.standardTerms) ∨
    ∃ value, ms.lookup (js "@context") = some value ∧
      ContextRun P (contextEntries value) (inherited.getD []) context ∧
      ∀ entry ∈ P.standardTerms, context.lookup entry.1 = some entry.2 := by
  have hcontext := checkContext_eq_some h
  rwa [lookup_ownProperties hnodup] at hcontext

end Platform

end DrFed.Document
