import DrFed.Document.Cycles

/-!
# Plainness of admitted values

A value that the walk goes through without an error is a finite tree of plain
JSON data: every check that reports nothing has read what it was given down to
its scalars, and what it leaves to the work stack is read there.
-/

namespace DrFed

/-- A finite tree of plain data, in which no object has two members of one
name. -/
def Values.Plain {ι : Type} (H : Values ι) (value : ι) : Prop :=
  ∃ json : Json, json.Distinct ∧ json.Spells H value

namespace Document

section Values

variable {ι : Type} {H : Values ι} {value : ι}

theorem plain_null (h : H.look value = .null) : H.Plain value :=
  ⟨.null, trivial, h⟩

theorem plain_bool {b : Bool} (h : H.look value = .bool b) : H.Plain value :=
  ⟨.bool b, trivial, h⟩

theorem plain_number {n : JsNumber} (h : H.look value = .number n) :
    H.Plain value :=
  ⟨.num n, trivial, h⟩

theorem plain_string {text : JsString} (h : H.look value = .string text) :
    H.Plain value :=
  ⟨.str text, trivial, h⟩

theorem plain_of_isNull (h : isNull H value = true) : H.Plain value := by
  unfold isNull at h
  split at h
  · exact plain_null (by assumption)
  · cases h

theorem plain_of_stringOf {text : JsString}
    (h : stringOf H value = some text) : H.Plain value := by
  unfold stringOf at h
  split at h
  · exact plain_string (by assumption)
  · cases h

theorem exists_items {entries : List ι} (h : ∀ e ∈ entries, H.Plain e) :
    ∃ items : List Json, (∀ item ∈ items, item.Distinct) ∧
      List.Forall₂ (fun item entry => Json.Spells H item entry) items
        entries := by
  induction entries with
  | nil => exact ⟨[], (fun _ h => nomatch h), .nil⟩
  | cons entry rest ih =>
      obtain ⟨items, hdistinct, hitems⟩ := ih fun e he =>
        h e (List.mem_cons_of_mem _ he)
      obtain ⟨item, hitem, hspells⟩ := h entry List.mem_cons_self
      exact ⟨item :: items, List.forall_mem_cons.mpr ⟨hitem, hdistinct⟩,
        .cons hspells hitems⟩

theorem exists_members {members : List (JsString × ι)}
    (h : ∀ m ∈ members, H.Plain m.2) :
    ∃ ms : List (JsString × Json), ms.map Prod.fst = members.map Prod.fst ∧
      (∀ m ∈ ms, m.2.Distinct) ∧
      List.Forall₂ (fun m member => m.1 = member.1 ∧
        Json.Spells H m.2 member.2) ms members := by
  induction members with
  | nil => exact ⟨[], rfl, (fun _ h => nomatch h), .nil⟩
  | cons member rest ih =>
      obtain ⟨ms, hkeys, hdistinct, hms⟩ := ih fun e he =>
        h e (List.mem_cons_of_mem _ he)
      obtain ⟨json, hjson, hspells⟩ := h member List.mem_cons_self
      exact ⟨(member.1, json) :: ms, by rw [List.map_cons, List.map_cons, hkeys],
        List.forall_mem_cons.mpr ⟨hjson, hdistinct⟩, .cons ⟨rfl, hspells⟩ hms⟩

theorem map_data_of_some {entries : List (Option (Slot ι))}
    (i : ℕ) (h : ∀ e ∈ entries.zipIdx i, ∃ value, e.1 = some (.data value true)) :
    ∃ values : List ι, entries = values.map fun e => some (.data e true) := by
  induction entries generalizing i with
  | nil => exact ⟨[], rfl⟩
  | cons entry rest ih =>
      rw [List.zipIdx_cons] at h
      obtain ⟨value, hvalue⟩ := h _ List.mem_cons_self
      obtain ⟨values, rfl⟩ := ih (i + 1) fun e he =>
        h e (List.mem_cons_of_mem _ he)
      dsimp only at hvalue
      exact ⟨value :: values, by rw [hvalue, List.map_cons]⟩

/-- A visited list without findings is an ordinary array of its entries. -/
theorem visitList_plain {entries : List (Option (Slot ι))}
    {named : List (JsString × Slot ι)} {symbols : ℕ} {path : FieldPath}
    (h : ∀ d, .finding d ∉ visitList entries named symbols path) :
    named = [] ∧ symbols = 0 ∧ ∃ values : List ι,
      entries = (values.map fun e => some (.data e true)) ∧
      ∀ e ∈ values, ∃ p, .entry e p ∈ visitList entries named symbols path := by
  unfold visitList at h ⊢
  split_ifs at h ⊢ with hextra
  · exact absurd List.mem_cons_self (h _)
  · have hsome : ∀ e ∈ entries.zipIdx 0,
        ∃ value, e.1 = some (.data value true) := by
      rintro ⟨slot, i⟩ hslot
      cases slot with
      | none => exact absurd (List.mem_map_of_mem hslot) (h _)
      | some slot =>
          cases slot with
          | accessor => exact absurd (List.mem_map_of_mem hslot) (h _)
          | data value enumerable =>
              cases enumerable with
              | false => exact absurd (List.mem_map_of_mem hslot) (h _)
              | true => exact ⟨value, rfl⟩
    obtain ⟨values, rfl⟩ := map_data_of_some 0 hsome
    have hcount : ((values.map fun e => some (Slot.data e true)).filter
        Option.isSome).length = values.length := by
      rw [List.filter_eq_self.mpr (by simp), List.length_map]
    rw [hcount, List.length_map] at hextra
    refine ⟨List.length_eq_zero_iff.mp (by omega), by omega, values, rfl,
      fun e he => ?_⟩
    obtain ⟨i, hi⟩ := List.mem_iff_getElem?.mp he
    refine ⟨path ++ [.index i], List.mem_map.mpr ⟨(some (.data e true), i), ?_,
      rfl⟩⟩
    rw [List.mk_mem_zipIdx_iff_getElem?, List.getElem?_map, hi]
    rfl

theorem plain_array {entries : List (Option (Slot ι))}
    {named : List (JsString × Slot ι)} {symbols : ℕ}
    (hlook : H.look value = .array entries named symbols) {path : FieldPath}
    (hfindings : ∀ d, .finding d ∉ visitList entries named symbols path)
    (hentries : ∀ e p, .entry e p ∈ visitList entries named symbols path →
      H.Plain e) : H.Plain value := by
  obtain ⟨rfl, rfl, values, rfl, hvalues⟩ := visitList_plain hfindings
  obtain ⟨items, hdistinct, hitems⟩ := exists_items fun e he =>
    (hvalues e he).elim fun p hp => hentries e p hp
  exact ⟨.arr items, Json.distinct_arr.mpr hdistinct,
    Json.spells_arr.mpr ⟨values, hlook, hitems⟩⟩

theorem exists_map_of_perm {α β : Type} {f : α → β} {ys : List β}
    {xs : List α} (h : ys.Perm (xs.map f)) :
    ∃ zs : List α, ys = zs.map f ∧ ∀ z ∈ zs, z ∈ xs := by
  have hmem : ∀ y ∈ ys, ∃ x ∈ xs, f x = y := fun y hy =>
    List.mem_map.mp (h.mem_iff.mp hy)
  clear h
  induction ys with
  | nil => exact ⟨[], rfl, (fun _ h => nomatch h)⟩
  | cons y rest ih =>
      obtain ⟨x, hx, rfl⟩ := hmem _ List.mem_cons_self
      obtain ⟨zs, rfl, hzs⟩ := ih fun y hy => hmem y (List.mem_cons_of_mem _ hy)
      exact ⟨x :: zs, rfl, List.forall_mem_cons.mpr ⟨hx, hzs⟩⟩

theorem lookup_of_readDocument (hlawful : H.Lawful) {path : FieldPath}
    {values : List (JsString × ι)}
    (hread : readDocument H value path = .ok values) {entry : JsString × ι}
    (hentry : entry ∈ values) : values.lookup entry.1 = some entry.2 := by
  obtain ⟨members, hlook, hperm⟩ := readDocument_members hread
  have hnodup := (hperm.map Prod.fst).nodup
    (hlawful.keys value _ _ _ hlook)
  rw [List.map_map] at hnodup
  exact AssocList.lookup_eq_some_of_mem hnodup hentry

theorem plain_object (hlawful : H.Lawful) {path : FieldPath}
    {values : List (JsString × ι)}
    (hread : readDocument H value path = .ok values)
    (hvalues : ∀ entry ∈ values, H.Plain entry.2) : H.Plain value := by
  obtain ⟨members, hlook, hperm⟩ := readDocument_members hread
  obtain ⟨others, rfl, hothers⟩ := exists_map_of_perm hperm
  obtain ⟨ms, hkeys, hdistinct, hms⟩ := exists_members fun m hm =>
    hvalues m (hothers m hm)
  have hnodup := hlawful.keys value _ _ _ hlook
  rw [List.map_map] at hnodup
  exact ⟨.obj ms, Json.distinct_obj.mpr ⟨hkeys ▸ hnodup, hdistinct⟩,
    Json.spells_obj.mpr ⟨others, hlook, hms⟩⟩

/-! ## Values of properties -/

theorem plain_of_referenceEntry {path : FieldPath}
    (hfindings : ∀ d, .finding d ∈ checkReferenceEntry H value path →
      d.isError = false)
    (hentries : ∀ e p, .entry e p ∈ checkReferenceEntry H value path →
      H.Plain e) : H.Plain value := by
  unfold checkReferenceEntry at hfindings hentries
  split at hfindings
  next hlook => exact plain_null hlook
  next hlook => cases hfindings _ List.mem_cons_self
  next hlook => cases hfindings _ List.mem_cons_self
  next hnull hforeign harray =>
    refine hentries value path ?_
    split
    · exact absurd (by assumption) hnull
    · exact absurd (by assumption) hforeign
    · exact absurd (by assumption) (harray _ _ _)
    · exact List.mem_cons_self

theorem plain_of_referenceValues {path : FieldPath}
    (hfindings : ∀ d, .finding d ∈ checkReferenceValues H value path →
      d.isError = false)
    (hentries : ∀ e p, .entry e p ∈ checkReferenceValues H value path →
      H.Plain e) : H.Plain value := by
  unfold checkReferenceValues at hfindings hentries
  split at hfindings
  next entries named symbols hlook =>
    simp only [hlook] at hentries
    split at hfindings
    · cases hfindings _ List.mem_cons_self
    next hempty =>
      rw [if_neg hempty] at hentries
      have hnone : ∀ d,
          .finding d ∉ visitList entries named symbols path := by
        intro d hd
        have herror := hfindings d
          (List.mem_flatMap.mpr ⟨_, hd, List.mem_cons_self⟩)
        rw [visitList_error path hd] at herror
        cases herror
      refine plain_array hlook hnone fun e p he => ?_
      exact plain_of_referenceEntry
        (fun d hd => hfindings d (List.mem_flatMap.mpr ⟨_, he, hd⟩))
        fun e' p' he' => hentries e' p' (List.mem_flatMap.mpr ⟨_, he, he'⟩)
  next hnot =>
    refine hentries value path ?_
    split
    · exact absurd (by assumption) (hnot _ _ _)
    · exact List.mem_cons_self

theorem plain_of_singleValue {path : FieldPath}
    (hfindings : ∀ d, .finding d ∈ checkSingleValue H value path →
      d.isError = false)
    (hentries : ∀ e p, .entry e p ∈ checkSingleValue H value path →
      H.Plain e) : H.Plain value := by
  unfold checkSingleValue at hfindings hentries
  split at hfindings
  next entries named symbols hlook =>
    simp only [hlook] at hentries
    split at hfindings
    · cases hfindings _ List.mem_cons_self
    next hempty =>
      rw [if_neg hempty] at hentries
      have hnone : ∀ d,
          .finding d ∉ visitList entries named symbols path := by
        intro d hd
        have herror := hfindings d (List.mem_append_left _
          (List.mem_append_left _ (List.mem_filter.mpr ⟨hd, rfl⟩)))
        rw [visitList_error path hd] at herror
        cases herror
      refine plain_array hlook hnone fun e p he => ?_
      by_cases hnull : isNull H e = true
      · exact plain_of_isNull hnull
      · have hpresent : (e, p) ∈ presentEntries H
            (visitList entries named symbols path) :=
          List.mem_filterMap.mpr ⟨_, he, by simp [hnull]⟩
        exact plain_of_referenceEntry
          (fun d hd => hfindings d (List.mem_append_right _
            (List.mem_flatMap.mpr ⟨_, hpresent, hd⟩)))
          fun e' p' he' => hentries e' p' (List.mem_append_right _
            (List.mem_flatMap.mpr ⟨_, hpresent, he'⟩))
  next hnot =>
    refine hentries value path ?_
    split
    · exact absurd (by assumption) (hnot _ _ _)
    · exact List.mem_cons_self

/-- The parts of a plan whose checks reported no error. -/
theorem quiet_runVisits {check : ι → FieldPath → List Diagnostic}
    {visits : List (Visit ι)}
    (h : hasError (runVisits check visits) = false) :
    (∀ d, .finding d ∈ visits → d.isError = false) ∧
      ∀ e p, .entry e p ∈ visits → hasError (check e p) = false := by
  have hquiet : ∀ visit ∈ visits, ∀ d ∈ visit.run check,
      d.isError = false := by
    intro visit hvisit d hd
    by_contra herror
    have hmem : d ∈ runVisits check visits :=
      List.mem_flatMap.mpr ⟨visit, hvisit, hd⟩
    rw [hasError_of_mem hmem (by simpa using herror)] at h
    cases h
  refine ⟨fun d hd => hquiet _ hd d List.mem_cons_self, fun e p he => ?_⟩
  by_contra herror
  rw [Bool.not_eq_false, hasError, List.any_eq_true] at herror
  obtain ⟨d, hd, hd'⟩ := herror
  rw [hquiet _ he d hd] at hd'
  cases hd'

theorem plain_of_single {check : ι → FieldPath → List Diagnostic}
    {path : FieldPath}
    (h : hasError (runVisits check (checkSingleValue H value path)) = false)
    (hcheck : ∀ e p, hasError (check e p) = false → H.Plain e) :
    H.Plain value :=
  plain_of_singleValue (quiet_runVisits h).1 fun e p he =>
    hcheck e p ((quiet_runVisits h).2 e p he)

theorem plain_of_references {check : ι → FieldPath → List Diagnostic}
    {path : FieldPath}
    (h : hasError (runVisits check (checkReferenceValues H value path)) = false)
    (hcheck : ∀ e p, hasError (check e p) = false → H.Plain e) :
    H.Plain value :=
  plain_of_referenceValues (quiet_runVisits h).1 fun e p he =>
    hcheck e p ((quiet_runVisits h).2 e p he)

section Scalars

variable {path : FieldPath} {R : Runtime}

theorem plain_of_integer
    (h : hasError (checkNonNegativeInteger H value path) = false) :
    H.Plain value := by
  unfold checkNonNegativeInteger at h
  split at h
  · exact plain_null (by assumption)
  · exact plain_number (by assumption)
  · cases h

theorem plain_of_dateTime (h : hasError (checkDateTime R H value path) = false) :
    H.Plain value := by
  unfold checkDateTime at h
  split at h
  · exact plain_null (by assumption)
  · exact plain_string (by assumption)
  · cases h

theorem plain_of_reference
    (h : hasError (checkReference R H value path) = false) :
    H.Plain value := by
  unfold checkReference at h
  split at h
  · exact plain_null (by assumption)
  · exact plain_string (by assumption)
  all_goals cases h

theorem plain_of_linkProperty {property : JsString}
    (h : hasError (checkLinkScalar R H property value path) = false) :
    H.Plain value := by
  unfold checkLinkScalar at h
  split at h
  · exact plain_null (by assumption)
  · exact plain_string (by assumption)
  · cases h

theorem plain_of_linkRelation
    (h : hasError (checkLinkRelation R H value path) = false) :
    H.Plain value := by
  unfold checkLinkRelation at h
  split at h
  · exact plain_null (by assumption)
  · exact plain_string (by assumption)
  · cases h

theorem plain_of_languageTag
    (h : hasError (checkLanguageTag R H value path) = false) :
    H.Plain value := by
  unfold checkLanguageTag at h
  split at h
  · exact plain_string (by assumption)
  · cases h

theorem hasError_flatMap_mem {α : Type} {entries : List α}
    {f : α → List Diagnostic} (h : hasError (entries.flatMap f) = false)
    {entry : α} (hentry : entry ∈ entries) : hasError (f entry) = false := by
  by_contra herror
  rw [Bool.not_eq_false, hasError, List.any_eq_true] at herror
  obtain ⟨d, hd, hd'⟩ := herror
  rw [hasError_of_mem (List.mem_flatMap.mpr ⟨entry, hentry, hd⟩) hd'] at h
  cases h

theorem plain_of_text (hlawful : H.Lawful) {plain : Bool}
    (h : hasError (checkText R H value path plain) = false) :
    H.Plain value := by
  unfold checkText at h
  split at h
  · exact plain_null (by assumption)
  · exact plain_string (by assumption)
  · split at h
    next d hread => simp [readDocument_error path hread] at h
    next values hread =>
      split at h
      · cases h
      · refine plain_object hlawful hread fun entry hentry => ?_
        have hmem := (sortByKey_perm values).mem_iff.mpr hentry
        have hquiet := hasError_flatMap_mem h hmem
        dsimp only at hquiet
        split_ifs at hquiet
        · split at hquiet
          · exact plain_string (by assumption)
          · cases hquiet
        · exact plain_of_languageTag hquiet
        · cases hquiet
  · cases h

theorem plain_of_languageMap (hlawful : H.Lawful) {plain : Bool}
    (h : hasError (checkLanguageMap R H value path plain) = false) :
    H.Plain value := by
  unfold checkLanguageMap at h
  split at h
  · exact plain_null (by assumption)
  · split at h
    next d hread => simp [readDocument_error path hread] at h
    next values hread =>
      refine plain_object hlawful hread fun entry hentry => ?_
      have hmem := (sortByKey_perm values).mem_iff.mpr hentry
      have hquiet := hasError_flatMap_mem h hmem
      dsimp only at hquiet
      rw [hasError_append, Bool.or_eq_false_iff] at hquiet
      have hentry := hquiet.2
      split at hentry
      · exact plain_null (by assumption)
      · exact plain_string (by assumption)
      · cases hentry
  · cases h

theorem plain_of_linkProperty_visits {property : JsString}
    (h : hasError (if property = js "rel" then
        checkLinkProperty R H property value path
      else runVisits (checkLinkProperty R H property)
        (checkSingleValue H value path)) = false) : H.Plain value := by
  by_cases hrel : property = js "rel"
  · rw [if_pos hrel, checkLinkProperty, if_pos hrel] at h
    exact plain_of_references h fun e p he => plain_of_linkRelation he
  · rw [if_neg hrel] at h
    refine plain_of_single h fun e p he => ?_
    rw [checkLinkProperty, if_neg hrel] at he
    exact plain_of_linkProperty he

/-- A value that the rules of the common properties accept. -/
theorem plain_of_common (hlawful : H.Lawful)
    {kind : Option CommonPropertyKind} {property : JsString}
    (hkind : kind = some .mediaType → property ≠ js "rel")
    {findings : List Diagnostic}
    (hcommon : checkCommonProperty R H kind property value path =
      some findings) (h : hasError findings = false) : H.Plain value := by
  unfold checkCommonProperty at hcommon
  split at hcommon
  · obtain rfl := Option.some.inj hcommon
    exact plain_of_references h fun e p he => plain_of_text hlawful he
  · obtain rfl := Option.some.inj hcommon
    exact plain_of_languageMap hlawful h
  · obtain rfl := Option.some.inj hcommon
    exact plain_of_single h fun e p he => plain_of_dateTime he
  · split at hcommon
    · exact plain_string (by assumption)
    · obtain rfl := Option.some.inj hcommon
      cases h
  · obtain rfl := Option.some.inj hcommon
    exact plain_of_linkProperty_visits (by rwa [if_neg (hkind rfl)])
  · split at hcommon
    next hnull => exact plain_of_isNull hnull
    next => cases hcommon

end Scalars

/-! ## Contexts -/

section Contexts

variable {path : FieldPath} {R : Runtime} {values : List (JsString × ι)}

theorem plain_of_definition (hlawful : H.Lawful) {terms : Terms}
    {pending : List JsString} {term : ContextTerm}
    (h : readContextTerm R H value path terms pending = .ok term) :
    H.Plain value := by
  unfold readContextTerm at h
  split at h
  · exact plain_string (by assumption)
  · split at h
    next => cases h
    next values hread =>
      refine plain_object hlawful hread fun entry hentry => ?_
      have hlookup := lookup_of_readDocument hlawful hread hentry
      unfold readExpandedTerm at h
      split at h
      next => cases h
      next hkeys =>
        split at h
        next => cases h
        next id hid =>
          unfold readDefinition at h
          split at h
          next => cases h
          next text htext =>
            split_ifs at h
            unfold resolveContextTerm at h
            split at h
            next => cases h
            next iri hiri =>
              split at h
              next => cases h
              next =>
                cases hcoercion : readCoercion R H values path terms pending with
                | error e => rw [hcoercion] at h; cases h
                | ok coercion =>
                cases hcontainer : readContainer H values path with
                | error e => rw [hcoercion, hcontainer] at h; cases h
                | ok container =>
                cases hflag : readPrefixFlag H values path with
                | error e => rw [hcoercion, hcontainer, hflag] at h; cases h
                | ok flag =>
                  have hkey : entry.1 ∈ definitionKeys := by
                    have hany := List.any_eq_false.mp
                      (Bool.not_eq_true _ ▸ hkeys) entry hentry
                    simpa using hany
                  simp only [definitionKeys, List.mem_cons, List.not_mem_nil,
                    or_false] at hkey
                  rcases hkey with hkey | hkey | hkey | hkey
                  · rw [hkey, hid] at hlookup
                    obtain rfl := Option.some.inj hlookup
                    exact plain_of_stringOf htext
                  · rw [hkey] at hlookup
                    unfold readCoercion at hcoercion
                    rw [hlookup] at hcoercion
                    dsimp only at hcoercion
                    split at hcoercion
                    · cases hcoercion
                    · exact plain_of_stringOf (by assumption)
                  · rw [hkey] at hlookup
                    unfold readContainer at hcontainer
                    rw [hlookup] at hcontainer
                    dsimp only at hcontainer
                    split_ifs at hcontainer with hfirst hsecond
                    rcases hsecond with hsecond | hsecond
                    · exact plain_of_stringOf hsecond
                    · exact plain_of_stringOf hsecond
                  · rw [hkey] at hlookup
                    unfold readPrefixFlag at hflag
                    rw [hlookup] at hflag
                    dsimp only at hflag
                    split at hflag
                    · exact plain_bool (by assumption)
                    · cases hflag
  · cases h
  · cases h

variable (H values) in
/-- Every name that is not pending any more has a plain definition. -/
def Defined (s : Sweep) : Prop :=
  ∀ entry ∈ values, entry.1 ∈ s.pending ∨ ∃ definition,
    values.lookup entry.1 = some definition ∧ H.Plain definition

theorem sweepName_defined (hlawful : H.Lawful) {protectedTerms : Terms}
    {s : Sweep} (h : Defined H values s) (name : JsString) :
    Defined H values
      (sweepName R H values path (some protectedTerms) s name) := by
  unfold sweepName
  dsimp only
  split
  next => exact h
  next hname =>
    unfold checkTermName at hname
    split_ifs at hname with hempty hcolon hat hbundled
    · cases hname
    · cases hname
    · cases hbundled.1
    · cases hname
  next =>
    split
    next => exact h
    next definition hlookup =>
      split
      next => exact h
      next => exact h
      next term hread =>
        split
        · exact h
        · intro entry hentry
          by_cases hsame : entry.1 = name
          · exact .inr ⟨definition, hsame ▸ hlookup,
              plain_of_definition hlawful hread⟩
          · exact (h entry hentry).imp_left fun hmem =>
              (List.mem_erase_of_ne hsame).mpr hmem

theorem reportUnresolved_defined {s : Sweep} (h : Defined H values s) :
    Defined H values (reportUnresolved path s) ∧
      ((reportUnresolved path s).findings = [] → s.pending = []) := by
  have hfold : ∀ (names : List JsString) (acc : Sweep),
      Defined H values acc →
      let last := names.foldl (fun acc name => acc.find ⟨.invalidContext,
        path ++ [.key name],
        "The term has an unresolved or cyclic IRI mapping."⟩) acc
      Defined H values last ∧ acc.findings.length + names.length =
        last.findings.length := by
    intro names
    induction names with
    | nil => exact fun acc hacc => ⟨hacc, rfl⟩
    | cons name rest ih =>
        intro acc hacc
        obtain ⟨hlast, hlength⟩ := ih (acc.find ⟨.invalidContext,
          path ++ [.key name],
          "The term has an unresolved or cyclic IRI mapping."⟩) hacc
        refine ⟨hlast, ?_⟩
        rw [List.foldl_cons, ← hlength]
        simp only [Sweep.find, List.length_append, List.length_cons,
          List.length_nil]
        omega
  obtain ⟨hlast, hlength⟩ := hfold s.pending s h
  refine ⟨hlast, fun hnone => ?_⟩
  have hzero : (reportUnresolved path s).findings.length = 0 := by rw [hnone]; rfl
  unfold reportUnresolved at hzero
  exact List.length_eq_zero_iff.mp (by omega)

theorem sweepAll_defined (hlawful : H.Lawful) {protectedTerms : Terms}
    (fuel : ℕ) {s : Sweep} (h : Defined H values s)
    (hfindings :
      (sweepAll R H values path (some protectedTerms) fuel s).findings = []) :
    ∀ entry ∈ values, ∃ definition,
      values.lookup entry.1 = some definition ∧ H.Plain definition := by
  have hempty : ∀ {s : Sweep}, Defined H values s → s.pending = [] →
      ∀ entry ∈ values, ∃ definition,
        values.lookup entry.1 = some definition ∧ H.Plain definition := by
    intro s hs hnone entry hentry
    refine (hs entry hentry).resolve_left fun hmem => ?_
    rw [hnone] at hmem
    cases hmem
  induction fuel generalizing s with
  | zero =>
      unfold sweepAll at hfindings
      split at hfindings
      next hnone => exact hempty h (List.isEmpty_iff.mp hnone)
      next =>
        exact hempty h ((reportUnresolved_defined h).2 hfindings)
  | succ fuel ih =>
      have hswept : Defined H values
          (sweepPending R H values path (some protectedTerms) s) := by
        unfold sweepPending
        exact List.foldlRecOn (motive := Defined H values) _ _ h
          fun s hs name _ => sweepName_defined hlawful hs name
      unfold sweepAll at hfindings
      split at hfindings
      next hnone => exact hempty h (List.isEmpty_iff.mp hnone)
      next =>
        dsimp only at hfindings
        split at hfindings
        next hsome => simp [hfindings] at hsome
        next =>
          split at hfindings
          next => exact ih hswept hfindings
          next =>
            exact hempty hswept
              ((reportUnresolved_defined hswept).2 hfindings)

theorem plain_of_contextEntry (hlawful : H.Lawful) {P : Platform}
    {terms result : Terms}
    (h : applyContextEntry P H value path terms = ([], result)) :
    H.Plain value := by
  unfold applyContextEntry at h
  split at h
  · exact plain_string (by assumption)
  · split at h
    next => cases h
    next values hread =>
      refine plain_object hlawful hread fun entry hentry => ?_
      have hstart : Defined H values ⟨AssocList.removeAll
          (values.map Prod.fst) terms, values.map Prod.fst, [], false⟩ :=
        fun entry hentry => .inl (List.mem_map_of_mem hentry)
      obtain ⟨definition, hlookup, hplain⟩ := sweepAll_defined hlawful
        (values.map Prod.fst).length hstart (Prod.mk.inj h).1 entry hentry
      rw [lookup_of_readDocument hlawful hread hentry] at hlookup
      exact Option.some.inj hlookup ▸ hplain
  · cases h
  · cases h
  · cases h

theorem plain_of_contextList (hlawful : H.Lawful) {P : Platform}
    {visits : List (Visit ι)} {terms result : Terms}
    (h : applyContextList P H visits terms = ([], result)) :
    (∀ d, .finding d ∉ visits) ∧
      ∀ e p, .entry e p ∈ visits → H.Plain e := by
  induction visits generalizing terms with
  | nil => exact ⟨(fun _ h => nomatch h), fun _ _ h => nomatch h⟩
  | cons visit rest ih =>
      cases visit with
      | finding d => cases (Prod.mk.inj h).1
      | entry value path =>
          obtain ⟨hfindings, rfl⟩ := Prod.mk.inj h
          rw [List.append_eq_nil_iff] at hfindings
          obtain ⟨hnone, hrest⟩ := ih (Prod.ext hfindings.2 rfl)
          refine ⟨fun d hd => ?_, fun e p he => ?_⟩
          · rcases List.mem_cons.mp hd with heq | hd
            · cases heq
            · exact hnone d hd
          · rcases List.mem_cons.mp he with heq | he
            · obtain ⟨rfl, rfl⟩ := Visit.entry.inj heq
              exact plain_of_contextEntry hlawful
                (Prod.ext hfindings.1 rfl :
                  applyContextEntry P H e p terms = ([], _))
            · exact hrest e p he

/-- The value of an accepted `@context` is plain. -/
theorem plain_of_context (hlawful : H.Lawful) {P : Platform}
    {inherited : Option Terms} {findings : List Diagnostic} {context : Terms}
    (h : checkContext P H values path inherited = (findings, some context))
    (hlookup : values.lookup (js "@context") = some value) :
    H.Plain value := by
  unfold checkContext at h
  rw [hlookup] at h
  dsimp only at h
  split at h
  next terms happly =>
    unfold applyContext at happly
    split at happly
    next entries named symbols hlook =>
      obtain ⟨hnone, hentries⟩ := plain_of_contextList hlawful happly
      exact plain_array hlook hnone hentries
    next => exact plain_of_contextEntry hlawful happly
  next =>
    cases (Prod.mk.inj h).2

end Contexts

/-! ## Quiet walks -/

section Walks

variable {P : Platform}

/-- A walk that reports no error. -/
def QuietWalk (walk : Item ι × List (Item ι)) : Prop :=
  Quiet walk.1 ∧ ∀ item ∈ walk.2, Quiet item

/-- An extension value on which no error is reported. -/
def QuietExtension (result : List Diagnostic × List (Item ι)) : Prop :=
  hasError result.1 = false ∧ ∀ item ∈ result.2, Quiet item

theorem quiet_append {events others : Item ι} :
    Quiet (events ++ others) ↔ Quiet events ∧ Quiet others := by
  simp only [Quiet, List.mem_append, or_imp, forall_and]

theorem quietExtension_iff {result : List Diagnostic × List (Item ι)} :
    QuietExtension result ↔
      ∀ item ∈ (reports result.1 : Item ι) :: result.2, Quiet item := by
  rw [List.forall_mem_cons, quiet_reports]
  rfl

/-- Whether the members of an extension value are checked for keywords. -/
def innerKeywords (H : Values ι) (keywords : Bool)
    (values : List (JsString × ι)) (path : FieldPath) (key : JsString) :
    Bool :=
  keywords && !((if keywords then checkExtensionKeywords H values path
    else ([], false)).2 && key == js "@value")

/-- What a quiet walk over an extension value has gone through. -/
theorem QuietExtension.inv {fuel : ℕ} {ancestors : List ι} {path : FieldPath}
    {keywords : Bool}
    (h : QuietExtension (checkExtension H fuel ancestors value path keywords)) :
    path.length ≤ maximumPathDepth ∧ ∃ n, fuel = n + 1 ∧
      (isContainer H value = true → ¬ ancestors.any (H.same value) = true) ∧
      (∀ entries named symbols, H.look value = .array entries named symbols →
        (∀ d, .finding d ∉ visitList entries named symbols path) ∧
        ∀ e p, .entry e p ∈ visitList entries named symbols path →
          QuietExtension
            (checkExtension H n (value :: ancestors) e p keywords)) ∧
      (∀ plain members symbols,
        H.look value = .object plain members symbols →
        ∃ values, readDocument H value path = .ok values ∧
          ∀ entry ∈ values, QuietExtension
            (checkExtension H n (value :: ancestors) entry.2
              (path ++ [.key entry.1])
              (innerKeywords H keywords values path entry.1))) ∧
      H.look value ≠ .foreign := by
  cases fuel with
  | zero => cases h.1
  | succ n =>
      rw [checkExtension] at h
      split at h
      next => cases h.1
      next hdepth =>
        refine ⟨by omega, n, rfl, ?_, ?_, ?_, ?_⟩
        · intro hcontainer hany
          unfold isContainer at hcontainer
          split at hcontainer
          next hlook =>
            simp only [hlook, if_pos hany] at h
            cases h.1
          next hlook =>
            simp only [hlook, if_pos hany] at h
            cases h.1
          next => cases hcontainer
        · intro entries named symbols hlook
          simp only [hlook] at h
          split at h
          next => cases h.1
          next =>
            refine ⟨fun d hd => ?_, fun e p he => ?_⟩
            · have hfinding : d ∈ (visitList entries named symbols
                  path).filterMap Visit.finding? :=
                List.mem_filterMap.mpr ⟨_, hd, rfl⟩
              have herror := hasError_of_mem hfinding
                (visitList_error path hd)
              rw [h.1] at herror
              cases herror
            · rw [quietExtension_iff]
              intro item hitem
              exact h.2 item (List.mem_flatMap.mpr ⟨_, he, hitem⟩)
        · intro plain members symbols hlook
          simp only [hlook] at h
          split at h
          next => cases h.1
          next =>
            split at h
            next d hread => simp [QuietExtension, readDocument_error path hread] at h
            next values hread =>
              refine ⟨values, hread, fun entry hentry => ?_⟩
              rw [quietExtension_iff]
              intro item hitem
              exact h.2 item (List.mem_flatMap.mpr ⟨entry, hentry, hitem⟩)
        · intro hlook
          simp only [hlook] at h
          cases h.1

theorem plain_of_extension (hlawful : H.Lawful) (fuel : ℕ)
    {ancestors : List ι} {path : FieldPath} {keywords : Bool}
    (h : QuietExtension (checkExtension H fuel ancestors value path keywords)) :
    H.Plain value := by
  induction fuel generalizing value ancestors path keywords with
  | zero => cases h.1
  | succ fuel ih =>
      obtain ⟨-, n, hn, -, harray, hobject, hforeign⟩ := h.inv
      obtain rfl := Nat.succ.inj hn
      cases hlook : H.look value with
      | foreign => exact absurd hlook hforeign
      | null => exact plain_null hlook
      | bool b => exact plain_bool hlook
      | number n => exact plain_number hlook
      | string text => exact plain_string hlook
      | array entries named symbols =>
          obtain ⟨hnone, hentries⟩ := harray _ _ _ hlook
          exact plain_array hlook hnone fun e p he => ih (hentries e p he)
      | object plain members symbols =>
          obtain ⟨values, hread, hvalues⟩ := hobject _ _ _ hlook
          exact plain_object hlawful hread fun entry hentry =>
            ih (hvalues entry hentry)

/-- A value that the rules of a property accept, unless they leave it to the
work stack. -/
theorem plain_of_valueRules (hlawful : H.Lawful) {type : VocabularyType}
    {key : JsString} {path : FieldPath}
    (h : hasError (checkValueRules P H type key value path).1 = false) :
    H.Plain value ∨ ∃ visits range,
      (checkValueRules P H type key value path).2 =
        .references visits key range := by
  unfold checkValueRules at h ⊢
  dsimp only at h ⊢
  split at h
  next => exact .inl (plain_of_single h fun e p he => plain_of_integer he)
  next hinteger =>
    rw [if_neg hinteger]
    split at h
    next => exact .inl (plain_of_linkProperty_visits h)
    next hlink =>
      rw [if_neg hlink]
      split at h
      next findings hcommon =>
        refine .inl (plain_of_common hlawful (fun hkind => ?_) hcommon h)
        have hmem := getCommonPropertyKind_mem hkind
        rintro rfl
        revert hmem
        decide
      next hcommon =>
        split at h
        next =>
          refine .inl (plain_of_references h fun e p he => ?_)
          split at he
          · exact plain_of_isNull (by assumption)
          · cases he
        next hobject =>
          rw [if_neg hobject]
          split at h
          next hrange => exact .inr ⟨_, _, by rw [if_pos hrange]⟩
          next hrange =>
            rw [if_neg hrange]
            split at h
            next href => exact .inr ⟨_, _, by rw [if_pos href]⟩
            next => cases h

theorem plain_of_omission {path : FieldPath} {identifier : Bool}
    {findings : List Diagnostic} {proposed : Option (NormalizationChange ι)}
    (homission : proposePropertyOmission H value path identifier =
      some (findings, proposed)) (h : hasError findings = false) :
    H.Plain value := by
  unfold proposePropertyOmission at homission
  split at homission
  next hlook => exact plain_null hlook
  next entries named symbols hlook =>
    dsimp only at homission
    split at homission
    next => cases homission
    next =>
      split at homission
      next hfindings =>
        obtain ⟨rfl, -⟩ := Prod.mk.inj (Option.some.inj homission)
        obtain ⟨d, rest, heq⟩ := List.exists_cons_of_ne_nil
          (l := (visitList entries named symbols path).filterMap
            Visit.finding?) (by simpa using hfindings)
        have hmem : d ∈ (visitList entries named symbols path).filterMap
            Visit.finding? := heq ▸ List.mem_cons_self
        obtain ⟨visit, hvisit, hd⟩ := List.mem_filterMap.mp hmem
        cases visit with
        | entry e p => cases hd
        | finding e =>
            obtain rfl := Option.some.inj hd
            rw [hasError_of_mem hmem (visitList_error path hvisit)] at h
            cases h
      next hfindings =>
        split at homission
        next => cases homission
        next hpresent =>
          refine @plain_array _ H value _ _ _ hlook path (fun d hd => ?_)
            fun e p he => ?_
          · have hmem : d ∈ (visitList entries named symbols
                path).filterMap Visit.finding? :=
              List.mem_filterMap.mpr ⟨_, hd, rfl⟩
            simp only [Bool.not_eq_true', Bool.not_eq_false,
              List.isEmpty_iff] at hfindings
            rw [hfindings] at hmem
            cases hmem
          · by_contra hplain
            have hnull : isNull H e = false := by
              by_contra hnull
              exact hplain (plain_of_isNull (by simpa using hnull))
            have hmem : (e, p) ∈ presentEntries H
                (visitList entries named symbols path) :=
              List.mem_filterMap.mpr ⟨_, he, by simp [hnull]⟩
            simp only [Bool.not_eq_true', Bool.not_eq_false,
              List.isEmpty_iff] at hpresent
            rw [hpresent] at hmem
            cases hmem
  next => cases homission

variable {node : Node ι} {field : Field ι}

/-- A field that is accepted at once has a plain value. -/
theorem plain_of_check (hlawful : H.Lawful)
    (h : Quiet (node.check P H field).1) :
    H.Plain field.value ∨
      (∃ visits key range,
        (node.check P H field).2 = .references visits key range) ∨
      ∃ path, (node.check P H field).2 = .extension field.value path := by
  have hreport : ∀ {d : Diagnostic}, d.isError = true →
      ¬ Quiet ([.report d] : Item ι) := by
    intro d hd hquiet
    rw [hquiet d List.mem_cons_self] at hd
    cases hd
  unfold Node.check checkField at h ⊢
  cases hname : field.name with
  | none =>
      simp only [hname] at h ⊢
      split at h
      next hopaque =>
        rw [if_pos hopaque]
        exact .inr (.inr ⟨_, rfl⟩)
      next => exact absurd h (hreport rfl)
  | some key =>
      simp only [hname] at h ⊢
      unfold checkNamedField at h ⊢
      split at h
      next => exact absurd h (hreport rfl)
      next hcompatible =>
        rw [if_neg hcompatible]
        split at h
        next happlicable =>
          split at h
          next hnull => exact .inl (plain_of_isNull hnull)
          next => exact absurd h (hreport rfl)
        next happlicable =>
          rw [if_neg happlicable]
          dsimp only at h ⊢
          split at h
          next findings proposed homission =>
            rw [quiet_append, quiet_append, quiet_reports] at h
            split at homission
            next => exact .inl (plain_of_omission homission h.1.2)
            next => cases homission
          next homission =>
            rw [quiet_append, quiet_reports] at h
            exact (plain_of_valueRules hlawful h.2).imp_right fun hfollow =>
              .inl (hfollow.elim fun visits hrange => hrange.elim
                fun range hrules => ⟨visits, key, range, hrules⟩)

/-! ## Quiet walks over documents -/

section Entries

variable {node : Node ι} {n : ℕ} {above : List ι}

variable (H P) in
/-- What a quiet walk asks of an entry of a reference property. -/
def QuietEntry (n : ℕ) (above : List ι) (context : Terms) (key : JsString)
    (range : Option (List VocabularyType)) (entry : ι) (path : FieldPath) :
    Prop :=
  if isRecord H entry then
    QuietWalk (checkDocument P H n above entry path (some context) range
      (getEmbeddedFedifyRange key range))
  else hasError (checkReference P.toRuntime H entry path) = false

variable (H P) in
/-- What a quiet walk asks of a field. -/
structure QuietField (n : ℕ) (above : List ι) (node : Node ι)
    (field : Field ι) : Prop where
  events : Quiet (node.check P H field).1
  extension : ∀ entry path,
    (node.check P H field).2 = .extension entry path →
      QuietExtension (checkExtension H n above entry path true)
  findings : ∀ visits key range,
    (node.check P H field).2 = .references visits key range →
      ∀ d, .finding d ∈ visits → d.isError = false
  entries : ∀ visits key range,
    (node.check P H field).2 = .references visits key range →
      ∀ entry path, .entry entry path ∈ visits →
        QuietEntry H P n above node.context key range entry path

theorem fieldItems_extension
    {embedded : ι → FieldPath → Option (List VocabularyType) → JsString →
      Item ι × List (Item ι)}
    {extension : ι → FieldPath → List Diagnostic × List (Item ι)}
    {checked : Item ι × FollowUp ι} {entry : ι} {path : FieldPath}
    (h : checked.2 = .extension entry path) :
    fieldItems P H embedded extension checked =
      (checked.1 ++ reports (extension entry path).1) ::
        (extension entry path).2 := by
  unfold fieldItems
  rw [h]

theorem fieldItems_references
    {embedded : ι → FieldPath → Option (List VocabularyType) → JsString →
      Item ι × List (Item ι)}
    {extension : ι → FieldPath → List Diagnostic × List (Item ι)}
    {checked : Item ι × FollowUp ι} {visits : List (Visit ι)} {key : JsString}
    {range : Option (List VocabularyType)}
    (h : checked.2 = .references visits key range) :
    fieldItems P H embedded extension checked =
      checked.1 :: visits.flatMap (visitItems P H embedded key range) := by
  unfold fieldItems
  rw [h]

theorem quietField_of_items {field : Field ι}
    (h : ∀ item ∈ fieldItems P H
        (fun entry entryPath range key =>
          checkDocument P H n above entry entryPath (some node.context) range
            (getEmbeddedFedifyRange key range))
        (fun entry entryPath => checkExtension H n above entry entryPath true)
        (node.check P H field), Quiet item) :
    QuietField H P n above node field := by
  constructor
  case events =>
    unfold fieldItems at h
    split at h
    next => exact h _ List.mem_cons_self
    next => exact (quiet_append.mp (h _ List.mem_cons_self)).1
    next => exact h _ List.mem_cons_self
  case extension =>
    intro entry path hfollow
    rw [fieldItems_extension hfollow] at h
    have hfirst := quiet_append.mp (h _ List.mem_cons_self)
    exact ⟨quiet_reports.mp hfirst.2,
      fun item hitem => h item (List.mem_cons_of_mem _ hitem)⟩
  case findings =>
    intro visits key range hfollow d hd
    rw [fieldItems_references hfollow] at h
    have hquiet := h [.report d] (List.mem_cons_of_mem _
      (List.mem_flatMap.mpr ⟨_, hd, List.mem_cons_self⟩))
    exact hquiet d List.mem_cons_self
  case entries =>
    intro visits key range hfollow entry path hentry
    rw [fieldItems_references hfollow] at h
    have hitems : ∀ item ∈ visitItems P H (fun entry entryPath range key =>
        checkDocument P H n above entry entryPath (some node.context) range
          (getEmbeddedFedifyRange key range)) key range (.entry entry path),
        Quiet item := fun item hitem =>
      h item (List.mem_cons_of_mem _ (List.mem_flatMap.mpr ⟨_, hentry, hitem⟩))
    unfold QuietEntry
    split
    next hrecord =>
      simp only [visitItems, if_pos hrecord] at hitems
      exact ⟨hitems _ List.mem_cons_self,
        fun item hitem => hitems item (List.mem_cons_of_mem _ hitem)⟩
    next hrecord =>
      simp only [visitItems, if_neg hrecord] at hitems
      exact quiet_reports.mp (hitems _ List.mem_cons_self)

end Entries

/-- What a quiet walk over a document has gone through. -/
theorem QuietWalk.inv {fuel : ℕ} {ancestors : List ι} {path : FieldPath}
    {inherited : Option Terms} {expected fedify : Option (List VocabularyType)}
    (h : QuietWalk (checkDocument P H fuel ancestors value path inherited
      expected fedify)) :
    path.length ≤ maximumPathDepth ∧ ∃ n, fuel = n + 1 ∧
      ¬ (isContainer H value && ancestors.any (H.same value)) = true ∧
      ∃ findings node,
        readNode P H value path inherited expected = (findings, some node) ∧
        ∀ field ∈ node.checkedFields,
          QuietField H P n (value :: ancestors) node field := by
  have hreport : ∀ {d : Diagnostic} {rest : Item ι}, d.isError = true →
      ¬ Quiet (.report d :: rest) := by
    intro d rest hd hquiet
    rw [hquiet d List.mem_cons_self] at hd
    cases hd
  cases fuel with
  | zero => exact absurd h.1 (hreport rfl)
  | succ n =>
      rw [checkDocument] at h
      split at h
      next => exact absurd h.1 (hreport rfl)
      next hdepth =>
        split at h
        next => exact absurd h.1 (hreport rfl)
        next hfresh =>
          refine ⟨by omega, n, rfl, hfresh, ?_⟩
          split at h
          next findings hread =>
            have hquiet := (quiet_append.mp h.1).1
            rw [quiet_reports, readNode_none P hread] at hquiet
            cases hquiet
          next findings node hread =>
            refine ⟨findings, node, hread, fun field hfield => ?_⟩
            exact quietField_of_items fun item hitem =>
              h.2 item (List.mem_flatMap.mpr ⟨field, hfield, hitem⟩)

/-- The value of a declared type is plain. -/
theorem plain_of_type {values : List (JsString × ι)}
    {fields : List (Field ι)} {path : FieldPath} {context : Terms}
    {type : VocabularyType}
    (h : checkDocumentType P H values fields path context = .ok type)
    {field : Field ι} (hfield : field ∈ fields)
    (hname : field.name = some (js "type"))
    (hvalue : values.lookup field.source = some field.value) :
    H.Plain field.value := by
  unfold checkDocumentType at h
  dsimp only at h
  split at h
  next => cases h
  next hfew =>
    have hmem : field ∈ fields.filter fun field =>
        field.name == some (js "type") :=
      List.mem_filter.mpr ⟨hfield, by simp [hname]⟩
    have honly : (fields.filter fun field =>
        field.name == some (js "type")) = [field] := by
      cases hfilter : fields.filter fun field =>
          field.name == some (js "type") with
      | nil => rw [hfilter] at hmem; cases hmem
      | cons first rest =>
          rw [hfilter] at hmem hfew
          cases rest with
          | nil => rw [List.mem_singleton.mp hmem]
          | cons second rest => simp at hfew
    rw [honly] at h
    simp only [List.head?_cons, Option.map_some, Option.getD_some, hvalue] at h
    unfold checkType at h
    dsimp only [Option.bind_some] at h
    cases htext : stringOf H field.value with
    | some text => exact plain_of_stringOf htext
    | none =>
        rw [htext] at h
        cases h

/-- The visits that a reference property leaves to the work stack. -/
theorem plain_of_scheduled {range : Option (List VocabularyType)}
    {path : FieldPath}
    (hfindings : ∀ d, .finding d ∈ scheduledVisits H range value path →
      d.isError = false)
    (hentries : ∀ e p, .entry e p ∈ scheduledVisits H range value path →
      H.Plain e) : H.Plain value := by
  unfold scheduledVisits at hfindings hentries
  split at hfindings
  next hrange =>
    rw [if_pos hrange] at hentries
    exact plain_of_singleValue hfindings hentries
  next hrange =>
    rw [if_neg hrange] at hentries
    exact plain_of_referenceValues hfindings hentries

/-- A value that the walk goes through without an error is plain. -/
theorem plain_of_document (hlawful : H.Lawful) (fuel : ℕ)
    {ancestors : List ι} {path : FieldPath} {inherited : Option Terms}
    {expected fedify : Option (List VocabularyType)}
    (h : QuietWalk (checkDocument P H fuel ancestors value path inherited
      expected fedify)) : H.Plain value := by
  induction fuel generalizing value ancestors path inherited expected fedify
    with
  | zero =>
      obtain ⟨-, n, hn, -⟩ := h.inv
      cases hn
  | succ fuel ih =>
      obtain ⟨-, n, hn, -, findings, node, hread, hquiet⟩ := h.inv
      obtain rfl := Nat.succ.inj hn
      obtain ⟨hpath, hdocument, hcontext, hfields, htype⟩ := readNode_ok hread
      refine plain_object hlawful hdocument fun entry hentry => ?_
      have hlookup := lookup_of_readDocument hlawful hdocument hentry
      by_cases hkey : entry.1 = js "@context"
      · exact plain_of_context hlawful hcontext (hkey ▸ hlookup)
      · let field : Field ι :=
          { toSourceProperty := resolveProperty P entry.1 node.context
            value := entry.2 }
        have hsource : field.source = entry.1 := resolveProperty_source ..
        have hfield : field ∈ node.fields := by
          rw [hfields]
          refine List.mem_map_of_mem ((sortByKey_perm _).mem_iff.mpr ?_)
          exact List.mem_filter.mpr ⟨hentry, by simpa using hkey⟩
        by_cases hname : field.name = some (js "type")
        · exact plain_of_type htype hfield hname (hsource ▸ hlookup)
        · have hchecked : field ∈ node.checkedFields :=
            List.mem_filter.mpr ⟨hfield, by simpa using hname⟩
          have hown := hquiet field hchecked
          rcases plain_of_check hlawful hown.events with hplain |
            ⟨visits, key, range, hfollow⟩ | ⟨p, hfollow⟩
          · exact hplain
          · obtain ⟨-, rfl⟩ := check_scheduled hfollow
            refine plain_of_scheduled (hown.findings _ _ _ hfollow)
              fun e q he => ?_
            have hbelow := hown.entries _ _ _ hfollow e q he
            unfold QuietEntry at hbelow
            split at hbelow
            next => exact ih hbelow
            next => exact plain_of_reference hbelow
          · exact plain_of_extension hlawful _ (hown.extension _ _ hfollow)

end Walks

end Values

end Document

end DrFed
