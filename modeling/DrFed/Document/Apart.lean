import DrFed.Document.Objections
import DrFed.Document.Previewed

/-!
# Findings of a preview

No two findings of the walk over a preview have the same reason and the same
path.  The walk over the accepted document runs beside it: a field that no
change is about finds what it found there, and one that a change is about
holds a string, about which there is at most one finding besides the one that
several spellings supply it.
-/

namespace DrFed.Document

/-- What identifies a finding to `reportPreviewDiagnostics`. -/
def Diagnostic.key (d : Diagnostic) : DiagnosticReason × FieldPath :=
  (d.reason, d.path)

/-- Findings at or below a path, no two of them alike. -/
structure Apart (path : FieldPath) (findings : List Diagnostic) : Prop where
  below : ∀ d ∈ findings, path <+: d.path
  nodup : (findings.map Diagnostic.key).Nodup

section Lists

variable {path below : FieldPath} {findings others : List Diagnostic}

theorem apart_nil : Apart path [] :=
  ⟨by simp, List.nodup_nil⟩

theorem apart_single {d : Diagnostic} (h : path <+: d.path) :
    Apart path [d] :=
  ⟨by simpa using h, by simp⟩

theorem Apart.append (h : Apart path findings) (h' : Apart path others)
    (hne : ∀ d ∈ findings, ∀ e ∈ others, d.reason = e.reason →
      d.path ≠ e.path) : Apart path (findings ++ others) := by
  constructor
  · exact List.forall_mem_append.mpr ⟨h.below, h'.below⟩
  · rw [List.map_append]
    refine h.nodup.append h'.nodup ?_
    intro key hkey hother
    obtain ⟨d, hd, rfl⟩ := List.mem_map.mp hkey
    obtain ⟨e, he, heq⟩ := List.mem_map.mp hother
    obtain ⟨hreason, hpath⟩ := Prod.mk.inj heq
    exact hne d hd e he hreason.symm hpath.symm

/-- The findings of entries at places that nothing is below both of. -/
theorem Apart.flatMap {α : Type} {entries : List α} (place : α → FieldPath)
    {f : α → List Diagnostic}
    (h : ∀ entry ∈ entries, path <+: place entry ∧ Apart (place entry) (f entry))
    (hplaces : entries.Pairwise fun a b =>
      ∀ q, place a <+: q → ¬ place b <+: q) :
    Apart path (entries.flatMap f) := by
  constructor
  · intro d hd
    obtain ⟨entry, hentry, hmem⟩ := List.mem_flatMap.mp hd
    obtain ⟨hpath, hblock⟩ := h entry hentry
    exact hpath.trans (hblock.below d hmem)
  · rw [List.map_flatMap, List.nodup_flatMap]
    refine ⟨fun entry hentry => (h entry hentry).2.nodup,
      hplaces.imp_of_mem fun {a b} ha hb hne => ?_⟩
    intro key hkey hother
    obtain ⟨d, hd, rfl⟩ := List.mem_map.mp hkey
    obtain ⟨e, he, heq⟩ := List.mem_map.mp hother
    refine hne d.path ((h a ha).2.below d hd) ?_
    have hpath : e.path = d.path := (Prod.mk.inj heq).2
    exact hpath ▸ (h b hb).2.below e he

end Lists

/-! ## Texts -/

/-- At most one finding, which is about the place itself. -/
def AtMostOne (path : FieldPath) (findings : List Diagnostic) : Prop :=
  findings = [] ∨ ∃ reason message, findings = [⟨reason, path, message⟩] ∧
    reason ≠ .invalidMultiplicity

section Texts

variable {R : Runtime} (text : JsString) (path : FieldPath)

theorem atMostOne_nil : AtMostOne path [] :=
  .inl rfl

theorem atMostOne_single {reason : DiagnosticReason} (message : String)
    (h : reason ≠ .invalidMultiplicity) :
    AtMostOne path [⟨reason, path, message⟩] :=
  .inr ⟨reason, message, rfl, h⟩

theorem checkReferenceText_one :
    AtMostOne path (checkReferenceText R text path) := by
  unfold checkReferenceText
  split_ifs
  · exact atMostOne_single path _ (by decide)
  · exact atMostOne_single path _ (by decide)
  · exact atMostOne_single path _ (by decide)
  · exact atMostOne_nil path

theorem checkPlainText_one (plain : Bool) :
    AtMostOne path (checkPlainText text path plain) := by
  unfold checkPlainText
  split
  · exact atMostOne_single path _ (by decide)
  · exact atMostOne_nil path

theorem checkLanguageTagText_one :
    AtMostOne path (checkLanguageTagText R text path) := by
  unfold checkLanguageTagText
  split_ifs
  · exact atMostOne_single path _ (by decide)
  · exact atMostOne_single path _ (by decide)
  · exact atMostOne_nil path

theorem checkDateTimeText_one :
    AtMostOne path (checkDateTimeText R text path) := by
  unfold checkDateTimeText
  split
  · exact atMostOne_single path _ (by decide)
  · dsimp only
    split_ifs
    all_goals first
      | exact atMostOne_single path _ (by decide)
      | exact atMostOne_nil path

theorem checkLinkProperty_one (property : JsString) :
    AtMostOne path
      (checkLinkProperty R Json.tree property (.str text) path) := by
  unfold checkLinkProperty
  split
  · have hvisits : checkReferenceValues Json.tree (.str text) path =
        [.entry (.str text) path] := rfl
    rw [hvisits, runVisits, List.flatMap_singleton, Visit.run,
      checkLinkRelation]
    simp only [Json.look_tree, Json.shape]
    split_ifs
    · exact atMostOne_single path _ (by decide)
    · exact checkReferenceText_one text path
    · exact atMostOne_single path _ (by decide)
    · exact atMostOne_nil path
  · unfold checkLinkScalar
    simp only [Json.look_tree, Json.shape]
    split_ifs
    · exact checkReferenceText_one text path
    · exact atMostOne_nil path
    · exact atMostOne_single path _ (by decide)
    · exact checkLanguageTagText_one text path

theorem runVisits_text (check : Json → FieldPath → List Diagnostic) :
    runVisits check [.entry (.str text) path] = check (.str text) path :=
  List.flatMap_singleton ..

theorem checkCommonProperty_one {kind : Option CommonPropertyKind}
    {property : JsString} {findings : List Diagnostic}
    (h : checkCommonProperty R Json.tree kind property (.str text) path =
      some findings) : AtMostOne path findings := by
  have hsingle : checkSingleValue Json.tree (.str text) path =
      [.entry (.str text) path] := rfl
  have hvalues : checkReferenceValues Json.tree (.str text) path =
      [.entry (.str text) path] := rfl
  unfold checkCommonProperty at h
  split at h
  · obtain rfl := Option.some.inj h
    rw [hvalues, runVisits_text]
    exact checkPlainText_one text path _
  · obtain rfl := Option.some.inj h
    exact atMostOne_single path _ (by decide)
  · obtain rfl := Option.some.inj h
    rw [hsingle, runVisits_text]
    exact checkDateTimeText_one text path
  · obtain rfl := Option.some.inj h
    exact checkReferenceText_one text path
  · obtain rfl := Option.some.inj h
    rw [hsingle, runVisits_text]
    exact checkLinkProperty_one text path property
  · cases h

end Texts

section Platform

variable {P : Platform}

/-- The rules of a property find at most one thing about a string, or leave it
as the one reference to check. -/
theorem checkValueRules_text (type : VocabularyType) (key text : JsString)
    (path : FieldPath) :
    (∃ one, checkValueRules P Json.tree type key (.str text) path =
        (one, .nothing) ∧ AtMostOne path one) ∨
      ∃ range, checkValueRules P Json.tree type key (.str text) path =
        ([], .references [.entry (.str text) path] key range) := by
  have hsingle : checkSingleValue Json.tree (.str text) path =
      [.entry (.str text) path] := rfl
  have hvalues : checkReferenceValues Json.tree (.str text) path =
      [.entry (.str text) path] := rfl
  unfold checkValueRules
  simp only [hsingle, hvalues, runVisits_text]
  split
  · exact .inl ⟨_, rfl, atMostOne_single path _ (by decide)⟩
  · split
    · split
      · exact .inl ⟨_, rfl, checkLinkProperty_one text path key⟩
      · exact .inl ⟨_, rfl, checkLinkProperty_one text path key⟩
    · split
      next hcommon =>
        exact .inl ⟨_, rfl, checkCommonProperty_one text path hcommon⟩
      next =>
        split
        · exact .inl ⟨_, rfl, atMostOne_single path _ (by decide)⟩
        · split
          · exact .inr ⟨_, rfl⟩
          · split
            · exact .inr ⟨_, rfl⟩
            · exact .inl ⟨_, rfl, atMostOne_single path _ (by decide)⟩

/-- What may come before the findings of a field. -/
def AliasesFirst (path : FieldPath) (findings : List Diagnostic) : Prop :=
  findings = [] ∨ findings = [aliasFinding path]

theorem aliasesFirst_of_if {path : FieldPath} (shown : Bool) :
    AliasesFirst path (reportsOf
      (if shown then [.report (aliasFinding path)] else [] : Item Json)) := by
  cases shown with
  | false => exact .inl rfl
  | true => exact .inr rfl

theorem AliasesFirst.apart {path : FieldPath} {first others : List Diagnostic}
    (h : AliasesFirst path first) (hothers : Apart path others)
    (hne : ∀ d ∈ others, d.path = path → d.reason ≠ .invalidMultiplicity) :
    Apart path (first ++ others) := by
  rcases h with rfl | rfl
  · exact hothers
  · have hfirst : Apart path [aliasFinding path] :=
      apart_single List.prefix_rfl
    refine hfirst.append hothers ?_
    intro d hd e he hreason hpath
    obtain rfl := List.mem_singleton.mp hd
    exact hne e he hpath.symm hreason.symm

section Events

variable {node : Node Json} {field : Field Json}
  {embedded : Json → FieldPath → Option (List VocabularyType) → JsString →
    Item Json × List (Item Json)}
  {extension : Json → FieldPath → List Diagnostic × List (Item Json)}

/-- A property that holds one string. -/
theorem fieldEvents_text {key text : JsString} (hname : field.name = some key)
    (hvalue : field.value = .str text) :
    Apart (node.path ++ [.key field.source]) (reportsOf
      (fieldEvents P embedded extension (node.check P Json.tree field))) := by
  have hone : ∀ {first one : List Diagnostic},
      AliasesFirst (node.path ++ [.key field.source]) first →
      AtMostOne (node.path ++ [.key field.source]) one →
      Apart (node.path ++ [.key field.source]) (first ++ one) := by
    intro first one hfirst hone
    rcases hone with rfl | ⟨reason, message, rfl, hreason⟩
    · exact hfirst.apart apart_nil (by simp)
    · refine hfirst.apart (apart_single List.prefix_rfl) ?_
      intro d hd _
      rw [List.mem_singleton.mp hd]
      exact hreason
  have homission : ∀ path identifier, proposePropertyOmission Json.tree
      (.str text) path identifier = none := fun _ _ => rfl
  unfold Node.check checkField
  simp only [hname]
  unfold checkNamedField
  split
  · exact hone (.inl rfl) (atMostOne_single _ _ (by decide))
  · split
    · rw [hvalue]
      exact hone (.inl rfl) (atMostOne_single _ _ (by decide))
    · simp only [hvalue, homission, ite_self]
      rcases checkValueRules_text (P := P) node.type key text
          (node.path ++ [.key field.source]) with ⟨one, heq, h⟩ | ⟨range, heq⟩
      · rw [heq]
        simp only [fieldEvents, fieldItems, List.flatten_singleton,
          reportsOf_append, reportsOf_reports]
        exact hone (aliasesFirst_of_if _) h
      · rw [heq, fieldEvents_references, List.flatMap_singleton,
          visitEvents_reference key range _ (by simp), reportsOf_append,
          reportsOf_append, reportsOf_reports, reportsOf_reports,
          List.append_nil]
        exact hone (aliasesFirst_of_if _)
          (checkReferenceText_one text (node.path ++ [.key field.source]))

/-- What a field finds of itself besides the finding on its spellings. -/
def Noted (path : FieldPath) (findings : List Diagnostic) : Prop :=
  findings = [] ∨ ∃ reason message, findings = [⟨reason, path, message⟩] ∧
    reason ∈ warnings

theorem Remarks.noted {path : FieldPath} {findings : List Diagnostic}
    (h : Remarks path findings) (hquiet : hasError findings = false) :
    Noted path findings :=
  h.imp (fun hobjects => hobjects.eq_nil hquiet) id

/-- A field that passed in one node finds the same in another of the same type
at the same place, but for its spellings. -/
theorem check_other {other : Node Json} (hpath : other.path = node.path)
    (htype : other.type = node.type)
    (hquiet : Quiet (node.check P Json.tree field).1) :
    (other.check P Json.tree field).2 = (node.check P Json.tree field).2 ∧
      ∃ first rest, reportsOf (other.check P Json.tree field).1 =
          first ++ rest ∧
        AliasesFirst (node.path ++ [.key field.source]) first ∧
        Noted (node.path ++ [.key field.source]) rest := by
  obtain ⟨shown, rest, follow, heq, hrest⟩ :=
    checkField_cases (P := P) (H := Json.tree) node.type node.path field
  unfold Node.check at hquiet ⊢
  rw [hpath, htype, heq, heq]
  rw [heq, quiet_iff, reportsOf_append, hasError_append,
    Bool.or_eq_false_iff] at hquiet
  exact ⟨rfl, _, _, reportsOf_append _ _, aliasesFirst_of_if _,
    hrest.noted hquiet.2⟩

/-- The findings of a document: at its own place it objects, though not to
the number of values. -/
structure Documented (path : FieldPath) (findings : List Diagnostic) :
    Prop where
  apart : Apart path findings
  own : ∀ d ∈ findings, d.path = path →
    d.reason ∈ objections ∧ d.reason ≠ .invalidMultiplicity

theorem documented_nil (path : FieldPath) : Documented path [] :=
  ⟨apart_nil, by simp⟩

theorem warning_not_objection {reason : DiagnosticReason}
    (h : reason ∈ warnings) :
    reason ∉ objections ∧ reason ≠ .invalidMultiplicity := by
  have hall : ∀ reason ∈ warnings,
      reason ∉ objections ∧ reason ≠ .invalidMultiplicity := by decide
  exact hall reason h

/-- The findings of a field: its own, then those of what it holds. -/
theorem apart_of_field {path : FieldPath} {first rest held : List Diagnostic}
    (hfirst : AliasesFirst path first) (hrest : Noted path rest)
    (hheld : Documented path held) : Apart path (first ++ rest ++ held) := by
  rw [List.append_assoc]
  rcases hrest with rfl | ⟨reason, message, rfl, hreason⟩
  · exact hfirst.apart hheld.apart fun d hd hpath => (hheld.own d hd hpath).2
  · obtain ⟨hobjection, hmultiplicity⟩ := warning_not_objection hreason
    have hnote : Apart path [⟨reason, path, message⟩] :=
      apart_single List.prefix_rfl
    refine hfirst.apart (hnote.append hheld.apart ?_) ?_
    · intro d hd e he heq hpath
      obtain rfl := List.mem_singleton.mp hd
      have hheldReason : reason = e.reason := heq
      exact hobjection (hheldReason ▸ (hheld.own e he hpath.symm).1)
    · intro d hd hpath
      rcases List.mem_cons.mp hd with rfl | hd
      · exact hmultiplicity
      · exact (hheld.own d hd hpath).2

/-- A field of the same value that holds no references. -/
theorem fieldEvents_unchanged {other : Node Json}
    (hpath : other.path = node.path) (htype : other.type = node.type)
    {others : Json → FieldPath → Option (List VocabularyType) → JsString →
      Item Json × List (Item Json)}
    (hquiet : Quiet (fieldEvents P embedded extension
      (node.check P Json.tree field)))
    (hfollow : ∀ visits key range, (node.check P Json.tree field).2 ≠
      .references visits key range)
    (hextension : ∀ entry p, WalkObjects (extension entry p)) :
    Apart (node.path ++ [.key field.source]) (reportsOf
      (fieldEvents P others extension (other.check P Json.tree field))) := by
  have hsub : ∀ event ∈ (node.check P Json.tree field).1,
      event ∈ fieldEvents P embedded extension
        (node.check P Json.tree field) := by
    intro event hevent
    unfold fieldEvents fieldItems
    split <;> simp [hevent]
  obtain ⟨hsame, first, rest, heq, hfirst, hrest⟩ :=
    check_other hpath htype (hquiet.of_subset hsub)
  have hown := apart_of_field hfirst hrest
    (documented_nil (node.path ++ [.key field.source]))
  rw [List.append_nil, ← heq] at hown
  cases hcase : (node.check P Json.tree field).2 with
  | references visits key range => exact absurd hcase (hfollow _ _ _)
  | nothing =>
      rw [hcase] at hsame
      simpa [fieldEvents, fieldItems, hsame] using hown
  | extension entry p =>
      rw [hcase] at hsame
      -- Whatever the extension found would be an error.
      have hnone : reportsOf (reports (extension entry p).1 ++
          (extension entry p).2.flatten : Item Json) = [] := by
        have hobjects : Objects (reportsOf (reports (extension entry p).1 ++
            (extension entry p).2.flatten : Item Json)) := by
          rw [reportsOf_append, reportsOf_reports]
          refine objects_append.mpr ⟨(hextension entry p).1, fun d hd => ?_⟩
          rw [mem_reportsOf, List.mem_flatten] at hd
          obtain ⟨item, hitem, hmem⟩ := hd
          exact (hextension entry p).2 item hitem d (mem_reportsOf.mpr hmem)
        refine hobjects.eq_nil (quiet_iff.mp (hquiet.of_subset ?_))
        intro event hevent
        unfold fieldEvents fieldItems
        rw [hcase]
        simp only [List.flatten_cons, List.append_assoc]
        exact List.mem_append_right _ hevent
      have hevents : fieldEvents P others extension
          (other.check P Json.tree field) =
            (other.check P Json.tree field).1 ++
              (reports (extension entry p).1 ++
                (extension entry p).2.flatten) := by
        unfold fieldEvents fieldItems
        rw [hsame]
        simp
      rw [hevents, reportsOf_append, hnone, List.append_nil]
      exact hown

/-! ## References -/

/-- Entries at the same places, with the same labels. -/
abbrev AlikeEntries (entries others : List (Json × FieldPath)) : Prop :=
  List.Forall₂ (fun e e' => e.2 = e'.2 ∧ e.1.label = e'.1.label) entries
    others

theorem isNull_of_label {value other : Json} (h : value.label = other.label) :
    isNull Json.tree value = isNull Json.tree other := by
  cases value <;> cases other <;> first | rfl | cases h

theorem isRecord_of_label {value other : Json}
    (h : value.label = other.label) :
    isRecord Json.tree value = isRecord Json.tree other := by
  cases value <;> cases other <;> first | rfl | cases h

theorem AlikeEntries.length_filter {entries others : List (Json × FieldPath)}
    (h : AlikeEntries entries others) :
    (others.filter fun e => !isNull Json.tree e.1).length =
      (entries.filter fun e => !isNull Json.tree e.1).length := by
  induction h with
  | nil => rfl
  | cons hhead _ ih =>
      rw [List.filter_cons, List.filter_cons, isNull_of_label hhead.2]
      split
      · rw [List.length_cons, List.length_cons, ih]
      · exact ih

theorem length_plannedEntries {value other : Json} {path : FieldPath}
    (hlabel : value.label = other.label)
    (h : AlikeEntries (valueEntries value path) (valueEntries other path)) :
    (plannedEntries other path).length =
      (plannedEntries value path).length := by
  cases value with
  | arr items =>
      cases other with
      | arr others => exact h.length_filter
      | _ => cases hlabel
  | _ =>
      cases other with
      | arr others => cases hlabel
      | _ => rfl

/-- The plan of a property that passed is one for every value whose entries
have the same labels. -/
theorem referenceVisits_alike {value other : Json} {path : FieldPath}
    {range : Option (List VocabularyType)} (hempty : value ≠ .arr [])
    (hnested : ∀ e ∈ valueEntries value path, ∀ items, e.1 ≠ .arr items)
    (hsingle : range.isSome = true → (plannedEntries value path).length ≤ 1)
    (hlabel : value.label = other.label)
    (halike : AlikeEntries (valueEntries value path)
      (valueEntries other path)) :
    other ≠ .arr [] ∧ referenceVisits range other path =
      (plannedEntries other path).map fun e => .entry e.1 e.2 := by
  have hnotEmpty : other ≠ .arr [] := by
    rintro rfl
    cases value with
    | arr items =>
        exact hempty (congrArg Json.arr
          (List.length_eq_zero_iff.mp (Json.Label.arr.inj hlabel)))
    | _ => cases hlabel
  refine ⟨hnotEmpty, referenceVisits_eq hnotEmpty (fun e' he' items hitems => ?_)
    fun hrange => ?_⟩
  · obtain ⟨e, he, -, hsame⟩ := ListSplit.exists_of_mem_right halike he'
    rw [hitems] at hsame
    cases hvalue : e.1 with
    | arr others => exact hnested e he others hvalue
    | _ =>
        rw [hvalue] at hsame
        cases hsame
  · rw [length_plannedEntries hlabel halike]
    exact hsingle hrange

/-- What the walk below a field has to show: every document of the preview in
it, which stands for one of the document, is documented. -/
def DocumentedBelow (node : Node Json) (visits : List (Visit Json))
    (range : Option (List VocabularyType)) (value : Json) (path : FieldPath)
    (walk : Json → FieldPath → Item Json) : Prop :=
  ∀ entry p, (entry, p) ∈ valueEntries value path →
    isRecord Json.tree entry = true →
    ∀ before child findings, .entry before p ∈ visits →
      isRecord Json.tree before = true → Embedded P node child →
      readNode P Json.tree before p (some node.context) range =
        (findings, some child) →
      Documented p (reportsOf (walk entry p))

/-- An entry is a reference that passed, or a document. -/
theorem visitEvents_documented (hfield : field ∈ node.checkedFields)
    (haccepted : FieldAccepted P node field) {visits : List (Visit Json)}
    {key : JsString} {range : Option (List VocabularyType)}
    (hfollow : (node.check P Json.tree field).2 = .references visits key range)
    {value : Json}
    (hwalk : DocumentedBelow (P := P) node visits range value
      (node.path ++ [.key field.source])
      fun entry p => walkEvents (embedded entry p range key))
    {before entry : Json} {p : FieldPath}
    (hbefore : (before, p) ∈ valueEntries field.value
      (node.path ++ [.key field.source]))
    (hentry : (entry, p) ∈ valueEntries value
      (node.path ++ [.key field.source]))
    (hlabel : before.label = entry.label) :
    Documented p (reportsOf
      (visitEvents P embedded key range (.entry entry p))) := by
  obtain ⟨-, -, -, hplan⟩ := haccepted.plan hfollow
  by_cases hrecord : isRecord Json.tree entry = true
  · rw [visitEvents_embedded key range _ hrecord]
    have hrecordBefore := (isRecord_of_label hlabel).trans hrecord
    have hvisit : .entry before p ∈ visits := by
      obtain ⟨-, -, hplans⟩ := check_references P hfollow
      have hnone : ∀ d, .finding d ∉ visits := by
        rw [hplan]
        simp
      refine (hplans.complete hnone before p hbefore).resolve_left ?_
      rintro rfl
      cases hrecordBefore
    have hok := haccepted.entries visits key range hfollow before p hvisit
    rw [EntryAccepted, if_pos hrecordBefore] at hok
    obtain ⟨findings, child, hread⟩ := hok
    exact hwalk entry p hentry hrecord before child findings hvisit
      hrecordBefore ⟨field, hfield, visits, key, range, hfollow, before, p,
        findings, hvisit, hrecordBefore, hread⟩ hread
  · rw [visitEvents_reference key range _ hrecord, reportsOf_reports]
    have hnil : checkReference P.toRuntime Json.tree entry p = [] := by
      cases entryShape_of_accepted P hfield haccepted hfollow hbefore with
      | null =>
          cases entry with
          | null => rfl
          | _ => cases hlabel
      | reference text _ hok =>
          cases entry with
          | str other =>
              obtain rfl := Json.Label.str.inj hlabel
              exact hok
          | _ => cases hlabel
      | embedded _ _ child hembedded hnode =>
          obtain ⟨ms, rfl, -⟩ := hnode.values
          exact absurd ((isRecord_of_label hlabel).symm.trans rfl) hrecord
    rw [hnil]
    exact documented_nil _

/-- The findings of the entries of a value are below its place. -/
theorem documented_entries {value : Json} {path : FieldPath}
    {f : Json × FieldPath → List Diagnostic}
    (h : ∀ e ∈ plannedEntries value path, Documented e.2 (f e)) :
    Documented path ((plannedEntries value path).flatMap f) := by
  have hplace : ∀ e ∈ plannedEntries value path, path <+: e.2 := by
    intro e he
    rcases valueEntries_path (plannedEntries_subset he) with
      ⟨hat, -⟩ | ⟨i, -, hat, -⟩
    · exact hat ▸ List.prefix_rfl
    · exact hat ▸ List.prefix_append _ _
  constructor
  · exact Apart.flatMap Prod.snd (fun e he => ⟨hplace e he, (h e he).apart⟩)
      (plannedEntries_pairwise value path)
  · intro d hd hat
    obtain ⟨e, he, hmem⟩ := List.mem_flatMap.mp hd
    refine (h e he).own d hmem ?_
    have hbelow := (h e he).apart.below d hmem
    rw [hat] at hbelow ⊢
    exact (hplace e he).eq_of_length_le hbelow.length_le

/-- A reference property with other entries of the same labels. -/
theorem fieldEvents_references_apart {other : Node Json} {changed : Field Json}
    (hpath : other.path = node.path) (htype : other.type = node.type)
    (hfield : field ∈ node.checkedFields)
    (haccepted : FieldAccepted P node field)
    {visits : List (Visit Json)} {key : JsString}
    {range : Option (List VocabularyType)}
    (hfollow : (node.check P Json.tree field).2 = .references visits key range)
    (hsource : changed.toSourceProperty = field.toSourceProperty)
    (hlabel : field.value.label = changed.value.label)
    (halike : AlikeEntries
      (valueEntries field.value (node.path ++ [.key field.source]))
      (valueEntries changed.value (node.path ++ [.key field.source])))
    (hwalk : DocumentedBelow (P := P) node visits range changed.value
      (node.path ++ [.key field.source])
      fun entry p => walkEvents (embedded entry p range key)) :
    Apart (node.path ++ [.key field.source]) (reportsOf
      (fieldEvents P embedded extension
        (other.check P Json.tree changed))) := by
  obtain ⟨hempty, hnested, hsingle, -⟩ := haccepted.plan hfollow
  obtain ⟨-, -, hfor⟩ := check_references_for hfollow
  obtain ⟨hnotEmpty, hvisits⟩ := referenceVisits_alike hempty
    hnested hsingle hlabel halike
  -- The node with the other fields of the first one reads the field alike.
  have hbridge := hfor { other with fields := node.fields } changed htype hpath
    (by rw [← htype]) hsource (isNull_of_label hlabel).symm hnotEmpty
  obtain ⟨hsame, first, rest, heq, hfirst, hrest⟩ :=
    @check_other P { other with fields := node.fields } changed other rfl rfl
      (by rw [hbridge]; exact haccepted.quiet)
  rw [hbridge, hvisits] at hsame
  have hplace : other.path ++ [.key changed.source] =
      node.path ++ [.key field.source] := by rw [hpath, hsource]
  change AliasesFirst (other.path ++ [.key changed.source]) first at hfirst
  change Noted (other.path ++ [.key changed.source]) rest at hrest
  rw [hplace] at hfirst hrest
  have hsplit : other.check P Json.tree changed =
      ((other.check P Json.tree changed).1, .references ((plannedEntries
        changed.value (node.path ++ [.key field.source])).map
          fun e => .entry e.1 e.2) key range) := Prod.ext rfl hsame
  have hheld : Documented (node.path ++ [.key field.source])
      ((plannedEntries changed.value
        (node.path ++ [.key field.source])).flatMap fun e => reportsOf
          (visitEvents P embedded key range (.entry e.1 e.2))) := by
    apply documented_entries
    rintro ⟨entry, p⟩ he
    have hentry := plannedEntries_subset he
    obtain ⟨⟨before, q⟩, hbefore, rfl, hsameLabel⟩ :=
      ListSplit.exists_of_mem_right halike hentry
    exact visitEvents_documented hfield haccepted hfollow hwalk hbefore hentry
      hsameLabel
  rw [hsplit, fieldEvents_references, reportsOf_append, heq, List.flatMap_map]
  have hreports : reportsOf ((plannedEntries changed.value
      (node.path ++ [.key field.source])).flatMap fun e =>
        visitEvents P embedded key range (.entry e.1 e.2)) = _ :=
    filterMap_flatMap _ _ _
  rw [hreports]
  exact apart_of_field hfirst hrest hheld

end Events

/-! ## The walk over a preview -/

section Walk

variable {document : Json} {root node : Node Json} {changes : List Change}

/-- The entries of a field that no change is about. -/
theorem Previews.alike (h : Previews P document root changes)
    (hnode : NodeAt P document node) {key : JsString}
    (hother : ∀ change ∈ changes, change.path ≠ node.path ++ [.key key])
    {before value : Json}
    (hbefore : document.get? (node.path ++ [.key key]) = some before)
    (hvalue : (createPreview document changes).get?
      (node.path ++ [.key key]) = some value)
    (hlabel : before.label = value.label) :
    AlikeEntries (valueEntries before (node.path ++ [.key key]))
      (valueEntries value (node.path ++ [.key key])) := by
  cases before with
  | arr items =>
      cases value with
      | arr others =>
          have hlength := Json.Label.arr.inj hlabel
          rw [AlikeEntries, List.forall₂_iff_get]
          refine ⟨by simp [valueEntries, hlength], fun i hi hj => ?_⟩
          have hitem := h.label hnode hother [.index i] (by simp)
          rw [Json.get?_append, hvalue, Json.get?_append, hbefore] at hitem
          simp only [valueEntries, List.length_map, List.length_zipIdx]
            at hi hj
          have hsome : (others[i]?).map Json.label =
              (items[i]?).map Json.label := by
            simpa [Json.get?, Json.child?] using hitem
          rw [List.getElem?_eq_getElem hi, List.getElem?_eq_getElem hj,
            Option.map_some, Option.map_some, Option.some.injEq] at hsome
          simp [valueEntries, hsome]
      | _ => cases hlabel
  | _ =>
      cases value with
      | arr others => cases hlabel
      | _ => exact .cons ⟨rfl, hlabel⟩ .nil

/-- A field that no change is about and that holds no references is the same
in the preview. -/
theorem Previews.same_value (h : Previews P document root changes)
    (hreach : Reaches P root node) {field : Field Json}
    (hfield : field ∈ node.fields)
    (hother : ∀ change ∈ changes,
      change.path ≠ node.path ++ [.key field.source])
    (hfollow : ∀ visits key range, (node.check P Json.tree field).2 ≠
      .references visits key range) :
    (createPreview document changes).get?
        (node.path ++ [.key field.source]) =
      document.get? (node.path ++ [.key field.source]) := by
  have hnode := h.accepted.nodeAt h.distinct hreach
  refine createPreview_get? (fun change hchange => ⟨?_, fun hbelow => ?_⟩)
    document
  · have habove := h.not_above hnode hother hchange [] (by simp)
    rwa [List.append_nil] at habove
  · obtain ⟨owner, name, howner, hpath, -⟩ := h.reached change hchange
    rw [hpath] at hbelow
    rcases prefix_concat hbelow with heq | hinside
    · exact hother change hchange (hpath.trans heq.symm)
    · obtain ⟨-, child, hheld, -⟩ :=
        h.accepted.reaches_through h.distinct hreach howner hfield hinside
      obtain ⟨visits, key, range, hreferences, -⟩ := hheld
      exact hfollow visits key range hreferences

/-- The findings of a node: those on its context, on its range and on its
fields. -/
theorem documented_node {node : Node Json} {findings : List Diagnostic}
    {values : List (JsString × Json)} {inherited : Option Terms}
    {context : Option Terms}
    (hcontext : checkContext P Json.tree values node.path inherited =
      (findings, context)) (hquiet : hasError findings = false)
    (fedify : Option (List VocabularyType))
    (hnodup : (node.fields.map fun field => field.source).Nodup)
    (hsource : ∀ field ∈ node.fields, field.source ≠ js "@context")
    {held : Field Json → List Diagnostic}
    (hheld : ∀ field ∈ node.checkedFields,
      Apart (node.path ++ [.key field.source]) (held field)) :
    Documented node.path (findings ++
      checkEmbeddedFedifyRange P.toRuntime node.type fedify node.path ++
      node.checkedFields.flatMap held) := by
  have hfields : Apart node.path (node.checkedFields.flatMap held) := by
    refine Apart.flatMap
      (fun field : Field Json => node.path ++ [.key field.source])
      (fun field hfield => ⟨List.prefix_append _ _, hheld field hfield⟩) ?_
    have hchecked : (node.checkedFields.map
        fun field => field.source).Nodup :=
      hnodup.sublist (List.filter_sublist.map _)
    rw [List.Nodup, List.pairwise_map] at hchecked
    refine hchecked.imp fun {a b} hne q => not_below_both fun heq => ?_
    exact hne (Segment.key.inj heq)
  have hbeyond : ∀ d ∈ node.checkedFields.flatMap held,
      d.path ≠ node.path ∧ d.path ≠ node.path ++ [.key (js "@context")] := by
    intro d hd
    obtain ⟨field, hfield, hmem⟩ := List.mem_flatMap.mp hd
    have hbelow := (hheld field hfield).below d hmem
    constructor
    · intro heq
      have hle := hbelow.length_le
      rw [heq, List.length_append, List.length_singleton] at hle
      omega
    · intro heq
      have hne : Segment.key field.source ≠ .key (js "@context") := ?_
      · exact not_below_both hne hbelow (heq ▸ List.prefix_rfl)
      intro hsame
      exact hsource field (mem_checkedFields.mp hfield).1
        (Segment.key.inj hsame)
  have hrange : AtMostOne node.path
      (checkEmbeddedFedifyRange P.toRuntime node.type fedify node.path) := by
    unfold checkEmbeddedFedifyRange
    split
    · exact atMostOne_nil _
    · split
      · exact atMostOne_single _ _ (by decide)
      · exact atMostOne_nil _
  have hassumed : findings = [] ∨ ∃ message, findings =
      [⟨.implicitActivitystreamsContext,
        node.path ++ [.key (js "@context")], message⟩] := by
    have hcases := checkContext_findings (P := P) (H := Json.tree) values
      node.path inherited
    rw [hcontext] at hcases
    exact hcases.imp (fun hobjects => hobjects.eq_nil hquiet) id
  have hrangeObjects : Objects
      (checkEmbeddedFedifyRange P.toRuntime node.type fedify node.path) :=
    checkEmbeddedFedifyRange_objects _ _ _
  have hranges : Apart node.path
      (checkEmbeddedFedifyRange P.toRuntime node.type fedify node.path) := by
    rcases hrange with heq | ⟨reason, message, heq, -⟩
    · rw [heq]
      exact apart_nil
    · rw [heq]
      exact apart_single List.prefix_rfl
  have hrangePath : ∀ d ∈
      checkEmbeddedFedifyRange P.toRuntime node.type fedify node.path,
      d.path = node.path ∧ d.reason ≠ .invalidMultiplicity := by
    intro d hd
    rcases hrange with heq | ⟨reason, message, heq, hreason⟩
    · rw [heq] at hd
      cases hd
    · rw [heq, List.mem_singleton] at hd
      rw [hd]
      exact ⟨rfl, hreason⟩
  have hnode : Documented node.path
      (checkEmbeddedFedifyRange P.toRuntime node.type fedify node.path ++
        node.checkedFields.flatMap held) := by
    constructor
    · refine hranges.append hfields fun d hd e he _ hpath => ?_
      exact (hbeyond e he).1 (hpath.symm.trans (hrangePath d hd).1)
    · intro d hd hpath
      rcases List.mem_append.mp hd with hd | hd
      · exact ⟨hrangeObjects d hd, (hrangePath d hd).2⟩
      · exact absurd hpath (hbeyond d hd).1
  rw [List.append_assoc]
  rcases hassumed with rfl | ⟨message, rfl⟩
  · exact hnode
  · have hpath : node.path ++ [.key (js "@context")] ≠ node.path := by
      intro heq
      have hlength := congrArg List.length heq
      rw [List.length_append, List.length_singleton] at hlength
      omega
    have hfirst : Apart node.path [⟨.implicitActivitystreamsContext,
        node.path ++ [.key (js "@context")], message⟩] :=
      apart_single (List.prefix_append _ _)
    constructor
    · refine hfirst.append hnode.apart fun d hd e he _ heq => ?_
      obtain rfl := List.mem_singleton.mp hd
      have hat : e.path = node.path ++ [.key (js "@context")] := heq.symm
      rcases List.mem_append.mp he with he | he
      · exact hpath (hat.symm.trans (hrangePath e he).1)
      · exact (hbeyond e he).2 hat
    · intro d hd heq
      rcases List.mem_cons.mp hd with rfl | hd
      · exact absurd heq hpath
      · exact hnode.own d hd heq

/-- One field of the preview beside the walk over the document. -/
theorem Previews.field_apart (h : Previews P document root changes)
    (hreach : Reaches P root node) (haccepted : NodeAccepted P node)
    {ms : List (JsString × Json)}
    (hget : (createPreview document changes).get? node.path = some (.obj ms))
    (hnodup : (ms.map Prod.fst).Nodup) (other : Node Json)
    (hpath : other.path = node.path) (htype : other.type = node.type)
    {embedded others : Json → FieldPath → Option (List VocabularyType) →
      JsString → Item Json × List (Item Json)}
    {extension : Json → FieldPath → List Diagnostic × List (Item Json)}
    (hquiet : ∀ field ∈ node.checkedFields, Quiet (fieldEvents P embedded
      extension (node.check P Json.tree field)))
    (hextension : ∀ entry p, WalkObjects (extension entry p))
    (hwalk : ∀ field ∈ node.checkedFields, ∀ visits key range,
      (node.check P Json.tree field).2 = .references visits key range →
      ∀ before p child findings entry, .entry before p ∈ visits →
      isRecord Json.tree before = true → Embedded P node child →
      readNode P Json.tree before p (some node.context) range =
        (findings, some child) →
      (createPreview document changes).get? p = some entry →
      Documented p (reportsOf (walkEvents (others entry p range key))))
    {field : Field Json}
    (hfield : field ∈ readFields P (ownProperties ms) node.context)
    (htypeField : field.name ≠ some (js "type")) :
    Apart (node.path ++ [.key field.source]) (reportsOf
      (fieldEvents P others extension (other.check P Json.tree field))) := by
  have hnode := h.accepted.nodeAt h.distinct hreach
  obtain ⟨⟨key, value⟩, hentry, hne, rfl⟩ := (mem_readFields P).mp hfield
  rw [mem_ownProperties] at hentry
  have hvalue : (createPreview document changes).get?
      (node.path ++ [.key key]) = some value := by
    rw [Json.get?_concat, hget]
    exact AssocList.lookup_eq_some_of_mem hnodup hentry
  rcases h.member hreach hget hnodup hentry with
    ⟨-, ⟨text, rfl⟩, hname, -⟩ | ⟨hother, before, hmember, hbefore, hlabel⟩
  · obtain ⟨name, hname⟩ := Option.isSome_iff_exists.mp hname
    rw [← hpath]
    exact fieldEvents_text hname rfl
  · -- The field of the document at the same key.
    have hold : { toSourceProperty := resolveProperty P key node.context
                  value := before } ∈ node.fields := by
      rw [hnode.fields, mem_readFields]
      exact ⟨_, hmember, hne, rfl⟩
    have hchecked : { toSourceProperty := resolveProperty P key node.context
                      value := before } ∈ node.checkedFields :=
      mem_checkedFields.mpr ⟨hold, htypeField⟩
    have hsource : (resolveProperty P key node.context).source = key :=
      resolveProperty_source P key node.context
    by_cases hfollow : ∃ visits name range, (node.check P Json.tree
        { toSourceProperty := resolveProperty P key node.context
          value := before }).2 = .references visits name range
    · obtain ⟨visits, name, range, hfollow⟩ := hfollow
      have halike := h.alike hnode hother hbefore hvalue hlabel
      have hbelow : DocumentedBelow (P := P) node visits range value
          (node.path ++ [.key (resolveProperty P key node.context).source])
          fun entry p => walkEvents (others entry p range name) := by
        intro entry p hentry hrecord old child findings hvisit hrecordOld
          hembedded hread
        refine hwalk _ hchecked visits name range hfollow old p child findings
          entry hvisit hrecordOld hembedded hread ?_
        rw [hsource] at hentry
        exact get?_valueEntries hvalue hentry
      exact @fieldEvents_references_apart P node
        { toSourceProperty := resolveProperty P key node.context
          value := before } others extension other
        { toSourceProperty := resolveProperty P key node.context
          value := value } hpath htype hchecked (haccepted _ hchecked) _ _ _
        hfollow rfl hlabel (by rw [hsource]; exact halike) hbelow
    · have hnone : ∀ visits name range, (node.check P Json.tree
          { toSourceProperty := resolveProperty P key node.context
            value := before }).2 ≠ .references visits name range :=
        fun visits name range heq => hfollow ⟨visits, name, range, heq⟩
      have hsame := h.same_value hreach hold (by rw [hsource]; exact hother)
        hnone
      rw [hsource, hvalue, hbefore] at hsame
      obtain rfl := Option.some.inj hsame
      exact fieldEvents_unchanged hpath htype (hquiet _ hchecked) hnone
        hextension

section Step

variable {findings : List Diagnostic}
  {embedded : Json → FieldPath → Option (List VocabularyType) → JsString →
    Item Json × List (Item Json)}
  {extension : Json → FieldPath → List Diagnostic × List (Item Json)}

theorem reportsOf_stepWalk :
    reportsOf (walkEvents (stepWalk P node findings embedded extension)) =
      findings ++ node.checkedFields.flatMap fun field => reportsOf
        (fieldEvents P embedded extension (node.check P Json.tree field)) := by
  have hflat : reportsOf (node.checkedFields.flatMap fun field =>
      fieldEvents P embedded extension (node.check P Json.tree field)) = _ :=
    filterMap_flatMap _ _ _
  have hvisit : reportsOf ([.visit node] : Item Json) = [] := rfl
  rw [walkEvents_stepWalk, reportsOf_append, reportsOf_append,
    reportsOf_reports, hvisit, List.append_nil, hflat]
  rfl

theorem quiet_fieldEvents
    (hquiet : Quiet (walkEvents (stepWalk P node findings embedded extension)))
    (field : Field Json) (hfield : field ∈ node.checkedFields) :
    Quiet (fieldEvents P embedded extension (node.check P Json.tree field)) := by
  refine hquiet.of_subset fun event hevent => ?_
  rw [walkEvents_stepWalk]
  exact List.mem_append_right _ (List.mem_flatMap.mpr ⟨field, hfield, hevent⟩)

end Step

/-- No two findings of the walk over a preview are alike. -/
theorem Previews.documented (h : Previews P document root changes)
    {fuel : ℕ} {ancestors others : List Json} {before value : Json}
    {path : FieldPath} {inherited : Option Terms}
    {expected fedify : Option (List VocabularyType)}
    {findings : List Diagnostic}
    (hquiet : Quiet (walkEvents (checkDocument P Json.tree fuel ancestors before
      path inherited expected fedify)))
    (hread : readNode P Json.tree before path inherited expected =
      (findings, some node)) (hreach : Reaches P root node)
    (hget : (createPreview document changes).get? path = some value) :
    Documented path (reportsOf (walkEvents (checkDocument P Json.tree fuel
      others value path inherited expected fedify))) := by
  induction fuel generalizing ancestors others before value path inherited
    expected fedify findings node with
  | zero =>
      have := hquiet (depthFinding path)
        (by simp [mem_walkEvents, checkDocument])
      cases this
  | succ fuel ih =>
      obtain ⟨_, first, hfirst, haccepted, -⟩ := checkDocument_accepted P hquiet
      rw [hread] at hfirst
      obtain rfl := Option.some.inj (Prod.mk.inj hfirst).2
      obtain rfl := (readNode_eq_some P hread).path_eq
      have hnode := h.accepted.nodeAt h.distinct hreach
      obtain ⟨ms, hobject, hnodup, -⟩ := preview_node h.distinct h.members
        hnode h.after_distinct
      obtain rfl : value = .obj ms := Option.some.inj (hget.symm.trans hobject)
      have hother := h.read hreach hobject hnodup hread
      obtain ⟨fields, context, type, -, hcontext, -, -, hsame⟩ :=
        readNode_eq_iff.mp hread
      have hshape : ∀ F G : List Diagnostic,
          (reports F ++ reports G : Item Json) = reports (F ++ G) := by
        simp [reports]
      rw [checkDocument] at hquiet ⊢
      by_cases hdepth : node.path.length > maximumPathDepth
      · rw [if_pos hdepth] at hquiet
        have := hquiet (depthFinding node.path) (by simp [mem_walkEvents])
        cases this
      · have hcycle : ∀ (value : Json) (above : List Json),
            (isContainer Json.tree value &&
              above.any (Json.tree.same value)) = false := by simp
        rw [if_neg hdepth] at hquiet ⊢
        simp only [hcycle, Bool.false_eq_true, if_false, hread, hother, hshape]
          at hquiet ⊢
        have hextension : ∀ (value : Json) (above : List Json),
            (fun entry p => checkExtension Json.tree fuel (value :: above) entry
              p true) =
              fun entry p => checkExtension Json.tree fuel [] entry p true :=
          fun value above => funext fun entry => funext fun p =>
            checkExtension_ancestors fuel (value :: above) entry p true
        rw [hextension] at hquiet ⊢
        change Quiet (walkEvents (stepWalk P node _ _ _)) at hquiet
        let other : Node Json :=
          { node with
            values := ownProperties ms
            fields := readFields P (ownProperties ms) node.context }
        change Documented other.path (reportsOf (walkEvents
          (stepWalk P other _ _ _)))
        have hquietFindings : hasError findings = false := by
          have hall := quiet_iff.mp hquiet
          rw [reportsOf_stepWalk, hasError_append, hasError_append,
            Bool.or_eq_false_iff, Bool.or_eq_false_iff] at hall
          exact hall.1.1
        rw [reportsOf_stepWalk]
        have hassumed : checkContext P Json.tree (ownProperties fields)
            other.path inherited = (findings, some context) := hcontext
        refine documented_node hassumed hquietFindings fedify
          (nodup_sources (nodup_ownProperties hnodup) _) ?_ ?_
        · intro field hfield
          obtain ⟨entry, -, hne, rfl⟩ := (mem_readFields P).mp hfield
          rw [resolveProperty_source]
          exact hne
        · intro field hfield
          obtain ⟨hmem, htypeField⟩ := mem_checkedFields.mp hfield
          refine h.field_apart hreach (haccepted.accepted node .refl) hobject
            hnodup other rfl rfl (quiet_fieldEvents hquiet)
            (fun entry p => checkExtension_objects fuel [] entry p true) ?_
            hmem htypeField
          intro held hheld visits key range hfollow old p child childFindings
            entry hvisited hrecord hembedded hchild hentry
          have hbelow : Quiet (walkEvents (checkDocument P Json.tree fuel
              (before :: ancestors) old p (some node.context) range
              (getEmbeddedFedifyRange key range))) := by
            refine hquiet.of_subset fun event hevent =>
              mem_stepWalk_of_visit P hheld hfollow hvisited ?_
            rw [mem_visitItems_entry, if_pos hrecord]
            exact hevent
          exact ih hbelow hchild (hreach.tail hembedded) hentry

end Walk

end Platform

end DrFed.Document
