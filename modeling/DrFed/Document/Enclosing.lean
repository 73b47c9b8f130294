import DrFed.Document.Fields
import DrFed.Document.Natural
import DrFed.Document.Stack
import DrFed.Js.Graph

/-!
# Enclosing documents and extension values

The positions at which the walk looks for cycles, each with the documents and
extension values around it.  The set of ancestors that the work stack keeps is
at every moment that of the position it turns to.
-/

namespace DrFed

namespace Document

/-- Documents and extension values around a position, the innermost first,
with their paths. -/
abbrev Chain (ι : Type) := List (FieldPath × ι)

/-- What the walk takes a position for. -/
inductive Place where
  | document (inherited : Option Terms)
      (expectedTypes : Option (List VocabularyType))
  | extension

section Platform

variable (P : Platform) {ι : Type} (H : Values ι) (root : ι)

/-- The documents and extension values that enclose a position which the walk
can reach.  Embedded documents and opaque values lie in documents; an opaque
value encloses everything below it. -/
inductive Encloses : Chain ι → ι → FieldPath → Place → Prop
  | root : Encloses [] root [] (.document none none)
  | embedded {above : Chain ι} {value : ι} {path : FieldPath}
      {inherited : Option Terms} {expected : Option (List VocabularyType)}
      (h : Encloses above value path (.document inherited expected))
      (findings : List Diagnostic) (node : Node ι)
      (hread : readNode P H value path inherited expected =
        (findings, some node))
      (field : Field ι) (hfield : field ∈ node.checkedFields)
      (visits : List (Visit ι)) (key : JsString)
      (range : Option (List VocabularyType))
      (hfollow : (node.check P H field).2 = .references visits key range)
      (entry : ι) (p : FieldPath) (hentry : .entry entry p ∈ visits) :
      Encloses ((path, value) :: above) entry p
        (.document (some node.context) range)
  | opaqueField {above : Chain ι} {value : ι} {path : FieldPath}
      {inherited : Option Terms} {expected : Option (List VocabularyType)}
      (h : Encloses above value path (.document inherited expected))
      (findings : List Diagnostic) (node : Node ι)
      (hread : readNode P H value path inherited expected =
        (findings, some node))
      (field : Field ι) (hfield : field ∈ node.checkedFields)
      (entry : ι) (p : FieldPath)
      (hfollow : (node.check P H field).2 = .extension entry p) :
      Encloses ((path, value) :: above) entry p .extension
  | item {above : Chain ι} {value : ι} {path : FieldPath}
      (h : Encloses above value path .extension)
      (entries : List (Option (Slot ι))) (named : List (JsString × Slot ι))
      (symbols : ℕ) (hlook : H.look value = .array entries named symbols)
      (entry : ι) (p : FieldPath)
      (hentry : .entry entry p ∈ visitList entries named symbols path) :
      Encloses ((path, value) :: above) entry p .extension
  | member {above : Chain ι} {value : ι} {path : FieldPath}
      (h : Encloses above value path .extension)
      (values : List (JsString × ι))
      (hread : readDocument H value path = .ok values)
      (entry : JsString × ι) (hentry : entry ∈ values) :
      Encloses ((path, value) :: above) entry.2 (path ++ [.key entry.1])
        .extension

/-- A path at which a document has a list as the value of a property that
resolves to a standard name. -/
def PropertyList (q : FieldPath) : Prop :=
  ∃ above value path inherited expected findings node,
    Encloses P H root above value path (.document inherited expected) ∧
    readNode P H value path inherited expected = (findings, some node) ∧
    ∃ field ∈ node.checkedFields, field.name.isSome = true ∧
      q = path ++ [.key field.source] ∧
      ∃ entries named symbols, H.look field.value =
        .array entries named symbols

end Platform

section Reading

variable {ι : Type} {H : Values ι}

theorem readMembers_ok {path : FieldPath} {ms : List (JsString × Slot ι)}
    {values : List (JsString × ι)} (h : readMembers H path ms = .ok values) :
    ms = values.map fun m => (m.1, .data m.2 true) := by
  induction ms generalizing values with
  | nil =>
      obtain rfl := Except.ok.inj h
      rfl
  | cons m rest ih =>
      obtain ⟨key, slot⟩ := m
      cases slot with
      | accessor => cases h
      | data value enumerable =>
          cases enumerable with
          | false => cases h
          | true =>
              rw [readMembers] at h
              split at h
              next =>
                cases hrest : readMembers H path rest with
                | error d => rw [hrest] at h; cases h
                | ok others =>
                    rw [hrest] at h
                    obtain rfl := Except.ok.inj h
                    rw [ih hrest]
                    rfl
              next => cases h

/-- The record that is read has the data properties of the object. -/
theorem readDocument_members {value : ι} {path : FieldPath}
    {values : List (JsString × ι)}
    (h : readDocument H value path = .ok values) :
    ∃ members, H.look value = .object true members 0 ∧
      members.Perm (values.map fun m => (m.1, Slot.data m.2 true)) := by
  obtain ⟨members, hlook, hread⟩ := readDocument_look h
  refine ⟨members, hlook, ?_⟩
  cases hmembers : readMembers H path (sortByKey members) with
  | error d => rw [hmembers] at hread; cases hread
  | ok others =>
      rw [hmembers] at hread
      obtain rfl := Except.ok.inj hread
      have hsorted := sortByKey_perm members
      rw [readMembers_ok hmembers] at hsorted
      exact hsorted.symm.trans ((propertyOrder_perm others).symm.map _)

theorem child_of_readDocument (hlawful : H.Lawful) {value : ι}
    {path : FieldPath} {values : List (JsString × ι)}
    (h : readDocument H value path = .ok values) {entry : JsString × ι}
    (hentry : entry ∈ values) :
    H.child value (.key entry.1) = some entry.2 := by
  obtain ⟨members, hlook, hperm⟩ := readDocument_members h
  have hmem : (entry.1, Slot.data entry.2 true) ∈ members :=
    hperm.mem_iff.mpr (List.mem_map_of_mem hentry)
  have hlookup := AssocList.lookup_eq_some_of_mem
    (hlawful.keys value _ _ _ hlook) hmem
  simp [Values.child, hlook, hlookup]

theorem child_of_visitList {value : ι} {entries : List (Option (Slot ι))}
    {named : List (JsString × Slot ι)} {symbols : ℕ}
    (hlook : H.look value = .array entries named symbols)
    {path p : FieldPath} {entry : ι}
    (h : .entry entry p ∈ visitList entries named symbols path) :
    ∃ i, p = path ++ [.index i] ∧ H.child value (.index i) = some entry := by
  unfold visitList at h
  split_ifs at h with hextra
  · simp at h
  · obtain ⟨⟨slot, i⟩, hslot, heq⟩ := List.mem_map.mp h
    have hget := List.mk_mem_zipIdx_iff_getElem?.mp hslot
    cases slot with
    | none => cases heq
    | some slot =>
        cases slot with
        | accessor => cases heq
        | data value enumerable =>
            cases enumerable with
            | false => cases heq
            | true =>
                obtain ⟨rfl, rfl⟩ := Visit.entry.inj heq
                exact ⟨i, rfl, by simp [Values.child, hlook, hget]⟩

end Reading

section Chains

variable {P : Platform} {ι : Type} {H : Values ι} {root : ι}
  {above : Chain ι} {value : ι} {path : FieldPath} {place : Place}

theorem mem_values_of_checkedFields {inherited : Option Terms}
    {expected : Option (List VocabularyType)} {findings : List Diagnostic}
    {node : Node ι}
    (hread : readNode P H value path inherited expected =
      (findings, some node)) {field : Field ι}
    (hfield : field ∈ node.checkedFields) :
    node.path = path ∧ readDocument H value path = .ok node.values ∧
      (field.source, field.value) ∈ node.values := by
  obtain ⟨hpath, hdocument, -, hfields, -⟩ := readNode_ok hread
  refine ⟨hpath, hdocument, ?_⟩
  have hmem : field ∈ readFields P node.values node.context :=
    hfields ▸ List.mem_of_mem_filter hfield
  obtain ⟨entry, hentry, rfl⟩ := List.mem_map.mp hmem
  have hentry := List.mem_of_mem_filter ((sortByKey_perm _).mem_iff.mp hentry)
  simpa [resolveProperty_source] using hentry

/-- One step outwards: a position and the innermost value around it. -/
theorem Encloses.at (hlawful : H.Lawful)
    (h : Encloses P H root above value path place) :
    H.at root path = some value := by
  induction h with
  | root => rfl
  | embedded h findings node hread field hfield visits key range hfollow entry
      p hentry ih =>
      obtain ⟨hpath, hdocument, hmem⟩ := mem_values_of_checkedFields hread hfield
      have hchild := child_of_readDocument hlawful hdocument hmem
      obtain ⟨-, hvisits⟩ := check_scheduled hfollow
      rw [hvisits, hpath] at hentry
      rcases mem_scheduledVisits hentry with ⟨rfl, rfl, -⟩ |
        ⟨entries, named, symbols, hlook, hvisit⟩
      · rw [Values.at_concat, ih]
        exact hchild
      · obtain ⟨i, rfl, hitem⟩ := child_of_visitList hlook hvisit
        rw [Values.at_concat, Values.at_concat, ih, Option.bind_some, hchild]
        exact hitem
  | opaqueField h findings node hread field hfield entry p hfollow ih =>
      obtain ⟨hpath, hdocument, hmem⟩ := mem_values_of_checkedFields hread hfield
      obtain ⟨-, rfl, rfl⟩ := check_extension hfollow
      rw [hpath, Values.at_concat, ih]
      exact child_of_readDocument hlawful hdocument hmem
  | item h entries named symbols hlook entry p hentry ih =>
      obtain ⟨i, rfl, hitem⟩ := child_of_visitList hlook hentry
      rw [Values.at_concat, ih]
      exact hitem
  | member h values hread entry hentry ih =>
      rw [Values.at_concat, ih]
      exact child_of_readDocument hlawful hread hentry

variable (H root path) in
/-- What the values around a position are: containers on its path, and with
the lists of vocabulary properties all of them. -/
structure Around (P : Platform) (above : Chain ι) : Prop where
  on : ∀ entry ∈ above, entry.1 <+: path ∧ entry.1 ≠ path ∧
    H.at root entry.1 = some entry.2 ∧ isContainer H entry.2 = true
  all : ∀ q, q <+: path → q ≠ path →
    (∃ entry ∈ above, entry.1 = q) ∨ PropertyList P H root q

theorem isContainer_of_readDocument
    {values : List (JsString × ι)}
    (h : readDocument H value path = .ok values) :
    isContainer H value = true := by
  obtain ⟨members, hlook, -⟩ := readDocument_look h
  simp [isContainer, hlook]

theorem prefix_append_singleton {α : Type} {q p : List α} {x : α}
    (h : q <+: p ++ [x]) (hne : q ≠ p ++ [x]) : q <+: p := by
  obtain ⟨t, ht⟩ := h
  rcases List.eq_nil_or_concat t with rfl | ⟨t, y, rfl⟩
  · exact absurd (by simpa using ht) hne
  · rw [List.concat_eq_append, ← List.append_assoc] at ht
    exact ⟨t, List.append_inj_left' ht rfl⟩

/-- A position one segment below an enclosing value. -/
theorem Around.below (h : Around H root path P above)
    (hat : H.at root path = some value) (hcontainer : isContainer H value = true)
    (segment : Segment) :
    Around H root (path ++ [segment]) P ((path, value) :: above) := by
  constructor
  · intro entry hentry
    rcases List.mem_cons.mp hentry with rfl | hentry
    · exact ⟨List.prefix_append _ _, by simp, hat, hcontainer⟩
    · obtain ⟨hbegin, hne, hvalue⟩ := h.on entry hentry
      refine ⟨hbegin.trans (List.prefix_append _ _), fun heq => ?_, hvalue⟩
      have hlength := hbegin.length_le
      rw [heq, List.length_append, List.length_singleton] at hlength
      omega
  · intro q hq hne
    by_cases heq : q = path
    · exact .inl ⟨_, List.mem_cons_self, heq.symm⟩
    · rcases h.all q (prefix_append_singleton hq hne) heq with
        ⟨entry, hentry, hpath⟩ | hlist
      · exact .inl ⟨entry, List.mem_cons_of_mem _ hentry, hpath⟩
      · exact .inr hlist

/-- A position in a list that is the value of a property. -/
theorem Around.beneath (h : Around H root path P above) {segment : Segment}
    (hlist : PropertyList P H root path) :
    Around H root (path ++ [segment]) P above := by
  constructor
  · intro entry hentry
    obtain ⟨hbegin, hne, hvalue⟩ := h.on entry hentry
    refine ⟨hbegin.trans (List.prefix_append _ _), fun heq => ?_, hvalue⟩
    have hlength := hbegin.length_le
    rw [heq, List.length_append, List.length_singleton] at hlength
    omega
  · intro q hq hne
    by_cases heq : q = path
    · exact .inr (heq ▸ hlist)
    · exact h.all q (prefix_append_singleton hq hne) heq

theorem Encloses.around (hlawful : H.Lawful)
    (h : Encloses P H root above value path place) :
    Around H root path P above := by
  induction h with
  | root =>
      exact ⟨(fun entry hentry => nomatch hentry),
        fun q hq hne => absurd (List.prefix_nil.mp hq) hne⟩
  | embedded h findings node hread field hfield visits key range hfollow entry
      p hentry ih =>
      obtain ⟨hpath, hdocument, hmem⟩ := mem_values_of_checkedFields hread hfield
      have hbelow := ih.below (h.at hlawful)
        (isContainer_of_readDocument hdocument) (.key field.source)
      obtain ⟨hname, hvisits⟩ := check_scheduled hfollow
      rw [hvisits, hpath] at hentry
      rcases mem_scheduledVisits hentry with ⟨rfl, rfl, -⟩ |
        ⟨entries, named, symbols, hlook, hvisit⟩
      · exact hbelow
      · obtain ⟨i, rfl, -⟩ := child_of_visitList hlook hvisit
        exact hbelow.beneath ⟨_, _, _, _, _, _, node, h, hread, field, hfield,
          by simp [hname], rfl, _, _, _, hlook⟩
  | opaqueField h findings node hread field hfield entry p hfollow ih =>
      obtain ⟨hpath, hdocument, hmem⟩ := mem_values_of_checkedFields hread hfield
      obtain ⟨-, rfl, rfl⟩ := check_extension hfollow
      rw [hpath]
      exact ih.below (h.at hlawful) (isContainer_of_readDocument hdocument) _
  | item h entries named symbols hlook entry p hentry ih =>
      obtain ⟨i, rfl, -⟩ := child_of_visitList hlook hentry
      exact ih.below (h.at hlawful) (by simp [isContainer, hlook]) _
  | member h values hread entry hentry ih =>
      exact ih.below (h.at hlawful) (isContainer_of_readDocument hread) _

end Chains

end Document

end DrFed
