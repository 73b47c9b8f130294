import DrFed.Document.Planned

/-!
# The order of a traversal

The visits of an accepted walk, as a list: a document comes before the
documents that it embeds, and no document is visited twice, since the paths of
a document and of what it holds tell all of them apart.
-/

namespace DrFed.Document

section Platform

variable (P : Platform)

/-! ## Paths of embedded documents -/

/-- The document that an entry of one field holds. -/
def HeldBy (parent : Node Json) (field : Field Json) (child : Node Json) :
    Prop :=
  ∃ visits key range,
    (parent.check P Json.tree field).2 = .references visits key range ∧
      ∃ entry path findings, .entry entry path ∈ visits ∧
        isRecord Json.tree entry = true ∧
        readNode P Json.tree entry path (some parent.context) range =
          (findings, some child)

theorem embedded_iff_heldBy {parent child : Node Json} :
    Embedded P parent child ↔
      ∃ field ∈ parent.checkedFields, HeldBy P parent field child := Iff.rfl

variable {P}

theorem HeldBy.entry {parent child : Node Json} {field : Field Json}
    (h : HeldBy P parent field child) :
    ∃ entry, (entry, child.path) ∈ valueEntries field.value
        (parent.path ++ [.key field.source]) ∧
      NodeOf P entry child.path (some parent.context) child := by
  obtain ⟨visits, key, range, hfollow, entry, path, findings, hvisit, -,
    hread⟩ := h
  obtain ⟨-, -, hplans⟩ := check_references P hfollow
  have hnode := readNode_eq_some P hread
  have hpath := hnode.path_eq
  subst hpath
  exact ⟨entry, hplans.sound entry _ hvisit, hnode⟩

theorem HeldBy.path {parent child : Node Json} {field : Field Json}
    (h : HeldBy P parent field child) :
    child.path = parent.path ++ [.key field.source] ∨
      ∃ i, child.path = parent.path ++ [.key field.source, .index i] := by
  obtain ⟨entry, hentry, -⟩ := h.entry
  rcases valueEntries_path hentry with ⟨hpath, -⟩ | ⟨i, items, hpath, -⟩
  · exact .inl hpath
  · exact .inr ⟨i, by simp [hpath]⟩

theorem HeldBy.below_path {parent child : Node Json} {field : Field Json}
    (h : HeldBy P parent field child) :
    parent.path ++ [.key field.source] <+: child.path := by
  rcases h.path with hpath | ⟨i, hpath⟩
  · exact hpath ▸ List.prefix_rfl
  · exact ⟨[.index i], by simp [hpath]⟩

theorem Embedded.below_path {parent child : Node Json}
    (h : Embedded P parent child) : parent.path <+: child.path := by
  obtain ⟨field, -, hheld⟩ := h
  exact (List.prefix_append _ _).trans (HeldBy.below_path hheld)

/-- A key below which a child lies, though not its parent, is the one that
the parent holds the child by. -/
theorem path_between {path parent child : FieldPath} {key other : JsString}
    (h : path ++ [.key key] <+: child)
    (hbelow : ¬ path ++ [.key key] <+: parent)
    (hchild : child = parent ++ [.key other] ∨
      ∃ i, child = parent ++ [.key other, .index i]) :
    path = parent ∧ key = other := by
  have hparent : parent <+: child := by
    rcases hchild with rfl | ⟨i, rfl⟩ <;> exact List.prefix_append _ _
  obtain ⟨tail, htail⟩ :=
    (List.prefix_or_prefix_of_prefix h hparent).resolve_left hbelow
  have hne : tail ≠ [] := by
    rintro rfl
    rw [List.append_nil] at htail
    exact hbelow (htail ▸ List.prefix_rfl)
  have hsplit : tail = [.key other] := by
    rw [← htail] at h
    have hlast := congrArg List.getLast? htail
    rcases hchild with rfl | ⟨i, rfl⟩ <;>
      rw [List.prefix_append_right_inj] at h
    · rcases List.prefix_cons_iff.mp h with rfl | ⟨rest, rfl, hrest⟩
      · exact absurd rfl hne
      · rw [List.prefix_nil.mp hrest]
    · rcases List.prefix_cons_iff.mp h with rfl | ⟨rest, rfl, hrest⟩
      · exact absurd rfl hne
      · rcases List.prefix_cons_iff.mp hrest with rfl | ⟨more, rfl, hmore⟩
        · rfl
        · rw [List.prefix_nil.mp hmore] at hlast
          simp at hlast
  subst hsplit
  obtain ⟨hpath, hkey⟩ := List.append_inj' htail rfl
  simp only [List.cons.injEq, Segment.key.injEq, and_true] at hkey
  exact ⟨hpath.symm, hkey.symm⟩

/-- The fields of a node have distinct keys. -/
theorem NodeAt.field_unique {document : Json} (hdistinct : document.Distinct)
    {node : Node Json} (h : NodeAt P document node) {field other : Field Json}
    (hfield : field ∈ node.fields) (hother : other ∈ node.fields)
    (hsource : field.source = other.source) : field = other := by
  rw [h.fields, mem_readFields] at hfield hother
  obtain ⟨⟨key, value⟩, hmem, -, rfl⟩ := hfield
  obtain ⟨⟨key', value'⟩, hmem', -, rfl⟩ := hother
  simp only [resolveProperty_source] at hsource
  subst hsource
  have hvalue := AssocList.lookup_eq_some_of_mem (h.nodup hdistinct) hmem
  have hvalue' := AssocList.lookup_eq_some_of_mem (h.nodup hdistinct) hmem'
  rw [hvalue] at hvalue'
  rw [Option.some.inj hvalue']

section Accepted

variable {document : Json} {root : Node Json}

/-- A document that is reached below a key of a node is reached through what
the field of that key holds. -/
theorem Accepted.reaches_below (hdistinct : document.Distinct)
    (haccepted : Accepted P document root) {node other : Node Json}
    (hnode : Reaches P root node) (hother : Reaches P root other)
    {key : JsString} (hpath : node.path ++ [.key key] <+: other.path) :
    ∃ field ∈ node.checkedFields, field.source = key ∧
      ∃ child, HeldBy P node field child ∧ Reaches P child other := by
  induction hother with
  | refl =>
      rw [haccepted.root_path] at hpath
      simp at hpath
  | @tail mid other hmid hembedded ih =>
      by_cases hbelow : node.path ++ [.key key] <+: mid.path
      · obtain ⟨field, hfield, hsource, child, hheld, hreach⟩ := ih hbelow
        exact ⟨field, hfield, hsource, child, hheld, hreach.tail hembedded⟩
      · obtain ⟨held, hheldField, hheld⟩ := hembedded
        change HeldBy P mid held other at hheld
        have hmidAt := haccepted.nodeAt hdistinct hmid
        have hnodeAt := haccepted.nodeAt hdistinct hnode
        -- The path of the node lies between that of the parent and the child.
        have hsame : node.path = mid.path ∧ key = held.source :=
          path_between hpath hbelow hheld.path
        obtain rfl := hnodeAt.unique hmidAt hsame.1
        exact ⟨held, hheldField, hsame.2.symm, other, hheld, .refl⟩

theorem Accepted.reaches_through (hdistinct : document.Distinct)
    (haccepted : Accepted P document root) {node other : Node Json}
    (hnode : Reaches P root node) (hother : Reaches P root other)
    {field : Field Json} (hfield : field ∈ node.fields)
    (hpath : node.path ++ [.key field.source] <+: other.path) :
    field ∈ node.checkedFields ∧
      ∃ child, HeldBy P node field child ∧ Reaches P child other := by
  obtain ⟨held, hchecked, hsource, hchild⟩ :=
    haccepted.reaches_below hdistinct hnode hother hpath
  obtain rfl := (haccepted.nodeAt hdistinct hnode).field_unique hdistinct
    hfield (mem_checkedFields.mp hchecked).1 hsource.symm
  exact ⟨hchecked, hchild⟩

/-- A change is at a key. -/
theorem Accepted.change_last (haccepted : Accepted P document root)
    {change : Change}
    (hchange : change ∈ (checkDocumentValue P Json.tree document).changes) :
    change.after? = none ∧ ∃ path key, change.path = path ++ [.key key] := by
  obtain ⟨node, -, field, -, hevent⟩ := (haccepted.changes change).mp hchange
  obtain ⟨⟨reason, message, rfl, -⟩, -⟩ := check_change P hevent
  exact ⟨rfl, node.path, field.source, rfl⟩

/-- A position below a key of a node that is to change is the position of the
field of that key, or the field holds a document. -/
theorem Accepted.change_below (hdistinct : document.Distinct)
    (haccepted : Accepted P document root) {change : Change}
    (hchange : change ∈ (checkDocumentValue P Json.tree document).changes)
    {node : Node Json} (hnode : Reaches P root node) {key : JsString}
    {rest : FieldPath} (hpath : change.path = node.path ++ .key key :: rest) :
    ∃ field ∈ node.checkedFields, field.source = key ∧
      ((rest = [] ∧ .change change ∈ (node.check P Json.tree field).1) ∨
        (rest ≠ [] ∧ ∃ child, HeldBy P node field child)) := by
  obtain ⟨other, hother, field, hfield, hevent⟩ :=
    (haccepted.changes change).mp hchange
  obtain ⟨⟨reason, message, rfl, -⟩, -⟩ := check_change P hevent
  change other.path ++ [.key field.source] = node.path ++ .key key :: rest
    at hpath
  rcases List.eq_nil_or_concat rest with rfl | ⟨init, last, rfl⟩
  · obtain ⟨hsame, hkey⟩ := List.append_inj' hpath rfl
    obtain rfl := (haccepted.nodeAt hdistinct hother).unique
      (haccepted.nodeAt hdistinct hnode) hsame
    exact ⟨field, hfield, by simpa using hkey, .inl ⟨rfl, hevent⟩⟩
  · have hlong : other.path ++ [.key field.source] =
        (node.path ++ .key key :: init) ++ [last] := by
      rw [hpath]
      simp
    obtain ⟨hinit, -⟩ := List.append_inj' hlong rfl
    have hbelow : node.path ++ [.key key] <+: other.path := by
      rw [hinit]
      exact (List.prefix_append_right_inj _).mpr
        ((List.prefix_cons_inj _).mpr (List.nil_prefix))
    obtain ⟨held, hheld, hsource, child, hchild, -⟩ :=
      haccepted.reaches_below hdistinct hnode hother hbelow
    exact ⟨held, hheld, hsource, .inr ⟨by simp, child, hchild⟩⟩

/-- A field that holds a document is not to change. -/
theorem HeldBy.no_change {node child : Node Json} {field : Field Json}
    (h : HeldBy P node field child) (change : Change) :
    .change change ∉ (node.check P Json.tree field).1 := by
  intro hchange
  obtain ⟨visits, key, range, hfollow, -⟩ := h
  obtain ⟨d, hd⟩ := (check_references_for hfollow).2.1 _ hchange
  cases hd

end Accepted

/-! ## Parents first -/

variable (P) in
/-- Every document of a list is embedded in one that was seen before it. -/
def ParentFirst : List (Node Json) → List (Node Json) → Prop
  | _, [] => True
  | seen, node :: rest =>
      (∃ parent ∈ seen, Embedded P parent node) ∧ ParentFirst (node :: seen) rest

theorem ParentFirst.mono {seen more nodes : List (Node Json)}
    (hsub : seen ⊆ more) (h : ParentFirst P seen nodes) :
    ParentFirst P more nodes := by
  induction nodes generalizing seen more with
  | nil => trivial
  | cons node rest ih =>
      obtain ⟨⟨parent, hparent, hembedded⟩, hrest⟩ := h
      exact ⟨⟨parent, hsub hparent, hembedded⟩,
        ih (List.cons_subset_cons node hsub) hrest⟩

theorem ParentFirst.append {seen nodes others : List (Node Json)}
    (h : ParentFirst P seen nodes) (h' : ParentFirst P seen others) :
    ParentFirst P seen (nodes ++ others) := by
  induction nodes generalizing seen with
  | nil => exact h'
  | cons node rest ih =>
      exact ⟨h.1, ih h.2 (h'.mono (List.subset_cons_self node seen))⟩

theorem ParentFirst.flatMap {α : Type} {seen : List (Node Json)}
    {entries : List α} {f : α → List (Node Json)}
    (h : ∀ entry ∈ entries, ParentFirst P seen (f entry)) :
    ParentFirst P seen (entries.flatMap f) := by
  induction entries with
  | nil => trivial
  | cons entry rest ih =>
      rw [List.flatMap_cons]
      exact (h entry List.mem_cons_self).append
        (ih fun other hother => h other (List.mem_cons_of_mem _ hother))

/-- The parent of a document that was not seen comes before it. -/
theorem ParentFirst.parent {seen before after : List (Node Json)}
    {node : Node Json} (h : ParentFirst P seen (before ++ node :: after)) :
    ∃ parent ∈ seen ++ before, Embedded P parent node := by
  induction before generalizing seen with
  | nil => simpa using h.1
  | cons other rest ih =>
      obtain ⟨parent, hparent, hembedded⟩ := ih h.2
      refine ⟨parent, ?_, hembedded⟩
      simpa [or_left_comm] using hparent

/-! ## Positions -/

def Event.position? : Event Json → Option FieldPath
  | .visit node => some node.path
  | .change proposed => some proposed.path
  | _ => none

/-- The positions of the documents that are visited and of the fields that
are to change. -/
def positionsOf (events : Item Json) : List FieldPath :=
  events.filterMap Event.position?

@[simp] theorem positionsOf_append (events others : Item Json) :
    positionsOf (events ++ others) = positionsOf events ++ positionsOf others :=
  List.filterMap_append

theorem changes_sublist (events : Item Json) :
    ((changesOf events).map NormalizationChange.path).Sublist
      (positionsOf events) := by
  induction events with
  | nil => exact List.Sublist.slnil
  | cons event rest ih =>
      cases event with
      | report d => exact ih
      | unavailable path => exact ih
      | visit node => exact ih.cons node.path
      | change proposed => exact ih.cons_cons proposed.path

theorem visits_sublist (events : Item Json) :
    ((visitsOf events).map Node.path).Sublist (positionsOf events) := by
  induction events with
  | nil => exact List.Sublist.slnil
  | cons event rest ih =>
      cases event with
      | report d => exact ih
      | unavailable path => exact ih
      | visit node => exact ih.cons_cons node.path
      | change proposed => exact ih.cons proposed.path

theorem positionsOf_reports {events : Item Json}
    (h : ∀ event ∈ events, ∃ d, event = .report d) : positionsOf events = [] := by
  rw [positionsOf, List.filterMap_eq_nil_iff]
  intro event hevent
  obtain ⟨d, rfl⟩ := h event hevent
  rfl

theorem visitsOf_append (events others : Item Json) :
    visitsOf (events ++ others) = visitsOf events ++ visitsOf others :=
  List.filterMap_append

theorem filterMap_flatMap {α β γ : Type} (f : β → Option γ) (g : α → List β)
    (entries : List α) :
    (entries.flatMap g).filterMap f =
      entries.flatMap fun entry => (g entry).filterMap f := by
  induction entries with
  | nil => rfl
  | cons entry rest ih =>
      rw [List.flatMap_cons, List.flatMap_cons, List.filterMap_append, ih]

/-- Blocks of positions below incomparable paths. -/
theorem nodup_blocks {α : Type} {entries : List α} {f : α → List FieldPath}
    {path : α → FieldPath}
    (hblock : ∀ entry ∈ entries, (f entry).Nodup ∧
      ∀ q ∈ f entry, path entry <+: q)
    (hpaths : entries.Pairwise fun a b => ∀ q, path a <+: q → ¬ path b <+: q) :
    (entries.flatMap f).Nodup := by
  rw [List.nodup_flatMap]
  refine ⟨fun entry hentry => (hblock entry hentry).1,
    hpaths.imp_of_mem fun {a b} ha hb hne => ?_⟩
  intro q hqa hqb
  exact hne q ((hblock a ha).2 q hqa) ((hblock b hb).2 q hqb)

/-- Two positions of one parent have nothing below both of them. -/
theorem not_below_both {path q : FieldPath} {segment other : Segment}
    (hne : segment ≠ other) (h : path ++ [segment] <+: q) :
    ¬ path ++ [other] <+: q := by
  intro h'
  have heq := (List.prefix_of_prefix_length_le h h' (by simp)).eq_of_length
    (by simp)
  exact hne (List.singleton_inj.mp (List.append_cancel_left heq))

/-! ## The order of a walk -/

/-- A walk visits its node first, every other document after its parent, and
no position twice. -/
structure WalkOrdered (P : Platform) (node : Node Json) (events : Item Json) :
    Prop where
  visits : ∃ rest, visitsOf events = node :: rest ∧ ParentFirst P [node] rest
  below : ∀ q ∈ positionsOf events, node.path <+: q
  nodup : (positionsOf events).Nodup

theorem positionsOf_changes (proposed : Option (NormalizationChange Json)) :
    (positionsOf (proposed.toList.map Event.change)).Nodup := by
  cases proposed with
  | none => exact List.nodup_nil
  | some proposed => exact List.nodup_singleton _

theorem positionsOf_multiple (aliases : List JsString) (source : JsString)
    (d : Diagnostic) :
    positionsOf (if aliases.contains source then [.report d] else []) = [] := by
  split <;> rfl

@[simp] theorem positionsOf_findings (findings : List Diagnostic) :
    positionsOf (reports findings) = [] := by
  refine positionsOf_reports fun event hevent => ?_
  obtain ⟨d, -, rfl⟩ := mem_reports.mp hevent
  exact ⟨d, rfl⟩

theorem visitsOf_findings (findings : List Diagnostic) :
    visitsOf (reports findings : Item Json) = [] := by
  rw [visitsOf, List.filterMap_eq_nil_iff]
  intro event hevent
  obtain ⟨d, -, rfl⟩ := mem_reports.mp hevent
  rfl

/-- The own events of a field have at most one position, which is that of the
field. -/
theorem positionsOf_check (node : Node Json) (field : Field Json) :
    (∀ q ∈ positionsOf (node.check P Json.tree field).1,
      q = node.path ++ [.key field.source]) ∧
    (positionsOf (node.check P Json.tree field).1).Nodup := by
  constructor
  · intro q hq
    obtain ⟨event, hevent, hposition⟩ := List.mem_filterMap.mp hq
    rcases check_events P hevent with ⟨d, rfl⟩ | ⟨proposed, rfl⟩
    · cases hposition
    · obtain ⟨⟨reason, message, rfl, -⟩, -⟩ := check_change P hevent
      exact (Option.some.inj hposition).symm
  · unfold Node.check checkField
    dsimp only
    split
    · split <;> exact List.nodup_nil
    · unfold checkNamedField
      split
      · exact List.nodup_nil
      · split
        · split <;> exact List.nodup_nil
        · dsimp only
          split <;> simp only [positionsOf_append, positionsOf_multiple,
            positionsOf_findings, List.nil_append]
          · exact positionsOf_changes _
          · exact List.nodup_nil

section Step

variable {node : Node Json} {findings : List Diagnostic}
  {embedded : Json → FieldPath → Option (List VocabularyType) → JsString →
    Item Json × List (Item Json)}
  {extension : Json → FieldPath → List Diagnostic × List (Item Json)}

variable (P) in
/-- What is asked of the walks below a field. -/
def OrderedBelow (node : Node Json) (field : Field Json)
    (embedded : Json → FieldPath → Option (List VocabularyType) → JsString →
      Item Json × List (Item Json)) : Prop :=
  ∀ visits key range,
    (node.check P Json.tree field).2 = .references visits key range →
    ∀ entry path, .entry entry path ∈ visits →
    isRecord Json.tree entry = true →
    ∃ child, Embedded P node child ∧ child.path = path ∧
      WalkOrdered P child (walkEvents (embedded entry path range key))

theorem visitEvents_embedded (key : JsString)
    (range : Option (List VocabularyType)) {entry : Json} (path : FieldPath)
    (hrecord : isRecord Json.tree entry = true) :
    visitEvents P embedded key range (.entry entry path) =
      walkEvents (embedded entry path range key) := by
  simp [visitEvents, visitItems, hrecord, walkEvents]

theorem visitEvents_reference (key : JsString)
    (range : Option (List VocabularyType)) {entry : Json} (path : FieldPath)
    (hrecord : isRecord Json.tree entry ≠ true) :
    visitEvents P embedded key range (.entry entry path) =
      reports (checkReference P.toRuntime Json.tree entry path) := by
  simp [visitEvents, visitItems, hrecord]

variable (hreports : ∀ value path, ∀ item ∈ (extension value path).2,
  ∀ event ∈ item, ∃ d, event = .report d)

include hreports

/-- A field that leaves no references causes only its own events and reports. -/
theorem fieldEvents_own {checked : Item Json × FollowUp Json}
    (hfollow : ∀ visits key range,
      checked.2 ≠ .references visits key range) :
    positionsOf (fieldEvents P embedded extension checked) =
        positionsOf checked.1 ∧
      visitsOf (fieldEvents P embedded extension checked) =
        visitsOf checked.1 := by
  obtain ⟨events, followUp⟩ := checked
  cases followUp with
  | nothing => simp [fieldEvents, fieldItems]
  | references visits key range => exact absurd rfl (hfollow _ _ _)
  | extension value path =>
      have hrest : ∀ event ∈ (reports (extension value path).1 ++
          (extension value path).2.flatten : Item Json), ∃ d,
            event = .report d := by
        intro event hevent
        rcases List.mem_append.mp hevent with hmem | hmem
        · obtain ⟨d, -, rfl⟩ := mem_reports.mp hmem
          exact ⟨d, rfl⟩
        · obtain ⟨item, hitem, hmem⟩ := List.mem_flatten.mp hmem
          exact hreports value path item hitem event hmem
      have hevents : fieldEvents P embedded extension
          (events, .extension value path) = events ++
            (reports (extension value path).1 ++
              (extension value path).2.flatten) := by
        simp [fieldEvents, fieldItems]
      have hvisits : visitsOf (reports (extension value path).1 ++
          (extension value path).2.flatten) = [] := by
        rw [visitsOf, List.filterMap_eq_nil_iff]
        intro event hevent
        obtain ⟨d, rfl⟩ := hrest event hevent
        rfl
      rw [hevents, positionsOf_append, visitsOf_append, hvisits,
        positionsOf_reports hrest, List.append_nil, List.append_nil]
      exact ⟨rfl, rfl⟩

omit hreports in
theorem visitsOf_check (node : Node Json) (field : Field Json) :
    visitsOf (node.check P Json.tree field).1 = [] := by
  rw [visitsOf, List.filterMap_eq_nil_iff]
  intro event hevent
  rcases check_events P hevent with ⟨d, rfl⟩ | ⟨proposed, rfl⟩ <;> rfl

omit hreports in
/-- Entries of one value have nothing below both of them. -/
theorem plannedEntries_pairwise (value : Json) (path : FieldPath) :
    (plannedEntries value path).Pairwise
      fun e e' => ∀ q, e.2 <+: q → ¬ e'.2 <+: q := by
  cases value with
  | arr items =>
      refine List.Pairwise.filter _ ?_
      rw [valueEntries, List.pairwise_map, List.pairwise_iff_getElem]
      intro i j hi hj hij q
      simp only [List.getElem_zipIdx, Nat.zero_add]
      apply not_below_both
      exact fun heq => (Nat.ne_of_lt hij) (Segment.index.inj heq)
  | _ => exact List.pairwise_singleton _ _

omit hreports in
/-- What the walk of one entry visits. -/
theorem visitEvents_ordered {key : JsString}
    {range : Option (List VocabularyType)} {entry : Json} {path : FieldPath}
    (hbelow : isRecord Json.tree entry = true →
      ∃ child, Embedded P node child ∧ child.path = path ∧
        WalkOrdered P child (walkEvents (embedded entry path range key))) :
    let events := visitEvents P embedded key range (.entry entry path)
    ParentFirst P [node] (visitsOf events) ∧ (positionsOf events).Nodup ∧
      ∀ q ∈ positionsOf events, path <+: q := by
  by_cases hrecord : isRecord Json.tree entry = true
  · obtain ⟨child, hembedded, rfl, hordered⟩ := hbelow hrecord
    obtain ⟨rest, hvisits, hrest⟩ := hordered.visits
    dsimp only
    rw [visitEvents_embedded key range _ hrecord, hvisits]
    refine ⟨⟨⟨node, List.mem_cons_self, hembedded⟩, hrest.mono ?_⟩,
      hordered.nodup, hordered.below⟩
    simp
  · dsimp only
    rw [visitEvents_reference key range _ hrecord, positionsOf_findings,
      visitsOf_findings]
    exact ⟨trivial, List.nodup_nil, fun _ h => nomatch h⟩

/-- What the walk of a field visits. -/
theorem fieldEvents_ordered {field : Field Json}
    (haccepted : FieldAccepted P node field)
    (hbelow : OrderedBelow P node field embedded) :
    let events := fieldEvents P embedded extension
      (node.check P Json.tree field)
    ParentFirst P [node] (visitsOf events) ∧ (positionsOf events).Nodup ∧
      ∀ q ∈ positionsOf events, node.path ++ [.key field.source] <+: q := by
  dsimp only
  by_cases hfollow : ∃ visits key range,
      (node.check P Json.tree field).2 = .references visits key range
  · obtain ⟨visits, key, range, hfollow⟩ := hfollow
    obtain ⟨-, -, -, hplan⟩ := haccepted.plan hfollow
    obtain ⟨-, hevents, -⟩ := check_references_for hfollow
    have hsplit : node.check P Json.tree field =
        ((node.check P Json.tree field).1, .references visits key range) := by
      rw [← hfollow]
    rw [hsplit, fieldEvents_references, visitsOf_append, positionsOf_append,
      visitsOf_check, positionsOf_reports hevents, List.nil_append,
      List.nil_append, hplan, List.flatMap_map]
    have hblocks : ∀ e ∈ plannedEntries field.value
        (node.path ++ [.key field.source]),
        ParentFirst P [node] (visitsOf (visitEvents P embedded key range
          (.entry e.1 e.2))) ∧
        (positionsOf (visitEvents P embedded key range
          (.entry e.1 e.2))).Nodup ∧
        ∀ q ∈ positionsOf (visitEvents P embedded key range
          (.entry e.1 e.2)), e.2 <+: q := by
      intro e he
      refine visitEvents_ordered fun hrecord =>
        hbelow visits key range hfollow e.1 e.2 ?_ hrecord
      rw [hplan]
      exact List.mem_map_of_mem he
    refine ⟨?_, ?_, ?_⟩
    · rw [visitsOf, filterMap_flatMap]
      exact ParentFirst.flatMap fun e he => (hblocks e he).1
    · rw [positionsOf, filterMap_flatMap]
      exact nodup_blocks (fun e he => (hblocks e he).2)
        (plannedEntries_pairwise _ _)
    · intro q hq
      rw [positionsOf, filterMap_flatMap, List.mem_flatMap] at hq
      obtain ⟨e, he, hmem⟩ := hq
      refine List.IsPrefix.trans ?_ ((hblocks e he).2.2 q hmem)
      rcases valueEntries_path (plannedEntries_subset he) with
        ⟨hpath, -⟩ | ⟨i, -, hpath, -⟩
      · exact hpath ▸ List.prefix_rfl
      · exact hpath ▸ List.prefix_append _ _
  · have hnone : ∀ visits key range, (node.check P Json.tree field).2 ≠
        .references visits key range :=
      fun visits key range h => hfollow ⟨visits, key, range, h⟩
    obtain ⟨hpositions, hvisits⟩ :
        positionsOf (fieldEvents P embedded extension
          (node.check P Json.tree field)) = _ ∧
        visitsOf (fieldEvents P embedded extension
          (node.check P Json.tree field)) = _ :=
      fieldEvents_own hreports hnone
    obtain ⟨hsame, hnodup⟩ := positionsOf_check (P := P) node field
    rw [hpositions, hvisits, visitsOf_check]
    refine ⟨trivial, hnodup, fun q hq => ?_⟩
    exact hsame q hq ▸ List.prefix_rfl

/-- The walk of a node over walks that are ordered. -/
theorem stepWalk_ordered (haccepted : NodeAccepted P node)
    (hsources : (node.fields.map fun field => field.source).Nodup)
    (hbelow : ∀ field ∈ node.checkedFields,
      OrderedBelow P node field embedded) :
    WalkOrdered P node
      (walkEvents (stepWalk P node findings embedded extension)) := by
  have hblocks : ∀ field ∈ node.checkedFields, _ := fun field hfield =>
    fieldEvents_ordered hreports (haccepted field hfield) (hbelow field hfield)
  have hvisits : visitsOf (walkEvents
      (stepWalk P node findings embedded extension)) = node ::
        node.checkedFields.flatMap fun field => visitsOf (fieldEvents P
          embedded extension (node.check P Json.tree field)) := by
    rw [walkEvents_stepWalk, visitsOf_append, visitsOf_append,
      visitsOf_findings, List.nil_append, visitsOf, visitsOf, filterMap_flatMap]
    rfl
  have hpositions : positionsOf (walkEvents
      (stepWalk P node findings embedded extension)) = node.path ::
        node.checkedFields.flatMap fun field => positionsOf (fieldEvents P
          embedded extension (node.check P Json.tree field)) := by
    rw [walkEvents_stepWalk, positionsOf_append, positionsOf_append,
      positionsOf_findings, List.nil_append, positionsOf, positionsOf,
      filterMap_flatMap]
    rfl
  constructor
  · exact ⟨_, hvisits, ParentFirst.flatMap fun field hfield =>
      (hblocks field hfield).1⟩
  · intro q hq
    rw [hpositions, List.mem_cons] at hq
    rcases hq with rfl | hq
    · exact List.prefix_rfl
    · obtain ⟨field, hfield, hmem⟩ := List.mem_flatMap.mp hq
      exact (List.prefix_append _ _).trans ((hblocks field hfield).2.2 q hmem)
  · rw [hpositions, List.nodup_cons]
    constructor
    · intro hmem
      obtain ⟨field, hfield, hq⟩ := List.mem_flatMap.mp hmem
      have hle := ((hblocks field hfield).2.2 _ hq).length_le
      rw [List.length_append, List.length_singleton] at hle
      omega
    · refine nodup_blocks (fun field hfield => (hblocks field hfield).2) ?_
      have hchecked : (node.checkedFields.map
          fun field => field.source).Nodup :=
        hsources.sublist (List.filter_sublist.map _)
      rw [List.Nodup, List.pairwise_map] at hchecked
      refine hchecked.imp fun {a b} hne q => not_below_both fun heq => ?_
      exact hne (Segment.key.inj heq)

end Step

theorem NodeOf.nodup {value : Json} {path : FieldPath}
    {inherited : Option Terms} {node : Node Json}
    (h : NodeOf P value path inherited node) (hdistinct : value.Distinct) :
    (node.values.map Prod.fst).Nodup := by
  obtain ⟨ms, rfl, hvalues⟩ := h.values
  rw [hvalues]
  exact nodup_ownProperties (Json.distinct_obj.mp hdistinct).1

theorem NodeOf.entry_distinct {value : Json} {path : FieldPath}
    {inherited : Option Terms} {node : Node Json}
    (h : NodeOf P value path inherited node) (hdistinct : value.Distinct)
    {field : Field Json} (hfield : field ∈ node.fields) {entry : Json}
    {q p : FieldPath} (hentry : (entry, p) ∈ valueEntries field.value q) :
    entry.Distinct := by
  obtain ⟨ms, rfl, hvalues⟩ := h.values
  have hmember := (h.field hfield).1
  rw [hvalues, mem_ownProperties] at hmember
  exact valueEntries_distinct ((Json.distinct_obj.mp hdistinct).2 _ hmember)
    hentry

theorem nodup_sources {values : List (JsString × Json)}
    (hnodup : (values.map Prod.fst).Nodup) (context : Terms) :
    ((readFields P values context).map fun field => field.source).Nodup := by
  have hmap : (readFields P values context).map (fun field => field.source) =
      (sortByKey (values.filter fun entry => entry.1 ≠ js "@context")).map
        Prod.fst := by
    rw [readFields, List.map_map]
    refine List.map_congr_left fun entry _ => ?_
    rw [Function.comp_apply, resolveProperty_source]
  rw [hmap, ((sortByKey_perm _).map Prod.fst).nodup_iff]
  exact hnodup.sublist (List.filter_sublist.map _)

/-- The walk of an accepted document is ordered. -/
theorem checkDocument_ordered {fuel : ℕ} {ancestors : List Json}
    {value : Json} {path : FieldPath} {inherited : Option Terms}
    {expected fedify : Option (List VocabularyType)}
    {findings : List Diagnostic} {node : Node Json}
    (hdistinct : value.Distinct)
    (hquiet : Quiet (walkEvents (checkDocument P Json.tree fuel ancestors value
      path inherited expected fedify)))
    (hread : readNode P Json.tree value path inherited expected =
      (findings, some node)) :
    WalkOrdered P node (walkEvents (checkDocument P Json.tree fuel ancestors
      value path inherited expected fedify)) := by
  induction fuel generalizing ancestors value path inherited expected fedify
    findings node with
  | zero =>
      have := hquiet (depthFinding path)
        (by simp [mem_walkEvents, checkDocument])
      cases this
  | succ fuel ih =>
      obtain ⟨_, root, hroot, haccepted, -⟩ := checkDocument_accepted P hquiet
      rw [hread] at hroot
      obtain rfl := Option.some.inj (Prod.mk.inj hroot).2
      have hnode := readNode_eq_some P hread
      rw [checkDocument] at hquiet ⊢
      by_cases hdepth : path.length > maximumPathDepth
      · rw [if_pos hdepth] at hquiet
        have := hquiet (depthFinding path) (by simp [mem_walkEvents])
        cases this
      · have hcycle : (isContainer Json.tree value &&
            ancestors.any (Json.tree.same value)) = false := by simp
        have hshape : ∀ F G : List Diagnostic,
            (reports F ++ reports G : Item Json) = reports (F ++ G) := by
          simp [reports]
        rw [if_neg hdepth] at hquiet ⊢
        simp only [hcycle, Bool.false_eq_true, if_false, hread, hshape]
          at hquiet ⊢
        refine stepWalk_ordered (fun _ _ _ hitem _ => checkExtension_events hitem)
          (haccepted.accepted node .refl) ?_ ?_
        · rw [hnode.fields]
          exact nodup_sources (hnode.nodup hdistinct) _
        intro field hfield visits key range hfollow entry entryPath hvisit
          hrecord
        have hbelow := (haccepted.accepted node .refl field hfield).entries
          visits key range hfollow entry entryPath hvisit
        rw [EntryAccepted, if_pos hrecord] at hbelow
        obtain ⟨childFindings, child, hchild⟩ := hbelow
        refine ⟨child, ⟨field, hfield, visits, key, range, hfollow, entry,
          entryPath, childFindings, hvisit, hrecord, hchild⟩,
          (readNode_eq_some P hchild).path_eq, ih ?_ ?_ hchild⟩
        · obtain ⟨-, -, hplans⟩ := check_references P hfollow
          exact hnode.entry_distinct hdistinct (mem_checkedFields.mp hfield).1
            (hplans.sound entry entryPath hvisit)
        · refine hquiet.of_subset fun event hevent =>
            mem_stepWalk_of_visit P hfield hfollow hvisit ?_
          rw [mem_visitItems_entry, if_pos hrecord]
          exact hevent

end Platform

end DrFed.Document
