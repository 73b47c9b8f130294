import DrFed.Document.Kept
import DrFed.Document.Natural

/-!
# Excerpts of accepted documents

An excerpt is the part of a document at one of its embedded documents, saved
as a document of its own: some documents in it have been replaced by
references, and its root may state its context anew.  An accepted excerpt
with the same context at its root reads like the part it was taken from.
-/

namespace DrFed

namespace Amendments

/-- Nothing is amended on the way to a position, nor there. -/
def Keeps (ρ : Amendments) (p : FieldPath) : Prop :=
  ∀ q, q <+: p → q ≠ [] → ρ q = .keep

theorem Keeps.nil (ρ : Amendments) : ρ.Keeps [] :=
  fun _ hbegins hne => absurd (List.prefix_nil.mp hbegins) hne

theorem Keeps.of_prefix {ρ : Amendments} {p q : FieldPath} (h : ρ.Keeps q)
    (hbegins : p <+: q) : ρ.Keeps p :=
  fun r hr hne => h r (hr.trans hbegins) hne

theorem keeps_concat {ρ : Amendments} {p : FieldPath} {segment : Segment}
    (h : ρ.Keeps p) (hlast : ρ (p ++ [segment]) = .keep) :
    ρ.Keeps (p ++ [segment]) := by
  intro q hq hne
  rcases List.prefix_concat_iff.mp hq with rfl | hq
  · exact hlast
  · exact h q hq hne

/-- A position is kept, or an outermost amendment is on the way to it. -/
theorem keeps_or_outermost (ρ : Amendments) (p : FieldPath) :
    ρ.Keeps p ∨ ∃ q segment, q ++ [segment] <+: p ∧ ρ.Keeps q ∧
      ρ (q ++ [segment]) ≠ .keep := by
  induction p using List.reverseRecOn with
  | nil => exact .inl (Keeps.nil ρ)
  | append_singleton p segment ih =>
      rcases ih with hkeeps | ⟨q, last, hbegins, hkeeps, hne⟩
      · by_cases hlast : ρ (p ++ [segment]) = .keep
        · exact .inl (keeps_concat hkeeps hlast)
        · exact .inr ⟨p, segment, List.prefix_rfl, hkeeps, hlast⟩
      · exact .inr ⟨q, last, hbegins.trans (List.prefix_append _ _), hkeeps,
          hne⟩

end Amendments

/-- An object of an amended tree that gets no objects put into it is an
amended object of the tree. -/
theorem Json.get?_amend_obj {ρ : Amendments} {value : Json}
    (hputs : ∀ q, ρ q = .keep ∨ ∃ text, ρ q = .put (.str text))
    {p : FieldPath} {fields : List (JsString × Json)}
    (h : (value.amend ρ).get? p = some (.obj fields)) :
    ρ.Keeps p ∧ ∃ ms, value.get? p = some (.obj ms) ∧
      fields = ms.filterMap (amendMember (ρ.beneath p)) := by
  rcases ρ.keeps_or_outermost p with hkeeps | ⟨q, segment, ⟨rest, hrest⟩,
    hkeeps, hne⟩
  · refine ⟨hkeeps, ?_⟩
    rw [get?_amend ρ value p hkeeps] at h
    obtain ⟨child, hchild, hobject⟩ := Option.map_eq_some_iff.mp h
    cases child with
    | obj ms =>
        rw [amend_obj] at hobject
        exact ⟨ms, hchild, (Json.obj.inj hobject).symm⟩
    | _ => cases hobject
  · obtain ⟨text, hput⟩ := (hputs _).resolve_left hne
    have hstr : ∀ found, (value.amend ρ).get? (q ++ [segment]) = some found →
        found = .str text := by
      intro found hfound
      rw [get?_concat, get?_amend ρ value q hkeeps] at hfound
      cases hchild : value.get? q with
      | none => simp [hchild] at hfound
      | some child =>
          rw [hchild, Option.map_some, Option.bind_some, child?_amend _ _ _
            (by rw [hput]; exact fun heq => by cases heq)] at hfound
          obtain ⟨part, -, rfl⟩ := Option.map_eq_some_iff.mp hfound
          exact amendChild_put hput part
    rw [← hrest, get?_append] at h
    obtain ⟨found, hfound, hbelow⟩ := Option.bind_eq_some_iff.mp h
    rw [hstr found hfound] at hbelow
    cases rest with
    | nil => cases hbelow
    | cons head tail => simp [get?_cons, child?] at hbelow

namespace Document

section Platform

variable {P : Platform}

/-! ## Reading alike -/

theorem ownContext_path (ms : List (JsString × Json)) (path : FieldPath)
    (inherited : Option Terms) :
    ownContext P ms path inherited = ownContext P ms [] inherited := by
  have hmoved := checkContext_moved Json.tree.reads_id path P
    (ownProperties ms) [] inherited
  have hsame : moveMembers id (ownProperties ms) = ownProperties ms := by
    simp [moveMembers]
  rw [List.append_nil, hsame] at hmoved
  rw [ownContext, ownContext, hmoved]

theorem ownContext_congr {ms others : List (JsString × Json)}
    (hms : (ms.map Prod.fst).Nodup) (hothers : (others.map Prod.fst).Nodup)
    (h : others.lookup (js "@context") = ms.lookup (js "@context"))
    (path path' : FieldPath) (inherited : Option Terms) :
    ownContext P others path' inherited = ownContext P ms path inherited := by
  rw [ownContext_path others path', ownContext_path ms path, ownContext,
    ownContext]
  refine congrArg Prod.snd (checkContext_congr P ?_ [] inherited)
  rw [lookup_ownProperties hothers, lookup_ownProperties hms, h]

/-- The fields of a record depend on its members but for the context. -/
theorem readFields_congr {values others : List (JsString × Json)}
    (hnodup : (values.map Prod.fst).Nodup)
    (hnodup' : (others.map Prod.fst).Nodup) (context : Terms)
    (h : ∀ key, key ≠ js "@context" → others.lookup key = values.lookup key) :
    readFields P others context = readFields P values context := by
  have hkeys : ∀ l : List (JsString × Json), (l.map Prod.fst).Nodup →
      ((sortByKey (l.filter fun entry => entry.1 ≠ js "@context")).map
        Prod.fst).Nodup := by
    intro l hl
    exact ((sortByKey_perm _).map Prod.fst).nodup_iff.mpr
      ((List.filter_sublist.map Prod.fst).nodup hl)
  have hsorted : ∀ l : List (JsString × Json),
      (sortByKey l).Pairwise fun a b => keyLe a.1 b.1 := sortByKey_pairwise
  have hmem : ∀ l : List (JsString × Json), (l.map Prod.fst).Nodup → ∀ entry,
      entry ∈ sortByKey (l.filter fun entry => entry.1 ≠ js "@context") ↔
        entry.1 ≠ js "@context" ∧ l.lookup entry.1 = some entry.2 := by
    intro l hl entry
    rw [(sortByKey_perm _).mem_iff, List.mem_filter, decide_eq_true_eq,
      and_comm]
    refine and_congr_right fun _ => ?_
    exact ⟨fun hentry => AssocList.lookup_eq_some_of_mem hl hentry,
      fun hentry => AssocList.mem_of_lookup_eq_some hentry⟩
  refine congrArg (List.map _) (List.Perm.eq_of_pairwise ?_
    (hsorted _) (hsorted _) ?_)
  · intro a b ha hb hle hge
    have hkey := keyLe_antisymm hle hge
    obtain ⟨hne, hlookup⟩ := (hmem others hnodup' a).mp ha
    obtain ⟨-, hlookup'⟩ := (hmem values hnodup b).mp hb
    rw [h a.1 hne, hkey, hlookup'] at hlookup
    exact Prod.ext hkey (Option.some.inj hlookup).symm
  · refine (List.perm_ext_iff_of_nodup (List.Nodup.of_map _ (hkeys _ hnodup'))
      (List.Nodup.of_map _ (hkeys _ hnodup))).mpr fun entry => ?_
    rw [hmem others hnodup', hmem values hnodup]
    exact and_congr_right fun hne => by rw [h entry.1 hne]

/-- An object on the way to an embedded document is on the way to the document
that embeds it. -/
theorem EmbedsAt.base_prefix {document : Json} {parent : Node Json}
    {base path q : FieldPath} (h : EmbedsAt P parent path)
    {part ms : List (JsString × Json)}
    (hpart : document.get? base = some (.obj part))
    (hobject : document.get? path = some (.obj ms)) (hpath : path = base ++ q)
    (hne : q ≠ []) : base <+: parent.path := by
  obtain ⟨key, -, -, -, -, hplace⟩ := h
  obtain ⟨init, last, rfl⟩ : ∃ init last, q = init ++ [last] :=
    ⟨_, _, (List.dropLast_append_getLast hne).symm⟩
  rw [← List.append_assoc] at hpath
  rcases hplace with heq | ⟨i, heq⟩
  · rw [hpath] at heq
    exact ⟨init, (List.append_inj' heq rfl).1⟩
  · have hsplit : parent.path ++ [Segment.key key, .index i] =
        (parent.path ++ [.key key]) ++ [.index i] := by simp
    rw [hpath, hsplit] at heq
    obtain ⟨hinit, hlast⟩ := List.append_inj' heq rfl
    obtain rfl | hinitial := eq_or_ne init []
    · rw [hpath, List.append_nil, List.cons.inj hlast |>.1, Json.get?_concat,
        hpart] at hobject
      cases hobject
    · obtain ⟨first, segment, rfl⟩ : ∃ first segment,
          init = first ++ [segment] :=
        ⟨_, _, (List.dropLast_append_getLast hinitial).symm⟩
      rw [← List.append_assoc] at hinit
      exact ⟨first, (List.append_inj' hinit rfl).1⟩

/-! ## Excerpts -/

/-- The part of a document at a path, with references in place of some of the
documents below; its root may state another context. -/
structure Excerpt (document : Json) (base : FieldPath) (ρ : Amendments)
    (excerpt : Json) : Prop where
  part : ∃ ms fields, document.get? base = some (.obj ms) ∧
    excerpt = .obj fields ∧ ∀ key, key ≠ js "@context" →
      fields.lookup key = (ms.filterMap (Json.amendMember ρ)).lookup key
  puts : ∀ q, ρ q = .keep ∨ ∃ text, ρ q = .put (.str text) ∧
    ∃ ms, document.get? (base ++ q) = some (.obj ms)
  outside : ∀ q, ρ q ≠ .keep → .key (js "@context") ∉ q

variable (P) in
/-- A node of a document as an excerpt shows it. -/
structure Mirrors (base : FieldPath) (ρ : Amendments)
    (node shown : Node Json) : Prop where
  path : node.path = base ++ shown.path
  context : shown.context = node.context
  type : shown.type = node.type
  fields : shown.fields = node.fields.map (Field.amended ρ shown.path)

namespace Excerpt

variable {document excerpt : Json} {base : FieldPath} {ρ : Amendments}
  (h : Excerpt document base ρ excerpt)

include h

theorem puts_text (q : FieldPath) :
    ρ q = .keep ∨ ∃ text, ρ q = .put (.str text) :=
  (h.puts q).imp id fun ⟨text, hput, _⟩ => ⟨text, hput⟩

theorem ne_drop (q : FieldPath) : ρ q ≠ .drop := by
  rcases h.puts_text q with heq | ⟨text, heq⟩ <;> rw [heq] <;>
    exact fun hdrop => by cases hdrop

theorem lookup_amended (q : FieldPath) (ms : List (JsString × Json))
    (key : JsString) :
    (ms.filterMap (Json.amendMember (ρ.beneath q))).lookup key =
      (ms.lookup key).map fun value =>
        Json.amendAt ρ value (q ++ [.key key]) := by
  have hdrop : ρ.beneath q [.key key] ≠ .drop :=
    h.ne_drop (q ++ [Segment.key key])
  rw [Json.lookup_amendMembers _ _ _ hdrop]
  exact congrArg (Option.map · _) (funext fun value =>
    Json.amendChild_beneath ρ q _ value)

theorem get?_below {q : FieldPath} (hne : q ≠ [])
    (houtside : .key (js "@context") ∉ q) : ∃ ms,
      document.get? base = some (.obj ms) ∧
      excerpt.get? q = ((Json.obj ms).amend ρ).get? q := by
  obtain ⟨ms, fields, hms, rfl, hfields⟩ := h.part
  refine ⟨ms, hms, ?_⟩
  obtain ⟨segment, rest, rfl⟩ := List.exists_cons_of_ne_nil hne
  rw [Json.amend_obj, Json.get?_cons, Json.get?_cons]
  refine congrArg (Option.bind · _) ?_
  cases segment with
  | index i => rfl
  | key key =>
      refine hfields key fun heq => houtside ?_
      rw [heq]
      exact List.mem_cons_self

/-- A context is never amended. -/
theorem context_kept (ms : List (JsString × Json)) (q : FieldPath) :
    (ms.filterMap (Json.amendMember (ρ.beneath q))).lookup (js "@context") =
      ms.lookup (js "@context") := by
  have hkeep : ∀ rest, ρ (q ++ .key (js "@context") :: rest) = .keep := by
    intro rest
    by_contra hne
    exact h.outside _ hne (by simp)
  rw [h.lookup_amended]
  cases ms.lookup (js "@context") with
  | none => rfl
  | some context =>
      rw [Option.map_some, amendAt_of_keep (by simpa using hkeep)]

/-- The objects of an excerpt are those of the part that it keeps. -/
theorem object {q : FieldPath} (houtside : .key (js "@context") ∉ q)
    {fields : List (JsString × Json)}
    (hget : excerpt.get? q = some (.obj fields)) :
    ρ.Keeps q ∧ ∃ ms, document.get? (base ++ q) = some (.obj ms) ∧
      (∀ key, key ≠ js "@context" → fields.lookup key =
        (ms.filterMap (Json.amendMember (ρ.beneath q))).lookup key) ∧
      (q ≠ [] → fields.lookup (js "@context") =
        ms.lookup (js "@context")) := by
  by_cases hne : q = []
  · obtain ⟨ms, members, hms, rfl, hmembers⟩ := h.part
    subst hne
    rw [Json.get?_nil] at hget
    obtain rfl := Json.obj.inj (Option.some.inj hget)
    exact ⟨.nil ρ, ms, by rwa [List.append_nil], hmembers,
      fun hne => absurd rfl hne⟩
  · obtain ⟨part, hpart, hsame⟩ := h.get?_below hne houtside
    rw [hsame] at hget
    obtain ⟨hkeeps, ms, hms, rfl⟩ := Json.get?_amend_obj h.puts_text hget
    refine ⟨hkeeps, ms, ?_, fun _ _ => rfl, fun _ => h.context_kept ms q⟩
    rw [Json.get?_append, hpart]
    exact hms

theorem object_of_keeps {q : FieldPath} (houtside : .key (js "@context") ∉ q)
    (hkeeps : ρ.Keeps q) {ms : List (JsString × Json)}
    (hget : document.get? (base ++ q) = some (.obj ms)) :
    ∃ fields, excerpt.get? q = some (.obj fields) := by
  by_cases hne : q = []
  · obtain ⟨-, fields, -, rfl, -⟩ := h.part
    exact ⟨fields, by rw [hne, Json.get?_nil]⟩
  · obtain ⟨part, hpart, hsame⟩ := h.get?_below hne houtside
    rw [Json.get?_append, hpart, Option.bind_some] at hget
    rw [hsame, Json.get?_amend ρ _ q hkeeps, hget, Option.map_some,
      Json.amend_obj]
    exact ⟨_, rfl⟩

/-- Nodes with one context at corresponding positions mirror each other. -/
theorem mirrors (hdistinct : document.Distinct)
    (hdistinct' : excerpt.Distinct) {node shown : Node Json}
    (hnode : NodeAt P document node) (hshown : NodeAt P excerpt shown)
    (hpath : node.path = base ++ shown.path)
    (hcontext : shown.context = node.context) : Mirrors base ρ node shown := by
  obtain ⟨fields, hfields, hvalues'⟩ := hshown.values
  obtain ⟨-, ms, hms, hmembers, -⟩ := h.object hshown.outside hfields
  obtain ⟨others, hothers, hvalues⟩ := hnode.values
  rw [hpath, hms] at hothers
  obtain rfl := Json.obj.inj (Option.some.inj hothers)
  have hms' := (Json.distinct_obj.mp (hdistinct.get? hms)).1
  have hfields' := (Json.distinct_obj.mp (hdistinct'.get? hfields)).1
  have hlookup : ∀ key, key ≠ js "@context" → shown.values.lookup key =
      (node.values.filterMap
        (Json.amendMember (ρ.beneath shown.path))).lookup key := by
    intro key hkey
    rw [hvalues', lookup_ownProperties hfields', hmembers key hkey, hvalues,
      h.lookup_amended, h.lookup_amended, lookup_ownProperties hms']
  refine ⟨hpath, hcontext, ?_, ?_⟩
  · refine hnode.type_eq hdistinct' hshown hcontext ?_ ?_
    · intro key text hmem hkey
      have hfound := AssocList.lookup_eq_some_of_mem (hnode.nodup hdistinct) hmem
      have hget := (mem_target hdistinct hnode).mpr hmem
      have hkeep : ρ (shown.path ++ [.key key]) = .keep := by
        refine (h.puts _).resolve_right ?_
        rintro ⟨-, -, members, hobject⟩
        rw [← List.append_assoc, ← hpath, hget] at hobject
        cases hobject
      refine AssocList.mem_of_lookup_eq_some ?_
      rw [hlookup key hkey, h.lookup_amended, hfound, Option.map_some,
        amendAt_str hkeep]
    · intro key value hmem hname
      have hkey : key ≠ js "@context" := by
        rintro rfl
        rw [resolveProperty_context (hnode.wellFormed hdistinct)] at hname
        cases hname
      have hfound := AssocList.lookup_eq_some_of_mem
        (hshown.nodup hdistinct') hmem
      rw [hlookup key hkey, h.lookup_amended] at hfound
      obtain ⟨before, hbefore, -⟩ := Option.map_eq_some_iff.mp hfound
      exact ⟨before, AssocList.mem_of_lookup_eq_some hbefore⟩
  · rw [hshown.fields, hnode.fields, hcontext,
      readFields_congr (Json.nodup_amendMembers _ (hnode.nodup hdistinct))
        (hshown.nodup hdistinct') _ hlookup,
      readFields_amend shown.path node.context (hnode.nodup hdistinct)]
    exact List.filterMap_eq_map_iff_forall_eq_some.mpr fun field _ =>
      amendField_of_ne_drop (h.ne_drop _)

section Accepted

variable {root root' start : Node Json} (hdistinct : document.Distinct)
  (hdistinct' : excerpt.Distinct) (haccepted : Accepted P document root)
  (haccepted' : Accepted P excerpt root') (hstart : Reaches P root start)
  (hbase : start.path = base) (hcontext : root'.context = start.context)

include hdistinct hdistinct' haccepted haccepted' hstart hbase hcontext

/-- Every document of an excerpt shows one of the part. -/
theorem node_of_shown {shown : Node Json} (hshown : Reaches P root' shown) :
    ρ.Keeps shown.path ∧
      ∃ node, Reaches P root node ∧ Mirrors base ρ node shown := by
  induction hshown with
  | refl =>
      have hnode := haccepted.nodeAt hdistinct hstart
      have hroot := haccepted'.nodeAt hdistinct' .refl
      refine ⟨haccepted'.root_path ▸ .nil ρ, start, hstart,
        h.mirrors hdistinct hdistinct' hnode hroot ?_ hcontext⟩
      rw [haccepted'.root_path, hbase, List.append_nil]
  | @tail parent child hparent hembedded ih =>
      obtain ⟨-, node, hreach, hmirrors⟩ := ih
      have hchild := haccepted'.nodeAt hdistinct' (hparent.tail hembedded)
      have hat := haccepted'.embedsAt hdistinct' hparent hembedded
      have hat' := hat.prepend hmirrors.path hmirrors.context hmirrors.type
      obtain ⟨fields, hfields⟩ := hchild.get?
      obtain ⟨hkeeps, ms, hms, -, hsame⟩ := h.object hchild.outside hfields
      obtain ⟨found, hfound, hpath⟩ :=
        haccepted.exists_reached hdistinct hreach hat' hms
      have hne : child.path ≠ [] := by
        obtain ⟨key, -, -, -, -, hq⟩ := hat
        rcases hq with hq | ⟨i, hq⟩ <;> rw [hq] <;> simp
      have hcontextAt := (haccepted'.nodeAt hdistinct'
        hparent).contextAt_embedded hdistinct' hat hfields
      have hcontextAt' := (haccepted.nodeAt hdistinct
        hreach).contextAt_embedded hdistinct hat' hms
      rw [hchild.context, hmirrors.context, ownContext_congr
        (Json.distinct_obj.mp (hdistinct.get? hms)).1
        (Json.distinct_obj.mp (hdistinct'.get? hfields)).1 (hsame hne)
        (base ++ child.path), ← hcontextAt', ← hpath,
        (haccepted.nodeAt hdistinct hfound).context] at hcontextAt
      exact ⟨hkeeps, found, hfound, h.mirrors hdistinct hdistinct'
        (haccepted.nodeAt hdistinct hfound) hchild hpath
        (Option.some.inj hcontextAt)⟩

theorem mirrors_of_reached {node shown : Node Json}
    (hnode : Reaches P root node) (hshown : Reaches P root' shown)
    (hpath : node.path = base ++ shown.path) : Mirrors base ρ node shown := by
  obtain ⟨-, other, hother, hmirrors⟩ := h.node_of_shown hdistinct
    hdistinct' haccepted haccepted' hstart hbase hcontext hshown
  have hsame : other = node := haccepted.reached_unique hdistinct hother hnode
    (hmirrors.path.trans hpath.symm)
  exact hsame ▸ hmirrors

/-- Every document of the part that is kept is shown by the excerpt. -/
theorem shown_of_node {node : Node Json} (hnode : Reaches P root node)
    {q : FieldPath} (hpath : node.path = base ++ q) (hkeeps : ρ.Keeps q) :
    ∃ shown, Reaches P root' shown ∧ shown.path = q := by
  induction hnode generalizing q with
  | refl =>
      rw [haccepted.root_path] at hpath
      obtain ⟨-, rfl⟩ := List.append_eq_nil_iff.mp hpath.symm
      exact ⟨root', .refl, haccepted'.root_path⟩
  | @tail parent child hparent hembedded ih =>
      by_cases hq : q = []
      · exact ⟨root', .refl, haccepted'.root_path.trans hq.symm⟩
      · have hat := haccepted.embedsAt hdistinct hparent hembedded
        have hchild := haccepted.nodeAt hdistinct (hparent.tail hembedded)
        obtain ⟨ms, hms⟩ := hchild.get?
        obtain ⟨part, -, hpart, -⟩ := h.part
        obtain ⟨above, habove⟩ := hat.base_prefix hpart hms hpath hq
        obtain ⟨rest, hrest⟩ := Embedded.below_path hembedded
        rw [hpath, ← habove, List.append_assoc, List.append_cancel_left_eq]
          at hrest
        obtain ⟨parent', hreach', hpath'⟩ :=
          ih habove.symm (hkeeps.of_prefix ⟨rest, hrest⟩)
        have hmirrors := h.mirrors_of_reached hdistinct hdistinct' haccepted
          haccepted' hstart hbase hcontext hparent hreach'
          (hpath'.symm ▸ habove.symm)
        have houtside : .key (js "@context") ∉ q := fun hmem =>
          hchild.outside (hpath ▸ List.mem_append_right base hmem)
        obtain ⟨fields, hfields⟩ :=
          h.object_of_keeps houtside hkeeps (hpath ▸ hms)
        rw [hpath] at hat
        exact haccepted'.exists_reached hdistinct' hreach'
          (hat.congr hmirrors.path hmirrors.context hmirrors.type) hfields

end Accepted

end Excerpt

end Platform

end Document

end DrFed
