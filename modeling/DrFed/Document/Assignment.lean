import DrFed.Document.Omission
import DrFed.Document.Previewed

/-!
# Assignments in a copied document

A member of the copy that is set to a string is that member of the tree.  With
the omissions this covers every change of a preview, so the preview of an
accepted document spells the preview of its tree.
-/

namespace AssocList

/-- A key is set alike in entries with images of the values. -/
theorem put_map {κ α β : Type} [DecidableEq κ] (f : α → β) (key : κ)
    (value : α) (entries : List (κ × α)) :
    put key (f value) (entries.map fun entry => (entry.1, f entry.2)) =
      (put key value entries).map fun entry => (entry.1, f entry.2) := by
  induction entries with
  | nil => rfl
  | cons entry rest ih =>
      rw [List.map_cons, put, put]
      split
      · rfl
      · rw [ih, List.map_cons]

theorem forall₂_put {κ α β : Type} [DecidableEq κ] {R : α → β → Prop}
    {xs : List (κ × α)} {ys : List (κ × β)}
    (h : List.Forall₂ (fun x y => x.1 = y.1 ∧ R x.2 y.2) xs ys) (key : κ)
    {a : α} {b : β} (hvalue : R a b) :
    List.Forall₂ (fun x y => x.1 = y.1 ∧ R x.2 y.2) (put key a xs)
      (put key b ys) := by
  induction h with
  | nil => exact .cons ⟨rfl, hvalue⟩ .nil
  | @cons x y xs ys hxy hrest ih =>
      rw [put, put, hxy.1]
      split
      · exact .cons ⟨rfl, hvalue⟩ hrest
      · exact .cons hxy ih

end AssocList

namespace DrFed.Document

/-! ## One assignment -/

section Assignment

variable {m m' : Memory} {json : Json} {root address : Address}
  {members : List (JsString × JsValue)}
  {distinct : (members.map Prod.fst).Nodup} {name : JsString}
  {scalar : JsValue}

theorem defined_eq {h : Heap}
    (hobject : h address = .ofMembers members distinct) (name : JsString)
    (scalar : JsValue) :
    ∃ more, Function.update h address ((h address).define (.key name) scalar)
      address = .ofMembers (AssocList.put name scalar members) more := by
  refine ⟨AssocList.nodup_put distinct, ?_⟩
  rw [Function.update_self, hobject]
  simp only [JsObject.ofMembers, JsObject.define, Segment.name,
    AssocList.put_map fun value : JsValue => JsProperty.data value true]

/-- With a property that is not an object, the objects stand where they
stood. -/
theorem at_of_define {h : Heap}
    (hobject : h address = .ofMembers members distinct)
    (hscalar : ∀ a, scalar ≠ .ref a) {value : JsValue} {path : FieldPath}
    {held : Address}
    (hat : (Heap.values (Function.update h address
      ((h address).define (.key name) scalar))).at value path =
        some (.ref held)) :
    h.values.at value path = some (.ref held) := by
  induction path generalizing value with
  | nil => exact hat
  | cons key rest ih =>
      obtain ⟨child, hchild, hrest⟩ := Option.bind_eq_some_iff.mp hat
      rw [Values.at]
      refine Option.bind_eq_some_iff.mpr ⟨child, ?_, ih hrest⟩
      cases value with
      | ref a =>
          by_cases heq : a = address
          · subst heq
            obtain ⟨more, hdefined⟩ := defined_eq hobject name scalar
            have hentry := JsObject.mem_entries_of_child
              (.inl ⟨_, _, hdefined⟩) hchild
            rw [hdefined, JsObject.entries_ofMembers] at hentry
            obtain ⟨m, hm, heq⟩ := List.mem_map.mp hentry
            obtain ⟨rfl, rfl⟩ := Prod.mk.inj heq
            have hlook : h.values.look (.ref a) = (h a).shape := rfl
            rw [hobject, JsObject.shape_ofMembers] at hlook
            rcases AssocList.mem_put hm with rfl | hmem
            · -- Nothing is below the new property.
              cases rest with
              | nil => exact absurd (Option.some.inj hrest) (hscalar held)
              | cons segment rest =>
                  obtain ⟨below, hbelow, -⟩ :=
                    Option.bind_eq_some_iff.mp hrest
                  exact absurd (Values.holds_of_child hbelow)
                    (JsValue.not_holds hscalar below)
            · exact Values.child_member h.lawful hlook hmem
          · rw [← hchild]
            simp only [Values.child, Heap.values, JsValue.shape,
              Function.update_of_ne heq]
      | _ =>
          exact absurd (Values.holds_of_child hchild)
            (JsValue.not_holds (by simp) child)

theorem spells_of_define {h : Heap} {tree child : Json}
    (hobject : h address = .ofMembers members distinct)
    (hchild : ∀ h : Heap, child.Spells h.values scalar)
    (hspells : tree.Spells h.values (.ref address))
    (hacyclic : ∀ held, h.values.Holds (.ref address) held →
      ¬ h.values.Leads held (.ref address)) :
    (tree.setChild (.key name) child).Spells (Heap.values
      (Function.update h address ((h address).define (.key name) scalar)))
        (.ref address) := by
  have hlook : h.values.look (.ref address) = (h address).shape := rfl
  rw [hobject, JsObject.shape_ofMembers] at hlook
  have hdefined : (Heap.values (Function.update h address
      ((h address).define (.key name) scalar))).look (.ref address) =
        .object true ((AssocList.put name scalar members).map fun m =>
          (m.1, .data m.2 true)) 0 := by
    obtain ⟨more, heq⟩ := defined_eq hobject name scalar
    exact (congrArg JsObject.shape heq).trans (JsObject.shape_ofMembers more)
  cases tree with
  | obj ms =>
      obtain ⟨others, hothers, hms⟩ := Json.spells_obj.mp hspells
      rw [hlook] at hothers
      obtain rfl := (List.map_injective_iff.mpr member_data_injective)
        (Shape.object.inj hothers).2.1
      refine Json.spells_obj.mpr ⟨_, hdefined, ?_⟩
      refine AssocList.forall₂_put (forall₂_of_mem hms
        fun m _ n hn hspelled => ⟨hspelled.1, ?_⟩) name (hchild _)
      have hheld := Values.holds_member hlook hn
      refine hspelled.2.frame fun a hleads => Function.update_of_ne ?_ _ _
      rintro rfl
      exact hacyclic n.2 hheld hleads
  | arr items =>
      obtain ⟨entries, hentries, -⟩ := Json.spells_arr.mp hspells
      rw [hlook] at hentries
      cases hentries
  | _ =>
      rw [Json.Spells, hlook] at hspells
      cases hspells

/-- An assignment in the copy is the assignment in its tree. -/
theorem Copied.assign (h : Copied m json m' root)
    {change : NormalizationChange JsValue} {copy : Change} {path : FieldPath}
    (hpath : change.path = path ++ [.key name]) (hcopy : copy.path = change.path)
    {text : JsString} (hafter : change.after? = some (.str text))
    (hcopyAfter : copy.after? = some (.str text))
    {ms : List (JsString × Json)} (hget : json.get? path = some (.obj ms)) :
    ∃ m'', changeCopy root m' change = some m'' ∧
      Copied m (applyChange json copy) m'' root := by
  obtain ⟨held, hat, hspells⟩ := h.spells.at hget
  obtain ⟨address, members, distinct, rfl, hobject⟩ := exists_object hspells
  have hfresh := (h.fresh address (Values.leads_of_at hat)).1
  have hscalar : ∀ a, JsValue.string text ≠ .ref a := by simp
  refine ⟨m'.write address ((m'.heap address).define (.key name)
    (.string text)), ?_, ?_⟩
  · rw [changeCopy, hpath, List.getLast?_concat, List.dropLast_concat,
      follow_of_at hat, hafter]
    rfl
  have hkept : ∀ {value : JsValue} {a : Address} {p : FieldPath},
      (Heap.values (m'.write address ((m'.heap address).define
        (.key name) (.string text))).heap).at value p = some (.ref a) →
      m'.heap.values.at value p = some (.ref a) :=
    at_of_define hobject hscalar
  constructor
  · intro a ha
    exact (Function.update_of_ne (Nat.lt_of_lt_of_le ha hfresh).ne _ _).trans
      (h.kept a ha)
  · have happly : applyChange json copy = json.update path fun value =>
        value.setChild (.key name) (.str text) := by
      simp [applyChange, updateParent, hcopy, hpath, editChild, hcopyAfter]
    rw [happly]
    have htext : ∀ h : Heap, (Json.str text).Spells h.values
        (.string text) := fun _ => rfl
    exact Json.Spells.update (fun tree htree hacyclic =>
      spells_of_define hobject htext htree hacyclic) h.spells h.unshared hat
  · exact fun p q a hp hq => h.unshared p q a (hkept hp) (hkept hq)
  · intro a hleads
    obtain ⟨p, hp⟩ := hleads.exists_at (Heap.lawful _)
    exact h.fresh a (Values.leads_of_at (hkept hp))

end Assignment

/-! ## All changes -/

section Changes

variable {P : Platform} {document : Json} {root : Node Json}
  {copies : List Change}

theorem Previews.of_subset (h : Previews P document root copies)
    {fewer : List Change} (hsubset : fewer ⊆ copies) :
    Previews P document root fewer where
  distinct := h.distinct
  accepted := h.accepted
  members change hchange := h.members change (hsubset hchange)
  after change hchange := h.after change (hsubset hchange)
  reached change hchange := h.reached change (hsubset hchange)

/-- Every change is made in an object of the preview so far. -/
theorem Previews.exists_parent (h : Previews P document root copies)
    {change : Change} (hchange : change ∈ copies) {done : List Change}
    (hdone : done ⊆ copies) :
    ∃ path name ms, change.path = path ++ [.key name] ∧
      (createPreview document done).get? path = some (.obj ms) := by
  obtain ⟨node, key, hreach, hpath, -⟩ := h.reached change hchange
  have hfewer := h.of_subset hdone
  obtain ⟨ms, hget, -⟩ := preview_node hfewer.distinct hfewer.members
    (h.accepted.nodeAt h.distinct hreach) hfewer.after_distinct
  exact ⟨node.path, key, ms, hpath, hget⟩

/-- The changes that are left, in a copy and in its tree. -/
theorem Copied.changeRest {m m' : Memory} {address : Address}
    {H : Values JsValue} {changes : List (NormalizationChange JsValue)}
    {done rest : List Change}
    (hsame : List.Forall₂ (SameChange H) changes rest)
    (h : Previews P document root (done ++ rest))
    (hcopied : Copied m (createPreview document done) m' address) :
    ∃ m'', changes.foldlM (changeCopy address) m' = some m'' ∧
      Copied m (createPreview document (done ++ rest)) m'' address := by
  induction hsame generalizing done m' with
  | nil => exact ⟨m', rfl, by rwa [List.append_nil]⟩
  | @cons change copy changes rest hfirst hsame ih =>
      have hmem : copy ∈ done ++ copy :: rest := by simp
      obtain ⟨path, name, ms, hpath, hget⟩ :=
        h.exists_parent hmem (List.subset_append_left done _)
      have hstep : ∃ next, changeCopy address m' change = some next ∧
          Copied m (applyChange (createPreview document done) copy) next
            address := by
        rcases h.after copy hmem with hafter | ⟨text, hafter⟩
        · exact hcopied.omit (hfirst.path.symm.trans hpath) hfirst.path
            (hfirst.after?.symm.trans hafter) hafter hget
        · exact hcopied.assign (hfirst.path.symm.trans hpath) hfirst.path
            (hfirst.after?.symm.trans hafter) hafter hget
      obtain ⟨next, hnext, hchanged⟩ := hstep
      have hsplit : done ++ copy :: rest = (done ++ [copy]) ++ rest := by simp
      rw [hsplit] at h ⊢
      obtain ⟨m'', hrest, hall⟩ := ih h
        (by rw [createPreview_append]; exact hchanged)
      refine ⟨m'', ?_, hall⟩
      rw [List.foldlM_cons, hnext]
      exact hrest

/-- The preview of a value is the preview of its tree. -/
theorem Previews.creates {m : Memory} {source : Address}
    (h : Previews P document root copies)
    (hspells : document.Spells m.heap.values (.ref source))
    (hcopyable : Copyable m source)
    (hobject : ∃ members, ∃ distinct : (members.map Prod.fst).Nodup,
      m.heap source = .ofMembers members distinct)
    {H : Values JsValue} {changes : List (NormalizationChange JsValue)}
    (hsame : List.Forall₂ (SameChange H) changes copies) :
    ∃ m', CreatesPreview m source changes m' (.ref m.next) ∧
      Copied m (Document.createPreview document copies) m' m.next := by
  obtain ⟨members, distinct, hobject⟩ := hobject
  obtain ⟨s, hsteps, hend, hcopied⟩ := copy_ends hobject hcopyable hspells
  obtain ⟨m', hchanges, hchanged⟩ :=
    Copied.changeRest hsame (List.nil_append copies ▸ h) hcopied
  exact ⟨m', .copied s m' hsteps hend hchanges, hchanged⟩

end Changes

end DrFed.Document
