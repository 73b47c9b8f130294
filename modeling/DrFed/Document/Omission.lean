import DrFed.Document.Copy
import DrFed.Document.Preview

/-!
# Changes of a copied document

The second half of the preview: each change follows its path into the copy
and deletes or defines one property there.  In an unshared copy an omission is
one of the tree that the copy spells.
-/

namespace DrFed.Document

/-- The value that a change defines.  No change proposes a container. -/
def scalarValue : Json → Option JsValue
  | .null => some .null
  | .bool b => some (.bool b)
  | .num n => some (.number n)
  | .str text => some (.string text)
  | .arr _ | .obj _ => none

/-- Read the properties of a path one after the other. -/
def follow (h : Heap) : JsValue → FieldPath → Option JsValue
  | value, [] => some value
  | .ref address, key :: rest =>
      ((h address).read? key).bind fun child => follow h child rest
  | _, _ :: _ => none

/-- Apply a change below the root of a copy.  There is no result where a value
on the path is not an object. -/
def changeCopy (root : Address) (m : Memory)
    (change : NormalizationChange JsValue) : Option Memory :=
  match change.path.getLast?, follow m.heap (.ref root) change.path.dropLast with
  | some key, some (.ref parent) =>
      match change.after? with
      | none => some (m.write parent ((m.heap parent).delete key))
      | some after => (scalarValue after).map fun value =>
          m.write parent ((m.heap parent).define key value)
  | _, _ => none

/-- What `createPreview` makes of a document: the copy, with the changes. -/
inductive CreatesPreview (m : Memory) (source : Address)
    (changes : List (NormalizationChange JsValue)) : Memory → JsValue → Prop
  | copied (s : CopyState) (m' : Memory)
      (hcopy : CopyState.Steps (.start m source) s) (hend : s.step = none)
      (hchanges : changes.foldlM (changeCopy m.next) s.memory = some m') :
      CreatesPreview m source changes m' (.ref m.next)

theorem CopyState.Steps.eq_of_end {s t t' : CopyState}
    (h : CopyState.Steps s t) (hend : t.step = none)
    (h' : CopyState.Steps s t') (hend' : t'.step = none) : t = t' := by
  have hunique : Relator.RightUnique fun s s' : CopyState =>
      s.step = some s' :=
    fun _ _ _ hstep hstep' => Option.some.inj (hstep.symm.trans hstep')
  have hstay : ∀ {u v : CopyState}, u.step = none → CopyState.Steps u v →
      v = u := by
    intro u v hnone hsteps
    rcases hsteps.cases_head with heq | ⟨next, hnext, -⟩
    · exact heq.symm
    · rw [hnone] at hnext
      cases hnext
  rcases h.total_of_right_unique hunique h' with hmore | hmore
  · exact (hstay hend hmore).symm
  · exact hstay hend' hmore

/-- There is at most one preview. -/
theorem CreatesPreview.unique {m m' m'' : Memory} {source : Address}
    {changes : List (NormalizationChange JsValue)} {root root' : JsValue}
    (h : CreatesPreview m source changes m' root)
    (h' : CreatesPreview m source changes m'' root') :
    m' = m'' ∧ root = root' := by
  obtain ⟨s, m', hcopy, hend, hchanges⟩ := h
  obtain ⟨t, m'', hcopy', hend', hchanges'⟩ := h'
  obtain rfl := hcopy.eq_of_end hend hcopy' hend'
  rw [hchanges] at hchanges'
  exact ⟨Option.some.inj hchanges', rfl⟩

/-! ## One omission -/

section Omission

variable {m m' : Memory} {json : Json} {root address : Address}

theorem follow_of_at {h : Heap} {value held : JsValue} {path : FieldPath}
    (hat : h.values.at value path = some held) :
    follow h value path = some held := by
  induction path generalizing value with
  | nil => cases value <;> exact hat
  | cons key rest ih =>
      obtain ⟨child, hchild, hrest⟩ := Option.bind_eq_some_iff.mp hat
      cases value with
      | ref address =>
          rw [follow, JsObject.read?_of_child hchild]
          exact ih hrest
      | _ =>
          exact absurd (Values.holds_of_child hchild)
            (JsValue.not_holds (by simp) child)

theorem forall₂_remove {R : Json → JsValue → Prop}
    {ms : List (JsString × Json)} {members : List (JsString × JsValue)}
    (h : List.Forall₂ (fun m n => m.1 = n.1 ∧ R m.2 n.2) ms members)
    (name : JsString) :
    List.Forall₂ (fun m n => m.1 = n.1 ∧ R m.2 n.2)
      (AssocList.remove name ms) (AssocList.remove name members) := by
  induction h with
  | nil => exact .nil
  | @cons m n ms members hmn _ ih =>
      rw [AssocList.remove, AssocList.remove, List.filter_cons,
        List.filter_cons, hmn.1]
      split
      · exact .cons hmn ih
      · exact ih

variable {members : List (JsString × JsValue)}
  {distinct : (members.map Prod.fst).Nodup} {name : JsString}

theorem deleted_eq {h : Heap}
    (hobject : h address = .ofMembers members distinct) (name : JsString) :
    ∃ fewer, Function.update h address ((h address).delete (.key name))
      address = .ofMembers (AssocList.remove name members) fewer := by
  rw [Function.update_self, hobject, JsObject.delete_ofMembers]
  exact ⟨_, rfl⟩

/-- Without the property, nothing stands where nothing stood. -/
theorem at_of_delete {h : Heap} (hobject : h address = .ofMembers members distinct)
    {value held : JsValue} {path : FieldPath}
    (hat : (Heap.values (Function.update h address
      ((h address).delete (.key name)))).at value path = some held) :
    h.values.at value path = some held := by
  induction path generalizing value with
  | nil => exact hat
  | cons key rest ih =>
      obtain ⟨child, hchild, hrest⟩ := Option.bind_eq_some_iff.mp hat
      rw [Values.at]
      refine Option.bind_eq_some_iff.mpr ⟨child, ?_, ih hrest⟩
      cases value with
      | ref a =>
          by_cases heq : a = address
          · subst heq
            obtain ⟨fewer, hdeleted⟩ := deleted_eq hobject name
            have hentry := JsObject.mem_entries_of_child
              (.inl ⟨_, _, hdeleted⟩) hchild
            rw [hdeleted, JsObject.entries_ofMembers] at hentry
            obtain ⟨m, hm, heq⟩ := List.mem_map.mp hentry
            obtain ⟨rfl, rfl⟩ := Prod.mk.inj heq
            have hlook : h.values.look (.ref a) = (h a).shape := rfl
            rw [hobject, JsObject.shape_ofMembers] at hlook
            exact Values.child_member h.lawful hlook
              (List.mem_of_mem_filter hm)
          · rw [← hchild]
            simp only [Values.child, Heap.values, JsValue.shape,
              Function.update_of_ne heq]
      | _ =>
          exact absurd (Values.holds_of_child hchild)
            (JsValue.not_holds (by simp) child)

theorem spells_of_delete {h : Heap} {tree : Json}
    (hobject : h address = .ofMembers members distinct)
    (hspells : tree.Spells h.values (.ref address))
    (hacyclic : ∀ held, h.values.Holds (.ref address) held →
      ¬ h.values.Leads held (.ref address)) :
    (tree.removeChild (.key name)).Spells (Heap.values
      (Function.update h address ((h address).delete (.key name))))
        (.ref address) := by
  have hlook : h.values.look (.ref address) = (h address).shape := rfl
  rw [hobject, JsObject.shape_ofMembers] at hlook
  have hdeleted : (Heap.values (Function.update h address
      ((h address).delete (.key name)))).look (.ref address) =
        .object true ((AssocList.remove name members).map fun m =>
          (m.1, .data m.2 true)) 0 := by
    obtain ⟨fewer, heq⟩ := deleted_eq hobject name
    exact (congrArg JsObject.shape heq).trans (JsObject.shape_ofMembers fewer)
  cases tree with
  | obj ms =>
      obtain ⟨others, hothers, hms⟩ := Json.spells_obj.mp hspells
      rw [hlook] at hothers
      obtain rfl := (List.map_injective_iff.mpr member_data_injective)
        (Shape.object.inj hothers).2.1
      refine Json.spells_obj.mpr ⟨_, hdeleted, ?_⟩
      refine forall₂_of_mem (forall₂_remove hms name)
        fun m _ n hn hspelled => ⟨hspelled.1, ?_⟩
      have hheld := Values.holds_member hlook (List.mem_of_mem_filter hn)
      refine hspelled.2.frame fun a hleads => Function.update_of_ne ?_ _ _
      rintro rfl
      exact hacyclic n.2 hheld hleads
  | arr items =>
      obtain ⟨entries, hentries, -⟩ := Json.spells_arr.mp hspells
      rw [hlook] at hentries
      cases hentries
  | _ =>
      rw [Json.Spells, hlook] at hspells
      cases hspells

/-- An object of a tree is spelled by an object. -/
theorem exists_object {h : Heap} {ms : List (JsString × Json)}
    {value : JsValue} (hspells : (Json.obj ms).Spells h.values value) :
    ∃ address members, ∃ distinct : (members.map Prod.fst).Nodup,
      value = .ref address ∧ h address = .ofMembers members distinct := by
  obtain ⟨members, hlook, -⟩ := Json.spells_obj.mp hspells
  cases value with
  | ref address =>
      obtain ⟨distinct, hobject⟩ := JsObject.eq_ofMembers hlook
      exact ⟨address, members, distinct, rfl, hobject⟩
  | _ => cases hlook

/-- An omission in the copy is the omission in its tree. -/
theorem Copied.omit (h : Copied m json m' root)
    {change : NormalizationChange JsValue} {copy : Change} {path : FieldPath}
    (hpath : change.path = path ++ [.key name]) (hcopy : copy.path = change.path)
    (hafter : change.after? = none) (hcopyAfter : copy.after? = none)
    {ms : List (JsString × Json)} (hget : json.get? path = some (.obj ms)) :
    ∃ m'', changeCopy root m' change = some m'' ∧
      Copied m (applyChange json copy) m'' root := by
  obtain ⟨held, hat, hspells⟩ := h.spells.at hget
  obtain ⟨address, members, distinct, rfl, hobject⟩ := exists_object hspells
  have hfresh := (h.fresh address (Values.leads_of_at hat)).1
  refine ⟨m'.write address ((m'.heap address).delete (.key name)), ?_, ?_⟩
  · rw [changeCopy, hpath, List.getLast?_concat, List.dropLast_concat,
      follow_of_at hat, hafter]
  have hfewer : ∀ {value held : JsValue} {p : FieldPath},
      (Heap.values (m'.write address ((m'.heap address).delete
        (.key name))).heap).at value p = some held →
      m'.heap.values.at value p = some held :=
    at_of_delete hobject
  constructor
  · intro a ha
    exact (Function.update_of_ne (Nat.lt_of_lt_of_le ha hfresh).ne _ _).trans
      (h.kept a ha)
  · have happly : applyChange json copy = json.update path fun value =>
        value.removeChild (.key name) := by
      simp [applyChange, updateParent, hcopy, hpath, editChild, hcopyAfter]
    rw [happly]
    exact Json.Spells.update (fun tree htree hacyclic =>
      spells_of_delete hobject htree hacyclic) h.spells h.unshared hat
  · exact fun p q a hp hq => h.unshared p q a (hfewer hp) (hfewer hq)
  · intro a hleads
    obtain ⟨p, hp⟩ := hleads.exists_at (Heap.lawful _)
    exact h.fresh a (Values.leads_of_at (hfewer hp))

end Omission

/-! ## All omissions -/

/-- A change that removes a member of an object of the tree. -/
def Removes (json : Json) (change : Change) : Prop :=
  change.after? = none ∧ ∃ path name ms,
    change.path = path ++ [.key name] ∧ json.get? path = some (.obj ms)

/-- A change of a value and the same change of its tree: the values that they
replace or remove are a value and the tree that it spells. -/
inductive SameChange (H : Values JsValue) :
    NormalizationChange JsValue → Change → Prop
  | add (reason : String) (path : FieldPath) (after : Json) (message : String) :
      SameChange H (.add reason path after message)
        (.add reason path after message)
  | replace (reason : String) (path : FieldPath) (before : JsValue)
      (tree after : Json) (message : String) (hspells : tree.Spells H before) :
      SameChange H (.replace reason path before after message)
        (.replace reason path tree after message)
  | remove (reason : String) (path : FieldPath) (before : JsValue)
      (tree : Json) (message : String) (hspells : tree.Spells H before) :
      SameChange H (.remove reason path before message)
        (.remove reason path tree message)

section SameChange

variable {H : Values JsValue} {change : NormalizationChange JsValue}
  {copy : Change}

theorem SameChange.path (h : SameChange H change copy) :
    copy.path = change.path := by
  cases h <;> rfl

theorem SameChange.after? (h : SameChange H change copy) :
    copy.after? = change.after? := by
  cases h <;> rfl

end SameChange

theorem Removes.applyChange {json : Json} {change other : Change}
    (h : Removes json other) (hapart : ¬ change.path <+: other.path) :
    Removes (applyChange json change) other := by
  obtain ⟨hafter, path, name, ms, hpath, hget⟩ := h
  have hclear : ¬ change.path <+: path := fun hprefix =>
    hapart (hpath ▸ hprefix.trans (List.prefix_append _ _))
  have hlabel := applyChange_label hclear json
  rw [hget, Option.map_some] at hlabel
  obtain ⟨value, hvalue, hobj⟩ := Option.map_eq_some_iff.mp hlabel
  obtain ⟨fields, rfl⟩ := Json.label_eq_obj hobj
  exact ⟨hafter, path, name, fields, hpath, hvalue⟩

/-- Omissions at positions that are not below one another, in a copy and in
its tree. -/
theorem Copied.omitAll {m m' : Memory} {json : Json} {root : Address}
    (h : Copied m json m' root) {H : Values JsValue}
    {changes : List (NormalizationChange JsValue)} {copies : List Change}
    (hsame : List.Forall₂ (SameChange H) changes copies)
    (hremoves : ∀ copy ∈ copies, Removes json copy)
    (hapart : copies.Pairwise fun copy other => ¬ copy.path <+: other.path) :
    ∃ m'', changes.foldlM (changeCopy root) m' = some m'' ∧
      Copied m (createPreview json copies) m'' root := by
  induction hsame generalizing m' json with
  | nil => exact ⟨m', rfl, h⟩
  | @cons change copy changes copies hfirst hsame ih =>
      rw [List.pairwise_cons] at hapart
      obtain ⟨hafter, path, name, ms, hpath, hget⟩ :=
        hremoves copy List.mem_cons_self
      obtain ⟨next, hnext, hcopied⟩ := h.omit
        (hfirst.path.symm.trans hpath) hfirst.path
        (hfirst.after?.symm.trans hafter) hafter hget
      obtain ⟨m'', hrest, hall⟩ := ih hcopied
        (fun other hother => (hremoves other
          (List.mem_cons_of_mem _ hother)).applyChange
            (hapart.1 other hother)) hapart.2
      refine ⟨m'', ?_, hall⟩
      rw [List.foldlM_cons, hnext]
      exact hrest

end DrFed.Document
