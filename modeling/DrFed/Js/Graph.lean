import DrFed.Js.Heap

/-!
# Paths into value graphs

The values below a value, each at the path of names and indexes that leads to
it.  Where no container stands at two paths, a change of one object is a change
at one position of the tree that the graph spells.
-/

namespace DrFed

section Values

variable {ι : Type} (H : Values ι)

/-- The value of a data property. -/
def Values.child (value : ι) (segment : Segment) : Option ι :=
  match H.look value, segment with
  | .object _ members _, .key name =>
      match members.lookup name with
      | some (.data child _) => some child
      | _ => none
  | .array entries _ _, .index i =>
      match entries[i]? with
      | some (some (.data child _)) => some child
      | _ => none
  | _, _ => none

/-- The value at a path. -/
def Values.at (value : ι) : FieldPath → Option ι
  | [] => some value
  | segment :: rest =>
      (H.child value segment).bind fun child => Values.at child rest

theorem Values.at_append (value : ι) (path rest : FieldPath) :
    H.at value (path ++ rest) =
      (H.at value path).bind fun child => H.at child rest := by
  induction path generalizing value with
  | nil => rfl
  | cons head path ih =>
      rw [List.cons_append, Values.at, Values.at]
      cases H.child value head with
      | none => rfl
      | some child => exact ih child

theorem Values.at_singleton (value : ι) (segment : Segment) :
    H.at value [segment] = H.child value segment := by
  rw [Values.at]
  cases H.child value segment <;> rfl

theorem Values.at_concat (value : ι) (path : FieldPath) (segment : Segment) :
    H.at value (path ++ [segment]) =
      (H.at value path).bind fun child => H.child child segment := by
  rw [Values.at_append]
  exact Option.bind_congr fun child _ => H.at_singleton child segment

variable {H} {value other : ι}

/-! ## Children -/

theorem Values.child_key {plain : Bool} {members : List (JsString × Slot ι)}
    {symbols : ℕ} (hlook : H.look value = .object plain members symbols)
    (hnodup : (members.map Prod.fst).Nodup) {name : JsString}
    {enumerable : Bool} (hmem : (name, .data other enumerable) ∈ members) :
    H.child value (.key name) = some other := by
  have hlookup := AssocList.lookup_eq_some_of_mem hnodup hmem
  simp only [Values.child, hlook, hlookup]

theorem Values.child_index {entries : List (Option (Slot ι))}
    {named : List (JsString × Slot ι)} {symbols : ℕ}
    (hlook : H.look value = .array entries named symbols) {i : ℕ}
    {enumerable : Bool}
    (hget : entries[i]? = some (some (.data other enumerable))) :
    H.child value (.index i) = some other := by
  simp only [Values.child, hlook, hget]

theorem Values.child_entry {entries : List ι}
    (hlook : H.look value =
      .array (entries.map fun entry => some (.data entry true)) [] 0) {i : ℕ}
    (hlt : i < entries.length) :
    H.child value (.index i) = some entries[i] := by
  have hentry : (entries.map fun entry => some (Slot.data entry true))[i]? =
      some (some (.data entries[i] true)) := by
    rw [List.getElem?_map, List.getElem?_eq_getElem hlt]
    rfl
  exact Values.child_index hlook hentry

theorem Values.child_member (hlawful : H.Lawful) {members : List (JsString × ι)}
    (hlook : H.look value =
      .object true (members.map fun m => (m.1, .data m.2 true)) 0)
    {m : JsString × ι} (hmem : m ∈ members) :
    H.child value (.key m.1) = some m.2 :=
  Values.child_key hlook (hlawful.keys _ _ _ _ hlook)
    (List.mem_map.mpr ⟨m, hmem, rfl⟩)

theorem Values.Holds.exists_child (hlawful : H.Lawful)
    (h : H.Holds value other) :
    ∃ segment, H.child value segment = some other := by
  cases h with
  | item entries named symbols hlook _ enumerable hmem =>
      obtain ⟨i, hget⟩ := List.getElem?_of_mem hmem
      exact ⟨.index i, Values.child_index hlook hget⟩
  | member plain members symbols hlook key _ enumerable hmem =>
      exact ⟨.key key, Values.child_key hlook
        (hlawful.keys _ _ _ _ hlook) hmem⟩

theorem Values.holds_of_child {segment : Segment}
    (h : H.child value segment = some other) : H.Holds value other := by
  unfold Values.child at h
  split at h
  next plain members symbols name hlook =>
    split at h
    next child enumerable hlookup =>
      obtain rfl := Option.some.inj h
      exact .member plain members symbols hlook name _ enumerable
        (AssocList.mem_of_lookup_eq_some hlookup)
    next => cases h
  next entries named symbols i hlook =>
    split at h
    next child enumerable hget =>
      obtain rfl := Option.some.inj h
      exact .item entries named symbols hlook _ enumerable
        (List.mem_of_getElem? hget)
    next => cases h
  next => cases h

/-- What is reachable stands at some path. -/
theorem Values.Leads.exists_at (hlawful : H.Lawful) (h : H.Leads value other) :
    ∃ path, H.at value path = some other := by
  induction h with
  | refl => exact ⟨[], rfl⟩
  | tail _ hheld ih =>
      obtain ⟨path, hpath⟩ := ih
      obtain ⟨segment, hchild⟩ := hheld.exists_child hlawful
      refine ⟨path ++ [segment], ?_⟩
      rw [Values.at_concat, hpath]
      exact hchild

theorem Values.leads_of_at {path : FieldPath}
    (h : H.at value path = some other) : H.Leads value other := by
  induction path generalizing value with
  | nil =>
      obtain rfl := Option.some.inj h
      exact .refl
  | cons segment rest ih =>
      obtain ⟨child, hchild, hrest⟩ := Option.bind_eq_some_iff.mp h
      exact .head (Values.holds_of_child hchild) (ih hrest)

/-! ## Spelled values -/

theorem forall₂_lookup {α β : Type} {R : α → β → Prop}
    {xs : List (JsString × α)} {ys : List (JsString × β)}
    (h : List.Forall₂ (fun x y => x.1 = y.1 ∧ R x.2 y.2) xs ys)
    {key : JsString} {a : α} (ha : xs.lookup key = some a) :
    ∃ b, ys.lookup key = some b ∧ R a b := by
  induction h with
  | nil => cases ha
  | @cons x y xs ys hxy _ ih =>
      rw [AssocList.lookup_cons_eq] at ha ⊢
      rw [← hxy.1]
      split at ha
      next heq =>
        obtain rfl := Option.some.inj ha
        exact ⟨y.2, if_pos heq, hxy.2⟩
      next hne =>
        rw [if_neg hne]
        exact ih ha

theorem forall₂_of_mem {α β : Type} {R S : α → β → Prop} {xs : List α}
    {ys : List β} (h : List.Forall₂ R xs ys)
    (himp : ∀ x ∈ xs, ∀ y ∈ ys, R x y → S x y) : List.Forall₂ S xs ys := by
  induction h with
  | nil => exact .nil
  | @cons x y xs ys hxy _ ih =>
      refine .cons (himp x List.mem_cons_self y List.mem_cons_self hxy) ?_
      exact ih fun a ha b hb =>
        himp a (List.mem_cons_of_mem _ ha) b (List.mem_cons_of_mem _ hb)

theorem Values.holds_entry {entries : List ι}
    (hlook : H.look value =
      .array (entries.map fun entry => some (.data entry true)) [] 0)
    (hmem : other ∈ entries) : H.Holds value other :=
  .item _ _ _ hlook other true (List.mem_map.mpr ⟨other, hmem, rfl⟩)

theorem Values.holds_member {members : List (JsString × ι)}
    (hlook : H.look value =
      .object true (members.map fun m => (m.1, .data m.2 true)) 0)
    {m : JsString × ι} (hmem : m ∈ members) : H.Holds value m.2 :=
  .member _ _ _ hlook m.1 m.2 true (List.mem_map.mpr ⟨m, hmem, rfl⟩)

theorem Json.Spells.child? {json child : Json} (h : json.Spells H value)
    {segment : Segment} (hchild : json.child? segment = some child) :
    ∃ held, H.child value segment = some held ∧ child.Spells H held := by
  cases json with
  | arr items =>
      obtain ⟨entries, hlook, hitems⟩ := Json.spells_arr.mp h
      cases segment with
      | key name => cases hchild
      | index i =>
          obtain ⟨hlt, heq⟩ := List.getElem?_eq_some_iff.mp hchild
          obtain ⟨hlength, hget⟩ := List.forall₂_iff_get.mp hitems
          refine ⟨entries[i], Values.child_entry hlook (hlength ▸ hlt), ?_⟩
          have hspells := hget i hlt (hlength ▸ hlt)
          rw [List.get_eq_getElem, List.get_eq_getElem, heq] at hspells
          exact hspells
  | obj ms =>
      obtain ⟨members, hlook, hms⟩ := Json.spells_obj.mp h
      cases segment with
      | index i => cases hchild
      | key name =>
          obtain ⟨held, hlookup, hspells⟩ := forall₂_lookup hms hchild
          have hslot := AssocList.lookup_map (fun held => Slot.data held true)
            members name
          rw [hlookup, Option.map_some] at hslot
          refine ⟨held, ?_, hspells⟩
          simp only [Values.child, hlook, hslot]
  | _ => cases segment <;> cases hchild

theorem Json.Spells.at {json child : Json} (h : json.Spells H value)
    {path : FieldPath} (hget : json.get? path = some child) :
    ∃ held, H.at value path = some held ∧ child.Spells H held := by
  induction path generalizing json value with
  | nil =>
      rw [Json.get?_nil] at hget
      obtain rfl := Option.some.inj hget
      exact ⟨value, rfl, h⟩
  | cons segment rest ih =>
      rw [Json.get?_cons] at hget
      obtain ⟨middle, hmiddle, hrest⟩ := Option.bind_eq_some_iff.mp hget
      obtain ⟨held, hheld, hspells⟩ := h.child? hmiddle
      obtain ⟨last, hlast, hlastSpells⟩ := ih hspells hrest
      refine ⟨last, ?_, hlastSpells⟩
      rw [Values.at, hheld]
      exact hlast

end Values

/-! ## Changes of one object -/

section Heaps

variable {h : Heap} {value other : JsValue} {address : Address}
  {json : Json}

/-- No container below a value stands at two paths. -/
def Heap.Unshared (h : Heap) (value : JsValue) : Prop :=
  ∀ p q address, h.values.at value p = some (.ref address) →
    h.values.at value q = some (.ref address) → p = q

theorem Heap.Unshared.child (hunshared : h.Unshared value) {segment : Segment}
    (hchild : h.values.child value segment = some other) :
    h.Unshared other := by
  intro p q address hp hq
  have hbelow : ∀ path, h.values.at value (segment :: path) =
      h.values.at other path := by
    intro path
    rw [Values.at, hchild]
    rfl
  rw [← hbelow] at hp hq
  exact (List.cons.inj (hunshared _ _ _ hp hq)).2

/-- A tree is spelled by every heap that has the same objects below the
value. -/
theorem Json.Spells.frame {h' : Heap} (hspells : json.Spells h.values value)
    (hsame : ∀ address, h.values.Leads value (.ref address) →
      h' address = h address) : json.Spells h'.values value := by
  induction hsize : sizeOf json using Nat.strong_induction_on
    generalizing json value with
  | _ n ih =>
    subst hsize
    have hlook : h'.values.look value = h.values.look value := by
      cases value with
      | ref address =>
          have hobject := hsame address .refl
          exact congrArg JsObject.shape hobject
      | _ => rfl
    have hheld : ∀ {child : Json} {held : JsValue},
        sizeOf child < sizeOf json → h.values.Holds value held →
        child.Spells h.values held → child.Spells h'.values held := by
      intro child held hlt hholds hchild
      exact ih _ hlt hchild (fun address hleads =>
        hsame address (.head hholds hleads)) rfl
    cases json with
    | arr items =>
        obtain ⟨entries, hentries, hitems⟩ := Json.spells_arr.mp hspells
        refine Json.spells_arr.mpr ⟨entries, hlook.trans hentries, ?_⟩
        exact forall₂_of_mem hitems fun item hitem entry hentry =>
          hheld (Json.sizeOf_item hitem) (Values.holds_entry hentries hentry)
    | obj ms =>
        obtain ⟨members, hmembers, hms⟩ := Json.spells_obj.mp hspells
        refine Json.spells_obj.mpr ⟨members, hlook.trans hmembers, ?_⟩
        exact forall₂_of_mem hms fun m hm member hmember hspelled =>
          ⟨hspelled.1, hheld (Json.sizeOf_member hm)
            (Values.holds_member hmembers hmember) hspelled.2⟩
    | _ =>
        rw [Json.Spells] at hspells ⊢
        rw [hlook]
        exact hspells

theorem JsValue.not_holds (hvalue : ∀ address, value ≠ .ref address)
    (other : JsValue) : ¬ h.values.Holds value other := by
  intro hholds
  cases hholds with
  | item entries named symbols hlook =>
      cases value with
      | ref address => exact hvalue address rfl
      | _ => cases hlook
  | member plain members symbols hlook =>
      cases value with
      | ref address => exact hvalue address rfl
      | _ => cases hlook

/-- A scalar spells the same on every heap. -/
theorem Json.Spells.scalar {h' : Heap} (hspells : json.Spells h.values value)
    (hvalue : ∀ address, value ≠ .ref address) :
    json.Spells h'.values value := by
  refine hspells.frame fun address hleads => ?_
  rcases hleads.cases_head with heq | ⟨other, hholds, -⟩
  · exact absurd heq (hvalue address)
  · exact absurd hholds (JsValue.not_holds hvalue other)

/-- A change of an unshared object is a change of the tree at its path. -/
theorem Json.Spells.update {object : JsObject} {f : Json → Json}
    (hobject : ∀ tree : Json, tree.Spells h.values (.ref address) →
      (∀ held, h.values.Holds (.ref address) held →
        ¬ h.values.Leads held (.ref address)) →
      (f tree).Spells (Heap.values (Function.update h address object))
        (.ref address))
    (hspells : json.Spells h.values value) (hunshared : h.Unshared value)
    {path : FieldPath} (hat : h.values.at value path = some (.ref address)) :
    (json.update path f).Spells
      (Heap.values (Function.update h address object)) value := by
  induction path generalizing json value with
  | nil =>
      obtain rfl := Option.some.inj hat
      rw [Json.update]
      exact hobject json hspells fun held hheld =>
        hspells.acyclic .refl hheld
  | cons segment rest ih =>
      obtain ⟨target, htarget, hrest⟩ := Option.bind_eq_some_iff.mp hat
      have hlook : (Heap.values (Function.update h address object)).look value =
          h.values.look value := by
        cases value with
        | ref a =>
            have hne : a ≠ address := by
              rintro rfl
              cases hunshared [] _ a rfl hat
            exact congrArg JsObject.shape (Function.update_of_ne hne _ _)
        | _ => rfl
      -- Only the child on the path leads to the object.
      have hother : ∀ {other : Segment} {child : Json} {held : JsValue},
          other ≠ segment → h.values.child value other = some held →
          child.Spells h.values held →
          child.Spells (Heap.values (Function.update h address object))
            held := by
        intro other child held hne hchild hspelled
        refine hspelled.frame fun a hleads => Function.update_of_ne ?_ _ _
        rintro rfl
        obtain ⟨p, hp⟩ := hleads.exists_at h.lawful
        refine hne (List.cons.inj (hunshared (other :: p) _ a ?_ hat)).1
        rw [Values.at, hchild]
        exact hp
      have hself : ∀ {child : Json}, child.Spells h.values target →
          (child.update rest f).Spells
            (Heap.values (Function.update h address object)) target :=
        fun hspelled => ih hspelled (hunshared.child htarget) hrest
      rw [Json.update]
      cases json with
      | arr items =>
          obtain ⟨entries, hentries, hitems⟩ := Json.spells_arr.mp hspells
          cases segment with
          | key name =>
              simp [Values.child, hentries] at htarget
          | index i =>
              obtain ⟨hlength, hget⟩ := List.forall₂_iff_get.mp hitems
              refine Json.spells_arr.mpr ⟨entries, hlook.trans hentries, ?_⟩
              refine List.forall₂_iff_get.mpr
                ⟨by rw [List.length_modify, hlength], fun j hj hj' => ?_⟩
              have hspelled := hget j (hlength ▸ hj') hj'
              rw [List.get_eq_getElem, List.get_eq_getElem] at hspelled ⊢
              rw [List.getElem_modify]
              by_cases hij : i = j
              · subst hij
                rw [if_pos rfl]
                rw [Values.child_entry hentries hj'] at htarget
                obtain rfl := Option.some.inj htarget
                exact hself hspelled
              · rw [if_neg hij]
                refine hother (fun heq => hij ?_)
                  (Values.child_entry hentries hj') hspelled
                exact (Segment.index.inj heq).symm
      | obj ms =>
          obtain ⟨members, hmembers, hms⟩ := Json.spells_obj.mp hspells
          cases segment with
          | index i =>
              simp [Values.child, hmembers] at htarget
          | key name =>
              refine Json.spells_obj.mpr
                ⟨members, hlook.trans hmembers, ?_⟩
              rw [List.forall₂_map_left_iff]
              refine forall₂_of_mem hms fun m _ member hmember hspelled => ?_
              by_cases hname : m.1 = name
              · rw [if_pos hname]
                have hheld := Values.child_member h.lawful hmembers hmember
                rw [← hspelled.1, hname, htarget] at hheld
                obtain rfl := Option.some.inj hheld
                exact ⟨hspelled.1, hself hspelled.2⟩
              · rw [if_neg hname]
                refine ⟨hspelled.1, hother (fun heq => hname ?_)
                  (Values.child_member h.lawful hmembers hmember) hspelled.2⟩
                exact hspelled.1.trans (Segment.key.inj heq)
      | _ =>
          rw [Json.Spells] at hspells
          simp [Values.child, hspells] at htarget

end Heaps

end DrFed
