import Mathlib.Logic.Relation
import DrFed.Js.Path

/-!
# Value graphs

A heap of objects and arrays, whose values refer to one another by address.
The validator looks at a heap through property descriptors only; a JSON tree
spells a value when unfolding the value gives that tree.
-/

namespace DrFed

abbrev Address := ℕ

/-- A value of the language.  Undefined, symbols, bigints, functions and
non-finite numbers are all `foreign`. -/
inductive JsValue where
  | foreign (tag : ℕ)
  | null
  | bool (value : Bool)
  | number (value : JsNumber)
  | string (value : JsString)
  | ref (address : Address)
  deriving DecidableEq

/-- An own property.  An accessor comes with what its getter would return. -/
inductive JsProperty where
  | data (value : JsValue) (enumerable : Bool)
  | accessor (result : JsValue) (enumerable : Bool)
  deriving DecidableEq

/-- An object or an ordinary array.  The array lists its index properties,
with `none` for a hole, apart from its other ones. -/
inductive JsObject where
  | record (plain : Bool) (members : List (JsString × JsProperty))
      (symbols : List JsProperty) (distinct : (members.map Prod.fst).Nodup)
  | array (entries : List (Option JsProperty))
      (named : List (JsString × JsProperty)) (symbols : List JsProperty)

abbrev Heap := Address → JsObject

/-- `Object.getOwnPropertyDescriptor`, which does not run a getter. -/
def JsProperty.descriptor : JsProperty → Slot JsValue
  | .data value enumerable => .data value enumerable
  | .accessor _ _ => .accessor

def JsObject.shape : JsObject → Shape JsValue
  | .record plain members symbols _ =>
      .object plain (members.map fun m => (m.1, m.2.descriptor)) symbols.length
  | .array entries named symbols =>
      .array (entries.map (Option.map JsProperty.descriptor))
        (named.map fun m => (m.1, m.2.descriptor)) symbols.length

def JsValue.shape (h : Heap) : JsValue → Shape JsValue
  | .foreign _ => .foreign
  | .null => .null
  | .bool value => .bool value
  | .number value => .number value
  | .string value => .string value
  | .ref address => (h address).shape

/-- Only references can be the same object. -/
def JsValue.sameObject : JsValue → JsValue → Bool
  | .ref address, .ref other => address == other
  | _, _ => false

/-- What the validator can observe of a heap. -/
def Heap.values (h : Heap) : Values JsValue where
  look := JsValue.shape h
  same := JsValue.sameObject

/-! ## Getters -/

def JsProperty.withoutGetter : JsProperty → JsProperty
  | .data value enumerable => .data value enumerable
  | .accessor _ enumerable => .accessor .null enumerable

def JsObject.withoutGetters : JsObject → JsObject
  | .record plain members symbols distinct =>
      .record plain (members.map fun m => (m.1, m.2.withoutGetter))
        (symbols.map JsProperty.withoutGetter)
        (by simpa [Function.comp_def] using distinct)
  | .array entries named symbols =>
      .array (entries.map (Option.map JsProperty.withoutGetter))
        (named.map fun m => (m.1, m.2.withoutGetter))
        (symbols.map JsProperty.withoutGetter)

/-- The heap with every getter replaced by one that returns null. -/
def Heap.withoutGetters (h : Heap) : Heap := fun address =>
  (h address).withoutGetters

@[simp] theorem descriptor_withoutGetter (property : JsProperty) :
    property.withoutGetter.descriptor = property.descriptor := by
  cases property <;> rfl

@[simp] theorem shape_withoutGetters (object : JsObject) :
    object.withoutGetters.shape = object.shape := by
  cases object with
  | record plain members symbols distinct =>
      simp [JsObject.withoutGetters, JsObject.shape]
  | array entries named symbols =>
      simp [JsObject.withoutGetters, JsObject.shape, Function.comp_def]

/-- What a getter would return cannot be observed. -/
@[simp] theorem values_withoutGetters (h : Heap) :
    h.withoutGetters.values = h.values := by
  have hshape : JsValue.shape h.withoutGetters = JsValue.shape h := by
    funext value
    cases value with
    | ref address => exact shape_withoutGetters (h address)
    | _ => rfl
  simp [Heap.values, hshape]

theorem values_of_withoutGetters {h other : Heap}
    (hsame : other.withoutGetters = h.withoutGetters) :
    other.values = h.values := by
  rw [← values_withoutGetters other, hsame, values_withoutGetters]

/-! ## Worlds of values -/

section Values

variable {ι : Type} (H : Values ι)

/-- Identity is identity of containers, and the keys of an object are
distinct. -/
structure Values.Lawful : Prop where
  array : ∀ value entries named symbols,
    H.look value = .array entries named symbols → H.same value value = true
  object : ∀ value plain members symbols,
    H.look value = .object plain members symbols → H.same value value = true
  eq : ∀ value other, H.same value other = true → value = other
  keys : ∀ value plain members symbols,
    H.look value = .object plain members symbols →
    (members.map Prod.fst).Nodup

theorem Heap.lawful (h : Heap) : h.values.Lawful where
  array value entries named symbols hlook := by
    cases value with
    | ref address => simp [Heap.values, JsValue.sameObject]
    | _ => cases hlook
  object value plain members symbols hlook := by
    cases value with
    | ref address => simp [Heap.values, JsValue.sameObject]
    | _ => cases hlook
  eq value other hsame := by
    cases value <;> cases other <;>
      simp_all [Heap.values, JsValue.sameObject]
  keys value plain members symbols hlook := by
    cases value with
    | ref address =>
        have hshape : (h address).shape = .object plain members symbols := hlook
        cases hobject : h address with
        | record plain others symbols distinct =>
            rw [hobject] at hshape
            obtain ⟨-, rfl, -⟩ := Shape.object.inj hshape
            simpa [Function.comp_def] using distinct
        | array entries named symbols =>
            rw [hobject] at hshape
            cases hshape
    | _ => cases hlook

/-- One value is held in a data property of another. -/
inductive Values.Holds (value : ι) : ι → Prop
  | item (entries : List (Option (Slot ι))) (named : List (JsString × Slot ι))
      (symbols : ℕ) (h : H.look value = .array entries named symbols)
      (other : ι) (enumerable : Bool)
      (hmem : some (.data other enumerable) ∈ entries) : Holds value other
  | member (plain : Bool) (members : List (JsString × Slot ι)) (symbols : ℕ)
      (h : H.look value = .object plain members symbols)
      (key : JsString) (other : ι) (enumerable : Bool)
      (hmem : (key, .data other enumerable) ∈ members) : Holds value other

mutual

/-- Unfolding a value gives a tree of plain data. -/
def Json.Spells : Json → ι → Prop
  | .null, value => H.look value = .null
  | .bool b, value => H.look value = .bool b
  | .num n, value => H.look value = .number n
  | .str text, value => H.look value = .string text
  | .arr items, value => ∃ entries : List ι,
      H.look value =
        .array (entries.map fun entry => some (.data entry true)) [] 0 ∧
      Json.SpellsItems items entries
  | .obj ms, value => ∃ members : List (JsString × ι),
      H.look value =
        .object true (members.map fun m => (m.1, .data m.2 true)) 0 ∧
      Json.SpellsMembers ms members

def Json.SpellsItems : List Json → List ι → Prop
  | [], [] => True
  | item :: rest, entry :: entries =>
      item.Spells entry ∧ Json.SpellsItems rest entries
  | _, _ => False

def Json.SpellsMembers : List (JsString × Json) → List (JsString × ι) → Prop
  | [], [] => True
  | m :: rest, member :: members =>
      (m.1 = member.1 ∧ m.2.Spells member.2) ∧
        Json.SpellsMembers rest members
  | _, _ => False

end

section Spells

variable {H}

theorem Json.spellsItems_iff {items : List Json} {entries : List ι} :
    Json.SpellsItems H items entries ↔
      List.Forall₂ (fun item entry => Json.Spells H item entry) items
        entries := by
  induction items generalizing entries with
  | nil => cases entries <;> simp [Json.SpellsItems]
  | cons item rest ih => cases entries <;> simp [Json.SpellsItems, ih]

theorem Json.spellsMembers_iff {ms : List (JsString × Json)}
    {members : List (JsString × ι)} :
    Json.SpellsMembers H ms members ↔
      List.Forall₂ (fun m member => m.1 = member.1 ∧
        Json.Spells H m.2 member.2) ms members := by
  induction ms generalizing members with
  | nil => cases members <;> simp [Json.SpellsMembers]
  | cons m rest ih => cases members <;> simp [Json.SpellsMembers, ih]

theorem Json.spells_arr {items : List Json} {value : ι} :
    Json.Spells H (.arr items) value ↔ ∃ entries : List ι,
      H.look value =
        .array (entries.map fun entry => some (.data entry true)) [] 0 ∧
      List.Forall₂ (fun item entry => Json.Spells H item entry) items
        entries := by
  simp only [Json.Spells, Json.spellsItems_iff]

theorem Json.spells_obj {ms : List (JsString × Json)} {value : ι} :
    Json.Spells H (.obj ms) value ↔ ∃ members : List (JsString × ι),
      H.look value =
        .object true (members.map fun m => (m.1, .data m.2 true)) 0 ∧
      List.Forall₂ (fun m member => m.1 = member.1 ∧
        Json.Spells H m.2 member.2) ms members := by
  simp only [Json.Spells, Json.spellsMembers_iff]

theorem data_injective : Function.Injective
    fun entry : ι => some (Slot.data entry true) := by
  intro entry other heq
  simpa using heq

theorem member_data_injective : Function.Injective
    fun m : JsString × ι => (m.1, Slot.data m.2 true) := by
  rintro ⟨key, value⟩ ⟨other, entry⟩ heq
  simpa using heq

theorem forall₂_unique {α β : Type} {R S : α → β → Prop} {xs ys : List α}
    {zs : List β} (h : List.Forall₂ R xs zs) (h' : List.Forall₂ S ys zs)
    (hsame : ∀ x ∈ xs, ∀ y z, R x z → S y z → x = y) : xs = ys := by
  induction h generalizing ys with
  | nil => cases h'; rfl
  | @cons x z xs zs hx hrest ih =>
      obtain _ | @⟨y, _, ys, _, hy, hys⟩ := h'
      rw [hsame x List.mem_cons_self y z hx hy,
        ih hys fun a ha => hsame a (List.mem_cons_of_mem _ ha)]

theorem Json.sizeOf_item {items : List Json} {item : Json}
    (h : item ∈ items) : sizeOf item < sizeOf (Json.arr items) := by
  have hlt := List.sizeOf_lt_of_mem h
  simp only [Json.arr.sizeOf_spec]
  omega

theorem Json.sizeOf_member {ms : List (JsString × Json)}
    {m : JsString × Json} (h : m ∈ ms) :
    sizeOf m.2 < sizeOf (Json.obj ms) := by
  have hlt := List.sizeOf_lt_of_mem h
  obtain ⟨key, value⟩ := m
  simp only [Json.obj.sizeOf_spec, Prod.mk.sizeOf_spec] at hlt ⊢
  omega

/-- A value has at most one spelling. -/
theorem Json.Spells.unique {json other : Json} {value : ι}
    (h : json.Spells H value) (hother : other.Spells H value) :
    json = other := by
  induction hsize : sizeOf json using Nat.strong_induction_on
    generalizing json other value with
  | _ n ih =>
    subst hsize
    cases json with
    | arr items =>
        obtain ⟨entries, hlook, hitems⟩ := Json.spells_arr.mp h
        cases other with
        | arr others =>
            obtain ⟨entries', hlook', hothers⟩ := Json.spells_arr.mp hother
            rw [hlook] at hlook'
            have hentries := (List.map_injective_iff.mpr data_injective)
              (Shape.array.inj hlook').1
            subst hentries
            rw [forall₂_unique hitems hothers fun item hitem y z hx hy =>
              ih (sizeOf item) (Json.sizeOf_item hitem) hx hy rfl]
        | obj ms =>
            obtain ⟨members, hlook', -⟩ := Json.spells_obj.mp hother
            rw [hlook] at hlook'
            cases hlook'
        | _ => rw [Json.Spells, hlook] at hother; cases hother
    | obj ms =>
        obtain ⟨members, hlook, hms⟩ := Json.spells_obj.mp h
        cases other with
        | obj others =>
            obtain ⟨members', hlook', hothers⟩ := Json.spells_obj.mp hother
            rw [hlook] at hlook'
            have hmembers := (List.map_injective_iff.mpr member_data_injective)
              (Shape.object.inj hlook').2.1
            subst hmembers
            rw [forall₂_unique hms hothers fun m hm y z hx hy =>
              Prod.ext (hx.1.trans hy.1.symm)
                (ih (sizeOf m.2) (Json.sizeOf_member hm) hx.2 hy.2 rfl)]
        | arr items =>
            obtain ⟨entries, hlook', -⟩ := Json.spells_arr.mp hother
            rw [hlook] at hlook'
            cases hlook'
        | _ => rw [Json.Spells, hlook] at hother; cases hother
    | _ =>
        rw [Json.Spells] at h
        cases other with
        | arr items =>
            obtain ⟨entries, hlook', -⟩ := Json.spells_arr.mp hother
            rw [h] at hlook'
            cases hlook'
        | obj ms =>
            obtain ⟨members, hlook', -⟩ := Json.spells_obj.mp hother
            rw [h] at hlook'
            cases hlook'
        | _ => simp_all [Json.Spells]

theorem exists_of_forall₂ {α β : Type} {R : α → β → Prop} {xs : List α}
    {ys : List β} (h : List.Forall₂ R xs ys) {y : β} (hy : y ∈ ys) :
    ∃ x ∈ xs, R x y := by
  induction h with
  | nil => cases hy
  | @cons x z xs ys hx hrest ih =>
      rcases List.mem_cons.mp hy with rfl | hy
      · exact ⟨x, List.mem_cons_self, hx⟩
      · obtain ⟨other, hmem, hother⟩ := ih hy
        exact ⟨other, List.mem_cons_of_mem _ hmem, hother⟩

/-- A spelled array holds its items, an object its members. -/
theorem Json.Spells.holds {json : Json} {value held : ι}
    (h : json.Spells H value) (hheld : H.Holds value held) :
    ∃ child : Json, child.Spells H held ∧ sizeOf child < sizeOf json := by
  cases json with
  | arr items =>
      obtain ⟨entries, hlook, hitems⟩ := Json.spells_arr.mp h
      cases hheld with
      | item others named symbols hlook' _ enumerable hmem =>
          rw [hlook] at hlook'
          rw [← (Shape.array.inj hlook').1, List.mem_map] at hmem
          obtain ⟨entry, hentry, heq⟩ := hmem
          obtain ⟨rfl, -⟩ := Slot.data.inj (Option.some.inj heq)
          obtain ⟨item, hitem, hspells⟩ := exists_of_forall₂ hitems hentry
          exact ⟨item, hspells, Json.sizeOf_item hitem⟩
      | member plain members symbols hlook' key _ enumerable hmem =>
          rw [hlook] at hlook'
          cases hlook'
  | obj ms =>
      obtain ⟨members, hlook, hms⟩ := Json.spells_obj.mp h
      cases hheld with
      | item others named symbols hlook' _ enumerable hmem =>
          rw [hlook] at hlook'
          cases hlook'
      | member plain others symbols hlook' key _ enumerable hmem =>
          rw [hlook] at hlook'
          rw [← (Shape.object.inj hlook').2.1, List.mem_map] at hmem
          obtain ⟨⟨name, entry⟩, hentry, heq⟩ := hmem
          obtain ⟨-, hslot⟩ := Prod.mk.inj heq
          obtain ⟨rfl, -⟩ := Slot.data.inj hslot
          obtain ⟨m, hm, -, hspells⟩ := exists_of_forall₂ hms hentry
          exact ⟨m.2, hspells, Json.sizeOf_member hm⟩
  | _ =>
      rw [Json.Spells] at h
      cases hheld with
      | item others named symbols hlook' _ enumerable hmem =>
          rw [h] at hlook'
          cases hlook'
      | member plain members symbols hlook' key _ enumerable hmem =>
          rw [h] at hlook'
          cases hlook'

variable (H) in
/-- What can be reached from a value through data properties. -/
abbrev Values.Leads : ι → ι → Prop := Relation.ReflTransGen H.Holds

/-- Everything reachable from a spelled value is spelled. -/
theorem Json.Spells.leads {json : Json} {value other : ι}
    (h : json.Spells H value) (hleads : H.Leads value other) :
    ∃ child : Json, child.Spells H other ∧ sizeOf child ≤ sizeOf json := by
  induction hleads with
  | refl => exact ⟨json, h, le_refl _⟩
  | tail _ hheld ih =>
      obtain ⟨middle, hmiddle, hle⟩ := ih
      obtain ⟨child, hchild, hlt⟩ := hmiddle.holds hheld
      exact ⟨child, hchild, by omega⟩

/-- Nothing reachable from a spelled value contains itself. -/
theorem Json.Spells.acyclic {json : Json} {value other held : ι}
    (h : json.Spells H value) (hleads : H.Leads value other)
    (hheld : H.Holds other held) : ¬ H.Leads held other := by
  intro hback
  obtain ⟨outer, houter, -⟩ := h.leads hleads
  obtain ⟨inner, hinner, hlt⟩ := houter.holds hheld
  obtain ⟨again, hagain, hle⟩ := hinner.leads hback
  rw [hagain.unique houter] at hle
  omega

end Spells

end Values

end DrFed
