import Mathlib.Logic.Function.Basic
import DrFed.Js.Graph

/-!
# Memory

A heap with addresses to build objects at, and the operations on properties
that copy a value: listing the entries of an object, defining them one by one
on an empty object of its kind, and deleting a property.
-/

namespace DrFed

/-- The name of a property; the one at an index of an array is named by the
index. -/
def Segment.name : Segment → JsString
  | .key name => name
  | .index i => natText i

/-- The index of an array that a property name stands for. -/
def Segment.position? : Segment → Option ℕ
  | .key name => arrayIndex? name
  | .index i => some i

/-- What reading a property gives. -/
def JsProperty.read : JsProperty → JsValue
  | .data value _ => value
  | .accessor result _ => result

def JsProperty.enumerable : JsProperty → Bool
  | .data _ enumerable => enumerable
  | .accessor _ enumerable => enumerable

namespace JsObject

/-- `Object.entries`: the names and values of the enumerable properties, the
indexes of an array first. -/
def entries : JsObject → List (Segment × JsValue)
  | .record _ members _ _ =>
      (members.filter fun m => m.2.enumerable).map fun m =>
        (.key m.1, m.2.read)
  | .array entries named _ =>
      (entries.zipIdx.filterMap fun entry =>
        (entry.1.filter JsProperty.enumerable).map fun property =>
          (.index entry.2, property.read)) ++
      (named.filter fun m => m.2.enumerable).map fun m => (.key m.1, m.2.read)

/-- An empty object, and an empty array for an array. -/
def emptyLike : JsObject → JsObject
  | .record .. => .record true [] [] List.nodup_nil
  | .array .. => .array [] [] []

/-- Define an enumerable data property.  A new one is the last of an object;
an array grows to hold an index. -/
def define (object : JsObject) (segment : Segment) (value : JsValue) :
    JsObject :=
  match object with
  | .record plain members symbols distinct =>
      .record plain
        (AssocList.put segment.name (.data value true) members) symbols
        (AssocList.nodup_put distinct)
  | .array entries named symbols =>
      match segment.position? with
      | some i =>
          .array ((entries ++
            List.replicate (i + 1 - entries.length) none).set i
              (some (.data value true))) named symbols
      | none =>
          .array entries
            (AssocList.put segment.name (.data value true) named) symbols

/-- Delete a property; an array keeps its length. -/
def delete (object : JsObject) (segment : Segment) : JsObject :=
  match object with
  | .record plain members symbols distinct =>
      .record plain (AssocList.remove segment.name members) symbols
        (distinct.sublist (List.filter_sublist.map Prod.fst))
  | .array entries named symbols =>
      match segment.position? with
      | some i => .array (entries.set i none) named symbols
      | none => .array entries (AssocList.remove segment.name named) symbols

/-- Read an own property. -/
def read? (object : JsObject) (segment : Segment) : Option JsValue :=
  match object with
  | .record _ members _ _ =>
      (members.lookup segment.name).map JsProperty.read
  | .array entries named _ =>
      match segment.position? with
      | some i => (entries[i]?.bind id).map JsProperty.read
      | none => (named.lookup segment.name).map JsProperty.read

/-- A plain object with the given members. -/
def ofMembers (members : List (JsString × JsValue))
    (distinct : (members.map Prod.fst).Nodup) : JsObject :=
  .record true (members.map fun m => (m.1, .data m.2 true)) []
    (by simpa [Function.comp_def] using distinct)

/-- An array with the given items. -/
def ofItems (items : List JsValue) : JsObject :=
  .array (items.map fun item => some (.data item true)) [] []

end JsObject

/-- The address of an object. -/
def JsValue.address? : JsValue → Option Address
  | .ref address => some address
  | _ => none

/-- A heap with the first address that is not in use. -/
structure Memory where
  heap : Heap
  next : Address

/-- Put a new object at the next address. -/
def Memory.allocate (m : Memory) (object : JsObject) : Memory where
  heap := Function.update m.heap m.next object
  next := m.next + 1

/-- Replace the object at an address. -/
def Memory.write (m : Memory) (address : Address) (object : JsObject) :
    Memory :=
  { m with heap := Function.update m.heap address object }

namespace JsObject

variable {object : JsObject} {members : List (JsString × JsValue)}
  {items : List JsValue}

/-! ## Plain objects and arrays -/

theorem shape_ofMembers (distinct : (members.map Prod.fst).Nodup) :
    (ofMembers members distinct).shape =
      .object true (members.map fun m => (m.1, .data m.2 true)) 0 := by
  simp [ofMembers, shape, JsProperty.descriptor, Function.comp_def]

theorem shape_ofItems :
    (ofItems items).shape =
      .array (items.map fun item => some (.data item true)) [] 0 := by
  simp [ofItems, shape, JsProperty.descriptor, Function.comp_def]

theorem descriptor_eq_data {property : JsProperty} {value : JsValue}
    {enumerable : Bool} (h : property.descriptor = .data value enumerable) :
    property = .data value enumerable := by
  cases property with
  | data => simpa [JsProperty.descriptor] using h
  | accessor => cases h

theorem eq_map_of_map_eq {α β γ : Type} {f : α → γ} {g : β → γ} {k : β → α}
    (hk : ∀ x y, f x = g y → x = k y) {xs : List α} {ys : List β}
    (h : xs.map f = ys.map g) : xs = ys.map k := by
  induction xs generalizing ys with
  | nil =>
      obtain rfl := List.map_eq_nil_iff.mp h.symm
      rfl
  | cons x xs ih =>
      cases ys with
      | nil => cases h
      | cons y ys =>
          obtain ⟨hhead, htail⟩ := List.cons.inj h
          rw [List.map_cons, hk x y hhead, ih htail]

theorem eq_ofMembers
    (h : object.shape =
      .object true (members.map fun m => (m.1, .data m.2 true)) 0) :
    ∃ distinct, object = ofMembers members distinct := by
  cases object with
  | array => cases h
  | record plain others symbols distinct =>
      obtain ⟨rfl, hmembers, hsymbols⟩ := Shape.object.inj h
      obtain rfl := List.length_eq_zero_iff.mp hsymbols
      obtain rfl : others = members.map fun m => (m.1, .data m.2 true) :=
        eq_map_of_map_eq (fun x y hxy => Prod.ext (Prod.mk.inj hxy).1
          (descriptor_eq_data (Prod.mk.inj hxy).2)) hmembers
      exact ⟨by simpa [Function.comp_def] using distinct, rfl⟩

theorem eq_ofItems
    (h : object.shape =
      .array (items.map fun item => some (.data item true)) [] 0) :
    object = ofItems items := by
  cases object with
  | record => cases h
  | array entries named symbols =>
      obtain ⟨hentries, hnamed, hsymbols⟩ := Shape.array.inj h
      obtain rfl := List.length_eq_zero_iff.mp hsymbols
      obtain rfl := List.map_eq_nil_iff.mp hnamed
      obtain rfl : entries = items.map fun item => some (.data item true) := by
        refine eq_map_of_map_eq (fun x y hxy => ?_) hentries
        obtain ⟨property, rfl, hproperty⟩ := Option.map_eq_some_iff.mp hxy
        rw [descriptor_eq_data hproperty]
      rfl

@[simp] theorem entries_ofMembers (distinct : (members.map Prod.fst).Nodup) :
    (ofMembers members distinct).entries =
      members.map fun m => (.key m.1, m.2) := by
  simp [ofMembers, entries, List.filter_map, Function.comp_def,
    JsProperty.enumerable, JsProperty.read]

@[simp] theorem entries_ofItems :
    (ofItems items).entries =
      items.zipIdx.map fun entry => (.index entry.2, entry.1) := by
  simp [ofItems, entries, List.zipIdx_map, List.filterMap_map,
    JsProperty.enumerable, JsProperty.read, Option.filter]

@[simp] theorem emptyLike_ofMembers
    (distinct : (members.map Prod.fst).Nodup) :
    (ofMembers members distinct).emptyLike = ofMembers [] List.nodup_nil := rfl

@[simp] theorem emptyLike_ofItems : (ofItems items).emptyLike = ofItems [] :=
  rfl

theorem define_ofMembers {name : JsString} {value : JsValue}
    (distinct : ((members ++ [(name, value)]).map Prod.fst).Nodup)
    (before : (members.map Prod.fst).Nodup) :
    (ofMembers members before).define (.key name) value =
      ofMembers (members ++ [(name, value)]) distinct := by
  have hnew : name ∉ (members.map fun m =>
      (m.1, JsProperty.data m.2 true)).map Prod.fst := by
    rw [List.map_append, List.map_singleton] at distinct
    have hnot : name ∉ members.map Prod.fst := fun hmem =>
      (List.nodup_append.mp distinct).2.2 name hmem name
        (List.mem_singleton_self name) rfl
    simpa [Function.comp_def] using hnot
  simp only [ofMembers, define, Segment.name, AssocList.put_of_notMem hnew,
    List.map_append, List.map_singleton]

theorem define_ofItems {value : JsValue} :
    (ofItems items).define (.index items.length) value =
      ofItems (items ++ [value]) := by
  simp [ofItems, define, Segment.position?]

theorem delete_ofMembers {name : JsString}
    (distinct : (members.map Prod.fst).Nodup) :
    (ofMembers members distinct).delete (.key name) =
      ofMembers (AssocList.remove name members)
        (distinct.sublist (List.filter_sublist.map Prod.fst)) := by
  simp only [ofMembers, delete, Segment.name, AssocList.remove,
    List.filter_map, Function.comp_def]
  rfl

/-! ## Reading -/

theorem read?_of_child {h : Heap} {address : Address} {segment : Segment}
    {value : JsValue}
    (hchild : h.values.child (.ref address) segment = some value) :
    (h address).read? segment = some value := by
  have hlook : h.values.look (.ref address) = (h address).shape := rfl
  unfold Values.child at hchild
  rw [hlook] at hchild
  cases hobject : h address with
  | record plain members symbols distinct =>
      rw [hobject] at hchild
      cases segment with
      | index i => cases hchild
      | key name =>
          simp only [shape] at hchild
          rw [AssocList.lookup_map] at hchild
          cases hlookup : members.lookup name with
          | none => simp [hlookup] at hchild
          | some property =>
              cases property with
              | accessor => simp [hlookup, JsProperty.descriptor] at hchild
              | data held enumerable =>
                  simp only [hlookup, Option.map_some, JsProperty.descriptor,
                    Option.some.injEq] at hchild
                  simp only [read?, Segment.name, hlookup, Option.map_some,
                    JsProperty.read, hchild]
  | array entries named symbols =>
      rw [hobject] at hchild
      cases segment with
      | key name => cases hchild
      | index i =>
          simp only [shape, List.getElem?_map] at hchild
          cases hget : entries[i]? with
          | none => simp [hget] at hchild
          | some entry =>
              rcases entry with - | property
              · simp [hget] at hchild
              · cases property with
                | accessor => simp [hget, JsProperty.descriptor] at hchild
                | data held enumerable =>
                    simp only [hget, Option.map_some, JsProperty.descriptor,
                      Option.some.injEq] at hchild
                    simp only [read?, Segment.position?, hget, Option.bind_some,
                      id, Option.map_some, JsProperty.read, hchild]

/-- The children of a plain object or array are its entries. -/
theorem mem_entries_of_child {h : Heap} {address : Address}
    {segment : Segment} {value : JsValue}
    (hplain : (∃ members distinct, h address = .ofMembers members distinct) ∨
      ∃ items, h address = .ofItems items)
    (hchild : h.values.child (.ref address) segment = some value) :
    (segment, value) ∈ (h address).entries := by
  have hlook : h.values.look (.ref address) = (h address).shape := rfl
  unfold Values.child at hchild
  rcases hplain with ⟨members, distinct, heq⟩ | ⟨items, heq⟩
  · rw [hlook, heq, shape_ofMembers] at hchild
    rw [heq, entries_ofMembers]
    cases segment with
    | index i => cases hchild
    | key name =>
        dsimp only at hchild
        rw [AssocList.lookup_map fun held => Slot.data held true] at hchild
        cases hlookup : members.lookup name with
        | none => simp [hlookup] at hchild
        | some held =>
            simp only [hlookup, Option.map_some, Option.some.injEq] at hchild
            rw [← hchild]
            exact List.mem_map.mpr
              ⟨_, AssocList.mem_of_lookup_eq_some hlookup, rfl⟩
  · rw [hlook, heq, shape_ofItems] at hchild
    rw [heq, entries_ofItems]
    cases segment with
    | key name => cases hchild
    | index i =>
        simp only [List.getElem?_map] at hchild
        cases hget : items[i]? with
        | none => simp [hget] at hchild
        | some held =>
            simp only [hget, Option.map_some, Option.some.injEq] at hchild
            rw [← hchild]
            refine List.mem_map.mpr ⟨(held, i), ?_, rfl⟩
            exact List.mk_mem_zipIdx_iff_getElem?.mpr hget

end JsObject

end DrFed
