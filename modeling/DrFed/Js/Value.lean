import Mathlib.Data.Rat.Defs
import DrFed.Js.Text
import DrFed.Support.AssocList

/-!
# JavaScript values and JSON trees

The validator receives values of unknown shape and reads them through
property descriptors.  `Values` is what it can observe of a value; the JSON
trees are the values that a parsed request body consists of.
-/

namespace DrFed

/-- A finite JavaScript number, as the rational it denotes, with negative zero
told apart. -/
inductive JsNumber where
  | negativeZero
  | rational (q : ℚ)
  deriving DecidableEq

/-- `Number.isInteger(value) && value >= 0` -/
def JsNumber.isNonNegativeInteger : JsNumber → Bool
  | .negativeZero => true
  | .rational q => q.den == 1 && 0 ≤ q.num

/-- An own property as its descriptor shows it. -/
inductive Slot (ι : Type) where
  | data (value : ι) (enumerable : Bool)
  | accessor

/-- What can be observed of a value without invoking code of it.  Undefined,
functions, symbols, bigints and non-finite numbers are all `foreign`; an array
lists its index slots, with `none` for a hole, apart from its named ones. -/
inductive Shape (ι : Type) where
  | foreign
  | null
  | bool (value : Bool)
  | number (value : JsNumber)
  | string (value : JsString)
  | array (entries : List (Option (Slot ι))) (named : List (JsString × Slot ι))
      (symbols : ℕ)
  | object (plain : Bool) (members : List (JsString × Slot ι)) (symbols : ℕ)

/-- A world of JavaScript values: the shape of each, and whether two of them
are the same object. -/
structure Values (ι : Type) where
  look : ι → Shape ι
  same : ι → ι → Bool

/-- JSON data. -/
inductive Json where
  | null
  | bool (value : Bool)
  | num (value : JsNumber)
  | str (value : JsString)
  | arr (items : List Json)
  | obj (members : List (JsString × Json))

namespace Json

/-- A JSON value as the validator observes it. -/
def shape : Json → Shape Json
  | .null => .null
  | .bool value => .bool value
  | .num value => .number value
  | .str value => .string value
  | .arr items => .array (items.map fun item => some (.data item true)) [] 0
  | .obj members =>
      .object true (members.map fun m => (m.1, .data m.2 true)) 0

/-- JSON trees: every occurrence of a container is an object of its own. -/
def tree : Values Json where
  look := shape
  same := fun _ _ => false

@[simp] theorem look_tree (value : Json) : tree.look value = value.shape := rfl

@[simp] theorem same_tree (left right : Json) : tree.same left right = false :=
  rfl

/-- The members of an object; other values have none. -/
def members : Json → List (JsString × Json)
  | .obj ms => ms
  | _ => []

/-- An own member of an object. -/
def member? (value : Json) (key : JsString) : Option Json :=
  value.members.lookup key

@[simp] theorem members_obj (ms : List (JsString × Json)) :
    (Json.obj ms).members = ms := rfl

mutual

/-- No object of the tree has two members of one name. -/
def Distinct : Json → Prop
  | .arr items => DistinctItems items
  | .obj ms => (ms.map Prod.fst).Nodup ∧ DistinctMembers ms
  | _ => True

def DistinctItems : List Json → Prop
  | [] => True
  | item :: rest => item.Distinct ∧ DistinctItems rest

def DistinctMembers : List (JsString × Json) → Prop
  | [] => True
  | entry :: rest => entry.2.Distinct ∧ DistinctMembers rest

end

theorem distinctItems_iff {items : List Json} :
    DistinctItems items ↔ ∀ item ∈ items, item.Distinct := by
  induction items with
  | nil => simp [DistinctItems]
  | cons item rest ih => simp [DistinctItems, ih]

theorem distinctMembers_iff {ms : List (JsString × Json)} :
    DistinctMembers ms ↔ ∀ entry ∈ ms, entry.2.Distinct := by
  induction ms with
  | nil => simp [DistinctMembers]
  | cons entry rest ih => simp [DistinctMembers, ih]

@[simp] theorem distinct_arr {items : List Json} :
    (Json.arr items).Distinct ↔ ∀ item ∈ items, item.Distinct := by
  rw [Distinct, distinctItems_iff]

@[simp] theorem distinct_obj {ms : List (JsString × Json)} :
    (Json.obj ms).Distinct ↔
      (ms.map Prod.fst).Nodup ∧ ∀ entry ∈ ms, entry.2.Distinct := by
  rw [Distinct, distinctMembers_iff]

mutual

def decideDistinct : (value : Json) → Decidable value.Distinct
  | .null => .isTrue trivial
  | .bool _ => .isTrue trivial
  | .num _ => .isTrue trivial
  | .str _ => .isTrue trivial
  | .arr items => decideDistinctItems items
  | .obj ms =>
      have := decideDistinctMembers ms
      inferInstanceAs
        (Decidable ((ms.map Prod.fst).Nodup ∧ DistinctMembers ms))

def decideDistinctItems : (items : List Json) →
    Decidable (DistinctItems items)
  | [] => .isTrue trivial
  | item :: rest =>
      have := decideDistinct item
      have := decideDistinctItems rest
      inferInstanceAs (Decidable (item.Distinct ∧ DistinctItems rest))

def decideDistinctMembers : (ms : List (JsString × Json)) →
    Decidable (DistinctMembers ms)
  | [] => .isTrue trivial
  | entry :: rest =>
      have := decideDistinct entry.2
      have := decideDistinctMembers rest
      inferInstanceAs (Decidable (entry.2.Distinct ∧ DistinctMembers rest))

end

instance : DecidablePred Distinct := decideDistinct

mutual

def decideEq : (left right : Json) → Decidable (left = right)
  | .null, .null => .isTrue rfl
  | .bool a, .bool b => decidable_of_iff (a = b) (by simp)
  | .num a, .num b => decidable_of_iff (a = b) (by simp)
  | .str a, .str b => decidable_of_iff (a = b) (by simp)
  | .arr a, .arr b =>
      have := decideItemsEq a b
      decidable_of_iff (a = b) (by simp)
  | .obj a, .obj b =>
      have := decideMembersEq a b
      decidable_of_iff (a = b) (by simp)
  | .null, .bool _ | .null, .num _ | .null, .str _ | .null, .arr _
  | .null, .obj _ | .bool _, .null | .bool _, .num _ | .bool _, .str _
  | .bool _, .arr _ | .bool _, .obj _ | .num _, .null | .num _, .bool _
  | .num _, .str _ | .num _, .arr _ | .num _, .obj _ | .str _, .null
  | .str _, .bool _ | .str _, .num _ | .str _, .arr _ | .str _, .obj _
  | .arr _, .null | .arr _, .bool _ | .arr _, .num _ | .arr _, .str _
  | .arr _, .obj _ | .obj _, .null | .obj _, .bool _ | .obj _, .num _
  | .obj _, .str _ | .obj _, .arr _ => .isFalse (by simp)

def decideItemsEq : (left right : List Json) → Decidable (left = right)
  | [], [] => .isTrue rfl
  | a :: as, b :: bs =>
      have := decideEq a b
      have := decideItemsEq as bs
      decidable_of_iff (a = b ∧ as = bs) (by simp)
  | [], _ :: _ | _ :: _, [] => .isFalse (by simp)

def decideMembersEq : (left right : List (JsString × Json)) →
    Decidable (left = right)
  | [], [] => .isTrue rfl
  | (key, a) :: as, (other, b) :: bs =>
      have := decideEq a b
      have := decideMembersEq as bs
      decidable_of_iff ((key = other ∧ a = b) ∧ as = bs) (by simp)
  | [], _ :: _ | _ :: _, [] => .isFalse (by simp)

end

instance : DecidableEq Json := decideEq

end Json

/-- A parsed JSON object. -/
structure JsonObject where
  members : List (JsString × Json)
  distinct : (Json.obj members).Distinct

/-- A parsed JSON value: one whose objects have distinct member names. -/
structure JsonDocument where
  value : Json
  distinct : value.Distinct

end DrFed
