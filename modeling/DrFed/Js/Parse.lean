import DrFed.Js.Sorted
import DrFed.Js.Syntax
import DrFed.Js.Value
import DrFed.Support.AssocList

/-!
# Parsing JSON

What `JSON.parse` makes of a text, and that it gives back a tree that was
written.
-/

namespace DrFed

/-! ## Values -/

/-- The number that a numeral of a JSON text stands for, unless it overflows. -/
def Numeral.value (n : Numeral) : Option JsNumber :=
  (nearestDouble n.magnitude).map fun q =>
    if n.negative then if q = 0 then .negativeZero else .rational (-q) else .rational q

/-- The numbers that a double can hold. -/
def JsNumber.IsDouble : JsNumber → Prop
  | .negativeZero => True
  | .rational q => nearestDouble |q| = some |q|

namespace JsonText

mutual

/-- The tree that a text stands for.  A later member of a name replaces an
earlier one, and the members are listed as `Object.keys` lists them; a text
with a number that overflows stands for no tree. -/
def value : JsonText → Option Json
  | .null => some .null
  | .bool b => some (.bool b)
  | .num numeral => numeral.value.map .num
  | .str text => some (.str text)
  | .arr items => (valueItems items).map .arr
  | .obj members =>
      (valueMembers members).map fun ms => .obj (propertyOrder (AssocList.putAll ms []))

def valueItems : List JsonText → Option (List Json)
  | [] => some []
  | item :: rest => item.value.bind fun v => (valueItems rest).map fun vs => v :: vs

def valueMembers : List (JsString × JsonText) → Option (List (JsString × Json))
  | [] => some []
  | member :: rest =>
      member.2.value.bind fun v => (valueMembers rest).map fun vs => (member.1, v) :: vs

end

end JsonText

/-- `JSON.parse` -/
def parseJson (text : JsString) : Option Json := (JsonText.read text).bind JsonText.value

/-! ## Writing -/

def zeroNumeral (negative : Bool) : Numeral := ⟨negative, js "0", none, none⟩

section Writing

variable (numeral : ℚ → Numeral)

def JsNumber.written : JsNumber → Numeral
  | .negativeZero => zeroNumeral true
  | .rational q => numeral q

namespace Json

mutual

/-- A tree as a text. -/
def text : Json → JsonText
  | .null => .null
  | .bool b => .bool b
  | .num n => .num (n.written numeral)
  | .str s => .str s
  | .arr items => .arr (textItems items)
  | .obj ms => .obj (textMembers ms)

def textItems : List Json → List JsonText
  | [] => []
  | item :: rest => item.text :: textItems rest

def textMembers : List (JsString × Json) → List (JsString × JsonText)
  | [] => []
  | m :: rest => (m.1, m.2.text) :: textMembers rest

end

end Json

end Writing

/-- The documented behaviour of writing a finite number: it is a numeral of
JSON, and the number that it stands for is the one that was written. -/
def WritesNumbers (numeral : ℚ → Numeral) : Prop :=
  ∀ q, (JsNumber.rational q).IsDouble →
    (numeral q).Formed ∧ (numeral q).value = some (.rational q)

/-- Writing all digits of a double is one way to do so. -/
theorem writesNumbers_exact : WritesNumbers exactNumeral := by
  intro q hdouble
  refine ⟨exactNumeral_formed q, ?_⟩
  have habs : nearestDouble |q| = some |q| := hdouble
  obtain ⟨k, hk⟩ := den_of_nearestDouble habs
  have hsign : (exactNumeral q).negative = decide (q < 0) := by
    rw [decide_eq_decide.mpr Rat.num_neg.symm, exactNumeral]
    split <;> rfl
  rw [Numeral.value, magnitude_exactNumeral hk, habs, Option.map_some, hsign]
  by_cases hneg : q < 0
  · simp [hneg, abs_of_neg, hneg.ne]
  · simp [hneg, abs_of_nonneg (not_lt.mp hneg)]

/-! ## The order of keys -/

/-- Keys as `Object.keys` lists them. -/
def KeysOrdered (keys : List JsString) : Prop :=
  propertyOrder (keys.map fun key => (key, ())) = keys.map fun key => (key, ())

instance : DecidablePred KeysOrdered := fun _ => inferInstanceAs (Decidable (_ = _))

theorem propertyOrder_of_keysOrdered {α : Type} {entries : List (JsString × α)}
    (hnodup : (entries.map Prod.fst).Nodup) (h : KeysOrdered (entries.map Prod.fst)) :
    propertyOrder entries = entries := by
  have hkeeps : KeepsKeys fun entry : JsString × α => some (entry.1, ()) := by
    rintro entry other ⟨⟩
    rfl
  have hunits : ∀ l : List (JsString × α),
      l.filterMap (fun entry => some (entry.1, ())) =
        (l.map Prod.fst).map fun key => (key, ()) := by
    intro l
    rw [List.map_map]
    exact congrFun (@List.filterMap_eq_map _ _ fun entry : JsString × α => (entry.1, ())) l
  have hkeys : (propertyOrder entries).map Prod.fst = entries.map Prod.fst := by
    have horder := hkeeps.propertyOrder hnodup
    rw [hunits, hunits, h] at horder
    exact List.map_injective_iff.mpr (fun a b hab => (Prod.mk.inj hab).1) horder
  have hperm := propertyOrder_perm entries
  apply List.ext_getElem
  · exact hperm.length_eq
  · intro i hi hi'
    have hkey : (propertyOrder entries)[i].1 = entries[i].1 := by
      have hget := congrArg (fun l => l[i]?) hkeys
      simpa [hi, hi'] using hget
    exact List.inj_on_of_nodup_map hnodup (hperm.subset (List.getElem_mem hi))
      (List.getElem_mem hi') hkey

theorem putAll_append {α : Type} {entries before : List (JsString × α)}
    (hnodup : ((before ++ entries).map Prod.fst).Nodup) :
    AssocList.putAll entries before = before ++ entries := by
  induction entries generalizing before with
  | nil => rw [List.append_nil]; rfl
  | cons entry rest ih =>
      have hfresh : entry.1 ∉ before.map Prod.fst := by
        rw [List.map_append, List.map_cons, List.nodup_append] at hnodup
        exact fun hmem => hnodup.2.2 entry.1 hmem entry.1 List.mem_cons_self rfl
      have hput : AssocList.put entry.1 entry.2 before = before ++ [entry] :=
        AssocList.put_of_notMem hfresh
      have hrest : ((before ++ [entry] ++ rest).map Prod.fst).Nodup := by
        rwa [List.append_assoc]
      have hall := ih hrest
      rw [List.append_assoc] at hall
      rw [← hput] at hall
      exact hall

/-! ## Reading what was written -/

namespace Json

mutual

/-- The trees that a value of the language can spell: its numbers are doubles
and its members are listed in order. -/
def Genuine : Json → Prop
  | .num n => n.IsDouble
  | .arr items => GenuineItems items
  | .obj ms => ((ms.map Prod.fst).Nodup ∧ KeysOrdered (ms.map Prod.fst)) ∧ GenuineMembers ms
  | _ => True

def GenuineItems : List Json → Prop
  | [] => True
  | item :: rest => item.Genuine ∧ GenuineItems rest

def GenuineMembers : List (JsString × Json) → Prop
  | [] => True
  | m :: rest => m.2.Genuine ∧ GenuineMembers rest

end

section Round

variable {numeral : ℚ → Numeral}

theorem zeroNumeral_formed (negative : Bool) : (zeroNumeral negative).Formed where
  whole := ⟨List.cons_ne_nil _ _,
    List.all_eq_true.mp (by decide : (js "0").all isDigit = true)⟩
  leading := fun _ => rfl
  fraction := by rintro _ ⟨⟩
  marker := by rintro _ ⟨⟩
  sign := by rintro _ _ ⟨⟩
  exponent := by rintro _ ⟨⟩

theorem value_zeroNumeral : (zeroNumeral true).value = some .negativeZero := by
  have hmagnitude : (zeroNumeral true).magnitude = ((0 : ℤ) : ℚ) := by
    have hdigits : readDecimal (js "0") = 0 := rfl
    simp [Numeral.magnitude, zeroNumeral, hdigits]
  rw [Numeral.value, hmagnitude, nearestDouble_intCast (by decide), Option.map_some]
  rfl

theorem written_spec (hnumbers : WritesNumbers numeral) {n : JsNumber} (h : n.IsDouble) :
    (n.written numeral).Formed ∧ (n.written numeral).value = some n := by
  cases n with
  | negativeZero => exact ⟨zeroNumeral_formed true, value_zeroNumeral⟩
  | rational q => exact hnumbers q h

mutual

theorem text_formed (hnumbers : WritesNumbers numeral) :
    (t : Json) → t.Genuine → (t.text numeral).Formed
  | .null, _ => trivial
  | .bool _, _ => trivial
  | .num n, h => (@written_spec _ hnumbers n h).1
  | .str _, _ => trivial
  | .arr items, h => textItems_formed hnumbers items h
  | .obj ms, h => textMembers_formed hnumbers ms h.2

theorem textItems_formed (hnumbers : WritesNumbers numeral) :
    (items : List Json) → GenuineItems items → JsonText.FormedItems (textItems numeral items)
  | [], _ => trivial
  | item :: rest, h =>
      ⟨text_formed hnumbers item h.1, textItems_formed hnumbers rest h.2⟩

theorem textMembers_formed (hnumbers : WritesNumbers numeral) :
    (ms : List (JsString × Json)) → GenuineMembers ms →
      JsonText.FormedMembers (textMembers numeral ms)
  | [], _ => trivial
  | m :: rest, h =>
      ⟨text_formed hnumbers m.2 h.1, textMembers_formed hnumbers rest h.2⟩

end

mutual

theorem value_text (hnumbers : WritesNumbers numeral) :
    (t : Json) → t.Genuine → (t.text numeral).value = some t
  | .null, _ => rfl
  | .bool _, _ => rfl
  | .num n, h => by
      have hn : n.IsDouble := h
      rw [text, JsonText.value, (written_spec hnumbers hn).2, Option.map_some]
  | .str _, _ => rfl
  | .arr items, h => by
      rw [text, JsonText.value, valueItems_textItems hnumbers items h, Option.map_some]
  | .obj ms, h => by
      have hputAll : AssocList.putAll ms [] = ms := putAll_append h.1.1
      rw [text, JsonText.value, valueMembers_textMembers hnumbers ms h.2, Option.map_some,
        hputAll, propertyOrder_of_keysOrdered h.1.1 h.1.2]

theorem valueItems_textItems (hnumbers : WritesNumbers numeral) :
    (items : List Json) → GenuineItems items →
      JsonText.valueItems (textItems numeral items) = some items
  | [], _ => rfl
  | item :: rest, h => by
      rw [textItems, JsonText.valueItems, value_text hnumbers item h.1, Option.bind_some,
        valueItems_textItems hnumbers rest h.2, Option.map_some]

theorem valueMembers_textMembers (hnumbers : WritesNumbers numeral) :
    (ms : List (JsString × Json)) → GenuineMembers ms →
      JsonText.valueMembers (textMembers numeral ms) = some ms
  | [], _ => rfl
  | m :: rest, h => by
      rw [textMembers, JsonText.valueMembers, value_text hnumbers m.2 h.1, Option.bind_some,
        valueMembers_textMembers hnumbers rest h.2, Option.map_some]

end

/-- Parsing a tree's text gives back the tree. -/
theorem parseJson_write (hnumbers : WritesNumbers numeral) {t : Json} (h : t.Genuine) :
    parseJson (t.text numeral).write = some t := by
  rw [parseJson, JsonText.read_write (text_formed hnumbers t h), Option.bind_some,
    value_text hnumbers t h]

end Round

end Json

end DrFed
