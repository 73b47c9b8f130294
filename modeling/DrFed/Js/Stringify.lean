import DrFed.Js.Parse

/-!
# `JSON.stringify`

The text of a JSON value as `JSON.stringify` writes it.  It drops the sign of
a negative zero, and nothing else.
-/

namespace DrFed

def JsNumber.unsigned : JsNumber → JsNumber
  | .negativeZero => .rational 0
  | .rational q => .rational q

namespace Json

mutual

/-- The value without the signs of its negative zeros. -/
def unsigned : Json → Json
  | .num n => .num n.unsigned
  | .arr items => .arr (unsignedItems items)
  | .obj ms => .obj (unsignedMembers ms)
  | value => value

def unsignedItems : List Json → List Json
  | [] => []
  | item :: rest => item.unsigned :: unsignedItems rest

def unsignedMembers : List (JsString × Json) → List (JsString × Json)
  | [] => []
  | entry :: rest => (entry.1, entry.2.unsigned) :: unsignedMembers rest

end

section Numeral

variable (numeral : ℚ → Numeral)

/-- `JSON.stringify(value)`, with `numeral` for the text of a number. -/
def stringify (value : Json) : JsString :=
  (value.unsigned.text numeral).write

end Numeral

mutual

/-- What holds of every number in a value. -/
def EveryNumber (p : JsNumber → Prop) : Json → Prop
  | .num n => p n
  | .arr items => EveryNumberItems p items
  | .obj ms => EveryNumberMembers p ms
  | _ => True

def EveryNumberItems (p : JsNumber → Prop) : List Json → Prop
  | [] => True
  | item :: rest => EveryNumber p item ∧ EveryNumberItems p rest

def EveryNumberMembers (p : JsNumber → Prop) :
    List (JsString × Json) → Prop
  | [] => True
  | entry :: rest => EveryNumber p entry.2 ∧ EveryNumberMembers p rest

end

abbrev Doubles (value : Json) : Prop := value.EveryNumber JsNumber.IsDouble

abbrev Numberless (value : Json) : Prop := value.EveryNumber fun _ => False

theorem everyNumberItems_iff {p : JsNumber → Prop} {items : List Json} :
    EveryNumberItems p items ↔ ∀ item ∈ items, item.EveryNumber p := by
  induction items with
  | nil => simp [EveryNumberItems]
  | cons item rest ih => simp [EveryNumberItems, ih]

theorem everyNumberMembers_iff {p : JsNumber → Prop}
    {ms : List (JsString × Json)} :
    EveryNumberMembers p ms ↔ ∀ entry ∈ ms, entry.2.EveryNumber p := by
  induction ms with
  | nil => simp [EveryNumberMembers]
  | cons entry rest ih => simp [EveryNumberMembers, ih]

@[simp] theorem everyNumber_arr {p : JsNumber → Prop} {items : List Json} :
    (Json.arr items).EveryNumber p ↔ ∀ item ∈ items, item.EveryNumber p :=
  everyNumberItems_iff

@[simp] theorem everyNumber_obj {p : JsNumber → Prop}
    {ms : List (JsString × Json)} :
    (Json.obj ms).EveryNumber p ↔ ∀ entry ∈ ms, entry.2.EveryNumber p :=
  everyNumberMembers_iff

theorem isDouble_unsigned {n : JsNumber} (h : n.IsDouble) :
    n.unsigned.IsDouble := by
  cases n with
  | rational q => exact h
  | negativeZero =>
      show nearestDouble |0| = some |0|
      simpa using nearestDouble_intCast (n := 0) (by norm_num)

section Round

variable {numeral : ℚ → Numeral}

mutual

theorem doubles_formed (hnumbers : WritesNumbers numeral) :
    (t : Json) → t.Doubles → (t.text numeral).Formed
  | .null, _ | .bool _, _ | .str _, _ => trivial
  | .num _, h => (written_spec hnumbers h).1
  | .arr items, h => doublesItems_formed hnumbers items h
  | .obj ms, h => doublesMembers_formed hnumbers ms h

theorem doublesItems_formed (hnumbers : WritesNumbers numeral) :
    (items : List Json) → EveryNumberItems JsNumber.IsDouble items →
    JsonText.FormedItems (textItems numeral items)
  | [], _ => trivial
  | item :: rest, h => ⟨doubles_formed hnumbers item h.1,
      doublesItems_formed hnumbers rest h.2⟩

theorem doublesMembers_formed (hnumbers : WritesNumbers numeral) :
    (ms : List (JsString × Json)) →
    EveryNumberMembers JsNumber.IsDouble ms →
    JsonText.FormedMembers (textMembers numeral ms)
  | [], _ => trivial
  | entry :: rest, h =>
      ⟨doubles_formed hnumbers entry.2 h.1,
        doublesMembers_formed hnumbers rest h.2⟩

end

theorem written_injective (hnumbers : WritesNumbers numeral)
    {n k : JsNumber} (hn : n.IsDouble) (hk : k.IsDouble)
    (h : n.written numeral = k.written numeral) : n = k := by
  have hvalue := congrArg Numeral.value h
  rw [(written_spec hnumbers hn).2, (written_spec hnumbers hk).2] at hvalue
  exact Option.some.inj hvalue

mutual

theorem text_injective (hnumbers : WritesNumbers numeral) :
    (t u : Json) → t.Doubles → u.Doubles →
    t.text numeral = u.text numeral → t = u
  | .null, u, _, _, h => by cases u <;> simp_all [Json.text]
  | .bool _, u, _, _, h => by cases u <;> simp_all [Json.text]
  | .str _, u, _, _, h => by cases u <;> simp_all [Json.text]
  | .num n, u, ht, hu, h => by
      cases u with
      | num k =>
          exact congrArg Json.num (written_injective hnumbers ht hu
            (JsonText.num.inj h))
      | _ => simp [Json.text] at h
  | .arr items, u, ht, hu, h => by
      cases u with
      | arr others =>
          exact congrArg Json.arr (textItems_injective hnumbers items others ht hu
            (JsonText.arr.inj h))
      | _ => simp [Json.text] at h
  | .obj ms, u, ht, hu, h => by
      cases u with
      | obj others =>
          exact congrArg Json.obj (textMembers_injective hnumbers ms others ht hu
            (JsonText.obj.inj h))
      | _ => simp [Json.text] at h

theorem textItems_injective (hnumbers : WritesNumbers numeral) :
    (items others : List Json) →
    EveryNumberItems JsNumber.IsDouble items →
    EveryNumberItems JsNumber.IsDouble others →
    textItems numeral items = textItems numeral others → items = others
  | [], [], _, _, _ => rfl
  | [], _ :: _, _, _, h => by simp [textItems] at h
  | _ :: _, [], _, _, h => by simp [textItems] at h
  | item :: rest, other :: others, hi, ho, h => by
      obtain ⟨hhead, htail⟩ := List.cons.inj h
      rw [text_injective hnumbers item other hi.1 ho.1 hhead,
        textItems_injective hnumbers rest others hi.2 ho.2 htail]

theorem textMembers_injective (hnumbers : WritesNumbers numeral) :
    (ms others : List (JsString × Json)) →
    EveryNumberMembers JsNumber.IsDouble ms →
    EveryNumberMembers JsNumber.IsDouble others →
    textMembers numeral ms = textMembers numeral others → ms = others
  | [], [], _, _, _ => rfl
  | [], _ :: _, _, _, h => by simp [textMembers] at h
  | _ :: _, [], _, _, h => by simp [textMembers] at h
  | entry :: rest, other :: others, hi, ho, h => by
      obtain ⟨hhead, htail⟩ := List.cons.inj h
      obtain ⟨hkey, hvalue⟩ := Prod.mk.inj hhead
      rw [Prod.ext hkey (text_injective hnumbers entry.2 other.2 hi.1 ho.1 hvalue),
        textMembers_injective hnumbers rest others hi.2 ho.2 htail]

end

/-- The text of a tree determines the tree. -/
theorem write_text_injective (hnumbers : WritesNumbers numeral) {t u : Json}
    (ht : t.Doubles) (hu : u.Doubles)
    (h : (t.text numeral).write = (u.text numeral).write) : t = u := by
  have hread := congrArg JsonText.read h
  rw [JsonText.read_write (doubles_formed hnumbers t ht),
    JsonText.read_write (doubles_formed hnumbers u hu)] at hread
  exact text_injective hnumbers t u ht hu (Option.some.inj hread)

end Round

mutual

theorem Doubles.unsigned : (t : Json) → t.Doubles → t.unsigned.Doubles
  | .null, _ | .bool _, _ | .str _, _ => trivial
  | .num _, h => isDouble_unsigned h
  | .arr items, h => Doubles.unsignedItems items h
  | .obj ms, h => Doubles.unsignedMembers ms h

theorem Doubles.unsignedItems : (items : List Json) →
    EveryNumberItems JsNumber.IsDouble items →
    EveryNumberItems JsNumber.IsDouble (Json.unsignedItems items)
  | [], _ => trivial
  | item :: rest, h =>
      ⟨Doubles.unsigned item h.1, Doubles.unsignedItems rest h.2⟩

theorem Doubles.unsignedMembers : (ms : List (JsString × Json)) →
    EveryNumberMembers JsNumber.IsDouble ms →
    EveryNumberMembers JsNumber.IsDouble (Json.unsignedMembers ms)
  | [], _ => trivial
  | entry :: rest, h =>
      ⟨Doubles.unsigned entry.2 h.1, Doubles.unsignedMembers rest h.2⟩

end

/-- Two values have one text exactly when they differ at most in the signs of
their zeros. -/
theorem stringify_eq_iff {numeral : ℚ → Numeral}
    (hnumbers : WritesNumbers numeral) {t u : Json} (ht : t.Doubles)
    (hu : u.Doubles) :
    stringify numeral t = stringify numeral u ↔ t.unsigned = u.unsigned := by
  constructor
  · apply write_text_injective hnumbers
    · exact Doubles.unsigned t ht
    · exact Doubles.unsigned u hu
  · intro h
    rw [stringify, stringify, h]

/-! ## Values without numbers -/

mutual

theorem EveryNumber.mono {p r : JsNumber → Prop} (hmono : ∀ n, p n → r n) :
    (t : Json) → t.EveryNumber p → t.EveryNumber r
  | .null, _ | .bool _, _ | .str _, _ => trivial
  | .num n, h => hmono n h
  | .arr items, h => EveryNumber.monoItems hmono items h
  | .obj ms, h => EveryNumber.monoMembers hmono ms h

theorem EveryNumber.monoItems {p r : JsNumber → Prop}
    (hmono : ∀ n, p n → r n) : (items : List Json) →
    EveryNumberItems p items → EveryNumberItems r items
  | [], _ => trivial
  | item :: rest, h => ⟨EveryNumber.mono hmono item h.1,
      EveryNumber.monoItems hmono rest h.2⟩

theorem EveryNumber.monoMembers {p r : JsNumber → Prop}
    (hmono : ∀ n, p n → r n) : (ms : List (JsString × Json)) →
    EveryNumberMembers p ms → EveryNumberMembers r ms
  | [], _ => trivial
  | entry :: rest, h => ⟨EveryNumber.mono hmono entry.2 h.1,
      EveryNumber.monoMembers hmono rest h.2⟩

end

section Numberless

variable {numeral other : ℚ → Numeral}

mutual

theorem text_of_numberless : (t : Json) → t.Numberless →
    t.text numeral = t.text other
  | .null, _ | .bool _, _ | .str _, _ => rfl
  | .arr items, h => congrArg JsonText.arr (textItems_of_numberless items h)
  | .obj ms, h => congrArg JsonText.obj (textMembers_of_numberless ms h)

theorem textItems_of_numberless : (items : List Json) →
    EveryNumberItems (fun _ => False) items →
    textItems numeral items = textItems other items
  | [], _ => rfl
  | item :: rest, h => congrArg₂ List.cons (text_of_numberless item h.1)
      (textItems_of_numberless rest h.2)

theorem textMembers_of_numberless : (ms : List (JsString × Json)) →
    EveryNumberMembers (fun _ => False) ms →
    textMembers numeral ms = textMembers other ms
  | [], _ => rfl
  | entry :: rest, h => congrArg₂ List.cons
      (congrArg (Prod.mk entry.1) (text_of_numberless entry.2 h.1))
      (textMembers_of_numberless rest h.2)

end

mutual

theorem unsigned_of_numberless : (t : Json) → t.Numberless → t.unsigned = t
  | .null, _ | .bool _, _ | .str _, _ => rfl
  | .arr items, h => congrArg Json.arr (unsignedItems_of_numberless items h)
  | .obj ms, h => congrArg Json.obj (unsignedMembers_of_numberless ms h)

theorem unsignedItems_of_numberless : (items : List Json) →
    EveryNumberItems (fun _ => False) items → unsignedItems items = items
  | [], _ => rfl
  | item :: rest, h => congrArg₂ List.cons (unsigned_of_numberless item h.1)
      (unsignedItems_of_numberless rest h.2)

theorem unsignedMembers_of_numberless : (ms : List (JsString × Json)) →
    EveryNumberMembers (fun _ => False) ms → unsignedMembers ms = ms
  | [], _ => rfl
  | entry :: rest, h => congrArg₂ List.cons
      (congrArg (Prod.mk entry.1) (unsigned_of_numberless entry.2 h.1))
      (unsignedMembers_of_numberless rest h.2)

end

/-- However numbers are written, the text of a value without any determines
it. -/
theorem stringify_injective_of_numberless {t u : Json} (ht : t.Numberless)
    (hu : u.Numberless) (h : stringify numeral t = stringify numeral u) :
    t = u := by
  rw [stringify, stringify, unsigned_of_numberless t ht,
    unsigned_of_numberless u hu, text_of_numberless t ht,
    text_of_numberless u hu] at h
  exact write_text_injective writesNumbers_exact
    (EveryNumber.mono (fun _ hn => hn.elim) t ht)
    (EveryNumber.mono (fun _ hn => hn.elim) u hu) h

end Numberless

end Json

end DrFed
