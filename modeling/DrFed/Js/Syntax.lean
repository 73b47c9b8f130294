import DrFed.Js.Quote
import DrFed.Js.Numeral

/-!
# JSON texts

What a JSON text spells, how it is written without white space, and how it is
read.
-/

namespace DrFed

/-- What a JSON text spells, its numbers and its members as they are written. -/
inductive JsonText where
  | null
  | bool (value : Bool)
  | num (numeral : Numeral)
  | str (text : JsString)
  | arr (items : List JsonText)
  | obj (members : List (JsString × JsonText))

namespace JsonText

def comma : UInt16 := unit ','

def colon : UInt16 := unit ':'

def openBracket : UInt16 := 0x5b

def closeBracket : UInt16 := 0x5d

def openBrace : UInt16 := 0x7b

def closeBrace : UInt16 := 0x7d

/-! ## Writing -/

mutual

def write : JsonText → JsString
  | .null => js "null"
  | .bool true => js "true"
  | .bool false => js "false"
  | .num numeral => numeral.text
  | .str text => quote text
  | .arr [] => [openBracket, closeBracket]
  | .arr (item :: rest) => openBracket :: (item.write ++ writeItems rest)
  | .obj [] => [openBrace, closeBrace]
  | .obj (member :: rest) =>
      openBrace :: (quote member.1 ++ colon :: (member.2.write ++ writeMembers rest))

/-- The items after the first, and the closing bracket. -/
def writeItems : List JsonText → JsString
  | [] => [closeBracket]
  | item :: rest => comma :: (item.write ++ writeItems rest)

/-- The members after the first, and the closing brace. -/
def writeMembers : List (JsString × JsonText) → JsString
  | [] => [closeBrace]
  | member :: rest =>
      comma :: (quote member.1 ++ colon :: (member.2.write ++ writeMembers rest))

end

/-! ## Reading -/

def isSpace (c : UInt16) : Bool :=
  c == 0x20 || c == 0x09 || c == 0x0a || c == 0x0d

def skipSpace (text : JsString) : JsString := text.dropWhile isSpace

/-- What follows a literal. -/
def readLiteral (literal : JsString) (value : JsonText) (text : JsString) :
    Option (JsonText × JsString) :=
  if literal.isPrefixOf text then some (value, text.drop literal.length) else none

/-- What follows a certain code unit and the white space before it. -/
def readUnit (c : UInt16) (text : JsString) : Option JsString :=
  match skipSpace text with
  | [] => none
  | d :: rest => if d = c then some rest else none

mutual

/-- The value that a text begins with, and what follows it.  The fuel bounds
the depth of the recursion. -/
def readValue : ℕ → JsString → Option (JsonText × JsString)
  | 0, _ => none
  | fuel + 1, text =>
      match skipSpace text with
      | [] => none
      | c :: rest =>
          if c = openBracket then
            match readUnit closeBracket rest with
            | some rest' => some (.arr [], rest')
            | none =>
                (readItems fuel rest).map fun read => (.arr read.1, read.2)
          else if c = openBrace then
            match readUnit closeBrace rest with
            | some rest' => some (.obj [], rest')
            | none =>
                (readMembers fuel rest).map fun read => (.obj read.1, read.2)
          else if c = quoteMark then
            (readString rest).map fun read => (.str read.1, read.2)
          else if c = unit 'n' then readLiteral (js "null") .null (c :: rest)
          else if c = unit 't' then readLiteral (js "true") (.bool true) (c :: rest)
          else if c = unit 'f' then readLiteral (js "false") (.bool false) (c :: rest)
          else (readNumeral (c :: rest)).map fun read => (.num read.1, read.2)

/-- One item at least, up to the closing bracket. -/
def readItems : ℕ → JsString → Option (List JsonText × JsString)
  | 0, _ => none
  | fuel + 1, text =>
      (readValue fuel text).bind fun item =>
        match readUnit comma item.2 with
        | some rest => (readItems fuel rest).map fun read => (item.1 :: read.1, read.2)
        | none => (readUnit closeBracket item.2).map fun rest => ([item.1], rest)

/-- One member at least, up to the closing brace. -/
def readMembers : ℕ → JsString → Option (List (JsString × JsonText) × JsString)
  | 0, _ => none
  | fuel + 1, text =>
      (readUnit quoteMark text).bind fun opened =>
        (readString opened).bind fun key =>
          (readUnit colon key.2).bind fun after =>
            (readValue fuel after).bind fun value =>
              match readUnit comma value.2 with
              | some rest =>
                  (readMembers fuel rest).map fun read =>
                    ((key.1, value.1) :: read.1, read.2)
              | none =>
                  (readUnit closeBrace value.2).map fun rest =>
                    ([(key.1, value.1)], rest)

end

/-- `JSON.parse`, up to what the numbers and the members stand for. -/
def read (text : JsString) : Option JsonText :=
  (readValue (2 * text.length + 2) text).bind fun value =>
    if skipSpace value.2 = [] then some value.1 else none

/-! ## Reading what was written -/

mutual

/-- Every number can be written. -/
def Formed : JsonText → Prop
  | .num numeral => numeral.Formed
  | .arr items => FormedItems items
  | .obj members => FormedMembers members
  | _ => True

def FormedItems : List JsonText → Prop
  | [] => True
  | item :: rest => item.Formed ∧ FormedItems rest

def FormedMembers : List (JsString × JsonText) → Prop
  | [] => True
  | member :: rest => member.2.Formed ∧ FormedMembers rest

end

/-- What may follow a value in a text without white space. -/
def Follows (text : JsString) : Prop :=
  ∀ c, text.head? = some c → c = comma ∨ c = closeBracket ∨ c = closeBrace

theorem Follows.endsNumeral {text : JsString} (h : Follows text) : EndsNumeral text := by
  intro c hc
  rcases h c hc with rfl | rfl | rfl <;> decide

theorem follows_cons {c : UInt16} (h : c = comma ∨ c = closeBracket ∨ c = closeBrace)
    (rest : JsString) : Follows (c :: rest) := by
  rintro d ⟨⟩
  exact h

theorem follows_writeItems (items : List JsonText) (rest : JsString) :
    Follows (writeItems items ++ rest) := by
  cases items with
  | nil =>
      rw [writeItems]
      exact follows_cons (.inr (.inl rfl)) _
  | cons item items =>
      rw [writeItems]
      exact follows_cons (.inl rfl) _

theorem follows_writeMembers (members : List (JsString × JsonText)) (rest : JsString) :
    Follows (writeMembers members ++ rest) := by
  cases members with
  | nil =>
      rw [writeMembers]
      exact follows_cons (.inr (.inr rfl)) _
  | cons member members =>
      rw [writeMembers]
      exact follows_cons (.inl rfl) _

theorem skipSpace_cons {c : UInt16} (h : isSpace c = false) (rest : JsString) :
    skipSpace (c :: rest) = c :: rest := by
  simp [skipSpace, h]

theorem readUnit_cons {c : UInt16} (h : isSpace c = false) (rest : JsString) :
    readUnit c (c :: rest) = some rest := by
  rw [readUnit, skipSpace_cons h]
  exact if_pos rfl

theorem readUnit_cons_ne {c d : UInt16} (h : isSpace d = false) (hne : d ≠ c)
    (rest : JsString) : readUnit c (d :: rest) = none := by
  rw [readUnit, skipSpace_cons h]
  exact if_neg hne

theorem quote_append (text rest : JsString) :
    quote text ++ rest = quoteMark :: (quoteUnits text ++ quoteMark :: rest) := by
  simp [quote]

theorem readLiteral_append (literal : JsString) (value : JsonText) (rest : JsString) :
    readLiteral literal value (literal ++ rest) = some (value, rest) := by
  rw [readLiteral, if_pos (List.isPrefixOf_iff_prefix.mpr (List.prefix_append _ _)),
    List.drop_left]

/-- The code units that a number begins with. -/
theorem text_head {numeral : Numeral} (h : numeral.Formed) :
    ∃ c tail, numeral.text = c :: tail ∧ (c = minus ∨ isDigit c = true) := by
  rw [Numeral.text]
  cases numeral.negative with
  | true => exact ⟨minus, _, rfl, .inl rfl⟩
  | false =>
      obtain ⟨c, tail, hcons⟩ := List.exists_cons_of_ne_nil h.whole.1
      have hc : isDigit c = true := h.whole.2 c (by rw [hcons]; exact List.mem_cons_self)
      rw [hcons]
      exact ⟨c, _, rfl, .inr hc⟩

theorem isDigit_toNat {c : UInt16} (h : isDigit c = true) : 48 ≤ c.toNat ∧ c.toNat ≤ 57 := by
  rwa [isDigit, Bool.and_eq_true, decide_eq_true_eq, decide_eq_true_eq] at h

theorem ne_of_isDigit {c d : UInt16} (h : isDigit c = true) (hd : isDigit d = false) :
    c ≠ d := by
  rintro rfl
  exact Bool.false_ne_true (hd.symm.trans h)

theorem digit_plain {c : UInt16} (h : c = minus ∨ isDigit c = true) :
    isSpace c = false ∧ c ≠ openBracket ∧ c ≠ openBrace ∧ c ≠ quoteMark ∧
      c ≠ unit 'n' ∧ c ≠ unit 't' ∧ c ≠ unit 'f' ∧ c ≠ closeBracket := by
  rcases h with rfl | hdigit
  · decide
  · refine ⟨?_, ne_of_isDigit hdigit rfl, ne_of_isDigit hdigit rfl,
      ne_of_isDigit hdigit rfl, ne_of_isDigit hdigit rfl, ne_of_isDigit hdigit rfl,
      ne_of_isDigit hdigit rfl, ne_of_isDigit hdigit rfl⟩
    simp only [isSpace, Bool.or_eq_false_iff, beq_eq_false_iff_ne]
    exact ⟨⟨⟨ne_of_isDigit hdigit rfl, ne_of_isDigit hdigit rfl⟩,
      ne_of_isDigit hdigit rfl⟩, ne_of_isDigit hdigit rfl⟩

/-- A value begins neither with white space nor with a closing bracket. -/
theorem write_head {text : JsonText} (h : text.Formed) :
    ∃ c tail, text.write = c :: tail ∧ isSpace c = false ∧ c ≠ closeBracket := by
  cases text with
  | null => exact ⟨_, _, rfl, rfl, by decide⟩
  | bool value =>
      cases value with
      | true => exact ⟨_, _, rfl, rfl, by decide⟩
      | false => exact ⟨_, _, rfl, rfl, by decide⟩
  | num numeral =>
      obtain ⟨c, tail, hcons, hc⟩ := text_head h
      obtain ⟨hspace, -, -, -, -, -, -, hclose⟩ := digit_plain hc
      exact ⟨c, tail, hcons, hspace, hclose⟩
  | str text => exact ⟨_, _, rfl, rfl, by decide⟩
  | arr items =>
      cases items with
      | nil => exact ⟨_, _, rfl, rfl, by decide⟩
      | cons item rest => exact ⟨_, _, rfl, rfl, by decide⟩
  | obj members =>
      cases members with
      | nil => exact ⟨_, _, rfl, rfl, by decide⟩
      | cons member rest => exact ⟨_, _, rfl, rfl, by decide⟩

theorem length_writeItems_pos (items : List JsonText) : 0 < (writeItems items).length := by
  cases items with
  | nil => exact Nat.one_pos
  | cons item rest => rw [writeItems]; exact Nat.succ_pos _

theorem length_writeMembers_pos (members : List (JsString × JsonText)) :
    0 < (writeMembers members).length := by
  cases members with
  | nil => exact Nat.one_pos
  | cons member rest => rw [writeMembers]; exact Nat.succ_pos _

section Values

variable (fuel : ℕ) {rest : JsString}

theorem readValue_null :
    readValue (fuel + 1) (js "null" ++ rest) = some (.null, rest) := by
  rw [show js "null" ++ rest = unit 'n' :: (js "ull" ++ rest) from rfl, readValue,
    skipSpace_cons (by decide)]
  exact readLiteral_append (js "null") .null rest

theorem readValue_true :
    readValue (fuel + 1) (js "true" ++ rest) = some (.bool true, rest) := by
  rw [show js "true" ++ rest = unit 't' :: (js "rue" ++ rest) from rfl, readValue,
    skipSpace_cons (by decide)]
  exact readLiteral_append (js "true") (.bool true) rest

theorem readValue_false :
    readValue (fuel + 1) (js "false" ++ rest) = some (.bool false, rest) := by
  rw [show js "false" ++ rest = unit 'f' :: (js "alse" ++ rest) from rfl, readValue,
    skipSpace_cons (by decide)]
  exact readLiteral_append (js "false") (.bool false) rest

theorem readValue_numeral {numeral : Numeral} (h : numeral.Formed) (hrest : Follows rest) :
    readValue (fuel + 1) (numeral.text ++ rest) = some (.num numeral, rest) := by
  have hread := readNumeral_text h hrest.endsNumeral
  obtain ⟨c, tail, hcons, hc⟩ := text_head h
  obtain ⟨hspace, hbracket, hbrace, hquote, hn, ht, hf, -⟩ := digit_plain hc
  rw [hcons, List.cons_append] at hread ⊢
  rw [readValue, skipSpace_cons hspace]
  simp only [if_neg hbracket, if_neg hbrace, if_neg hquote, if_neg hn, if_neg ht,
    if_neg hf, hread, Option.map_some]

theorem readValue_quote (text : JsString) :
    readValue (fuel + 1) (quote text ++ rest) = some (.str text, rest) := by
  rw [quote_append, readValue, skipSpace_cons (by decide)]
  simp only [if_neg (show quoteMark ≠ openBracket by decide),
    if_neg (show quoteMark ≠ openBrace by decide), if_pos, readString_quoteUnits,
    Option.map_some]

theorem readValue_openBracket (rest : JsString) :
    readValue (fuel + 1) (openBracket :: rest) =
      match readUnit closeBracket rest with
      | some rest' => some (.arr [], rest')
      | none => (readItems fuel rest).map fun read => (.arr read.1, read.2) := by
  rw [readValue, skipSpace_cons (by decide)]
  exact if_pos rfl

theorem readValue_openBrace (rest : JsString) :
    readValue (fuel + 1) (openBrace :: rest) =
      match readUnit closeBrace rest with
      | some rest' => some (.obj [], rest')
      | none => (readMembers fuel rest).map fun read => (.obj read.1, read.2) := by
  rw [readValue, skipSpace_cons (by decide)]
  exact (if_neg (by decide)).trans (if_pos rfl)

end Values

theorem sizeOf_snd_lt (member : JsString × JsonText) : sizeOf member.2 < sizeOf member := by
  obtain ⟨key, value⟩ := member
  change sizeOf value < sizeOf (key, value)
  rw [Prod.mk.sizeOf_spec]
  omega

mutual

theorem readValue_write (text : JsonText) (h : text.Formed) {rest : JsString}
    (hrest : Follows rest) {fuel : ℕ} (hfuel : 2 * text.write.length ≤ fuel) :
    readValue (fuel + 1) (text.write ++ rest) = some (text, rest) := by
  match text with
  | .null => exact readValue_null fuel
  | .bool true => exact readValue_true fuel
  | .bool false => exact readValue_false fuel
  | .num numeral => exact readValue_numeral fuel h hrest
  | .str text => exact readValue_quote fuel text
  | .arr [] =>
      rw [write, List.cons_append, readValue_openBracket, List.singleton_append,
        readUnit_cons (by decide)]
  | .arr (item :: items) =>
      obtain ⟨c, tail, hcons, hspace, hclose⟩ := write_head h.1
      have hopen : readUnit closeBracket (item.write ++ (writeItems items ++ rest)) = none := by
        rw [hcons, List.cons_append]
        exact readUnit_cons_ne hspace hclose _
      rw [write, List.length_cons] at hfuel
      obtain ⟨fuel, rfl⟩ : ∃ k, fuel = k + 1 := ⟨fuel - 1, by omega⟩
      have hitems := readItems_write item items h.1 h.2 rest (show _ ≤ fuel by omega)
      rw [write, List.cons_append, readValue_openBracket, List.append_assoc, hopen, hitems]
      rfl
  | .obj [] =>
      rw [write, List.cons_append, readValue_openBrace, List.singleton_append,
        readUnit_cons (by decide)]
  | .obj (member :: members) =>
      have hopen : readUnit closeBrace (quote member.1 ++ colon ::
          (member.2.write ++ (writeMembers members ++ rest))) = none := by
        rw [quote_append]
        exact readUnit_cons_ne (by decide) (by decide) _
      have hsize := sizeOf_snd_lt member
      rw [write, List.length_cons] at hfuel
      obtain ⟨fuel, rfl⟩ : ∃ k, fuel = k + 1 := ⟨fuel - 1, by omega⟩
      have hmembers := readMembers_write member members h.1 h.2 rest (show _ ≤ fuel by omega)
      rw [write, List.cons_append, readValue_openBrace, List.append_assoc,
        List.cons_append, List.append_assoc, hopen, hmembers]
      rfl
termination_by sizeOf text

theorem readItems_write (item : JsonText) (items : List JsonText) (h : item.Formed)
    (hitems : FormedItems items) (rest : JsString) {fuel : ℕ}
    (hfuel : 2 * (item.write ++ writeItems items).length ≤ fuel) :
    readItems (fuel + 1) (item.write ++ (writeItems items ++ rest)) =
      some (item :: items, rest) := by
  have hpos := length_writeItems_pos items
  rw [List.length_append] at hfuel
  obtain ⟨fuel, rfl⟩ : ∃ k, fuel = k + 1 := ⟨fuel - 1, by omega⟩
  have hvalue := readValue_write item h (follows_writeItems items rest)
    (show _ ≤ fuel by omega)
  rw [readItems, hvalue, Option.bind_some]
  cases items with
  | nil =>
      have hcomma : readUnit comma (writeItems [] ++ rest) = none :=
        readUnit_cons_ne (by decide) (by decide) rest
      have hclose : readUnit closeBracket (writeItems [] ++ rest) = some rest :=
        readUnit_cons (by decide) rest
      simp only [hcomma, hclose, Option.map_some]
  | cons next items =>
      have hcomma : readUnit comma (writeItems (next :: items) ++ rest) =
          some (next.write ++ (writeItems items ++ rest)) := by
        rw [writeItems, List.cons_append, List.append_assoc]
        exact readUnit_cons (by decide) _
      have hnext := readItems_write next items hitems.1 hitems.2 rest
        (show _ ≤ fuel by rw [writeItems, List.length_cons] at hfuel; omega)
      simp only [hcomma, hnext, Option.map_some]
termination_by sizeOf item + sizeOf items + 1

theorem readMembers_write (member : JsString × JsonText)
    (members : List (JsString × JsonText)) (h : member.2.Formed)
    (hmembers : FormedMembers members) (rest : JsString) {fuel : ℕ}
    (hfuel : 2 * (quote member.1 ++ colon ::
      (member.2.write ++ writeMembers members)).length ≤ fuel) :
    readMembers (fuel + 1) (quote member.1 ++ colon ::
      (member.2.write ++ (writeMembers members ++ rest))) =
        some (member :: members, rest) := by
  have hpos := length_writeMembers_pos members
  rw [List.length_append, List.length_cons, List.length_append] at hfuel
  obtain ⟨fuel, rfl⟩ : ∃ k, fuel = k + 1 := ⟨fuel - 1, by omega⟩
  have hvalue := readValue_write member.2 h (follows_writeMembers members rest)
    (show _ ≤ fuel by omega)
  rw [quote_append, readMembers, readUnit_cons (by decide), Option.bind_some,
    readString_quoteUnits, Option.bind_some, readUnit_cons (by decide), Option.bind_some,
    hvalue, Option.bind_some]
  cases hcases : members with
  | nil =>
      have hcomma : readUnit comma (writeMembers [] ++ rest) = none :=
        readUnit_cons_ne (by decide) (by decide) rest
      have hclose : readUnit closeBrace (writeMembers [] ++ rest) = some rest :=
        readUnit_cons (by decide) rest
      simp only [hcomma, hclose, Option.map_some]
  | cons next members =>
      rw [hcases] at hmembers hfuel
      have hcomma : readUnit comma (writeMembers (next :: members) ++ rest) =
          some (quote next.1 ++ colon :: (next.2.write ++ (writeMembers members ++ rest))) := by
        rw [writeMembers, List.cons_append, List.append_assoc, List.cons_append,
          List.append_assoc]
        exact readUnit_cons (by decide) _
      have hsize : sizeOf next.2 + sizeOf members < sizeOf (next :: members) := by
        have hsnd := sizeOf_snd_lt next
        rw [List.cons.sizeOf_spec]
        omega
      rw [← hcases] at hsize
      have hnext := readMembers_write next members hmembers.1 hmembers.2 rest
        (show _ ≤ fuel by rw [writeMembers, List.length_cons] at hfuel; omega)
      simp only [hcomma, hnext, Option.map_some]
termination_by sizeOf member.2 + sizeOf members + 1

end

/-- Reading a text gives back what was written. -/
theorem read_write {text : JsonText} (h : text.Formed) : read text.write = some text := by
  have hvalue := readValue_write text h (show Follows [] by rintro c ⟨⟩)
    (show _ ≤ 2 * text.write.length + 1 by omega)
  rw [List.append_nil] at hvalue
  rw [read, hvalue]
  rfl

end JsonText

end DrFed
