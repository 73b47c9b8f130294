import DrFed.Js.Hex

/-!
# JSON strings

How a JavaScript string is quoted in a JSON text, and how a quoted string is
read.
-/

namespace DrFed

def quoteMark : UInt16 := unit '"'

def backslash : UInt16 := 0x5c

def isHighSurrogate (c : UInt16) : Bool := 0xd800 ≤ c && c ≤ 0xdbff

def isLowSurrogate (c : UInt16) : Bool := 0xdc00 ≤ c && c ≤ 0xdfff

/-- The escapes of one letter. -/
def escapeLetter (c : UInt16) : Option UInt16 :=
  if c = 0x08 then some (unit 'b')
  else if c = 0x09 then some (unit 't')
  else if c = 0x0a then some (unit 'n')
  else if c = 0x0c then some (unit 'f')
  else if c = 0x0d then some (unit 'r')
  else if c = quoteMark then some quoteMark
  else if c = backslash then some backslash
  else none

def unescapeLetter (c : UInt16) : Option UInt16 :=
  if c = unit 'b' then some 0x08
  else if c = unit 't' then some 0x09
  else if c = unit 'n' then some 0x0a
  else if c = unit 'f' then some 0x0c
  else if c = unit 'r' then some 0x0d
  else if c = quoteMark then some quoteMark
  else if c = backslash then some backslash
  else if c = unit '/' then some (unit '/')
  else none

/-- A code unit that is not part of a surrogate pair, in a quoted string. -/
def quoteUnit (c : UInt16) : JsString :=
  match escapeLetter c with
  | some letter => [backslash, letter]
  | none =>
      if c < 0x20 || isHighSurrogate c || isLowSurrogate c then
        backslash :: unit 'u' :: hexText 4 c.toNat
      else [c]

/-- The inside of a quoted string: surrogate pairs stand for themselves. -/
def quoteUnits : JsString → JsString
  | [] => []
  | [c] => quoteUnit c
  | c :: d :: rest =>
      if isHighSurrogate c && isLowSurrogate d then c :: d :: quoteUnits rest
      else quoteUnit c ++ quoteUnits (d :: rest)

/-- `JSON.stringify` of a string. -/
def quote (text : JsString) : JsString :=
  quoteMark :: quoteUnits text ++ [quoteMark]

/-- The string whose inside a text begins with, and what follows its closing
quotation mark. -/
def readString : JsString → Option (JsString × JsString)
  | [] => none
  | c :: rest =>
      if c = quoteMark then some ([], rest)
      else if c = backslash then
        match rest with
        | [] => none
        | letter :: tail =>
            if letter = unit 'u' then
              match tail with
              | a :: b :: d :: e :: tail' =>
                  (readHex [a, b, d, e]).bind fun n =>
                    (readString tail').map fun read => (n.toUInt16 :: read.1, read.2)
              | _ => none
            else
              (unescapeLetter letter).bind fun d =>
                (readString tail).map fun read => (d :: read.1, read.2)
      else if c < 0x20 then none
      else (readString rest).map fun read => (c :: read.1, read.2)

/-! ## Reading what was quoted -/

theorem escapeLetter_spec {c letter : UInt16} (h : escapeLetter c = some letter) :
    letter ≠ unit 'u' ∧ unescapeLetter letter = some c := by
  unfold escapeLetter at h
  split_ifs at h with h1 h2 h3 h4 h5 h6 h7
  all_goals
    obtain rfl := Option.some.inj h
    subst c
    decide

theorem readString_escaped {letter d : UInt16} (hletter : letter ≠ unit 'u')
    (h : unescapeLetter letter = some d) (rest : JsString) :
    readString (backslash :: letter :: rest) =
      (readString rest).map fun read => (d :: read.1, read.2) := by
  rw [readString.eq_def]
  simp only [if_neg (show backslash ≠ quoteMark by decide), if_pos, if_neg hletter, h,
    Option.bind_some]

theorem readString_plain {c : UInt16} (hquote : c ≠ quoteMark) (hslash : c ≠ backslash)
    (hcontrol : ¬ c < 0x20) (rest : JsString) :
    readString (c :: rest) =
      (readString rest).map fun read => (c :: read.1, read.2) := by
  rw [readString.eq_def]
  simp only [if_neg hquote, if_neg hslash, if_neg hcontrol]

theorem readString_hex (c : UInt16) (rest : JsString) :
    readString (backslash :: unit 'u' :: hexText 4 c.toNat ++ rest) =
      (readString rest).map fun read => (c :: read.1, read.2) := by
  have hread : readHex (hexText 4 c.toNat) = some c.toNat :=
    readHex_hexText_of_lt c.toNat_lt
  obtain ⟨a, b, d, e, hhex⟩ : ∃ a b d e, hexText 4 c.toNat = [a, b, d, e] :=
    ⟨_, _, _, _, rfl⟩
  rw [hhex] at hread ⊢
  rw [List.cons_append, List.cons_append, List.cons_append, List.cons_append,
    List.cons_append, List.cons_append, List.nil_append, readString.eq_def]
  simp only [if_neg (show backslash ≠ quoteMark by decide), if_pos, hread, Option.bind_some, Nat.toUInt16, UInt16.ofNat_toNat]

theorem readString_quoteUnit (c : UInt16) (rest : JsString) :
    readString (quoteUnit c ++ rest) =
      (readString rest).map fun read => (c :: read.1, read.2) := by
  unfold quoteUnit
  cases hletter : escapeLetter c with
  | some letter =>
      obtain ⟨hne, hback⟩ := escapeLetter_spec hletter
      exact readString_escaped hne hback rest
  | none =>
      split_ifs with hspecial
      · exact readString_hex c rest
      · rw [Bool.or_eq_true, Bool.or_eq_true, decide_eq_true_eq, not_or, not_or] at hspecial
        apply readString_plain
        · rintro rfl
          exact absurd hletter (by decide)
        · rintro rfl
          exact absurd hletter (by decide)
        · exact hspecial.1.1

theorem readString_quoteMark (rest : JsString) :
    readString (quoteMark :: rest) = some ([], rest) := by
  rw [readString.eq_def]
  simp only [if_pos]

theorem surrogate_plain {c : UInt16} (h : 0xd800 ≤ c) :
    c ≠ quoteMark ∧ c ≠ backslash ∧ ¬ c < 0x20 := by
  have hle : 0xd800 ≤ c.toNat := h
  refine ⟨?_, ?_, ?_⟩
  · rintro rfl
    exact absurd hle (by decide)
  · rintro rfl
    exact absurd hle (by decide)
  · intro hlt
    have hlt' : c.toNat < 0x20 := hlt
    omega

theorem readString_quoteUnits (text rest : JsString) :
    readString (quoteUnits text ++ quoteMark :: rest) = some (text, rest) := by
  induction text using quoteUnits.induct with
  | case1 => rw [quoteUnits, List.nil_append, readString_quoteMark]
  | case2 c =>
      rw [quoteUnits, readString_quoteUnit, readString_quoteMark]
      rfl
  | case3 c d tail hpair ih =>
      rw [quoteUnits, if_pos hpair]
      simp only [isHighSurrogate, isLowSurrogate, Bool.and_eq_true,
        decide_eq_true_eq] at hpair
      obtain ⟨hquote, hslash, hcontrol⟩ := surrogate_plain hpair.1.1
      have hd : (0xd800 : UInt16) ≤ d :=
        UInt16.le_trans (show (0xd800 : UInt16) ≤ 0xdc00 by decide) hpair.2.1
      obtain ⟨hquote', hslash', hcontrol'⟩ := surrogate_plain hd
      rw [List.cons_append, List.cons_append, readString_plain hquote hslash hcontrol,
        readString_plain hquote' hslash' hcontrol', ih]
      rfl
  | case4 c d tail hpair ih =>
      rw [quoteUnits, if_neg hpair, List.append_assoc, readString_quoteUnit, ih]
      rfl

end DrFed
