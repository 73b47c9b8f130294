import DrFed.Js.Quote

/-!
# Buffers

The bytes of a string in UTF-8, the string that bytes spell in UTF-8, and
their spelling in Base64.
-/

namespace DrFed

/-! ## UTF-8 -/

/-- The bytes of U+FFFD, which stands for a lone surrogate. -/
def replacementBytes : List UInt8 := [0xef, 0xbf, 0xbd]

def replacement : UInt16 := 0xfffd

def unitBytes (c : UInt16) : List UInt8 :=
  let n := c.toNat
  if n < 0x80 then [n.toUInt8]
  else if n < 0x800 then [(0xc0 + n / 64).toUInt8, (0x80 + n % 64).toUInt8]
  else if isHighSurrogate c || isLowSurrogate c then replacementBytes
  else [(0xe0 + n / 4096).toUInt8, (0x80 + n / 64 % 64).toUInt8, (0x80 + n % 64).toUInt8]

def pairBytes (high low : UInt16) : List UInt8 :=
  let n := 0x10000 + (high.toNat - 0xd800) * 1024 + (low.toNat - 0xdc00)
  [(0xf0 + n / 262144).toUInt8, (0x80 + n / 4096 % 64).toUInt8,
    (0x80 + n / 64 % 64).toUInt8, (0x80 + n % 64).toUInt8]

/-- `Buffer.from` of a string. -/
def encodeUtf8 : JsString → List UInt8
  | [] => []
  | [c] => unitBytes c
  | c :: d :: rest =>
      if isHighSurrogate c && isLowSurrogate d then pairBytes c d ++ encodeUtf8 rest
      else unitBytes c ++ encodeUtf8 (d :: rest)

/-- What is known of a character whose bytes are not all read. -/
structure Utf8State where
  needed : ℕ
  codePoint : ℕ
  lower : UInt8
  upper : UInt8

def Utf8State.start : Utf8State := ⟨0, 0, 0x80, 0xbf⟩

/-- The code units of a code point. -/
def codeUnits (n : ℕ) : JsString :=
  if n < 0x10000 then [n.toUInt16]
  else [(0xd800 + (n - 0x10000) / 1024).toUInt16, (0xdc00 + (n - 0x10000) % 1024).toUInt16]

/-- The first byte of a character. -/
def startByte (b : UInt8) : JsString × Utf8State :=
  if b < 0x80 then ([b.toUInt16], .start)
  else if 0xc2 ≤ b && b ≤ 0xdf then ([], ⟨1, b.toNat % 32, 0x80, 0xbf⟩)
  else if 0xe0 ≤ b && b ≤ 0xef then
    ([], ⟨2, b.toNat % 16, if b = 0xe0 then 0xa0 else 0x80, if b = 0xed then 0x9f else 0xbf⟩)
  else if 0xf0 ≤ b && b ≤ 0xf4 then
    ([], ⟨3, b.toNat % 8, if b = 0xf0 then 0x90 else 0x80, if b = 0xf4 then 0x8f else 0xbf⟩)
  else ([replacement], .start)

def nextByte (state : Utf8State) (b : UInt8) : JsString × Utf8State :=
  if state.needed = 0 then startByte b
  else if state.lower ≤ b && b ≤ state.upper then
    let codePoint := 64 * state.codePoint + b.toNat % 64
    if state.needed = 1 then (codeUnits codePoint, .start)
    else ([], ⟨state.needed - 1, codePoint, 0x80, 0xbf⟩)
  else (replacement :: (startByte b).1, (startByte b).2)

def decodeBytes (state : Utf8State) : List UInt8 → JsString
  | [] => if state.needed = 0 then [] else [replacement]
  | b :: rest => (nextByte state b).1 ++ decodeBytes (nextByte state b).2 rest

/-- `toString("utf8")`: bytes that are not UTF-8 are replaced. -/
def decodeUtf8 (bytes : List UInt8) : JsString := decodeBytes .start bytes

/-- A string of ASCII characters. -/
def IsAscii (text : JsString) : Prop := ∀ c ∈ text, c < 0x80

instance : DecidablePred IsAscii := fun text =>
  List.decidableBAll (fun c => c < 0x80) text

theorem unitBytes_ascii {c : UInt16} (h : c < 0x80) : unitBytes c = [c.toUInt8] := by
  rw [unitBytes]
  exact if_pos h

theorem encodeUtf8_ascii {text : JsString} (h : IsAscii text) :
    encodeUtf8 text = text.map UInt16.toUInt8 := by
  induction text using encodeUtf8.induct with
  | case1 => rfl
  | case2 c =>
      rw [encodeUtf8, unitBytes_ascii (h c List.mem_cons_self)]
      rfl
  | case3 c d rest hpair ih =>
      have hc : c.toNat < 0x80 := h c List.mem_cons_self
      rw [Bool.and_eq_true, isHighSurrogate, Bool.and_eq_true, decide_eq_true_eq] at hpair
      have hhigh : 0xd800 ≤ c.toNat := hpair.1.1
      omega
  | case4 c d rest hpair ih =>
      rw [encodeUtf8, if_neg hpair, unitBytes_ascii (h c List.mem_cons_self),
        ih fun e he => h e (List.mem_cons_of_mem c he)]
      rfl

theorem toUInt8_ascii {c : UInt16} (h : c < 0x80) :
    c.toUInt8 < 0x80 ∧ c.toUInt8.toUInt16 = c := by
  have hc : c.toNat < 0x80 := h
  constructor
  · rw [UInt8.lt_iff_toNat_lt, UInt16.toNat_toUInt8]
    exact (Nat.mod_le _ _).trans_lt hc
  · apply UInt16.toNat_inj.mp
    rw [UInt8.toNat_toUInt16, UInt16.toNat_toUInt8]
    omega

/-- ASCII survives the encoding. -/
theorem decodeUtf8_encodeUtf8 {text : JsString} (h : IsAscii text) :
    decodeUtf8 (encodeUtf8 text) = text := by
  rw [encodeUtf8_ascii h, decodeUtf8]
  induction text with
  | nil => rfl
  | cons c rest ih =>
      obtain ⟨hascii, hback⟩ := toUInt8_ascii (h c List.mem_cons_self)
      have hnext : nextByte .start c.toUInt8 = ([c], .start) := by
        rw [nextByte, if_pos (show Utf8State.start.needed = 0 from rfl), startByte, if_pos hascii, hback]
      rw [List.map_cons, decodeBytes, hnext, ih fun d hd => h d (List.mem_cons_of_mem c hd)]
      rfl

/-! ## Base64 -/

def padding : UInt16 := unit '='

def base64Unit (d : ℕ) : UInt16 :=
  if d < 26 then (65 + d).toUInt16
  else if d < 52 then (71 + d).toUInt16
  else if d < 62 then (d - 4).toUInt16
  else if d = 62 then unit '+'
  else unit '/'

/-- `[A-Za-z\d+/]` and what it stands for. -/
def base64Digit? (c : UInt16) : Option ℕ :=
  if unit 'A' ≤ c && c ≤ unit 'Z' then some (c.toNat - 65)
  else if unit 'a' ≤ c && c ≤ unit 'z' then some (c.toNat - 71)
  else if isDigit c then some (c.toNat + 4)
  else if c = unit '+' then some 62
  else if c = unit '/' then some 63
  else none

/-- `toString("base64")` -/
def encodeBase64 : List UInt8 → JsString
  | [] => []
  | [a] =>
      [base64Unit (a.toNat / 4), base64Unit (a.toNat % 4 * 16), padding, padding]
  | [a, b] =>
      [base64Unit (a.toNat / 4), base64Unit (a.toNat % 4 * 16 + b.toNat / 16),
        base64Unit (b.toNat % 16 * 4), padding]
  | a :: b :: c :: rest =>
      base64Unit (a.toNat / 4) :: base64Unit (a.toNat % 4 * 16 + b.toNat / 16) ::
        base64Unit (b.toNat % 16 * 4 + c.toNat / 64) :: base64Unit (c.toNat % 64) ::
          encodeBase64 rest

/-- `/^(?:[A-Za-z\d+/]{4})*(?:[A-Za-z\d+/]{2}==|[A-Za-z\d+/]{3}=)?$/u` -/
def matchesBase64 : JsString → Bool
  | [] => true
  | a :: b :: c :: d :: rest =>
      let full := [a, b, c].all fun u => (base64Digit? u).isSome
      if full && (base64Digit? d).isSome then matchesBase64 rest
      else d == padding && rest.isEmpty &&
        (full || ((base64Digit? a).isSome && (base64Digit? b).isSome && c == padding))
  | _ => false

/-- `Buffer.from` of a string that the pattern matches. -/
def decodeBase64 : JsString → List UInt8
  | a :: b :: c :: d :: rest =>
      let digit := fun u => (base64Digit? u).getD 0
      let first := (digit a * 4 + digit b / 16).toUInt8
      let second := (digit b % 16 * 16 + digit c / 4).toUInt8
      if c = padding then [first]
      else if d = padding then [first, second]
      else first :: second :: (digit c % 4 * 64 + digit d).toUInt8 :: decodeBase64 rest
  | _ => []

theorem base64Digit?_base64Unit {d : ℕ} (h : d < 64) :
    base64Digit? (base64Unit d) = some d := by
  interval_cases d <;> rfl

theorem base64Unit_ne_padding {d : ℕ} (h : d < 64) : base64Unit d ≠ padding := by
  intro heq
  have hdigit := base64Digit?_base64Unit h
  rw [heq, show base64Digit? padding = none from rfl] at hdigit
  cases hdigit

theorem toUInt8_of_eq {a : UInt8} {n : ℕ} (h : n = a.toNat) : n.toUInt8 = a := by
  rw [h]
  exact UInt8.ofNat_toNat

theorem matchesBase64_encodeBase64 (bytes : List UInt8) :
    matchesBase64 (encodeBase64 bytes) = true := by
  induction bytes using encodeBase64.induct with
  | case1 => rfl
  | case2 a =>
      have ha := a.toNat_lt
      simp [encodeBase64, matchesBase64, base64Digit?_base64Unit
        (show a.toNat / 4 < 64 by omega), base64Digit?_base64Unit
        (show a.toNat % 4 * 16 < 64 by omega), show base64Digit? padding = none from rfl]
  | case3 a b =>
      have ha := a.toNat_lt
      have hb := b.toNat_lt
      simp [encodeBase64, matchesBase64, base64Digit?_base64Unit
        (show a.toNat / 4 < 64 by omega), base64Digit?_base64Unit
        (show a.toNat % 4 * 16 + b.toNat / 16 < 64 by omega), base64Digit?_base64Unit
        (show b.toNat % 16 * 4 < 64 by omega), show base64Digit? padding = none from rfl]
  | case4 a b c rest ih =>
      have ha := a.toNat_lt
      have hb := b.toNat_lt
      have hc := c.toNat_lt
      simp [encodeBase64, matchesBase64, ih, base64Digit?_base64Unit
        (show a.toNat / 4 < 64 by omega), base64Digit?_base64Unit
        (show a.toNat % 4 * 16 + b.toNat / 16 < 64 by omega), base64Digit?_base64Unit
        (show b.toNat % 16 * 4 + c.toNat / 64 < 64 by omega), base64Digit?_base64Unit
        (show c.toNat % 64 < 64 by omega)]

theorem decodeBase64_encodeBase64 (bytes : List UInt8) :
    decodeBase64 (encodeBase64 bytes) = bytes := by
  induction bytes using encodeBase64.induct with
  | case1 => rfl
  | case2 a =>
      have ha := a.toNat_lt
      simp only [encodeBase64, decodeBase64, base64Digit?_base64Unit
        (show a.toNat / 4 < 64 by omega), base64Digit?_base64Unit
        (show a.toNat % 4 * 16 < 64 by omega), Option.getD_some, if_pos]
      rw [@toUInt8_of_eq a _ (by omega)]
  | case3 a b =>
      have ha := a.toNat_lt
      have hb := b.toNat_lt
      have hlast : b.toNat % 16 * 4 < 64 := by omega
      simp only [encodeBase64, decodeBase64, base64Digit?_base64Unit
        (show a.toNat / 4 < 64 by omega), base64Digit?_base64Unit
        (show a.toNat % 4 * 16 + b.toNat / 16 < 64 by omega),
        base64Digit?_base64Unit hlast, Option.getD_some,
        if_neg (base64Unit_ne_padding hlast), if_pos]
      rw [@toUInt8_of_eq a _ (by omega), @toUInt8_of_eq b _ (by omega)]
  | case4 a b c rest ih =>
      have ha := a.toNat_lt
      have hb := b.toNat_lt
      have hc := c.toNat_lt
      have hthird : b.toNat % 16 * 4 + c.toNat / 64 < 64 := by omega
      have hlast : c.toNat % 64 < 64 := by omega
      simp only [encodeBase64, decodeBase64, base64Digit?_base64Unit
        (show a.toNat / 4 < 64 by omega), base64Digit?_base64Unit
        (show a.toNat % 4 * 16 + b.toNat / 16 < 64 by omega),
        base64Digit?_base64Unit hthird, base64Digit?_base64Unit hlast, Option.getD_some,
        if_neg (base64Unit_ne_padding hthird), if_neg (base64Unit_ne_padding hlast), ih]
      rw [@toUInt8_of_eq a _ (by omega), @toUInt8_of_eq b _ (by omega),
        @toUInt8_of_eq c _ (by omega)]

end DrFed
