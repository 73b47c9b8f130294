import DrFed.Js.Buffer

/-!
# Base64 for URLs

The spelling of bytes in the alphabet for URLs, without padding.
-/

namespace DrFed

def base64urlUnit (d : ℕ) : UInt16 :=
  if d = 62 then unit '-' else if d = 63 then unit '_' else base64Unit d

/-- A digit of either alphabet. -/
def base64urlDigit? (c : UInt16) : Option ℕ :=
  if c = unit '-' then some 62
  else if c = unit '_' then some 63
  else base64Digit? c

/-- `toString("base64url")` -/
def base64url : List UInt8 → JsString
  | [] => []
  | [a] => [base64urlUnit (a.toNat / 4), base64urlUnit (a.toNat % 4 * 16)]
  | [a, b] =>
      [base64urlUnit (a.toNat / 4),
        base64urlUnit (a.toNat % 4 * 16 + b.toNat / 16),
        base64urlUnit (b.toNat % 16 * 4)]
  | a :: b :: c :: rest =>
      base64urlUnit (a.toNat / 4) ::
        base64urlUnit (a.toNat % 4 * 16 + b.toNat / 16) ::
          base64urlUnit (b.toNat % 16 * 4 + c.toNat / 64) ::
            base64urlUnit (c.toNat % 64) :: base64url rest

/-- The bytes of some digits; a single digit at the end is none. -/
def digitBytes : List ℕ → List UInt8
  | a :: b :: c :: d :: rest =>
      (a * 4 + b / 16).toUInt8 :: (b % 16 * 16 + c / 4).toUInt8 ::
        (c % 4 * 64 + d).toUInt8 :: digitBytes rest
  | [a, b, c] => [(a * 4 + b / 16).toUInt8, (b % 16 * 16 + c / 4).toUInt8]
  | [a, b] => [(a * 4 + b / 16).toUInt8]
  | _ => []

/-- `Buffer.from(text, "base64url")`, which takes both alphabets and skips
what is in neither. -/
def fromBase64url (text : JsString) : List UInt8 :=
  digitBytes (text.filterMap base64urlDigit?)

theorem base64urlDigit?_base64urlUnit {d : ℕ} (h : d < 64) :
    base64urlDigit? (base64urlUnit d) = some d := by
  interval_cases d <;> rfl

theorem filterMap_base64urlUnit {digits : List ℕ} (h : ∀ d ∈ digits, d < 64)
    (rest : JsString) :
    (digits.map base64urlUnit ++ rest).filterMap base64urlDigit? =
      digits ++ rest.filterMap base64urlDigit? := by
  induction digits with
  | nil => rfl
  | cons d digits ih =>
      have hd := base64urlDigit?_base64urlUnit (h d List.mem_cons_self)
      rw [List.map_cons, List.cons_append, List.filterMap_cons_some hd,
        ih fun e he => h e (List.mem_cons_of_mem d he), List.cons_append]

/-- The digits that spell some bytes. -/
def byteDigits : List UInt8 → List ℕ
  | [] => []
  | [a] => [a.toNat / 4, a.toNat % 4 * 16]
  | [a, b] =>
      [a.toNat / 4, a.toNat % 4 * 16 + b.toNat / 16, b.toNat % 16 * 4]
  | a :: b :: c :: rest =>
      (a.toNat / 4) :: (a.toNat % 4 * 16 + b.toNat / 16) ::
        (b.toNat % 16 * 4 + c.toNat / 64) :: (c.toNat % 64) :: byteDigits rest

theorem base64url_eq (bytes : List UInt8) :
    base64url bytes = (byteDigits bytes).map base64urlUnit := by
  induction bytes using byteDigits.induct with
  | case1 => rfl
  | case2 a => rfl
  | case3 a b => rfl
  | case4 a b c rest ih =>
      rw [base64url, byteDigits, ih]
      rfl

theorem lt_of_mem_byteDigits {bytes : List UInt8} {d : ℕ}
    (h : d ∈ byteDigits bytes) : d < 64 := by
  induction bytes using byteDigits.induct with
  | case1 => cases h
  | case2 a =>
      have ha := a.toNat_lt
      simp only [byteDigits, List.mem_cons, List.not_mem_nil, or_false] at h
      omega
  | case3 a b =>
      have ha := a.toNat_lt
      have hb := b.toNat_lt
      simp only [byteDigits, List.mem_cons, List.not_mem_nil, or_false] at h
      omega
  | case4 a b c rest ih =>
      have ha := a.toNat_lt
      have hb := b.toNat_lt
      have hc := c.toNat_lt
      simp only [byteDigits, List.mem_cons] at h
      rcases h with rfl | rfl | rfl | rfl | h
      · omega
      · omega
      · omega
      · omega
      · exact ih h

theorem digitBytes_byteDigits (bytes : List UInt8) :
    digitBytes (byteDigits bytes) = bytes := by
  induction bytes using byteDigits.induct with
  | case1 => rfl
  | case2 a =>
      have ha := a.toNat_lt
      rw [byteDigits, digitBytes, @toUInt8_of_eq a _ (by omega)]
  | case3 a b =>
      have ha := a.toNat_lt
      have hb := b.toNat_lt
      rw [byteDigits, digitBytes, @toUInt8_of_eq a _ (by omega),
        @toUInt8_of_eq b _ (by omega)]
  | case4 a b c rest ih =>
      have ha := a.toNat_lt
      have hb := b.toNat_lt
      have hc := c.toNat_lt
      rw [byteDigits, digitBytes, ih, @toUInt8_of_eq a _ (by omega),
        @toUInt8_of_eq b _ (by omega), @toUInt8_of_eq c _ (by omega)]

/-- Bytes survive their spelling. -/
theorem fromBase64url_base64url (bytes : List UInt8) :
    fromBase64url (base64url bytes) = bytes := by
  have hdigits := filterMap_base64urlUnit
    (fun d => @lt_of_mem_byteDigits bytes d) []
  rw [List.append_nil, List.filterMap_nil, List.append_nil] at hdigits
  rw [fromBase64url, base64url_eq, hdigits, digitBytes_byteDigits]

theorem base64url_injective : Function.Injective base64url :=
  Function.LeftInverse.injective fromBase64url_base64url

/-- A spelling of bytes has no full stop. -/
theorem notMem_base64url (bytes : List UInt8) :
    unit '.' ∉ base64url bytes := by
  rw [base64url_eq]
  intro hmem
  obtain ⟨d, hd, heq⟩ := List.mem_map.mp hmem
  have hdigit := base64urlDigit?_base64urlUnit (lt_of_mem_byteDigits hd)
  rw [heq, show base64urlDigit? (unit '.') = none from rfl] at hdigit
  cases hdigit

end DrFed
