import DrFed.Js.Decimal
import Mathlib.Data.Int.Log
import Mathlib.Data.Rat.Floor
import Mathlib.Algebra.Order.Field.Power
import Mathlib.Data.Nat.Log
import Mathlib.Data.Nat.Prime.Basic
import Mathlib.Data.Rat.Lemmas
import Mathlib.Tactic.FieldSimp
import Mathlib.Tactic.NormNum

/-!
# JSON numbers

The grammar of a number in a JSON text, the rational that it spells, and the
double that is nearest to it.
-/

namespace DrFed

/-! ## Tokens -/

structure Exponent where
  marker : UInt16
  sign : Option UInt16
  digits : JsString
  deriving DecidableEq

/-- A number as it is written. -/
structure Numeral where
  negative : Bool
  whole : JsString
  fraction : Option JsString
  exponent : Option Exponent
  deriving DecidableEq

def point : UInt16 := unit '.'

def minus : UInt16 := unit '-'

def fractionText : Option JsString → JsString
  | none => []
  | some digits => point :: digits

def exponentText : Option Exponent → JsString
  | none => []
  | some e => e.marker :: (e.sign.toList ++ e.digits)

def Numeral.text (n : Numeral) : JsString :=
  (if n.negative then [minus] else []) ++
    (n.whole ++ (fractionText n.fraction ++ exponentText n.exponent))

def isMarker (c : UInt16) : Bool := c == unit 'e' || c == unit 'E'

def isSign (c : UInt16) : Bool := c == unit '+' || c == minus

/-- Some digits. -/
def IsDigits (digits : JsString) : Prop := digits ≠ [] ∧ ∀ c ∈ digits, isDigit c = true

/-- The numbers that the grammar of JSON derives. -/
structure Numeral.Formed (n : Numeral) : Prop where
  whole : IsDigits n.whole
  leading : n.whole.head? = some (unit '0') → n.whole.length = 1
  fraction : ∀ digits, n.fraction = some digits → IsDigits digits
  marker : ∀ e, n.exponent = some e → isMarker e.marker = true
  sign : ∀ e c, n.exponent = some e → e.sign = some c → isSign c = true
  exponent : ∀ e, n.exponent = some e → IsDigits e.digits

/-! ## Reading -/

def readWhole : JsString → Option (JsString × JsString)
  | [] => none
  | c :: rest =>
      if c = unit '0' then some ([c], rest)
      else if isDigit c then some (c :: rest.takeWhile isDigit, rest.dropWhile isDigit)
      else none

def readFractionPart : JsString → Option (Option JsString × JsString)
  | [] => some (none, [])
  | c :: rest =>
      if c = point then
        if rest.takeWhile isDigit = [] then none
        else some (some (rest.takeWhile isDigit), rest.dropWhile isDigit)
      else some (none, c :: rest)

/-- The sign that a text begins with, if any. -/
def readSign : JsString → Option UInt16 × JsString
  | [] => (none, [])
  | c :: rest => if isSign c then (some c, rest) else (none, c :: rest)

def readExponentPart : JsString → Option (Option Exponent × JsString)
  | [] => some (none, [])
  | c :: rest =>
      if isMarker c then
        let signed := readSign rest
        if signed.2.takeWhile isDigit = [] then none
        else some (some ⟨c, signed.1, signed.2.takeWhile isDigit⟩,
          signed.2.dropWhile isDigit)
      else some (none, c :: rest)

/-- The longest number that a text begins with. -/
def readUnsigned (negative : Bool) (text : JsString) : Option (Numeral × JsString) :=
  (readWhole text).bind fun whole =>
    (readFractionPart whole.2).bind fun fraction =>
      (readExponentPart fraction.2).map fun exponent =>
        (⟨negative, whole.1, fraction.1, exponent.1⟩, exponent.2)

def readNumeral (text : JsString) : Option (Numeral × JsString) :=
  match text with
  | [] => none
  | c :: rest => if c = minus then readUnsigned true rest else readUnsigned false text

/-- A text that does not continue a number. -/
def EndsNumeral (text : JsString) : Prop :=
  ∀ c, text.head? = some c → isDigit c = false ∧ c ≠ point ∧ isMarker c = false

section Reading

variable {digits rest : JsString}

theorem takeWhile_digits (h : ∀ c ∈ digits, isDigit c = true)
    (hrest : ∀ c, rest.head? = some c → isDigit c = false) :
    (digits ++ rest).takeWhile isDigit = digits := by
  rw [List.takeWhile_append_of_pos h]
  cases rest with
  | nil => simp
  | cons c rest =>
      have hc : isDigit c = false := hrest c rfl
      simp [hc]

theorem dropWhile_digits (h : ∀ c ∈ digits, isDigit c = true)
    (hrest : ∀ c, rest.head? = some c → isDigit c = false) :
    (digits ++ rest).dropWhile isDigit = rest := by
  rw [List.dropWhile_append_of_pos h]
  cases rest with
  | nil => rfl
  | cons c rest =>
      have hc : isDigit c = false := hrest c rfl
      simp [hc]

theorem readWhole_append (h : IsDigits digits)
    (hleading : digits.head? = some (unit '0') → digits.length = 1)
    (hrest : ∀ c, rest.head? = some c → isDigit c = false) :
    readWhole (digits ++ rest) = some (digits, rest) := by
  obtain ⟨c, tail, rfl⟩ := List.exists_cons_of_ne_nil h.1
  rw [List.cons_append, readWhole]
  split_ifs with hzero hdigit
  · have htail : tail = [] := by
      subst hzero
      simpa using hleading rfl
    rw [htail, List.nil_append]
  · have htail : ∀ d ∈ tail, isDigit d = true := fun d hd => h.2 d (List.mem_cons_of_mem c hd)
    rw [takeWhile_digits htail hrest, dropWhile_digits htail hrest]
  · exact absurd (h.2 c List.mem_cons_self) hdigit

theorem readFractionPart_none
    (hrest : ∀ c, rest.head? = some c → c ≠ point) :
    readFractionPart rest = some (none, rest) := by
  cases rest with
  | nil => rfl
  | cons c rest => rw [readFractionPart, if_neg (hrest c rfl)]

theorem readFractionPart_some (h : IsDigits digits)
    (hrest : ∀ c, rest.head? = some c → isDigit c = false) :
    readFractionPart (point :: digits ++ rest) = some (some digits, rest) := by
  rw [List.cons_append, readFractionPart, if_pos rfl, takeWhile_digits h.2 hrest,
    dropWhile_digits h.2 hrest, if_neg h.1]

theorem readExponentPart_none
    (hrest : ∀ c, rest.head? = some c → isMarker c = false) :
    readExponentPart rest = some (none, rest) := by
  cases rest with
  | nil => rfl
  | cons c rest =>
      have hc : ¬ isMarker c = true := Bool.not_eq_true _ ▸ hrest c rfl
      rw [readExponentPart, if_neg hc]

theorem isSign_of_isDigit {c : UInt16} (h : isDigit c = true) : isSign c = false := by
  cases hsign : isSign c with
  | false => rfl
  | true =>
      rw [isSign, Bool.or_eq_true, beq_iff_eq, beq_iff_eq] at hsign
      rcases hsign with rfl | rfl
      · exact absurd h (by decide)
      · exact absurd h (by decide)

theorem readSign_append {sign : Option UInt16} (h : IsDigits digits)
    (hsign : ∀ c, sign = some c → isSign c = true) :
    readSign (sign.toList ++ digits ++ rest) = (sign, digits ++ rest) := by
  cases sign with
  | none =>
      obtain ⟨c, tail, rfl⟩ := List.exists_cons_of_ne_nil h.1
      have hc : isSign c = false := isSign_of_isDigit (h.2 c List.mem_cons_self)
      simp [readSign, hc]
  | some c => simp [readSign, hsign c rfl]

theorem readExponentPart_some {e : Exponent} (hmarker : isMarker e.marker = true)
    (hsign : ∀ c, e.sign = some c → isSign c = true) (h : IsDigits e.digits)
    (hrest : ∀ c, rest.head? = some c → isDigit c = false) :
    readExponentPart (e.marker :: (e.sign.toList ++ e.digits) ++ rest) =
      some (some e, rest) := by
  rw [List.cons_append, readExponentPart, if_pos hmarker,
    readSign_append h hsign]
  simp only [takeWhile_digits h.2 hrest, dropWhile_digits h.2 hrest, if_neg h.1]

theorem readExponentPart_text {exponent : Option Exponent}
    (hmarker : ∀ e, exponent = some e → isMarker e.marker = true)
    (hsign : ∀ e c, exponent = some e → e.sign = some c → isSign c = true)
    (h : ∀ e, exponent = some e → IsDigits e.digits) (hrest : EndsNumeral rest) :
    readExponentPart (exponentText exponent ++ rest) = some (exponent, rest) := by
  cases exponent with
  | none => exact readExponentPart_none fun c hc => (hrest c hc).2.2
  | some e =>
      exact readExponentPart_some (hmarker e rfl) (fun c hc => hsign e c rfl hc) (h e rfl)
        fun c hc => (hrest c hc).1

theorem readFractionPart_text {fraction : Option JsString}
    (h : ∀ digits, fraction = some digits → IsDigits digits)
    (hrest : ∀ c, rest.head? = some c → isDigit c = false ∧ c ≠ point) :
    readFractionPart (fractionText fraction ++ rest) = some (fraction, rest) := by
  cases fraction with
  | none => exact readFractionPart_none fun c hc => (hrest c hc).2
  | some digits => exact readFractionPart_some (h digits rfl) fun c hc => (hrest c hc).1

theorem isMarker_spec {c : UInt16} (h : isMarker c = true) :
    isDigit c = false ∧ c ≠ point := by
  rw [isMarker, Bool.or_eq_true, beq_iff_eq, beq_iff_eq] at h
  rcases h with rfl | rfl <;> decide

/-- An exponent does not continue a fraction. -/
theorem exponentText_ends {exponent : Option Exponent}
    (hmarker : ∀ e, exponent = some e → isMarker e.marker = true)
    (hrest : EndsNumeral rest) (c : UInt16)
    (hc : (exponentText exponent ++ rest).head? = some c) :
    isDigit c = false ∧ c ≠ point := by
  cases exponent with
  | none => exact ⟨(hrest c hc).1, (hrest c hc).2.1⟩
  | some e =>
      obtain rfl : e.marker = c := Option.some.inj hc
      exact isMarker_spec (hmarker e rfl)

theorem fractionText_ends {fraction : Option JsString}
    (hrest : ∀ c, rest.head? = some c → isDigit c = false) (c : UInt16)
    (hc : (fractionText fraction ++ rest).head? = some c) : isDigit c = false := by
  cases fraction with
  | none => exact hrest c hc
  | some digits =>
      obtain rfl : point = c := Option.some.inj hc
      rfl

theorem readUnsigned_text {n : Numeral} (h : n.Formed) (hrest : EndsNumeral rest) :
    readUnsigned n.negative
      (n.whole ++ (fractionText n.fraction ++ exponentText n.exponent) ++ rest) =
        some (n, rest) := by
  have hexponent := exponentText_ends h.marker hrest
  have hwhole : readWhole (n.whole ++ (fractionText n.fraction ++
      (exponentText n.exponent ++ rest))) = _ :=
    readWhole_append h.whole h.leading
      (fractionText_ends fun c hc => (hexponent c hc).1)
  rw [List.append_assoc, List.append_assoc, readUnsigned, hwhole, Option.bind_some,
    readFractionPart_text h.fraction hexponent, Option.bind_some,
    readExponentPart_text h.marker h.sign h.exponent hrest]
  rfl

/-- Reading a number gives back the number that was written. -/
theorem readNumeral_text {n : Numeral} (h : n.Formed) (hrest : EndsNumeral rest) :
    readNumeral (n.text ++ rest) = some (n, rest) := by
  have hread := readUnsigned_text h hrest
  rw [Numeral.text]
  cases hnegative : n.negative with
  | true =>
      rw [hnegative] at hread
      simpa [readNumeral] using hread
  | false =>
      rw [hnegative] at hread
      obtain ⟨c, tail, hcons⟩ := List.exists_cons_of_ne_nil h.whole.1
      have hc : c ≠ minus := by
        rintro rfl
        have hdigit := h.whole.2 minus (by rw [hcons]; exact List.mem_cons_self)
        exact absurd hdigit (by decide)
      rw [hcons] at hread ⊢
      simpa [readNumeral, hc] using hread

end Reading

/-! ## Values -/

/-- The rational that a number spells. -/
def Numeral.magnitude (n : Numeral) : ℚ :=
  let fraction := n.fraction.getD []
  let exponent : ℤ :=
    match n.exponent with
    | none => 0
    | some e => if e.sign = some minus then -(readDecimal e.digits : ℤ)
        else readDecimal e.digits
  (readDecimal (n.whole ++ fraction) : ℚ) * 10 ^ (exponent - fraction.length)

def roundHalfEven (q : ℚ) : ℤ :=
  let below := ⌊q⌋
  if q - below < 1 / 2 then below
  else if q - below = 1 / 2 ∧ below % 2 = 0 then below
  else below + 1

/-- The exponent of the last place of a double. -/
def lastPlace (q : ℚ) : ℤ := max (Int.log 2 |q| - 52) (-1074)

/-- The double nearest to a rational, unless it overflows. -/
def nearestDouble (q : ℚ) : Option ℚ :=
  let place : ℚ := 2 ^ lastPlace q
  let rounded := roundHalfEven (q / place) * place
  if |rounded| < 2 ^ 1024 then some rounded else none

theorem roundHalfEven_intCast (n : ℤ) : roundHalfEven n = n := by
  simp [roundHalfEven]

theorem lastPlace_intCast {n : ℤ} (h : |n| < 2 ^ 53) : lastPlace n ≤ 0 := by
  have hlog : Int.log 2 |(n : ℚ)| < 53 := by
    rcases eq_or_ne n 0 with rfl | hne
    · simp
    · have hpos : 0 < |(n : ℚ)| := abs_pos.mpr (Int.cast_ne_zero.mpr hne)
      apply (Int.lt_zpow_iff_log_lt (by omega) hpos).mp
      exact_mod_cast h
  rw [lastPlace, max_le_iff]
  omega

/-- Integers of 53 bits are doubles. -/
theorem nearestDouble_intCast {n : ℤ} (h : |n| < 2 ^ 53) :
    nearestDouble n = some (n : ℚ) := by
  obtain ⟨k, hk⟩ := Int.exists_eq_neg_ofNat (lastPlace_intCast h)
  have hscaled : (n : ℚ) / 2 ^ lastPlace n = ((n * 2 ^ k : ℤ) : ℚ) := by
    rw [hk, zpow_neg, zpow_natCast, div_inv_eq_mul]
    push_cast
    rfl
  have hexact : (roundHalfEven ((n : ℚ) / 2 ^ lastPlace n) : ℚ) * 2 ^ lastPlace n = n := by
    rw [hscaled, roundHalfEven_intCast, ← hscaled]
    exact div_mul_cancel₀ _ (zpow_ne_zero _ two_ne_zero)
  have hbound : |(n : ℚ)| < 2 ^ 1024 := by
    have hsmall : |(n : ℚ)| < 2 ^ 53 := by exact_mod_cast h
    exact hsmall.trans (pow_lt_pow_right₀ one_lt_two (by omega))
  rw [nearestDouble]
  simp only [hexact, if_pos hbound]

/-! ## Integers -/

def integerNumeral (n : ℤ) : Numeral :=
  ⟨decide (n < 0), natText n.natAbs, none, none⟩

theorem integerNumeral_formed (n : ℤ) : (integerNumeral n).Formed where
  whole := ⟨natText_ne_nil _, fun _ => isDigit_natText⟩
  leading := natText_leading n.natAbs
  fraction := by rintro _ ⟨⟩
  marker := by rintro _ ⟨⟩
  sign := by rintro _ _ ⟨⟩
  exponent := by rintro _ ⟨⟩

theorem magnitude_integerNumeral (n : ℤ) :
    (integerNumeral n).magnitude = n.natAbs := by
  simp [Numeral.magnitude, integerNumeral, readDecimal_natText]

/-! ## All digits -/

/-- A dyadic rational with all its digits. -/
def exactNumeral (q : ℚ) : Numeral :=
  if q.den = 1 then integerNumeral q.num
  else
    ⟨decide (q.num < 0), natText (q.num.natAbs * 5 ^ Nat.log 2 q.den), none,
      some ⟨unit 'e', some minus, natText (Nat.log 2 q.den)⟩⟩

theorem exactNumeral_formed (q : ℚ) : (exactNumeral q).Formed := by
  rw [exactNumeral]
  split
  · exact integerNumeral_formed q.num
  · constructor
    · exact ⟨natText_ne_nil _, fun _ => isDigit_natText⟩
    · exact natText_leading _
    · rintro _ ⟨⟩
    · rintro _ ⟨⟩
      rfl
    · rintro _ _ ⟨⟩ ⟨⟩
      rfl
    · rintro _ ⟨⟩
      exact ⟨natText_ne_nil _, fun _ => isDigit_natText⟩

/-- A double is an integer over a power of two. -/
theorem den_of_nearestDouble {q r : ℚ} (h : nearestDouble r = some |q|) :
    ∃ k, q.den = 2 ^ k := by
  obtain ⟨k, w, hk⟩ : ∃ k w : ℕ, lastPlace r = (k : ℤ) - w :=
    ⟨(lastPlace r).toNat, (-lastPlace r).toNat, by omega⟩
  have hmultiple : ∃ n : ℤ, |q| = n * 2 ^ ((k : ℤ) - w) := by
    rw [nearestDouble, Option.ite_none_right_eq_some] at h
    rw [← hk]
    exact ⟨_, (Option.some.inj h.2).symm⟩
  obtain ⟨n, hn⟩ := hmultiple
  have habs : |q| = ((n * 2 ^ k : ℤ) : ℚ) / ((2 ^ w : ℤ) : ℚ) := by
    rw [hn, zpow_sub₀ two_ne_zero, zpow_natCast, zpow_natCast, ← mul_div_assoc]
    push_cast
    rfl
  have hden : (|q|).den = q.den := by
    rcases abs_choice q with habs | habs
    · rw [habs]
    · rw [habs, Rat.neg_den]
  have hdvd : (q.den : ℤ) ∣ 2 ^ w := by
    rw [← hden, habs, ← Rat.divInt_eq_div]
    exact Rat.den_dvd _ _
  have hnat : q.den ∣ 2 ^ w := by
    apply Int.natCast_dvd_natCast.mp
    rw [Nat.cast_pow]
    exact hdvd
  obtain ⟨j, -, hj⟩ := (Nat.dvd_prime_pow Nat.prime_two).mp hnat
  exact ⟨j, hj⟩

theorem magnitude_exactNumeral {q : ℚ} {k : ℕ} (h : q.den = 2 ^ k) :
    (exactNumeral q).magnitude = |q| := by
  have hnum : ((q.num.natAbs : ℕ) : ℚ) = |(q.num : ℚ)| := by
    rw [Nat.cast_natAbs, Int.cast_abs]
  have habs : |q| = |(q.num : ℚ)| / 2 ^ k := by
    conv_lhs => rw [← Rat.num_div_den q, h]
    rw [abs_div, Nat.cast_pow, abs_pow]
    simp
  rw [exactNumeral]
  split_ifs with hone
  · have hpow : (2 : ℚ) ^ k = 1 := by
      rw [hone] at h
      exact_mod_cast h.symm
    rw [magnitude_integerNumeral, hnum, habs, hpow, div_one]
  · have hlog : Nat.log 2 q.den = k := by
      rw [h, Nat.log_pow (Nat.lt_succ_self 1)]
    have hten : (10 : ℚ) ^ k = 5 ^ k * 2 ^ k := by
      rw [← mul_pow]
      norm_num
    rw [hlog, Numeral.magnitude]
    simp only [Option.getD_none, List.append_nil, readDecimal_natText, if_true,
      List.length_nil, Nat.cast_zero, sub_zero, zpow_neg, zpow_natCast]
    rw [Nat.cast_mul, Nat.cast_pow, hnum, habs, hten]
    have hfive : (5 : ℚ) ^ k ≠ 0 := pow_ne_zero _ (by norm_num)
    field_simp
    norm_num

end DrFed
