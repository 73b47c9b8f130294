import DrFed.Js.Buffer
import DrFed.Js.Syntax

/-!
# Well-formed strings

A string without lone surrogates is what its bytes in UTF-8 spell, and every
JSON text is written as such a string, whatever the strings in it are.
-/

namespace DrFed

def isSurrogate (c : UInt16) : Bool := isHighSurrogate c || isLowSurrogate c

/-- `isWellFormed`: every surrogate is part of a pair. -/
def IsWellFormed : JsString → Prop
  | [] => True
  | [c] => isSurrogate c = false
  | c :: d :: rest =>
      if isHighSurrogate c && isLowSurrogate d then IsWellFormed rest
      else isSurrogate c = false ∧ IsWellFormed (d :: rest)

theorem not_high_of_plain {c : UInt16} (h : isSurrogate c = false) :
    isHighSurrogate c = false := by
  rw [isSurrogate, Bool.or_eq_false_iff] at h
  exact h.1

theorem isWellFormed_cons {c : UInt16} (h : isSurrogate c = false)
    {text : JsString} (htext : IsWellFormed text) :
    IsWellFormed (c :: text) := by
  match text with
  | [] => exact h
  | d :: rest =>
      have hpair : ¬(isHighSurrogate c && isLowSurrogate d) = true := by
        simp [not_high_of_plain h]
      rw [IsWellFormed, if_neg hpair]
      exact ⟨h, htext⟩

theorem isWellFormed_append {a b : JsString} (ha : IsWellFormed a)
    (hb : IsWellFormed b) : IsWellFormed (a ++ b) := by
  induction a using IsWellFormed.induct with
  | case1 => exact hb
  | case2 c => exact isWellFormed_cons ha hb
  | case3 c d rest hpair ih =>
      rw [IsWellFormed, if_pos hpair] at ha
      rw [List.cons_append, List.cons_append, IsWellFormed, if_pos hpair]
      exact ih ha
  | case4 c d rest hpair ih =>
      rw [IsWellFormed, if_neg hpair] at ha
      exact isWellFormed_cons ha.1 (ih ha.2)

theorem isWellFormed_of_plain {text : JsString}
    (h : ∀ c ∈ text, isSurrogate c = false) : IsWellFormed text := by
  induction text with
  | nil => trivial
  | cons c rest ih =>
      apply isWellFormed_cons (h c List.mem_cons_self)
      exact ih fun d hd => h d (List.mem_cons_of_mem c hd)

theorem plain_of_lt {c : UInt16} (h : c < 0xd800) : isSurrogate c = false := by
  have hc : c.toNat < 0xd800 := h
  have hhigh : ¬0xd800 ≤ c := by
    intro hle
    have : 0xd800 ≤ c.toNat := hle
    omega
  have hlow : ¬0xdc00 ≤ c := by
    intro hle
    have : 0xdc00 ≤ c.toNat := hle
    omega
  simp [isSurrogate, isHighSurrogate, isLowSurrogate, hhigh, hlow]

theorem isWellFormed_ascii {text : JsString} (h : IsAscii text) :
    IsWellFormed text := by
  apply isWellFormed_of_plain
  intro c hc
  apply plain_of_lt
  have hascii : c.toNat < 0x80 := h c hc
  show c.toNat < 0xd800
  omega

/-! ## UTF-8 -/

/-- A byte that continues a character. -/
def tailByte (m : ℕ) : UInt8 := (0x80 + m).toUInt8

theorem toNat_tailByte {m : ℕ} (h : m < 64) : (tailByte m).toNat = 0x80 + m := by
  rw [tailByte, Nat.toUInt8, UInt8.toNat_ofNat']
  omega

theorem startByte_two {n : ℕ} (hlower : 2 ≤ n) (hupper : n < 32) :
    startByte (0xc0 + n).toUInt8 = ([], ⟨1, n, 0x80, 0xbf⟩) := by
  interval_cases n <;> rfl

theorem startByte_three {n : ℕ} (h : n < 16) :
    startByte (0xe0 + n).toUInt8 =
      ([], ⟨2, n, if n = 0 then 0xa0 else 0x80,
        if n = 13 then 0x9f else 0xbf⟩) := by
  interval_cases n <;> rfl

theorem startByte_four {n : ℕ} (h : n < 5) :
    startByte (0xf0 + n).toUInt8 =
      ([], ⟨3, n, if n = 0 then 0x90 else 0x80,
        if n = 4 then 0x8f else 0xbf⟩) := by
  interval_cases n <;> rfl

theorem nextByte_tail {state : Utf8State} {m : ℕ} (hm : m < 64)
    (hneeded : state.needed ≠ 0) (hlower : state.lower.toNat ≤ 0x80 + m)
    (hupper : 0x80 + m ≤ state.upper.toNat) :
    nextByte state (tailByte m) =
      if state.needed = 1 then (codeUnits (64 * state.codePoint + m), .start)
      else ([], ⟨state.needed - 1, 64 * state.codePoint + m, 0x80, 0xbf⟩) := by
  have hbyte := toNat_tailByte hm
  have hbounds : (state.lower ≤ tailByte m && tailByte m ≤ state.upper) =
      true := by
    rw [Bool.and_eq_true, decide_eq_true_eq, decide_eq_true_eq]
    constructor
    · show state.lower.toNat ≤ (tailByte m).toNat
      omega
    · show (tailByte m).toNat ≤ state.upper.toNat
      omega
  have hdigits : (tailByte m).toNat % 64 = m := by omega
  rw [nextByte, if_neg hneeded, if_pos hbounds, hdigits]

/-- The last byte of a character. -/
theorem decodeBytes_last {state : Utf8State} {m : ℕ} (hm : m < 64)
    (hneeded : state.needed = 1) (hlower : state.lower.toNat ≤ 0x80 + m)
    (hupper : 0x80 + m ≤ state.upper.toNat) (rest : List UInt8) :
    decodeBytes state (tailByte m :: rest) =
      codeUnits (64 * state.codePoint + m) ++ decodeBytes .start rest := by
  rw [decodeBytes, nextByte_tail hm (by omega) hlower hupper, if_pos hneeded]

/-- A byte between the first and the last one. -/
theorem decodeBytes_tail {state : Utf8State} {m : ℕ} (hm : m < 64)
    (hneeded : 1 < state.needed) (hlower : state.lower.toNat ≤ 0x80 + m)
    (hupper : 0x80 + m ≤ state.upper.toNat) (rest : List UInt8) :
    decodeBytes state (tailByte m :: rest) =
      decodeBytes ⟨state.needed - 1, 64 * state.codePoint + m, 0x80, 0xbf⟩
        rest := by
  rw [decodeBytes, nextByte_tail hm (by omega) hlower hupper,
    if_neg (by omega), List.nil_append]

theorem decodeBytes_first {b : UInt8} {state : Utf8State}
    (h : startByte b = ([], state)) (rest : List UInt8) :
    decodeBytes .start (b :: rest) = decodeBytes state rest := by
  rw [decodeBytes, nextByte, if_pos (show Utf8State.start.needed = 0 from rfl),
    h, List.nil_append]

theorem codeUnits_unit (c : UInt16) : codeUnits c.toNat = [c] := by
  rw [codeUnits, if_pos c.toNat_lt]
  exact congrArg (fun d => [d]) UInt16.ofNat_toNat

theorem decodeBytes_unitBytes {c : UInt16} (h : isSurrogate c = false)
    (rest : List UInt8) :
    decodeBytes .start (unitBytes c ++ rest) =
      c :: decodeBytes .start rest := by
  have hlt := c.toNat_lt
  have hunit : ∀ n, n = c.toNat →
      codeUnits n ++ decodeBytes .start rest = c :: decodeBytes .start rest := by
    rintro n rfl
    rw [codeUnits_unit, List.singleton_append]
  rw [unitBytes]
  split_ifs with hone htwo hsurrogate
  · have hc : c < 0x80 := hone
    obtain ⟨hascii, hback⟩ := toUInt8_ascii hc
    have hfirst : startByte c.toNat.toUInt8 = ([c], .start) := by
      rw [show c.toNat.toUInt8 = c.toUInt8 from rfl, startByte, if_pos hascii,
        hback]
    rw [List.singleton_append, decodeBytes, nextByte,
      if_pos (show Utf8State.start.needed = 0 from rfl), hfirst,
      List.singleton_append]
  · show decodeBytes .start (_ :: tailByte (c.toNat % 64) :: rest) = _
    rw [decodeBytes_first (startByte_two (by omega) (by omega)),
      decodeBytes_last (by omega) rfl (by simp) (by simp; omega)]
    apply hunit
    dsimp only
    omega
  · rw [isSurrogate] at h
    rw [h] at hsurrogate
    cases hsurrogate
  · have hplain : ¬(0xd800 ≤ c.toNat ∧ c.toNat ≤ 0xdfff) := by
      rintro ⟨hlower, hupper⟩
      apply hsurrogate
      rw [Bool.or_eq_true]
      by_cases hhigh : c.toNat ≤ 0xdbff
      · left
        rw [isHighSurrogate, Bool.and_eq_true, decide_eq_true_eq,
          decide_eq_true_eq]
        exact ⟨hlower, hhigh⟩
      · right
        rw [isLowSurrogate, Bool.and_eq_true, decide_eq_true_eq,
          decide_eq_true_eq]
        refine ⟨?_, hupper⟩
        show 0xdc00 ≤ c.toNat
        omega
    show decodeBytes .start (_ :: tailByte (c.toNat / 64 % 64) ::
      tailByte (c.toNat % 64) :: rest) = _
    rw [decodeBytes_first (startByte_three (by omega)),
      decodeBytes_tail (by omega) (by simp) (by split_ifs <;> simp <;> omega)
        (by split_ifs <;> simp <;> omega),
      decodeBytes_last (by omega) (by simp) (by simp) (by simp; omega)]
    apply hunit
    dsimp only
    omega

theorem decodeBytes_pairBytes {c d : UInt16} (hc : isHighSurrogate c = true)
    (hd : isLowSurrogate d = true) (rest : List UInt8) :
    decodeBytes .start (pairBytes c d ++ rest) =
      c :: d :: decodeBytes .start rest := by
  rw [isHighSurrogate, Bool.and_eq_true, decide_eq_true_eq,
    decide_eq_true_eq] at hc
  rw [isLowSurrogate, Bool.and_eq_true, decide_eq_true_eq,
    decide_eq_true_eq] at hd
  have hcLower : 0xd800 ≤ c.toNat := hc.1
  have hcUpper : c.toNat ≤ 0xdbff := hc.2
  have hdLower : 0xdc00 ≤ d.toNat := hd.1
  have hdUpper : d.toNat ≤ 0xdfff := hd.2
  rw [pairBytes]
  generalize hn :
    0x10000 + (c.toNat - 0xd800) * 1024 + (d.toNat - 0xdc00) = n
  show decodeBytes .start (_ :: tailByte (n / 4096 % 64) ::
    tailByte (n / 64 % 64) :: tailByte (n % 64) :: rest) = _
  rw [decodeBytes_first (startByte_four (by omega)),
    decodeBytes_tail (by omega) (by simp) (by split_ifs <;> simp <;> omega)
      (by split_ifs <;> simp <;> omega),
    decodeBytes_tail (by omega) (by simp) (by simp) (by simp; omega),
    decodeBytes_last (by omega) (by simp) (by simp) (by simp; omega)]
  have hpoint : 64 * (64 * (64 * (n / 262144) + n / 4096 % 64) +
      n / 64 % 64) + n % 64 = n := by omega
  have hhigh : 0xd800 + (n - 0x10000) / 1024 = c.toNat := by omega
  have hlow : 0xdc00 + (n - 0x10000) % 1024 = d.toNat := by omega
  dsimp only
  rw [hpoint, codeUnits, if_neg (by omega), hhigh, hlow]
  exact congrArg₂ (fun x y => x :: y :: decodeBytes .start rest)
    UInt16.ofNat_toNat UInt16.ofNat_toNat

/-- A well-formed string survives UTF-8. -/
theorem decodeUtf8_encodeUtf8_of_wellFormed {text : JsString}
    (h : IsWellFormed text) : decodeUtf8 (encodeUtf8 text) = text := by
  have hrun : ∀ rest, decodeBytes .start (encodeUtf8 text ++ rest) =
      text ++ decodeBytes .start rest := by
    induction text using encodeUtf8.induct with
    | case1 => exact fun rest => rfl
    | case2 c => exact decodeBytes_unitBytes h
    | case3 c d tail hpair ih =>
        rw [IsWellFormed, if_pos hpair] at h
        rw [Bool.and_eq_true] at hpair
        intro rest
        rw [encodeUtf8, if_pos (by rw [hpair.1, hpair.2]; rfl),
          List.append_assoc, decodeBytes_pairBytes hpair.1 hpair.2, ih h]
        rfl
    | case4 c d tail hpair ih =>
        rw [IsWellFormed, if_neg hpair] at h
        intro rest
        rw [encodeUtf8, if_neg hpair, List.append_assoc,
          decodeBytes_unitBytes h.1, ih h.2]
        rfl
  have hnil := hrun []
  rw [List.append_nil] at hnil
  rw [decodeUtf8, hnil]
  exact List.append_nil text

theorem encodeUtf8_injective {a b : JsString} (ha : IsWellFormed a)
    (hb : IsWellFormed b) (h : encodeUtf8 a = encodeUtf8 b) : a = b := by
  rw [← decodeUtf8_encodeUtf8_of_wellFormed ha, h,
    decodeUtf8_encodeUtf8_of_wellFormed hb]

/-! ## JSON texts -/

theorem plain_escapeLetter {c letter : UInt16}
    (h : escapeLetter c = some letter) : isSurrogate letter = false := by
  unfold escapeLetter at h
  split_ifs at h
  all_goals
    obtain rfl := Option.some.inj h
    decide

theorem plain_hexUnit {d : ℕ} (h : d < 16) :
    isSurrogate (hexUnit d) = false := by
  interval_cases d <;> decide

theorem isWellFormed_quoteUnit (c : UInt16) : IsWellFormed (quoteUnit c) := by
  unfold quoteUnit
  split
  next letter hletter =>
    apply isWellFormed_cons (by decide)
    exact plain_escapeLetter hletter
  next =>
    split
    next =>
      apply isWellFormed_cons (by decide)
      apply isWellFormed_cons (by decide)
      apply isWellFormed_of_plain
      intro d hd
      obtain ⟨digit, hdigit, rfl⟩ := mem_hexText hd
      exact plain_hexUnit hdigit
    next hplain =>
      rw [Bool.or_assoc, Bool.or_eq_true, not_or, Bool.not_eq_true] at hplain
      exact (Bool.not_eq_true _).mp hplain.2

theorem isWellFormed_quoteUnits (text : JsString) :
    IsWellFormed (quoteUnits text) := by
  induction text using quoteUnits.induct with
  | case1 => trivial
  | case2 c => exact isWellFormed_quoteUnit c
  | case3 c d rest hpair ih =>
      rw [quoteUnits, if_pos hpair, IsWellFormed, if_pos hpair]
      exact ih
  | case4 c d rest hpair ih =>
      rw [quoteUnits, if_neg hpair]
      exact isWellFormed_append (isWellFormed_quoteUnit c) ih

theorem isWellFormed_quote (text : JsString) : IsWellFormed (quote text) := by
  apply isWellFormed_cons (by decide)
  apply isWellFormed_append (isWellFormed_quoteUnits text)
  exact isWellFormed_cons (by decide) trivial

theorem plain_digit {c : UInt16} (h : isDigit c = true) :
    isSurrogate c = false := by
  rw [isDigit, Bool.and_eq_true, decide_eq_true_eq, decide_eq_true_eq] at h
  have hupper : c.toNat ≤ (unit '9').toNat := h.2
  have hnine : (unit '9').toNat = 57 := rfl
  apply plain_of_lt
  show c.toNat < 0xd800
  omega

theorem IsDigits.isWellFormed {digits : JsString} (h : IsDigits digits) :
    IsWellFormed digits :=
  isWellFormed_of_plain fun c hc => plain_digit (h.2 c hc)

theorem plain_marker {c : UInt16} (h : isMarker c = true) :
    isSurrogate c = false := by
  rw [isMarker, Bool.or_eq_true, beq_iff_eq, beq_iff_eq] at h
  rcases h with rfl | rfl
  all_goals decide

theorem plain_sign {c : UInt16} (h : isSign c = true) :
    isSurrogate c = false := by
  rw [isSign, Bool.or_eq_true, beq_iff_eq, beq_iff_eq] at h
  rcases h with rfl | rfl
  all_goals decide

theorem Numeral.Formed.isWellFormed {n : Numeral} (h : n.Formed) :
    IsWellFormed n.text := by
  have hsign : IsWellFormed (if n.negative then [minus] else []) := by
    split
    · exact isWellFormed_cons (by decide) trivial
    · trivial
  have hfraction : IsWellFormed (fractionText n.fraction) := by
    match heq : n.fraction with
    | none => trivial
    | some digits =>
        exact isWellFormed_cons (by decide) (h.fraction digits heq).isWellFormed
  have hexponent : IsWellFormed (exponentText n.exponent) := by
    match heq : n.exponent with
    | none => trivial
    | some e =>
        apply isWellFormed_cons (plain_marker (h.marker e heq))
        apply isWellFormed_append _ (h.exponent e heq).isWellFormed
        match hsome : e.sign with
        | none => trivial
        | some c => exact plain_sign (h.sign e c heq hsome)
  apply isWellFormed_append hsign
  apply isWellFormed_append h.whole.isWellFormed
  exact isWellFormed_append hfraction hexponent

namespace JsonText

mutual

/-- A JSON text is written as a well-formed string. -/
theorem isWellFormed_write : (t : JsonText) → t.Formed → IsWellFormed t.write
  | .null, _ => isWellFormed_ascii (by decide)
  | .bool true, _ => isWellFormed_ascii (by decide)
  | .bool false, _ => isWellFormed_ascii (by decide)
  | .num _, h => Numeral.Formed.isWellFormed h
  | .str text, _ => isWellFormed_quote text
  | .arr [], _ => isWellFormed_ascii (by decide)
  | .arr (item :: rest), h =>
      isWellFormed_cons (by decide) (isWellFormed_append
        (isWellFormed_write item h.1) (isWellFormed_writeItems rest h.2))
  | .obj [], _ => isWellFormed_ascii (by decide)
  | .obj (member :: rest), h =>
      isWellFormed_cons (by decide) (isWellFormed_append
        (isWellFormed_quote member.1) (isWellFormed_cons (by decide)
          (isWellFormed_append (isWellFormed_write member.2 h.1)
            (isWellFormed_writeMembers rest h.2))))

theorem isWellFormed_writeItems : (items : List JsonText) →
    FormedItems items → IsWellFormed (writeItems items)
  | [], _ => isWellFormed_ascii (by decide)
  | item :: rest, h =>
      isWellFormed_cons (by decide) (isWellFormed_append
        (isWellFormed_write item h.1) (isWellFormed_writeItems rest h.2))

theorem isWellFormed_writeMembers : (members : List (JsString × JsonText)) →
    FormedMembers members → IsWellFormed (writeMembers members)
  | [], _ => isWellFormed_ascii (by decide)
  | member :: rest, h =>
      isWellFormed_cons (by decide) (isWellFormed_append
        (isWellFormed_quote member.1) (isWellFormed_cons (by decide)
          (isWellFormed_append (isWellFormed_write member.2 h.1)
            (isWellFormed_writeMembers rest h.2))))

end

end JsonText

end DrFed
