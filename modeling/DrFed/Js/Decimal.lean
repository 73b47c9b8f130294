import DrFed.Js.Text
import Mathlib.Tactic.IntervalCases

/-!
# Decimal spellings

Reading the digits that a natural number is written with.
-/

namespace DrFed

def readDecimal (digits : JsString) : ℕ :=
  digits.foldl (fun n c => 10 * n + (c.toNat - 48)) 0

/-- The code unit of a digit. -/
def digitUnit (d : ℕ) : UInt16 := (48 + d).toUInt16

theorem unit_digitChar {d : ℕ} (h : d < 10) :
    unit d.digitChar = digitUnit d := by
  interval_cases d <;> rfl

theorem digitUnit_toNat {d : ℕ} (h : d < 10) : (digitUnit d).toNat = 48 + d := by
  interval_cases d <;> rfl

theorem isDigit_digitUnit {d : ℕ} (h : d < 10) : isDigit (digitUnit d) = true := by
  interval_cases d <;> rfl

theorem readDecimal_concat (digits : JsString) (c : UInt16) :
    readDecimal (digits ++ [c]) = 10 * readDecimal digits + (c.toNat - 48) := by
  simp [readDecimal]

theorem natText_of_lt {n : ℕ} (h : n < 10) : natText n = [digitUnit n] := by
  rw [natText, Nat.toDigits_of_lt_base h, List.map_singleton, unit_digitChar h]

theorem natText_of_le {n : ℕ} (h : 10 ≤ n) :
    natText n = natText (n / 10) ++ [digitUnit (n % 10)] := by
  rw [natText, Nat.toDigits_of_base_le (by omega) h, List.map_append,
    List.map_singleton, unit_digitChar (Nat.mod_lt n (by omega)), natText]

theorem natText_ne_nil (n : ℕ) : natText n ≠ [] := by
  rw [natText, ne_eq, List.map_eq_nil_iff]
  exact Nat.toDigits_ne_nil

/-- Only zero begins with the digit zero. -/
theorem natText_leading (n : ℕ) (h : (natText n).head? = some (unit '0')) :
    (natText n).length = 1 := by
  induction n using Nat.strong_induction_on with
  | _ n ih =>
      rcases Nat.lt_or_ge n 10 with hlt | hle
      · rw [natText_of_lt hlt]
        rfl
      · obtain ⟨c, tail, hcons⟩ := List.exists_cons_of_ne_nil (natText_ne_nil (n / 10))
        have hpos : 0 < n / 10 := Nat.div_pos hle (by omega)
        have hhead : (natText (n / 10)).head? = some (unit '0') := by
          rw [natText_of_le hle, hcons] at h
          rw [hcons]
          exact h
        have hlength := ih (n / 10) (Nat.div_lt_self (by omega) (by omega)) hhead
        rcases Nat.lt_or_ge (n / 10) 10 with hlt' | hle'
        · rw [natText_of_lt hlt'] at hhead
          generalize n / 10 = d at hhead hpos hlt'
          interval_cases d <;> exact absurd hhead (by decide)
        · rw [natText_of_le hle', List.length_append] at hlength
          have hne := List.length_pos_of_ne_nil (natText_ne_nil (n / 10 / 10))
          rw [List.length_singleton] at hlength
          omega

theorem isDigit_natText {n : ℕ} {c : UInt16} (h : c ∈ natText n) :
    isDigit c = true := by
  induction n using Nat.strong_induction_on with
  | _ n ih =>
      rcases Nat.lt_or_ge n 10 with hlt | hle
      · rw [natText_of_lt hlt, List.mem_singleton] at h
        rw [h]
        exact isDigit_digitUnit hlt
      · rw [natText_of_le hle, List.mem_append, List.mem_singleton] at h
        rcases h with h | rfl
        · exact ih (n / 10) (Nat.div_lt_self (by omega) (by omega)) h
        · exact isDigit_digitUnit (Nat.mod_lt n (by omega))

theorem readDecimal_natText (n : ℕ) : readDecimal (natText n) = n := by
  induction n using Nat.strong_induction_on with
  | _ n ih =>
      rcases Nat.lt_or_ge n 10 with hlt | hle
      · rw [natText_of_lt hlt]
        change 10 * 0 + ((digitUnit n).toNat - 48) = n
        rw [digitUnit_toNat hlt]
        omega
      · have hdigit : n % 10 < 10 := Nat.mod_lt n (by omega)
        rw [natText_of_le hle, readDecimal_concat, digitUnit_toNat hdigit,
          ih (n / 10) (Nat.div_lt_self (by omega) (by omega))]
        omega

/-! ## Fixed widths -/

/-- A number in a fixed count of digits. -/
def fixedText : ℕ → ℕ → JsString
  | 0, _ => []
  | width + 1, n => fixedText width (n / 10) ++ [digitUnit (n % 10)]

@[simp] theorem length_fixedText (width n : ℕ) : (fixedText width n).length = width := by
  induction width generalizing n with
  | zero => rfl
  | succ width ih => rw [fixedText, List.length_append, ih, List.length_singleton]

theorem isDigit_fixedText {width n : ℕ} {c : UInt16} (h : c ∈ fixedText width n) :
    isDigit c = true := by
  induction width generalizing n with
  | zero => exact absurd h List.not_mem_nil
  | succ width ih =>
      rw [fixedText, List.mem_append, List.mem_singleton] at h
      rcases h with h | rfl
      · exact ih h
      · exact isDigit_digitUnit (Nat.mod_lt n (by omega))

theorem readDecimal_fixedText (width n : ℕ) :
    readDecimal (fixedText width n) = n % 10 ^ width := by
  induction width generalizing n with
  | zero =>
      rw [fixedText, Nat.pow_zero, Nat.mod_one]
      rfl
  | succ width ih =>
      rw [fixedText, readDecimal_concat, digitUnit_toNat (Nat.mod_lt n (by omega)), ih,
        Nat.add_sub_cancel_left, Nat.pow_succ, Nat.mul_comm (10 ^ width) 10, Nat.mod_mul]
      omega

end DrFed
