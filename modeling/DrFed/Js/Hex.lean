import DrFed.Js.Text
import Mathlib.Tactic.IntervalCases
import Mathlib.Tactic.Ring

/-!
# Hexadecimal spellings

Numbers in a fixed count of hexadecimal digits, and the UUIDs that are spelled
with them.
-/

namespace DrFed

/-! ## Digits -/

/-- The lower-case code unit of a hexadecimal digit. -/
def hexUnit (d : ℕ) : UInt16 :=
  if d < 10 then (48 + d).toUInt16 else (87 + d).toUInt16

/-- The digit that a code unit spells, in either case. -/
def hexDigit? (c : UInt16) : Option ℕ :=
  if unit '0' ≤ c && c ≤ unit '9' then some (c.toNat - 48)
  else if unit 'a' ≤ c && c ≤ unit 'f' then some (c.toNat - 87)
  else if unit 'A' ≤ c && c ≤ unit 'F' then some (c.toNat - 55)
  else none

/-- A number in a fixed count of digits. -/
def hexText : ℕ → ℕ → JsString
  | 0, _ => []
  | width + 1, n => hexText width (n / 16) ++ [hexUnit (n % 16)]

def readHex (digits : JsString) : Option ℕ :=
  digits.foldlM (fun n c => (hexDigit? c).map fun d => 16 * n + d) 0

theorem hexDigit?_hexUnit {d : ℕ} (h : d < 16) : hexDigit? (hexUnit d) = some d := by
  interval_cases d <;> rfl

theorem mem_hexText {width n : ℕ} {c : UInt16} (h : c ∈ hexText width n) :
    ∃ d < 16, c = hexUnit d := by
  induction width generalizing n with
  | zero => exact absurd h List.not_mem_nil
  | succ width ih =>
      rw [hexText, List.mem_append, List.mem_singleton] at h
      rcases h with h | rfl
      · exact ih h
      · exact ⟨n % 16, Nat.mod_lt n (by omega), rfl⟩

theorem readHex_hexText (width n : ℕ) :
    readHex (hexText width n) = some (n % 16 ^ width) := by
  induction width generalizing n with
  | zero =>
      rw [hexText, Nat.pow_zero, Nat.mod_one]
      rfl
  | succ width ih =>
      have hdigit : hexDigit? (hexUnit (n % 16)) = some (n % 16) :=
        hexDigit?_hexUnit (Nat.mod_lt n (by omega))
      have hread := ih (n / 16)
      rw [readHex] at hread
      rw [hexText, readHex, List.foldlM_append, hread]
      simp only [Option.bind_eq_bind, Option.bind_some, List.foldlM_cons,
        List.foldlM_nil, hdigit, Option.map_some, Option.pure_def]
      rw [Nat.pow_succ, Nat.mul_comm (16 ^ width) 16, Nat.mod_mul, Nat.add_comm]

theorem readHex_hexText_of_lt {width n : ℕ} (h : n < 16 ^ width) :
    readHex (hexText width n) = some n := by
  rw [readHex_hexText, Nat.mod_eq_of_lt h]

end DrFed
