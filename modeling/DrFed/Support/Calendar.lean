import Mathlib

/-!
# The calendar

Days of the Gregorian calendar from the first day of year 1 on, as a year, a
month and a day.
-/

namespace DrFed.Calendar

def isLeap (year : ℕ) : Bool :=
  year % 4 == 0 && (year % 100 != 0 || year % 400 == 0)

def monthLengths (year : ℕ) : List ℕ :=
  [31, if isLeap year then 29 else 28, 31, 30, 31, 30, 31, 31, 30, 31, 30, 31]

/-- The days before the first day of a year. -/
def daysBeforeYear (year : ℕ) : ℕ :=
  365 * (year - 1) + (year - 1) / 4 - (year - 1) / 100 + (year - 1) / 400

structure Date where
  year : ℕ
  month : ℕ
  day : ℕ
  deriving DecidableEq

/-- The days that exist. -/
structure Date.Exists (date : Date) : Prop where
  year : 1 ≤ date.year
  month : 1 ≤ date.month ∧ date.month ≤ 12
  day : 1 ≤ date.day ∧ ∀ length,
    (monthLengths date.year)[date.month - 1]? = some length → date.day ≤ length

/-- The number of a day, from 0 on. -/
def dayNumber (date : Date) : ℕ :=
  daysBeforeYear date.year + ((monthLengths date.year).take (date.month - 1)).sum +
    (date.day - 1)

/-- The part of a list of lengths that an offset falls into, and the offset in
that part. -/
def splitOffset : List ℕ → ℕ → ℕ × ℕ
  | [], offset => (0, offset)
  | length :: rest, offset =>
      if offset < length then (0, offset)
      else ((splitOffset rest (offset - length)).1 + 1, (splitOffset rest (offset - length)).2)

/-- The year of a day, and the offset of the day in the year. -/
def splitYear (number : ℕ) : ℕ × ℕ :=
  let century := min (number % 146097 / 36524) 3
  let inCentury := number % 146097 - 36524 * century
  let year := min (inCentury % 1461 / 365) 3
  (400 * (number / 146097) + 100 * century + 4 * (inCentury / 1461) + year + 1,
    inCentury % 1461 - 365 * year)

def dateOf (number : ℕ) : Date :=
  let year := (splitYear number).1
  let split := splitOffset (monthLengths year) (splitYear number).2
  ⟨year, split.1 + 1, split.2 + 1⟩

/-! ## Dates and numbers -/

theorem splitOffset_spec {lengths : List ℕ} {offset : ℕ} (h : offset < lengths.sum) :
    ∃ length, lengths[(splitOffset lengths offset).1]? = some length ∧
      (splitOffset lengths offset).2 < length ∧
      (lengths.take (splitOffset lengths offset).1).sum + (splitOffset lengths offset).2 =
        offset := by
  induction lengths generalizing offset with
  | nil => exact absurd h (Nat.not_lt_zero _)
  | cons length rest ih =>
      rw [splitOffset]
      split_ifs with hlt
      · exact ⟨length, rfl, hlt, Nat.zero_add _⟩
      · rw [List.sum_cons] at h
        obtain ⟨found, hget, hbound, hsum⟩ := ih (show offset - length < rest.sum by omega)
        refine ⟨found, hget, hbound, ?_⟩
        rw [List.take_succ_cons, List.sum_cons]
        omega

theorem sum_monthLengths (year : ℕ) :
    (monthLengths year).sum = if isLeap year then 366 else 365 := by
  rw [monthLengths]
  split_ifs <;> rfl

/-- A year by its place in the cycles of 400, 100 and 4 years. -/
theorem daysBeforeYear_cycles {a b c d : ℕ} (hb : b ≤ 3) (hc : c ≤ 24) (hd : d ≤ 3) :
    daysBeforeYear (400 * a + 100 * b + 4 * c + d + 1) =
      146097 * a + 36524 * b + 1461 * c + 365 * d := by
  have hfour : (400 * a + 100 * b + 4 * c + d) / 4 = 100 * a + 25 * b + c := by omega
  have hcentury : (400 * a + 100 * b + 4 * c + d) / 100 = 4 * a + b := by omega
  have hcycle : (400 * a + 100 * b + 4 * c + d) / 400 = a := by omega
  rw [daysBeforeYear, Nat.add_sub_cancel, hfour, hcentury, hcycle]
  omega

theorem isLeap_cycles {a b c d : ℕ} (hc : c ≤ 24) (hd : d = 3)
    (h : c ≠ 24 ∨ b = 3) : isLeap (400 * a + 100 * b + 4 * c + d + 1) = true := by
  rw [isLeap, Bool.and_eq_true, Bool.or_eq_true, beq_iff_eq, bne_iff_ne, beq_iff_eq]
  omega

theorem splitYear_spec (number : ℕ) :
    1 ≤ (splitYear number).1 ∧
      daysBeforeYear (splitYear number).1 + (splitYear number).2 = number ∧
      (splitYear number).2 < if isLeap (splitYear number).1 then 366 else 365 := by
  rw [splitYear]
  simp only
  generalize hb : min (number % 146097 / 36524) 3 = b
  generalize hs : number % 146097 - 36524 * b = inCentury
  generalize hd : min (inCentury % 1461 / 365) 3 = d
  have hb3 : b ≤ 3 := by omega
  have hc24 : inCentury / 1461 ≤ 24 := by omega
  have hd3 : d ≤ 3 := by omega
  refine ⟨by omega, ?_, ?_⟩
  · rw [daysBeforeYear_cycles hb3 hc24 hd3]
    omega
  · -- only the last year of four has a 366th day, unless it ends a century
    by_cases hlast : d = 3 ∧ (inCentury / 1461 ≠ 24 ∨ b = 3)
    · rw [if_pos (isLeap_cycles hc24 hlast.1 hlast.2)]
      omega
    · have hoffset : inCentury % 1461 - 365 * d < 365 := by omega
      split_ifs <;> omega

theorem daysBeforeYear_mono {year other : ℕ} (h : year ≤ other) :
    daysBeforeYear year ≤ daysBeforeYear other := by
  induction h with
  | refl => exact Nat.le_refl _
  | @step other _ ih =>
      refine Nat.le_trans ih ?_
      rw [daysBeforeYear, daysBeforeYear, Nat.succ_sub_one]
      omega

theorem year_dateOf_lt {number year : ℕ} (h : number < daysBeforeYear year) :
    (dateOf number).year < year := by
  obtain ⟨-, hnumber, -⟩ := splitYear_spec number
  by_contra hge
  have hmono : daysBeforeYear year ≤ daysBeforeYear (splitYear number).1 :=
    daysBeforeYear_mono (Nat.le_of_not_lt hge)
  omega

theorem dayNumber_dateOf (number : ℕ) : dayNumber (dateOf number) = number := by
  obtain ⟨-, hnumber, hoffset⟩ := splitYear_spec number
  rw [← sum_monthLengths] at hoffset
  obtain ⟨length, -, -, hsum⟩ := splitOffset_spec hoffset
  rw [dayNumber, dateOf]
  simp only [Nat.add_sub_cancel]
  omega

theorem dateOf_exists (number : ℕ) : (dateOf number).Exists := by
  obtain ⟨hyear, -, hoffset⟩ := splitYear_spec number
  rw [← sum_monthLengths] at hoffset
  obtain ⟨length, hget, hbound, -⟩ := splitOffset_spec hoffset
  have hmonth := (List.getElem?_eq_some_iff.mp hget).1
  constructor
  · exact hyear
  · rw [monthLengths, List.length_cons] at hmonth
    exact ⟨Nat.le_add_left 1 _, hmonth⟩
  · refine ⟨Nat.le_add_left 1 _, ?_⟩
    intro other hother
    rw [dateOf] at hother ⊢
    simp only [Nat.add_sub_cancel] at hother ⊢
    obtain rfl : length = other := Option.some.inj (hget.symm.trans hother)
    exact hbound

end DrFed.Calendar
