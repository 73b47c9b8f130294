import DrFed.Js.Decimal
import DrFed.Support.Calendar
import Mathlib.Data.Int.Notation

/-!
# Timestamps

An instant of the database as the text of a cursor, to the microsecond, and
the instant that such a text stands for.
-/

namespace DrFed.Collections

/-- A time of day in UTC. -/
structure Civil where
  date : Calendar.Date
  hour : ℕ
  minute : ℕ
  second : ℕ
  micro : ℕ
  deriving DecidableEq

/-- The microseconds from the first day of year 1 to the epoch. -/
def epoch : ℤ := 719162 * 86400000000

/-- The instant of a time, in microseconds since the epoch. -/
def Civil.instant (c : Civil) : ℤ :=
  ((((Calendar.dayNumber c.date * 24 + c.hour) * 60 + c.minute) * 60 + c.second) * 1000000 +
    c.micro : ℕ) - epoch

def civilOf (t : ℤ) : Civil :=
  let n := (t + epoch).toNat
  ⟨Calendar.dateOf (n / 86400000000), n / 3600000000 % 24, n / 60000000 % 60,
    n / 1000000 % 60, n % 1000000⟩

/-- The instants of the years 1 to 9999. -/
def InYears (t : ℤ) : Prop :=
  0 ≤ t + epoch ∧ t + epoch < Calendar.daysBeforeYear 10000 * 86400000000

instance : DecidablePred InYears := fun _ => inferInstanceAs (Decidable (_ ∧ _))

theorem instant_civilOf {t : ℤ} (h : InYears t) : (civilOf t).instant = t := by
  obtain ⟨hnonneg, -⟩ := h
  rw [Civil.instant, civilOf]
  simp only [Calendar.dayNumber_dateOf]
  omega

/-! ## Texts -/

/-- `to_char` with `YYYY-MM-DD"T"HH24:MI:SS.US"Z"`, at UTC. -/
def toChar (t : ℤ) : JsString :=
  let c := civilOf t
  fixedText 4 c.date.year ++ unit '-' :: (fixedText 2 c.date.month ++ unit '-' ::
    (fixedText 2 c.date.day ++ unit 'T' :: (fixedText 2 c.hour ++ unit ':' ::
      (fixedText 2 c.minute ++ unit ':' :: (fixedText 2 c.second ++ unit '.' ::
        (fixedText 6 c.micro ++ [unit 'Z']))))))

/-- A field of some width, and what follows its separator. -/
def readField (width : ℕ) (text : JsString) : ℕ × JsString :=
  (readDecimal (text.take width), text.drop (width + 1))

/-- The fields of a text in the form of a cursor. -/
def readCivil (text : JsString) : Civil :=
  let year := readField 4 text
  let month := readField 2 year.2
  let day := readField 2 month.2
  let hour := readField 2 day.2
  let minute := readField 2 hour.2
  let second := readField 2 minute.2
  let micro := readField 6 second.2
  ⟨⟨year.1, month.1, day.1⟩, hour.1, minute.1, second.1, micro.1⟩

/-- `/^\d{4}-\d{2}-\d{2}T\d{2}:\d{2}:\d{2}\.\d{6}Z$/u` -/
def matchesTimestamp (text : JsString) : Bool :=
  match readTemplate "0000-00-00T00:00:00.000000Z".toList text with
  | some (_, rest) => rest.isEmpty
  | none => false

/-- `Temporal.Instant.from` takes such a text if its day exists; a leap second
is taken too. -/
def IsInstant (c : Civil) : Prop :=
  (1 ≤ c.date.month ∧ c.date.month ≤ 12) ∧
    (1 ≤ c.date.day ∧
      c.date.day ≤ ((Calendar.monthLengths c.date.year)[c.date.month - 1]?).getD 0) ∧
    c.hour < 24 ∧ c.minute < 60 ∧ c.second ≤ 60

instance : DecidablePred IsInstant := fun _ => inferInstanceAs (Decidable (_ ∧ _))

section Reading

variable {width n : ℕ} (rest : JsString)

theorem readField_fixedText (h : n < 10 ^ width) (c : UInt16) :
    readField width (fixedText width n ++ c :: rest) = (n, rest) := by
  have htake : (fixedText width n ++ c :: rest).take width = fixedText width n := by
    rw [List.take_append_of_le_length (by rw [length_fixedText])]
    exact List.take_of_length_le (by rw [length_fixedText])
  have hdrop : (fixedText width n ++ c :: rest).drop (width + 1) = rest := by
    have hlength : width + 1 = (fixedText width n ++ [c]).length := by
      rw [List.length_append, length_fixedText, List.length_singleton]
    rw [List.append_cons (fixedText width n) c rest, hlength]
    exact List.drop_left
  rw [readField, htake, hdrop, readDecimal_fixedText, Nat.mod_eq_of_lt h]

theorem readTemplate_digits {digits : JsString} (h : ∀ c ∈ digits, isDigit c = true)
    (template : List Char) :
    readTemplate (List.replicate digits.length '0' ++ template) (digits ++ rest) =
      (readTemplate template rest).map fun parts => (digits ++ parts.1, parts.2) := by
  induction digits with
  | nil =>
      rw [List.length_nil, List.replicate_zero, List.nil_append, List.nil_append]
      simp
  | cons c tail ih =>
      rw [List.length_cons, List.replicate_succ, List.cons_append, List.cons_append,
        readTemplate, if_pos rfl, if_pos (h c List.mem_cons_self),
        ih fun d hd => h d (List.mem_cons_of_mem c hd), Option.map_map]
      rfl

theorem readTemplate_fixedText (width n : ℕ) (template : List Char) :
    readTemplate (List.replicate width '0' ++ template) (fixedText width n ++ rest) =
      (readTemplate template rest).map
        fun parts => (fixedText width n ++ parts.1, parts.2) := by
  have hread := readTemplate_digits rest (fun c hc => @isDigit_fixedText width n c hc) template
  rwa [length_fixedText] at hread

theorem readTemplate_literal {t : Char} (ht : t ≠ '0') (template : List Char) :
    readTemplate (t :: template) (unit t :: rest) =
      (readTemplate template rest).map fun parts => (unit t :: parts.1, parts.2) := by
  rw [readTemplate, if_neg ht, if_pos (beq_self_eq_true _)]

end Reading

section Round

variable {t : ℤ}

theorem monthLength_le {year month length : ℕ}
    (h : (Calendar.monthLengths year)[month]? = some length) : length ≤ 31 := by
  have hmem := List.mem_of_getElem? h
  have hall : ∀ n ∈ Calendar.monthLengths year, n ≤ 31 := by
    rw [Calendar.monthLengths]
    split_ifs <;> decide
  exact hall length hmem

theorem isInstant_civilOf (t : ℤ) : IsInstant (civilOf t) := by
  have hexists := Calendar.dateOf_exists ((t + epoch).toNat / 86400000000)
  have hlt : (civilOf t).date.month - 1 < (Calendar.monthLengths (civilOf t).date.year).length := by
    have hmonth := hexists.month.2
    rw [Calendar.monthLengths, civilOf]
    simp only [List.length_cons, List.length_nil]
    omega
  refine ⟨hexists.month, ⟨hexists.day.1, ?_⟩, ?_, ?_, ?_⟩
  · have hday := hexists.day.2 _ (List.getElem?_eq_getElem hlt)
    rw [List.getElem?_eq_getElem hlt]
    exact hday
  · exact Nat.mod_lt _ (by omega)
  · exact Nat.mod_lt _ (by omega)
  · exact (Nat.mod_lt _ (by omega)).le.trans (by omega)

theorem civilOf_lt (h : InYears t) :
    (civilOf t).date.year < 10 ^ 4 ∧ (civilOf t).date.month < 10 ^ 2 ∧
      (civilOf t).date.day < 10 ^ 2 ∧ (civilOf t).hour < 10 ^ 2 ∧
      (civilOf t).minute < 10 ^ 2 ∧ (civilOf t).second < 10 ^ 2 ∧
      (civilOf t).micro < 10 ^ 6 := by
  obtain ⟨⟨-, hmonth⟩, ⟨-, hday⟩, hhour, hminute, hsecond⟩ := isInstant_civilOf t
  have hlength : ((Calendar.monthLengths (civilOf t).date.year)[(civilOf t).date.month - 1]?).getD
      0 ≤ 31 := by
    cases hget : (Calendar.monthLengths (civilOf t).date.year)[(civilOf t).date.month - 1]? with
    | none => exact Nat.zero_le 31
    | some length => exact monthLength_le hget
  have hnumber : (t + epoch).toNat / 86400000000 < Calendar.daysBeforeYear 10000 := by
    obtain ⟨hnonneg, hlt⟩ := h
    omega
  refine ⟨Calendar.year_dateOf_lt hnumber, ?_, ?_, ?_, ?_, ?_, ?_⟩
  · omega
  · omega
  · omega
  · omega
  · omega
  · exact Nat.mod_lt _ (by omega)

/-- A timestamp is what its text stands for. -/
theorem readCivil_toChar (h : InYears t) : readCivil (toChar t) = civilOf t := by
  obtain ⟨hyear, hmonth, hday, hhour, hminute, hsecond, hmicro⟩ := civilOf_lt h
  rw [toChar, readCivil]
  simp only [readField_fixedText _ hyear, readField_fixedText _ hmonth,
    readField_fixedText _ hday, readField_fixedText _ hhour,
    readField_fixedText _ hminute, readField_fixedText _ hsecond,
    readField_fixedText [] hmicro]

theorem matchesTimestamp_toChar (t : ℤ) : matchesTimestamp (toChar t) = true := by
  have htemplate : "0000-00-00T00:00:00.000000Z".toList =
      List.replicate 4 '0' ++ '-' :: (List.replicate 2 '0' ++ '-' ::
        (List.replicate 2 '0' ++ 'T' :: (List.replicate 2 '0' ++ ':' ::
          (List.replicate 2 '0' ++ ':' :: (List.replicate 2 '0' ++ '.' ::
            (List.replicate 6 '0' ++ ['Z'])))))) := by decide
  have hend : readTemplate [] [] = some ([], []) := rfl
  rw [matchesTimestamp, toChar, htemplate]
  simp only [hend, readTemplate_fixedText, readTemplate_literal _ (show '-' ≠ '0' by decide),
    readTemplate_literal _ (show 'T' ≠ '0' by decide),
    readTemplate_literal _ (show ':' ≠ '0' by decide),
    readTemplate_literal _ (show '.' ≠ '0' by decide),
    readTemplate_literal _ (show 'Z' ≠ '0' by decide), Option.map_some,
    List.isEmpty_nil]

end Round

end DrFed.Collections
