import Mathlib.Data.Int.Basic
import Mathlib.Data.List.Basic
import Mathlib.Order.Lattice

/-!
# The proleptic Gregorian calendar

Days are counted from 0001-01-01. `civilDate n` is the date of day `n` and `dayNumber` the day of a
date; the first is computed from the 400-year cycle of the calendar downwards, the second by counting
years and months, and they undo each other (`dayNumber_civilDate`). Dates are in the order of their
days (`dayNumber_lt`).
-/

namespace EsLite

/-- A date: year, month from 1 to 12, and day of the month from 1. -/
@[ext] structure CivilDate where
  year : Int
  month : Nat
  day : Nat
deriving DecidableEq

/-- Whether a year has a 29th of February. -/
def isLeap (year : Int) : Bool := year % 4 = 0 && (year % 100 ≠ 0 || year % 400 = 0)

/-- The lengths of the months. -/
def monthLengths (leap : Bool) : List Nat :=
  [31, if leap then 29 else 28, 31, 30, 31, 30, 31, 31, 30, 31, 30, 31]

/-- The number of days in a month. -/
def daysIn (year : Int) (month : Nat) : Nat := ((monthLengths (isLeap year))[month - 1]?).getD 0

/-- The number of days of the year before the first of a month. -/
def daysBeforeMonth (leap : Bool) (month : Nat) : Nat := 
  ((monthLengths leap).take (month - 1)).foldl (· + ·) 0

/-- The number of days before the first of January of a year. -/
def daysBeforeYear (year : Int) : Int :=
  365 * (year - 1) + (year - 1) / 4 - (year - 1) / 100 + (year - 1) / 400

/-- The day of a date. -/
def dayNumber (d : CivilDate) : Int :=
  daysBeforeYear d.year + daysBeforeMonth (isLeap d.year) d.month + d.day - 1

/-- A date that exists. -/
def CivilDate.Valid (d : CivilDate) : Prop :=
  1 ≤ d.month ∧ d.month ≤ 12 ∧ 1 ≤ d.day ∧ d.day ≤ daysIn d.year d.month

/-- The year of day `n`, and the day of that year from 0: whole cycles of 400 years, then centuries,
four-year cycles and years, where the last century and the last year of a cycle take its extra day. -/
def yearDay (n : Int) : Int × Nat :=
  let q400 := n / 146097
  let r400 := n % 146097
  let q100 := min (r400 / 36524) 3
  let r100 := r400 - 36524 * q100
  let q4 := r100 / 1461
  let r4 := r100 % 1461
  let q1 := min (r4 / 365) 3
  (400 * q400 + 100 * q100 + 4 * q4 + q1 + 1, (r4 - 365 * q1).toNat)

/-- The month and the day of the month, from the days left when `month` begins. -/
def monthDay : List Nat → Nat → Nat → Nat × Nat
  | [], month, day => (month, day + 1)
  | len :: lens, month, day =>
    if day < len then (month, day + 1) else monthDay lens (month + 1) (day - len)

/-- The date of day `n`. -/
def civilDate (n : Int) : CivilDate :=
  let (year, day) := yearDay n
  let (month, day) := monthDay (monthLengths (isLeap year)) 1 day
  ⟨year, month, day⟩

/-- The year of a day begins on or before it, and the day belongs to it. -/
theorem yearDay_spec (n : Int) :
    daysBeforeYear (yearDay n).1 + (yearDay n).2 = n ∧
      (yearDay n).2 < if isLeap (yearDay n).1 then 366 else 365 := by
  set q400 := n / 146097 with hq400
  set r400 := n % 146097 with hr400
  set q100 := min (r400 / 36524) 3 with hq100
  set r100 := r400 - 36524 * q100 with hr100
  set q4 := r100 / 1461 with hq4
  set r4 := r100 % 1461 with hr4
  set q1 := min (r4 / 365) 3 with hq1
  have hyear : yearDay n = (400 * q400 + 100 * q100 + 4 * q4 + q1 + 1, (r4 - 365 * q1).toNat) := rfl
  have hn : n = 146097 * q400 + r400 := by omega
  have hr400' : 0 ≤ r400 ∧ r400 < 146097 := by omega
  have hq100' : 0 ≤ q100 ∧ q100 ≤ 3 ∧ 0 ≤ r100 ∧ (q100 < 3 → r100 < 36524) ∧ r100 ≤ 36524 := by omega
  have hr4' : r100 = 1461 * q4 + r4 ∧ 0 ≤ r4 ∧ r4 < 1461 ∧ 0 ≤ q4 ∧ q4 ≤ 24 := by omega
  have hq1' : 0 ≤ q1 ∧ q1 ≤ 3 ∧ 0 ≤ r4 - 365 * q1 ∧ (q1 < 3 → r4 - 365 * q1 < 365) ∧
      r4 - 365 * q1 ≤ 365 := by omega
  rw [hyear]
  clear_value q400 r400 q100 r100 q4 r4 q1
  refine ⟨?_, ?_⟩
  · simp only [daysBeforeYear]
    have h4 : (400 * q400 + 100 * q100 + 4 * q4 + q1 + 1 - 1) / 4 = 100 * q400 + 25 * q100 + q4 := by
      omega
    have h100 : (400 * q400 + 100 * q100 + 4 * q4 + q1 + 1 - 1) / 100 = 4 * q400 + q100 := by omega
    have h400 : (400 * q400 + 100 * q100 + 4 * q4 + q1 + 1 - 1) / 400 = q400 := by omega
    rw [h4, h100, h400, Int.toNat_of_nonneg (by omega)]
    omega
  · -- the 366th day ends a four-year cycle: a leap year, unless it also ends one of the first
    -- three centuries, which have no such day
    by_cases hday : r4 - 365 * q1 = 365
    · have hleap : isLeap (400 * q400 + 100 * q100 + 4 * q4 + q1 + 1) = true := by
        simp only [isLeap, Bool.and_eq_true, Bool.or_eq_true, decide_eq_true_eq]
        omega
      rw [if_pos hleap]
      omega
    · split <;> omega

/-- Counting the months of a year back gives the day of the year. -/
theorem monthDay_spec (leap : Bool) {day : Nat} (h : day < if leap then 366 else 365) :
    1 ≤ (monthDay (monthLengths leap) 1 day).1 ∧ (monthDay (monthLengths leap) 1 day).1 ≤ 12 ∧
      1 ≤ (monthDay (monthLengths leap) 1 day).2 ∧
      (monthDay (monthLengths leap) 1 day).2 ≤
        ((monthLengths leap)[(monthDay (monthLengths leap) 1 day).1 - 1]?).getD 0 ∧
      daysBeforeMonth leap (monthDay (monthLengths leap) 1 day).1 +
        (monthDay (monthLengths leap) 1 day).2 = day + 1 := by
  have h366 : day < 366 := by
    cases leap <;> simp at h <;> omega
  -- every day of both kinds of year
  revert h
  revert h366
  revert leap day
  decide +kernel

/-- Every day has a date. -/
theorem civilDate_valid (n : Int) : (civilDate n).Valid := by
  have h := monthDay_spec _ (yearDay_spec n).2
  exact ⟨h.1, h.2.1, h.2.2.1, h.2.2.2.1⟩

/-- **The date of a day determines the day.** -/
theorem dayNumber_civilDate (n : Int) : dayNumber (civilDate n) = n := by
  have hyear := (yearDay_spec n).1
  have hmonth := (monthDay_spec _ (yearDay_spec n).2).2.2.2.2
  have hcount : ((daysBeforeMonth (isLeap (civilDate n).year) (civilDate n).month : Nat) : Int) +
      (civilDate n).day = (yearDay n).2 + 1 := by exact_mod_cast hmonth
  have hday : (civilDate n).year = (yearDay n).1 := rfl
  rw [dayNumber]
  rw [hday] at hcount ⊢
  omega

/-! ## Order -/

/-- The order of dates: by year, then by month, then by day. -/
def CivilDate.Before (d d' : CivilDate) : Prop :=
  d.year < d'.year ∨ d.year = d'.year ∧ (d.month < d'.month ∨ d.month = d'.month ∧ d.day < d'.day)

/-- Of two things compared by a first field and then by the rest, one is less, or both are the same. -/
theorem lex_trichotomy {α : Type*} [LinearOrder α] (a b : α) {p q r : Prop} (h : a = b → p ∨ q ∨ r) :
    (a < b ∨ a = b ∧ p) ∨ (a = b ∧ q) ∨ (b < a ∨ b = a ∧ r) := by
  rcases lt_trichotomy a b with hlt | heq | hgt
  · exact .inl (.inl hlt)
  · rcases h heq with hp | hq | hr
    · exact .inl (.inr ⟨heq, hp⟩)
    · exact .inr (.inl ⟨heq, hq⟩)
    · exact .inr (.inr (.inr ⟨heq.symm, hr⟩))
  · exact .inr (.inr (.inl hgt))

/-- Two dates are in one order, or the same. -/
theorem CivilDate.before_trichotomy (d d' : CivilDate) : d.Before d' ∨ d = d' ∨ d'.Before d := by
  have h := lex_trichotomy d.year d'.year fun _ => lex_trichotomy d.month d'.month fun _ =>
    lt_trichotomy d.day d'.day
  rwa [CivilDate.ext_iff]

/-- A month ends before the next one begins, and within the year. -/
theorem daysBeforeMonth_add {y : Int} {month : Nat} (h1 : 1 ≤ month) (h12 : month ≤ 12) :
    daysBeforeMonth (isLeap y) month + daysIn y month ≤ (if isLeap y then 366 else 365) ∧
      ∀ later, month < later → later ≤ 12 →
        daysBeforeMonth (isLeap y) month + daysIn y month ≤ daysBeforeMonth (isLeap y) later := by
  have hall : ∀ leap : Bool, ∀ m < 13, 1 ≤ m →
      daysBeforeMonth leap m + ((monthLengths leap)[m - 1]?).getD 0 ≤ (if leap then 366 else 365) ∧
        ∀ later < 13, m < later →
          daysBeforeMonth leap m + ((monthLengths leap)[m - 1]?).getD 0 ≤ daysBeforeMonth leap later := by
    decide
  obtain ⟨hyear, hlater⟩ := hall (isLeap y) month (by omega) h1
  exact ⟨hyear, fun later hlt h12 => hlater later (by omega) hlt⟩

/-- A year ends before a later one begins. -/
theorem daysBeforeYear_add {y y' : Int} (h : y < y') :
    daysBeforeYear y + (if isLeap y then 366 else 365 : Nat) ≤ daysBeforeYear y' := by
  have hmono : daysBeforeYear (y + 1) ≤ daysBeforeYear y' := by
    simp only [daysBeforeYear]
    omega
  have hlen : daysBeforeYear y + (if isLeap y then 366 else 365 : Nat) = daysBeforeYear (y + 1) := by
    simp only [daysBeforeYear, isLeap, Bool.and_eq_true, Bool.or_eq_true, decide_eq_true_eq]
    split <;> omega
  rw [hlen]
  exact hmono

/-- **Earlier dates are earlier days.** -/
theorem dayNumber_lt {d d' : CivilDate} (hd : d.Valid) (hd' : d'.Valid) (h : d.Before d') :
    dayNumber d < dayNumber d' := by
  obtain ⟨hm1, hm12, -, hday⟩ := hd
  obtain ⟨hm1', hm12', hday1', -⟩ := hd'
  obtain ⟨hend, hlater⟩ := daysBeforeMonth_add hm1 hm12 (y := d.year)
  simp only [dayNumber]
  rcases h with hyear | ⟨hyear, hmonth | ⟨hmonth, hday'⟩⟩
  · have := daysBeforeYear_add hyear
    omega
  · have := hlater _ hmonth hm12'
    rw [← hyear]
    omega
  · rw [← hyear, ← hmonth]
    omega

end EsLite
