import EsLite.Foundation.Calendar
import EsLite.Foundation.Decimal
import EsLite.Es.Hash

/-!
# The text of a timestamp column

Timestamps are stored with the layout `2006-01-02T15:04:05.000000000Z`. Writing follows `time.Format`,
which writes a year of any size, and reading follows `time.Parse`, which takes a year of four digits.
So a timestamp is read back exactly when its year has four digits (`parseTS_formatTS`,
`parseTS_formatTS_eq_none`). The texts of such timestamps are in the order of time (`lexLt_formatTS`);
that of a later year is in the place of its first four digits (`lexLt_formatTS_long`).
-/

namespace EsLite

/-! ## The date and the time of day of an instant -/

namespace Time

/-- The day of an instant, counted from 0001-01-01; the epoch is day 719162. -/
def day (t : Time) : Int := t.ns / 86400000000000 + 719162

/-- The date of an instant in UTC. -/
def date (t : Time) : CivilDate := civilDate t.day

/-- The nanoseconds since midnight. -/
def nanosOfDay (t : Time) : Nat := (t.ns % 86400000000000).toNat

def hour (t : Time) : Nat := t.nanosOfDay / 3600000000000

def minute (t : Time) : Nat := t.nanosOfDay / 60000000000 % 60

def second (t : Time) : Nat := t.nanosOfDay / 1000000000 % 60

def nanosecond (t : Time) : Nat := t.nanosOfDay % 1000000000

/-- `time.Date` in UTC. -/
def ofDate (d : CivilDate) (hour minute second nanosecond : Nat) : Time :=
  ⟨(dayNumber d - 719162) * 86400000000000 +
    (((hour * 60 + minute) * 60 + second) * 1000000000 + nanosecond : Nat)⟩

/-- The date and the time of day determine the instant. -/
theorem ofDate_date (t : Time) : ofDate t.date t.hour t.minute t.second t.nanosecond = t := by
  ext
  have hclock : ((t.hour * 60 + t.minute) * 60 + t.second) * 1000000000 + t.nanosecond =
      t.nanosOfDay := by
    simp only [hour, minute, second, nanosecond]
    omega
  have hnanos : (t.nanosOfDay : Int) = t.ns % 86400000000000 := by
    simp only [nanosOfDay]
    omega
  simp only [ofDate]
  rw [hclock, hnanos, show t.date = civilDate t.day from rfl, dayNumber_civilDate, day]
  omega

theorem hour_lt (t : Time) : t.hour < 24 := by
  simp only [hour, nanosOfDay]
  omega

theorem minute_lt (t : Time) : t.minute < 60 := Nat.mod_lt _ (by decide)

theorem second_lt (t : Time) : t.second < 60 := Nat.mod_lt _ (by decide)

theorem nanosecond_lt (t : Time) : t.nanosecond < 10 ^ 9 := Nat.mod_lt _ (by decide)

/-- Truncation to microseconds stays within the day. -/
@[simp] theorem date_truncateMicros (t : Time) : (truncateMicros t).date = t.date := by
  have hday : (truncateMicros t).day = t.day := by
    simp only [day, truncateMicros]
    omega
  rw [date, hday, date]

end Time

variable {t u : Time}

namespace Sqlite

/-! ## Writing -/

/-- An integer in decimal with at least `width` digits, after its sign. -/
def appendInt (width : Nat) (x : Int) : Bytes :=
  if x < 0 then 45 :: padded width x.natAbs else padded width x.natAbs

/-- `t.UTC().Format(tsLayout)`. -/
def formatTS (t : Time) : Bytes :=
  appendInt 4 t.date.year ++ 45 ::                  -- 2006-
    (appendInt 2 t.date.month ++ 45 ::              -- 01-
    (appendInt 2 t.date.day ++ 84 ::                -- 02T
    (appendInt 2 t.hour ++ 58 ::                    -- 15:
    (appendInt 2 t.minute ++ 58 ::                  -- 04:
    (appendInt 2 t.second ++ 46 ::                  -- 05.
    (digits 9 t.nanosecond ++ [90]))))))            -- 000000000Z

/-! ## Reading -/

/-- Skip a literal byte of the layout. -/
def skip (c : UInt8) : Bytes → Option Bytes
  | [] => none
  | b :: s => if b = c then some s else none

/-- The four digits of a year. -/
def getYear (s : Bytes) : Option (Nat × Bytes) :=
  if 4 ≤ s.length then (decimalValue (s.take 4)).map (·, s.drop 4) else none

/-- A number of two digits, or of one where the field is not `fixed`. -/
def getnum (fixed : Bool) : Bytes → Option (Nat × Bytes)
  | [] => none
  | [a] => if isDigit a && !fixed then some (digitValue a, []) else none
  | a :: b :: s =>
    if isDigit a then
      if isDigit b then some (10 * digitValue a + digitValue b, s)
      else if fixed then none else some (digitValue a, b :: s)
    else none

/-- A numeral with an optional sign. -/
def atoi : Bytes → Option Int
  | [] => some 0
  | b :: s =>
    if b = 45 then (decimalValue s).map (fun n => -(n : Int))
    else if b = 43 then (decimalValue s).map (fun n => (n : Int))
    else (decimalValue (b :: s)).map (fun n => (n : Int))

/-- A point or a comma and nine bytes of a fraction. -/
def parseNanoseconds : Bytes → Option (Nat × Bytes)
  | [] => none
  | b :: s =>
    if (b = 46 ∨ b = 44) ∧ 9 ≤ s.length then
      match atoi (s.take 9) with
      | none => none
      | some ns => if ns < 0 then none else some (ns.toNat, s.drop 9)
    else none

/-- `time.Parse(tsLayout, s)`. -/
def parseTS (s : Bytes) : Option Time := do
  let (year, s) ← getYear s
  let s ← skip 45 s
  let (month, s) ← getnum true s
  guard (1 ≤ month ∧ month ≤ 12)
  let s ← skip 45 s
  let (day, s) ← getnum true s
  let s ← skip 84 s
  let (hour, s) ← getnum false s
  guard (hour < 24)
  let s ← skip 58 s
  let (minute, s) ← getnum true s
  guard (minute < 60)
  let s ← skip 58 s
  let (second, s) ← getnum true s
  guard (second < 60)
  let (nanosecond, s) ← parseNanoseconds s
  let s ← skip 90 s
  guard (s = [])
  guard (1 ≤ day ∧ day ≤ daysIn year month)
  return Time.ofDate ⟨year, month, day⟩ hour minute second nanosecond

/-! ## Reading back what was written -/

theorem appendInt_natCast {width n : Nat} (hw : width ≠ 0) (hn : n < 10 ^ width) :
    appendInt width (n : Int) = digits width n := by
  rw [appendInt, if_neg (by omega), Int.natAbs_natCast, padded_eq_digits hw hn]

@[simp] theorem skip_cons (c : UInt8) (s : Bytes) : skip c (c :: s) = some s := if_pos rfl

theorem getYear_digits {n : Nat} (hn : n < 10 ^ 4) (s : Bytes) :
    getYear (digits 4 n ++ s) = some (n, s) := by
  have hlen : (digits 4 n).length = 4 := length_digits 4 n
  rw [getYear, if_pos (by simp), List.take_left' hlen, List.drop_left' hlen, decimalValue_digits hn]
  rfl

theorem getnum_digits {n : Nat} (hn : n < 10 ^ 2) (fixed : Bool) (s : Bytes) :
    getnum fixed (digits 2 n ++ s) = some (n, s) := by
  have hdigits : digits 2 n = [digit (n / 10), digit n] := rfl
  rw [hdigits, List.cons_append, List.cons_append, List.nil_append, getnum, if_pos (isDigit_digit _),
    if_pos (isDigit_digit _), digitValue_digit, digitValue_digit]
  congr 2
  omega

theorem atoi_digits {w n : Nat} (hw : w ≠ 0) (hn : n < 10 ^ w) : atoi (digits w n) = some (n : Int) := by
  have hread := decimalValue_digits hn
  have hall : ∀ b ∈ digits w n, isDigit b = true := fun b => isDigit_of_mem_digits
  cases hd : digits w n with
  | nil =>
    have := length_digits w n
    rw [hd] at this
    exact absurd this.symm hw
  | cons b s =>
    rw [hd] at hread hall
    have hb := hall b List.mem_cons_self
    -- a digit is no sign
    have hminus : b ≠ 45 := fun h => absurd (h ▸ hb) (by decide)
    have hplus : b ≠ 43 := fun h => absurd (h ▸ hb) (by decide)
    rw [atoi, if_neg hminus, if_neg hplus, hread]
    rfl

theorem parseNanoseconds_digits {n : Nat} (hn : n < 10 ^ 9) (s : Bytes) :
    parseNanoseconds (46 :: (digits 9 n ++ s)) = some (n, s) := by
  have hlen : (digits 9 n).length = 9 := length_digits 9 n
  have hguard : ((46 : UInt8) = 46 ∨ (46 : UInt8) = 44) ∧ 9 ≤ (digits 9 n ++ s).length :=
    ⟨.inl rfl, by simp⟩
  rw [parseNanoseconds, if_pos hguard, List.take_left' hlen, List.drop_left' hlen,
    atoi_digits (by decide) hn]
  simp

/-- A field that is read hands its value on. -/
theorem bind_of_eq_some {α β : Type} {x : Option α} {a : α} (h : x = some a) {f : α → Option β} :
    (x >>= f) = f a := by
  rw [h]
  rfl

theorem bind_of_eq_none {α β : Type} {x : Option α} (h : x = none) {f : α → Option β} :
    (x >>= f) = none := by
  rw [h]
  rfl

/-- A check that passes goes on. -/
theorem guard_bind {β : Type} {p : Prop} [Decidable p] (h : p) {f : Unit → Option β} :
    (guard p >>= f) = f () := by
  rw [guard, if_pos h]
  rfl

/-- The text after the year. -/
def afterYear (t : Time) : Bytes :=
  45 :: (digits 2 t.date.month ++ 45 :: (digits 2 t.date.day ++ 84 :: (digits 2 t.hour ++ 58 ::
    (digits 2 t.minute ++ 58 :: (digits 2 t.second ++ 46 :: (digits 9 t.nanosecond ++ [90]))))))

theorem day_lt (t : Time) : t.date.day < 10 ^ 2 := by
  obtain ⟨-, -, -, hd31⟩ : t.date.Valid := civilDate_valid t.day
  have hall : ∀ leap : Bool, ∀ m < 13, ((monthLengths leap)[m - 1]?).getD 0 ≤ 31 := by decide
  have hmonth := hall (isLeap t.date.year) t.date.month
    (Nat.lt_succ_of_le (civilDate_valid t.day).2.1)
  exact lt_of_le_of_lt (hd31.trans hmonth) (by decide)

theorem month_lt (t : Time) : t.date.month < 10 ^ 2 := by
  have := (civilDate_valid t.day).2.1
  exact lt_of_le_of_lt this (by decide)

/-- The year has a width of its own; the other fields are of fixed width. -/
theorem formatTS_eq (t : Time) : formatTS t = appendInt 4 t.date.year ++ afterYear t := by
  have hh := t.hour_lt
  have hm := t.minute_lt
  have hs := t.second_lt
  have htwo : ∀ {n : Nat}, n < 10 ^ 2 → appendInt 2 (n : Int) = digits 2 n :=
    fun hn => appendInt_natCast (by decide) hn
  rw [formatTS, afterYear, htwo (month_lt t), htwo (day_lt t), htwo (by omega), htwo (by omega),
    htwo (by omega)]

/-- A year of four digits. -/
theorem appendInt_year (hlo : 0 ≤ t.date.year) (hhi : t.date.year ≤ 9999) :
    appendInt 4 t.date.year = digits 4 t.date.year.toNat := by
  obtain ⟨y, hy⟩ := Int.eq_ofNat_of_zero_le hlo
  rw [hy, Int.toNat_natCast]
  exact appendInt_natCast (by decide) (by omega)

/-- **A timestamp whose year has four digits is read back.** -/
theorem parseTS_formatTS (hlo : 0 ≤ t.date.year) (hhi : t.date.year ≤ 9999) :
    parseTS (formatTS t) = some t := by
  obtain ⟨hm1, hm12, hd1, hd31⟩ : t.date.Valid := civilDate_valid t.day
  have hyear : ((t.date.year.toNat : Nat) : Int) = t.date.year := Int.toNat_of_nonneg hlo
  have hh := t.hour_lt
  have hmin := t.minute_lt
  have hsec := t.second_lt
  rw [formatTS_eq, appendInt_year hlo hhi, afterYear, parseTS]
  -- field by field, in the order of the layout
  refine (bind_of_eq_some (getYear_digits (by omega) _)).trans ?_
  refine (bind_of_eq_some (skip_cons _ _)).trans ?_
  refine (bind_of_eq_some (getnum_digits (month_lt t) _ _)).trans ?_
  refine (guard_bind ⟨hm1, hm12⟩).trans ?_
  refine (bind_of_eq_some (skip_cons _ _)).trans ?_
  refine (bind_of_eq_some (getnum_digits (day_lt t) _ _)).trans ?_
  refine (bind_of_eq_some (skip_cons _ _)).trans ?_
  refine (bind_of_eq_some (getnum_digits (by omega) _ _)).trans ?_
  refine (guard_bind hh).trans ?_
  refine (bind_of_eq_some (skip_cons _ _)).trans ?_
  refine (bind_of_eq_some (getnum_digits (by omega) _ _)).trans ?_
  refine (guard_bind hmin).trans ?_
  refine (bind_of_eq_some (skip_cons _ _)).trans ?_
  refine (bind_of_eq_some (getnum_digits (by omega) _ _)).trans ?_
  refine (guard_bind hsec).trans ?_
  refine (bind_of_eq_some (parseNanoseconds_digits t.nanosecond_lt _)).trans ?_
  refine (bind_of_eq_some (skip_cons _ _)).trans ?_
  refine (guard_bind rfl).trans ?_
  rw [hyear]
  refine (guard_bind ⟨hd1, hd31⟩).trans ?_
  rw [Time.ofDate_date]
  rfl

/-- A text whose first four bytes are no year, or that goes on with another byte than `-`, does not
parse. -/
theorem parseTS_eq_none {s : Bytes} (h : ∀ year rest, getYear s = some (year, rest) →
    skip 45 rest = none) : parseTS s = none := by
  unfold parseTS
  cases hyear : getYear s with
  | none => rfl
  | some r =>
    obtain ⟨year, rest⟩ := r
    refine (bind_of_eq_some rfl).trans ?_
    exact bind_of_eq_none (h year rest hyear)

/-- A byte that is not the one of the layout is not skipped. -/
theorem skip_of_isDigit {b : UInt8} (hb : isDigit b = true) (s : Bytes) : skip 45 (b :: s) = none :=
  if_neg (fun h => absurd (h ▸ hb) (by decide))

/-- **A timestamp whose year does not have four digits is not read back**: a sign is no digit, and a
longer year runs into the month. -/
theorem parseTS_formatTS_eq_none (h : t.date.year < 0 ∨ 9999 < t.date.year) :
    parseTS (formatTS t) = none := by
  refine parseTS_eq_none (fun year rest hyear => ?_)
  rw [formatTS] at hyear
  generalize hs : (45 : UInt8) :: _ = s at hyear
  rcases h with hneg | hlong
  · rw [appendInt, if_pos hneg, List.cons_append] at hyear
    have hsign : decimalValue ((45 :: (padded 4 t.date.year.natAbs ++ s)).take 4) = none :=
      if_neg (by simp [isDigit])
    rw [getYear, hsign] at hyear
    split at hyear <;> cases hyear
  · rw [appendInt, if_neg (by omega)] at hyear
    have hlen : 4 < (padded 4 t.date.year.natAbs).length := lt_length_padded (by omega)
    have hrest : rest = (padded 4 t.date.year.natAbs ++ s).drop 4 := by
      unfold getYear at hyear
      split at hyear
      · obtain ⟨v, -, hv⟩ := Option.map_eq_some_iff.mp hyear
        exact (Prod.mk.inj hv).2.symm
      · cases hyear
    -- the fifth byte is one more digit of the year
    have hdrop : (padded 4 t.date.year.natAbs).drop 4 ≠ [] := by
      intro hnil
      have := List.drop_eq_nil_iff.mp hnil
      omega
    obtain ⟨b, tl, hb⟩ := List.exists_cons_of_ne_nil hdrop
    have hdigit : isDigit b = true :=
      isDigit_of_mem_padded (List.mem_of_mem_drop (hb ▸ List.mem_cons_self))
    rw [hrest, List.drop_append_of_le_length hlen.le, hb, List.cons_append]
    exact skip_of_isDigit hdigit _

/-! ## The order of the texts -/

end Sqlite

namespace Time

/-- The order of instants by date, hour, minute, second and nanosecond. -/
def Before (t u : Time) : Prop :=
  t.date.Before u.date ∨ t.date = u.date ∧ (t.hour < u.hour ∨ t.hour = u.hour ∧
    (t.minute < u.minute ∨ t.minute = u.minute ∧
      (t.second < u.second ∨ t.second = u.second ∧ t.nanosecond < u.nanosecond)))

/-- An instant is the day of its date and the time of day. -/
theorem ns_eq (t : Time) : t.ns = (dayNumber t.date - 719162) * 86400000000000 +
    (((t.hour * 60 + t.minute) * 60 + t.second) * 1000000000 + t.nanosecond : Nat) := by
  conv_lhs => rw [← ofDate_date t]
  rfl

theorem ns_lt_of_before (h : t.Before u) : t.ns < u.ns := by
  have ht := t.hour_lt
  have htm := t.minute_lt
  have hts := t.second_lt
  have htn := t.nanosecond_lt
  rw [ns_eq t, ns_eq u]
  rcases h with hdate | ⟨hdate, hclock⟩
  · have hday := dayNumber_lt (civilDate_valid t.day) (civilDate_valid u.day) hdate
    have hday : dayNumber t.date < dayNumber u.date := hday
    omega
  · rw [hdate]
    rcases hclock with hh | ⟨hh, hm | ⟨hm, hs | ⟨hs, hn⟩⟩⟩ <;> omega

/-- Two instants are in one order, or the same. -/
theorem before_trichotomy (t u : Time) : t.Before u ∨ t = u ∨ u.Before t := by
  rcases CivilDate.before_trichotomy t.date u.date with hlt | hdate | hgt
  · exact .inl (.inl hlt)
  · have hclock := lex_trichotomy t.hour u.hour fun _ => lex_trichotomy t.minute u.minute fun _ =>
      lex_trichotomy t.second u.second fun _ => lt_trichotomy t.nanosecond u.nanosecond
    rcases hclock with hlt | ⟨hh, hm, hs, hn⟩ | hgt
    · exact .inl (.inr ⟨hdate, hlt⟩)
    · refine .inr (.inl ?_)
      rw [← ofDate_date t, ← ofDate_date u, hdate, hh, hm, hs, hn]
    · exact .inr (.inr (.inr ⟨hdate.symm, hgt⟩))
  · exact .inr (.inr (.inl hgt))

/-- **The order of instants** is that of their dates and times of day. -/
theorem before_iff : t.Before u ↔ t.ns < u.ns := by
  refine ⟨ns_lt_of_before, fun hlt => ?_⟩
  rcases before_trichotomy t u with hbefore | rfl | hafter
  · exact hbefore
  · exact absurd hlt (lt_irrefl _)
  · exact absurd hlt (lt_asymm (ns_lt_of_before hafter))

/-- An instant of an earlier year is earlier. -/
theorem ns_lt_of_year_lt (h : t.date.year < u.date.year) : t.ns < u.ns :=
  ns_lt_of_before (.inl (.inl h))

end Time

namespace Sqlite

/-- Within a year the texts are in the order of time. -/
theorem lexLt_afterYear (hyear : t.date.year = u.date.year) :
    lexLt (afterYear t) (afterYear u) = true ↔ t.ns < u.ns := by
  have hh : ∀ t : Time, t.hour < 10 ^ 2 := fun t => t.hour_lt.trans (by decide)
  have hm : ∀ t : Time, t.minute < 10 ^ 2 := fun t => t.minute_lt.trans (by decide)
  have hs : ∀ t : Time, t.second < 10 ^ 2 := fun t => t.second_lt.trans (by decide)
  have hdate : t.date = u.date ↔ t.date.month = u.date.month ∧ t.date.day = u.date.day := by
    rw [CivilDate.ext_iff, and_iff_right hyear]
  rw [← Time.before_iff, Time.Before, CivilDate.Before, hdate]
  simp only [afterYear, lexLt_cons_self, lexLt_digits_append (month_lt t) (month_lt u),
    lexLt_digits_append (day_lt t) (day_lt u), lexLt_digits_append (hh t) (hh u),
    lexLt_digits_append (hm t) (hm u), lexLt_digits_append (hs t) (hs u),
    lexLt_digits_append t.nanosecond_lt u.nanosecond_lt, lexLt_nil, Bool.false_eq_true, and_false,
    or_false, hyear, lt_self_iff_false, false_or, true_and]
  tauto

/-- **Texts with years of four digits are in the order of time.** -/
theorem lexLt_formatTS (ht : 0 ≤ t.date.year ∧ t.date.year ≤ 9999)
    (hu : 0 ≤ u.date.year ∧ u.date.year ≤ 9999) :
    lexLt (formatTS t) (formatTS u) = true ↔ t.ns < u.ns := by
  rw [formatTS_eq, formatTS_eq, appendInt_year ht.1 ht.2, appendInt_year hu.1 hu.2,
    lexLt_digits_append (by omega) (by omega)]
  rcases lt_trichotomy t.date.year u.date.year with hlt | heq | hgt
  · exact iff_of_true (.inl (by omega)) (Time.ns_lt_of_year_lt hlt)
  · rw [lexLt_afterYear heq, heq]
    simp
  · have hns := Time.ns_lt_of_year_lt hgt
    refine iff_of_false ?_ (by omega)
    rintro (h | ⟨h, -⟩) <;> omega

/-- A negative year is before every year of four digits, as its sign is before every digit. -/
theorem lexLt_formatTS_negative (ht : t.date.year < 0) (hu : 0 ≤ u.date.year ∧ u.date.year ≤ 9999) :
    lexLt (formatTS t) (formatTS u) = true := by
  rw [formatTS_eq, formatTS_eq, appendInt, if_pos ht, appendInt_year hu.1 hu.2]
  cases hd : digits 4 u.date.year.toNat with
  | nil =>
    have := length_digits 4 u.date.year.toNat
    rw [hd] at this
    cases this
  | cons b bs =>
    have hdigit : isDigit b = true := isDigit_of_mem_digits (hd ▸ List.mem_cons_self)
    simp [lexLt, hyphen_lt_of_isDigit hdigit]

/-- The first four digits of a year that has more. -/
def leadingYear (year : Int) : Nat := year.toNat / 10 ^ (Nat.log 10 year.toNat + 1 - 4)

/-- **A year of more than four digits** is in the place of its first four: every text of a later year of
four digits comes after it. -/
theorem lexLt_formatTS_long (ht : 9999 < t.date.year) (hu : 0 ≤ u.date.year ∧ u.date.year ≤ 9999) :
    lexLt (formatTS t) (formatTS u) = true ↔ (leadingYear t.date.year : Int) < u.date.year := by
  obtain ⟨y, hy⟩ := Int.eq_ofNat_of_zero_le (show 0 ≤ t.date.year by omega)
  have hlog : 4 ≤ Nat.log 10 y := Nat.le_log_of_pow_le (by decide) (by omega)
  obtain ⟨k, hk⟩ : ∃ k, Nat.log 10 y + 1 = 4 + (k + 1) := ⟨Nat.log 10 y - 4, by omega⟩
  have hlead : leadingYear t.date.year = y / 10 ^ (k + 1) := by
    rw [leadingYear, hy, Int.toNat_natCast, hk, Nat.add_sub_cancel_left]
  have hleadlt : y / 10 ^ (k + 1) < 10 ^ 4 := by
    rw [Nat.div_lt_iff_lt_mul (by positivity), ← Nat.pow_add, ← hk]
    exact Nat.lt_pow_succ_log_self (by decide) y
  have hyear : appendInt 4 t.date.year = digits 4 (y / 10 ^ (k + 1)) ++ digits (k + 1) y := by
    rw [hy, appendInt, if_neg (by omega), Int.natAbs_natCast, padded, max_eq_right (by omega), hk,
      digits_add]
  rw [formatTS_eq, formatTS_eq, hyear, appendInt_year hu.1 hu.2, List.append_assoc,
    lexLt_digits_append hleadlt (by omega), hlead]
  -- with the same four digits, the next one is after the `-` that follows the shorter year
  have hrest : lexLt (digits (k + 1) y ++ afterYear t) (afterYear u) = false := by
    cases hd : digits (k + 1) y with
    | nil =>
      have := length_digits (k + 1) y
      rw [hd] at this
      cases this
    | cons b bs =>
      have hdigit : isDigit b = true := isDigit_of_mem_digits (hd ▸ List.mem_cons_self)
      have hgt : ¬ b < 45 := fun h => UInt8.lt_asymm h (hyphen_lt_of_isDigit hdigit)
      have hne : b ≠ 45 := fun h => absurd (h ▸ hdigit) (by decide)
      simp [afterYear, lexLt, hgt, hne]
  rw [hrest]
  simp only [Bool.false_eq_true, and_false, or_false]
  omega

end Sqlite

end EsLite
