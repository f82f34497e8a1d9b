import PeerCache.Http.Date

/-!
# Laws of the calendar

The parts of a count of seconds and the count that parts stand for. The day that a count falls on
is looked for year by year and then month by month, and each search ends at the year or month that
has the day. So the parts make up the count again. They are those of a real date, as long as the
year has four digits, which is up to one second.
-/

namespace PeerCache.HeaderDate

/-! ## Years -/

theorem le_yearLength (year : Nat) : 365 ≤ yearLength year := by
  rw [yearLength]
  split <;> decide

/-- The days before a year by the leap years before it: every fourth year, without the hundredth
ones, but with the four hundredth ones. -/
theorem daysBeforeYear_eq (n : Nat) : daysBeforeYear n + (1969 + n) / 100 + 477 =
    365 * n + (1969 + n) / 4 + (1969 + n) / 400 := by
  induction n with
  | zero => rfl
  | succ n ih =>
    rw [daysBeforeYear, yearLength, isLeap]
    split
    · next hleap =>
      simp only [Bool.and_eq_true, Bool.or_eq_true, beq_iff_eq, bne_iff_ne] at hleap
      omega
    · next hleap =>
      simp only [Bool.and_eq_true, Bool.or_eq_true, beq_iff_eq, bne_iff_ne] at hleap
      omega

/-- A day, counted from the start of 1970, lies in a year, after so many of its days. -/
structure IsDayOfYear (days year inYear : Nat) : Prop where
  since : 1970 ≤ year
  count : daysBeforeYear (year - 1970) + inYear = days
  inside : inYear < yearLength year

/-- There are 2932897 days before the year 10000. -/
theorem IsDayOfYear.lt_tenThousand {days year inYear : Nat} (h : IsDayOfYear days year inYear)
    (hdays : days < 2932897) : year < 10000 := by
  refine Nat.lt_of_not_le fun hlate => ?_
  have hcount := h.count
  have hbefore := daysBeforeYear_eq (year - 1970)
  omega

/-- The search steps over one year for each 365 days at most, so its limit is high enough. -/
theorem isDayOfYear_splitYears {limit n days : Nat} (h : days < 365 * (limit + 1)) :
    IsDayOfYear (daysBeforeYear n + days) (splitYears limit (1970 + n) days).1
      (splitYears limit (1970 + n) days).2 := by
  have hlength := le_yearLength (1970 + n)
  -- What a step takes off the days to go, it adds to the days before the year.
  induction limit generalizing n days with
  | zero => exact ⟨Nat.le_add_right 1970 n, by simp [splitYears], Nat.lt_of_lt_of_le h hlength⟩
  | succ limit ih =>
    rw [splitYears]
    split
    · next hinside => exact ⟨Nat.le_add_right 1970 n, by simp, hinside⟩
    · next hpast =>
      have hrest : days - yearLength (1970 + n) < 365 * (limit + 1) := by omega
      have hnext := ih (n := n + 1) hrest (le_yearLength _)
      have hdays : daysBeforeYear (n + 1) + (days - yearLength (1970 + n)) =
          daysBeforeYear n + days := by
        rw [daysBeforeYear]
        omega
      rwa [hdays] at hnext

/-! ## Months -/

theorem foldr_monthLengths (year : Nat) :
    (monthLengths year).foldr (· + ·) 0 = yearLength year := by
  rw [monthLengths, yearLength]
  split <;> rfl

/-- A day of a year lies in a month, after so many of its days. -/
structure IsDayOfMonth (lengths : List Nat) (inYear month inMonth : Nat) : Prop where
  count : (lengths.take month).foldr (· + ·) 0 + inMonth = inYear
  inside : inMonth < lengths.getD month 0

theorem IsDayOfMonth.month_lt {lengths : List Nat} {inYear month inMonth : Nat}
    (h : IsDayOfMonth lengths inYear month inMonth) : month < lengths.length := by
  refine Nat.lt_of_not_le fun hlate => ?_
  have hinside := h.inside
  rw [List.getD_eq_getElem?_getD, List.getElem?_eq_none hlate] at hinside
  exact Nat.not_lt_zero inMonth hinside

theorem exists_splitMonths {lengths : List Nat} {inYear : Nat}
    (h : inYear < lengths.foldr (· + ·) 0) (start : Nat) :
    ∃ month inMonth, splitMonths lengths start inYear = (start + month, inMonth) ∧
      IsDayOfMonth lengths inYear month inMonth := by
  induction lengths generalizing start inYear with
  | nil => cases h
  | cons length rest ih =>
    rw [splitMonths]
    split
    · next hinside => exact ⟨0, inYear, rfl, Nat.zero_add inYear, hinside⟩
    · next hpast =>
      rw [List.foldr_cons] at h
      have hrest : inYear - length < rest.foldr (· + ·) 0 := by omega
      obtain ⟨month, inMonth, hsplit, hday⟩ := ih hrest (start + 1)
      refine ⟨month + 1, inMonth, ?_, ?_, hday.inside⟩
      · rw [hsplit, Nat.add_assoc, Nat.add_comm 1 month]
      · have hcount := hday.count
        rw [List.take_succ_cons, List.foldr_cons]
        omega

/-! ## Counts and parts -/

/-- The parts of a count: its day in year and month, and the time of the day. -/
theorem fields_parts (seconds : Nat) : ∃ year inYear month inMonth,
    IsDayOfYear (seconds / 86400) year inYear ∧
    IsDayOfMonth (monthLengths year) inYear month inMonth ∧
    fields seconds =
      { weekday := (seconds / 86400 + 3) % 7, day := inMonth + 1, month, year
        hour := seconds % 86400 / 3600, minute := seconds % 86400 / 60 % 60
        second := seconds % 86400 % 60 } := by
  have hlimit : seconds / 86400 < 365 * (seconds / 86400 / 365 + 1) := by omega
  have hyear := isDayOfYear_splitYears (n := 0) hlimit
  rw [daysBeforeYear, Nat.zero_add, Nat.add_zero] at hyear
  have hinside := hyear.inside
  rw [← foldr_monthLengths] at hinside
  obtain ⟨month, inMonth, hsplit, hmonth⟩ := exists_splitMonths hinside 0
  rw [Nat.zero_add] at hsplit
  refine ⟨_, _, month, inMonth, hyear, hmonth, ?_⟩
  simp only [fields, hsplit]

/-- The parts of a count make up the count. -/
theorem seconds_fields (seconds : Nat) : (fields seconds).seconds = seconds := by
  obtain ⟨year, inYear, month, inMonth, hyear, hmonth, hfields⟩ := fields_parts seconds
  rw [hfields, Fields.seconds]
  dsimp only
  rw [Nat.add_sub_cancel, hmonth.count, hyear.count]
  omega

/-- Parts within the ranges that the written form has room for. -/
structure Fields.InRange (f : Fields) : Prop where
  weekday : f.weekday < 7
  day : f.day < 100
  month : f.month < 12
  year : f.year < 10000
  hour : f.hour < 100
  minute : f.minute < 100
  second : f.second < 100

theorem day_of_month_le {year inYear month inMonth : Nat}
    (h : IsDayOfMonth (monthLengths year) inYear month inMonth) : inMonth < 31 := by
  have hlengths : ∀ length ∈ monthLengths year, length ≤ 31 := by
    rw [monthLengths]
    split <;> decide
  have hmonth := h.month_lt
  have hinside := h.inside
  rw [List.getD_eq_getElem?_getD, List.getElem?_eq_getElem hmonth] at hinside
  exact Nat.lt_of_lt_of_le hinside (hlengths _ (List.getElem_mem hmonth))

section Bounded

variable {seconds : Nat} (h : seconds < 253402300800)

include h

theorem inRange_fields : (fields seconds).InRange := by
  obtain ⟨year, inYear, month, inMonth, hyear, hmonth, hfields⟩ := fields_parts seconds
  have hday := day_of_month_le hmonth
  rw [hfields]
  constructor <;> dsimp only
  case year => exact hyear.lt_tenThousand (by omega)
  case month => exact hmonth.month_lt
  all_goals omega

/-- A count up to the end of the year 9999 is that of a real date. -/
theorem isReal_fields : (fields seconds).isReal = true := by
  obtain ⟨year, inYear, month, inMonth, hyear, hmonth, hfields⟩ := fields_parts seconds
  have hlast := hyear.lt_tenThousand (by omega)
  rw [Fields.isReal, seconds_fields, hfields]
  simp only [Bool.and_eq_true, decide_eq_true_eq, beq_self_eq_true, and_true, and_assoc]
  refine ⟨?_, ?_, ?_, hyear.since, Nat.le_of_lt_succ hlast, hmonth.month_lt, ?_, hmonth.inside⟩
  all_goals omega

end Bounded

end PeerCache.HeaderDate
