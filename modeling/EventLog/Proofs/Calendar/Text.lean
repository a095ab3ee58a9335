import EventLog.Proofs.Calendar.Count
import EventLog.Proofs.Text.Order

set_option autoImplicit false

/-! # Times as texts

A time of the calendar is earlier than another one if the first field that differs is smaller
(`DateTime.Before`). That is the order of their seconds (`DateTime.before_of_seconds_lt`), and for
years of four digits it is the order of their texts (`DateTime.text_lt`). The text of any time gives
back all its fields (`DateTime.text_inj`).
-/

namespace EventLog

namespace DateTime

/-! ## Dates in order -/

theorem daysInMonth_le (year : Int) (month : Nat) : daysInMonth year month ≤ 31 := by
  unfold daysInMonth
  split
  · split <;> omega
  · omega
  · omega
  · omega
  · omega
  · omega

theorem daysOfMonths_mono (year : Int) {m n : Nat} (h : m ≤ n) :
    daysOfMonths year m ≤ daysOfMonths year n := by
  induction h with
  | refl => exact Nat.le_refl _
  | step _ ih => exact Nat.le_trans ih (Nat.le_add_right _ _)

/-- The months of a year have all its days. -/
theorem daysOfMonths_twelve (year : Int) : daysOfMonths year 12 = daysInYear year := by
  by_cases h : IsLeap year
  · simp [daysOfMonths, daysInMonth, daysInYear, h]
  · simp [daysOfMonths, daysInMonth, daysInYear, h]

theorem yearStart_mono {year year' : Int} (h : year ≤ year') :
    yearStart year ≤ yearStart year' := by
  have hthis := yearStart_eq year
  have hthat := yearStart_eq year'
  unfold marchDay at hthis hthat
  omega

section

variable {year year' : Int} {month month' day day' : Nat}

/-- A date lies in its month. -/
theorem ValidDay.dayNumber_lt (h : ValidDay year month day) :
    dayNumber year month day < yearStart year + daysOfMonths year month := by
  have hmonths : daysOfMonths year month =
      daysOfMonths year (month - 1) + daysInMonth year month := by
    have hsucc : month = month - 1 + 1 := by
      have := h.one_le_month
      omega
    conv => lhs; rw [hsucc]
    rw [daysOfMonths, ← hsucc]
  have hday := h.day_le
  unfold dayNumber
  omega

/-- A date lies in its year. -/
theorem ValidDay.dayNumber_lt_succ (h : ValidDay year month day) :
    yearStart year ≤ dayNumber year month day ∧
      dayNumber year month day < yearStart (year + 1) := by
  have hmonth := daysOfMonths_mono year h.month_le
  have hlt := h.dayNumber_lt
  have hday := h.one_le_day
  rw [daysOfMonths_twelve] at hmonth
  rw [yearStart_succ]
  constructor
  · unfold dayNumber
    omega
  · omega

/-- A date that does not come after another one has no greater field before a smaller one. -/
theorem ValidDay.le_of_dayNumber_le (h : ValidDay year month day)
    (h' : ValidDay year' month' day')
    (hle : dayNumber year month day ≤ dayNumber year' month' day') :
    year < year' ∨ year = year' ∧ (month < month' ∨ month = month' ∧ day ≤ day') := by
  have hyears := h.dayNumber_lt_succ
  have hyears' := h'.dayNumber_lt_succ
  -- The year decides first, then the month, then the day.
  rcases lt_trichotomy year year' with hlt | rfl | hgt
  · exact .inl hlt
  · refine .inr ⟨rfl, ?_⟩
    have hmonth := h'.dayNumber_lt
    rcases lt_trichotomy month month' with hlt | rfl | hgt
    · exact .inl hlt
    · refine .inr ⟨rfl, ?_⟩
      unfold dayNumber at hle
      omega
    · -- The month would have to begin before the end of an earlier one.
      have hbefore := daysOfMonths_mono year (show month' ≤ month - 1 by omega)
      have hday := h.one_le_day
      unfold dayNumber at hle hmonth
      omega
  · have hbefore := yearStart_mono (show year' + 1 ≤ year by omega)
    omega

end

/-- The first field that differs is smaller. -/
def Before (t t' : DateTime) : Prop :=
  t.year < t'.year ∨ t.year = t'.year ∧ (t.month < t'.month ∨ t.month = t'.month ∧
    (t.day < t'.day ∨ t.day = t'.day ∧ (t.hour < t'.hour ∨ t.hour = t'.hour ∧
      (t.minute < t'.minute ∨ t.minute = t'.minute ∧ t.second < t'.second))))

/-- **Earlier seconds are those of earlier times.** -/
theorem before_of_seconds_lt {t t' : DateTime} (h : t.Valid) (h' : t'.Valid)
    (hlt : t.seconds < t'.seconds) : t.Before t' := by
  have hclock := h.hour_lt
  have hclock' := h'.hour_lt
  have hminute := h.minute_lt
  have hminute' := h'.minute_lt
  have hsecond := h.second_lt
  have hsecond' := h'.second_lt
  unfold seconds at hlt
  -- A clock shows less than a day, so the day numbers are ordered at least weakly.
  have hdays : dayNumber t.year t.month t.day ≤ dayNumber t'.year t'.month t'.day := by omega
  rcases h.validDay.le_of_dayNumber_le h'.validDay hdays with hyear | ⟨hyear, hmonth⟩
  · exact .inl hyear
  · refine .inr ⟨hyear, ?_⟩
    rcases hmonth with hmonth | ⟨hmonth, hday⟩
    · exact .inl hmonth
    · refine .inr ⟨hmonth, ?_⟩
      by_cases hless : t.day < t'.day
      · exact .inl hless
      · -- On one day, the time of day decides.
        have hsame : t.day = t'.day := by omega
        refine .inr ⟨hsame, ?_⟩
        rw [hyear, hmonth, hsame] at hlt
        omega

/-! ## Texts -/

def afterYear (t : DateTime) : List Char :=
  '-' :: ((decimal 2 t.month).toList ++ '-' :: ((decimal 2 t.day).toList ++
    ' ' :: ((decimal 2 t.hour).toList ++ ':' :: ((decimal 2 t.minute).toList ++
      ':' :: ((decimal 2 t.second).toList ++ ['Z'])))))

theorem toList_text (t : DateTime) : t.text.toList = (yearText t.year).toList ++ t.afterYear := by
  simp [text, afterYear]

/-- All fields but the year have two digits. -/
structure TwoDigits (t : DateTime) : Prop where
  month_lt : t.month < Nat.pow 10 2
  day_lt : t.day < Nat.pow 10 2
  hour_lt : t.hour < Nat.pow 10 2
  minute_lt : t.minute < Nat.pow 10 2
  second_lt : t.second < Nat.pow 10 2

theorem Valid.twoDigits {t : DateTime} (h : t.Valid) : t.TwoDigits where
  month_lt := Nat.lt_of_le_of_lt h.validDay.month_le (by decide)
  day_lt := Nat.lt_of_le_of_lt (Nat.le_trans h.validDay.day_le (daysInMonth_le _ _)) (by decide)
  hour_lt := Nat.lt_trans h.hour_lt (by decide)
  minute_lt := Nat.lt_trans h.minute_lt (by decide)
  second_lt := Nat.lt_trans h.second_lt (by decide)

theorem TwoDigits.length_afterYear {t : DateTime} (h : t.TwoDigits) : t.afterYear.length = 16 := by
  simp only [afterYear, List.length_append, List.length_cons, List.length_nil,
    length_decimal (by decide) h.month_lt, length_decimal (by decide) h.day_lt,
    length_decimal (by decide) h.hour_lt, length_decimal (by decide) h.minute_lt,
    length_decimal (by decide) h.second_lt]

theorem yearText_of_nonneg {year : Int} (h : 0 ≤ year) :
    yearText year = decimal 4 year.natAbs := by
  rw [yearText, if_neg (by omega)]

theorem natAbs_lt {year : Int} (h : 0 ≤ year) (hle : year ≤ 9999) :
    year.natAbs < Nat.pow 10 4 := by
  have hpow : Nat.pow 10 4 = 10000 := by decide
  omega

/-- **Earlier times have texts that come first,** if their years have four digits. -/
theorem text_lt {t t' : DateTime} (h : t.Valid) (h' : t'.Valid) (hnonneg : 0 ≤ t.year)
    (hle : t'.year ≤ 9999) (hbefore : t.Before t') : t.text < t'.text := by
  have hyears : t.year ≤ t'.year := by
    rcases hbefore with hlt | ⟨heq, -⟩
    · exact Int.le_of_lt hlt
    · exact Int.le_of_eq heq
  show t.text.toList < t'.text.toList
  rw [toList_text, toList_text, yearText_of_nonneg hnonneg,
    yearText_of_nonneg (Int.le_trans hnonneg hyears)]
  have hd := h.twoDigits
  have hd' := h'.twoDigits
  -- Every part but the year has two digits, and the first part that differs decides.
  refine decimal_append_lt '-' (by decide) (natAbs_lt hnonneg (Int.le_trans hyears hle))
    (natAbs_lt (Int.le_trans hnonneg hyears) hle) ?_
  rcases hbefore with hyear | ⟨hyear, hbefore⟩
  · exact .inl (by omega)
  · refine .inr ⟨by omega, decimal_append_lt '-' (by decide) hd.month_lt hd'.month_lt ?_⟩
    refine hbefore.imp_right (And.imp_right fun hbefore => ?_)
    refine decimal_append_lt ' ' (by decide) hd.day_lt hd'.day_lt ?_
    refine hbefore.imp_right (And.imp_right fun hbefore => ?_)
    refine decimal_append_lt ':' (by decide) hd.hour_lt hd'.hour_lt ?_
    refine hbefore.imp_right (And.imp_right fun hbefore => ?_)
    refine decimal_append_lt ':' (by decide) hd.minute_lt hd'.minute_lt ?_
    refine hbefore.imp_right (And.imp_right fun hbefore => ?_)
    exact decimal_append_lt 'Z' (by decide) hd.second_lt hd'.second_lt (.inl hbefore)

theorem length_text {t : DateTime} (h : t.Valid) (hnonneg : 0 ≤ t.year) (hle : t.year ≤ 9999) :
    t.text.length = 20 := by
  rw [← String.length_toList, toList_text, List.length_append, yearText_of_nonneg hnonneg,
    length_decimal (by decide) (natAbs_lt hnonneg hle), h.twoDigits.length_afterYear]

/-- The minus sign of a year before the year 0 is no digit. -/
theorem yearText_inj {year year' : Int} (h : yearText year = yearText year') : year = year' := by
  -- A year before 0 has a minus sign in front, which no other year's text contains.
  have hsign (n m : Nat) : "-" ++ decimal 3 n ≠ decimal 4 m := by
    intro heq
    apply not_mem_decimal (show '-'.toNat < 48 by decide) 4 m
    rw [← heq, String.toList_append]
    exact List.mem_append_left _ (List.mem_singleton_self '-')
  unfold yearText at h
  by_cases hneg : year < 0
  · by_cases hneg' : year' < 0
    · rw [if_pos hneg, if_pos hneg', String.append_right_inj] at h
      have := decimal_inj h
      omega
    · rw [if_pos hneg, if_neg hneg'] at h
      exact absurd h (hsign _ _)
  · by_cases hneg' : year' < 0
    · rw [if_neg hneg, if_pos hneg'] at h
      exact absurd h.symm (hsign _ _)
    · rw [if_neg hneg, if_neg hneg'] at h
      have := decimal_inj h
      omega

/-- **The text of a time gives back the time.** -/
theorem text_inj {t t' : DateTime} (h : t.Valid) (h' : t'.Valid) (htext : t.text = t'.text) :
    t = t' := by
  have hd := h.twoDigits
  have hd' := h'.twoDigits
  have hchars := congrArg String.toList htext
  rw [toList_text, toList_text] at hchars
  -- The year alone has no fixed width, so the text is split from its end.
  obtain ⟨hyear, hrest⟩ :=
    List.append_inj' hchars (by rw [hd.length_afterYear, hd'.length_afterYear])
  obtain ⟨hmonth, hrest⟩ :=
    decimal_append_inj (by decide) hd.month_lt hd'.month_lt (List.cons.inj hrest).2
  obtain ⟨hday, hrest⟩ :=
    decimal_append_inj (by decide) hd.day_lt hd'.day_lt (List.cons.inj hrest).2
  obtain ⟨hhour, hrest⟩ :=
    decimal_append_inj (by decide) hd.hour_lt hd'.hour_lt (List.cons.inj hrest).2
  obtain ⟨hminute, hrest⟩ :=
    decimal_append_inj (by decide) hd.minute_lt hd'.minute_lt (List.cons.inj hrest).2
  obtain ⟨hsecond, -⟩ :=
    decimal_append_inj (by decide) hd.second_lt hd'.second_lt (List.cons.inj hrest).2
  cases t
  cases t'
  simp only [mk.injEq]
  exact ⟨yearText_inj (String.toList_inj.mp hyear), hmonth, hday, hhour, hminute, hsecond⟩

/-! ## Years of four digits -/

/-- The years of timestamps from the start of year 0 to the last supported one. -/
theorem year_ofSeconds {n : Int} (h : -62167219200 ≤ n) (hle : n ≤ maxTimestamp) :
    0 ≤ (ofSeconds n).year ∧ (ofSeconds n).year ≤ 9999 := by
  obtain ⟨hvalid, hseconds⟩ := seconds_ofSeconds n
  have hyear := hvalid.validDay.dayNumber_lt_succ
  have hclock := hvalid.hour_lt
  have hminute := hvalid.minute_lt
  have hsecond := hvalid.second_lt
  -- The days of years 0 and 10000 bound the years between; the year's start is monotone.
  have hfirst := yearStart_eq 0
  have hlast := yearStart_eq 10000
  unfold seconds at hseconds
  unfold maxTimestamp at hle
  unfold marchDay epochDay at hfirst hlast
  constructor
  · by_contra hneg
    have hbefore := yearStart_mono (show (ofSeconds n).year + 1 ≤ 0 by omega)
    omega
  · by_contra hlarge
    have hafter := yearStart_mono (show 10000 ≤ (ofSeconds n).year by omega)
    omega

end DateTime

end EventLog
