import Mathlib.Logic.Function.Iterate
import ManifestUpkeep.Proofs.Text.Decimal

/-!
Days and instants. Every day number has a date that exists and that counts back to it, later days
have later dates and the other way round, and the day after a date has the next number. From the year 0
to the year 9999 the compact texts of instants are in the order of the instants.
-/
namespace ManifestUpkeep.Calendar
open Text

theorem daysBeforeYear_succ (y : Int) :
    daysBeforeYear (y + 1) = daysBeforeYear y + (monthLengths (isLeap y)).sum := by
  rw [daysBeforeYear, daysBeforeYear, isLeap]
  by_cases h : y % 4 = 0 ∧ (y % 100 ≠ 0 ∨ y % 400 = 0)
  · have hsum : (monthLengths true).sum = 366 := rfl
    rw [show (y % 4 = 0 && (y % 100 ≠ 0 || y % 400 = 0)) = true by simpa using h, hsum]
    omega
  · have hsum : (monthLengths false).sum = 365 := rfl
    rw [show (y % 4 = 0 && (y % 100 ≠ 0 || y % 400 = 0)) = false by simpa using h, hsum]
    omega

theorem daysBeforeYear_le {y z : Int} (h : y ≤ z) : daysBeforeYear y ≤ daysBeforeYear z := by
  rw [daysBeforeYear, daysBeforeYear]
  omega

/-- The year before the estimate has begun, and the one after the next has not. -/
theorem daysBeforeYear_estimate (n : Int) :
    daysBeforeYear (n * 400 / 146097 - 1) ≤ n ∧ n < daysBeforeYear (n * 400 / 146097 + 2) := by
  rw [daysBeforeYear, daysBeforeYear]
  omega

theorem yearOfDay_spec (n : Int) :
    daysBeforeYear (yearOfDay n) ≤ n ∧ n < daysBeforeYear (yearOfDay n + 1) := by
  obtain ⟨hlow, hhigh⟩ := daysBeforeYear_estimate n
  rw [yearOfDay]
  generalize n * 400 / 146097 = y at hlow hhigh ⊢
  by_cases h : n < daysBeforeYear y
  · simp only [if_pos h, Int.sub_add_cancel]
    exact ⟨hlow, h⟩
  · by_cases h' : daysBeforeYear (y + 1) ≤ n
    · simp only [if_neg h, if_pos h']
      exact ⟨h', by rwa [Int.add_assoc]⟩
    · simp only [if_neg h, if_neg h']
      omega

/-- The month that a day of the year falls into has begun, and the next one has not. -/
theorem monthAndDay_spec {lengths : List Nat} {n : Nat} (month : Nat) (h : n < lengths.sum) :
    ∃ i < lengths.length, (lengths.take i).sum ≤ n ∧ n < (lengths.take (i + 1)).sum ∧
      monthAndDay month lengths n = (month + i, n - (lengths.take i).sum + 1) := by
  induction lengths generalizing month n with
  | nil => simp at h
  | cons length rest ih =>
    rw [monthAndDay]
    by_cases hn : n < length
    · exact ⟨0, by simp, by simp, by simpa using hn, by simp [hn]⟩
    · rw [List.sum_cons] at h
      obtain ⟨i, hi, hlow, hhigh, heq⟩ := ih (month + 1) (n := n - length) (by omega)
      refine ⟨i + 1, by simpa using hi, ?_, ?_, ?_⟩
      · rw [List.take_succ_cons, List.sum_cons]
        omega
      · rw [List.take_succ_cons, List.sum_cons]
        omega
      · rw [if_neg hn, heq, List.take_succ_cons, List.sum_cons, Prod.mk.injEq]
        omega

/-- The number of the day in its year. -/
def dayOfYear (n : Int) : Nat := (n - daysBeforeYear (yearOfDay n)).toNat

theorem dayOfYear_lt (n : Int) : dayOfYear n < (monthLengths (isLeap (yearOfDay n))).sum := by
  obtain ⟨hlow, hhigh⟩ := yearOfDay_spec n
  rw [daysBeforeYear_succ] at hhigh
  rw [dayOfYear]
  omega

/-- The date of a day: its year, the month that has begun and the days that have passed in it. -/
theorem ofDayNumber_spec (n : Int) :
    ∃ i < 12, ((monthLengths (isLeap (yearOfDay n))).take i).sum ≤ dayOfYear n ∧
      dayOfYear n < ((monthLengths (isLeap (yearOfDay n))).take (i + 1)).sum ∧
      Date.ofDayNumber n = ⟨yearOfDay n, i + 1,
        dayOfYear n - ((monthLengths (isLeap (yearOfDay n))).take i).sum + 1⟩ := by
  obtain ⟨i, hi, hlow, hhigh, heq⟩ := monthAndDay_spec 1 (dayOfYear_lt n)
  refine ⟨i, by simpa [monthLengths] using hi, hlow, hhigh, ?_⟩
  rw [dayOfYear] at heq ⊢
  rw [Date.ofDayNumber]
  simp only [heq, Nat.add_comm]

theorem sum_take_succ (lengths : List Nat) (i : Nat) :
    (lengths.take (i + 1)).sum = (lengths.take i).sum + lengths.getD i 0 := by
  rw [List.take_add_one, List.sum_append, List.getD_eq_getElem?_getD]
  cases lengths[i]? <;> simp

theorem sum_take_le (lengths : List Nat) {i j : Nat} (h : i ≤ j) :
    (lengths.take i).sum ≤ (lengths.take j).sum := by
  obtain ⟨k, rfl⟩ := Nat.exists_eq_add_of_le h
  rw [List.take_add, List.sum_append]
  omega

theorem exists_ofDayNumber (n : Int) : (Date.ofDayNumber n).Exists := by
  obtain ⟨i, -, hlow, hhigh, heq⟩ := ofDayNumber_spec n
  rw [sum_take_succ] at hhigh
  rw [heq, Date.Exists, monthLength]
  simp only [Nat.add_eq_zero_iff, Nat.one_ne_zero, and_false, if_false, Nat.add_sub_cancel]
  omega

theorem month_ofDayNumber_le (n : Int) : (Date.ofDayNumber n).month ≤ 12 := by
  obtain ⟨i, hi, -, -, heq⟩ := ofDayNumber_spec n
  rw [heq]
  exact hi

theorem monthLength_le (year : Int) (month : Nat) : monthLength year month ≤ 31 := by
  have hlength : ∀ leap, ∀ i < 12, (monthLengths leap).getD i 0 ≤ 31 := by decide
  rw [monthLength]
  split
  · omega
  · by_cases hmonth : month - 1 < 12
    · exact hlength _ _ hmonth
    · have hlong : (monthLengths (isLeap year)).length ≤ month - 1 := Nat.not_lt.1 hmonth
      simp [List.getD_eq_getElem?_getD, List.getElem?_eq_none hlong]

theorem Date.day_le {d : Date} (h : d.Exists) : d.day ≤ 31 :=
  Nat.le_trans h.2 (monthLength_le _ _)

theorem day_ofDayNumber_le (n : Int) : (Date.ofDayNumber n).day ≤ 31 :=
  Date.day_le (exists_ofDayNumber n)

/-- A later day has a later date. -/
theorem ofDayNumber_lt {n m : Int} (h : n < m) :
    (Date.ofDayNumber n).year < (Date.ofDayNumber m).year ∨
      (Date.ofDayNumber n).year = (Date.ofDayNumber m).year ∧
        ((Date.ofDayNumber n).month < (Date.ofDayNumber m).month ∨
          (Date.ofDayNumber n).month = (Date.ofDayNumber m).month ∧
            (Date.ofDayNumber n).day < (Date.ofDayNumber m).day) := by
  obtain ⟨i, -, hilow, hihigh, hn⟩ := ofDayNumber_spec n
  obtain ⟨j, -, hjlow, hjhigh, hm⟩ := ofDayNumber_spec m
  rw [hn, hm]
  simp only
  have hyear : yearOfDay n ≤ yearOfDay m := by
    refine Int.not_lt.1 fun hlater => ?_
    have hle := daysBeforeYear_le (y := yearOfDay m + 1) (z := yearOfDay n) (by omega)
    have := (yearOfDay_spec n).1
    have := (yearOfDay_spec m).2
    omega
  rcases Int.lt_or_eq_of_le hyear with hlt | heq
  · exact .inl hlt
  · have hday : dayOfYear n < dayOfYear m := by
      have := (yearOfDay_spec n).1
      rw [dayOfYear, dayOfYear, heq]
      rw [heq] at this
      omega
    rw [heq] at hilow hihigh ⊢
    refine .inr ⟨rfl, ?_⟩
    have hmonth : i ≤ j := by
      refine Nat.not_lt.1 fun hlater => ?_
      have hle := sum_take_le (monthLengths (isLeap (yearOfDay m))) (i := j + 1) (j := i) (by omega)
      omega
    rcases Nat.lt_or_eq_of_le hmonth with hlt | rfl
    · exact .inl (by omega)
    · exact .inr ⟨rfl, by omega⟩

theorem daysBeforeMonth_eq (year : Int) (month : Nat) :
    daysBeforeMonth year month = ((monthLengths (isLeap year)).take (month - 1)).sum := rfl

/-- A date lies in its month, as the days of the year are counted. -/
theorem Date.dayNumber_bounds {d : Date} (h : d.Exists) : 0 < d.month ∧ d.month ≤ 12 ∧
    daysBeforeYear d.year + ((monthLengths (isLeap d.year)).take (d.month - 1)).sum ≤ d.dayNumber ∧
      d.dayNumber < daysBeforeYear d.year + ((monthLengths (isLeap d.year)).take d.month).sum := by
  obtain ⟨hday, hlast⟩ := h
  rw [monthLength] at hlast
  split at hlast
  · omega
  · next hmonth =>
    have hnext := sum_take_succ (monthLengths (isLeap d.year)) (d.month - 1)
    rw [Nat.sub_add_cancel (by omega)] at hnext
    refine ⟨by omega, ?_, ?_, ?_⟩
    · refine Nat.not_lt.1 fun hlate => ?_
      have hlength : (monthLengths (isLeap d.year)).length = 12 := rfl
      rw [List.getD_eq_getElem?_getD, List.getElem?_eq_none (by omega)] at hlast
      exact absurd hlast (by simp; omega)
    · rw [dayNumber, daysBeforeMonth_eq]
      omega
    · rw [dayNumber, daysBeforeMonth_eq]
      omega

/-- A later date has a greater day number. -/
theorem Date.dayNumber_lt {d e : Date} (hd : d.Exists) (he : e.Exists)
    (h : d.year < e.year ∨ d.year = e.year ∧ (d.month < e.month ∨ d.month = e.month ∧ d.day < e.day)) :
    d.dayNumber < e.dayNumber := by
  obtain ⟨-, hdmonth, -, hdhigh⟩ := dayNumber_bounds hd
  obtain ⟨hemonth, -, helow, -⟩ := dayNumber_bounds he
  rcases h with hyear | ⟨hyear, hmonth | ⟨hmonth, hday⟩⟩
  · have hnext := daysBeforeYear_succ d.year
    have hle := daysBeforeYear_le (y := d.year + 1) (z := e.year) (by omega)
    have hsum := sum_take_le (monthLengths (isLeap d.year)) hdmonth
    rw [show (monthLengths (isLeap d.year)).take 12 = monthLengths (isLeap d.year) from rfl] at hsum
    omega
  · have hsum := sum_take_le (monthLengths (isLeap d.year)) (show d.month ≤ e.month - 1 by omega)
    rw [← hyear] at helow
    omega
  · rw [dayNumber, dayNumber, hyear, hmonth]
    omega

/-- The day number of the date of a day is the day. -/
theorem dayNumber_ofDayNumber (n : Int) : (Date.ofDayNumber n).dayNumber = n := by
  obtain ⟨i, -, hlow, -, heq⟩ := ofDayNumber_spec n
  have hyear := (yearOfDay_spec n).1
  rw [heq, Date.dayNumber, daysBeforeMonth_eq]
  simp only [Nat.add_sub_cancel]
  rw [dayOfYear] at hlow ⊢
  omega

/-- The day after a date: the next one of the month, or the first one of the next month or of the
next year. -/
def Date.next (d : Date) : Date :=
  if d.day < monthLength d.year d.month then { d with day := d.day + 1 }
  else if d.month < 12 then ⟨d.year, d.month + 1, 1⟩
  else ⟨d.year + 1, 1, 1⟩

theorem daysBeforeMonth_succ (year : Int) {month : Nat} (h : 0 < month) :
    daysBeforeMonth year (month + 1) = daysBeforeMonth year month + monthLength year month := by
  have hsum := sum_take_succ (monthLengths (isLeap year)) (month - 1)
  rw [Nat.sub_add_cancel h] at hsum
  rw [daysBeforeMonth_eq, daysBeforeMonth_eq, monthLength, if_neg (by omega), Nat.add_sub_cancel]
  exact hsum

theorem monthLength_pos (year : Int) :
    ∀ month, 0 < month → month ≤ 12 → 0 < monthLength year month := by
  have hlengths : ∀ leap, ∀ i < 12, 0 < (monthLengths leap).getD i 0 := by decide
  intro month hpos hle
  rw [monthLength, if_neg (by omega)]
  exact hlengths _ _ (by omega)

theorem Date.exists_next {d : Date} (h : d.Exists) : d.next.Exists := by
  obtain ⟨hpos, hle, -, -⟩ := dayNumber_bounds h
  unfold Date.next
  split
  · next hday => exact ⟨Nat.succ_pos _, hday⟩
  · split
    · next hmonth => exact ⟨Nat.le_refl 1, monthLength_pos _ _ (Nat.succ_pos _) hmonth⟩
    · exact ⟨Nat.le_refl 1, monthLength_pos _ 1 Nat.one_pos (by decide)⟩

/-- The next day has the next number. -/
theorem Date.dayNumber_next {d : Date} (h : d.Exists) : d.next.dayNumber = d.dayNumber + 1 := by
  obtain ⟨hpos, hle, -, -⟩ := dayNumber_bounds h
  obtain ⟨hday, hlast⟩ := h
  have hsucc := daysBeforeMonth_succ d.year hpos
  unfold Date.next
  split
  · simp only [dayNumber]
    omega
  · next hover =>
    split
    · simp only [dayNumber]
      omega
    · have hmonth : d.month = 12 := by omega
      have hyear := daysBeforeYear_succ d.year
      rw [hmonth] at hsucc hlast hover
      have hall : daysBeforeMonth d.year (12 + 1) = (monthLengths (isLeap d.year)).sum := rfl
      have hnone : daysBeforeMonth (d.year + 1) 1 = 0 := rfl
      simp only [dayNumber, hnone, hmonth]
      omega

/-- A date is known by its day number. -/
theorem Date.eq_of_dayNumber {d e : Date} (hd : d.Exists) (he : e.Exists)
    (h : d.dayNumber = e.dayNumber) : d = e := by
  have hde := fun hless => dayNumber_lt hd he hless
  have hed := fun hless => dayNumber_lt he hd hless
  obtain ⟨year, month, day⟩ := d
  obtain ⟨year', month', day'⟩ := e
  simp only at hde hed
  simp only [mk.injEq]
  omega

theorem Date.ofDayNumber_dayNumber {d : Date} (h : d.Exists) : ofDayNumber d.dayNumber = d :=
  eq_of_dayNumber (exists_ofDayNumber _) h (dayNumber_ofDayNumber _)

theorem next_ofDayNumber (n : Int) : (Date.ofDayNumber n).next = Date.ofDayNumber (n + 1) := by
  apply Date.eq_of_dayNumber (Date.exists_next (exists_ofDayNumber n)) (exists_ofDayNumber _)
  rw [Date.dayNumber_next (exists_ofDayNumber n), dayNumber_ofDayNumber, dayNumber_ofDayNumber]

/-- Going on from day to day counts the days. -/
theorem next_iterate_ofDayNumber (n : Int) (count : Nat) :
    Date.next^[count] (Date.ofDayNumber n) = Date.ofDayNumber (n + count) := by
  induction count with
  | zero => simp
  | succ count ih =>
    rw [Function.iterate_succ_apply', ih, next_ofDayNumber]
    congr 1
    omega

/-- Three numbers one after the other, of the given widths. -/
def threeNumbers (width a b c : Nat) : List Char :=
  lastDigits width a ++ lastDigits 2 b ++ lastDigits 2 c

theorem length_threeNumbers (width a b c : Nat) : (threeNumbers width a b c).length = width + 4 := by
  simp [threeNumbers]

/-- Texts of three numbers are in the order of the first numbers that differ. -/
theorem threeNumbers_lt {width a b c a' b' c' : Nat} (ha : a' < 10 ^ width) (hb : b' < 100)
    (hc : c' < 100) (h : a < a' ∨ a = a' ∧ (b < b' ∨ b = b' ∧ c < c')) :
    threeNumbers width a b c < threeNumbers width a' b' c' := by
  rw [threeNumbers, threeNumbers]
  rcases h with h | ⟨rfl, h | ⟨rfl, h⟩⟩
  · rw [List.append_assoc, List.append_assoc]
    exact append_lt_append (lastDigits_lt h ha) (by simp) _ _
  · exact append_lt_append (append_left_lt _ (lastDigits_lt h hb)) (by simp) _ _
  · exact append_left_lt _ (lastDigits_lt h hc)

/-- Digits of the right number are three numbers. -/
theorem exists_threeNumbers (width : Nat) {cs : List Char} (hlength : cs.length = width + 4)
    (h : ∀ c ∈ cs, c.isDigit) :
    ∃ a < 10 ^ width, ∃ b < 10 ^ 2, ∃ c < 10 ^ 2, cs = threeNumbers width a b c := by
  obtain ⟨a, ha, haeq⟩ := exists_lastDigits (cs.take width)
    fun c hc => h c (List.mem_of_mem_take hc)
  obtain ⟨b, hb, hbeq⟩ := exists_lastDigits ((cs.drop width).take 2)
    fun c hc => h c (List.mem_of_mem_drop (List.mem_of_mem_take hc))
  obtain ⟨c, hc, hceq⟩ := exists_lastDigits ((cs.drop width).drop 2)
    fun c hc => h c (List.mem_of_mem_drop (List.mem_of_mem_drop hc))
  have hfirst : (cs.take width).length = width := by
    rw [List.length_take]
    omega
  have hsecond : ((cs.drop width).take 2).length = 2 := by
    rw [List.length_take, List.length_drop]
    omega
  have hthird : ((cs.drop width).drop 2).length = 2 := by
    rw [List.length_drop, List.length_drop]
    omega
  rw [hfirst] at ha haeq
  rw [hsecond] at hb hbeq
  rw [hthird] at hc hceq
  refine ⟨a, ha, b, hb, c, hc, ?_⟩
  rw [threeNumbers, ← haeq, ← hbeq, ← hceq, List.append_assoc, List.take_append_drop,
    List.take_append_drop]

namespace Instant

/-- The instant falls into one of the years that have four digits. -/
def HasShortYear (t : Instant) : Prop := 0 ≤ t.date.year ∧ t.date.year ≤ 9999

/-- The compact text of an instant with four digits for the year. -/
theorem toList_compact {t : Instant} (h : t.HasShortYear) :
    t.compact.toList = threeNumbers 4 t.date.year.natAbs t.date.month t.date.day ++ 'T' ::
      (threeNumbers 2 (t.secondOfDay / 3600) (t.secondOfDay / 60 % 60) (t.secondOfDay % 60) ++
        ['Z']) := by
  obtain ⟨hlow, hhigh⟩ := h
  have hmonth : t.date.month ≤ 12 := month_ofDayNumber_le _
  have hday : t.date.day ≤ 31 := day_ofDayNumber_le _
  have hsecond : t.secondOfDay < 86400 := by
    rw [secondOfDay]
    omega
  have hyear : (yearText t.date.year).toList = lastDigits 4 t.date.year.natAbs := by
    rw [yearText, if_neg (by omega), if_neg (by omega), toList_padded (by decide) (by omega)]
  rw [compact]
  simp only [String.toList_append, hyear]
  rw [toList_padded (by decide) (by omega), toList_padded (by decide) (by omega),
    toList_padded (by decide) (by omega), toList_padded (by decide) (by omega),
    toList_padded (by decide) (by omega)]
  simp [threeNumbers]

/-- A later instant has a greater text. -/
theorem compact_lt {t u : Int} (ht : HasShortYear t) (hu : HasShortYear u) (h : t < u) :
    (compact t).toList < (compact u).toList := by
  rw [toList_compact ht, toList_compact hu]
  obtain ⟨htlow, -⟩ := ht
  obtain ⟨hulow, huhigh⟩ := hu
  have hmonth : (date u).month ≤ 12 := month_ofDayNumber_le _
  have hday : (date u).day ≤ 31 := day_ofDayNumber_le _
  have hsecond : secondOfDay t < 86400 ∧ secondOfDay u < 86400 := by
    rw [secondOfDay, secondOfDay]
    omega
  by_cases hdays : t / 86400 < u / 86400
  · have hdate : (date t).year < (date u).year ∨ (date t).year = (date u).year ∧
        ((date t).month < (date u).month ∨
          (date t).month = (date u).month ∧ (date t).day < (date u).day) :=
      ofDayNumber_lt (n := epochDay + t / 86400) (m := epochDay + u / 86400) (by omega)
    refine append_lt_append ?_ (by simp [length_threeNumbers]) _ _
    apply threeNumbers_lt <;> omega
  · have hsame : t / 86400 = u / 86400 := by omega
    have hdate : date t = date u := by rw [date, date, hsame]
    have hless : secondOfDay t < secondOfDay u := by
      rw [secondOfDay, secondOfDay]
      omega
    rw [hdate]
    refine append_left_lt _ (.cons (append_lt_append ?_ (by simp [length_threeNumbers]) _ _))
    apply threeNumbers_lt <;> omega

end Instant

end ManifestUpkeep.Calendar
