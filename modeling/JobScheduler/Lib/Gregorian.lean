import Mathlib.Tactic.IntervalCases
import Mathlib.Tactic.Linarith

/-!
# The Gregorian calendar

Days are numbered from 1 January 1970, which is day 0, in both directions.  Years
are numbered as usual, months from 0 and days of the month from 1.

## Main definitions

* `yearStart y`, `monthStart y m` — the first day of a year and of a month.
* `dayNumber y m d` — the day with the given date; months and days out of range
  carry over.
* `yearOf n`, `monthOf n`, `dayOf n`, `weekday n` — the date of a day.

## Main results

* `dayNumber_date` — the date of a day leads back to it.
* `yearOf_eq`, `monthOf_eq` — a date is determined by where the day lies.
* `exists_dayOf_weekday` — **every day of the month falls on every weekday**
  within 1096 days of any day.
-/

namespace Gregorian

/-- Leap years. -/
def isLeap (y : ℤ) : Bool := y % 4 = 0 && (y % 100 ≠ 0 || y % 400 = 0)

/-- The day number of 1 January. -/
def yearStart (y : ℤ) : ℤ :=
  365 * (y - 1970) + (y - 1969) / 4 - (y - 1901) / 100 + (y - 1601) / 400

/-- The days of a year before its month `m`. -/
def daysBefore (leap : Bool) (m : ℤ) : ℤ :=
  (367 * m + 5) / 12 - (if m ≤ 1 then 0 else if leap then 1 else 2)

/-- The day number of the first of a month. -/
def monthStart (y m : ℤ) : ℤ := yearStart y + daysBefore (isLeap y) m

/-- The day number of a date; months and days out of range carry over. -/
def dayNumber (y m d : ℤ) : ℤ := monthStart (y + m / 12) (m % 12) + d - 1

/-- The year of a day: a guess that is off by one at most, corrected. -/
def yearOf (n : ℤ) : ℤ :=
  let y := 1970 + 400 * n / 146097
  if n < yearStart y then y - 1 else if yearStart (y + 1) ≤ n then y + 1 else y

/-- The month of the `k`-th day of a year, from 0. -/
def monthAt (leap : Bool) (k : ℤ) : ℤ :=
  (12 * (k + (if k < 59 + (if leap then 1 else 0) then 0 else if leap then 1 else 2)) + 6) / 367

/-- The month of a day, from 0. -/
def monthOf (n : ℤ) : ℤ := monthAt (isLeap (yearOf n)) (n - yearStart (yearOf n))

/-- The day of the month of a day, from 1. -/
def dayOf (n : ℤ) : ℤ := n - monthStart (yearOf n) (monthOf n) + 1

/-- The weekday of a day, Sunday being 0; day 0 was a Thursday. -/
def weekday (n : ℤ) : ℤ := (n + 4) % 7

/-! ### Years -/

theorem isLeap_iff {y : ℤ} : isLeap y = true ↔ y % 4 = 0 ∧ (y % 100 ≠ 0 ∨ y % 400 = 0) := by
  simp [isLeap]

theorem isLeap_eq_false_iff {y : ℤ} :
    isLeap y = false ↔ ¬ (y % 4 = 0 ∧ (y % 100 ≠ 0 ∨ y % 400 = 0)) := by
  rw [← isLeap_iff, Bool.not_eq_true]

/-- A year has 365 days, or 366. -/
theorem yearStart_succ (y : ℤ) :
    yearStart (y + 1) = yearStart y + 365 + (if isLeap y then 1 else 0) := by
  cases h : isLeap y
  · rw [isLeap_eq_false_iff] at h
    simp only [yearStart, Bool.false_eq_true, if_false]
    omega
  · rw [isLeap_iff] at h
    simp only [yearStart, if_true]
    omega

theorem yearStart_add_le {y y' : ℤ} (h : y < y') : yearStart y + 365 ≤ yearStart y' := by
  unfold yearStart
  omega

theorem yearStart_mono {y y' : ℤ} (h : y ≤ y') : yearStart y ≤ yearStart y' := by
  rcases eq_or_lt_of_le h with rfl | h
  · exact le_refl _
  · have := yearStart_add_le h
    omega

/-- Two leap years never follow each other. -/
theorem not_isLeap_succ {y : ℤ} (h : isLeap y = true) : isLeap (y + 1) = false := by
  rw [isLeap_iff] at h
  rw [isLeap_eq_false_iff]
  omega

theorem yearStart_yearOf (n : ℤ) : yearStart (yearOf n) ≤ n ∧ n < yearStart (yearOf n + 1) := by
  have hguess : yearStart (1970 + 400 * n / 146097 - 1) ≤ n ∧
      n < yearStart (1970 + 400 * n / 146097 + 1 + 1) := by
    unfold yearStart
    omega
  unfold yearOf
  dsimp only
  split
  · next h => exact ⟨hguess.1, by rw [sub_add_cancel]; exact h⟩
  split
  · next h => exact ⟨h, hguess.2⟩
  · next h1 h2 => exact ⟨not_lt.mp h1, not_le.mp h2⟩

/-- A day lies in exactly one year. -/
theorem yearOf_eq {n y : ℤ} (h1 : yearStart y ≤ n) (h2 : n < yearStart (y + 1)) : yearOf n = y := by
  obtain ⟨h3, h4⟩ := yearStart_yearOf n
  rcases lt_trichotomy (yearOf n) y with h | h | h
  · rcases eq_or_lt_of_le (show yearOf n + 1 ≤ y by omega) with heq | hlt
    · rw [heq] at h4; omega
    · have := yearStart_add_le hlt; omega
  · exact h
  · rcases eq_or_lt_of_le (show y + 1 ≤ yearOf n by omega) with heq | hlt
    · rw [heq] at h2; omega
    · have := yearStart_add_le hlt; omega

/-- A day lies in a year or later when that year has begun. -/
theorem le_yearOf_iff {n y : ℤ} : y ≤ yearOf n ↔ yearStart y ≤ n := by
  obtain ⟨h1, h2⟩ := yearStart_yearOf n
  constructor
  · intro h
    exact le_trans (yearStart_mono h) h1
  · intro h
    by_contra hlt
    have := yearStart_mono (show yearOf n + 1 ≤ y by omega)
    omega

theorem yearOf_mono {n n' : ℤ} (h : n ≤ n') : yearOf n ≤ yearOf n' :=
  le_yearOf_iff.mpr (le_trans (yearStart_yearOf n).1 h)

/-! ### Months -/

theorem daysBefore_bounds (leap : Bool) {m : ℤ} (h1 : 0 ≤ m) (h2 : m ≤ 11) :
    0 ≤ daysBefore leap m ∧ daysBefore leap m ≤ 334 + (if leap then 1 else 0) := by
  unfold daysBefore
  cases leap <;> simp only [Bool.false_eq_true, if_true, if_false] <;> split <;> omega

/-- The months of a year follow each other. -/
theorem daysBefore_add_le (leap : Bool) {m m' : ℤ} (h : m < m') :
    daysBefore leap m + 28 ≤ daysBefore leap m' := by
  unfold daysBefore
  cases leap <;> simp only [Bool.false_eq_true, if_true, if_false] <;>
    split <;> split <;> omega

/-- A month has 31 days at most. -/
theorem daysBefore_succ_le (leap : Bool) {m : ℤ} (h0 : 0 ≤ m) :
    daysBefore leap (m + 1) ≤ daysBefore leap m + 31 := by
  unfold daysBefore
  cases leap <;> simp only [Bool.false_eq_true, if_true, if_false] <;>
    split <;> split <;> omega

/-- The month of a day of the year. -/
theorem daysBefore_monthAt (leap : Bool) {k : ℤ} (h1 : 0 ≤ k)
    (h2 : k < 365 + (if leap then 1 else 0)) :
    0 ≤ monthAt leap k ∧ monthAt leap k ≤ 11 ∧ daysBefore leap (monthAt leap k) ≤ k ∧
      k < daysBefore leap (monthAt leap k + 1) := by
  unfold monthAt daysBefore
  cases leap <;> simp only [Bool.false_eq_true, if_true, if_false] at h2 ⊢ <;>
    split <;> refine ⟨?_, ?_, ?_, ?_⟩ <;> (try split) <;> omega

theorem monthOf_spec (n : ℤ) : 0 ≤ monthOf n ∧ monthOf n ≤ 11 ∧
    monthStart (yearOf n) (monthOf n) ≤ n ∧ n < monthStart (yearOf n) (monthOf n + 1) := by
  obtain ⟨h1, h2⟩ := yearStart_yearOf n
  rw [yearStart_succ] at h2
  obtain ⟨h3, h4, h5, h6⟩ := daysBefore_monthAt (isLeap (yearOf n))
    (k := n - yearStart (yearOf n)) (by omega) (by omega)
  unfold monthStart monthOf
  exact ⟨h3, h4, by omega, by omega⟩

/-- A day lies in exactly one month of its year. -/
theorem monthOf_eq {n y m : ℤ} (hy : yearOf n = y) (h1 : monthStart y m ≤ n)
    (h2 : n < monthStart y (m + 1)) : monthOf n = m := by
  obtain ⟨h3, h4, h5, h6⟩ := monthOf_spec n
  rw [hy] at h5 h6
  unfold monthStart at h1 h2 h5 h6
  rcases lt_trichotomy (monthOf n) m with h | h | h
  · rcases eq_or_lt_of_le (show monthOf n + 1 ≤ m by omega) with heq | hlt
    · rw [heq] at h6; omega
    · have := daysBefore_add_le (isLeap y) hlt; omega
  · exact h
  · rcases eq_or_lt_of_le (show m + 1 ≤ monthOf n by omega) with heq | hlt
    · rw [heq] at h2; omega
    · have := daysBefore_add_le (isLeap y) hlt; omega

/-- A day before its year's month `m` lies before that month's first day. -/
theorem lt_monthStart {n m : ℤ} (h : monthOf n < m) : n < monthStart (yearOf n) m := by
  obtain ⟨h1, -, -, h2⟩ := monthOf_spec n
  rcases eq_or_lt_of_le (show monthOf n + 1 ≤ m by omega) with heq | hlt
  · rwa [← heq]
  · have := daysBefore_add_le (isLeap (yearOf n)) hlt
    unfold monthStart at h2 ⊢
    omega

theorem dayOf_bounds (n : ℤ) : 1 ≤ dayOf n ∧ dayOf n ≤ 31 := by
  obtain ⟨h0, -, h1, h2⟩ := monthOf_spec n
  have := daysBefore_succ_le (isLeap (yearOf n)) h0
  unfold dayOf
  unfold monthStart at h1 h2 ⊢
  omega

theorem weekday_bounds (n : ℤ) : 0 ≤ weekday n ∧ weekday n < 7 := by
  unfold weekday
  omega

/-! ### Dates -/

/-- **The date of a day leads back to it.** -/
theorem dayNumber_date (n : ℤ) : dayNumber (yearOf n) (monthOf n) (dayOf n) = n := by
  obtain ⟨h1, h2, -, -⟩ := monthOf_spec n
  rw [dayNumber, Int.ediv_eq_zero_of_lt h1 (by omega), Int.emod_eq_of_lt h1 (by omega), dayOf,
    add_zero]
  omega

theorem dayNumber_of_month {y m d : ℤ} (h1 : 0 ≤ m) (h2 : m ≤ 11) :
    dayNumber y m d = monthStart y m + d - 1 := by
  rw [dayNumber, Int.ediv_eq_zero_of_lt h1 (by omega), Int.emod_eq_of_lt h1 (by omega),
    add_zero]

/-- Thirty-one days from the first of a month stay in its year. -/
theorem yearOf_monthStart_add {y m d : ℤ} (h1 : 0 ≤ m) (h2 : m ≤ 11) (h3 : 0 ≤ d)
    (h4 : d ≤ 30) : yearOf (monthStart y m + d) = y := by
  have hb := daysBefore_bounds (isLeap y) h1 h2
  refine yearOf_eq ?_ ?_
  · unfold monthStart; omega
  · rw [yearStart_succ]; unfold monthStart; omega

/-- A day of a month that is long enough has the date it is named by. -/
theorem date_monthStart_add {y m d : ℤ} (h1 : 0 ≤ m) (h2 : m ≤ 11) (h3 : 0 ≤ d) (h4 : d ≤ 30)
    (hlen : d < daysBefore (isLeap y) (m + 1) - daysBefore (isLeap y) m) :
    dayOf (monthStart y m + d) = d + 1 := by
  have hy := yearOf_monthStart_add (y := y) h1 h2 h3 h4
  have hm : monthOf (monthStart y m + d) = m := by
    refine monthOf_eq hy (by omega) ?_
    unfold monthStart
    omega
  rw [dayOf, hy, hm]
  omega

/-- The first of a later month is at least 28 days on. -/
private theorem firstOfMonth_add_le {n n' : ℤ}
    (h : monthStart (yearOf n) (monthOf n) < monthStart (yearOf n') (monthOf n')) :
    monthStart (yearOf n) (monthOf n) + 28 ≤ monthStart (yearOf n') (monthOf n') := by
  obtain ⟨h0, h11, -, -⟩ := monthOf_spec n
  obtain ⟨h0', h11', -, -⟩ := monthOf_spec n'
  have hb := daysBefore_bounds (isLeap (yearOf n)) h0 h11
  have hb' := daysBefore_bounds (isLeap (yearOf n')) h0' h11'
  have hnext := yearStart_succ (yearOf n)
  rcases lt_trichotomy (yearOf n) (yearOf n') with hy | hy | hy
  · have hle := yearStart_mono (show yearOf n + 1 ≤ yearOf n' by omega)
    unfold monthStart
    omega
  · rw [← hy] at h ⊢
    rcases lt_or_ge (monthOf n) (monthOf n') with hm | hm
    · have := daysBefore_add_le (isLeap (yearOf n)) hm
      unfold monthStart
      omega
    · rcases eq_or_lt_of_le hm with hm | hm
      · rw [hm] at h
        omega
      · have := daysBefore_add_le (isLeap (yearOf n)) hm
        unfold monthStart at h
        omega
  · have hle := yearStart_add_le hy
    unfold monthStart at h
    omega

/-- Two days with the same number in their months are at least 28 days apart. -/
theorem add_le_of_dayOf_eq {n n' : ℤ} (h : n < n') (hd : dayOf n = dayOf n') : n + 28 ≤ n' := by
  unfold dayOf at hd
  have hfirst : monthStart (yearOf n) (monthOf n) + 28 ≤ monthStart (yearOf n') (monthOf n') :=
    firstOfMonth_add_le (by omega)
  omega

/-- Every number up to 31 is that of a day within a year. -/
theorem exists_dayOf (n : ℤ) {d : ℤ} (hd1 : 1 ≤ d) (hd2 : d ≤ 31) :
    ∃ n', n ≤ n' ∧ n' < n + 366 ∧ dayOf n' = d := by
  obtain ⟨h1, h2⟩ := yearStart_yearOf n
  have hnext := yearStart_succ (yearOf n)
  have hlast : monthStart (yearOf n) 11 = yearStart (yearOf n + 1) - 31 := by
    rw [hnext]
    unfold monthStart
    cases isLeap (yearOf n) <;> simp [daysBefore] <;> omega
  have hfirst : monthStart (yearOf n + 1) 0 = yearStart (yearOf n + 1) := by
    unfold monthStart
    simp [daysBefore]
  -- in December of the year, or else in January of the next one
  rcases le_or_gt n (monthStart (yearOf n) 11 + (d - 1)) with hle | hlt
  · refine ⟨monthStart (yearOf n) 11 + (d - 1), hle, ?_, ?_⟩
    · split at hnext <;> omega
    · rw [date_monthStart_add (by omega) (by omega) (by omega) (by omega)]
      · omega
      · cases isLeap (yearOf n) <;> simp [daysBefore] <;> omega
  · refine ⟨monthStart (yearOf n + 1) 0 + (d - 1), by omega, by omega, ?_⟩
    rw [date_monthStart_add (by omega) (by omega) (by omega) (by omega)]
    · omega
    · cases isLeap (yearOf n + 1) <;> simp [daysBefore] <;> omega

/-! ### Weekdays

The months with 31 days start 0, 59, 120, 181, 212, 273 and 334 days into a common
year, one day later from March on in a leap year.  Modulo 7 these leave out one
weekday of a year, and another one of the year after. -/

/-- The days from the start of the year to day `d` of its long months. -/
def longMonths : List ℤ := [0, 2, 4, 6, 7, 9, 11]

theorem longMonths_length (leap : Bool) {m : ℤ} (h : m ∈ longMonths) :
    0 ≤ m ∧ m ≤ 11 ∧ daysBefore leap (m + 1) - daysBefore leap m = 31 := by
  revert m
  cases leap <;> decide

/-- Within two years, the long months start on every weekday. -/
private theorem exists_longMonth (l₀ l₁ : Bool) (h : ¬ (l₀ = true ∧ l₁ = true)) :
    ∀ r : Fin 7, (∃ m ∈ longMonths, (daysBefore l₀ m) % 7 = (r : ℤ)) ∨
      ∃ m ∈ longMonths, (365 + (if l₀ then 1 else 0) + daysBefore l₁ m) % 7 = (r : ℤ) := by
  revert h
  revert l₀ l₁
  decide

theorem exists_dayOf_weekday (n : ℤ) {d w : ℤ} (hd1 : 1 ≤ d) (hd2 : d ≤ 31) (hw1 : 0 ≤ w)
    (hw2 : w < 7) : ∃ n', n ≤ n' ∧ n' ≤ n + 1096 ∧ dayOf n' = d ∧ weekday n' = w := by
  -- the two years after the year of `n`
  set y := yearOf n + 1 with hy
  have hn := yearStart_yearOf n
  have hstart := yearStart_succ (yearOf n)
  have hnext := yearStart_succ y
  have hlast := yearStart_succ (y + 1)
  rw [← hy] at hn hstart
  have hleap : ¬ (isLeap y = true ∧ isLeap (y + 1) = true) := by
    rintro ⟨h1, h2⟩
    rw [not_isLeap_succ h1] at h2
    simp at h2
  -- the residue that the start of the month must have
  have hr : 0 ≤ (w - (yearStart y + d + 3)) % 7 ∧ (w - (yearStart y + d + 3)) % 7 < 7 := by omega
  obtain ⟨r, hrr⟩ : ∃ r : Fin 7, (r : ℤ) = (w - (yearStart y + d + 3)) % 7 :=
    ⟨⟨((w - (yearStart y + d + 3)) % 7).toNat, by omega⟩, by simp only; omega⟩
  have hcases : ∀ z m, (z = y ∨ z = y + 1) → m ∈ longMonths →
      (yearStart z - yearStart y + daysBefore (isLeap z) m) % 7 = (r : ℤ) →
      ∃ n', n ≤ n' ∧ n' ≤ n + 1096 ∧ dayOf n' = d ∧ weekday n' = w := by
    intro z m hz hm hres
    obtain ⟨h0, h11, hlen⟩ := longMonths_length (isLeap z) hm
    have hb := daysBefore_bounds (isLeap z) h0 h11
    refine ⟨monthStart z m + (d - 1), ?_, ?_, ?_, ?_⟩
    · unfold monthStart
      rcases hz with rfl | rfl <;> split at hnext <;> omega
    · unfold monthStart
      rcases hz with rfl | rfl
      · split at hb <;> split at hstart <;> omega
      · split at hb <;> split at hstart <;> split at hnext <;>
          first | omega | (exfalso; exact hleap ⟨by assumption, by assumption⟩)
    · rw [date_monthStart_add h0 h11 (by omega) (by omega) (by omega)]
      omega
    · unfold weekday monthStart
      omega
  rcases exists_longMonth (isLeap y) (isLeap (y + 1)) hleap r with ⟨m, hm, hres⟩ | ⟨m, hm, hres⟩
  · exact hcases y m (Or.inl rfl) hm (by rw [sub_self, zero_add]; exact hres)
  · refine hcases (y + 1) m (Or.inr rfl) hm ?_
    rw [hnext, ← hres]
    congr 2
    omega

example : (yearOf 19782, monthOf 19782, dayOf 19782, weekday 19782) = (2024, 1, 29, 4) := by decide

end Gregorian
