import JobScheduler.Cron.Instant

/-!
# The stages of the search

Each stage looks at one field of the instant it is given.  When the value is in
the field's set it passes the instant on; otherwise it moves the instant and calls
the search again.

## Main definitions

* `clockMove`, `dayMove`, `monthMove` — where the search in one field moves an
  instant.
* `CronExpr.Matches` — the instants an expression denotes.

## Main results

* `monthStage_of_mem`, `monthStage_of_notMem`, and their likes for the other
  fields — **what each stage does with an instant.**
-/

namespace JobScheduler
namespace Cron

open CText Gregorian Instant

/-! ### The values of a set -/

theorem nextSetBit_spec {N : ℕ} {target : BitVec N} {offset v : ℕ}
    (h : nextSetBit target offset = some v) :
    offset ≤ v ∧ v < N ∧ target.getLsbD v = true := by
  have hmem := List.mem_of_find?_eq_some h
  have hbit := List.find?_some h
  rw [List.mem_range'_1] at hmem
  exact ⟨hmem.1, by omega, by simpa using hbit⟩

theorem nextSetBit_eq_none {N : ℕ} {target : BitVec N} {offset v : ℕ}
    (h : nextSetBit target offset = none) (hv : offset ≤ v) : target.getLsbD v = false := by
  rcases Nat.lt_or_ge v N with hN | hN
  · have := List.find?_eq_none.mp h v (List.mem_range'_1.mpr ⟨hv, by omega⟩)
    simpa using this
  · exact BitVec.getLsbD_of_ge _ _ hN

/-- A value of the set is found where it is. -/
theorem nextSetBit_self {N : ℕ} {target : BitVec N} {v : ℕ} (h : target.getLsbD v = true) :
    nextSetBit target v = some v := by
  have hN : v < N := BitVec.lt_of_getLsbD h
  obtain ⟨k, hk⟩ : ∃ k, N - v = k + 1 := ⟨N - v - 1, by omega⟩
  rw [nextSetBit, hk, List.range'_succ, List.find?_cons, h]

theorem nextSetBit_ne_self {N : ℕ} {target : BitVec N} {v offset : ℕ}
    (h : target.getLsbD v = false) : nextSetBit target offset ≠ some v := by
  intro hv
  rw [(nextSetBit_spec hv).2.2] at h
  simp at h

/-- The least value of a set. -/
def firstSetBit {N : ℕ} (target : BitVec N) : ℕ := (nextSetBit target 0).getD 0

theorem nextSetBit_zero {N : ℕ} {target : BitVec N} (h : target ≠ 0) :
    nextSetBit target 0 = some (firstSetBit target) := by
  cases hn : nextSetBit target 0 with
  | some v => rw [firstSetBit, hn, Option.getD_some]
  | none =>
    refine absurd (BitVec.eq_of_getLsbD_eq fun i _ => ?_) h
    rw [nextSetBit_eq_none hn (Nat.zero_le i)]
    simp

theorem firstSetBit_spec {N : ℕ} {target : BitVec N} (h : target ≠ 0) :
    firstSetBit target < N ∧ target.getLsbD (firstSetBit target) = true :=
  (nextSetBit_spec (nextSetBit_zero h)).2

/-! ### Moves -/

/-- Where the search in a clock field moves an instant: to the next value of the
set, or to the first one after the field `next` has gone up by one. -/
def clockMove {N : ℕ} (target : BitVec N) (field next : CronField) (markedFields : MarkedFields)
    (p : Instant) : Instant :=
  match nextSetBit target (p.get field).toNat with
  | some v => (p.set field v).reset markedFields
  | none => ((p.after next.unit).set field (firstSetBit target)).reset markedFields

/-- A day's date in another month of its year. -/
def inMonth (n m : ℤ) : ℤ := monthStart (yearOf n) m + dayOf n - 1

/-- A day's date in the next year. -/
def inNextYear (n : ℤ) : ℤ := monthStart (yearOf n + 1) (monthOf n) + dayOf n - 1

/-- Where the search in the months moves an instant. -/
def monthMove (target : BitVec 12) (markedFields : MarkedFields) (p : Instant) : Instant :=
  match nextSetBit target (monthOf p.day).toNat with
  | some m => Instant.reset markedFields { p with day := inMonth p.day m }
  | none =>
    Instant.reset markedFields
      { p with day := inMonth (inMonth (inNextYear p.day) 0) (firstSetBit target) }

/-- Whether a day is in both day sets. -/
def CronExpr.hasDay (cex : CronExpr) (n : ℤ) : Bool :=
  cex.daysOfMonth.getLsbD ((dayOf n).toNat - 1) && cex.daysOfWeek.getLsbD (weekday n).toNat

/-- The first of `k` days from `n` on that is in both day sets, or else the day
after them. -/
def CronExpr.nextDay (cex : CronExpr) : ℕ → ℤ → ℤ
  | 0, n => n
  | k + 1, n => if cex.hasDay n then n else cex.nextDay k (n + 1)

/-- Where the search in the days moves an instant. -/
def dayMove (cex : CronExpr) (markedFields : MarkedFields) (p : Instant) : Instant :=
  Instant.reset markedFields { p with day := cex.nextDay 366 p.day }

/-- The instants that an expression denotes. -/
structure CronExpr.Matches (cex : CronExpr) (p : Instant) : Prop where
  second : cex.seconds.getLsbD p.sec.toNat = true
  minute : cex.minutes.getLsbD p.min.toNat = true
  hour : cex.hours.getLsbD p.hour.toNat = true
  day : cex.hasDay p.day = true
  month : cex.months.getLsbD (monthOf p.day).toNat = true

instance (cex : CronExpr) (p : Instant) : Decidable (cex.Matches p) :=
  decidable_of_iff
    (cex.seconds.getLsbD p.sec.toNat = true ∧ cex.minutes.getLsbD p.min.toNat = true ∧
      cex.hours.getLsbD p.hour.toNat = true ∧ cex.hasDay p.day = true ∧
      cex.months.getLsbD (monthOf p.day).toNat = true)
    ⟨fun ⟨h1, h2, h3, h4, h5⟩ => ⟨h1, h2, h3, h4, h5⟩,
      fun ⟨h1, h2, h3, h4, h5⟩ => ⟨h1, h2, h3, h4, h5⟩⟩

/-! ### The search in a clock field -/

section Clock

variable {N : ℕ} {target : BitVec N} {f g : CronField} {markedFields : MarkedFields}
  {p : Instant}

theorem get_bounds (hf : IsClock f g) (h : p.Valid) : 0 ≤ p.get f ∧ p.get f < f.size := by
  obtain ⟨a, b, c, d, e, i, j⟩ := h
  cases hf <;> simp only [Instant.get, CronField.size] <;> omega

theorem set_set (hf : IsClock f g) (p : Instant) (v w : ℤ) : (p.set f v).set f w = p.set f w := by
  cases hf <;> rfl

theorem valid_clockMove (markedFields : MarkedFields) (hf : IsClock f g) (h : p.Valid)
    (hN : N = f.size) (hne : target ≠ 0) :
    (clockMove target f g markedFields p).Valid := by
  unfold clockMove
  split
  · next v hv =>
    have hlt := (nextSetBit_spec hv).2.1
    exact valid_reset (valid_set hf h (by omega) (by omega)) _
  · have hlt := (firstSetBit_spec hne).1
    have hafter := valid_after h (k := g.unit) (by cases hf <;> decide)
    exact valid_reset (valid_set hf hafter (by omega) (by omega)) _

theorem findNextField_of_mem (hmem : target.getLsbD (p.get f).toNat = true) :
    findNextField target p.tm (p.get f).toNat f g markedFields =
      .ok (some (p.get f).toNat, p.tm) := by
  rw [findNextField, nextSetBit_self hmem]
  simp only [pure_bind, ne_eq, not_true_eq_false, if_false]
  rfl

theorem findNextField_of_notMem (hf : IsClock f g) (h : p.Valid) (hN : N = f.size)
    (hne : target ≠ 0) (hmem : target.getLsbD (p.get f).toNat = false)
    (hmonth : markedFields .month = false) (hyear : markedFields .year = false) :
    ∃ u, u ≠ some (p.get f).toNat ∧
      findNextField target p.tm (p.get f).toNat f g markedFields =
        .ok (u, (clockMove target f g markedFields p).tm) := by
  refine ⟨some (match nextSetBit target (p.get f).toNat with
    | some v => v
    | none => firstSetBit target), ?_, ?_⟩
  · split
    · next v hv => rw [← hv]; exact nextSetBit_ne_self hmem
    · rw [← nextSetBit_zero hne]; exact nextSetBit_ne_self hmem
  · unfold findNextField clockMove
    cases hv : nextSetBit target (p.get f).toNat with
    | some v =>
      -- the next value of the set
      have hlt := (nextSetBit_spec hv).2.1
      have hset : some v ≠ some (p.get f).toNat := by rw [← hv]; exact nextSetBit_ne_self hmem
      have hvalid := valid_set (v := (v : ℤ)) hf h (by omega) (by omega)
      simp only [pure_bind, if_pos hset, Option.elim_some,
        setField_clock (v := (v : ℤ)) hf h (by omega) (by omega), ok_bind,
        resetAllFields_tm hvalid hmonth hyear]
      rfl
    | none =>
      -- the field wraps: its first value, one later in the field above
      have hlt := (firstSetBit_spec hne).1
      have hset : nextSetBit target 0 ≠ some (p.get f).toNat := nextSetBit_ne_self hmem
      have hafter := valid_after h (k := g.unit) (by cases hf <;> decide)
      have hzero := valid_set (v := 0) hf hafter (le_refl 0) (by cases hf <;> decide)
      have hvalid := valid_set (v := (firstSetBit target : ℤ)) hf hafter (by omega) (by omega)
      rw [nextSetBit_zero hne] at hset
      simp only [addToField_clock hf h, ok_bind, resetField_clock hf hafter, pure_bind,
        nextSetBit_zero hne, if_pos hset, Option.elim_some,
        setField_clock (v := (firstSetBit target : ℤ)) hf hzero (by omega) (by omega),
        set_set hf, resetAllFields_tm hvalid hmonth hyear]
      rfl

end Clock

/-! ### The search in the months -/

section Month

variable {p : Instant} {markedFields : MarkedFields}

theorem valid_withDay (h : p.Valid) {n : ℤ} (hn : 0 ≤ n) :
    ({ p with day := n } : Instant).Valid := by
  obtain ⟨a, b, c, d, e, f, g⟩ := h
  exact ⟨hn, b, c, d, e, f, g⟩

/-- The day of the month of `n`, in a month of a year, lies in that year. -/
theorem yearStart_le_date {n y m : ℤ} (h1 : 0 ≤ m) (h2 : m ≤ 11) :
    yearStart y ≤ monthStart y m + dayOf n - 1 ∧
      monthStart y m + dayOf n - 1 < yearStart (y + 1) := by
  have hd := dayOf_bounds n
  have hb := daysBefore_bounds (isLeap y) h1 h2
  rw [yearStart_succ]
  unfold monthStart
  omega

theorem yearStart_nonneg {n y : ℤ} (h : 0 ≤ n) (hy : yearOf n ≤ y) : 0 ≤ yearStart y :=
  calc (0 : ℤ) = yearStart 1970 := rfl
    _ ≤ yearStart y := yearStart_mono (le_trans (le_yearOf_iff.mpr h) hy)

theorem inMonth_nonneg {n m : ℤ} (h : 0 ≤ n) (h1 : 0 ≤ m) (h2 : m ≤ 11) : 0 ≤ inMonth n m :=
  le_trans (yearStart_nonneg h (le_refl _)) (yearStart_le_date h1 h2).1

theorem inNextYear_nonneg {n : ℤ} (h : 0 ≤ n) : 0 ≤ inNextYear n := by
  obtain ⟨h1, h2, -, -⟩ := monthOf_spec n
  exact le_trans (yearStart_nonneg h (by omega)) (yearStart_le_date h1 h2).1

/-- A date keeps its year when its month changes. -/
theorem yearOf_inMonth {n m : ℤ} (h1 : 0 ≤ m) (h2 : m ≤ 11) : yearOf (inMonth n m) = yearOf n := by
  obtain ⟨h3, h4⟩ := yearStart_le_date (n := n) h1 h2
  exact yearOf_eq h3 h4

theorem yearOf_inNextYear (n : ℤ) : yearOf (inNextYear n) = yearOf n + 1 := by
  obtain ⟨h1, h2, -, -⟩ := monthOf_spec n
  obtain ⟨h3, h4⟩ := yearStart_le_date (n := n) (y := yearOf n + 1) h1 h2
  exact yearOf_eq h3 h4

theorem setField_month (h : p.Valid) {m : ℤ} (h1 : 0 ≤ m) (h2 : m ≤ 11) :
    setField p.tm .month m = .ok ({ p with day := inMonth p.day m } : Instant).tm := by
  refine normalise_eq (valid_withDay h (inMonth_nonneg h.day_nonneg h1 h2)) ?_
  simp only [Tm.time, Instant.tm, Instant.time, sub_add_cancel, dayNumber_of_month h1 h2, inMonth]

theorem resetField_month (h : p.Valid) :
    resetField p.tm .month = .ok ({ p with day := inMonth p.day 0 } : Instant).tm :=
  setField_month h (le_refl 0) (by decide)

theorem addToField_year (h : p.Valid) :
    addToField p.tm .year 1 = .ok ({ p with day := inNextYear p.day } : Instant).tm := by
  obtain ⟨h1, h2, -, -⟩ := monthOf_spec p.day
  refine normalise_eq (valid_withDay h (inNextYear_nonneg h.day_nonneg)) ?_
  have hyear : yearOf p.day - 1900 + 1 + 1900 = yearOf p.day + 1 := by omega
  simp only [Tm.time, Instant.tm, Instant.time, hyear, dayNumber_of_month h1 h2, inNextYear]

theorem valid_monthMove {target : BitVec 12} (markedFields : MarkedFields) (h : p.Valid)
    (hne : target ≠ 0) :
    (monthMove target markedFields p).Valid := by
  have h0 := h.day_nonneg
  unfold monthMove
  split
  · next m hm =>
    have hlt := (nextSetBit_spec hm).2.1
    exact valid_reset (valid_withDay h (inMonth_nonneg h0 (by omega) (by omega))) _
  · have hlt := (firstSetBit_spec hne).1
    have h1 := inMonth_nonneg (m := 0) (inNextYear_nonneg h0) (le_refl 0) (by decide)
    exact valid_reset (valid_withDay h (inMonth_nonneg h1 (by omega) (by omega))) _

theorem findNextMonth_of_notMem {target : BitVec 12} (h : p.Valid) (hne : target ≠ 0)
    (hmem : target.getLsbD (monthOf p.day).toNat = false)
    (hmonth : markedFields .month = false) (hyear : markedFields .year = false) :
    ∃ u, u ≠ some (monthOf p.day).toNat ∧
      findNextField target p.tm (monthOf p.day).toNat .month .year markedFields =
        .ok (u, (monthMove target markedFields p).tm) := by
  have h0 := h.day_nonneg
  refine ⟨some (match nextSetBit target (monthOf p.day).toNat with
    | some v => v
    | none => firstSetBit target), ?_, ?_⟩
  · split
    · next v hv => rw [← hv]; exact nextSetBit_ne_self hmem
    · rw [← nextSetBit_zero hne]; exact nextSetBit_ne_self hmem
  · unfold findNextField monthMove
    cases hv : nextSetBit target (monthOf p.day).toNat with
    | some m =>
      have hlt := (nextSetBit_spec hv).2.1
      have hset : some m ≠ some (monthOf p.day).toNat := by
        rw [← hv]; exact nextSetBit_ne_self hmem
      have hvalid := valid_withDay h (inMonth_nonneg (m := m) h0 (by omega) (by omega))
      simp only [pure_bind, if_pos hset, Option.elim_some,
        setField_month (m := m) h (by omega) (by omega), ok_bind,
        resetAllFields_tm hvalid hmonth hyear]
      rfl
    | none =>
      -- the months wrap: the first month of the set, in the next year
      have hlt := (firstSetBit_spec hne).1
      have hset : nextSetBit target 0 ≠ some (monthOf p.day).toNat := nextSetBit_ne_self hmem
      have hn1 := inNextYear_nonneg h0
      have hn2 := inMonth_nonneg (m := 0) hn1 (le_refl 0) (by decide)
      have hn3 := inMonth_nonneg (m := firstSetBit target) hn2 (by omega) (by omega)
      have h1 := valid_withDay h hn1
      have h2 := valid_withDay h hn2
      rw [nextSetBit_zero hne] at hset
      simp only [addToField_year h, ok_bind, resetField_month h1, pure_bind,
        nextSetBit_zero hne, if_pos hset, Option.elim_some,
        setField_month (m := firstSetBit target) h2 (by omega) (by omega),
        resetAllFields_tm (valid_withDay h hn3) hmonth hyear]
      rfl

end Month

/-! ### The search in the days -/

section Day

variable {cex : CronExpr} {p : Instant} {markedFields : MarkedFields}

theorem testDay_eq (cex : CronExpr) (n : ℤ) :
    testDay cex.daysOfMonth (dayOf n).toNat cex.daysOfWeek (weekday n).toNat =
      .ok (cex.hasDay n) := by
  have h1 := dayOf_bounds n
  have h2 := weekday_bounds n
  have hm : (dayOf n).toNat - 1 < 31 := by omega
  have hw : (weekday n).toNat < 7 := by omega
  rw [testDay, bitsetTest, if_pos hm, bitsetTest, if_pos hw, ok_bind, CronExpr.hasDay]
  cases cex.daysOfMonth.getLsbD ((dayOf n).toNat - 1) <;> rfl

theorem nextDay_of_mem {n : ℤ} (h : cex.hasDay n = true) (k : ℕ) : cex.nextDay k n = n := by
  cases k with
  | zero => rfl
  | succ k => rw [CronExpr.nextDay, if_pos h]

theorem nextDay_of_notMem {n : ℤ} (h : cex.hasDay n = false) (k : ℕ) :
    cex.nextDay (k + 1) n = cex.nextDay k (n + 1) := by
  rw [CronExpr.nextDay, h, if_neg Bool.false_ne_true]

theorem le_nextDay (cex : CronExpr) : ∀ (k : ℕ) (n : ℤ), n ≤ cex.nextDay k n := by
  intro k
  induction k with
  | zero => intro n; exact le_refl n
  | succ k ih =>
    intro n
    rw [CronExpr.nextDay]
    split
    · exact le_refl n
    · have := ih (n + 1)
      omega

/-- The search never passes a day that is in both sets. -/
theorem nextDay_le {d : ℤ} (hd : cex.hasDay d = true) : ∀ (k : ℕ) (n : ℤ), n ≤ d →
    cex.nextDay k n ≤ d := by
  intro k
  induction k with
  | zero => intro n h; exact h
  | succ k ih =>
    intro n h
    rw [CronExpr.nextDay]
    split
    · exact h
    · next hn =>
      have hne : n ≠ d := fun heq => hn (heq ▸ hd)
      exact ih (n + 1) (by omega)

/-- The loop of `find_next_day`, from the date of a day on. -/
private theorem findNextDayLoop_eq (cex : CronExpr) (hday : markedFields .dayOfMonth = false)
    (hmonth : markedFields .month = false) (hyear : markedFields .year = false) :
    ∀ (left : ℕ) (p : Instant), p.Valid → p.reset markedFields = p →
      findNextDayLoop cex.daysOfMonth cex.daysOfWeek markedFields left p.tm (dayOf p.day).toNat
          (weekday p.day).toNat =
        .ok ((dayOf (cex.nextDay left p.day)).toNat,
          ({ p with day := cex.nextDay left p.day } : Instant).tm) := by
  intro left
  induction left with
  | zero =>
    intro p _ _
    rw [findNextDayLoop, testDay_eq, ok_bind]
    rfl
  | succ left ih =>
    intro p h hp
    rw [findNextDayLoop, testDay_eq, ok_bind]
    cases hmem : cex.hasDay p.day with
    | true =>
      rw [nextDay_of_mem hmem]
      rfl
    | false =>
      have hnext : ({ p with day := p.day + 1 } : Instant).Valid :=
        valid_withDay h (by have := h.day_nonneg; omega)
      -- the clock fields have been reset before, and a day more leaves them so
      have hreset : ({ p with day := p.day + 1 } : Instant).reset markedFields =
          { p with day := p.day + 1 } := by
        have h1 := congrArg Instant.hour hp
        have h2 := congrArg Instant.min hp
        have h3 := congrArg Instant.sec hp
        simp only [Instant.reset] at h1 h2 h3
        ext
        · simp only [Instant.reset, hday, Bool.false_eq_true, if_false]
        · exact h1
        · exact h2
        · exact h3
      rw [if_neg Bool.false_ne_true, addToField_day h, ok_bind,
        resetAllFields_tm hnext hmonth hyear, ok_bind, hreset, nextDay_of_notMem hmem]
      exact ih _ hnext hreset

theorem findNextDay_of_mem (hmem : cex.hasDay p.day = true) :
    findNextDay p.tm cex.daysOfMonth (dayOf p.day).toNat cex.daysOfWeek (weekday p.day).toNat
      markedFields = .ok ((dayOf p.day).toNat, p.tm) := by
  rw [findNextDay, findNextDayLoop, testDay_eq, hmem]
  rfl

theorem findNextDay_of_notMem (h : p.Valid) (hmem : cex.hasDay p.day = false)
    (hday : markedFields .dayOfMonth = false) (hmonth : markedFields .month = false)
    (hyear : markedFields .year = false) :
    findNextDay p.tm cex.daysOfMonth (dayOf p.day).toNat cex.daysOfWeek (weekday p.day).toNat
      markedFields =
        .ok ((dayOf (dayMove cex markedFields p).day).toNat, (dayMove cex markedFields p).tm) := by
  have hnext : ({ p with day := p.day + 1 } : Instant).Valid :=
    valid_withDay h (by have := h.day_nonneg; omega)
  -- the first round of the loop resets the clock fields, and the others keep them
  have hmove : dayMove cex markedFields p =
      { ({ p with day := p.day + 1 } : Instant).reset markedFields with
        day := cex.nextDay 365 (p.day + 1) } := by
    simp only [dayMove, Instant.reset, hday, Bool.false_eq_true, if_false,
      nextDay_of_notMem hmem 365]
  have hloop := findNextDayLoop_eq cex hday hmonth hyear 365 _
    (valid_reset hnext markedFields) (reset_reset _ hday)
  rw [findNextDay, findNextDayLoop, testDay_eq, hmem, ok_bind, if_neg Bool.false_ne_true,
    addToField_day h, ok_bind, resetAllFields_tm hnext hmonth hyear, ok_bind, hmove]
  have hdate : (({ p with day := p.day + 1 } : Instant).reset markedFields).day = p.day + 1 := by
    simp only [Instant.reset, hday, Bool.false_eq_true, if_false]
  rw [hdate] at hloop
  exact hloop

theorem valid_dayMove (h : p.Valid) : (dayMove cex markedFields p).Valid := by
  have h0 := h.day_nonneg
  have h1 := le_nextDay cex 366 p.day
  exact valid_reset (valid_withDay h (by omega)) _

theorem day_dayMove (hday : markedFields .dayOfMonth = false) :
    (dayMove cex markedFields p).day = cex.nextDay 366 p.day := by
  simp only [dayMove, Instant.reset, hday, Bool.false_eq_true, if_false]

theorem lt_day_dayMove (hmem : cex.hasDay p.day = false) (hday : markedFields .dayOfMonth = false) :
    p.day < (dayMove cex markedFields p).day := by
  have := le_nextDay cex 365 (p.day + 1)
  rw [day_dayMove hday, nextDay_of_notMem hmem 365]
  omega

end Day

/-! ### The stages -/

/-- The test for giving up, after a move of the month to a day of this number. -/
def tooLate (dot n : ℤ) : Bool := 4 < (yearOf n - 1900 - dot) % 2 ^ 64

section Stages

variable {cex : CronExpr} {again : Tm → Search} {dot : ℤ} {markedFields : MarkedFields}
  {p : Instant}

theorem orReturn_true (date : Tm) (rest : Tm → Search) :
    orReturn (.ok (true, date)) rest = rest date := rfl

theorem orReturn_false (date : Tm) (rest : Tm → Search) :
    orReturn (.ok (false, date)) rest = .ok (false, date) := rfl

theorem monthStage_of_mem (hmem : cex.months.getLsbD (monthOf p.day).toNat = true) :
    monthStage cex again dot markedFields p.tm = .ok (true, p.tm) := by
  have hfind : findNextField cex.months p.tm p.tm.mon.toNat .month .year markedFields =
      .ok (some (monthOf p.day).toNat, p.tm) := by
    rw [findNextField, show p.tm.mon = monthOf p.day from rfl, nextSetBit_self hmem]
    simp only [pure_bind, ne_eq, not_true_eq_false, if_false]
    rfl
  rw [monthStage, hfind]
  simp only [ok_bind, show p.tm.mon = monthOf p.day from rfl, ne_eq, not_true_eq_false, if_false]
  rfl

theorem monthStage_of_notMem (h : p.Valid) (hne : cex.months ≠ 0)
    (hmem : cex.months.getLsbD (monthOf p.day).toNat = false)
    (hmonth : markedFields .month = false) (hyear : markedFields .year = false) :
    monthStage cex again dot markedFields p.tm =
      if tooLate dot (monthMove cex.months markedFields p).day then
        .ok (false, (monthMove cex.months markedFields p).tm)
      else orReturn (again (monthMove cex.months markedFields p).tm)
          fun date => .ok (true, date) := by
  obtain ⟨u, hu, hfind⟩ := findNextMonth_of_notMem h hne hmem hmonth hyear
  rw [monthStage, show p.tm.mon = monthOf p.day from rfl, hfind]
  simp only [ok_bind, ne_eq, hu.symm, not_false_eq_true, if_true, tooLate, decide_eq_true_eq]
  rfl

theorem dayStage_of_mem (hmem : cex.hasDay p.day = true) :
    dayStage cex again dot markedFields p.tm =
      monthStage cex again dot (markField markedFields .dayOfMonth) p.tm := by
  rw [dayStage, show p.tm.mday = dayOf p.day from rfl, show p.tm.wday = weekday p.day from rfl,
    findNextDay_of_mem hmem, ok_bind]
  exact if_pos rfl

theorem dayStage_of_notMem (h : p.Valid) (hmem : cex.hasDay p.day = false)
    (hday : markedFields .dayOfMonth = false) (hmonth : markedFields .month = false)
    (hyear : markedFields .year = false) :
    dayStage cex again dot markedFields p.tm =
      if dayOf p.day = dayOf (dayMove cex markedFields p).day then
        monthStage cex again dot (markField markedFields .dayOfMonth)
          (dayMove cex markedFields p).tm
      else
        orReturn (again (dayMove cex markedFields p).tm)
          (monthStage cex again dot markedFields) := by
  have h1 := dayOf_bounds p.day
  have h2 := dayOf_bounds (dayMove cex markedFields p).day
  rw [dayStage, show p.tm.mday = dayOf p.day from rfl, show p.tm.wday = weekday p.day from rfl,
    findNextDay_of_notMem h hmem hday hmonth hyear, ok_bind]
  have hiff : (dayOf p.day).toNat = (dayOf (dayMove cex markedFields p).day).toNat ↔
      dayOf p.day = dayOf (dayMove cex markedFields p).day := by omega
  simp only [hiff]

theorem hourStage_of_mem (hmem : cex.hours.getLsbD p.hour.toNat = true) :
    hourStage cex again dot markedFields p.tm =
      dayStage cex again dot (markField markedFields .hourOfDay) p.tm := by
  rw [hourStage, show p.tm.hour = p.get .hourOfDay from rfl,
    findNextField_of_mem (f := .hourOfDay) hmem, ok_bind]
  exact if_pos rfl

theorem hourStage_of_notMem (h : p.Valid) (hne : cex.hours ≠ 0)
    (hmem : cex.hours.getLsbD p.hour.toNat = false)
    (hmonth : markedFields .month = false) (hyear : markedFields .year = false) :
    hourStage cex again dot markedFields p.tm =
      orReturn (again (clockMove cex.hours .hourOfDay .dayOfWeek markedFields p).tm)
        (dayStage cex again dot markedFields) := by
  obtain ⟨u, hu, hfind⟩ := findNextField_of_notMem (N := 24) .hour h rfl hne hmem hmonth hyear
  rw [hourStage, show p.tm.hour = p.get .hourOfDay from rfl, hfind, ok_bind]
  exact if_neg hu.symm

theorem minuteStage_of_mem (hmem : cex.minutes.getLsbD p.min.toNat = true) :
    minuteStage cex again dot markedFields p.tm =
      hourStage cex again dot (markField markedFields .minute) p.tm := by
  rw [minuteStage, show p.tm.min = p.get .minute from rfl,
    findNextField_of_mem (f := .minute) hmem, ok_bind]
  exact if_pos rfl

theorem minuteStage_of_notMem (h : p.Valid) (hne : cex.minutes ≠ 0)
    (hmem : cex.minutes.getLsbD p.min.toNat = false)
    (hmonth : markedFields .month = false) (hyear : markedFields .year = false) :
    minuteStage cex again dot markedFields p.tm =
      orReturn (again (clockMove cex.minutes .minute .hourOfDay markedFields p).tm)
        (hourStage cex again dot markedFields) := by
  obtain ⟨u, hu, hfind⟩ := findNextField_of_notMem (N := 60) .minute h rfl hne hmem hmonth hyear
  rw [minuteStage, show p.tm.min = p.get .minute from rfl, hfind, ok_bind]
  exact if_neg hu.symm

theorem secondStage_of_mem (hmem : cex.seconds.getLsbD p.sec.toNat = true) :
    secondStage cex again dot p.tm =
      minuteStage cex again dot (markField emptyList .second) p.tm := by
  rw [secondStage, show p.tm.sec = p.get .second from rfl,
    findNextField_of_mem (f := .second) hmem, ok_bind]
  exact if_pos rfl

theorem secondStage_of_notMem (h : p.Valid) (hne : cex.seconds ≠ 0)
    (hmem : cex.seconds.getLsbD p.sec.toNat = false) :
    secondStage cex again dot p.tm =
      minuteStage cex again dot emptyList
        (clockMove cex.seconds .second .minute emptyList p).tm := by
  obtain ⟨u, hu, hfind⟩ := findNextField_of_notMem (N := 60) .second h rfl hne hmem
    (show emptyList .month = false from rfl) rfl
  rw [secondStage, show p.tm.sec = p.get .second from rfl, hfind, ok_bind]
  exact if_neg hu.symm

end Stages

end Cron
end JobScheduler
