import JobScheduler.Cron.Stages

/-!
# The search ends

Every call of `find_next` starts later than the call that made it, and none starts
beyond a fixed day.  The calls that lie within the years that the search may reach
are bounded by its year limit.  Past that limit the months only end the search, and
an instant whose clock fields are *low*, in their set or zero, is never carried into
the next day, so the search stays within the first day there that both day sets
have.

## Main definitions

* `CronExpr.Low` — no clock field of the instant can carry.
* `CronExpr.Horizon` — a day that the search does not pass.
* `CronExpr.Within` — the starts of calls that keep within a horizon.

## Main results

* `findNext_good` — **the search returns**, on a low instant within the horizon.
* `exists_horizon` — every expression with a value in each field has a horizon.
-/

namespace JobScheduler
namespace Cron

open CText Gregorian Instant

/-! ### Moves go forward -/

section Moves

variable {p : Instant}

theorem sec_after (h : p.Valid) {k : ℤ} (hk : k % 60 = 0) : (p.after k).sec = p.sec := by
  obtain ⟨a, b, c, d, e, f, g⟩ := h
  simp only [after, ofTime, time]
  omega

theorem min_after (h : p.Valid) {k : ℤ} (hk : k % 3600 = 0) : (p.after k).min = p.min := by
  obtain ⟨a, b, c, d, e, f, g⟩ := h
  simp only [after, ofTime, time]
  omega

theorem day_after_le (h : p.Valid) {k : ℤ} (hk : k ≤ 86400) : (p.after k).day ≤ p.day + 1 := by
  obtain ⟨a, b, c, d, e, f, g⟩ := h
  simp only [after, ofTime, time]
  omega

theorem day_le_of_time_le {p q : Instant} (hp : p.Valid) (hq : q.Valid) (h : p.time ≤ q.time) :
    p.day ≤ q.day := by
  obtain ⟨a, b, c, d, e, f, g⟩ := hp
  obtain ⟨a', b', c', d', e', f', g'⟩ := hq
  simp only [time] at h
  omega

theorem time_lt_of_day_lt {p q : Instant} (hp : p.Valid) (hq : q.Valid) (h : p.day < q.day) :
    p.time < q.time := by
  obtain ⟨a, b, c, d, e, f, g⟩ := hp
  obtain ⟨a', b', c', d', e', f', g'⟩ := hq
  simp only [time]
  omega

/-- What a move of a clock field does to the other fields: those below it stay or
become zero, and those above it stay unless it carries, which it does not from
zero. -/
structure ClockMoved (f : CronField) (p q : Instant) : Prop where
  lt : p.time < q.time
  day_le : q.day ≤ p.day + 1
  sec : f ≠ .second → q.sec = 0 ∨ q.sec = p.sec
  min : f = .hourOfDay → q.min = 0 ∨ q.min = p.min
  day_of_zero : p.get f = 0 → q.day = p.day
  hour_of_zero : p.get f = 0 → f ≠ .hourOfDay → q.hour = p.hour
  min_of_zero : p.get f = 0 → f = .second → q.min = p.min

/-- The marks that the search holds when it looks at a clock field: fields below it. -/
structure MarkedBelow (f : CronField) (markedFields : MarkedFields) : Prop where
  second : f = .second → markedFields .second = false
  minute : f ≠ .hourOfDay → markedFields .minute = false
  hour : markedFields .hourOfDay = false
  day : markedFields .dayOfMonth = false
  month : markedFields .month = false
  year : markedFields .year = false

theorem clockMove_spec {N : ℕ} {target : BitVec N} {f g : CronField} {markedFields : MarkedFields}
    (hf : IsClock f g) (h : p.Valid) (hN : N = f.size) (hne : target ≠ 0)
    (hmem : target.getLsbD (p.get f).toNat = false) (hm : MarkedBelow f markedFields) :
    target.getLsbD ((clockMove target f g markedFields p).get f).toNat = true ∧
      ClockMoved f p (clockMove target f g markedFields p) := by
  have hget : ∀ v : ℤ, ∀ q : Instant, ((q.set f v).reset markedFields).get f = v := by
    intro v q
    cases hf <;>
      simp [Instant.get, Instant.set, Instant.reset, hm.second, hm.minute, hm.hour]
  unfold clockMove
  cases hv : nextSetBit target (p.get f).toNat with
  | some v =>
    -- no carry
    obtain ⟨hle, hlt, hbit⟩ := nextSetBit_spec hv
    have hb := get_bounds hf h
    have hne' : (p.get f).toNat ≠ v := fun heq => by rw [heq, hbit] at hmem; simp at hmem
    refine ⟨by rw [hget]; exact hbit, ?_⟩
    obtain ⟨a, b, c, d, e, i, j⟩ := h
    cases hf <;> simp only [Instant.get] at hb hle hne' <;> constructor <;>
      simp only [Instant.set, Instant.reset, Instant.time, Instant.get, hm.day, hm.hour, ne_eq,
        reduceCtorEq, not_false_eq_true, hm.minute, hm.second, Bool.false_eq_true, if_false,
        not_true_eq_false, IsEmpty.forall_iff, forall_const, implies_true] <;>
      (repeat' split) <;> omega
  | none =>
    -- a carry into the field above; zero is no later than any value
    obtain ⟨hlt, hbit⟩ := firstSetBit_spec hne
    refine ⟨by rw [hget]; exact hbit, ?_⟩
    have hb := get_bounds hf h
    have hpos : p.get f ≠ 0 := by
      intro h0
      rw [h0, Int.toNat_zero, nextSetBit_zero hne] at hv
      simp at hv
    have hq := valid_after h (k := g.unit) (by cases hf <;> decide)
    have htime := time_after p g.unit
    have hday := day_after_le h (k := g.unit) (by cases hf <;> decide)
    have hsec := sec_after h (k := g.unit) (by cases hf <;> decide)
    have hmin : f = .hourOfDay → (p.after g.unit).min = p.min :=
      fun heq => min_after h (by cases hf <;> first | decide | simp at heq)
    generalize p.after g.unit = q at *
    obtain ⟨a, b, c, d, e, i, j⟩ := h
    obtain ⟨a', b', c', d', e', i', j'⟩ := hq
    simp only [Instant.time] at htime
    cases hf <;> simp only [Instant.get] at hpos <;> simp only [CronField.unit] at htime <;>
      constructor <;>
      simp only [Instant.set, Instant.reset, Instant.time, Instant.get, hm.day, hm.hour, ne_eq,
        reduceCtorEq, not_false_eq_true, hm.minute, hm.second, Bool.false_eq_true, if_false,
        not_true_eq_false, IsEmpty.forall_iff, forall_const, implies_true] at hmin ⊢ <;>
      (repeat' split) <;> omega

/-- The first of a day's month lies no earlier than a first of the month before
the day. -/
theorem monthStart_le_firstOfMonth {n m : ℤ} (h : monthStart (yearOf n) m ≤ n) :
    monthStart (yearOf n) m ≤ firstOfMonth n := by
  by_contra hlt
  have hm : m ≤ monthOf n := by
    by_contra hm
    have := lt_monthStart (show monthOf n < m by omega)
    omega
  rcases eq_or_lt_of_le hm with rfl | hm
  · exact hlt (le_refl _)
  · have := daysBefore_add_le (isLeap (yearOf n)) hm
    unfold firstOfMonth monthStart at hlt
    omega

theorem yearOf_firstOfMonth (n : ℤ) : yearOf (firstOfMonth n) = yearOf n := by
  obtain ⟨h1, h2, -, -⟩ := monthOf_spec n
  have := yearOf_monthStart_add (y := yearOf n) (d := 0) h1 h2 (le_refl 0) (by decide)
  rwa [add_zero] at this

/-- A move of the months goes to a later day, in the same year or the next. -/
theorem monthMove_spec {target : BitVec 12} (markedFields : MarkedFields) (hne : target ≠ 0)
    (hmem : target.getLsbD (monthOf p.day).toNat = false) :
    p.day < (monthMove target markedFields p).day ∧
      yearOf (monthMove target markedFields p).day ≤ yearOf p.day + 1 := by
  -- the reset takes the new date to the first of its month, or leaves it
  have hreset : ∀ n m : ℤ, monthStart (yearOf n) m ≤ n →
      monthStart (yearOf n) m ≤ (Instant.reset markedFields { p with day := n }).day ∧
        yearOf (Instant.reset markedFields { p with day := n }).day = yearOf n := by
    intro n m hn
    simp only [Instant.reset]
    split
    · exact ⟨monthStart_le_firstOfMonth hn, yearOf_firstOfMonth n⟩
    · exact ⟨hn, rfl⟩
  obtain ⟨hm0, hm11, -, -⟩ := monthOf_spec p.day
  have hd := dayOf_bounds p.day
  unfold monthMove
  cases hv : nextSetBit target (monthOf p.day).toNat with
  | some m =>
    obtain ⟨hle, hlt, hbit⟩ := nextSetBit_spec hv
    have hne' : (monthOf p.day).toNat ≠ m := fun heq => by rw [heq, hbit] at hmem; simp at hmem
    have hyear : yearOf (inMonth p.day m) = yearOf p.day :=
      yearOf_inMonth (by omega) (by omega)
    obtain ⟨h1, h2⟩ := hreset (inMonth p.day m) m (by rw [hyear, inMonth]; omega)
    have hlater := lt_monthStart (n := p.day) (m := m) (by omega)
    rw [hyear] at h1 h2
    dsimp only
    omega
  | none =>
    have hlt := (firstSetBit_spec hne).1
    have h0 : yearOf (inMonth (inNextYear p.day) 0) = yearOf p.day + 1 := by
      rw [yearOf_inMonth (le_refl 0) (by decide), yearOf_inNextYear]
    have hyear : yearOf (inMonth (inMonth (inNextYear p.day) 0) (firstSetBit target)) =
        yearOf p.day + 1 := by
      rw [yearOf_inMonth (by omega) (by omega), h0]
    have hd' := dayOf_bounds (inMonth (inNextYear p.day) 0)
    obtain ⟨h1, h2⟩ := hreset (inMonth (inMonth (inNextYear p.day) 0) (firstSetBit target))
      (firstSetBit target) (by rw [hyear, inMonth, h0]; omega)
    have hlater := (yearStart_yearOf p.day).2
    have hfirst := (daysBefore_bounds (isLeap (yearOf p.day + 1)) (m := firstSetBit target)
      (by omega) (by omega)).1
    rw [hyear] at h1 h2
    unfold monthStart at h1
    dsimp only
    omega

end Moves

/-! ### Horizons -/

/-- No clock field can carry: each is in its set, or zero. -/
structure CronExpr.Low (cex : CronExpr) (p : Instant) : Prop where
  sec : p.sec = 0 ∨ cex.seconds.getLsbD p.sec.toNat = true
  min : p.min = 0 ∨ cex.minutes.getLsbD p.min.toNat = true
  hour : p.hour = 0 ∨ cex.hours.getLsbD p.hour.toNat = true

/-- A day `d` past the years the search may reach from `dot`, in both day sets. -/
structure CronExpr.Horizon (cex : CronExpr) (dot d : ℤ) : Prop where
  hasDay : cex.hasDay d = true
  low : yearStart (dot + 1905) ≤ d
  high : d < yearStart (dot + 2000)

/-- The start of a call that keeps within the horizon `d`: a day is left for each
clock field that may carry. -/
structure CronExpr.Within (cex : CronExpr) (dot d : ℤ) (p : Instant) : Prop where
  valid : p.Valid
  year : yearStart (dot + 1900) ≤ p.day
  hour : (p.hour = 0 ∨ cex.hours.getLsbD p.hour.toNat = true) ∧ p.day ≤ d ∨ p.day + 1 ≤ d
  min : p.min = 0 ∨ cex.minutes.getLsbD p.min.toNat = true ∨ p.day + 2 ≤ d
  sec : p.sec = 0 ∨ cex.seconds.getLsbD p.sec.toNat = true ∨ p.day + 3 ≤ d

/-- The call returns an instant, and if it returns true then a low one within the
horizon that is no earlier than its start; `K` holds if it is the start itself. -/
def Good (cex : CronExpr) (d : ℤ) (p : Instant) (K : Prop) (x : Search) : Prop :=
  ∃ res q, x = .ok (res, Instant.tm q) ∧ q.Valid ∧
    (res = true → cex.Low q ∧ q.day ≤ d ∧ p.time ≤ q.time ∧ (q.time = p.time → K))

/-- What is good from a later instant on is good. -/
theorem Good.later {cex : CronExpr} {d : ℤ} {p q : Instant} {K K' : Prop} {x : Search}
    (h : p.time < q.time) (hx : Good cex d q K x) : Good cex d p K' x := by
  obtain ⟨res, r, rfl, hr, hres⟩ := hx
  refine ⟨res, r, rfl, hr, ?_⟩
  intro htrue
  obtain ⟨hlow, hd, ht, -⟩ := hres htrue
  exact ⟨hlow, hd, by omega, fun heq => by omega⟩

theorem Good.imp {cex : CronExpr} {d : ℤ} {p : Instant} {K K' : Prop} {x : Search}
    (hK : K → K') (hx : Good cex d p K x) : Good cex d p K' x := by
  obtain ⟨res, r, rfl, hr, hres⟩ := hx
  refine ⟨res, r, rfl, hr, ?_⟩
  intro htrue
  obtain ⟨hlow, hd, ht, heq⟩ := hres htrue
  exact ⟨hlow, hd, ht, fun h => hK (heq h)⟩

/-- A call, and the rest of the function on what it leaves. -/
theorem Good.orReturn {cex : CronExpr} {d : ℤ} {p : Instant} {K : Prop}
    {x : Search} {rest : Tm → Search} (hx : Good cex d p K x)
    (hrest : ∀ q : Instant, q.Valid → cex.Low q → q.day ≤ d → p.time ≤ q.time →
      Good cex d q True (rest q.tm)) : Good cex d p True (orReturn x rest) := by
  obtain ⟨res, q, rfl, hq, hres⟩ := hx
  cases res with
  | false => exact ⟨false, q, rfl, hq, fun h => absurd h Bool.false_ne_true⟩
  | true =>
    obtain ⟨hlow, hd, ht, -⟩ := hres rfl
    obtain ⟨res, r, hr, hrv, hres'⟩ := hrest q hq hlow hd ht
    refine ⟨res, r, hr, hrv, ?_⟩
    intro htrue
    obtain ⟨hlow', hd', ht', -⟩ := hres' htrue
    exact ⟨hlow', hd', le_trans ht ht', fun _ => trivial⟩

/-! ### The stages keep within a horizon -/

section Stages

variable {cex : CronExpr} {dot d t₀ : ℤ} {again : Tm → Search} {markedFields : MarkedFields}
  {p : Instant}

/-- What the stages of a call that starts at `t₀` may assume of the calls they make. -/
def GoodAfter (cex : CronExpr) (dot d t₀ : ℤ) (again : Tm → Search) : Prop :=
  ∀ q : Instant, cex.Within dot d q → t₀ < q.time → Good cex d q (cex.Matches q) (again q.tm)

theorem CronExpr.Low.within (hlow : cex.Low p) (h : p.Valid)
    (hyear : yearStart (dot + 1900) ≤ p.day) (hd : p.day ≤ d) : cex.Within dot d p where
  valid := h
  year := hyear
  hour := Or.inl ⟨hlow.hour, hd⟩
  min := hlow.min.imp_right Or.inl
  sec := hlow.sec.imp_right Or.inl

theorem CronExpr.Low.withDay (hlow : cex.Low p) (n : ℤ) : cex.Low { p with day := n } :=
  ⟨hlow.sec, hlow.min, hlow.hour⟩

theorem CronExpr.Low.reset (hlow : cex.Low p) (markedFields : MarkedFields) :
    cex.Low (p.reset markedFields) := by
  obtain ⟨h1, h2, h3⟩ := hlow
  constructor <;> simp only [Instant.reset] <;> split <;> simp [*]

theorem monthStage_good (hne : cex.Nonempty) (hd : cex.Horizon dot d)
    (hagain : GoodAfter cex dot d t₀ again) (h : p.Valid) (hyear : yearStart (dot + 1900) ≤ p.day)
    (hlow : cex.Low p) (hpd : p.day ≤ d) (ht : t₀ ≤ p.time) (hmm : markedFields .month = false)
    (hmy : markedFields .year = false) :
    Good cex d p (cex.months.getLsbD (monthOf p.day).toNat = true)
      (monthStage cex again dot markedFields p.tm) := by
  cases hmem : cex.months.getLsbD (monthOf p.day).toNat with
  | true =>
    rw [monthStage_of_mem hmem]
    exact ⟨true, p, rfl, h, fun _ => ⟨hlow, hpd, le_refl _, fun _ => rfl⟩⟩
  | false =>
    rw [monthStage_of_notMem h hne.months hmem hmm hmy]
    obtain ⟨hday, hyear'⟩ := monthMove_spec markedFields hne.months hmem
    have hq := valid_monthMove markedFields h hne.months
    have hqlow : cex.Low (monthMove cex.months markedFields p) := by
      unfold monthMove
      split <;> exact (hlow.withDay _).reset _
    split
    · exact ⟨false, _, rfl, hq, fun h => absurd h Bool.false_ne_true⟩
    · next hlate =>
      -- the year limit keeps the move before the horizon
      generalize monthMove cex.months markedFields p = q at *
      have hy1 : dot + 1900 ≤ yearOf q.day := le_yearOf_iff.mpr (by omega)
      have hy2 : yearOf p.day < dot + 2000 := by
        by_contra hge
        have := le_yearOf_iff.mp (not_lt.mp hge)
        have := hd.high
        omega
      have hy3 : yearOf q.day < dot + 1905 := by
        simp only [tooLate, decide_eq_true_eq] at hlate
        omega
      have hqd : q.day < yearStart (dot + 1905) := by
        by_contra hge
        have := le_yearOf_iff.mpr (not_lt.mp hge)
        omega
      have hqt : p.time < q.time := time_lt_of_day_lt h hq hday
      have hwithin : cex.Within dot d q :=
        hqlow.within hq (by omega) (by have := hd.low; omega)
      refine ((hagain q hwithin (by omega)).orReturn ?_).later hqt
      intro r hr hrlow hrd _
      exact ⟨true, r, rfl, hr, fun _ => ⟨hrlow, hrd, le_refl _, fun _ => trivial⟩⟩

theorem dayStage_good (hne : cex.Nonempty) (hd : cex.Horizon dot d)
    (hagain : GoodAfter cex dot d t₀ again) (h : p.Valid) (hyear : yearStart (dot + 1900) ≤ p.day)
    (hlow : cex.Low p) (hpd : p.day ≤ d) (ht : t₀ ≤ p.time) (hm : markedFields .dayOfMonth = false)
    (hmm : markedFields .month = false) (hmy : markedFields .year = false) :
    Good cex d p (cex.hasDay p.day = true ∧ cex.months.getLsbD (monthOf p.day).toNat = true)
      (dayStage cex again dot markedFields p.tm) := by
  have hmm' : markField markedFields .dayOfMonth .month = false := by simp [markField, hmm]
  have hmy' : markField markedFields .dayOfMonth .year = false := by simp [markField, hmy]
  cases hmem : cex.hasDay p.day with
  | true =>
    rw [dayStage_of_mem hmem]
    exact (monthStage_good hne hd hagain h hyear hlow hpd ht hmm' hmy').imp fun hK => ⟨rfl, hK⟩
  | false =>
    rw [dayStage_of_notMem h hmem hm hmm hmy]
    have hq : (dayMove cex markedFields p).Valid := valid_dayMove h
    have hlater := lt_day_dayMove hmem hm
    have hqd : (dayMove cex markedFields p).day ≤ d := by
      rw [day_dayMove hm]
      exact nextDay_le hd.hasDay 366 p.day hpd
    have hqlow : cex.Low (dayMove cex markedFields p) :=
      (hlow.withDay _).reset _
    have hqt := time_lt_of_day_lt h hq hlater
    generalize dayMove cex markedFields p = q at *
    split
    · -- the same number in a later month: the search goes on without a call
      exact (monthStage_good hne hd hagain hq (by omega) hqlow hqd (by omega) hmm' hmy').later hqt
    · refine ((hagain q (hqlow.within hq (by omega) hqd) (by omega)).orReturn ?_).later hqt
      intro r hr hrlow hrd hrt
      have := day_le_of_time_le hq hr hrt
      exact (monthStage_good hne hd hagain hr (by omega) hrlow hrd (by omega) hmm hmy).imp
        fun _ => trivial

theorem hourStage_good (hne : cex.Nonempty) (hd : cex.Horizon dot d)
    (hagain : GoodAfter cex dot d t₀ again) (h : p.Valid) (hyear : yearStart (dot + 1900) ≤ p.day)
    (hsec : p.sec = 0 ∨ cex.seconds.getLsbD p.sec.toNat = true)
    (hmin : p.min = 0 ∨ cex.minutes.getLsbD p.min.toNat = true)
    (hhour : (p.hour = 0 ∨ cex.hours.getLsbD p.hour.toNat = true) ∧ p.day ≤ d ∨ p.day + 1 ≤ d)
    (ht : t₀ ≤ p.time) (hm : MarkedBelow .hourOfDay markedFields) :
    Good cex d p (cex.hours.getLsbD p.hour.toNat = true ∧ cex.hasDay p.day = true ∧
        cex.months.getLsbD (monthOf p.day).toNat = true)
      (hourStage cex again dot markedFields p.tm) := by
  cases hmem : cex.hours.getLsbD p.hour.toNat with
  | true =>
    rw [hourStage_of_mem hmem]
    exact (dayStage_good hne hd hagain h hyear ⟨hsec, hmin, Or.inr hmem⟩ (by omega) ht
      (by simp [markField, hm.day]) (by simp [markField, hm.month])
      (by simp [markField, hm.year])).imp fun hK => ⟨rfl, hK⟩
  | false =>
    rw [hourStage_of_notMem h hne.hours hmem hm.month hm.year]
    obtain ⟨hbit, hmoved⟩ := clockMove_spec (N := 24) .hour h rfl hne.hours hmem hm
    have hq := valid_clockMove (N := 24) markedFields .hour h rfl hne.hours
    generalize clockMove cex.hours .hourOfDay .dayOfWeek markedFields p = q at *
    have hpq := day_le_of_time_le h hq (le_of_lt hmoved.lt)
    have hqlow : cex.Low q := by
      refine ⟨?_, ?_, Or.inr hbit⟩
      · rcases hmoved.sec (by decide) with h0 | h0 <;> rw [h0]
        · exact Or.inl rfl
        · exact hsec
      · rcases hmoved.min rfl with h0 | h0 <;> rw [h0]
        · exact Or.inl rfl
        · exact hmin
    -- an hour that is zero carries into no other day, and any other one leaves a day's room
    have hqd : q.day ≤ d := by
      rcases hhour with ⟨h0 | h0, hle⟩ | hle
      · rw [hmoved.day_of_zero h0]; exact hle
      · rw [h0] at hmem; simp at hmem
      · exact le_trans hmoved.day_le hle
    have hlt := hmoved.lt
    refine ((hagain q (hqlow.within hq (by omega) hqd) (by omega)).orReturn ?_).later hlt
    intro r hr hrlow hrd hrt
    have := day_le_of_time_le hq hr hrt
    exact (dayStage_good hne hd hagain hr (by omega) hrlow hrd (by omega) hm.day hm.month
      hm.year).imp fun _ => trivial

theorem minuteStage_good (hne : cex.Nonempty) (hd : cex.Horizon dot d)
    (hagain : GoodAfter cex dot d t₀ again) (h : p.Valid) (hyear : yearStart (dot + 1900) ≤ p.day)
    (hsec : p.sec = 0 ∨ cex.seconds.getLsbD p.sec.toNat = true)
    (hmin : p.min = 0 ∨ cex.minutes.getLsbD p.min.toNat = true ∨ p.day + 2 ≤ d)
    (hhour : (p.hour = 0 ∨ cex.hours.getLsbD p.hour.toNat = true) ∧ p.day ≤ d ∨ p.day + 1 ≤ d)
    (ht : t₀ ≤ p.time) (hm : MarkedBelow .minute markedFields) :
    Good cex d p (cex.minutes.getLsbD p.min.toNat = true ∧
        cex.hours.getLsbD p.hour.toNat = true ∧ cex.hasDay p.day = true ∧
        cex.months.getLsbD (monthOf p.day).toNat = true)
      (minuteStage cex again dot markedFields p.tm) := by
  have hbelow : MarkedBelow .hourOfDay markedFields :=
    ⟨by simp, by simp, hm.hour, hm.day, hm.month, hm.year⟩
  cases hmem : cex.minutes.getLsbD p.min.toNat with
  | true =>
    rw [minuteStage_of_mem hmem]
    exact (hourStage_good hne hd hagain h hyear hsec (Or.inr hmem) hhour ht
      ⟨by simp, by simp, by simp [markField, hm.hour], by simp [markField, hm.day],
        by simp [markField, hm.month], by simp [markField, hm.year]⟩).imp fun hK => ⟨rfl, hK⟩
  | false =>
    rw [minuteStage_of_notMem h hne.minutes hmem hm.month hm.year]
    obtain ⟨hbit, hmoved⟩ := clockMove_spec (N := 60) .minute h rfl hne.minutes hmem hm
    have hq := valid_clockMove (N := 60) markedFields .minute h rfl hne.minutes
    generalize clockMove cex.minutes .minute .hourOfDay markedFields p = q at *
    have hpq := day_le_of_time_le h hq (le_of_lt hmoved.lt)
    have hlt := hmoved.lt
    have hle := hmoved.day_le
    -- likewise for the minutes
    have hqhour : (q.hour = 0 ∨ cex.hours.getLsbD q.hour.toNat = true) ∧ q.day ≤ d ∨
        q.day + 1 ≤ d := by
      rcases hmin with h0 | h0 | h0
      · rw [hmoved.day_of_zero h0, hmoved.hour_of_zero h0 (by decide)]
        exact hhour
      · rw [h0] at hmem; simp at hmem
      · exact Or.inr (by omega)
    have hqsec : q.sec = 0 ∨ cex.seconds.getLsbD q.sec.toNat = true := by
      rcases hmoved.sec (by decide) with h0 | h0 <;> rw [h0]
      · exact Or.inl rfl
      · exact hsec
    have hwithin : cex.Within dot d q :=
      ⟨hq, by omega, hqhour, Or.inr (Or.inl hbit), hqsec.imp_right Or.inl⟩
    refine ((hagain q hwithin (by omega)).orReturn ?_).later hlt
    intro r hr hrlow hrd hrt
    have := day_le_of_time_le hq hr hrt
    exact (hourStage_good hne hd hagain hr (by omega) hrlow.sec hrlow.min
      (Or.inl ⟨hrlow.hour, hrd⟩) (by omega) hbelow).imp fun _ => trivial

theorem secondStage_good (hne : cex.Nonempty) (hd : cex.Horizon dot d)
    (hp : cex.Within dot d p) (hagain : GoodAfter cex dot d p.time again) :
    Good cex d p (cex.Matches p) (secondStage cex again dot p.tm) := by
  obtain ⟨h, hyear, hhour, hmin, hsec⟩ := hp
  have hempty : ∀ f, MarkedBelow f emptyList :=
    fun f => ⟨fun _ => rfl, fun _ => rfl, rfl, rfl, rfl, rfl⟩
  cases hmem : cex.seconds.getLsbD p.sec.toNat with
  | true =>
    rw [secondStage_of_mem hmem]
    exact (minuteStage_good hne hd hagain h hyear (Or.inr hmem) hmin hhour (le_refl _)
      ⟨by simp, by simp [markField, emptyList], rfl, rfl, rfl, rfl⟩).imp
      fun ⟨h1, h2, h3, h4⟩ => ⟨hmem, h1, h2, h3, h4⟩
  | false =>
    rw [secondStage_of_notMem h hne.seconds hmem]
    obtain ⟨hbit, hmoved⟩ :=
      clockMove_spec (N := 60) .second h rfl hne.seconds hmem (hempty .second)
    have hq := valid_clockMove (N := 60) emptyList .second h rfl hne.seconds
    generalize clockMove cex.seconds .second .minute emptyList p = q at *
    have hpq := day_le_of_time_le h hq (le_of_lt hmoved.lt)
    have hlt := hmoved.lt
    have hle := hmoved.day_le
    have hstays : p.sec = 0 ∨ p.day + 3 ≤ d := by
      rcases hsec with h0 | h0 | h0
      · exact Or.inl h0
      · rw [h0] at hmem; simp at hmem
      · exact Or.inr h0
    have hqmin : q.min = 0 ∨ cex.minutes.getLsbD q.min.toNat = true ∨ q.day + 2 ≤ d := by
      rcases hstays with h0 | h0
      · rw [hmoved.min_of_zero h0 rfl, hmoved.day_of_zero h0]; exact hmin
      · exact Or.inr (Or.inr (by omega))
    have hqhour : (q.hour = 0 ∨ cex.hours.getLsbD q.hour.toNat = true) ∧ q.day ≤ d ∨
        q.day + 1 ≤ d := by
      rcases hstays with h0 | h0
      · rw [hmoved.hour_of_zero h0 (by decide), hmoved.day_of_zero h0]; exact hhour
      · exact Or.inr (by omega)
    exact (minuteStage_good hne hd hagain hq (by omega) (Or.inr hbit) hqmin hqhour (le_of_lt hlt)
      (hempty .minute)).later hlt

end Stages

/-! ### The search returns -/

/-- **The search returns**, on a low instant within the horizon, given as many calls
as there are seconds left to it. -/
theorem findNext_good {cex : CronExpr} {dot d : ℤ} (hne : cex.Nonempty)
    (hd : cex.Horizon dot d) : ∀ (fuel : ℕ) (p : Instant), cex.Within dot d p →
      (d + 1) * 86400 - p.time < fuel →
        Good cex d p (cex.Matches p) (findNext cex dot fuel p.tm) := by
  intro fuel
  induction fuel with
  | zero =>
    intro p hp hfuel
    obtain ⟨⟨a, b, c, e, f, g, i⟩, hyear, hhour, -, -⟩ := hp
    simp only [time] at hfuel
    omega
  | succ fuel ih =>
    intro p hp hfuel
    refine secondStage_good hne hd hp fun q hq hlt => ih q hq ?_
    push_cast at hfuel
    omega

/-- Past any day there is one that both day sets have, within 1096 days. -/
theorem exists_hasDay {cex : CronExpr} (hne : cex.Nonempty) (n : ℤ) :
    ∃ d, n ≤ d ∧ d ≤ n + 1096 ∧ cex.hasDay d = true := by
  obtain ⟨hm, hmbit⟩ := firstSetBit_spec hne.daysOfMonth
  obtain ⟨hw, hwbit⟩ := firstSetBit_spec hne.daysOfWeek
  obtain ⟨d, h1, h2, hday, hweekday⟩ := exists_dayOf_weekday n
    (d := firstSetBit cex.daysOfMonth + 1) (w := firstSetBit cex.daysOfWeek) (by omega) (by omega)
    (by omega) (by omega)
  refine ⟨d, h1, h2, ?_⟩
  have hmday : (dayOf d).toNat - 1 = firstSetBit cex.daysOfMonth := by omega
  rw [CronExpr.hasDay, hmday, hmbit, hweekday, Int.toNat_natCast, hwbit]
  rfl

/-- Every expression has a horizon that leaves the search fewer seconds than
`maxDepth`. -/
theorem exists_horizon {cex : CronExpr} (hne : cex.Nonempty) {p : Instant} (h : p.Valid) :
    ∃ d, cex.Horizon (yearOf p.day - 1900) d ∧ cex.Within (yearOf p.day - 1900) d p ∧
      (d + 1) * 86400 - p.time < maxDepth := by
  obtain ⟨d, h1, h2, hday⟩ := exists_hasDay hne (yearStart (yearOf p.day + 5))
  obtain ⟨h3, h4⟩ := yearStart_yearOf p.day
  have hlow : yearOf p.day - 1900 + 1905 = yearOf p.day + 5 := by omega
  have hhigh : yearOf p.day - 1900 + 2000 = yearOf p.day + 100 := by omega
  have hyear : yearOf p.day - 1900 + 1900 = yearOf p.day := by omega
  have hfive : yearStart (yearOf p.day + 1) + 3 ≤ yearStart (yearOf p.day + 5) ∧
      yearStart (yearOf p.day + 5) ≤ yearStart (yearOf p.day) + 1830 ∧
      yearStart (yearOf p.day + 5) + 1096 < yearStart (yearOf p.day + 100) := by
    unfold yearStart
    omega
  refine ⟨d, ⟨hday, by rw [hlow]; omega, by rw [hhigh]; omega⟩,
    ⟨h, by rw [hyear]; omega, Or.inr (by omega),
    Or.inr (Or.inr (by omega)), Or.inr (Or.inr (by omega))⟩, ?_⟩
  obtain ⟨a, b, c, e, f, g, i⟩ := h
  simp only [time, maxDepth]
  push_cast
  omega

/-- **The search returns**, from every instant, less than 3000 days later if it
returns true, and only from an instant that matches without moving. -/
theorem findNext_total {cex : CronExpr} (hne : cex.Nonempty) {p : Instant} (h : p.Valid) :
    ∃ res q, findNext cex (yearOf p.day - 1900) maxDepth p.tm = .ok (res, Instant.tm q) ∧
      q.Valid ∧ (res = true → p.time ≤ q.time ∧ q.time < p.time + maxDepth ∧
        (q.time = p.time → cex.Matches p)) := by
  obtain ⟨d, hd, hp, hfuel⟩ := exists_horizon hne h
  obtain ⟨res, q, hx, hq, hres⟩ := findNext_good hne hd maxDepth p hp hfuel
  refine ⟨res, q, hx, hq, ?_⟩
  intro htrue
  obtain ⟨-, hqd, ht, hK⟩ := hres htrue
  refine ⟨ht, ?_, hK⟩
  obtain ⟨a, b, c, e, f, g, i⟩ := hq
  simp only [time] at hfuel ⊢
  omega

end Cron
end JobScheduler
