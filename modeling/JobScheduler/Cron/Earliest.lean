import JobScheduler.Cron.Path

/-!
# The search passes over nothing

Each move of the search goes to the next value of one field and starts the fields below it
anew, so that no instant in between matches.  Two things spoil this.  The seconds are not
started anew in a call that has moved them, so that with more than one second in the set some
are passed over.  And a move of the month keeps the number of the day until the date has been
normalised: on a day that the new month does not have, the date runs into the month after it,
and the month is passed over.

## Main definitions

* `CronExpr.OneSecond` — the set of the seconds has one value.
* `CronExpr.Oversteps` — the call moves the month, and past the one that it looks for.
* `CronExpr.Reaches` — nothing before this instant matches.

## Main results

* `reaches_of_walks` — **a walk passes over no match**, unless one of its calls mistakes a day
  or oversteps a month.
* `cronNext_first` — **`cron_next` returns the first match later than now.**
-/

namespace JobScheduler
namespace Cron

open CText Gregorian Instant

/-! ### Moves pass over nothing -/

/-- No value of the set lies between the offset and the one that is found. -/
theorem nextSetBit_le {N : ℕ} {target : BitVec N} {offset i : ℕ} (hi : offset ≤ i)
    (hbit : target.getLsbD i = true) : ∃ v, nextSetBit target offset = some v ∧ v ≤ i := by
  cases hv : nextSetBit target offset with
  | none =>
    rw [nextSetBit_eq_none hv hi] at hbit
    simp at hbit
  | some v =>
    refine ⟨v, rfl, ?_⟩
    obtain ⟨-, -, hfirst⟩ := List.find?_range'_eq_some.mp hv
    by_contra hlt
    have hnone := hfirst i hi (by omega)
    rw [hbit] at hnone
    simp at hnone

theorem firstSetBit_le {N : ℕ} {target : BitVec N} {i : ℕ} (hbit : target.getLsbD i = true) :
    firstSetBit target ≤ i := by
  obtain ⟨v, hv, hle⟩ := nextSetBit_le (Nat.zero_le i) hbit
  rw [firstSetBit, hv]
  exact hle

section Moves

variable {p r : Instant}

/-- **A move of a clock field passes over no value of the set**, as far as the fields below it
start no later than those of `r`. -/
theorem clockMove_le {N : ℕ} {target : BitVec N} {f g : CronField} {markedFields : MarkedFields}
    (hf : IsClock f g) (hN : N = f.size) (h : p.Valid) (hr : r.Valid) (hle : p.time ≤ r.time)
    (hbit : target.getLsbD (r.get f).toNat = true) (hm : MarkedBelow f markedFields)
    (hsec : f ≠ .second → (clockMove target f g markedFields p).sec ≤ r.sec)
    (hmin : f = .hourOfDay → (clockMove target f g markedFields p).min ≤ r.min) :
    (clockMove target f g markedFields p).time ≤ r.time := by
  have hpb := get_bounds hf h
  have hrb := get_bounds hf hr
  unfold clockMove at hsec hmin ⊢
  cases hv : nextSetBit target (p.get f).toNat with
  | some v =>
    -- the values from the old one to the new one are not in the set
    rw [hv] at hsec hmin
    have hv' : (p.get f).toNat ≤ (r.get f).toNat → (v : ℤ) ≤ r.get f := by
      intro hge
      obtain ⟨w, hw, hwle⟩ := nextSetBit_le hge hbit
      rw [hv, Option.some.injEq] at hw
      omega
    have hlt : v < f.size := hN ▸ (nextSetBit_spec hv).2.1
    obtain ⟨a, b, c, d, e, i, j⟩ := h
    obtain ⟨a', b', c', d', e', i', j'⟩ := hr
    cases hf <;> simp only [Instant.get, CronField.size] at hpb hrb hv' hlt <;>
      simp only [Instant.set, Instant.reset, Instant.time, hm.day, hm.hour, hm.minute, hm.second,
        Bool.false_eq_true, if_false, ne_eq, reduceCtorEq, not_false_eq_true, not_true_eq_false,
        IsEmpty.forall_iff, forall_const] at hsec hmin hle ⊢ <;> omega
  | none =>
    rw [hv] at hsec hmin
    -- the values up to the carry are not in the set, and then not those before the first one
    have hlast : (r.get f).toNat < (p.get f).toNat := by
      by_contra hge
      obtain ⟨w, hw, -⟩ := nextSetBit_le (not_lt.mp hge) hbit
      rw [hv] at hw
      simp at hw
    have hfirst := firstSetBit_le hbit
    have hq := valid_after h (k := g.unit) (by cases hf <;> decide)
    have htime := time_after p g.unit
    generalize p.after g.unit = q at *
    obtain ⟨a, b, c, d, e, i, j⟩ := h
    obtain ⟨a', b', c', d', e', i', j'⟩ := hr
    obtain ⟨a'', b'', c'', d'', e'', i'', j''⟩ := hq
    simp only [Instant.time] at htime
    cases hf <;> simp only [Instant.get, CronField.size] at hpb hrb hlast hfirst <;>
      simp only [CronField.unit] at htime <;>
      simp only [Instant.set, Instant.reset, Instant.time, hm.day, hm.hour, hm.minute, hm.second,
        Bool.false_eq_true, if_false, ne_eq, reduceCtorEq, not_false_eq_true, not_true_eq_false,
        IsEmpty.forall_iff, forall_const] at hsec hmin hle ⊢ <;> omega

/-- A move of the day passes over no day of both sets. -/
theorem dayMove_le {cex : CronExpr} {markedFields : MarkedFields} (h : p.Valid) (hr : r.Valid)
    (hle : p.time ≤ r.time) (hday : cex.hasDay r.day = true)
    (hmday : markedFields .dayOfMonth = false) (hmhour : markedFields .hourOfDay = true)
    (hmmin : markedFields .minute = true) (hsec : (dayMove cex markedFields p).sec ≤ r.sec) :
    (dayMove cex markedFields p).time ≤ r.time := by
  have hdays := nextDay_le hday 366 p.day (day_le_of_time_le h hr hle)
  obtain ⟨a, b, c, d, e, i, j⟩ := hr
  simp only [dayMove, Instant.reset, Instant.time, hmday, hmhour, hmmin, Bool.false_eq_true,
    if_false, if_true] at hsec ⊢
  omega

/-- The first day of the next month of the set. -/
def monthGoal (target : BitVec 12) (n : ℤ) : ℤ :=
  match nextSetBit target (monthOf n).toNat with
  | some m => monthStart (yearOf n) m
  | none => monthStart (yearOf n + 1) (firstSetBit target)

/-- The months of a year begin in their order. -/
theorem monthStart_mono {y m m' : ℤ} (h : m ≤ m') : monthStart y m ≤ monthStart y m' := by
  rcases eq_or_lt_of_le h with rfl | hlt
  · exact le_refl _
  · have := daysBefore_add_le (isLeap y) hlt
    unfold monthStart
    omega

/-- A month begins before the next year. -/
theorem monthStart_lt {y m : ℤ} (h0 : 0 ≤ m) (h11 : m ≤ 11) :
    monthStart y m < yearStart (y + 1) := by
  have := daysBefore_bounds (isLeap y) h0 h11
  rw [yearStart_succ]
  unfold monthStart
  omega

/-- **No day before that one is in a month of the set.** -/
theorem monthGoal_le {target : BitVec 12} {n d : ℤ} (hle : n ≤ d)
    (hbit : target.getLsbD (monthOf d).toNat = true) : monthGoal target n ≤ d := by
  obtain ⟨h0, h11, hstart, -⟩ := monthOf_spec d
  obtain ⟨h0', -, hstart', -⟩ := monthOf_spec n
  have hyear : yearOf n ≤ yearOf d := yearOf_mono hle
  have hd := (yearStart_yearOf d).1
  unfold monthGoal
  rcases eq_or_lt_of_le hyear with hsame | hlater
  · have hmonth : monthOf n ≤ monthOf d := by
      by_contra hlt
      have hbefore := lt_monthStart (n := d) (m := monthOf n) (by omega)
      rw [← hsame] at hbefore
      omega
    obtain ⟨v, hv, hvle⟩ := nextSetBit_le (show (monthOf n).toNat ≤ _ by omega) hbit
    have hmono := monthStart_mono (y := yearOf d) (show (v : ℤ) ≤ monthOf d by omega)
    rw [hv, hsame]
    exact le_trans hmono hstart
  · cases hv : nextSetBit target (monthOf n).toNat with
    | some m =>
      have hlt := (nextSetBit_spec hv).2.1
      have hnext := monthStart_lt (y := yearOf n) (m := m) (by omega) (by omega)
      have hmono := yearStart_mono (show yearOf n + 1 ≤ yearOf d by omega)
      dsimp only
      omega
    | none =>
      have hfirst := firstSetBit_le hbit
      rcases eq_or_lt_of_le (show yearOf n + 1 ≤ yearOf d by omega) with hsame | hlater
      · have hmono := monthStart_mono (y := yearOf d)
          (show (firstSetBit target : ℤ) ≤ monthOf d by omega)
        dsimp only
        rw [hsame]
        exact le_trans hmono hstart
      · have hnext := monthStart_lt (y := yearOf n + 1) (m := firstSetBit target) (by omega)
          (by omega)
        have hmono := yearStart_mono (show yearOf n + 1 + 1 ≤ yearOf d by omega)
        dsimp only
        omega

/-- A move of the month that ends on that day passes over no month of the set. -/
theorem monthMove_le {target : BitVec 12} {markedFields : MarkedFields} (h : p.Valid)
    (hr : r.Valid) (hle : p.time ≤ r.time) (hbit : target.getLsbD (monthOf r.day).toNat = true)
    (hgoal : (monthMove target markedFields p).day = monthGoal target p.day)
    (hmhour : markedFields .hourOfDay = true) (hmmin : markedFields .minute = true)
    (hsec : (monthMove target markedFields p).sec ≤ r.sec) :
    (monthMove target markedFields p).time ≤ r.time := by
  have hdays := monthGoal_le (day_le_of_time_le h hr hle) hbit
  have hhour : (monthMove target markedFields p).hour = 0 := by
    unfold monthMove
    split <;> simp only [Instant.reset, hmhour, if_true]
  have hmin : (monthMove target markedFields p).min = 0 := by
    unfold monthMove
    split <;> simp only [Instant.reset, hmmin, if_true]
  obtain ⟨a, b, c, d, e, i, j⟩ := hr
  simp only [Instant.time, hgoal, hhour, hmin]
  omega

end Moves

/-! ### A call passes over nothing -/

/-- The set of the seconds has one value. -/
def CronExpr.OneSecond (cex : CronExpr) : Prop :=
  ∀ i j, cex.seconds.getLsbD i = true → cex.seconds.getLsbD j = true → i = j

theorem oneSecond_of_eq_one {cex : CronExpr} (h : cex.seconds = 1) : cex.OneSecond := by
  have hzero : ∀ i, cex.seconds.getLsbD i = true → i = 0 := by
    intro i hi
    rw [h] at hi
    have hbit : (1#60).getLsbD i = true := hi
    rw [BitVec.getLsbD_one, Bool.and_eq_true, decide_eq_true_eq, decide_eq_true_eq] at hbit
    exact hbit.2
  intro i j hi hj
  rw [hzero i hi, hzero j hj]

/-- The call gets as far as the months, from a day of both sets in a month that is not in the
set, and the move of the month ends past the month that it looks for. -/
structure CronExpr.Oversteps (cex : CronExpr) (p : Instant) : Prop where
  minute : cex.minutes.getLsbD (cex.atMinutes p).2.min.toNat = true
  hour : cex.hours.getLsbD (cex.atMinutes p).2.hour.toNat = true
  day : cex.hasDay (cex.atMinutes p).2.day = true
  month : cex.months.getLsbD (monthOf (cex.atMinutes p).2.day).toNat = false
  past : (monthMove cex.months (markField emptyList .dayOfMonth) (cex.atMinutes p).2).day ≠
    monthGoal cex.months (cex.atMinutes p).2.day

/-- From `p` on nothing matches before `q`. -/
def CronExpr.Reaches (cex : CronExpr) (p q : Instant) : Prop :=
  ∀ r : Instant, r.Valid → cex.Matches r → p.time ≤ r.time → q.time ≤ r.time

/-- What a call does first passes over no match; one that gives up does so at an instant past
the year limit. -/
def Next.PassesNone (cex : CronExpr) (dot : ℤ) (p : Instant) : Next → Prop
  | .returns q | .calls q => cex.Reaches p q
  | .givesUp => ∃ q : Instant, q.Valid ∧ p.day ≤ q.day ∧ cex.Reaches p q ∧
      tooLate dot q.day = true

section Calls

variable {cex : CronExpr} {dot : ℤ} {p q r : Instant}

theorem CronExpr.Reaches.refl (cex : CronExpr) (p : Instant) : cex.Reaches p p :=
  fun _ _ _ h => h

theorem CronExpr.Reaches.trans (h : cex.Reaches p q) (h' : cex.Reaches q r) : cex.Reaches p r :=
  fun s hs hmatch hle => h' s hs hmatch (h s hs hmatch hle)

theorem Next.PassesNone.trans (h : cex.Reaches p q) (hday : p.day ≤ q.day) {n : Next}
    (hn : n.PassesNone cex dot q) : n.PassesNone cex dot p := by
  cases n with
  | returns s => exact CronExpr.Reaches.trans h hn
  | calls s => exact CronExpr.Reaches.trans h hn
  | givesUp =>
    obtain ⟨s, hs, hle, hreach, hlate⟩ := hn
    exact ⟨s, hs, le_trans hday hle, h.trans hreach, hlate⟩

/-- The search for the second passes over nothing. -/
theorem reaches_atMinutes (h : p.Valid) : cex.Reaches p (cex.atMinutes p).2 := by
  intro r hr hmatch hle
  unfold CronExpr.atMinutes
  split
  · exact hle
  · exact clockMove_le (N := 60) .second rfl h hr hle hmatch.second
      ⟨fun _ => rfl, fun _ => rfl, rfl, rfl, rfl, rfl⟩ (fun hne => absurd rfl hne) (by simp)

/-- **The seconds start no later than those of a match**: they are started anew, or the second
is the one in the set. -/
theorem sec_le (hne : cex.Nonempty) (hone : cex.OneSecond) (h : p.Valid) (hr : r.Valid)
    (hmatch : cex.Matches r) :
    (if (cex.atMinutes p).1 .second then 0 else (cex.atMinutes p).2.sec) ≤ r.sec := by
  split
  · exact hr.sec_nonneg
  · have hsame := hone _ _ (sec_atMinutes hne h) hmatch.second
    have hsec := (valid_atMinutes hne h).sec_nonneg
    have hrsec := hr.sec_nonneg
    omega

/-- What the moves make of the seconds. -/
theorem sec_clockMove {N : ℕ} {target : BitVec N} {f g : CronField} {markedFields : MarkedFields}
    (hf : IsClock f g) (hne : f ≠ .second) (h : p.Valid) :
    (clockMove target f g markedFields p).sec = if markedFields .second then 0 else p.sec := by
  have hafter : (p.after g.unit).sec = p.sec := sec_after h (by cases hf <;> decide)
  unfold clockMove
  split <;> cases hf <;> simp_all [Instant.reset, Instant.set]

theorem sec_monthMove (target : BitVec 12) (markedFields : MarkedFields) (p : Instant) :
    (monthMove target markedFields p).sec = if markedFields .second then 0 else p.sec := by
  unfold monthMove
  split <;> rfl

theorem day_monthMove_congr {markedFields markedFields' : MarkedFields}
    (h : markedFields .dayOfMonth = markedFields' .dayOfMonth) (target : BitVec 12) (p : Instant) :
    (monthMove target markedFields p).day = (monthMove target markedFields' p).day := by
  unfold monthMove
  split <;> simp only [Instant.reset, h]

section Stages

variable {markedFields : MarkedFields}

theorem passesNone_monthNext (hne : cex.Nonempty) (h : p.Valid)
    (hgoal : cex.months.getLsbD (monthOf p.day).toNat = false →
      (monthMove cex.months markedFields p).day = monthGoal cex.months p.day)
    (hmhour : markedFields .hourOfDay = true) (hmmin : markedFields .minute = true)
    (hsec : ∀ r : Instant, r.Valid → cex.Matches r →
      (if markedFields .second then 0 else p.sec) ≤ r.sec) :
    (cex.monthNext dot markedFields p).PassesNone cex dot p := by
  unfold CronExpr.monthNext
  split
  · exact .refl cex p
  · next hmem =>
    have hreach : cex.Reaches p (monthMove cex.months markedFields p) := by
      intro r hr hmatch hle
      refine monthMove_le h hr hle hmatch.month (hgoal (Bool.eq_false_iff.mpr hmem)) hmhour hmmin ?_
      rw [sec_monthMove]
      exact hsec r hr hmatch
    split
    · next hlate =>
      have hlater := (monthMove_spec markedFields hne.months (Bool.eq_false_iff.mpr hmem)).1
      exact ⟨_, valid_monthMove markedFields h hne.months, le_of_lt hlater, hreach, hlate⟩
    · exact hreach

theorem passesNone_dayNext (hne : cex.Nonempty) (h : p.Valid)
    (hsame : cex.hasDay p.day = false → dayOf (cex.nextDay 366 p.day) ≠ dayOf p.day)
    (hgoal : cex.hasDay p.day = true → cex.months.getLsbD (monthOf p.day).toNat = false →
      (monthMove cex.months (markField markedFields .dayOfMonth) p).day =
        monthGoal cex.months p.day)
    (hmday : markedFields .dayOfMonth = false) (hmhour : markedFields .hourOfDay = true)
    (hmmin : markedFields .minute = true)
    (hsec : ∀ r : Instant, r.Valid → cex.Matches r →
      (if markedFields .second then 0 else p.sec) ≤ r.sec) :
    (cex.dayNext dot markedFields p).PassesNone cex dot p := by
  unfold CronExpr.dayNext
  split
  · next hmem =>
    refine passesNone_monthNext hne h (hgoal hmem) (by simp [markField, hmhour])
      (by simp [markField, hmmin]) ?_
    simpa [markField] using hsec
  · next hmem =>
    rw [day_dayMove hmday, if_neg fun heq => hsame (Bool.eq_false_iff.mpr hmem) heq.symm]
    intro r hr hmatch hle
    exact dayMove_le h hr hle hmatch.day hmday hmhour hmmin (hsec r hr hmatch)

theorem passesNone_hourNext (hne : cex.Nonempty) (h : p.Valid)
    (hsame : cex.hours.getLsbD p.hour.toNat = true → cex.hasDay p.day = false →
      dayOf (cex.nextDay 366 p.day) ≠ dayOf p.day)
    (hgoal : cex.hours.getLsbD p.hour.toNat = true → cex.hasDay p.day = true →
      cex.months.getLsbD (monthOf p.day).toNat = false →
        (monthMove cex.months (markField emptyList .dayOfMonth) p).day =
          monthGoal cex.months p.day)
    (hm : MarkedBelow .hourOfDay markedFields) (hmmin : markedFields .minute = true)
    (hsec : ∀ r : Instant, r.Valid → cex.Matches r →
      (if markedFields .second then 0 else p.sec) ≤ r.sec) :
    (cex.hourNext dot markedFields p).PassesNone cex dot p := by
  unfold CronExpr.hourNext
  split
  · next hmem =>
    refine passesNone_dayNext hne h (hsame hmem) ?_ (by simp [markField, hm.day])
      (by simp [markField]) (by simp [markField, hmmin]) (by simpa [markField] using hsec)
    intro hday hmonth
    rw [← hgoal hmem hday hmonth]
    exact day_monthMove_congr (by simp [markField]) cex.months p
  · intro r hr hmatch hle
    refine clockMove_le (N := 24) .hour rfl h hr hle hmatch.hour hm ?_ ?_
    · intro _
      rw [sec_clockMove .hour (by decide) h]
      exact hsec r hr hmatch
    · intro _
      have hmin : (clockMove cex.hours .hourOfDay .dayOfWeek markedFields p).min = 0 := by
        unfold clockMove
        split <;> simp only [Instant.reset, hmmin, if_true]
      rw [hmin]
      exact hr.min_nonneg

theorem passesNone_minuteNext (hne : cex.Nonempty) (h : p.Valid)
    (hsame : cex.minutes.getLsbD p.min.toNat = true → cex.hours.getLsbD p.hour.toNat = true →
      cex.hasDay p.day = false → dayOf (cex.nextDay 366 p.day) ≠ dayOf p.day)
    (hgoal : cex.minutes.getLsbD p.min.toNat = true → cex.hours.getLsbD p.hour.toNat = true →
      cex.hasDay p.day = true → cex.months.getLsbD (monthOf p.day).toNat = false →
        (monthMove cex.months (markField emptyList .dayOfMonth) p).day =
          monthGoal cex.months p.day)
    (hm : MarkedBelow .minute markedFields)
    (hsec : ∀ r : Instant, r.Valid → cex.Matches r →
      (if markedFields .second then 0 else p.sec) ≤ r.sec) :
    (cex.minuteNext dot markedFields p).PassesNone cex dot p := by
  unfold CronExpr.minuteNext
  split
  · next hmem =>
    exact passesNone_hourNext hne h (hsame hmem) (hgoal hmem)
      ⟨by simp, by simp, by simp [markField, hm.hour], by simp [markField, hm.day],
        by simp [markField, hm.month], by simp [markField, hm.year]⟩ (by simp [markField])
      (by simpa [markField] using hsec)
  · intro r hr hmatch hle
    refine clockMove_le (N := 60) .minute rfl h hr hle hmatch.minute hm ?_ (by simp)
    intro _
    rw [sec_clockMove .minute (by decide) h]
    exact hsec r hr hmatch

end Stages

/-- **A call passes over no match**, unless it mistakes a day or oversteps a month. -/
theorem passesNone_next (hne : cex.Nonempty) (hone : cex.OneSecond) (h : p.Valid)
    (hday : ¬ cex.MistakesDay p) (hover : ¬ cex.Oversteps p) :
    (cex.next dot p).PassesNone cex dot p := by
  have hvalid := valid_atMinutes hne h
  rw [CronExpr.next_eq]
  refine Next.PassesNone.trans (reaches_atMinutes h)
    (day_le_of_time_le h hvalid (time_le_atMinutes hne h)) ?_
  refine passesNone_minuteNext hne hvalid ?_ ?_ (markedBelow_atMinutes cex p)
    fun r hr hmatch => sec_le hne hone h hr hmatch
  · intro hminute hhour hmem hsame
    exact hday ⟨hminute, hhour, hmem, hsame⟩
  · intro hminute hhour hmem hmonth
    by_contra hpast
    exact hover ⟨hminute, hhour, hmem, hmonth, hpast⟩

/-! ### The search passes over nothing -/

/-- **A walk passes over no match**, unless one of its calls mistakes a day or oversteps a
month. -/
theorem reaches_of_walks {n : Next} (hne : cex.Nonempty) (hone : cex.OneSecond)
    (hw : Walks cex dot p n) (h : p.Valid)
    (hcourse : ∀ q, cex.Visits dot p q → ¬ cex.MistakesDay q ∧ ¬ cex.Oversteps q) :
    n.PassesNone cex dot p := by
  induction hw with
  | @returns p q hn =>
    obtain ⟨hday, hover⟩ := hcourse p .refl
    exact hn ▸ passesNone_next hne hone h hday hover
  | @givesUp p hn =>
    obtain ⟨hday, hover⟩ := hcourse p .refl
    exact hn ▸ passesNone_next hne hone h hday hover
  | @calls p q n hn _ ih =>
    obtain ⟨hday, hover⟩ := hcourse p .refl
    have hcall : cex.Reaches p q := by
      have hpasses : (cex.next dot p).PassesNone cex dot p :=
        passesNone_next hne hone h hday hover
      rw [hn] at hpasses
      exact hpasses
    obtain ⟨hvalid, hle⟩ := next_leads hne h (Or.inl hn)
    have hrest := ih hvalid fun r hr => hcourse r (Relation.ReflTransGen.head hn hr)
    exact hrest.trans hcall (day_le_of_time_le h hvalid hle)

/-! ### The earliest match -/

/-- No call of the search from now on mistakes a day or oversteps a month. -/
def CronExpr.SeesAll (cex : CronExpr) (now : ℤ) : Prop :=
  ∀ p, cex.Visits (dotOf (cex.start now)) (cex.start now) p →
    ¬ cex.MistakesDay p ∧ ¬ cex.Oversteps p

/-- The first match later than now. -/
structure CronExpr.FirstAfter (cex : CronExpr) (now : ℤ) (q : Instant) : Prop where
  valid : q.Valid
  holds : cex.Matches q
  later : now < q.time
  least : ∀ r : Instant, r.Valid → cex.Matches r → now < r.time → q.time ≤ r.time

/-- The search starts no earlier than now. -/
theorem le_time_start (cex : CronExpr) (now : ℤ) : now ≤ (cex.start now).time := by
  unfold CronExpr.start
  split <;> rw [time_ofTime]
  omega

/-- A match later than now is no earlier than where the search starts. -/
theorem time_start_le {now : ℤ} (hlt : now < r.time) : (cex.start now).time ≤ r.time := by
  unfold CronExpr.start
  split <;> rw [time_ofTime] <;> omega

/-- **A search that gives up finds no match for four years.** -/
theorem year_le_of_givesUp (hne : cex.Nonempty) (hone : cex.OneSecond)
    (hw : cex.GivesUp (dotOf p) p) (h : p.Valid)
    (hcourse : ∀ q, cex.Visits (dotOf p) p q → ¬ cex.MistakesDay q ∧ ¬ cex.Oversteps q)
    (hr : r.Valid) (hmatch : cex.Matches r) (hle : p.time ≤ r.time) :
    yearOf p.day + 5 ≤ yearOf r.day := by
  obtain ⟨q, hq, hday, hreach, hlate⟩ := reaches_of_walks hne hone hw h hcourse
  have hyear : yearOf p.day ≤ yearOf q.day := yearOf_mono hday
  have hyear' : yearOf q.day ≤ yearOf r.day :=
    yearOf_mono (day_le_of_time_le hq hr (hreach r hr hmatch hle))
  by_contra hlt
  unfold tooLate dotOf at hlate
  rw [decide_eq_true_eq] at hlate
  omega

/-- **A search that sees every match** finds the first one, or there is none for four years. -/
theorem first_of_seesAll (hne : cex.Nonempty) (hone : cex.OneSecond) {now : ℤ} (hnow : 0 ≤ now)
    (hsees : cex.SeesAll now) :
    ∃ v, cronNext cex now = .ok v ∧ ((∃ q, cex.FirstAfter now q ∧ v = q.time) ∨
      v = -1 ∧ ∀ r : Instant, r.Valid → cex.Matches r → now < r.time →
        yearOf (cex.start now).day + 5 ≤ yearOf r.day) := by
  have hstart := valid_start cex hnow
  obtain ⟨v, hv, -, hwalk⟩ := cronNext_walk hne hnow
  refine ⟨v, hv, ?_⟩
  rcases hwalk with ⟨q, ⟨hw, hmatch⟩, hq, rfl, hlt⟩ | ⟨hw, rfl⟩ | hstumbles
  · refine Or.inl ⟨q, ⟨hq, hmatch, hlt, ?_⟩, rfl⟩
    intro r hr hrmatch hrlt
    exact reaches_of_walks hne hone hw hstart hsees r hr hrmatch (time_start_le hrlt)
  · refine Or.inr ⟨rfl, ?_⟩
    intro r hr hrmatch hrlt
    exact year_le_of_givesUp hne hone hw hstart hsees hr hrmatch (time_start_le hrlt)
  · -- it ends on another instant only when it has mistaken a day
    obtain ⟨r, hr, hday⟩ := mistakesDay_of_stumbles hne hstart hstumbles
    exact absurd hday (hsees r hr).1

end Calls

/-! ### Expressions that miss nothing -/

/-- Every day of the set of days is a day of each month of the set, in every year. -/
def CronExpr.DatesExist (cex : CronExpr) : Prop :=
  ∀ i m : ℕ, cex.daysOfMonth.getLsbD i = true → cex.months.getLsbD m = true →
    (i : ℤ) < daysBefore false (m + 1) - daysBefore false m

/-- A month is no shorter in a leap year, and longer by one day at most. -/
theorem length_le_of_leap (leap : Bool) {m : ℤ} (h0 : 0 ≤ m) :
    daysBefore false (m + 1) - daysBefore false m ≤
        daysBefore leap (m + 1) - daysBefore leap m ∧
      daysBefore leap (m + 1) - daysBefore leap m ≤
        daysBefore false (m + 1) - daysBefore false m + (if m = 1 then 1 else 0) := by
  unfold daysBefore
  cases leap <;> simp only [Bool.false_eq_true, if_true, if_false] <;>
    (repeat' split) <;> omega

/-- The date of a day that exists in its month. -/
theorem date_spec {y m i : ℤ} (h0 : 0 ≤ m) (h11 : m ≤ 11) (hi : 0 ≤ i)
    (hlen : i < daysBefore (isLeap y) (m + 1) - daysBefore (isLeap y) m) :
    yearOf (monthStart y m + i) = y ∧ monthOf (monthStart y m + i) = m ∧
      dayOf (monthStart y m + i) = i + 1 := by
  have h31 := daysBefore_succ_le (isLeap y) h0
  have hyear := yearOf_monthStart_add (y := y) h0 h11 hi (show i ≤ 30 by omega)
  refine ⟨hyear, ?_, date_monthStart_add h0 h11 hi (by omega) hlen⟩
  refine monthOf_eq hyear (by omega) ?_
  unfold monthStart
  omega

/-- In the next year a date keeps its day, or is the first of March for the 29 February. -/
theorem dayOf_inNextYear (n : ℤ) :
    dayOf (inNextYear n) = dayOf n ∨ dayOf (inNextYear n) = 1 := by
  obtain ⟨h0, h11, hstart, hend⟩ := monthOf_spec n
  have hb := dayOf_bounds n
  have hlen : dayOf n - 1 <
      daysBefore (isLeap (yearOf n)) (monthOf n + 1) -
        daysBefore (isLeap (yearOf n)) (monthOf n) := by
    unfold dayOf
    unfold monthStart at hend ⊢
    omega
  have hleap := (length_le_of_leap (isLeap (yearOf n)) h0).2
  have hnext := (length_le_of_leap (isLeap (yearOf n + 1)) h0).1
  rcases lt_or_ge (dayOf n - 1) (daysBefore (isLeap (yearOf n + 1)) (monthOf n + 1) -
    daysBefore (isLeap (yearOf n + 1)) (monthOf n)) with hlt | hge
  · have hday := (date_spec (y := yearOf n + 1) h0 h11 (by omega) hlt).2.2
    rw [inNextYear, add_sub_assoc, hday]
    omega
  · -- the month is February, and shorter in the next year
    have hfeb : monthOf n = 1 := by
      by_contra hne
      rw [if_neg hne] at hleap
      omega
    have hmarch : inNextYear n = monthStart (yearOf n + 1) (1 + 1) + 0 := by
      rw [hfeb, if_pos rfl] at hleap
      rw [hfeb] at hlen hge hnext
      unfold inNextYear monthStart
      rw [hfeb]
      omega
    have h28 := daysBefore_add_le (isLeap (yearOf n + 1)) (show (1 + 1 : ℤ) < 1 + 1 + 1 by decide)
    have hday := (date_spec (y := yearOf n + 1) (m := 1 + 1) (by decide) (by decide) (le_refl 0)
      (by omega)).2.2
    rw [hmarch, hday]
    omega

section Static

variable {cex : CronExpr}

/-- From a day of the set the move of the month ends where it should, when the dates exist. -/
theorem day_monthMove (hdates : cex.DatesExist) (hne : cex.Nonempty) {p : Instant}
    (hday : cex.hasDay p.day = true) {markedFields : MarkedFields}
    (hmday : markedFields .dayOfMonth = true) :
    (monthMove cex.months markedFields p).day = monthGoal cex.months p.day := by
  rw [CronExpr.hasDay, Bool.and_eq_true] at hday
  have hb := dayOf_bounds p.day
  -- in a month of the set the number of the day, or 1, is a day of the month
  have hfirst : ∀ (y d : ℤ) (m : ℕ), m < 12 → cex.months.getLsbD m = true →
      (d = dayOf p.day ∨ d = 1) → firstOfMonth (monthStart y m + d - 1) = monthStart y m := by
    intro y d m hm hbit hd
    have hlen : d - 1 < daysBefore (isLeap y) (m + 1) - daysBefore (isLeap y) m := by
      have hexists := hdates _ m hday.1 hbit
      have hleap := (length_le_of_leap (isLeap y) (show (0 : ℤ) ≤ m by omega)).1
      rcases hd with rfl | rfl <;> omega
    obtain ⟨hyear, hmonth, -⟩ := date_spec (y := y) (m := m) (by omega) (by omega)
      (by omega) hlen
    rw [add_sub_assoc, firstOfMonth, hyear, hmonth]
  unfold monthMove monthGoal
  cases hv : nextSetBit cex.months (monthOf p.day).toNat with
  | some m =>
    obtain ⟨-, hlt, hbit⟩ := nextSetBit_spec hv
    simp only [Instant.reset, hmday, if_true]
    exact hfirst _ _ m hlt hbit (Or.inl rfl)
  | none =>
    obtain ⟨hlt, hbit⟩ := firstSetBit_spec hne.months
    have hjanuary := dayOf_bounds (inNextYear p.day)
    obtain ⟨hyear, -, hday'⟩ := date_spec (y := yearOf p.day + 1) (m := 0)
      (i := dayOf (inNextYear p.day) - 1) (le_refl 0) (by decide) (by omega)
      (by cases isLeap (yearOf p.day + 1) <;> simp [daysBefore] <;> omega)
    simp only [Instant.reset, hmday, if_true]
    have heq : inMonth (inNextYear p.day) 0 =
        monthStart (yearOf p.day + 1) 0 + (dayOf (inNextYear p.day) - 1) := by
      rw [inMonth, yearOf_inNextYear, add_sub_assoc]
    rw [heq, inMonth, hyear, hday', sub_add_cancel]
    exact hfirst _ _ _ hlt hbit (dayOf_inNextYear p.day)

/-- The expression has every month, or else its days are days of each of its months. -/
def CronExpr.MonthsFit (cex : CronExpr) : Prop :=
  cex.months = BitVec.allOnes 12 ∨ cex.DatesExist

/-- **Such an expression oversteps no month.** -/
theorem not_oversteps (hne : cex.Nonempty) (hfit : cex.MonthsFit) (p : Instant) :
    ¬ cex.Oversteps p := by
  rintro ⟨-, -, hday, hmonth, hpast⟩
  rcases hfit with hall | hdates
  · obtain ⟨h0, h11, -, -⟩ := monthOf_spec (cex.atMinutes p).2.day
    rw [hall, BitVec.getLsbD_allOnes, decide_eq_true (by omega)] at hmonth
    simp at hmonth
  · exact hpast (day_monthMove hdates hne hday (by simp [markField]))

theorem seesAll_of_fits (hne : cex.Nonempty) (hone : cex.OneDayField) (hfit : cex.MonthsFit)
    (now : ℤ) : cex.SeesAll now :=
  fun p _ => ⟨not_mistakesDay hne hone p, not_oversteps hne hfit p⟩

/-- A month of the set has every day of the set. -/
theorem exists_month (hne : cex.Nonempty) (hfit : cex.MonthsFit) :
    ∃ m : ℕ, m < 12 ∧ cex.months.getLsbD m = true ∧ ∀ i : ℕ,
      cex.daysOfMonth.getLsbD i = true →
        (i : ℤ) < daysBefore false (m + 1) - daysBefore false m := by
  rcases hfit with hall | hdates
  · -- January has every day
    refine ⟨0, by decide, by rw [hall]; rfl, ?_⟩
    intro i hi
    have hlt := BitVec.lt_of_getLsbD hi
    simp only [daysBefore, Nat.cast_zero, zero_add, mul_zero]
    omega
  · obtain ⟨hlt, hbit⟩ := firstSetBit_spec hne.months
    exact ⟨_, hlt, hbit, fun i hi => hdates i _ hi hbit⟩

/-- Such a month has a day of both day sets, in every year. -/
theorem exists_hasDay_month (hne : cex.Nonempty) (hone : cex.OneDayField) {m : ℕ} (hm : m < 12)
    (hlen : ∀ i : ℕ, cex.daysOfMonth.getLsbD i = true →
      (i : ℤ) < daysBefore false (m + 1) - daysBefore false m) (y : ℤ) :
    ∃ n : ℤ, yearOf n = y ∧ monthOf n = m ∧ cex.hasDay n = true := by
  have hleap := (length_le_of_leap (isLeap y) (show (0 : ℤ) ≤ m by omega)).1
  have h28 := daysBefore_add_le (isLeap y) (show (m : ℤ) < m + 1 by omega)
  rcases hone with hall | hall
  · -- the first day of the days of the month
    obtain ⟨hlt, hbit⟩ := firstSetBit_spec hne.daysOfMonth
    have hfits := hlen _ hbit
    obtain ⟨hyear, hmonth, hday⟩ := date_spec (y := y) (m := m)
      (i := firstSetBit cex.daysOfMonth) (by omega) (by omega) (by omega) (by omega)
    refine ⟨_, hyear, hmonth, ?_⟩
    have hw := weekday_bounds (monthStart y m + firstSetBit cex.daysOfMonth)
    rw [CronExpr.hasDay, hday, hall, BitVec.getLsbD_allOnes, decide_eq_true (by omega),
      Bool.and_true, show ((firstSetBit cex.daysOfMonth : ℤ) + 1).toNat - 1 =
        firstSetBit cex.daysOfMonth by omega]
    exact hbit
  · -- a day of the first week
    obtain ⟨hlt, hbit⟩ := firstSetBit_spec hne.daysOfWeek
    let i := (firstSetBit cex.daysOfWeek - weekday (monthStart y m)) % 7
    have hweek : 0 ≤ i ∧ i < 7 := by simp only [i]; omega
    have hw : weekday (monthStart y m + i) = firstSetBit cex.daysOfWeek := by
      simp only [i, weekday]
      omega
    obtain ⟨hyear, hmonth, hday⟩ := date_spec (y := y) (m := m) (by omega) (by omega) hweek.1
      (show i < _ by omega)
    refine ⟨_, hyear, hmonth, ?_⟩
    rw [CronExpr.hasDay, hw, hall, hday, BitVec.getLsbD_allOnes, decide_eq_true (by omega),
      Bool.true_and, Int.toNat_natCast]
    exact hbit

/-- **It has a match in every year.** -/
theorem exists_matches (hne : cex.Nonempty) (hone : cex.OneDayField) (hfit : cex.MonthsFit)
    {y : ℤ} (hy : 1970 ≤ y) : ∃ r : Instant, r.Valid ∧ cex.Matches r ∧ yearOf r.day = y := by
  obtain ⟨m, hm, hbit, hlen⟩ := exists_month hne hfit
  obtain ⟨n, hyear, hmonth, hday⟩ := exists_hasDay_month hne hone hm hlen y
  have hn : 0 ≤ n := le_yearOf_iff.mp (show (1970 : ℤ) ≤ yearOf n by omega)
  obtain ⟨hs, hsec⟩ := firstSetBit_spec hne.seconds
  obtain ⟨hmi, hmin⟩ := firstSetBit_spec hne.minutes
  obtain ⟨hh, hhour⟩ := firstSetBit_spec hne.hours
  refine ⟨⟨n, firstSetBit cex.hours, firstSetBit cex.minutes, firstSetBit cex.seconds⟩, ?_, ?_,
    hyear⟩
  · constructor <;> dsimp only <;> omega
  · constructor <;> simp only [hmonth, Int.toNat_natCast] <;> assumption

/-- **Its first match is found**, in this year or the next. -/
theorem first_of_fits (hne : cex.Nonempty) (hsec : cex.OneSecond) (hone : cex.OneDayField)
    (hfit : cex.MonthsFit) {now : ℤ} (hnow : 0 ≤ now) :
    ∃ q, cex.FirstAfter now q ∧ cronNext cex now = .ok q.time ∧
      yearOf q.day ≤ yearOf (cex.start now).day + 1 := by
  have hsees := seesAll_of_fits hne hone hfit now
  have hstart := valid_start cex hnow
  have hyear : 1970 ≤ yearOf (cex.start now).day := le_yearOf_iff.mpr hstart.day_nonneg
  obtain ⟨r, hr, hmatch, hnext⟩ := exists_matches hne hone hfit
    (show 1970 ≤ yearOf (cex.start now).day + 1 by omega)
  have hlater : (cex.start now).time < r.time := by
    refine time_lt_of_day_lt hstart hr ?_
    by_contra hle
    have := yearOf_mono (not_lt.mp hle)
    omega
  have hrlt : now < r.time := lt_of_le_of_lt (le_time_start cex now) hlater
  obtain ⟨v, hv, ⟨q, hq, rfl⟩ | ⟨-, hnone⟩⟩ := first_of_seesAll hne hsec hnow hsees
  · refine ⟨q, hq, hv, ?_⟩
    rw [← hnext]
    exact yearOf_mono (day_le_of_time_le hq.valid hr (hq.least r hr hmatch hrlt))
  · have := hnone r hr hmatch hrlt
    omega

end Static

/-- Midnight on the first of each month. -/
def monthly : CronExpr where
  seconds := 1
  minutes := 1
  hours := 1
  daysOfWeek := BitVec.allOnes 7
  daysOfMonth := 1
  months := BitVec.allOnes 12

/-- Midnight on the Mondays of February. -/
def februaryMondays : CronExpr where
  seconds := 1
  minutes := 1
  hours := 1
  daysOfWeek := 2
  daysOfMonth := BitVec.allOnes 31
  months := 2

/-- From Monday, 31 January 2022, the search oversteps the February to come: it finds 6 February
2023. -/
example : cronNext februaryMondays 1643587200 = .ok 1675641600 ∧
    februaryMondays.Matches (ofTime 1644192000) := by decide +kernel

end Cron
end JobScheduler
