import JobScheduler.Cron.Walk
import Mathlib.Logic.Relation

/-!
# What a search comes across

The branches that a search takes on its walk decide how it ends.  Two of them are
wrong turns: the year limit, at which the search gives up, and a day taken for
another one because it has the same number in its month.

## Main definitions

* `CronExpr.Visits` — the instants at which the calls of a search start.
* `CronExpr.MistakesDay` — the call takes another day for the one it has.
* `CronExpr.KeepsCourse` — a call that takes neither wrong turn.

## Main results

* `settles_of_keepsCourse` — **a search that takes no wrong turn ends on an instant
  that matches.**
* `mistakesDay_of_stumbles` — a search that ends on another instant has mistaken a
  day.
* `not_mistakesDay` — an expression that restricts one of its two day fields, at
  most, mistakes no day.
-/

namespace JobScheduler
namespace Cron

open CText Gregorian Instant

/-! ### The turns of a call -/

namespace CronExpr

variable (cex : CronExpr) (dot : ℤ)

/-- One call starts another. -/
def Calls (p q : Instant) : Prop := cex.next dot p = .calls q

/-- The calls of a search that starts from `p` start from these instants. -/
def Visits (p q : Instant) : Prop := Relation.ReflTransGen (cex.Calls dot) p q

/-- The marks and the instant with which a call looks at the minutes. -/
def atMinutes (p : Instant) : MarkedFields × Instant :=
  if cex.seconds.getLsbD p.sec.toNat then (markField emptyList .second, p)
  else (emptyList, clockMove cex.seconds .second .minute emptyList p)

/-- The call gets as far as the days with a day that is not in both day sets, and the
day it finds instead has the same number in its month. -/
structure MistakesDay (p : Instant) : Prop where
  minute : cex.minutes.getLsbD (cex.atMinutes p).2.min.toNat = true
  hour : cex.hours.getLsbD (cex.atMinutes p).2.hour.toNat = true
  day : cex.hasDay (cex.atMinutes p).2.day = false
  sameNumber : dayOf (cex.nextDay 366 (cex.atMinutes p).2.day) = dayOf (cex.atMinutes p).2.day

/-- The call neither passes the year limit nor mistakes a day. -/
structure KeepsCourse (p : Instant) : Prop where
  year : cex.next dot p ≠ .givesUp
  day : ¬ cex.MistakesDay p

theorem next_eq (p : Instant) :
    cex.next dot p = cex.minuteNext dot (cex.atMinutes p).1 (cex.atMinutes p).2 := by
  unfold next atMinutes
  split <;> rfl

end CronExpr

/-- The call leads to `q`, where the next one starts or where it returns. -/
def Next.Leads (n : Next) (q : Instant) : Prop := n = .calls q ∨ n = .returns q

section Turns

variable {cex : CronExpr} {dot : ℤ} {markedFields : MarkedFields} {p q : Instant}

theorem valid_atMinutes (hne : cex.Nonempty) (h : p.Valid) : (cex.atMinutes p).2.Valid := by
  unfold CronExpr.atMinutes
  split
  · exact h
  · exact valid_clockMove emptyList .second h rfl hne.seconds

theorem sec_atMinutes (hne : cex.Nonempty) (h : p.Valid) :
    cex.seconds.getLsbD (cex.atMinutes p).2.sec.toNat = true := by
  unfold CronExpr.atMinutes
  split
  · next hmem => exact hmem
  · next hmem =>
    exact (clockMove_spec (N := 60) .second h rfl hne.seconds (Bool.eq_false_iff.mpr hmem)
      ⟨fun _ => rfl, fun _ => rfl, rfl, rfl, rfl, rfl⟩).1

theorem time_le_atMinutes (hne : cex.Nonempty) (h : p.Valid) :
    p.time ≤ (cex.atMinutes p).2.time := by
  unfold CronExpr.atMinutes
  split
  · exact le_refl _
  · next hmem =>
    exact le_of_lt (clockMove_spec (N := 60) .second h rfl hne.seconds
      (Bool.eq_false_iff.mpr hmem) ⟨fun _ => rfl, fun _ => rfl, rfl, rfl, rfl, rfl⟩).2.lt

theorem markedBelow_atMinutes (cex : CronExpr) (p : Instant) :
    MarkedBelow .minute (cex.atMinutes p).1 := by
  unfold CronExpr.atMinutes
  split
  · exact ⟨by simp, by simp [markField, emptyList], rfl, rfl, rfl, rfl⟩
  · exact ⟨fun _ => rfl, fun _ => rfl, rfl, rfl, rfl, rfl⟩

/-! ### A call that returns -/

theorem monthNext_returns (h : cex.monthNext dot markedFields p = .returns q) :
    cex.months.getLsbD (monthOf p.day).toNat = true ∧ q = p := by
  unfold CronExpr.monthNext at h
  split at h
  · next hmem =>
    rw [Next.returns.injEq] at h
    exact ⟨hmem, h.symm⟩
  · split at h <;> simp at h

/-- A call that returns has mistaken the day, or returns an instant that matches. -/
theorem matches_of_returns (hne : cex.Nonempty) (h : p.Valid) (hday : ¬ cex.MistakesDay p)
    (hn : cex.next dot p = .returns q) : cex.Matches q := by
  rw [CronExpr.next_eq, CronExpr.minuteNext] at hn
  split at hn
  case isFalse => simp at hn
  next hminute =>
  rw [CronExpr.hourNext] at hn
  split at hn
  case isFalse => simp at hn
  next hhour =>
  have hm := markedBelow_atMinutes cex p
  rw [CronExpr.dayNext] at hn
  split at hn
  · next hd =>
    obtain ⟨hmonth, rfl⟩ := monthNext_returns hn
    exact ⟨sec_atMinutes hne h, hminute, hhour, hd, hmonth⟩
  next hd =>
  split at hn
  · next hsame =>
    -- the day has been mistaken
    rw [day_dayMove (by simp [markField, hm.day])] at hsame
    exact absurd ⟨hminute, hhour, Bool.eq_false_iff.mpr hd, hsame.symm⟩ hday
  · simp at hn

/-! ### Calls go forward -/

theorem time_lt_dayMove (h : p.Valid) (hmem : cex.hasDay p.day = false)
    (hm : markedFields .dayOfMonth = false) : p.time < (dayMove cex markedFields p).time :=
  time_lt_of_day_lt h (valid_dayMove h) (lt_day_dayMove hmem hm)

theorem monthNext_leads (hne : cex.Nonempty) (h : p.Valid)
    (hq : (cex.monthNext dot markedFields p).Leads q) : q.Valid ∧ p.time ≤ q.time := by
  unfold CronExpr.monthNext at hq
  split at hq
  · rcases hq with hq | hq
    · simp at hq
    · rw [Next.returns.injEq] at hq
      exact hq ▸ ⟨h, le_refl _⟩
  · next hmem =>
    split at hq
    · rcases hq with hq | hq <;> simp at hq
    · rcases hq with hq | hq
      · rw [Next.calls.injEq] at hq
        have hvalid := valid_monthMove markedFields h hne.months
        have hlater := (monthMove_spec markedFields hne.months (Bool.eq_false_iff.mpr hmem)).1
        exact hq ▸ ⟨hvalid, le_of_lt (time_lt_of_day_lt h hvalid hlater)⟩
      · simp at hq

theorem dayNext_leads (hne : cex.Nonempty) (h : p.Valid) (hm : markedFields .dayOfMonth = false)
    (hq : (cex.dayNext dot markedFields p).Leads q) : q.Valid ∧ p.time ≤ q.time := by
  unfold CronExpr.dayNext at hq
  split at hq
  · exact monthNext_leads hne h hq
  · next hmem =>
    have hlater := time_lt_dayMove h (Bool.eq_false_iff.mpr hmem) hm
    split at hq
    · obtain ⟨hv, hle⟩ := monthNext_leads hne (valid_dayMove h) hq
      exact ⟨hv, by omega⟩
    · rcases hq with hq | hq
      · rw [Next.calls.injEq] at hq
        exact hq ▸ ⟨valid_dayMove h, le_of_lt hlater⟩
      · simp at hq

theorem hourNext_leads (hne : cex.Nonempty) (h : p.Valid) (hm : MarkedBelow .hourOfDay markedFields)
    (hq : (cex.hourNext dot markedFields p).Leads q) : q.Valid ∧ p.time ≤ q.time := by
  unfold CronExpr.hourNext at hq
  split at hq
  · exact dayNext_leads hne h (by simp [markField, hm.day]) hq
  · next hmem =>
    rcases hq with hq | hq
    · rw [Next.calls.injEq] at hq
      have hlater := (clockMove_spec (N := 24) .hour h rfl hne.hours (Bool.eq_false_iff.mpr hmem)
        hm).2.lt
      exact hq ▸ ⟨valid_clockMove markedFields .hour h rfl hne.hours, le_of_lt hlater⟩
    · simp at hq

/-- **A call leads to no earlier instant.** -/
theorem next_leads (hne : cex.Nonempty) (h : p.Valid) (hq : (cex.next dot p).Leads q) :
    q.Valid ∧ p.time ≤ q.time := by
  rw [CronExpr.next_eq] at hq
  have hvalid := valid_atMinutes hne h
  have hle := time_le_atMinutes hne h
  have hm := markedBelow_atMinutes cex p
  unfold CronExpr.minuteNext at hq
  split at hq
  · have hbelow : MarkedBelow .hourOfDay (markField (cex.atMinutes p).1 .minute) :=
      ⟨by simp, by simp, by simp [markField, hm.hour], by simp [markField, hm.day],
        by simp [markField, hm.month], by simp [markField, hm.year]⟩
    obtain ⟨hv, hlater⟩ := hourNext_leads hne hvalid hbelow hq
    exact ⟨hv, by omega⟩
  · next hmem =>
    rcases hq with hq | hq
    · rw [Next.calls.injEq] at hq
      have hlater := (clockMove_spec (N := 60) .minute hvalid rfl hne.minutes
        (Bool.eq_false_iff.mpr hmem) hm).2.lt
      exact hq ▸ ⟨valid_clockMove _ .minute hvalid rfl hne.minutes, by omega⟩
    · simp at hq

end Turns

/-! ### Walks -/

section Walks

variable {cex : CronExpr} {dot : ℤ} {p q : Instant} {n : Next}

/-- **A walk that takes no wrong turn ends on an instant that matches.** -/
theorem settles_of_keepsCourse (hne : cex.Nonempty) (hw : Walks cex dot p n) (h : p.Valid)
    (hcourse : ∀ q, cex.Visits dot p q → cex.KeepsCourse dot q) :
    ∃ q, n = .returns q ∧ cex.Matches q := by
  induction hw with
  | returns hn =>
    have hp := hcourse _ Relation.ReflTransGen.refl
    exact ⟨_, rfl, matches_of_returns hne h hp.day hn⟩
  | givesUp hn => exact absurd hn (hcourse _ Relation.ReflTransGen.refl).year
  | calls hn _ ih =>
    apply ih (next_leads hne h (Or.inl hn)).1
    intro r hr
    exact hcourse r (Relation.ReflTransGen.head hn hr)

/-- A walk that ends on an instant that does not match has mistaken a day. -/
theorem mistakesDay_of_walks (hne : cex.Nonempty) (hw : Walks cex dot p n) (h : p.Valid)
    (hn : n = .returns q) (hq : ¬ cex.Matches q) : ∃ r, cex.Visits dot p r ∧ cex.MistakesDay r := by
  induction hw with
  | @returns p q' hcall =>
    rw [Next.returns.injEq] at hn
    subst hn
    by_contra hnone
    exact hq (matches_of_returns hne h (fun hday => hnone ⟨p, Relation.ReflTransGen.refl, hday⟩)
      hcall)
  | givesUp => simp at hn
  | calls hcall _ ih =>
    obtain ⟨r, hr, hday⟩ := ih (next_leads hne h (Or.inl hcall)).1 hn
    exact ⟨r, Relation.ReflTransGen.head hcall hr, hday⟩

theorem mistakesDay_of_stumbles (hne : cex.Nonempty) (h : p.Valid) (hs : cex.Stumbles dot p) :
    ∃ r, cex.Visits dot p r ∧ cex.MistakesDay r := by
  obtain ⟨q, hw, hq⟩ := hs
  exact mistakesDay_of_walks hne hw h rfl hq

/-- A walk passes through every instant that the search visits. -/
theorem walks_of_visits (hne : cex.Nonempty) (hw : Walks cex dot p n) (h : p.Valid)
    (hq : cex.Visits dot p q) : Walks cex dot q n ∧ q.Valid := by
  induction hq with
  | refl => exact ⟨hw, h⟩
  | @tail b c _ hcall ih =>
    obtain ⟨hb, hvalid⟩ := ih
    refine ⟨?_, (next_leads hne hvalid (Or.inl hcall)).1⟩
    have hcall : cex.next dot b = .calls c := hcall
    cases hb with
    | returns hn => rw [hcall] at hn; simp at hn
    | givesUp hn => rw [hcall] at hn; simp at hn
    | calls hn hc =>
      rw [hcall, Next.calls.injEq] at hn
      exact hn ▸ hc

/-- A walk that returns ends with a call that the search visits. -/
theorem exists_visits_of_walks (hw : Walks cex dot p n) (hn : n = .returns q) :
    ∃ r, cex.Visits dot p r ∧ cex.next dot r = .returns q := by
  induction hw with
  | returns hcall => exact ⟨_, Relation.ReflTransGen.refl, hn ▸ hcall⟩
  | givesUp => simp at hn
  | calls hcall _ ih =>
    obtain ⟨r, hr, hreturns⟩ := ih hn
    exact ⟨r, Relation.ReflTransGen.head hcall hr, hreturns⟩

/-- A walk ends no earlier than where it starts. -/
theorem time_le_of_walks (hne : cex.Nonempty) (hw : Walks cex dot p n) (h : p.Valid)
    (hn : n = .returns q) : p.time ≤ q.time := by
  induction hw with
  | returns hcall => exact (next_leads hne h (Or.inr (hn ▸ hcall))).2
  | givesUp => simp at hn
  | calls hcall _ ih =>
    -- each call leads to no earlier instant
    obtain ⟨hvalid, hle⟩ := next_leads hne h (Or.inl hcall)
    exact le_trans hle (ih hvalid hn)

/-- On a walk that returns, no call gives up, and none leads past the end. -/
theorem leads_of_walks (hne : cex.Nonempty) (hw : Walks cex dot p (.returns q)) (h : p.Valid) :
    cex.next dot p ≠ .givesUp ∧ ∀ r, (cex.next dot p).Leads r → r.time ≤ q.time := by
  cases hw with
  | returns hcall =>
    rw [hcall]
    refine ⟨by simp, ?_⟩
    rintro r (hr | hr)
    · simp at hr
    · rw [Next.returns.injEq] at hr
      exact le_of_eq (hr ▸ rfl)
  | @calls _ p' _ hcall hw =>
    rw [hcall]
    refine ⟨by simp, ?_⟩
    rintro r (hr | hr)
    · rw [Next.calls.injEq] at hr
      exact hr ▸ time_le_of_walks hne hw (next_leads hne h (Or.inl hcall)).1 rfl
    · simp at hr

end Walks

/-! ### Expressions that cannot mistake a day -/

/-- A day that is in both sets is found, when there is one among those looked at. -/
theorem hasDay_nextDay {cex : CronExpr} {d : ℤ} (hd : cex.hasDay d = true) : ∀ (k : ℕ) (n : ℤ),
    n ≤ d → d < n + k → cex.hasDay (cex.nextDay k n) = true := by
  intro k
  induction k with
  | zero => intro n h1 h2; push_cast at h2; omega
  | succ k ih =>
    intro n h1 h2
    rw [CronExpr.nextDay]
    split
    · next hn => exact hn
    · next hn =>
      have hne : n ≠ d := fun heq => hn (heq ▸ hd)
      exact ih (n + 1) (by omega) (by push_cast at h2; omega)

/-- One of the two day fields, at least, has every value. -/
def CronExpr.OneDayField (cex : CronExpr) : Prop :=
  cex.daysOfWeek = BitVec.allOnes 7 ∨ cex.daysOfMonth = BitVec.allOnes 31

/-- **An expression that restricts one of its two day fields, at most, mistakes no
day**: a day of the same number is another month away, and the one looked for is a
week away, or else has another number. -/
theorem not_mistakesDay {cex : CronExpr} (hne : cex.Nonempty) (hone : cex.OneDayField)
    (p : Instant) : ¬ cex.MistakesDay p := by
  rintro ⟨-, -, hday, hsame⟩
  generalize (cex.atMinutes p).2.day = n at hday hsame
  have hb := dayOf_bounds n
  have hwb := weekday_bounds n
  rcases hone with hall | hall
  · -- the day that is found is in the days of the month, and this one is not
    obtain ⟨hk, hbit⟩ := firstSetBit_spec hne.daysOfMonth
    obtain ⟨d, h1, h2, hd⟩ := exists_dayOf n (d := firstSetBit cex.daysOfMonth + 1) (by omega)
      (by omega)
    have hw : ∀ m, cex.hasDay m = cex.daysOfMonth.getLsbD ((dayOf m).toNat - 1) := by
      intro m
      have := weekday_bounds m
      rw [CronExpr.hasDay, hall, BitVec.getLsbD_allOnes, decide_eq_true (by omega), Bool.and_true]
    have hmem : cex.hasDay d = true := by
      rw [hw, show (dayOf d).toNat - 1 = firstSetBit cex.daysOfMonth by omega]
      exact hbit
    have hfound := hasDay_nextDay hmem 366 n h1 (by push_cast; omega)
    rw [hw, hsame, ← hw, hday] at hfound
    simp at hfound
  · -- the day that is found is less than a week away
    obtain ⟨hk, hbit⟩ := firstSetBit_spec hne.daysOfWeek
    have hm : ∀ m, cex.hasDay m = cex.daysOfWeek.getLsbD (weekday m).toNat := by
      intro m
      have := dayOf_bounds m
      rw [CronExpr.hasDay, hall, BitVec.getLsbD_allOnes, decide_eq_true (by omega), Bool.true_and]
    let d := n + (firstSetBit cex.daysOfWeek - weekday n) % 7
    have hmem : cex.hasDay d = true := by
      have hwd : weekday d = firstSetBit cex.daysOfWeek := by
        simp only [d, weekday]
        omega
      rw [hm, hwd, Int.toNat_natCast]
      exact hbit
    have hle := nextDay_le hmem 366 n (by simp only [d]; omega)
    -- but two days with one number are at least four weeks apart
    have hlt : n < cex.nextDay 366 n := by
      rw [nextDay_of_notMem hday 365]
      have := le_nextDay cex 365 (n + 1)
      omega
    have := add_le_of_dayOf_eq hlt hsame.symm
    simp only [d] at hle
    omega

end Cron
end JobScheduler
