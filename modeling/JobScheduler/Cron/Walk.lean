import JobScheduler.Cron.Total

/-!
# Where the search goes

A call of `find_next` moves its instant once and calls again, until a call moves
nothing, and then the calls return one after the other.  The walk follows the
instants at which the calls start.  When the call that moves nothing ends on an
instant that matches, the calls before it have nothing left to do, and the search
has *settled* there.

The one step that may leave an instant behind that does not match is the search in
the days: it takes a day with the same number in a later month for the day it
started from, and leaves its clock fields reset.  There the search has *stumbled*.

## Main definitions

* `Next`, `CronExpr.next` — what a call does first.
* `Walks` — the walk from an instant to the call that makes no other.
* `CronExpr.Settles`, `CronExpr.Stumbles`, `CronExpr.GivesUp` — how it ends.
* `CronExpr.start` — the instant from which `cron_next` searches.

## Main results

* `walks_of_findNext` — a search that returns has walked.
* `cronNext_walk` — **`cron_next` returns**, and what.
-/

namespace JobScheduler
namespace Cron

open CText Gregorian Instant

/-! ### What a call does first -/

/-- What a call does up to the first call it makes. -/
inductive Next
  /-- It makes no call and returns true, leaving this instant. -/
  | returns (p : Instant)
  /-- It returns false. -/
  | givesUp
  /-- It calls the search from this instant. -/
  | calls (p : Instant)
  deriving DecidableEq, Repr

namespace CronExpr

variable (cex : CronExpr) (dot : ℤ)

/-- From the months on. -/
def monthNext (markedFields : MarkedFields) (p : Instant) : Next :=
  if cex.months.getLsbD (monthOf p.day).toNat then .returns p
  else if tooLate dot (monthMove cex.months markedFields p).day then .givesUp
  else .calls (monthMove cex.months markedFields p)

/-- From the days on. -/
def dayNext (markedFields : MarkedFields) (p : Instant) : Next :=
  if cex.hasDay p.day then cex.monthNext dot (markField markedFields .dayOfMonth) p
  else if dayOf p.day = dayOf (dayMove cex markedFields p).day then
    -- taken for the day the search started from
    cex.monthNext dot (markField markedFields .dayOfMonth) (dayMove cex markedFields p)
  else .calls (dayMove cex markedFields p)

/-- From the hours on. -/
def hourNext (markedFields : MarkedFields) (p : Instant) : Next :=
  if cex.hours.getLsbD p.hour.toNat then
    cex.dayNext dot (markField markedFields .hourOfDay) p
  else .calls (clockMove cex.hours .hourOfDay .dayOfWeek markedFields p)

/-- From the minutes on. -/
def minuteNext (markedFields : MarkedFields) (p : Instant) : Next :=
  if cex.minutes.getLsbD p.min.toNat then
    cex.hourNext dot (markField markedFields .minute) p
  else .calls (clockMove cex.minutes .minute .hourOfDay markedFields p)

/-- The whole call. -/
def next (p : Instant) : Next :=
  if cex.seconds.getLsbD p.sec.toNat then
    cex.minuteNext dot (markField emptyList .second) p
  else
    cex.minuteNext dot emptyList (clockMove cex.seconds .second .minute emptyList p)

end CronExpr

/-- The walk: from call to call, to one that makes no other. -/
inductive Walks (cex : CronExpr) (dot : ℤ) : Instant → Next → Prop
  | returns {p q : Instant} (h : cex.next dot p = .returns q) : Walks cex dot p (.returns q)
  | givesUp {p : Instant} (h : cex.next dot p = .givesUp) : Walks cex dot p .givesUp
  | calls {p q : Instant} {n : Next} (h : cex.next dot p = .calls q) (hq : Walks cex dot q n) :
    Walks cex dot p n

/-- The walk ends on an instant that matches. -/
def CronExpr.Settles (cex : CronExpr) (dot : ℤ) (p q : Instant) : Prop :=
  Walks cex dot p (.returns q) ∧ cex.Matches q

/-- The walk ends on an instant that does not match. -/
def CronExpr.Stumbles (cex : CronExpr) (dot : ℤ) (p : Instant) : Prop :=
  ∃ q, Walks cex dot p (.returns q) ∧ ¬ cex.Matches q

/-- The walk reaches the year limit. -/
def CronExpr.GivesUp (cex : CronExpr) (dot : ℤ) (p : Instant) : Prop := Walks cex dot p .givesUp

/-! ### The stages do what comes next -/

/-- The call does what `n` says, and once a call it makes has left an instant that
matches, it returns that instant. -/
def Follows (cex : CronExpr) (again : Tm → Search) (x : Search) : Next → Prop
  | .returns q => q.Valid ∧ x = .ok (true, q.tm)
  | .givesUp => ∃ date, x = .ok (false, date)
  | .calls q => q.Valid ∧ ∃ rest, x = orReturn (again q.tm) rest ∧
      ∀ r : Instant, cex.Matches r → rest r.tm = .ok (true, r.tm)

section Stages

variable {cex : CronExpr} {dot : ℤ} {again : Tm → Search} {markedFields : MarkedFields}
  {p : Instant}

theorem monthStage_follows (hne : cex.Nonempty) (h : p.Valid) (hmm : markedFields .month = false)
    (hmy : markedFields .year = false) :
    Follows cex again (monthStage cex again dot markedFields p.tm)
      (cex.monthNext dot markedFields p) := by
  unfold CronExpr.monthNext
  split
  · next hmem => exact ⟨h, monthStage_of_mem hmem⟩
  · next hmem =>
    rw [monthStage_of_notMem h hne.months (Bool.eq_false_iff.mpr hmem) hmm hmy]
    split
    · exact ⟨_, rfl⟩
    · exact ⟨valid_monthMove markedFields h hne.months, _, rfl, fun r _ => rfl⟩

/-- From the days on, an instant that matches is passed through. -/
theorem dayStage_of_matches (h : cex.Matches p) :
    dayStage cex again dot markedFields p.tm = .ok (true, p.tm) := by
  rw [dayStage_of_mem h.day, monthStage_of_mem h.month]

theorem hourStage_of_matches (h : cex.Matches p) :
    hourStage cex again dot markedFields p.tm = .ok (true, p.tm) := by
  rw [hourStage_of_mem h.hour, dayStage_of_matches h]

theorem dayStage_follows (hne : cex.Nonempty) (h : p.Valid) (hm : markedFields .dayOfMonth = false)
    (hmm : markedFields .month = false) (hmy : markedFields .year = false) :
    Follows cex again (dayStage cex again dot markedFields p.tm)
      (cex.dayNext dot markedFields p) := by
  have hmm' : markField markedFields .dayOfMonth .month = false := by simp [markField, hmm]
  have hmy' : markField markedFields .dayOfMonth .year = false := by simp [markField, hmy]
  unfold CronExpr.dayNext
  split
  · next hmem =>
    rw [dayStage_of_mem hmem]
    exact monthStage_follows hne h hmm' hmy'
  · next hmem =>
    rw [dayStage_of_notMem h (Bool.eq_false_iff.mpr hmem) hm hmm hmy]
    split
    · exact monthStage_follows hne (valid_dayMove h) hmm' hmy'
    · exact ⟨valid_dayMove h, _, rfl, fun r hr => monthStage_of_mem hr.month⟩

theorem hourStage_follows (hne : cex.Nonempty) (h : p.Valid)
    (hm : MarkedBelow .hourOfDay markedFields) :
    Follows cex again (hourStage cex again dot markedFields p.tm)
      (cex.hourNext dot markedFields p) := by
  unfold CronExpr.hourNext
  split
  · next hmem =>
    rw [hourStage_of_mem hmem]
    exact dayStage_follows hne h (by simp [markField, hm.day]) (by simp [markField, hm.month])
      (by simp [markField, hm.year])
  · next hmem =>
    rw [hourStage_of_notMem h hne.hours (Bool.eq_false_iff.mpr hmem) hm.month hm.year]
    exact ⟨valid_clockMove markedFields .hour h rfl hne.hours, _, rfl,
      fun r hr => dayStage_of_matches hr⟩

theorem minuteStage_follows (hne : cex.Nonempty) (h : p.Valid)
    (hm : MarkedBelow .minute markedFields) :
    Follows cex again (minuteStage cex again dot markedFields p.tm)
      (cex.minuteNext dot markedFields p) := by
  unfold CronExpr.minuteNext
  split
  · next hmem =>
    rw [minuteStage_of_mem hmem]
    exact hourStage_follows hne h ⟨by simp, by simp, by simp [markField, hm.hour],
      by simp [markField, hm.day], by simp [markField, hm.month], by simp [markField, hm.year]⟩
  · next hmem =>
    rw [minuteStage_of_notMem h hne.minutes (Bool.eq_false_iff.mpr hmem) hm.month hm.year]
    exact ⟨valid_clockMove markedFields .minute h rfl hne.minutes, _, rfl,
      fun r hr => hourStage_of_matches hr⟩

/-- **A call does what comes next.** -/
theorem secondStage_follows (hne : cex.Nonempty) (h : p.Valid) :
    Follows cex again (secondStage cex again dot p.tm) (cex.next dot p) := by
  unfold CronExpr.next
  split
  · next hmem =>
    rw [secondStage_of_mem hmem]
    exact minuteStage_follows hne h ⟨by simp, by simp [markField, emptyList], rfl, rfl, rfl, rfl⟩
  · next hmem =>
    rw [secondStage_of_notMem h hne.seconds (Bool.eq_false_iff.mpr hmem)]
    exact minuteStage_follows hne (valid_clockMove emptyList .second h rfl hne.seconds)
      ⟨fun _ => rfl, fun _ => rfl, rfl, rfl, rfl, rfl⟩

end Stages

/-! ### The search and its walk -/

/-- **A search that returns has walked**: it returns the instant it settles on, false
when it gives up, and whatever its calls make of it when it stumbles. -/
theorem walks_of_findNext {cex : CronExpr} {dot : ℤ} (hne : cex.Nonempty) :
    ∀ (fuel : ℕ) (p : Instant) (x : Bool × Tm), p.Valid → findNext cex dot fuel p.tm = .ok x →
      (∃ q : Instant, q.Valid ∧ cex.Settles dot p q ∧ x = (true, q.tm)) ∨
        cex.GivesUp dot p ∧ x.1 = false ∨ cex.Stumbles dot p := by
  intro fuel
  induction fuel with
  | zero => intro p x _ hx; simp [findNext] at hx
  | succ fuel ih =>
    intro p x h hx
    have hf : Follows cex (findNext cex dot fuel)
        (secondStage cex (findNext cex dot fuel) dot p.tm) (cex.next dot p) :=
      secondStage_follows hne h
    rw [findNext] at hx
    rw [hx] at hf
    cases hn : cex.next dot p with
    | returns q =>
      rw [hn] at hf
      by_cases hq : cex.Matches q
      · exact Or.inl ⟨q, hf.1, ⟨Walks.returns hn, hq⟩, Except.ok.inj hf.2⟩
      · exact Or.inr (Or.inr ⟨q, Walks.returns hn, hq⟩)
    | givesUp =>
      rw [hn] at hf
      obtain ⟨date, hdate⟩ := hf
      exact Or.inr (Or.inl ⟨Walks.givesUp hn, by rw [Except.ok.inj hdate]⟩)
    | calls q =>
      rw [hn] at hf
      obtain ⟨hq, rest, hrest, hmatch⟩ := hf
      cases hcall : findNext cex dot fuel q.tm with
      | error e => rw [hcall] at hrest; simp [orReturn] at hrest
      | ok y =>
        rw [hcall] at hrest
        rcases ih q y hq hcall with ⟨r, hr, hsettles, rfl⟩ | ⟨hgives, hy⟩ | ⟨r, hr, hstumbles⟩
        · -- the call before has nothing left to do
          rw [orReturn_true, hmatch r hsettles.2] at hrest
          exact Or.inl ⟨r, hr, ⟨Walks.calls hn hsettles.1, hsettles.2⟩, Except.ok.inj hrest⟩
        · obtain ⟨res, date⟩ := y
          simp only at hy
          subst hy
          rw [orReturn_false] at hrest
          exact Or.inr (Or.inl ⟨Walks.calls hn hgives, by rw [Except.ok.inj hrest]⟩)
        · exact Or.inr (Or.inr ⟨r, Walks.calls hn hr, hstumbles⟩)

/-- A walk ends in one way. -/
theorem Walks.unique {cex : CronExpr} {dot : ℤ} {p : Instant} {m n : Next} (hm : Walks cex dot p m)
    (hn : Walks cex dot p n) : m = n := by
  induction hm with
  | returns h => cases hn <;> simp_all
  | givesUp h => cases hn <;> simp_all
  | calls h _ ih =>
    cases hn with
    | returns h' => rw [h] at h'; simp at h'
    | givesUp h' => rw [h] at h'; simp at h'
    | calls h' hq' =>
      rw [h, Next.calls.injEq] at h'
      subst h'
      exact ih hq'

theorem CronExpr.next_of_matches {cex : CronExpr} {p : Instant} (h : cex.Matches p) (dot : ℤ) :
    cex.next dot p = .returns p := by
  rw [next, if_pos h.second, minuteNext, if_pos h.minute, hourNext, if_pos h.hour, dayNext,
    if_pos h.day, monthNext, if_pos h.month]

/-! ### The entry point -/

/-- The year from which the search counts: that of the instant it starts from. -/
def dotOf (p : Instant) : ℤ := yearOf p.day - 1900

/-- A search from an instant, as `cron_next` makes it. -/
theorem findNext_walk {cex : CronExpr} (hne : cex.Nonempty) {p : Instant} (h : p.Valid) :
    ∃ res q, findNext cex (dotOf p) maxDepth p.tm = .ok (res, Instant.tm q) ∧ q.Valid ∧
      (res = true → p.time ≤ q.time ∧ q.time < p.time + maxDepth ∧
        (q.time = p.time → cex.Matches p)) ∧
      (res = true ∧ cex.Settles (dotOf p) p q ∨ res = false ∧ cex.GivesUp (dotOf p) p ∨
        cex.Stumbles (dotOf p) p) := by
  obtain ⟨res, q, hx, hq, hres⟩ := findNext_total hne h
  refine ⟨res, q, hx, hq, hres, ?_⟩
  rcases walks_of_findNext hne maxDepth p _ h hx with ⟨r, hr, hsettles, heq⟩ | ⟨hgives, hfalse⟩ |
    hstumbles
  · rw [Prod.mk.injEq] at heq
    have hqr : q = r :=
      calc q = ofTime q.tm.time := by rw [time_tm, ofTime_time hq]
        _ = ofTime r.tm.time := by rw [heq.2]
        _ = r := by rw [time_tm, ofTime_time hr]
    exact Or.inl ⟨heq.1, hqr ▸ hsettles⟩
  · exact Or.inr (Or.inl ⟨hfalse, hgives⟩)
  · exact Or.inr (Or.inr hstumbles)

/-- The instant from which `cron_next` searches: a second on, when now itself
matches. -/
def CronExpr.start (cex : CronExpr) (now : ℤ) : Instant :=
  if cex.Matches (ofTime now) then ofTime (now + 1) else ofTime now

theorem valid_start (cex : CronExpr) {now : ℤ} (hnow : 0 ≤ now) : (cex.start now).Valid := by
  unfold CronExpr.start
  split
  · exact valid_ofTime (by omega)
  · exact valid_ofTime hnow

/-- A search from an instant that matches settles there. -/
theorem settles_of_matches {cex : CronExpr} {dot : ℤ} {p q : Instant} {res : Bool}
    (hmatch : cex.Matches p)
    (hwalk : res = true ∧ cex.Settles dot p q ∨ res = false ∧ cex.GivesUp dot p ∨
      cex.Stumbles dot p) : res = true ∧ q = p := by
  have hreturns : Walks cex dot p (.returns p) :=
    Walks.returns (CronExpr.next_of_matches hmatch dot)
  rcases hwalk with ⟨htrue, hw, -⟩ | ⟨-, hw⟩ | ⟨r, hw, hr⟩
  · have heq := hw.unique hreturns
    rw [Next.returns.injEq] at heq
    exact ⟨htrue, heq⟩
  · exact absurd (hw.unique hreturns) (by simp)
  · have heq := hw.unique hreturns
    rw [Next.returns.injEq] at heq
    exact absurd (heq ▸ hmatch) hr

/-- How the walk ends, told by the time that `cron_next` makes of it. -/
private theorem ends_of_walk {cex : CronExpr} {dot now : ℤ} {p q : Instant} {res : Bool}
    (hq : q.Valid) (hlt : res = true → now < q.time)
    (hwalk : res = true ∧ cex.Settles dot p q ∨ res = false ∧ cex.GivesUp dot p ∨
      cex.Stumbles dot p) :
    (∃ r, cex.Settles dot p r ∧ r.Valid ∧ (if res then q.time else -1) = r.time ∧
      now < if res then q.time else -1) ∨
      cex.GivesUp dot p ∧ (if res then q.time else -1) = -1 ∨ cex.Stumbles dot p := by
  rcases hwalk with ⟨rfl, hsettles⟩ | ⟨rfl, hgives⟩ | hstumbles
  · exact Or.inl ⟨q, hsettles, hq, rfl, hlt rfl⟩
  · exact Or.inr (Or.inl ⟨hgives, rfl⟩)
  · exact Or.inr (Or.inr hstumbles)

/-- **`cron_next` returns**: the instant its walk settles on, which is later than
now, or -1 when the walk gives up.  Nothing is said of a walk that stumbles, except
that the result lies within 3000 days. -/
theorem cronNext_walk {cex : CronExpr} (hne : cex.Nonempty) {now : ℤ} (hnow : 0 ≤ now) :
    ∃ v, cronNext cex now = .ok v ∧ v ≤ now + maxDepth ∧
      ((∃ q, cex.Settles (dotOf (cex.start now)) (cex.start now) q ∧ q.Valid ∧ v = q.time ∧
        now < v) ∨ cex.GivesUp (dotOf (cex.start now)) (cex.start now) ∧ v = -1 ∨
        cex.Stumbles (dotOf (cex.start now)) (cex.start now)) := by
  have hp : (ofTime now).Valid := valid_ofTime hnow
  have hpt : (ofTime now).time = now := time_ofTime now
  have hmk : mktime (localtime now) = (now, (ofTime now).tm) := by
    rw [localtime_eq, mktime_tm hp, hpt]
  have hdot : (ofTime now).tm.year = dotOf (ofTime now) := rfl
  obtain ⟨res, q, hx, hq, hres, hwalk⟩ := findNext_walk hne hp
  unfold cronNext
  rw [hmk]
  dsimp only
  rw [if_neg (show ¬ now = -1 by omega), hdot, hx, ok_bind]
  dsimp only
  by_cases hmatch : cex.Matches (ofTime now)
  · -- now matches: the search settles at once, and starts again a second later
    obtain ⟨rfl, rfl⟩ := settles_of_matches hmatch hwalk
    have hp1 : (ofTime (now + 1)).Valid := valid_ofTime (by omega)
    have hafter : (ofTime now).after 1 = ofTime (now + 1) := by rw [after, hpt]
    have hdot1 : (ofTime (now + 1)).tm.year = dotOf (ofTime (now + 1)) := rfl
    obtain ⟨res, q, hx, hq, hres, hwalk⟩ := findNext_walk hne hp1
    simp only [Bool.not_true, Bool.false_eq_true, if_false, mktime_tm hp, hpt,
      if_neg (show ¬ now = -1 by omega), if_true, addToField_second hp, hafter, ok_bind, hdot1, hx]
    rw [CronExpr.start, if_pos hmatch]
    rw [time_ofTime] at hres
    have hlt : res = true → now < q.time := by
      intro h
      have := (hres h).1
      omega
    have hends := ends_of_walk hq hlt hwalk
    cases res with
    | false => exact ⟨-1, rfl, by simp only [maxDepth]; omega, hends⟩
    | true =>
      obtain ⟨h1, h2, -⟩ := hres rfl
      refine ⟨q.time, ?_, by omega, hends⟩
      simp only [Bool.not_true, Bool.false_eq_true, if_false, mktime_tm hq]
      rfl
  · -- it does not: the search either moves or leaves another instant
    rw [CronExpr.start, if_neg hmatch]
    rw [hpt] at hres
    have hne' : res = true → q.time ≠ now := fun h heq => hmatch ((hres h).2.2 heq)
    have hlt : res = true → now < q.time := by
      intro h
      have := (hres h).1
      have := hne' h
      omega
    have hends := ends_of_walk hq hlt hwalk
    cases res with
    | false => exact ⟨-1, rfl, by simp only [maxDepth]; omega, hends⟩
    | true =>
      obtain ⟨h1, h2, -⟩ := hres rfl
      refine ⟨q.time, ?_, by omega, hends⟩
      simp only [Bool.not_true, Bool.false_eq_true, if_false, mktime_tm hq,
        if_neg (show ¬ q.time = -1 by omega), if_neg (hne' rfl)]
      rfl

/-- Before the epoch `mktime` fails, and `cron_next` with it. -/
theorem cronNext_of_neg (cex : CronExpr) {now : ℤ} (hnow : now < 0) :
    cronNext cex now = .ok (-1) := by
  have hmk : mktime (localtime now) = (-1, localtime now) := by
    rw [mktime, localtime_eq, time_tm, time_ofTime, if_pos hnow]
  unfold cronNext
  rw [hmk]
  rfl

/-- **`cron_next` never throws.** -/
theorem cronNext_ok {cex : CronExpr} (hne : cex.Nonempty) (now : ℤ) :
    ∃ v, cronNext cex now = .ok v := by
  rcases lt_or_ge now 0 with hnow | hnow
  · exact ⟨-1, cronNext_of_neg cex hnow⟩
  · obtain ⟨v, hv, -⟩ := cronNext_walk hne hnow
    exact ⟨v, hv⟩

end Cron
end JobScheduler
