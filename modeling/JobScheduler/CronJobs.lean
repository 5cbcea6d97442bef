import JobScheduler.Creation
import JobScheduler.Cron.Path

/-!
# The next run of a cron job

What `compute_cron_next_run` returns for an expression that the checks accept, and
what `create_job` stores of it.

## Main definitions

* `RunsNext` — the time that is computed is later than now and in the five sets.
* `StoredAhead` — a job created with the expression is stored with a time later than
  now.
* `HoldsCourse` — no call of the search takes a wrong turn, or leads past what the
  statement can store.

## Main results

* `cronJob_runs_next` — **a search that holds its course gives a next run**, and
  otherwise it does not, unless it has mistaken a day.
-/

namespace JobScheduler

open CText
open Cron (CronExpr Instant dotOf localtime makeCron cronNext)
open RValue (member object string number)

/-- The broken-down time is in the sets of an expression, seconds apart. -/
structure Cron.CronExpr.MatchesDate (cex : CronExpr) (date : Cron.Tm) : Prop where
  minute : cex.minutes.getLsbD date.min.toNat = true
  hour : cex.hours.getLsbD date.hour.toNat = true
  dayOfMonth : cex.daysOfMonth.getLsbD (date.mday.toNat - 1) = true
  month : cex.months.getLsbD date.mon.toNat = true
  dayOfWeek : cex.daysOfWeek.getLsbD date.wday.toNat = true

/-- The next run is later than now, at a time that the expression denotes. -/
def RunsNext (cronExpr : Bytes) (now : Int64) : Prop :=
  ∃ cex next, makeCron (fullExpr cronExpr) = .ok cex ∧
    computeCronNextRun cronExpr now = .ok next ∧ now < next ∧
    cex.MatchesDate (localtime next.toInt)

/-- A body that the checks accept for a cron job with this expression. -/
structure CronBody (uninit : Int64) (members : List (Bytes × RValue)) (cronExpr : Bytes) :
    Prop where
  valid : validateJobInput uninit (.object members) = .ok none
  type : ∀ lit, member members (ascii "type") = some (number lit) → lexicalCast uninit lit.text = 2
  expr : ∃ raw, member members (ascii "cron_expr") = some (string raw) ∧ unescape raw = cronExpr

/-- The row of every cron job that is created with the expression is later than
now. -/
def StoredAhead (cronExpr : Bytes) (now : Int64) : Prop :=
  ∀ uninit db members job error db', CronBody uninit members cronExpr →
    db.table.nextRowid ≠ none →
    createJob uninit now db (.object members) .ok = .ok (job, error, db') →
    ∃ r, db'.table.lookup db'.lastInsertRowid = some r ∧ now < r.nextRunTime

/-- Every call of the search for the next run takes neither wrong turn, and leads to
an instant that fits the 32 bits in which `insert_job` binds it. -/
def HoldsCourse (cex : CronExpr) (now : ℤ) : Prop :=
  ∀ p, cex.Visits (dotOf (cex.start now)) (cex.start now) p →
    cex.KeepsCourse (dotOf (cex.start now)) p ∧
      ∀ q, (cex.next (dotOf (cex.start now)) p).Leads q → q.time < 2 ^ 31

/-! ### What is stored -/

/-- A cron job's row holds the next run that was computed, narrowed to 32 bits. -/
theorem createJob_cron {uninit now : Int64} {db db' : Db} {members : List (Bytes × RValue)}
    {job : Job} {error : Bytes} {cronExpr : Bytes} (hbody : CronBody uninit members cronExpr)
    (hk : db.table.nextRowid ≠ none)
    (h : createJob uninit now db (.object members) .ok = .ok (job, error, db')) :
    ∃ next r, computeCronNextRun cronExpr now = .ok next ∧
      db'.table.lookup db'.lastInsertRowid = some r ∧ r.nextRunTime = next.toInt32.toInt64 := by
  obtain ⟨hvalid, htype, raw, hraw, hexpr⟩ := hbody
  have hacc := accepted_of_valid hvalid
  obtain ⟨k, hk⟩ := Option.ne_none_iff_exists'.mp hk
  obtain ⟨built, hbuilt, -, -, rfl⟩ := createJob_of_valid hvalid h
  obtain ⟨lit, hjob⟩ := builtFrom_of_buildJob hacc hbuilt
  obtain ⟨raw', hraw', -, -, hnext⟩ := hjob.cron (by rw [htype lit hjob.typeLit]; rfl)
  rw [hraw, Option.some.injEq, RValue.string.injEq] at hraw'
  subst hraw'
  exact ⟨built.nextRunTime, (insertParams built).toRow k, hexpr ▸ hnext,
    lookup_insertJob built hk, rfl⟩

/-- Every expression that is accepted has a body that is accepted. -/
def cronMembers (cronExpr : Bytes) : List (Bytes × RValue) :=
  [(ascii "name", .string (ascii "a")), (ascii "type", intLit 2 (by decide)),
    (ascii "payload", .string (ascii "p")), (ascii "cron_expr", .string (escape cronExpr))]

theorem cronBody_cronMembers {cronExpr : Bytes} (h : isValidCron cronExpr = .ok none) :
    CronBody 0 (cronMembers cronExpr) cronExpr := by
  have hname : member (cronMembers cronExpr) (ascii "name") = some (.string (ascii "a")) := rfl
  have htype : member (cronMembers cronExpr) (ascii "type") = some (intLit 2 (by decide)) := rfl
  have hpayload : member (cronMembers cronExpr) (ascii "payload") = some (.string (ascii "p")) :=
    rfl
  have hexpr : member (cronMembers cronExpr) (ascii "cron_expr") =
      some (.string (escape cronExpr)) := rfl
  have hne : cronExpr ≠ [] := by
    rintro rfl
    revert h
    decide +kernel
  refine ⟨?_, ?_, escape cronExpr, hexpr, unescape_escape cronExpr⟩
  · obtain ⟨r, hr, hiff, -⟩ := validateJobInput_object 0 (cronMembers cronExpr)
    rw [hr, hiff.mpr]
    refine ⟨⟨_, hname, by decide⟩, ⟨_, htype, by decide, by decide, ?_⟩, _, hpayload, by decide⟩
    refine ⟨fun h0 => absurd h0 (by decide), fun h1 => absurd h1 (by decide), ?_⟩
    intro _
    exact ⟨_, hexpr, by rwa [unescape_escape], by rwa [unescape_escape]⟩
  · intro lit hlit
    rw [htype, Option.some.injEq, intLit, RValue.number.injEq] at hlit
    rw [← hlit]
    decide

/-- Narrowed to 32 bits, a time up to 3000 days from now stays ahead of now exactly
when it fits. -/
theorem narrowed_ahead_iff {now : Int64} {v : ℤ} (hnow : 0 ≤ now.toInt) (h1 : now.toInt < v)
    (h2 : v ≤ now.toInt + 259200000) :
    now < (Int64.ofInt v).toInt32.toInt64 ↔ v < 2 ^ 31 := by
  have hlt := Int64.toInt_lt now
  rw [Int64.lt_iff_toInt_lt, Int32.toInt_toInt64, Int64.toInt_toInt32, Int64.toInt_ofInt]
  have hsize : (Int64.size : ℤ) = 18446744073709551616 := rfl
  simp only [Int.bmod_def, hsize]
  constructor
  · intro h
    split at h <;> split at h <;> omega
  · intro h
    split <;> split <;> omega

/-! ### The next run -/

/-- The instant that a search settles on has the date of an instant that matches. -/
theorem matchesDate_of_settles {cex : CronExpr} {q : Instant} (h : cex.Matches q) (hq : q.Valid) :
    cex.MatchesDate (localtime q.time) := by
  have hday := h.day
  rw [CronExpr.hasDay, Bool.and_eq_true] at hday
  rw [Cron.Instant.localtime_eq, Cron.Instant.ofTime_time hq]
  exact ⟨h.minute, h.hour, hday.1, h.month, hday.2⟩

section NextRun

variable {cronExpr : Bytes} {cex : CronExpr} {now : Int64}

/-- A search that holds its course settles, before 2^31. -/
theorem settles_of_holdsCourse (hne : cex.Nonempty) (hnow : 0 ≤ now.toInt)
    (h : HoldsCourse cex now.toInt) :
    ∃ q, cex.Matches q ∧ q.Valid ∧ cronNext cex now.toInt = .ok q.time ∧ now.toInt < q.time ∧
      q.time < 2 ^ 31 := by
  have hstart := Cron.valid_start cex hnow
  have hcourse := fun p hp => (h p hp).1
  obtain ⟨v, hv, -, ⟨q, ⟨hw, hq⟩, hqv, rfl, hlt⟩ | ⟨hw, -⟩ | ⟨q, hw, hq⟩⟩ :=
    Cron.cronNext_walk hne hnow
  · obtain ⟨r, hr, hreturns⟩ := Cron.exists_visits_of_walks hw rfl
    exact ⟨q, hq, hqv, hv, hlt, (h r hr).2 q (Or.inr hreturns)⟩
  · obtain ⟨q, hq, -⟩ := Cron.settles_of_keepsCourse hne hw hstart hcourse
    simp at hq
  · obtain ⟨q', hq', hmatch⟩ := Cron.settles_of_keepsCourse hne hw hstart hcourse
    rw [Cron.Next.returns.injEq] at hq'
    exact absurd (hq' ▸ hmatch) hq

/-- **A search that holds its course gives a next run**, and the jobs created with it
are stored ahead of now. -/
theorem runsNext_of_holdsCourse (hcex : makeCron (fullExpr cronExpr) = .ok cex)
    (hnow : 0 ≤ now.toInt) (h : HoldsCourse cex now.toInt) :
    RunsNext cronExpr now ∧ StoredAhead cronExpr now := by
  obtain ⟨q, hmatch, hq, hcron, hlt, hfits⟩ :=
    settles_of_holdsCourse ((Cron.makeCron_parses _).of_ok hcex) hnow h
  obtain ⟨v, hv, hcron'⟩ := computeCronNextRun_ok now hcex
  obtain rfl : v = q.time := by
    rw [hcron', Except.ok.injEq] at hcron
    exact hcron
  have hnext : (Int64.ofInt q.time).toInt = q.time :=
    Int64.toInt_ofInt_of_le (by omega) (by omega)
  constructor
  · refine ⟨cex, _, hcex, hv, ?_, ?_⟩
    · rw [Int64.lt_iff_toInt_lt, hnext]
      exact hlt
    · rw [hnext]
      exact matchesDate_of_settles hmatch hq
  · -- the time fits, so the row holds it as it is
    intro uninit db members job error db' hbody hk hcreate
    obtain ⟨next, r, hcompute, hr, hstored⟩ := createJob_cron hbody hk hcreate
    rw [hv, Except.ok.injEq] at hcompute
    refine ⟨r, hr, ?_⟩
    rw [hstored, ← hcompute, Int64.lt_iff_toInt_lt, toInt_narrowed (by omega) (by omega), hnext]
    exact hlt

/-- A job created with an expression that is stored ahead of now has a next run that
fits 32 bits. -/
theorem lt_of_storedAhead {v : ℤ} (hcex : makeCron (fullExpr cronExpr) = .ok cex)
    (hnow : 0 ≤ now.toInt) (hv : computeCronNextRun cronExpr now = .ok (Int64.ofInt v))
    (h1 : now.toInt < v) (h2 : v ≤ now.toInt + 259200000) (h : StoredAhead cronExpr now) :
    v < 2 ^ 31 := by
  -- a job with this expression is created in an empty table
  have hbody := cronBody_cronMembers (isValidCron_eq_none.mpr ⟨cex, hcex⟩)
  have hk : Db.empty.table.nextRowid ≠ none := by decide
  have hwell : WellTyped (cronMembers cronExpr) := by
    constructor
    · intro v hv
      exact absurd (show none = some v from hv) (by simp)
    · intro v hv
      have hstring : RValue.string (escape cronExpr) = v := Option.some.inj hv
      exact Or.inr (hstring ▸ rfl)
  obtain ⟨⟨job, error, db'⟩, hcreate⟩ := (createJob_ok_iff 0 now Db.empty .ok (by simp)).mpr
    ⟨cronMembers cronExpr, rfl, fun _ => hwell⟩
  obtain ⟨next, r, hcompute, hr, hstored⟩ := createJob_cron hbody hk hcreate
  obtain ⟨r', hr', hahead⟩ := h 0 Db.empty _ job error db' hbody hk hcreate
  rw [hr, Option.some.injEq] at hr'
  rw [hv, Except.ok.injEq] at hcompute
  rw [← hr', hstored, ← hcompute] at hahead
  exact (narrowed_ahead_iff hnow h1 h2).mp hahead

/-- **A search for a next run holds its course, or mistakes a day.** -/
theorem holdsCourse_of_runsNext (hcex : makeCron (fullExpr cronExpr) = .ok cex)
    (hnow : 0 ≤ now.toInt) (hruns : RunsNext cronExpr now) (hstored : StoredAhead cronExpr now) :
    HoldsCourse cex now.toInt ∨ ∃ p, cex.Visits (dotOf (cex.start now.toInt))
      (cex.start now.toInt) p ∧ cex.MistakesDay p := by
  have hne : cex.Nonempty := (Cron.makeCron_parses _).of_ok hcex
  have hstart := Cron.valid_start cex hnow
  obtain ⟨v, hv, hcron⟩ := computeCronNextRun_ok now hcex
  obtain ⟨v', hcron', hle, hwalk⟩ := Cron.cronNext_walk hne hnow
  rw [hcron, Except.ok.injEq] at hcron'
  subst hcron'
  rcases hwalk with ⟨q, ⟨hw, -⟩, hq, rfl, hlt⟩ | ⟨-, rfl⟩ | hs
  · -- it settles, and no call leads past where it does
    have hdepth : ((Cron.maxDepth : ℕ) : ℤ) = 259200000 := by rw [Cron.maxDepth]; norm_num
    have hfits := lt_of_storedAhead hcex hnow hv hlt (by omega) hstored
    by_cases hmistakes : ∃ p, cex.Visits (dotOf (cex.start now.toInt)) (cex.start now.toInt) p ∧
        cex.MistakesDay p
    · exact Or.inr hmistakes
    · apply Or.inl
      intro p hp
      obtain ⟨hwp, hvalid⟩ := Cron.walks_of_visits hne hw hstart hp
      obtain ⟨hyear, hleads⟩ := Cron.leads_of_walks hne hwp hvalid
      refine ⟨⟨hyear, fun hday => hmistakes ⟨p, hp, hday⟩⟩, ?_⟩
      intro r hr
      exact lt_of_le_of_lt (hleads r hr) hfits
  · -- -1 is before every time
    obtain ⟨-, next, -, hnext, hlt, -⟩ := hruns
    rw [hv, Except.ok.injEq] at hnext
    rw [← hnext, Int64.lt_iff_toInt_lt] at hlt
    have hneg : (Int64.ofInt (-1)).toInt = -1 := rfl
    omega
  · -- it ends on an instant that does not match
    exact Or.inr (Cron.mistakesDay_of_stumbles hne hstart hs)

/-- **The next run of a cron job.**  A search that holds its course gives a next run
that is stored ahead of now.  A search that gives one has held its course, unless it
has mistaken a day; an expression that restricts one of the two day fields, at most,
mistakes none. -/
theorem cronJob_runs_next (hcex : makeCron (fullExpr cronExpr) = .ok cex)
    (hnow : 0 ≤ now.toInt) :
    (HoldsCourse cex now.toInt → RunsNext cronExpr now ∧ StoredAhead cronExpr now) ∧
      (RunsNext cronExpr now ∧ StoredAhead cronExpr now → HoldsCourse cex now.toInt ∨
        ∃ p, cex.Visits (dotOf (cex.start now.toInt)) (cex.start now.toInt) p ∧
          cex.MistakesDay p) ∧
      (cex.OneDayField →
        (RunsNext cronExpr now ∧ StoredAhead cronExpr now ↔ HoldsCourse cex now.toInt)) := by
  have hgives := runsNext_of_holdsCourse hcex hnow
  have hholds : RunsNext cronExpr now ∧ StoredAhead cronExpr now → HoldsCourse cex now.toInt ∨ _ :=
    fun h => holdsCourse_of_runsNext hcex hnow h.1 h.2
  refine ⟨hgives, hholds, fun hone => ⟨fun h => ?_, hgives⟩⟩
  rcases hholds h with h | ⟨p, -, hday⟩
  · exact h
  · exact absurd hday (Cron.not_mistakesDay ((Cron.makeCron_parses _).of_ok hcex) hone p)

end NextRun

/-- Every minute. -/
def everyMinute : CronExpr where
  seconds := 1
  minutes := BitVec.allOnes 60
  hours := BitVec.allOnes 24
  daysOfWeek := BitVec.allOnes 7
  daysOfMonth := BitVec.allOnes 31
  months := BitVec.allOnes 12

theorem cronJob_runs_next_everyMinute :
    RunsNext (ascii " * * * * *") 0 ∧ StoredAhead (ascii " * * * * *") 0 := by
  have hcex : makeCron (fullExpr (ascii " * * * * *")) = .ok everyMinute := by decide +kernel
  have hnext : everyMinute.next (dotOf (everyMinute.start 0)) (everyMinute.start 0) =
      .returns (Instant.ofTime 60) := by decide +kernel
  apply (cronJob_runs_next hcex (show 0 ≤ (0 : Int64).toInt by decide)).1
  intro p hp
  -- the first call makes no other
  obtain rfl : p = everyMinute.start 0 := by
    rcases Relation.ReflTransGen.cases_head hp with h | ⟨q, hcall, -⟩
    · exact h.symm
    · have hcall : everyMinute.next _ _ = .calls q := hcall
      rw [show (0 : Int64).toInt = 0 from rfl, hnext] at hcall
      simp at hcall
  refine ⟨⟨?_, ?_⟩, ?_⟩
  · rw [show (0 : Int64).toInt = 0 from rfl, hnext]
    simp
  · exact Cron.not_mistakesDay ((Cron.makeCron_parses _).of_ok hcex) (Or.inl rfl) _
  · rintro q (hq | hq) <;> rw [show (0 : Int64).toInt = 0 from rfl, hnext] at hq
    · simp at hq
    · rw [Cron.Next.returns.injEq] at hq
      rw [← hq]
      decide

/-- Each 30 February: the expression is valid, and its next run is -1. -/
theorem cronJob_gives_up : isValidCron (ascii " 0 0 30 2 *") = .ok none ∧
    ¬ (RunsNext (ascii " 0 0 30 2 *") 0 ∧ StoredAhead (ascii " 0 0 30 2 *") 0) := by
  refine ⟨by decide +kernel, ?_⟩
  intro h
  obtain ⟨-, next, -, hnext, hlt, -⟩ := h.1
  have hminus : computeCronNextRun (ascii " 0 0 30 2 *") 0 = .ok (-1) := by decide +kernel
  rw [hminus, Except.ok.injEq] at hnext
  rw [← hnext] at hlt
  exact absurd hlt (by decide)

end JobScheduler
