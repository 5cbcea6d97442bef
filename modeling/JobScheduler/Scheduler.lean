import JobScheduler.Lib.Runs
import JobScheduler.Creation

/-!
# The scheduler loop

`scheduler_loop` of `Src/Scheduler/scheduler.cpp`.  A tick reads the clock, asks for
the due jobs once, and dispatches them one after the other by printing their names.
It writes nothing.  Requests run between any two of these steps.  The source leaves
out the `=` of `vector<Job> due_jobs = get_due_jobs(DB, now);`, which is read as
meant, and the second that it sleeps is left out.

A job is kept together with the rowid of its row, and a dispatch with its tick, which
the code does not do.

## Main definitions

* `Scheduler`, `Event`, `Scheduler.step` — the loop, with requests in between.
* `AtMostOnce` — what the log of the dispatches should look like.
* `Scheduler.MovedOn` — every job that has been dispatched is no longer due for that.

## Main results

* `dispatched_at_most_once` — **each occurrence is dispatched once**, in every run in
  which the requests have moved the dispatched jobs on before each tick.
* `stopped_job_leaves_ticks` — **a job that is paused or deleted is in no later tick.**
-/

namespace JobScheduler

open Runs

/-! ### The loop -/

/-- A job that has been dispatched. -/
structure Dispatch where
  rowid : Int64
  job : Job
  /-- The clock as the tick read it. -/
  now : Int64
  /-- The number of the tick. -/
  tick : ℕ
  deriving DecidableEq

/-- The loop and the database. -/
structure Scheduler where
  db : Db
  /-- What is left of `due_jobs`. -/
  due : List (Int64 × Job)
  now : Int64
  /-- The ticks that have begun. -/
  tick : ℕ
  /-- What has been dispatched, in order. -/
  log : List Dispatch
  deriving DecidableEq

/-- A step of the loop, or a request. -/
inductive Event
  /-- The loop reads the clock and asks for the due jobs. -/
  | tick (now : Int64) (o : ScanOutcome)
  /-- The loop dispatches the next job of the tick. -/
  | dispatch
  /-- A request runs a writing call.  One that fails writes nothing, and is no event. -/
  | request (op : Op)
  deriving DecidableEq

/-- The jobs that `get_due_jobs` returns, with their rowids. -/
def dueRows (db : Db) (now : Int64) (o : ScanOutcome) : List (Int64 × Job) :=
  o.deliver ((db.table.rows.filter (isDue now)).map fun r => (r.id, readRow r))

/-- `scheduler_loop`, one step at a time. -/
def Scheduler.step (s : Scheduler) : Event → Option Scheduler
  | .tick now o =>
    if s.due.isEmpty then some { s with due := dueRows s.db now o, now, tick := s.tick + 1 }
    else none
  | .dispatch =>
    match s.due with
    | [] => none
    | (rowid, job) :: due =>
      some { s with due, log := s.log ++ [⟨rowid, job, s.now, s.tick⟩] }
  | .request op => some { s with db := (op.run s.db).2 }

/-- The loop before its first tick. -/
def Scheduler.start (db : Db) : Scheduler := ⟨db, [], 0, 0, []⟩

/-- The loop's `due_jobs` are what `get_due_jobs` returns. -/
theorem dueRows_map_snd (db : Db) (now : Int64) (o : ScanOutcome) :
    (dueRows db now o).map Prod.snd = getDueJobs db now o := by
  have hmap : ∀ rows : List Row, (rows.map fun r => (r.id, readRow r)).map Prod.snd =
      rows.map readRow := by
    intro rows
    rw [List.map_map]
    rfl
  cases o with
  | complete => exact hmap _
  | stopped n =>
    show ((List.map _ _).take n).map Prod.snd = (List.map readRow _).take n
    rw [List.map_take, hmap]

theorem dueRows_sublist (db : Db) (now : Int64) (o : ScanOutcome) :
    (dueRows db now o).Sublist
      ((db.table.rows.filter (isDue now)).map fun r => (r.id, readRow r)) := by
  cases o with
  | complete => exact List.Sublist.refl _
  | stopped n => exact List.take_sublist n _

theorem mem_dueRows {db : Db} {now : Int64} {o : ScanOutcome} {x : Int64 × Job}
    (h : x ∈ dueRows db now o) : ∃ r, db.table.lookup x.1 = some r ∧
      r.status = bindInt Status.active.toInt ∧ r.nextRunTime ≤ now ∧ x.2 = readRow r := by
  obtain ⟨r, hr, rfl⟩ := List.mem_map.mp ((dueRows_sublist db now o).subset h)
  obtain ⟨hmem, hdue⟩ := List.mem_filter.mp hr
  rw [isDue, Bool.and_eq_true, decide_eq_true_eq, decide_eq_true_eq] at hdue
  exact ⟨r, Table.lookup_eq_some_iff.mpr ⟨hmem, rfl⟩, hdue.1, hdue.2, rfl⟩

/-- A tick has no job twice. -/
theorem nodup_dueRows (db : Db) (now : Int64) (o : ScanOutcome) :
    ((dueRows db now o).map Prod.fst).Nodup := by
  refine List.Nodup.sublist ((dueRows_sublist db now o).map Prod.fst) ?_
  rw [List.map_map]
  exact List.Nodup.sublist (List.filter_sublist.map Row.id) db.table.nodup

/-! ### Each occurrence once -/

/-- Of two dispatches of a job, the job is no one-time job, and the later dispatch is
for another next run time, which the clock had not reached at the earlier one. -/
def Dispatch.Precedes (d d' : Dispatch) : Prop :=
  d.rowid = d'.rowid → d.job.nextRunTime ≠ d'.job.nextRunTime ∧ d.job.type ≠ .oneTime ∧
    d.now < d'.job.nextRunTime

instance (d d' : Dispatch) : Decidable (d.Precedes d') := inferInstanceAs (Decidable (_ → _))

/-- Each occurrence of a job is dispatched at most once. -/
def AtMostOnce (log : List Dispatch) : Prop := log.Pairwise Dispatch.Precedes

instance (log : List Dispatch) : Decidable (AtMostOnce log) :=
  inferInstanceAs (Decidable (List.Pairwise _ _))

/-- The row of every job that has been dispatched is gone or not active, or else its
next run time is past the clock of the dispatch, and the job is no one-time job. -/
def Scheduler.MovedOn (s : Scheduler) : Prop :=
  ∀ d ∈ s.log, ∀ r ∈ s.db.table.lookup d.rowid, r.status = bindInt Status.active.toInt →
    d.job.type ≠ .oneTime ∧ d.now < r.nextRunTime

instance (s : Scheduler) : Decidable s.MovedOn :=
  inferInstanceAs (Decidable (∀ d ∈ s.log, _))

/-- The condition on a step: a tick begins when the dispatched jobs have moved on. -/
def TickMovedOn (s : Scheduler) : Event → Prop
  | .tick _ _ => s.MovedOn
  | _ => True

instance (s : Scheduler) (e : Event) : Decidable (TickMovedOn s e) := by
  unfold TickMovedOn
  cases e <;> infer_instance

/-- What ties the log to the jobs that are left in the tick. -/
structure Scheduler.Sound (s : Scheduler) : Prop where
  log : AtMostOnce s.log
  reached : ∀ d ∈ s.log, d.job.nextRunTime ≤ d.now
  due : ∀ d ∈ s.log, ∀ x ∈ s.due, d.rowid = x.1 →
    d.job.type ≠ .oneTime ∧ d.now < x.2.nextRunTime
  dueReached : ∀ x ∈ s.due, x.2.nextRunTime ≤ s.now
  nodup : (s.due.map Prod.fst).Nodup

theorem Scheduler.sound_start (db : Db) : (Scheduler.start db).Sound :=
  ⟨List.Pairwise.nil, by simp [start], by simp [start], by simp [start], List.nodup_nil⟩

/-- A tick begins with jobs that have not been dispatched for what they are due for. -/
theorem Scheduler.sound_tick {s : Scheduler} {now : Int64} {o : ScanOutcome} (h : s.Sound)
    (hmoved : s.MovedOn) :
    ({ s with due := dueRows s.db now o, now, tick := s.tick + 1 } : Scheduler).Sound := by
  refine ⟨h.log, h.reached, ?_, ?_, nodup_dueRows s.db now o⟩
  · intro d hd x hx heq
    obtain ⟨r, hr, hactive, -, hjob⟩ := mem_dueRows hx
    rw [hjob]
    exact hmoved d hd r (heq ▸ hr) hactive
  · intro x hx
    obtain ⟨r, -, -, hdue, hjob⟩ := mem_dueRows hx
    rw [hjob]
    exact hdue

/-- A dispatch is the first of its occurrence, and leaves none of the job behind. -/
theorem Scheduler.sound_dispatch {s : Scheduler} {rowid : Int64} {job : Job}
    {due : List (Int64 × Job)} (h : s.Sound) (hdue : s.due = (rowid, job) :: due) :
    ({ s with due, log := s.log ++ [⟨rowid, job, s.now, s.tick⟩] } : Scheduler).Sound := by
  obtain ⟨hlog, hreached, hdues, hdueReached, hnodup⟩ := h
  rw [hdue] at hdues hdueReached hnodup
  have hjob : job.nextRunTime ≤ s.now := hdueReached _ List.mem_cons_self
  rw [List.map_cons, List.nodup_cons] at hnodup
  constructor
  · -- an earlier dispatch of this job was for a time that had come then
    refine List.pairwise_append.mpr ⟨hlog, List.pairwise_singleton _ _, ?_⟩
    intro d hd d' hd' heq
    rw [List.mem_singleton] at hd'
    subst hd'
    obtain ⟨htype, hlt⟩ := hdues d hd _ List.mem_cons_self heq
    have hlt : d.now < job.nextRunTime := hlt
    have hle := hreached d hd
    refine ⟨fun hsame => ?_, htype, hlt⟩
    have hsame : d.job.nextRunTime = job.nextRunTime := hsame
    rw [hsame, Int64.le_iff_toInt_le] at hle
    rw [Int64.lt_iff_toInt_lt] at hlt
    omega
  · intro d hd
    rcases List.mem_append.mp hd with hd | hd
    · exact hreached d hd
    · rw [List.mem_singleton.mp hd]
      exact hjob
  · intro d hd x hx heq
    rcases List.mem_append.mp hd with hd | hd
    · exact hdues d hd x (List.mem_cons_of_mem _ hx) heq
    · -- the tick has no job twice
      rw [List.mem_singleton.mp hd] at heq
      exact absurd (List.mem_map.mpr ⟨x, hx, heq.symm⟩) hnodup.1
  · exact fun x hx => hdueReached x (List.mem_cons_of_mem _ hx)
  · exact hnodup.2

theorem Scheduler.sound_step {s s' : Scheduler} {e : Event} (h : s.Sound) (hmoved : TickMovedOn s e)
    (hstep : s.step e = some s') : s'.Sound := by
  cases e with
  | tick now o =>
    simp only [step] at hstep
    split at hstep
    · rw [Option.some.injEq] at hstep
      exact hstep ▸ sound_tick h hmoved
    · simp at hstep
  | dispatch =>
    simp only [step] at hstep
    split at hstep
    · simp at hstep
    · next rowid job due hdue =>
      rw [Option.some.injEq] at hstep
      exact hstep ▸ sound_dispatch h hdue
  | request op =>
    simp only [step, Option.some.injEq] at hstep
    obtain ⟨hlog, hreached, hdue, hdueReached, hnodup⟩ := h
    exact hstep ▸ ⟨hlog, hreached, hdue, hdueReached, hnodup⟩

/-- **Each occurrence is dispatched at most once**, in every run in which each tick
finds the jobs dispatched before moved on. -/
theorem dispatched_at_most_once {db : Db} {events : List Event} {s : Scheduler}
    (hmoved : Along Scheduler.step TickMovedOn (Scheduler.start db) events)
    (hrun : run Scheduler.step (Scheduler.start db) events = some s) : AtMostOnce s.log :=
  (invariant (fun _ _ _ => Scheduler.sound_step) (Scheduler.sound_start db) hmoved hrun).log

/-- A recurring job due at 1, moved on to 9 between two ticks. -/
def movedOnEvents : List Event :=
  [.request (.insertJob { oneTimeJob 1 with type := .recurring, intervalSeconds := some 8 }),
    .tick 1 .complete, .dispatch, .request (.updateNextRunTime 1 9), .tick 9 .complete, .dispatch]

theorem dispatched_at_most_once_moved : ∃ s,
    run Scheduler.step (Scheduler.start Db.empty) movedOnEvents = some s ∧ s.log.length = 2 ∧
      AtMostOnce s.log := by
  obtain ⟨s, hs⟩ := Option.isSome_iff_exists.mp
    (show (run Scheduler.step (Scheduler.start Db.empty) movedOnEvents).isSome = true by
      decide +kernel)
  have hlength : (run Scheduler.step (Scheduler.start Db.empty) movedOnEvents).map
      (fun s => s.log.length) = some 2 := by decide +kernel
  rw [hs, Option.map_some, Option.some.injEq] at hlength
  exact ⟨s, hs, hlength, dispatched_at_most_once (by decide +kernel) hs⟩

/-- A one-time job is dispatched in two ticks. -/
theorem dispatched_again : ∃ s, run Scheduler.step (Scheduler.start Db.empty)
    [.request (.insertJob (oneTimeJob 1)), .tick 1 .complete, .dispatch, .tick 2 .complete,
      .dispatch] = some s ∧ ¬ AtMostOnce s.log := by
  refine ⟨_, rfl, ?_⟩
  decide +kernel

/-! ### Stopped jobs -/

/-- The call writes ACTIVE into the row with this rowid. -/
def Op.Activates (rowid : Int64) (op : Op) : Prop :=
  op.stmt.rowid = some rowid ∧ op.wroteStatus = some .active

/-- A request that writes ACTIVE into the row with this rowid. -/
def Event.Activates (rowid : Int64) : Event → Prop
  | .request op => op.Activates rowid
  | _ => False

instance (rowid : Int64) (op : Op) : Decidable (op.Activates rowid) :=
  inferInstanceAs (Decidable (_ ∧ _))

instance (rowid : Int64) : ∀ e : Event, Decidable (e.Activates rowid)
  | .request op => inferInstanceAs (Decidable (op.Activates rowid))
  | .tick _ _ | .dispatch => isFalse id

/-- The row with this rowid is not active. -/
def Db.Inactive (db : Db) (rowid : Int64) : Prop :=
  ∀ r ∈ db.table.lookup rowid, r.status ≠ bindInt Status.active.toInt

theorem bindInt_status_ne {st : Status} (h : st ≠ .active) :
    bindInt st.toInt ≠ bindInt Status.active.toInt := by
  intro heq
  exact h (Status.toInt_eq_zero_iff.mp (bindInt_inj.mp heq))

/-- A call that writes no ACTIVE into a row leaves it inactive. -/
theorem Op.status_ne_active {op : Op} {r : Row} (hins : ¬ op.Inserts) (hdel : ¬ op.Deletes)
    (hop : ¬ op.Activates r.id) (hr : r.status ≠ bindInt Status.active.toInt) :
    (if op.stmt.whereClause r then op.stmt.setClause r else r).status ≠
      bindInt Status.active.toInt := by
  by_cases hrowid : op.stmt.rowid = some r.id
  · rw [(Op.setClause_wrote hins hdel hrowid).1]
    cases hwrote : op.wroteStatus with
    | none => exact hr
    | some st =>
      apply bindInt_status_ne
      rintro rfl
      exact hop ⟨hrowid, hwrote⟩
  · rw [if_neg fun hwhere => hrowid (Stmt.id_of_whereClause hwhere)]
    exact hr

/-- **Only a call that writes ACTIVE makes a row active**: a new row gets a rowid that
the table has not held. -/
theorem Op.inactive_run {op : Op} {db : Db} {rowid : Int64} (hop : ¬ op.Activates rowid)
    (hseq : rowid.toInt ≤ db.table.seq.toInt) (h : db.Inactive rowid) :
    (op.run db).2.Inactive rowid := by
  rw [Op.snd_run]
  cases hs : op.stmt.step db with
  | none => exact h
  | some db' =>
    intro r hr
    rw [Option.getD_some, Option.mem_def, Stmt.lookup_step hs] at hr
    cases op with
    | insertJob job =>
      have hne : db.table.nextRowid ≠ some rowid := by
        intro hk
        have := Table.seq_lt_nextRowid hk
        omega
      simp only [Op.stmt, Stmt.rowAfter, if_neg hne] at hr
      exact h r hr
    | deleteJob id =>
      simp only [Op.stmt, Stmt.rowAfter] at hr
      split at hr
      · simp at hr
      · exact h r hr
    | _ =>
      -- the other calls update the row, if it is there
      obtain ⟨r', hr', rfl⟩ := Option.map_eq_some_iff.mp hr
      have hid : r'.id = rowid := (Table.lookup_eq_some_iff.mp hr').2
      subst hid
      exact Op.status_ne_active id id hop (h r' hr')

/-- **A pause or a deletion that returns true leaves the row inactive**, and the table
has held its rowid. -/
theorem Op.inactive_of_stops {op : Op} {db : Db} {id : Int32}
    (hop : op = .pauseJob id ∨ op = .deleteJob id) (hret : (op.run db).1 = .flag true) :
    (op.run db).2.Inactive (bindInt id) ∧ (bindInt id).toInt ≤ db.table.seq.toInt := by
  have hfound : db.table.lookup (bindInt id) ≠ none := by
    rcases hop with rfl | rfl
    · have hflag : (JobScheduler.pauseJob db id .ok).1 = true := by simpa [Op.run] using hret
      exact ((mutate_eq_true_iff (s := .setStatus (bindInt Status.paused.toInt) (bindInt id)) rfl
        (fun _ => rfl) db .ok).mp hflag).2
    · have hflag : (JobScheduler.deleteJob db id .ok).1 = true := by simpa [Op.run] using hret
      exact ((mutate_eq_true_iff (s := .delete (bindInt id)) rfl (fun _ => rfl) db .ok).mp hflag).2
  obtain ⟨r, hr⟩ := Option.ne_none_iff_exists'.mp hfound
  obtain ⟨hmem, hid⟩ := Table.lookup_eq_some_iff.mp hr
  refine ⟨?_, hid ▸ db.table.le_seq r hmem⟩
  rw [Op.snd_run]
  rcases hop with rfl | rfl
  · obtain ⟨db', hs⟩ := Stmt.step_of_rowid (s := (Op.pauseJob id).stmt) rfl db
    intro r' hr'
    rw [hs, Option.getD_some, Option.mem_def, Stmt.lookup_step hs] at hr'
    -- the row that is found is the one that is paused
    obtain ⟨r'', hr'', rfl⟩ := Option.map_eq_some_iff.mp hr'
    have hid'' : r''.id = bindInt id := (Table.lookup_eq_some_iff.mp hr'').2
    rw [(Op.setClause_wrote (show ¬ (Op.pauseJob id).Inserts from not_false)
      (show ¬ (Op.pauseJob id).Deletes from not_false) (congrArg some hid''.symm)).1]
    exact bindInt_status_ne (show Status.paused ≠ .active by decide)
  · obtain ⟨db', hs⟩ := Stmt.step_of_rowid (s := (Op.deleteJob id).stmt) rfl db
    intro r' hr'
    rw [hs, Option.getD_some, Option.mem_def, Stmt.lookup_step hs, Op.stmt, Stmt.rowAfter,
      if_pos rfl] at hr'
    simp at hr'

/-- A job with this rowid is stopped since the tick numbered `n`: no later tick has it. -/
structure Scheduler.Stopped (rowid : Int64) (n : ℕ) (s : Scheduler) : Prop where
  inactive : s.db.Inactive rowid
  seq : rowid.toInt ≤ s.db.table.seq.toInt
  log : ∀ d ∈ s.log, d.rowid = rowid → d.tick ≤ n
  due : ∀ x ∈ s.due, x.1 = rowid → s.tick ≤ n

theorem Op.seq_le_run (op : Op) (db : Db) :
    db.table.seq.toInt ≤ (op.run db).2.table.seq.toInt := by
  rw [Op.snd_run]
  cases hs : op.stmt.step db with
  | none => exact Int.le_refl _
  | some db' => exact Stmt.seq_le_step hs

theorem Scheduler.stopped_step {rowid : Int64} {n : ℕ} {s s' : Scheduler} {e : Event}
    (h : s.Stopped rowid n) (hquiet : ¬ e.Activates rowid) (hstep : s.step e = some s') :
    s'.Stopped rowid n := by
  obtain ⟨hinactive, hseq, hlog, hdue⟩ := h
  cases e with
  | tick now o =>
    simp only [step] at hstep
    split at hstep
    · rw [Option.some.injEq] at hstep
      subst hstep
      refine ⟨hinactive, hseq, hlog, ?_⟩
      -- a tick lists active rows only
      intro x hx heq
      obtain ⟨r, hr, hactive, -, -⟩ := mem_dueRows hx
      exact absurd hactive (hinactive r (heq ▸ hr))
    · simp at hstep
  | dispatch =>
    simp only [step] at hstep
    split at hstep
    · simp at hstep
    · next id job due hd =>
      rw [Option.some.injEq] at hstep
      subst hstep
      rw [hd] at hdue
      refine ⟨hinactive, hseq, ?_, fun x hx => hdue x (List.mem_cons_of_mem _ hx)⟩
      intro d hd' heq
      rcases List.mem_append.mp hd' with hd' | hd'
      · exact hlog d hd' heq
      · rw [List.mem_singleton] at hd'
        subst hd'
        exact hdue _ List.mem_cons_self heq
  | request op =>
    simp only [step, Option.some.injEq] at hstep
    subst hstep
    exact ⟨Op.inactive_run hquiet hseq hinactive, Int.le_trans hseq (op.seq_le_run s.db), hlog,
      hdue⟩

/-- The log tells of ticks that have begun. -/
theorem Scheduler.tick_le {db : Db} {events : List Event} {s : Scheduler}
    (hrun : run Scheduler.step (Scheduler.start db) events = some s) :
    ∀ d ∈ s.log, d.tick ≤ s.tick := by
  refine invariant (I := fun s => ∀ d ∈ s.log, d.tick ≤ s.tick) (G := fun _ _ => True) ?_
    (by simp [start]) (along_of_forall _ fun _ _ _ => trivial) hrun
  intro s e s' h _ hstep
  cases e with
  | tick now o =>
    simp only [step] at hstep
    split at hstep
    · rw [Option.some.injEq] at hstep
      subst hstep
      exact fun d hd => Nat.le_succ_of_le (h d hd)
    · simp at hstep
  | dispatch =>
    simp only [step] at hstep
    split at hstep
    · simp at hstep
    · rw [Option.some.injEq] at hstep
      subst hstep
      intro d hd
      rcases List.mem_append.mp hd with hd | hd
      · exact h d hd
      · rw [List.mem_singleton.mp hd]
  | request op =>
    simp only [step, Option.some.injEq] at hstep
    subst hstep
    exact h

/-- **A job that is paused or deleted is in no later tick.**  Once the call has returned
true, the job is dispatched only by a tick that had begun before, and no later tick has
it left to dispatch, unless a call writes ACTIVE into its row. -/
theorem stopped_job_leaves_ticks {db : Db} {events events' : List Event} {s s' : Scheduler}
    {op : Op} {id : Int32} (hs : run Scheduler.step (Scheduler.start db) events = some s)
    (hop : op = .pauseJob id ∨ op = .deleteJob id) (hret : (op.run s.db).1 = .flag true)
    (hquiet : ∀ e ∈ events', ¬ e.Activates (bindInt id))
    (hrun : run Scheduler.step s (.request op :: events') = some s') :
    (∀ d ∈ s'.log, d.rowid = bindInt id → d.tick ≤ s.tick) ∧
      ∀ x ∈ s'.due, x.1 = bindInt id → s'.tick ≤ s.tick := by
  obtain ⟨t, ht, hrun⟩ := run_cons_eq_some.mp hrun
  simp only [Scheduler.step, Option.some.injEq] at ht
  subst ht
  obtain ⟨hinactive, hseq⟩ := Op.inactive_of_stops hop hret
  have hstart : Scheduler.Stopped (bindInt id) s.tick { s with db := (op.run s.db).2 } :=
    ⟨hinactive, Int.le_trans hseq (op.seq_le_run s.db),
      fun d hd _ => Scheduler.tick_le hs d hd, fun _ _ _ => Nat.le_refl _⟩
  have hstopped : Scheduler.Stopped (bindInt id) s.tick s' :=
    invariant (G := fun _ e => ¬ Event.Activates (bindInt id) e)
      (fun _ _ _ => Scheduler.stopped_step) hstart
      (along_of_forall _ fun e he _ => hquiet e he) hrun
  exact ⟨hstopped.log, hstopped.due⟩

/-- One job due, and a tick that has it still to dispatch. -/
def dueEvents : List Event := [.request (.insertJob (oneTimeJob 1)), .tick 1 .complete]

theorem stopped_job_leaves_ticks_paused : ∃ s',
    run Scheduler.step (Scheduler.start Db.empty)
      (dueEvents ++ [.request (.pauseJob 1), .dispatch, .tick 2 .complete]) = some s' ∧
      s'.tick = 2 ∧ ∀ d ∈ s'.log, d.rowid = bindInt 1 → d.tick ≤ 1 := by
  obtain ⟨s, hs⟩ := Option.isSome_iff_exists.mp
    (show (run Scheduler.step (Scheduler.start Db.empty) dueEvents).isSome = true by decide +kernel)
  have hpause : (run Scheduler.step (Scheduler.start Db.empty) dueEvents).map
      (fun s => (((Op.pauseJob 1).run s.db).1, s.tick)) = some (.flag true, 1) := by decide +kernel
  rw [hs, Option.map_some, Option.some.injEq, Prod.mk.injEq] at hpause
  obtain ⟨s', hs'⟩ := Option.isSome_iff_exists.mp
    (show (run Scheduler.step (Scheduler.start Db.empty)
      (dueEvents ++ [.request (.pauseJob 1), .dispatch, .tick 2 .complete])).isSome = true by
        decide +kernel)
  have htick : (run Scheduler.step (Scheduler.start Db.empty)
      (dueEvents ++ [.request (.pauseJob 1), .dispatch, .tick 2 .complete])).map
        (fun s => s.tick) = some 2 := by decide +kernel
  rw [hs', Option.map_some, Option.some.injEq] at htick
  obtain ⟨t, ht, hrest⟩ := run_append.mp hs'
  rw [hs, Option.some.injEq] at ht
  subst ht
  have hstopped := (stopped_job_leaves_ticks hs (Or.inl rfl) hpause.1 (by decide) hrest).1
  exact ⟨s', hs', htick, hpause.2 ▸ hstopped⟩

/-- A job is dispatched after its pause has returned true. -/
theorem dispatched_after_pause : ∃ s s', run Scheduler.step (Scheduler.start Db.empty) dueEvents =
    some s ∧ ((Op.pauseJob 1).run s.db).1 = .flag true ∧
      run Scheduler.step s [.request (.pauseJob 1), .dispatch] = some s' ∧
      ∃ d ∈ s'.log, d ∉ s.log ∧ d.rowid = bindInt 1 := by
  obtain ⟨s, hs⟩ := Option.isSome_iff_exists.mp
    (show (run Scheduler.step (Scheduler.start Db.empty) dueEvents).isSome = true by decide +kernel)
  obtain ⟨s', hs'⟩ := Option.isSome_iff_exists.mp
    (show (run Scheduler.step (Scheduler.start Db.empty)
      (dueEvents ++ [.request (.pauseJob 1), .dispatch])).isSome = true by decide +kernel)
  have hpause : (run Scheduler.step (Scheduler.start Db.empty) dueEvents).map
      (fun s => (((Op.pauseJob 1).run s.db).1, s.log.isEmpty)) = some (.flag true, true) := by
    decide +kernel
  have hlog : (run Scheduler.step (Scheduler.start Db.empty)
      (dueEvents ++ [.request (.pauseJob 1), .dispatch])).map (fun s => s.log.map Dispatch.rowid) =
        some [bindInt 1] := by decide +kernel
  rw [hs, Option.map_some, Option.some.injEq, Prod.mk.injEq, List.isEmpty_iff] at hpause
  rw [hs', Option.map_some, Option.some.injEq, List.map_eq_singleton_iff] at hlog
  obtain ⟨t, ht, hrest⟩ := run_append.mp hs'
  rw [hs, Option.some.injEq] at ht
  subst ht
  obtain ⟨d, hd, hrowid⟩ := hlog
  exact ⟨s, s', hs, hpause.1, hrest, d, by simp [hd], by simp [hpause.2], hrowid⟩

end JobScheduler
