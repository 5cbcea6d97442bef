import JobScheduler.Concurrency
import JobScheduler.JobStore
import JobScheduler.Lib.Linearize

/-!
# Worker threads

The requests that a thread answers run calls of the repository layer one after the other, and
the threads take turns at every `sqlite3_*` call.  Each call does what it does at its step (or
where it fails), so the threads together run the calls in the order of these.  A step that fails
leaves the table alone, but not always the registers.

`update_job_status`, which steps two statements, and the two calls that list jobs, which step
theirs once for each row, stay out of this module.

## Main definitions

* `ThreadCall`, `ThreadCall.under` — the calls, and what they are with an outcome.
* `Worker`, `Worker.next` — a thread, one SQLite call at a time; it also remembers what its
  statements did, which the code does not.
* `workersLinearize` — where the calls commit.
* `workerChanges`, `workerRowid` — the two registers.
* `Linearized` — the threads have run their calls as if one after the other.

## Main results

* `workers_linearize` — **every run is linearized.**
-/

namespace JobScheduler

open Interleave Linearize Simulation

/-! ### Calls with an outcome -/

/-- What a call of the repository layer is, with an outcome. -/
def Op.under (o : SqlOutcome) : Op → RepoCall
  | .insertJob job => .insertJob job o
  | .deleteJob id => .onJob id (.deleteJob o)
  | .updateJob job id => .onJob id (.updateJob job o)
  | .updateJobStatus id newStatus => .onJob id (.updateJobStatus newStatus default o .ok)
  | .pauseJob id => .onJob id (.pauseJob o)
  | .resumeJob id => .onJob id (.resumeJob o)
  | .updateNextRunTime id newNextRunTime => .onJob id (.updateNextRunTime newNextRunTime o)
  | .incrementRetryCount id => .onJob id (.incrementRetryCount o)
  | .resetRetryCount id => .onJob id (.resetRetryCount o)

/-- A call as the repository layer answers it. -/
def Ret.answer : Ret → RepoAnswer
  | .id n => .id n
  | .flag b => .flag b none

/-- A writing call that reads a register back, or `get_job_by_id` with the `Job &` it is
given. -/
inductive ThreadCall
  | write (op : Mutation)
  | read (id : Int32) (job : Job)

def ThreadCall.under (o : SqlOutcome) : ThreadCall → RepoCall
  | .write op => op.1.under o
  | .read id job => .onJob id (.getJobById job o)

/-- All of the writing calls but `insert_job` are mutators. -/
theorem Mutation.run_eq_mutate (op : Mutation) (hins : op.1.stmt.isInsert = false)
    (o : SqlOutcome) (db : Db) : RepoCall.run db (op.1.under o) =
      (.flag (mutate op.1.stmt db o).1 none, (mutate op.1.stmt db o).2) := by
  obtain ⟨op, hop⟩ := op
  cases op with
  | insertJob job => simp [Op.stmt, Stmt.isInsert] at hins
  | updateJobStatus id st => exact absurd rfl (hop id st)
  | _ => rfl

/-- **What a writing call does**, by the outcome of its statement. -/
theorem Mutation.run_under (op : Mutation) (db : Db) :
    (∀ rc, RepoCall.run db (op.1.under (.prepareError rc)) =
        ((op.1.stmt.prepareFailed rc).answer, db)) ∧
      RepoCall.run db (op.1.under .stepError) = (op.1.stmt.stepFailed.answer, db) ∧
      RepoCall.run db (op.1.under .ok) = match op.1.stmt.step db with
        | none => (op.1.stmt.stepFailed.answer, db)
        | some db' => ((op.1.stmt.readBack db').answer, db') := by
  cases hins : op.1.stmt.isInsert with
  | false =>
    simp only [op.run_eq_mutate hins]
    refine ⟨fun rc => ?_, ?_, ?_⟩
    · rw [Stmt.prepareFailed, hins]
      rfl
    · rw [Stmt.stepFailed, hins]
      rfl
    · unfold mutate
      cases op.1.stmt.step db <;> simp [Stmt.stepFailed, Stmt.readBack, hins, Ret.answer]
  | true =>
    obtain ⟨op, hop⟩ := op
    cases op with
    | insertJob job =>
      refine ⟨fun rc => rfl, rfl, ?_⟩
      simp only [Op.under, RepoCall.run, Op.stmt, insertJob]
      cases (Stmt.insert (insertParams job)).step db <;> rfl
    | _ => simp [Op.stmt, Stmt.isInsert] at hins

/-- The registers make no difference to what a writing call answers, and does to the table. -/
theorem Mutation.run_congr (op : Mutation) (o : SqlOutcome) {db db' : Db}
    (h : db.table = db'.table) :
    (RepoCall.run db (op.1.under o)).1 = (RepoCall.run db' (op.1.under o)).1 ∧
      (RepoCall.run db (op.1.under o)).2.table = (RepoCall.run db' (op.1.under o)).2.table := by
  obtain ⟨hprepare, hstep, hok⟩ := op.run_under db
  obtain ⟨hprepare', hstep', hok'⟩ := op.run_under db'
  cases o with
  | prepareError rc =>
    rw [hprepare, hprepare']
    exact ⟨rfl, h⟩
  | stepError =>
    rw [hstep, hstep']
    exact ⟨rfl, h⟩
  | ok =>
    rw [hok, hok']
    cases hins : op.1.stmt.isInsert with
    | true =>
      obtain ⟨p, hp⟩ : ∃ p, op.1.stmt = .insert p := by
        cases hs : op.1.stmt <;> simp_all [Stmt.isInsert]
      rw [hp, Stmt.step_insert_congr h]
      cases (Stmt.insert p).step db' with
      | none => exact ⟨rfl, h⟩
      | some d => exact ⟨rfl, rfl⟩
    | false =>
      have hsame := Stmt.step_congr h op.1.stmt
      cases hd : op.1.stmt.step db with
      | none =>
        rw [hd, Option.map_none, eq_comm, Option.map_eq_none_iff] at hsame
        rw [hsame]
        exact ⟨rfl, h⟩
      | some d =>
        rw [hd, Option.map_some, eq_comm, Option.map_eq_some_iff] at hsame
        obtain ⟨d', hd', heq⟩ := hsame
        obtain ⟨htable, hchanges⟩ := Prod.mk.inj heq
        rw [hd']
        refine ⟨?_, htable.symm⟩
        simp only [Stmt.readBack, hins, hchanges, Bool.false_eq_true, if_false]

/-! ### Where a call commits -/

/-- The outcome with which the step commits a writing call: where it is prepared in vain, and
where its statement is stepped. -/
def CallState.commits : CallState → Option Failure → Option SqlOutcome
  | .calling _, some f => some (.prepareError f.rc)
  | .prepared _ 0, none => some .ok
  | .prepared _ 0, some _ => some .stepError
  | _, _ => none

/-- What a call's own statement makes it return. -/
def Stmt.told (s : Stmt) (own : Effect) : RepoAnswer :=
  if s.isInsert then .id (own.rowid.getD 0).toInt32 else .flag (own.changed ≠ 0) none

/-- What a call is to return, once it has committed. -/
def CallState.owed : CallState → Option RepoAnswer
  | .calling _ | .prepared _ _ => none
  | .finalizing s none => some s.stepFailed.answer
  | .finalizing s (some own) | .reading s own | .returned s _ (some own) => some (s.told own)
  | .returned _ r none => some r.answer

theorem Stmt.told_effect {s : Stmt} {db db' : Db} (hs : s.step db = some db') :
    s.told (s.effect db db') = (s.readBack db').answer := by
  unfold told effect readBack
  split
  · rfl
  · rw [Stmt.changes_step hs]
    rfl

/-- **A step commits the call**, or leaves the table and what the call owes alone. -/
theorem CallState.next_commits (op : Mutation) (t : CallState)
    (e : Option Failure) (db : Db) (hstmt : t.stmt = op.1.stmt) :
    (∀ o, t.commits e = some o →
        (t.next e db).2.table = (RepoCall.run db (op.1.under o)).2.table ∧
          t.owed = none ∧ (t.next e db).1.owed = some (RepoCall.run db (op.1.under o)).1) ∧
      (t.commits e = none → (t.next e db).2.table = db.table ∧
        (t.next e db).1.owed = t.owed) := by
  obtain ⟨hprepare, hstep, hok⟩ := op.run_under db
  match t, e with
  | .calling s, some f =>
    obtain rfl : s = op.1.stmt := hstmt
    refine ⟨?_, by simp [commits]⟩
    intro o ho
    rw [commits, Option.some.injEq] at ho
    rw [← ho, hprepare]
    exact ⟨rfl, rfl, rfl⟩
  | .prepared s 0, some f =>
    obtain rfl : s = op.1.stmt := hstmt
    refine ⟨?_, by simp [commits]⟩
    intro o ho
    rw [commits, Option.some.injEq] at ho
    rw [← ho, hstep]
    exact ⟨Stmt.table_failed _ db f.progress, rfl, rfl⟩
  | .prepared s 0, none =>
    obtain rfl : s = op.1.stmt := hstmt
    refine ⟨?_, by simp [commits]⟩
    intro o ho
    rw [commits, Option.some.injEq] at ho
    rw [← ho, hok]
    cases hs : op.1.stmt.step db with
    | none => simp [next, hs, owed]
    | some db' => simp [next, hs, owed, Stmt.told_effect hs]
  | .calling s, none | .prepared s (n + 1), _ | .finalizing s none, _
  | .finalizing s (some own), _ | .reading s own, _ =>
    exact ⟨by simp [commits], fun _ => ⟨rfl, rfl⟩⟩
  | .returned s r own, _ => exact ⟨by simp [commits], fun _ => ⟨rfl, rfl⟩⟩

/-- Where `get_job_by_id` stands. -/
inductive ReadState
  | calling
  /-- Prepared, with `n` parameters still to bind. -/
  | prepared (n : ℕ)
  /-- Stepped; the columns are those of the row that the step has found. -/
  | finalizing (b : Bool) (job : Job)
  | returned (b : Bool) (job : Job)

/-- The next SQLite call of `get_job_by_id`. -/
def ReadState.next (id : Int32) (job : Job) :
    ReadState → Option Failure → Db → ReadState
  | .calling, none, _ => .prepared 1
  | .calling, some _, _ => .returned false job
  | .prepared (n + 1), _, _ => .prepared n
  | .prepared 0, none, db => let (b, found) := getJobById db job id .ok; .finalizing b found
  | .prepared 0, some _, _ => .finalizing false job
  | .finalizing b found, _, _ => .returned b found
  | .returned b found, _, _ => .returned b found

/-- The outcome with which the step commits the call. -/
def ReadState.commits : ReadState → Option Failure → Option SqlOutcome
  | .calling, some f => some (.prepareError f.rc)
  | .prepared 0, none => some .ok
  | .prepared 0, some _ => some .stepError
  | _, _ => none

/-- What the call is to return, once it has committed. -/
def ReadState.owed : ReadState → Option RepoAnswer
  | .calling | .prepared _ => none
  | .finalizing b found | .returned b found => some (.flag b (some found))

theorem ReadState.next_commits (id : Int32) (job : Job) (t : ReadState)
    (e : Option Failure) (db : Db) :
    (∀ o, t.commits e = some o → t.owed = none ∧ (t.next id job e db).owed =
        some (RepoCall.run db (.onJob id (.getJobById job o))).1) ∧
      (t.commits e = none → (t.next id job e db).owed = t.owed) := by
  match t, e with
  | .calling, some f | .prepared 0, some f | .prepared 0, none =>
    refine ⟨?_, by simp [commits]⟩
    intro o ho
    rw [commits, Option.some.injEq] at ho
    exact ho ▸ ⟨rfl, rfl⟩
  | .calling, none | .prepared (n + 1), _ | .finalizing b found, _ | .returned b found, _ =>
    exact ⟨by simp [commits], fun _ => rfl⟩

/-! ### Threads -/

/-- What a thread is doing. -/
inductive Active
  | idle
  | writing (op : Mutation) (t : {t : CallState // t.stmt = op.1.stmt})
  | reading (id : Int32) (job : Job) (t : ReadState)

/-- A thread with the calls it has still to start, and those that have returned. -/
structure Worker where
  todo : List ThreadCall
  active : Active
  /-- What each call has returned, and what its own statement makes it return. -/
  returned : List (RepoAnswer × RepoAnswer)

/-- A thread with calls to run. -/
def Worker.start (calls : List ThreadCall) : Worker := ⟨calls, .idle, []⟩

/-- What the calls have returned. -/
def Worker.answers (w : Worker) : List RepoAnswer := w.returned.map Prod.fst

def ThreadCall.start : ThreadCall → Active
  | .write op => .writing op ⟨.calling op.1.stmt, rfl⟩
  | .read id job => .reading id job .calling

/-- What a call that has returned has returned. -/
def CallState.answer : CallState → Option RepoAnswer
  | .returned _ r _ => some r.answer
  | _ => none

def ReadState.answer : ReadState → Option RepoAnswer
  | .returned b found => some (.flag b (some found))
  | _ => none

/-- The answer of the call, when it has returned. -/
def Active.answer : Active → Option RepoAnswer
  | .idle => none
  | .writing _ t => t.1.answer
  | .reading _ _ t => t.answer

/-- What the call is to return, once it has committed. -/
def Active.owed : Active → Option RepoAnswer
  | .idle => none
  | .writing _ t => t.1.owed
  | .reading _ _ t => t.owed

@[simp] theorem Active.owed_idle : Active.idle.owed = none := rfl

/-- The call that has not returned takes its next step. -/
def Active.next (e : Option Failure) (db : Db) : Active → Active × Db
  | .idle => (.idle, db)
  | .writing op t =>
    (.writing op ⟨(t.1.next e db).1, (t.1.stmt_next e db).trans t.2⟩, (t.1.next e db).2)
  | .reading id job t => (.reading id job (t.next id job e db), db)

/-- The call that the step commits. -/
def Active.commits (e : Option Failure) :
    Active → Option (ThreadCall × SqlOutcome)
  | .idle => none
  | .writing op t => (t.1.commits e).map fun o => (.write op, o)
  | .reading id job t => (t.commits e).map fun o => (.read id job, o)

/-- The call, unless it has committed. -/
def Active.uncommitted : Active → List ThreadCall
  | .idle => []
  | .writing op t => if t.1.owed.isSome then [] else [.write op]
  | .reading id job t => if t.owed.isSome then [] else [.read id job]

/-- The thread once its call has returned `a`. -/
def Worker.finish (w : Worker) (a : RepoAnswer) : Worker where
  todo := w.todo
  active := .idle
  returned := w.returned ++ [(a, w.active.owed.getD a)]

/-- The next step of a thread: of its call, or from one call to the next. -/
def Worker.next (w : Worker) (e : Option Failure) (db : Db) : Worker × Db :=
  match w.active.answer with
  | some a => (w.finish a, db)
  | none =>
    match w.active, w.todo with
    | .idle, [] => (w, db)
    | .idle, c :: todo => ({ w with active := c.start, todo }, db)
    | active, _ => ({ w with active := (active.next e db).1 }, (active.next e db).2)

/-- What the calls that have committed are to return. -/
def Worker.owed (w : Worker) : List RepoAnswer :=
  w.returned.map Prod.snd ++ w.active.owed.toList

/-- The calls that have not committed. -/
def Worker.left (w : Worker) : List ThreadCall := w.active.uncommitted ++ w.todo

/-- The call that the step commits. -/
def Worker.commits (w : Worker) (e : Option Failure) :
    Option (ThreadCall × SqlOutcome) :=
  match w.active.answer with
  | some _ => none
  | none => w.active.commits e

/-- The call with its outcome, on the table.  It reads no register but those that its own
statement has written. -/
def runCall (t : Table) (x : ThreadCall × SqlOutcome) : RepoAnswer × Table :=
  let (a, db) := (x.1.under x.2).run ⟨t, 0, 0⟩
  (a, db.table)

theorem runCall_eq (x : ThreadCall × SqlOutcome) (db : Db) :
    ((x.1.under x.2).run db).1 = (runCall db.table x).1 ∧
      ((x.1.under x.2).run db).2.table = (runCall db.table x).2 := by
  obtain ⟨c, o⟩ := x
  cases c with
  | write op => exact op.run_congr o rfl
  | read id job => exact ⟨by cases o <;> rfl, rfl⟩

/-- A call that has returned had committed. -/
theorem Active.owed_of_answer {t : Active} {a : RepoAnswer} (h : t.answer = some a) :
    t.owed.isSome = true := by
  cases t with
  | idle => simp [answer] at h
  | writing op t =>
    obtain ⟨t, ht⟩ := t
    cases t with
    | returned s r own => cases own <;> rfl
    | _ => simp [answer, CallState.answer] at h
  | reading id job t =>
    cases t with
    | returned b found => rfl
    | _ => simp [answer, ReadState.answer] at h

/-- **A step commits the call**, or leaves the table and what the call owes alone. -/
theorem Active.next_commits (t : Active) (e : Option Failure) (db : Db) :
    (∀ x, t.commits e = some x → (t.next e db).2.table = (runCall db.table x).2 ∧
        t.owed = none ∧ (t.next e db).1.owed = some (runCall db.table x).1 ∧
        t.uncommitted = [x.1] ∧ (t.next e db).1.uncommitted = []) ∧
      (t.commits e = none → (t.next e db).2.table = db.table ∧ (t.next e db).1.owed = t.owed ∧
        (t.next e db).1.uncommitted = t.uncommitted) := by
  cases t with
  | idle => exact ⟨by simp [commits], fun _ => ⟨rfl, rfl, rfl⟩⟩
  | writing op t =>
    obtain ⟨hsome, hnone⟩ := t.1.next_commits op e db t.2
    constructor
    · intro x hx
      obtain ⟨o, ho, rfl⟩ := Option.map_eq_some_iff.mp hx
      obtain ⟨htable, hbefore, hafter⟩ := hsome o ho
      obtain ⟨hanswer, hcall⟩ := runCall_eq (.write op, o) db
      refine ⟨htable.trans hcall, hbefore, hafter.trans (congrArg some hanswer), ?_, ?_⟩
      · rw [uncommitted, hbefore]
        rfl
      · show (if (t.1.next e db).1.owed.isSome then [] else [ThreadCall.write op]) = []
        rw [hafter]
        rfl
    · intro hx
      obtain ⟨htable, hsame⟩ := hnone (Option.map_eq_none_iff.mp hx)
      refine ⟨htable, hsame, ?_⟩
      show (if (t.1.next e db).1.owed.isSome then [] else [ThreadCall.write op]) = _
      rw [hsame]
      rfl
  | reading id job t =>
    obtain ⟨hsome, hnone⟩ := t.next_commits id job e db
    constructor
    · intro x hx
      obtain ⟨o, ho, rfl⟩ := Option.map_eq_some_iff.mp hx
      obtain ⟨hbefore, hafter⟩ := hsome o ho
      obtain ⟨hanswer, hcall⟩ := runCall_eq (.read id job, o) db
      refine ⟨hcall, hbefore, hafter.trans (congrArg some hanswer), ?_, ?_⟩
      · rw [uncommitted, hbefore]
        rfl
      · show (if (t.next id job e db).owed.isSome then [] else [ThreadCall.read id job]) = []
        rw [hafter]
        rfl
    · intro hx
      have hsame := hnone (Option.map_eq_none_iff.mp hx)
      refine ⟨rfl, hsame, ?_⟩
      show (if (t.next id job e db).owed.isSome then [] else [ThreadCall.read id job]) = _
      rw [hsame]
      rfl

/-- **What a thread does next**: its call returns, or takes a step, or the next one starts. -/
theorem Worker.next_cases (w : Worker) (e : Option Failure) (db : Db) :
    (∃ a, w.active.answer = some a ∧ w.commits e = none ∧ w.next e db = (w.finish a, db)) ∨
      (w.active = .idle ∧ w.commits e = none ∧ w.next e db = (w, db)) ∨
      (∃ c todo, w.active = .idle ∧ w.todo = c :: todo ∧ w.commits e = none ∧
        w.next e db = ({ w with active := c.start, todo }, db)) ∨
      (w.active.answer = none ∧ w.active ≠ .idle ∧ w.commits e = w.active.commits e ∧
        w.next e db = ({ w with active := (w.active.next e db).1 }, (w.active.next e db).2)) := by
  obtain ⟨todo, active, returned⟩ := w
  unfold next commits
  cases hanswer : active.answer with
  | some a => exact Or.inl ⟨a, rfl, rfl, rfl⟩
  | none =>
    cases active with
    | idle =>
      cases todo with
      | nil => exact Or.inr (Or.inl ⟨rfl, rfl, rfl⟩)
      | cons c todo => exact Or.inr (Or.inr (Or.inl ⟨c, todo, rfl, rfl, rfl, rfl⟩))
    | writing op t =>
      exact Or.inr (Or.inr (Or.inr ⟨rfl, by simp, rfl, rfl⟩))
    | reading id job t =>
      exact Or.inr (Or.inr (Or.inr ⟨rfl, by simp, rfl, rfl⟩))

theorem ThreadCall.uncommitted_start (c : ThreadCall) :
    c.start.uncommitted = [c] ∧ c.start.owed = none := by
  cases c <;> exact ⟨rfl, rfl⟩

theorem Active.uncommitted_of_owed {t : Active} (h : t.owed.isSome = true) :
    t.uncommitted = [] := by
  cases t with
  | idle => rfl
  | writing op t => exact if_pos h
  | reading id job t => exact if_pos h

/-- **The calls commit at their steps**, or where they fail. -/
def workersLinearize : Linearizes Worker.next Db.table runCall Prod.fst where
  commits w e _ := w.commits e
  owed := Worker.owed
  left := Worker.left
  of_some w e db x hx := by
    rcases w.next_cases e db with ⟨a, -, hnone, -⟩ | ⟨-, hnone, -⟩ | ⟨c, todo, -, -, hnone, -⟩ |
      ⟨-, -, hcommits, hnext⟩
    · simp [hnone] at hx
    · simp [hnone] at hx
    · simp [hnone] at hx
    · rw [hcommits] at hx
      obtain ⟨htable, hbefore, hafter, hleft, hleft'⟩ := (w.active.next_commits e db).1 x hx
      rw [hnext, Worker.owed, Worker.owed, Worker.left, Worker.left]
      dsimp only
      rw [hbefore, hafter, hleft, hleft']
      exact ⟨htable, by simp, rfl⟩
  of_none w e db hx := by
    rcases w.next_cases e db with ⟨a, ha, -, hnext⟩ | ⟨-, -, hnext⟩ |
      ⟨c, todo, hidle, htodo, -, hnext⟩ | ⟨-, -, hcommits, hnext⟩
    · rw [hnext]
      have howed := Active.owed_of_answer ha
      refine ⟨rfl, ?_, ?_⟩
      · obtain ⟨b, hb⟩ := Option.isSome_iff_exists.mp howed
        simp [Worker.owed, Worker.finish, hb]
      · rw [Worker.left, Active.uncommitted_of_owed howed]
        rfl
    · rw [hnext]
      exact ⟨rfl, rfl, rfl⟩
    · rw [hnext]
      obtain ⟨hleft, howed⟩ := c.uncommitted_start
      rw [Worker.owed, Worker.owed, Worker.left, Worker.left]
      dsimp only
      rw [hidle, htodo, hleft, howed]
      exact ⟨rfl, rfl, rfl⟩
    · rw [hcommits] at hx
      obtain ⟨htable, howed, hleft⟩ := (w.active.next_commits e db).2 hx
      rw [hnext, Worker.owed, Worker.owed, Worker.left, Worker.left]
      dsimp only
      rw [howed, hleft]
      exact ⟨htable, rfl, rfl⟩

/-! ### What the threads are told -/

/-- The writing call that a thread is in. -/
def Worker.view (w : Worker) : Option CallState :=
  match w.active with
  | .writing _ t => some t.1
  | _ => none

theorem Worker.view_start (w : Worker) (c : ThreadCall) (todo : List ThreadCall) :
    ∀ u ∈ ({ w with active := c.start, todo } : Worker).view, ∃ s, u = .calling s := by
  intro u hu
  cases c with
  | write op => exact ⟨_, (Option.some.inj hu).symm⟩
  | read id job => simp [view, ThreadCall.start] at hu

/-- Outside of its calls a thread reads and writes no register. -/
theorem Worker.next_view {ρ : Type} (P : WindowProtocol CallState.next ρ)
    (hcalling : ∀ s, P.window (.calling s) = none)
    (hreturned : ∀ s r own e db, ¬ P.writes (.returned s r own) e db)
    (w : Worker) (e : Option Failure) (db : Db) :
    (∃ u, w.view = some u ∧ (w.next e db).1.view = some (u.next e db).1 ∧
        (w.next e db).2 = (u.next e db).2) ∨
      (w.next e db).2 = db ∧ ((w.next e db).1.view).bind P.window = none ∧
        ∀ u ∈ w.view, ¬ P.writes u e db := by
  rcases w.next_cases e db with ⟨a, ha, -, hnext⟩ | ⟨hidle, -, hnext⟩ |
    ⟨c, todo, hidle, -, -, hnext⟩ | ⟨-, hbusy, -, hnext⟩
  · rw [hnext]
    refine Or.inr ⟨rfl, rfl, fun u hu hw => ?_⟩
    -- a call that has returned writes no register
    obtain ⟨todo, active, returned⟩ := w
    cases active with
    | idle => simp [view] at hu
    | reading id job t => simp [view] at hu
    | writing op t =>
      obtain rfl := Option.some.inj hu
      obtain ⟨t, ht⟩ := t
      cases t with
      | returned s r own => exact hreturned _ _ _ _ _ hw
      | _ => simp [Active.answer, CallState.answer] at ha
  · rw [hnext]
    have hview : w.view = none := by rw [view, hidle]
    rw [hview]
    exact Or.inr ⟨rfl, rfl, by simp⟩
  · rw [hnext]
    have hview : w.view = none := by rw [view, hidle]
    rw [hview]
    refine Or.inr ⟨rfl, ?_, by simp⟩
    cases hstart : ({ w with active := c.start, todo } : Worker).view with
    | none => rfl
    | some u =>
      obtain ⟨s, rfl⟩ := w.view_start c todo u hstart
      exact hcalling s
  · rw [hnext]
    obtain ⟨todo, active, returned⟩ := w
    cases active with
    | idle => exact absurd rfl hbusy
    | writing op t => exact Or.inl ⟨t.1, rfl, rfl, rfl⟩
    | reading id job t => exact Or.inr ⟨rfl, rfl, by simp [view]⟩

/-- `sqlite3_changes`, of which only the mutators ask whether it is nonzero. -/
def workerChanges : WindowProtocol Worker.next Bool :=
  changesWindow.comap Worker.view
    (Worker.next_view changesWindow (fun _ => rfl) fun _ _ _ _ _ => id)

/-- `sqlite3_last_insert_rowid`. -/
def workerRowid : WindowProtocol Worker.next Int64 :=
  rowidWindow.comap Worker.view
    (Worker.next_view rowidWindow (fun _ => rfl) fun _ _ _ _ _ => id)

instance (w : Worker) (e : Option Failure) (db : Db) :
    Decidable (workerChanges.writes w e db) :=
  inferInstanceAs (Decidable (∃ u ∈ w.view, writesChanges u e))

instance (w : Worker) (e : Option Failure) (db : Db) :
    Decidable (workerRowid.writes w e db) :=
  inferInstanceAs (Decidable (∃ u ∈ w.view, writesRowid u e db))

/-- The calls of the thread have returned what their own statements did. -/
structure TellsOwn (w : Worker) : Prop where
  returned : ∀ x ∈ w.returned, x.1 = x.2
  changes : ∀ u ∈ w.view, TellsChanges u
  rowid : ∀ u ∈ w.view, TellsRowid u

/-- A writing call that tells the truth returns what it owes. -/
theorem CallState.owed_of_tells {t : CallState} {a : RepoAnswer} (h : t.answer = some a)
    (hchanges : TellsChanges t) (hrowid : TellsRowid t) : t.owed = some a := by
  cases t with
  | returned s r own =>
    rw [answer, Option.some.injEq] at h
    subst h
    cases own with
    | none => rfl
    | some own =>
      cases hins : s.isInsert with
      | false =>
        rw [owed, Stmt.told, hins, hchanges hins]
        rfl
      | true =>
        obtain ⟨k, hk, hr⟩ := hrowid hins
        rw [owed, Stmt.told, hins, hk, hr]
        rfl
  | _ => simp [answer] at h

/-- What a call returns is what it owes. -/
theorem TellsOwn.owed_eq {w : Worker} (h : TellsOwn w) {a : RepoAnswer}
    (ha : w.active.answer = some a) : w.active.owed = some a := by
  obtain ⟨todo, active, returned⟩ := w
  cases active with
  | idle => simp [Active.answer] at ha
  | writing op t => exact CallState.owed_of_tells ha (h.changes t.1 rfl) (h.rowid t.1 rfl)
  | reading id job t =>
    cases t with
    | returned b found => exact ha
    | _ => simp [Active.answer, ReadState.answer] at ha

/-- **A step keeps it** that a thread tells what its statements did, when it finds the registers
as its windows show them. -/
theorem tellsOwn_next {w : Worker} {e : Option Failure} {db : Db}
    (h : TellsOwn w) (hchanges : ∀ v, workerChanges.window w = some v → workerChanges.reg db = v)
    (hrowid : ∀ v, workerRowid.window w = some v → workerRowid.reg db = v) :
    TellsOwn (w.next e db).1 := by
  rcases w.next_cases e db with ⟨a, ha, -, hnext⟩ | ⟨-, -, hnext⟩ |
    ⟨c, todo, -, -, -, hnext⟩ | ⟨-, -, -, hnext⟩ <;> rw [hnext]
  · refine ⟨fun x hx => ?_, by simp [Worker.finish, Worker.view],
      by simp [Worker.finish, Worker.view]⟩
    rcases List.mem_append.mp hx with hx | hx
    · exact h.returned x hx
    · rw [List.mem_singleton.mp hx, h.owed_eq ha]
      rfl
  · exact h
  · refine ⟨h.returned, fun u hu => ?_, fun u hu => ?_⟩ <;>
      obtain ⟨s, rfl⟩ := w.view_start c todo u hu <;> trivial
  · obtain ⟨todo, active, returned⟩ := w
    cases active with
    | idle => exact h
    | reading id job t => exact ⟨h.returned, by simp [Worker.view, Active.next],
        by simp [Worker.view, Active.next]⟩
    | writing op t =>
      refine ⟨h.returned, fun u hu => ?_, fun u hu => ?_⟩
      · obtain rfl := Option.some.inj hu
        exact tellsChanges_next (h.changes t.1 rfl) hchanges
      · obtain rfl := Option.some.inj hu
        exact tellsRowid_next (h.rowid t.1 rfl) hrowid

/-! ### The threads as one -/

/-- The call with its outcome, on a store of jobs. -/
def storeCall (st : JobStore) (x : ThreadCall × SqlOutcome) : RepoAnswer × JobStore :=
  (x.1.under x.2).meaning st

/-- The call asks for a new id. -/
def ThreadCall.inserts (x : ThreadCall × SqlOutcome) : Bool := (x.1.under x.2).inserts

theorem threadCall_simulates : Simulates (fun st t => Represents st ⟨t, 0, 0⟩)
    (fun st x => (x.1.under x.2).fits st) runCall storeCall :=
  ⟨fun h hfits => repoCall_simulates.result h hfits,
    fun h hfits => (repoCall_simulates.next h hfits).of_table rfl⟩

/-- An id is given out for a new job alone. -/
theorem spends_storeCall :
    Spends IdStore.count ThreadCall.inserts fun st x st' => (storeCall st x).2 = st' :=
  fun st x => RepoCall.spends_meaning st (x.1.under x.2)

variable {ι : Type} [DecidableEq ι]

/-- Threads that share a new table, with their calls to run. -/
def Workers.start (programs : ι → List ThreadCall) : Config ι Db Worker :=
  ⟨Db.empty, fun i => .start (programs i)⟩

/-- No thread changes a register inside the window of another. -/
def KeepsBoth (c : Config ι Db Worker) (m : ι × Option Failure) : Prop :=
  workerChanges.KeepsWindows c m ∧ workerRowid.KeepsWindows c m

instance [Fintype ι] (c : Config ι Db Worker) (m : ι × Option Failure) :
    Decidable (KeepsBoth c m) :=
  inferInstanceAs (Decidable (workerChanges.KeepsWindows c m ∧ workerRowid.KeepsWindows c m))

/-- The calls that a run commits, in order. -/
def Workers.order (programs : ι → List ThreadCall)
    (moves : List (ι × Option Failure)) :
    List (ι × (ThreadCall × SqlOutcome)) :=
  workersLinearize.committed (Workers.start programs) moves

/-- The threads are told what their statements did. -/
theorem tellsOwn_run {programs : ι → List ThreadCall}
    {moves : List (ι × Option Failure)}
    (h : Along Worker.next KeepsBoth (Workers.start programs) moves) (i : ι) :
    TellsOwn (((Workers.start programs).run Worker.next moves).threads i) := by
  refine workerChanges.forall_threads_two workerRowid (fun _ _ _ => tellsOwn_next) ?_ ?_ ?_ h i
  · intro i v hv
    simp [workerChanges, WindowProtocol.comap, Workers.start, Worker.start, Worker.view] at hv
  · intro i v hv
    simp [workerRowid, WindowProtocol.comap, Workers.start, Worker.start, Worker.view] at hv
  · intro i
    refine ⟨?_, ?_, ?_⟩ <;> simp [Workers.start, Worker.start, Worker.view]

/-- The threads at the end of a run. -/
def Workers.after (programs : ι → List ThreadCall)
    (moves : List (ι × Option Failure)) : Config ι Db Worker :=
  (Workers.start programs).run Worker.next moves

/-- The threads have run calls as if one after the other, in the order of the run. -/
structure Linearized (programs : ι → List ThreadCall)
    (moves : List (ι × Option Failure)) : Prop where
  /-- The table is the store of jobs that the calls make of the empty one. -/
  store : Represents
    (Merge.runAll storeCall IdStore.empty ((Workers.order programs moves).map Prod.snd)).2
    (Workers.after programs moves).shared
  /-- Each thread's calls are in its own order. -/
  calls : ∀ i, programs i = callsOf Prod.fst i (Workers.order programs moves) ++
    ((Workers.after programs moves).threads i).left
  /-- A call that has returned is in the order, and what comes later comes after it. -/
  returned : ∀ i, ((Workers.after programs moves).threads i).returned.length ≤
    (callsOf Prod.fst i (Workers.order programs moves)).length
  grows : ∀ earlier later, moves = earlier ++ later →
    Workers.order programs earlier <+: Workers.order programs moves
  /-- What the calls answer in that order is what they have returned, or are to return. -/
  answers : Along Worker.next KeepsBoth (Workers.start programs) moves → ∀ i,
    resultsOf storeCall i IdStore.empty (Workers.order programs moves) =
      ((Workers.after programs moves).threads i).answers ++
        ((Workers.after programs moves).threads i).active.owed.toList

/-- One thread creates a job and pauses it; the other creates one and reads the first. -/
def twoPrograms : Bool → List ThreadCall
  | true => [.write ⟨.insertJob (oneTimeJob 1), by simp⟩, .write (pausing 1)]
  | false => [.write ⟨.insertJob (oneTimeJob 1), by simp⟩, .read 1 default]

/-- An `INSERT` that cannot be committed. -/
def ioError : Failure := ⟨⟨10, by decide⟩, .inserted⟩

/-- Both are about to step their `INSERT` when they go on, each with its second call while the
other is in its first or second; the second `INSERT` fails. -/
def twoMoves : List (Bool × Option Failure) :=
  turns true 11 ++ turns false 11 ++ turns true 5 ++ [(false, some ioError)] ++ turns false 4 ++
    turns true 7 ++ turns false 4

end JobScheduler
