import JobScheduler.Sqlite

/-!
# The repository layer

The functions of `Src/Repository/database.cpp`.  Each prepares a statement, binds
its parameters, steps it once, and reads the outcome back from the connection.
SQLite may refuse the preparation or fail the step, so each function takes the
outcome of its statement as an argument.  What the functions print is left out.

## Main definitions

* `SqlOutcome`, `ScanOutcome` — what SQLite may answer.
* `insertJob`, `selectAllJobs`, `getJobById`, `updateJobStatus`, `deleteJob`,
  `updateJob`, `pauseJob`, `resumeJob`, `updateNextRunTime`,
  `incrementRetryCount`, `resetRetryCount`, `selectDueJobs` — the functions.

* `Op`, `Op.run` — the writing calls as one type, and one successful call.
* `Op.wroteStatus`, `Op.wroteNextRunTime` — what a call writes into two of the columns.

## Main results

* `mutate_ok` — a mutator that meets no failure reports whether its statement
  changed a row.
-/

namespace JobScheduler

/-- `SQLITE_OK`. -/
def sqliteOk : Int32 := 0

/-- How the calls on one writing statement turn out.  With `ok` every call
succeeds, except a step that SQLite itself must refuse. -/
inductive SqlOutcome
  | ok
  /-- `sqlite3_prepare_v2` returns this error code. -/
  | prepareError (rc : {rc : Int32 // rc ≠ sqliteOk})
  /-- `sqlite3_step` returns something other than `SQLITE_DONE`.  It may reset the registers,
  which no function reads before a step that succeeds; `Stmt.failed` says how. -/
  | stepError
  deriving DecidableEq

/-- How the calls on a `SELECT` turn out: every row is delivered, or the scan
stops after `n` of them.  A failed preparation stops it before the first. -/
inductive ScanOutcome
  | complete
  | stopped (n : ℕ)
  deriving DecidableEq

/-- The rows a scan delivers. -/
def ScanOutcome.deliver {α : Type*} : ScanOutcome → List α → List α
  | .complete, rows => rows
  | .stopped n, rows => rows.take n

/-! ### Encoding and decoding -/

/-- The parameters that `insert_job` binds. -/
def insertParams (job : Job) : JobParams where
  p1 := bindText job.name
  p2 := bindInt job.type.toInt
  p3 := bindInt job.status.toInt
  -- `sqlite3_bind_int` takes an `int`: the `long long` is narrowed on the way in
  p4 := bindInt job.nextRunTime.toInt32
  p5 := job.intervalSeconds.map bindInt
  p6 := job.cronExpr.map bindText
  p7 := bindText job.payload
  p8 := bindInt job.retryCount
  p9 := bindInt job.maxRetries

/-- The parameters that `update_job` binds, besides the id. -/
def updateParams (job : Job) : JobParams where
  p1 := bindText job.name
  p2 := bindInt job.type.toInt
  p3 := bindInt job.status.toInt
  p4 := bindInt64 job.nextRunTime
  p5 := job.intervalSeconds.map bindInt
  p6 := job.cronExpr.map bindText
  p7 := bindText job.payload
  p8 := bindInt job.retryCount
  p9 := bindInt job.maxRetries

/-- The `Job` that the three readers fill in from a row, column by column.  Their
tests for a null `name` or `payload` never fire: both columns are `NOT NULL`. -/
def readRow (r : Row) : Job where
  id := columnInt r.id
  name := columnText r.name
  type := intToType (columnInt r.type)
  status := intToStatus (columnInt r.status)
  nextRunTime := columnInt64 r.nextRunTime
  intervalSeconds := r.intervalSeconds.map columnInt
  cronExpr := r.cronExpr.map columnText
  payload := columnText r.payload
  retryCount := columnInt r.retryCount
  maxRetries := columnInt r.maxRetries

/-! ### Inserting and reading -/

/-- `insert_job`: the id it returns and the database it leaves. -/
def insertJob (db : Db) (job : Job) (o : SqlOutcome) : Int32 × Db :=
  match o with
  | .prepareError rc => (rc, db)
  | .stepError => (-1, db)
  | .ok =>
    match (Stmt.insert (insertParams job)).step db with
    | none => (-1, db)
    | some db' => (db'.lastInsertRowid.toInt32, db')

/-- `select_all_jobs`. -/
def selectAllJobs (db : Db) (o : ScanOutcome) : List Job :=
  o.deliver (db.table.rows.map readRow)

/-- `get_job_by_id`: whether the row was found, and the `Job &` it leaves. -/
def getJobById (db : Db) (job : Job) (id : Int32) (o : SqlOutcome) : Bool × Job :=
  match o with
  | .ok =>
    match db.table.lookup (bindInt id) with
    | some r => (true, readRow r)
    | none => (false, job)
  | _ => (false, job)

/-- `WHERE status = ? AND next_run_time <= ?` with `ACTIVE` and `now` bound. -/
def isDue (now : Int64) (r : Row) : Bool :=
  r.status = bindInt Status.active.toInt && r.nextRunTime ≤ bindInt64 now

/-- `select_due_jobs`. -/
def selectDueJobs (db : Db) (now : Int64) (o : ScanOutcome) : List Job :=
  o.deliver ((db.table.rows.filter (isDue now)).map readRow)

/-- **What is read back of a row that `update_job` wrote**: texts end at their first
NUL. -/
theorem readRow_updateParams (job : Job) (k : Int64) :
    readRow ((updateParams job).toRow k) =
      { job with
        id := k.toInt32
        name := CText.cstr job.name
        cronExpr := job.cronExpr.map CText.cstr
        payload := CText.cstr job.payload } := by
  simp only [readRow, updateParams, JobParams.toRow, columnText, bindText, CText.cstr_cstr,
    columnInt_bindInt, intToType_toInt, intToStatus_toInt, Option.map_map]
  congr 1
  · cases job.intervalSeconds <;> simp
  · cases job.cronExpr <;> simp [columnText, bindText, CText.cstr_cstr]

/-- `insert_job` binds what `update_job` would for the next run time narrowed to 32
bits. -/
theorem insertParams_eq (job : Job) :
    insertParams job =
      updateParams { job with nextRunTime := job.nextRunTime.toInt32.toInt64 } := rfl

/-- **What is read back of a row that `insert_job` wrote**: the next run time is
narrowed besides. -/
theorem readRow_insertParams (job : Job) (k : Int64) :
    readRow ((insertParams job).toRow k) =
      { job with
        id := k.toInt32
        name := CText.cstr job.name
        nextRunTime := job.nextRunTime.toInt32.toInt64
        cronExpr := job.cronExpr.map CText.cstr
        payload := CText.cstr job.payload } := by
  rw [insertParams_eq, readRow_updateParams]

/-- An `insert_job` that meets no failure. -/
theorem insertJob_ok {db : Db} {k : Int64} (job : Job) (hk : db.table.nextRowid = some k) :
    insertJob db job .ok = (k.toInt32,
      { table := db.table.insert (insertParams job) hk
        changes := 1, lastInsertRowid := k }) := by
  simp only [insertJob, Stmt.step_insert hk]

/-- The row that `insert_job` has written is found under the last rowid. -/
theorem lookup_insertJob {db : Db} {k : Int64} (job : Job) (hk : db.table.nextRowid = some k) :
    (insertJob db job .ok).2.table.lookup (insertJob db job .ok).2.lastInsertRowid =
      some ((insertParams job).toRow k) := by
  rw [insertJob_ok job hk]
  simp only [Table.lookup_insert, if_true]

/-! ### Mutators

Seven functions follow one protocol: on a failed preparation or step they return
false, and otherwise they return whether `sqlite3_changes` is nonzero. -/

/-- The protocol of the mutators, for one statement. -/
def mutate (s : Stmt) (db : Db) (o : SqlOutcome) : Bool × Db :=
  match o with
  | .prepareError _ | .stepError => (false, db)
  | .ok =>
    match s.step db with
    | none => (false, db)
    | some db' => (db'.changes ≠ 0, db')

/-- `delete_job`. -/
def deleteJob (db : Db) (id : Int32) (o : SqlOutcome) : Bool × Db :=
  mutate (.delete (bindInt id)) db o

/-- `update_job`. -/
def updateJob (db : Db) (job : Job) (id : Int32) (o : SqlOutcome) : Bool × Db :=
  mutate (.update (updateParams job) (bindInt id)) db o

/-- `pause_job`. -/
def pauseJob (db : Db) (id : Int32) (o : SqlOutcome) : Bool × Db :=
  mutate (.setStatus (bindInt Status.paused.toInt) (bindInt id)) db o

/-- `resume_job`. -/
def resumeJob (db : Db) (id : Int32) (o : SqlOutcome) : Bool × Db :=
  mutate (.setStatus (bindInt Status.active.toInt) (bindInt id)) db o

/-- `update_next_run_time`. -/
def updateNextRunTime (db : Db) (id : Int32) (newNextRunTime : Int64) (o : SqlOutcome) :
    Bool × Db :=
  mutate (.setNextRunTime (bindInt64 newNextRunTime) (bindInt id)) db o

/-- `increment_retry_count`. -/
def incrementRetryCount (db : Db) (id : Int32) (o : SqlOutcome) : Bool × Db :=
  mutate (.incrementRetryCount (bindInt id)) db o

/-- `reset_retry_count`. -/
def resetRetryCount (db : Db) (id : Int32) (o : SqlOutcome) : Bool × Db :=
  mutate (.resetRetryCount (bindInt id)) db o

/-- `update_job_status`: unlike the others it returns true whenever the step
completes, without a look at `sqlite3_changes`, and reads the job back through
`get_job_by_id`, whose own statement has the outcome `o'`. -/
def updateJobStatus (db : Db) (id : Int32) (newStatus : Status) (job : Job)
    (o o' : SqlOutcome) : Bool × Job × Db :=
  match o with
  | .prepareError _ | .stepError => (false, job, db)
  | .ok =>
    match (Stmt.setStatus (bindInt newStatus.toInt) (bindInt id)).step db with
    | none => (false, job, db)
    | some db' => (true, (getJobById db' job id o').2, db')

/-! ### Operations -/

/-- The calls that write the table. -/
inductive Op
  | insertJob (job : Job)
  | deleteJob (id : Int32)
  | updateJob (job : Job) (id : Int32)
  | updateJobStatus (id : Int32) (newStatus : Status)
  | pauseJob (id : Int32)
  | resumeJob (id : Int32)
  | updateNextRunTime (id : Int32) (newNextRunTime : Int64)
  | incrementRetryCount (id : Int32)
  | resetRetryCount (id : Int32)
  deriving DecidableEq

/-- The statement an operation prepares, with the parameters it binds. -/
def Op.stmt : Op → Stmt
  | .insertJob job => .insert (insertParams job)
  | .deleteJob id => .delete (bindInt id)
  | .updateJob job id => .update (updateParams job) (bindInt id)
  | .updateJobStatus id newStatus => .setStatus (bindInt newStatus.toInt) (bindInt id)
  | .pauseJob id => .setStatus (bindInt Status.paused.toInt) (bindInt id)
  | .resumeJob id => .setStatus (bindInt Status.active.toInt) (bindInt id)
  | .updateNextRunTime id newNextRunTime =>
    .setNextRunTime (bindInt64 newNextRunTime) (bindInt id)
  | .incrementRetryCount id => .incrementRetryCount (bindInt id)
  | .resetRetryCount id => .resetRetryCount (bindInt id)

/-- What an operation returns: `insert_job` an id, the others a flag. -/
inductive Ret
  | id (id : Int32)
  | flag (b : Bool)
  deriving DecidableEq

/-- One call of an operation, run to its end with every SQLite call succeeding.
`update_job_status` also fills in a `Job`, which is left out here. -/
def Op.run (op : Op) (db : Db) : Ret × Db :=
  match op with
  | .insertJob job => let (id, db') := JobScheduler.insertJob db job .ok; (.id id, db')
  | .deleteJob id => let (b, db') := JobScheduler.deleteJob db id .ok; (.flag b, db')
  | .updateJob job id => let (b, db') := JobScheduler.updateJob db job id .ok; (.flag b, db')
  | .updateJobStatus id newStatus =>
    let (b, _, db') := JobScheduler.updateJobStatus db id newStatus default .ok .ok
    (.flag b, db')
  | .pauseJob id => let (b, db') := JobScheduler.pauseJob db id .ok; (.flag b, db')
  | .resumeJob id => let (b, db') := JobScheduler.resumeJob db id .ok; (.flag b, db')
  | .updateNextRunTime id newNextRunTime =>
    let (b, db') := JobScheduler.updateNextRunTime db id newNextRunTime .ok
    (.flag b, db')
  | .incrementRetryCount id =>
    let (b, db') := JobScheduler.incrementRetryCount db id .ok
    (.flag b, db')
  | .resetRetryCount id =>
    let (b, db') := JobScheduler.resetRetryCount db id .ok
    (.flag b, db')

/-- **A mutator that meets no failure reports whether its statement changed a
row.** -/
theorem mutate_ok {s : Stmt} {db db' : Db} (h : s.step db = some db') :
    mutate s db .ok = (decide (s.affected db.table ≠ 0), db') := by
  simp only [mutate, h, Stmt.changes_step h]

/-- What a mutator leaves under each rowid. -/
theorem lookup_mutate {s : Stmt} {id : Int64} (hrowid : s.rowid = some id) (db : Db) (k : Int64) :
    (mutate s db .ok).2.table.lookup k = s.rowAfter db.table k := by
  obtain ⟨db', hs⟩ := Stmt.step_of_rowid hrowid db
  rw [mutate_ok hs]
  exact Stmt.lookup_step hs k

/-- A mutator whose clause asks for an id alone reports whether the row is there. -/
theorem mutate_eq_true_iff {s : Stmt} {id : Int64} (hrowid : s.rowid = some id)
    (hwhere : ∀ r, s.whereClause r = decide (r.id = id)) (db : Db) (o : SqlOutcome) :
    (mutate s db o).1 = true ↔ o = .ok ∧ db.table.lookup id ≠ none := by
  cases o with
  | ok =>
    obtain ⟨db', hstep⟩ := Stmt.step_of_rowid hrowid db
    rw [mutate_ok hstep, Stmt.affected_of_rowid hrowid]
    cases hr : db.table.lookup id with
    | none => simp
    | some r =>
      have hid : r.id = id := (Table.lookup_eq_some_iff.mp hr).2
      simp [hwhere, hid]
  | prepareError rc => simp [mutate]
  | stepError => simp [mutate]

/-- **What an operation leaves** is what its statement does, if it can be done. -/
theorem Op.snd_run (op : Op) (db : Db) : (op.run db).2 = (op.stmt.step db).getD db := by
  have hmutate : ∀ s : Stmt, (mutate s db .ok).2 = (s.step db).getD db := by
    intro s
    unfold mutate
    cases s.step db <;> rfl
  cases op with
  | insertJob job =>
    simp only [Op.run, Op.stmt, JobScheduler.insertJob]
    cases (Stmt.insert (insertParams job)).step db <;> rfl
  | updateJobStatus id newStatus => rfl
  | deleteJob id => exact hmutate (.delete (bindInt id))
  | updateJob job id => exact hmutate (.update (updateParams job) (bindInt id))
  | pauseJob id => exact hmutate (.setStatus (bindInt Status.paused.toInt) (bindInt id))
  | resumeJob id => exact hmutate (.setStatus (bindInt Status.active.toInt) (bindInt id))
  | updateNextRunTime id t => exact hmutate (.setNextRunTime (bindInt64 t) (bindInt id))
  | incrementRetryCount id => exact hmutate (.incrementRetryCount (bindInt id))
  | resetRetryCount id => exact hmutate (.resetRetryCount (bindInt id))

/-! ### What a call writes -/

/-- The call is `insert_job`. -/
def Op.Inserts : Op → Prop
  | .insertJob _ => True
  | _ => False

/-- The call is `delete_job`. -/
def Op.Deletes : Op → Prop
  | .deleteJob _ => True
  | _ => False

theorem Op.exists_of_inserts {op : Op} (h : op.Inserts) : ∃ job, op = .insertJob job := by
  cases op with
  | insertJob job => exact ⟨job, rfl⟩
  | _ => exact absurd h id

theorem Op.exists_of_deletes {op : Op} (h : op.Deletes) : ∃ id, op = .deleteJob id := by
  cases op with
  | deleteJob id => exact ⟨id, rfl⟩
  | _ => exact absurd h id

instance (op : Op) : Decidable op.Inserts := by
  unfold Op.Inserts
  cases op <;> infer_instance

instance (op : Op) : Decidable op.Deletes := by
  unfold Op.Deletes
  cases op <;> infer_instance

/-- A call that does not insert names a row. -/
theorem Op.exists_rowid {op : Op} (hins : ¬ op.Inserts) : ∃ id, op.stmt.rowid = some id := by
  cases op with
  | insertJob job => exact absurd trivial hins
  | _ => exact ⟨_, rfl⟩

/-- **What a call that neither inserts nor deletes leaves under each rowid.** -/
theorem Op.lookup_run {op : Op} (hins : ¬ op.Inserts) (hdel : ¬ op.Deletes) (db : Db)
    (rowid : Int64) : (op.run db).2.table.lookup rowid =
      (db.table.lookup rowid).map fun r =>
        if op.stmt.whereClause r then op.stmt.setClause r else r := by
  obtain ⟨id, hrowid⟩ := Op.exists_rowid hins
  obtain ⟨db', hs⟩ := Stmt.step_of_rowid hrowid db
  rw [Op.snd_run, hs, Option.getD_some, Stmt.lookup_step hs]
  cases op with
  | insertJob job => exact absurd trivial hins
  | deleteJob id => exact absurd trivial hdel
  | _ => rfl

/-- The status that a call writes. -/
def Op.wroteStatus : Op → Option Status
  | .insertJob job | .updateJob job _ => some job.status
  | .updateJobStatus _ newStatus => some newStatus
  | .pauseJob _ => some .paused
  | .resumeJob _ => some .active
  | _ => none

/-- The next run time that a call writes; `insert_job` stores it narrowed. -/
def Op.wroteNextRunTime : Op → Option Int64
  | .insertJob job => some (bindInt job.nextRunTime.toInt32)
  | .updateJob job _ => some job.nextRunTime
  | .updateNextRunTime _ newNextRunTime => some newNextRunTime
  | _ => none

/-- A call that neither inserts nor deletes writes its row what it says it does. -/
theorem Op.setClause_wrote {op : Op} (hins : ¬ op.Inserts) (hdel : ¬ op.Deletes) {r : Row}
    (hid : op.stmt.rowid = some r.id) :
    (if op.stmt.whereClause r then op.stmt.setClause r else r).status =
        (op.wroteStatus.map fun st => bindInt st.toInt).getD r.status ∧
      (if op.stmt.whereClause r then op.stmt.setClause r else r).nextRunTime =
        op.wroteNextRunTime.getD r.nextRunTime := by
  cases op with
  | insertJob job => exact absurd trivial hins
  | deleteJob id => exact absurd trivial hdel
  | incrementRetryCount id => split <;> exact ⟨rfl, rfl⟩
  | _ =>
    simp only [Op.stmt, Stmt.rowid, Option.some.injEq] at hid
    simp only [Op.stmt, Stmt.whereClause, hid, decide_true, if_true]
    exact ⟨rfl, rfl⟩

end JobScheduler
