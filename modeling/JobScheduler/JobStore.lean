import JobScheduler.DistinctJobs
import JobScheduler.Lib.IdStore
import JobScheduler.Lib.Simulation
import JobScheduler.LiveIds

/-!
# A store of jobs

What the repository layer is for: a store of jobs under ids that count from 1.  The
functions of `Src/Repository/database.cpp` keep such a store in an SQL table, and each
answers from the table what the store answers.

## Main definitions

* `StoredJob`, `JobStore` — a job as it can be kept, and the store.
* `RepoCall`, `RepoCall.run` — every function of the layer, with how SQLite answers.
* `RepoCall.meaning` — what the call does to the store.
* `Represents` — the table holds the jobs of the store.

## Main results

* `repository_refines` — **every sequence of calls answers as the store does.**
-/

namespace JobScheduler

open CText KeyedTable Merge Simulation

/-! ### The store -/

/-- The job with its texts cut at their first NUL. -/
def Job.trim (job : Job) : Job :=
  { job with
    name := cstr job.name
    cronExpr := job.cronExpr.map cstr
    payload := cstr job.payload }

theorem Job.trim_trim (job : Job) : job.trim.trim = job.trim := by
  cases hcron : job.cronExpr <;> simp [trim, hcron, cstr_cstr]

theorem Job.trim_eq_iff {job : Job} :
    job.trim = job ↔
      cstr job.name = job.name ∧ job.cronExpr.map cstr = job.cronExpr ∧
        cstr job.payload = job.payload := by
  cases job
  simp [trim]

/-- A job whose texts hold no NUL; the id is the one that it is kept under. -/
structure StoredJob where
  job : Job
  trimmed : job.trim = job

namespace StoredJob

/-- The texts hold no NUL. -/
theorem texts (s : StoredJob) :
    cstr s.job.name = s.job.name ∧ s.job.cronExpr.map cstr = s.job.cronExpr ∧
      cstr s.job.payload = s.job.payload :=
  Job.trim_eq_iff.mp s.trimmed

/-- What is kept of a job. -/
def of (job : Job) : StoredJob := ⟨job.trim, job.trim_trim⟩

/-- What is kept of a new job: its next run time is narrowed to 32 bits. -/
def ofNew (job : Job) : StoredJob :=
  of { job with nextRunTime := job.nextRunTime.toInt32.toInt64 }

/-- The job kept under the id. -/
def under (s : StoredJob) (id : Int32) : Job := { s.job with id := id }

def setStatus (s : StoredJob) (status : Status) : StoredJob :=
  ⟨{ s.job with status := status }, Job.trim_eq_iff.mpr s.texts⟩

def setNextRunTime (s : StoredJob) (nextRunTime : Int64) : StoredJob :=
  ⟨{ s.job with nextRunTime := nextRunTime }, Job.trim_eq_iff.mpr s.texts⟩

def setRetryCount (s : StoredJob) (retryCount : Int32) : StoredJob :=
  ⟨{ s.job with retryCount := retryCount }, Job.trim_eq_iff.mpr s.texts⟩

/-- The job has retries left. -/
def mayRetry (s : StoredJob) : Bool := s.job.retryCount < s.job.maxRetries

/-- The job is to be run by now. -/
def isDue (now : Int64) (s : StoredJob) : Bool :=
  s.job.status = .active && s.job.nextRunTime ≤ now

end StoredJob

/-- Jobs under the ids 1, 2, 3 and so on. -/
abbrev JobStore := IdStore nthId StoredJob

/-- Ids that fit an `int` are given out once. -/
theorem nthId_ne {n m : ℕ} (hlt : n < m) (hm : m + 1 < 2 ^ 31) : nthId n ≠ nthId m := by
  intro heq
  have hint : (Int64.ofNat (n + 1)).toInt = (Int64.ofNat (m + 1)).toInt := by
    rw [← bindInt_nthId (by omega), heq, bindInt_nthId hm]
  rw [Int64.toInt_ofNat_of_lt (by omega), Int64.toInt_ofNat_of_lt (by omega)] at hint
  omega

namespace JobStore

/-- The jobs of the store, in the order of their ids. -/
def jobs (st : JobStore) (keep : StoredJob → Bool) : List Job :=
  (st.list.filter fun x => keep x.2).map fun x => x.2.under x.1

theorem mem_jobs {st : JobStore} {keep : StoredJob → Bool} {job : Job} :
    job ∈ st.jobs keep ↔ ∃ x, st.item job.id = some x ∧ keep x = true ∧ job = x.under job.id := by
  rw [jobs, List.mem_map]
  constructor
  · intro h
    obtain ⟨y, hy, hjob⟩ := h
    obtain ⟨hmem, hkeep⟩ := List.mem_filter.mp hy
    have hid : y.1 = job.id := congrArg Job.id hjob
    exact ⟨y.2, hid ▸ IdStore.mem_list.mp hmem, hkeep, hid ▸ hjob.symm⟩
  · intro h
    obtain ⟨x, hx, hkeep, hjob⟩ := h
    exact ⟨(job.id, x), List.mem_filter.mpr ⟨IdStore.mem_list.mpr hx, hkeep⟩, hjob.symm⟩

theorem nodup_jobs {st : JobStore} (hfew : st.count < 2 ^ 31) (keep : StoredJob → Bool) :
    ((st.jobs keep).map Job.id).Nodup := by
  have hids : (st.jobs keep).map Job.id =
      (st.list.filter fun x => keep x.2).map Prod.fst := by
    rw [jobs, List.map_map]
    rfl
  rw [hids]
  refine (List.filter_sublist.map Prod.fst).nodup (IdStore.nodup_list ?_)
  exact fun n m hlt hm => nthId_ne hlt (by omega)

/-- The job under an id, or the one that the caller has. -/
def get (st : JobStore) (job : Job) (id : Int32) (o : SqlOutcome) : Bool × Job :=
  match o with
  | .ok =>
    match st.item id with
    | some s => (true, s.under id)
    | none => (false, job)
  | _ => (false, job)

/-- The job under an id is changed if `can` says that it can, and the answer is whether there
was such a job; a failure changes nothing. -/
def change (st : JobStore) (id : Int32) (can : StoredJob → Bool)
    (f : StoredJob → Option StoredJob) (o : SqlOutcome) : Bool × JobStore :=
  match o with
  | .ok => ((st.item id).any can, st.modify id fun s => if can s then f s else some s)
  | _ => (false, st)

/-- A job is kept under the next id. -/
def insert (st : JobStore) (job : Job) (o : SqlOutcome) : Int32 × JobStore :=
  match o with
  | .ok => (nthId st.count, st.add (.ofNew job))
  | .prepareError rc => (rc, st)
  | .stepError => (-1, st)

end JobStore

/-! ### The calls -/

/-- A call of the repository layer, with how SQLite answers it. -/
inductive RepoCall
  | insertJob (job : Job) (o : SqlOutcome)
  | onJob (id : Int32) (c : JobCall)
  | selectAllJobs (o : ScanOutcome)
  | selectDueJobs (now : Int64) (o : ScanOutcome)

/-- What a call answers. -/
inductive RepoAnswer
  | id (id : Int32)
  | flag (b : Bool) (job : Option Job)
  | jobs (jobs : List Job)

/-- The call on the table. -/
def RepoCall.run (db : Db) : RepoCall → RepoAnswer × Db
  | .insertJob job o => let (id, db') := JobScheduler.insertJob db job o; (.id id, db')
  | .onJob id c => let ((b, job), db') := c.run id db; (.flag b job, db')
  | .selectAllJobs o => (.jobs (JobScheduler.selectAllJobs db o), db)
  | .selectDueJobs now o => (.jobs (JobScheduler.selectDueJobs db now o), db)

/-- What a call on a job does to the store. -/
def JobCall.meaning (id : Int32) (st : JobStore) : JobCall → (Bool × Option Job) × JobStore
  | .deleteJob o =>
    let (b, after) := st.change id (fun _ => true) (fun _ => none) o; ((b, none), after)
  | .updateJob job o =>
    let (b, after) := st.change id (fun _ => true) (fun _ => some (.of job)) o; ((b, none), after)
  | .updateJobStatus newStatus job o o' =>
    -- true is answered for a job that does not exist, too
    let after := (st.change id (fun _ => true) (fun s => some (s.setStatus newStatus)) o).2
    match o with
    | .ok => ((true, some (after.get job id o').2), after)
    | _ => ((false, some job), after)
  | .pauseJob o =>
    let (b, after) := st.change id (fun _ => true) (fun s => some (s.setStatus .paused)) o
    ((b, none), after)
  | .resumeJob o =>
    let (b, after) := st.change id (fun _ => true) (fun s => some (s.setStatus .active)) o
    ((b, none), after)
  | .updateNextRunTime newNextRunTime o =>
    let (b, after) :=
      st.change id (fun _ => true) (fun s => some (s.setNextRunTime newNextRunTime)) o
    ((b, none), after)
  | .incrementRetryCount o =>
    let (b, after) :=
      st.change id StoredJob.mayRetry (fun s => some (s.setRetryCount (s.job.retryCount + 1))) o
    ((b, none), after)
  | .resetRetryCount o =>
    let (b, after) := st.change id (fun _ => true) (fun s => some (s.setRetryCount 0)) o
    ((b, none), after)
  | .getJobById job o =>
    let (b, found) := st.get job id o; ((b, some found), st)

/-- What the call does to the store. -/
def RepoCall.meaning (st : JobStore) : RepoCall → RepoAnswer × JobStore
  | .insertJob job o => let (id, after) := st.insert job o; (.id id, after)
  | .onJob id c => let ((b, job), after) := c.meaning id st; (.flag b job, after)
  | .selectAllJobs o => (.jobs (o.deliver (st.jobs fun _ => true)), st)
  | .selectDueJobs now o => (.jobs (o.deliver (st.jobs (StoredJob.isDue now))), st)

/-! ### The store in the table -/

/-- The row that holds the job. -/
def StoredJob.row (s : StoredJob) (id : Int32) : Row := (updateParams s.job).toRow (bindInt id)

/-- The table holds the jobs of the store, in order; the ids given out fit an `int`. -/
structure Represents (st : JobStore) (db : Db) : Prop where
  rows : db.table.rows = st.list.map fun x => x.2.row x.1
  seq : db.table.seq.toInt = st.count
  few : st.count < 2 ^ 31

/-- The registers make no difference. -/
theorem Represents.of_table {st : JobStore} {db db' : Db} (h : Represents st db)
    (htable : db.table = db'.table) : Represents st db' :=
  ⟨htable ▸ h.rows, htable ▸ h.seq, h.few⟩

theorem represents_empty : Represents IdStore.empty Db.empty := ⟨rfl, rfl, by decide⟩

/-- **What a reader makes of the row** is the job. -/
theorem StoredJob.readRow_row (s : StoredJob) (id : Int32) : readRow (s.row id) = s.under id := by
  obtain ⟨hname, hcron, hpayload⟩ := s.texts
  have hid : (bindInt id).toInt32 = id := columnInt_bindInt id
  rw [row, readRow_updateParams, under, hname, hcron, hpayload, hid]

theorem StoredJob.row_setRetryCount (s : StoredJob) (c id : Int32) :
    (s.setRetryCount c).row id = { s.row id with retryCount := bindInt c } := rfl

theorem bindInt_lt {a b : Int32} : bindInt a < bindInt b ↔ a < b := by
  rw [Int64.lt_iff_toInt_lt, toInt_bindInt, toInt_bindInt, Int32.lt_iff_toInt_lt]

/-- **The clause of `increment_retry_count`** asks whether the job has retries left. -/
theorem StoredJob.retryCount_lt (s : StoredJob) (id : Int32) :
    (decide ((s.row id).retryCount < (s.row id).maxRetries)) = s.mayRetry := by
  have hrow : (s.row id).retryCount < (s.row id).maxRetries ↔
      s.job.retryCount < s.job.maxRetries := bindInt_lt
  simp only [hrow, mayRetry]

/-- Below another count there is room for one more. -/
theorem StoredJob.bindInt_succ {s : StoredJob} (h : s.mayRetry = true) :
    bindInt (s.job.retryCount + 1) = bindInt s.job.retryCount + 1 := by
  have hlt := Int32.lt_iff_toInt_lt.mp (decide_eq_true_eq.mp h)
  have hmax := Int32.toInt_lt s.job.maxRetries
  have hmin := Int32.le_toInt s.job.retryCount
  rw [← Int64.toInt_inj, toInt_bindInt, Int32.toInt_add, Int64.toInt_add, toInt_bindInt,
    Int32.toInt_one, Int64.toInt_one, Int.bmod_eq_of_le (by omega) (by omega),
    Int.bmod_eq_of_le (by omega) (by omega)]

/-- **The clause of `select_due_jobs`** asks whether the job is due. -/
theorem StoredJob.isDue_row (s : StoredJob) (now : Int64) (id : Int32) :
    JobScheduler.isDue now (s.row id) = s.isDue now := by
  have hstatus : bindInt s.job.status.toInt = bindInt Status.active.toInt ↔
      s.job.status = .active := bindInt_inj.trans Status.toInt_inj
  show (decide (bindInt s.job.status.toInt = bindInt Status.active.toInt) && _) = _
  simp only [hstatus]
  rfl

section

variable {st : JobStore} {db : Db}

/-- The row under an id is that of the job under the id. -/
theorem Represents.lookup (h : Represents st db) (id : Int32) :
    db.table.lookup (bindInt id) = (st.item id).map fun s => s.row id := by
  have hmem : ∀ r, db.table.lookup (bindInt id) = some r ↔
      ∃ s, st.item id = some s ∧ s.row id = r := by
    intro r
    rw [Table.lookup_eq_some_iff, h.rows, List.mem_map]
    constructor
    · intro h
      obtain ⟨⟨x, hx, hrow⟩, hid⟩ := h
      subst hrow
      have hkey : x.1 = id := bindInt_inj.mp hid
      subst hkey
      exact ⟨x.2, IdStore.mem_list.mp hx, rfl⟩
    · intro h
      obtain ⟨s, hs, hrow⟩ := h
      subst hrow
      exact ⟨⟨(id, s), IdStore.mem_list.mpr hs, rfl⟩, rfl⟩
  apply Option.ext
  intro r
  rw [hmem, Option.map_eq_some_iff]

/-- **What the readers list.** -/
theorem Represents.readRows (h : Represents st db) {keep : StoredJob → Bool} {p : Row → Bool}
    (hkeep : ∀ s : StoredJob, ∀ id, p (s.row id) = keep s) :
    (db.table.rows.filter p).map readRow = st.jobs keep := by
  rw [h.rows, List.filter_map, List.map_map, JobStore.jobs]
  have hfilter : (p ∘ fun x : Int32 × StoredJob => x.2.row x.1) = fun x => keep x.2 :=
    funext fun x => hkeep x.2 x.1
  rw [hfilter]
  apply List.map_congr_left
  intro x _
  exact x.2.readRow_row x.1

theorem Represents.selectAllJobs (h : Represents st db) (o : ScanOutcome) :
    JobScheduler.selectAllJobs db o = o.deliver (st.jobs fun _ => true) := by
  have hall : (db.table.rows.filter fun _ => true).map readRow = st.jobs fun _ => true :=
    h.readRows fun _ _ => rfl
  rw [List.filter_true] at hall
  exact congrArg o.deliver hall

theorem Represents.selectDueJobs (h : Represents st db) (now : Int64) (o : ScanOutcome) :
    JobScheduler.selectDueJobs db now o = o.deliver (st.jobs (StoredJob.isDue now)) :=
  congrArg o.deliver (h.readRows fun s id => s.isDue_row now id)

/-- A change of a row is a change of its job. -/
theorem Represents.apply (h : Represents st db) {id : Int32} {f : StoredJob → Option StoredJob}
    {a : RowAction Row.id (bindInt id)}
    (hf : ∀ s : StoredJob, a.act (s.row id) = (f s).map fun s' => s'.row id) {db' : Db}
    (hdb : db'.table = db.table.apply a) : Represents (st.modify id f) db' := by
  refine ⟨?_, ?_, h.few⟩
  · rw [hdb, IdStore.list_modify, List.map_filterMap]
    show db.table.rows.filterMap a.act = _
    rw [h.rows, List.filterMap_map]
    apply List.filterMap_congr
    intro x _
    by_cases hid : x.1 = id
    · subst hid
      simp only [Function.comp_apply, hf, if_true, Option.map_map]
      rfl
    · have hne : (x.2.row x.1).id ≠ bindInt id := fun heq => hid (bindInt_inj.mp heq)
      simp only [Function.comp_apply, a.of_ne hne, if_neg hid]
      rfl
  · rw [hdb]
    exact h.seq

/-- **A mutator changes the job in the store**, and reports what the store does. -/
theorem Represents.mutate (h : Represents st db) {s : Stmt} {id : Int32}
    (hrowid : s.rowid = some (bindInt id)) {can : StoredJob → Bool}
    {f : StoredJob → Option StoredJob}
    (hcan : ∀ x : StoredJob, s.whereClause (x.row id) = can x)
    (hf : ∀ x : StoredJob, s.act (x.row id) =
      (if can x then f x else some x).map fun x' => x'.row id) (o : SqlOutcome) :
    (JobScheduler.mutate s db o).1 = (st.change id can f o).1 ∧
      Represents (st.change id can f o).2 (JobScheduler.mutate s db o).2 := by
  cases o with
  | prepareError rc => exact ⟨rfl, h⟩
  | stepError => exact ⟨rfl, h⟩
  | ok =>
    obtain ⟨db', hs⟩ := Stmt.step_of_rowid hrowid db
    rw [mutate_ok hs]
    refine ⟨?_, h.apply hf (Stmt.table_step hrowid hs)⟩
    show _ = (st.item id).any can
    rw [Stmt.affected_of_rowid hrowid, h.lookup]
    cases st.item id with
    | none => rfl
    | some x => cases hx : can x <;> simp [hcan, hx]

/-- An `UPDATE` that asks for the id alone. -/
theorem Represents.mutate_any (h : Represents st db) {s : Stmt} {id : Int32}
    (hrowid : s.rowid = some (bindInt id)) {f : StoredJob → Option StoredJob}
    (hwhere : ∀ x : StoredJob, s.whereClause (x.row id) = true)
    (hf : ∀ x : StoredJob, s.act (x.row id) = (f x).map fun x' => x'.row id) (o : SqlOutcome) :
    (JobScheduler.mutate s db o).1 = (st.change id (fun _ => true) f o).1 ∧
      Represents (st.change id (fun _ => true) f o).2 (JobScheduler.mutate s db o).2 :=
  h.mutate hrowid hwhere (fun x => by rw [hf, if_pos rfl]) o

theorem Represents.getJobById (h : Represents st db) (job : Job) (id : Int32) (o : SqlOutcome) :
    JobScheduler.getJobById db job id o = st.get job id o := by
  cases o with
  | prepareError rc => rfl
  | stepError => rfl
  | ok =>
    simp only [JobScheduler.getJobById, JobStore.get, h.lookup]
    cases st.item id with
    | none => rfl
    | some s => simp only [Option.map_some, s.readRow_row]

/-- A statement on the status. -/
theorem Represents.setStatus (h : Represents st db) (id : Int32) (status : Status)
    (o : SqlOutcome) :
    let stmt := Stmt.setStatus (bindInt status.toInt) (bindInt id)
    let after := st.change id (fun _ => true) (fun s => some (s.setStatus status)) o
    (JobScheduler.mutate stmt db o).1 = after.1 ∧
      Represents after.2 (JobScheduler.mutate stmt db o).2 := by
  exact h.mutate_any (s := .setStatus (bindInt status.toInt) (bindInt id))
    (f := fun s => some (s.setStatus status)) rfl (fun x => decide_eq_true rfl)
    (fun x => if_pos (decide_eq_true rfl)) o

/-- `update_job_status` reads the job back as it has left it. -/
theorem Represents.updateJobStatus (h : Represents st db) (id : Int32) (status : Status) (job : Job)
    (o o' : SqlOutcome) :
    (JobCall.run id db (.updateJobStatus status job o o')).1 =
        (JobCall.meaning id st (.updateJobStatus status job o o')).1 ∧
      Represents (JobCall.meaning id st (.updateJobStatus status job o o')).2
        (JobCall.run id db (.updateJobStatus status job o o')).2 := by
  cases o with
  | prepareError rc => exact ⟨rfl, h⟩
  | stepError => exact ⟨rfl, h⟩
  | ok =>
    have hafter := (h.setStatus id status .ok).2
    have hget := hafter.getJobById job id o'
    exact ⟨congrArg (fun found => (true, some found.2)) hget, hafter⟩

/-- **A call on a job** does to its row what it does to the job in the store. -/
theorem Represents.onJob (h : Represents st db) (id : Int32) (c : JobCall) :
    (c.run id db).1 = (c.meaning id st).1 ∧ Represents (c.meaning id st).2 (c.run id db).2 := by
  cases c with
  | deleteJob o =>
    obtain ⟨hflag, hafter⟩ := h.mutate_any (s := .delete (bindInt id)) (f := fun _ => none) rfl
      (fun x => decide_eq_true rfl) (fun x => if_pos (decide_eq_true rfl)) o
    exact ⟨congrArg (·, none) hflag, hafter⟩
  | updateJob job o =>
    have hparams : updateParams job.trim = updateParams job := by
      simp only [updateParams, Job.trim, bindText, cstr_cstr, Option.map_map]
      congr 1
      cases job.cronExpr <;> simp [bindText, cstr_cstr]
    obtain ⟨hflag, hafter⟩ := h.mutate_any (s := .update (updateParams job) (bindInt id))
      (f := fun _ => some (.of job)) rfl (fun x => decide_eq_true rfl)
      (fun x => (if_pos (decide_eq_true rfl)).trans
        (congrArg (fun p : JobParams => some (p.toRow (bindInt id))) hparams.symm)) o
    exact ⟨congrArg (·, none) hflag, hafter⟩
  | updateJobStatus status job o o' => exact h.updateJobStatus id status job o o'
  | pauseJob o =>
    obtain ⟨hflag, hafter⟩ := h.setStatus id .paused o
    exact ⟨congrArg (·, none) hflag, hafter⟩
  | resumeJob o =>
    obtain ⟨hflag, hafter⟩ := h.setStatus id .active o
    exact ⟨congrArg (·, none) hflag, hafter⟩
  | updateNextRunTime t o =>
    obtain ⟨hflag, hafter⟩ := h.mutate_any (s := .setNextRunTime (bindInt64 t) (bindInt id))
      (f := fun s => some (s.setNextRunTime t)) rfl (fun x => decide_eq_true rfl)
      (fun x => if_pos (decide_eq_true rfl)) o
    exact ⟨congrArg (·, none) hflag, hafter⟩
  | incrementRetryCount o =>
    have hwhere : ∀ x : StoredJob,
        (Stmt.incrementRetryCount (bindInt id)).whereClause (x.row id) = x.mayRetry := by
      intro x
      show (decide (bindInt id = bindInt id) && _) = _
      rw [x.retryCount_lt, decide_eq_true rfl, Bool.true_and]
    have hact : ∀ x : StoredJob, (Stmt.incrementRetryCount (bindInt id)).act (x.row id) =
        (if x.mayRetry then some (x.setRetryCount (x.job.retryCount + 1)) else some x).map
          fun x' => x'.row id := by
      intro x
      cases hmay : x.mayRetry with
      | false => exact if_neg (by rw [hwhere, hmay]; simp)
      | true =>
        refine (if_pos ((hwhere x).trans hmay)).trans ?_
        simp only [if_true, Option.map_some, x.row_setRetryCount, StoredJob.bindInt_succ hmay]
        rfl
    obtain ⟨hflag, hafter⟩ := h.mutate (s := .incrementRetryCount (bindInt id))
      (f := fun s => some (s.setRetryCount (s.job.retryCount + 1))) rfl hwhere
      hact o
    exact ⟨congrArg (·, none) hflag, hafter⟩
  | resetRetryCount o =>
    obtain ⟨hflag, hafter⟩ := h.mutate_any (s := .resetRetryCount (bindInt id))
      (f := fun s => some (s.setRetryCount 0)) rfl (fun x => decide_eq_true rfl)
      (fun x => if_pos (decide_eq_true rfl)) o
    exact ⟨congrArg (·, none) hflag, hafter⟩
  | getJobById job o =>
    exact ⟨congrArg (fun found => (found.1, some found.2)) (h.getJobById job id o), h⟩

/-- **A new job** has the next id, on both sides. -/
theorem Represents.insertJob (h : Represents st db) (hfew : st.count + 1 < 2 ^ 31) (job : Job)
    (o : SqlOutcome) :
    (JobScheduler.insertJob db job o).1 = (st.insert job o).1 ∧
      Represents (st.insert job o).2 (JobScheduler.insertJob db job o).2 := by
  cases o with
  | prepareError rc => exact ⟨rfl, h⟩
  | stepError => exact ⟨rfl, h⟩
  | ok =>
    have hseq := h.seq
    obtain ⟨k, hk⟩ := Table.exists_nextRowid (t := db.table) (by omega)
    obtain ⟨rfl, -⟩ := nextRowid_of_seq hseq hk
    have hnth := bindInt_nthId hfew
    have hparams : (insertParams job).toRow (Int64.ofNat (st.count + 1)) =
        (StoredJob.ofNew job).row (nthId st.count) := by
      rw [insertParams_eq, StoredJob.row, hnth]
      simp only [StoredJob.ofNew, StoredJob.of, updateParams, Job.trim, bindText, cstr_cstr,
        Option.map_map]
      congr 2
      cases job.cronExpr <;> simp [bindText, cstr_cstr]
    rw [insertJob_ok job hk]
    refine ⟨rfl, ?_, ?_, hfew⟩
    · show db.table.rows ++ [_] = _
      rw [h.rows, JobStore.insert,
        IdStore.list_add (fun n hn => nthId_ne hn hfew), List.map_append, hparams]
      rfl
    · exact Int64.toInt_ofNat_of_lt (by omega)

end

/-! ### Every sequence of calls -/

/-- The call asks for a new id. -/
def RepoCall.inserts : RepoCall → Bool
  | .insertJob _ _ => true
  | _ => false

/-- The ids do not run out. -/
def RepoCall.fits (st : JobStore) : RepoCall → Prop
  | .insertJob _ _ => st.count + 1 < 2 ^ 31
  | _ => True

/-- **Each call** does to the table what it does to the store, and answers the same. -/
theorem repoCall_simulates : Simulates Represents RepoCall.fits RepoCall.run RepoCall.meaning := by
  have hcall : ∀ {st : JobStore} {db : Db} {c : RepoCall}, Represents st db → c.fits st →
      (c.run db).1 = (c.meaning st).1 ∧ Represents (c.meaning st).2 (c.run db).2 := by
    intro st db c h hfits
    cases c with
    | insertJob job o =>
      obtain ⟨hid, hafter⟩ := h.insertJob hfits job o
      exact ⟨congrArg RepoAnswer.id hid, hafter⟩
    | onJob id c =>
      obtain ⟨hanswer, hafter⟩ := h.onJob id c
      exact ⟨congrArg (fun x : Bool × Option Job => RepoAnswer.flag x.1 x.2) hanswer, hafter⟩
    | selectAllJobs o =>
      exact ⟨congrArg RepoAnswer.jobs (h.selectAllJobs o), h⟩
    | selectDueJobs now o =>
      exact ⟨congrArg RepoAnswer.jobs (h.selectDueJobs now o), h⟩
  exact ⟨fun h hfits => (hcall h hfits).1, fun h hfits => (hcall h hfits).2⟩

theorem JobStore.count_change (st : JobStore) (id : Int32) (can : StoredJob → Bool)
    (f : StoredJob → Option StoredJob) (o : SqlOutcome) :
    (st.change id can f o).2.count = st.count := by
  cases o <;> rfl

/-- An id is given out for a new job alone. -/
theorem RepoCall.spends_meaning :
    Spends IdStore.count RepoCall.inserts fun st c st' => (RepoCall.meaning st c).2 = st' := by
  intro st c st' hst'
  subst hst'
  cases c with
  | insertJob job o => cases o <;> simp [meaning, JobStore.insert, inserts, IdStore.add]
  | onJob id c =>
    have hcount : (c.meaning id st).2.count = st.count := by
      cases c with
      | updateJobStatus status job o o' => cases o <;> rfl
      | getJobById job o => rfl
      | _ => exact JobStore.count_change st id _ _ _
    exact Nat.le_of_eq hcount
  | selectAllJobs o => exact Nat.le_refl _
  | selectDueJobs now o => exact Nat.le_refl _

theorem RepoCall.fits_of_lt (st : JobStore) (c : RepoCall)
    (h : (st.count + if c.inserts then 1 else 0) < 2 ^ 31) : c.fits st := by
  cases c with
  | insertJob job o => exact h
  | _ => trivial

/-- **Every sequence of calls answers as the store does**, whatever SQLite refuses on the way:
the table is the store, as long as fewer than 2^31 jobs are inserted. -/
theorem repository_refines (calls : List RepoCall) (hfew : calls.countP RepoCall.inserts < 2 ^ 31) :
    (runAll RepoCall.run Db.empty calls).1 = (runAll RepoCall.meaning IdStore.empty calls).1 ∧
      Represents (runAll RepoCall.meaning IdStore.empty calls).2
        (runAll RepoCall.run Db.empty calls).2 :=
  repoCall_simulates.runAll calls represents_empty
    (allowed_of_countP RepoCall.spends_meaning RepoCall.fits_of_lt calls IdStore.empty
      (by rw [IdStore.empty, Nat.zero_add]; exact hfew))

/-- A job is inserted with a step that fails, inserted, paused, and found paused. -/
theorem repository_refines_paused :
    let calls : List RepoCall :=
      [.insertJob default .stepError, .insertJob default .ok, .onJob 1 (.pauseJob .ok),
        .onJob 1 (.getJobById default .ok)]
    (runAll RepoCall.run Db.empty calls).1 = (runAll RepoCall.meaning IdStore.empty calls).1 :=
  (repository_refines _ (by decide)).1

end JobScheduler
