import JobScheduler.Database
import JobScheduler.Fault

/-!
# Writing a row and reading it back

Two functions encode a whole job, `insert_job` and `update_job`, and three decode the
columns of a row one by one; only one of these looks whether a text is null, which none
is.  `update_job` binds the next run time as 64 bits, and `insert_job` as 32.

## Main definitions

* `SqlValue`, `Row.column` — the result columns of `SELECT *`, by their numbers.
* `decodeRow`, `selectAllRow`, `getByIdRow`, `selectDueRow` — what the three readers do
  with a row.
* `Written` — the rows that the writing calls leave.
* `ReadersAgree`, `WritersAgree` — what the readers and the writers should have in common.

## Main results

* `selectAllJobs_eq`, `getJobById_eq`, `selectDueJobs_eq` — each reader, column by column.
* `readers_agree` — **the three read paths agree** on tables of such rows.
* `writers_agree_iff` — **the two writers agree** exactly on next run times that fit.
* `updateJob_roundTrip` — **what `update_job` writes is read back.**
-/

namespace JobScheduler

open CText

/-! ### Column by column -/

/-- What a result column holds. -/
inductive SqlValue
  | null
  | integer (v : Int64)
  | text (s : Bytes)
  deriving DecidableEq, Repr

namespace SqlValue

/-- `sqlite3_column_type(…) == SQLITE_NULL` -/
def isNull : SqlValue → Bool
  | .null => true
  | _ => false

/-- `sqlite3_column_int64`: 0 for null.  A text would be converted; none is read so. -/
def int64 : SqlValue → Int64
  | .integer v => columnInt64 v
  | _ => 0

/-- `sqlite3_column_int`. -/
def int (v : SqlValue) : Int32 := columnInt v.int64

/-- `sqlite3_column_text`: a null pointer for null. -/
def chars : SqlValue → Option Bytes
  | .text s => some (columnText s)
  | _ => none

end SqlValue

/-- A `std::string` from a `char *`, which must not be null. -/
def stringOf : Option Bytes → Except Fault Bytes
  | some s => .ok s
  | none => .error .undefinedBehaviour

/-- The result columns of `SELECT * FROM jobs`, numbered from 0. -/
def Row.column (r : Row) : ℕ → SqlValue
  | 0 => .integer r.id
  | 1 => .text r.name
  | 2 => .integer r.type
  | 3 => .integer r.status
  | 4 => .integer r.nextRunTime
  | 5 => r.intervalSeconds.elim .null .integer
  | 6 => r.cronExpr.elim .null .text
  | 7 => .text r.payload
  | 8 => .integer r.retryCount
  | 9 => .integer r.maxRetries
  | _ => .null

/-- The columns of a row, read one by one into a `Job`; `text` is what becomes of the
pointer to a `NOT NULL` text. -/
def decodeRow (text : Option Bytes → Except Fault Bytes) (r : Row) : Except Fault Job := do
  let id := (r.column 0).int
  let name ← text (r.column 1).chars
  let type := intToType (r.column 2).int
  let status := intToStatus (r.column 3).int
  let nextRunTime := (r.column 4).int64
  let intervalSeconds := if (r.column 5).isNull then none else some (r.column 5).int
  let cronExpr ← if (r.column 6).isNull then pure none
    else some <$> stringOf (r.column 6).chars
  let payload ← text (r.column 7).chars
  let retryCount := (r.column 8).int
  let maxRetries := (r.column 9).int
  pure
    { id, name, type, status, nextRunTime, intervalSeconds, cronExpr, payload, retryCount
      maxRetries }

/-- The loop body of `select_all_jobs`. -/
def selectAllRow (r : Row) : Except Fault Job := decodeRow stringOf r

/-- The loop body of `select_due_jobs`. -/
def selectDueRow (r : Row) : Except Fault Job := decodeRow stringOf r

/-- What `get_job_by_id` reads of the row it has found: a null text is the empty one. -/
def getByIdRow (r : Row) : Except Fault Job := decodeRow (fun p => pure (p.getD [])) r

/-- On a row of `jobs` no text is null, and the columns are what `readRow` reads. -/
theorem decodeRow_eq {text : Option Bytes → Except Fault Bytes}
    (htext : ∀ s, text (some s) = .ok s) (r : Row) : decodeRow text r = .ok (readRow r) := by
  obtain ⟨id, name, type, status, next, interval, cron, payload, retries, max⟩ := r
  simp only [decodeRow, Row.column, SqlValue.chars, htext, ok_bind]
  cases interval <;> cases cron <;> rfl

/-- A scan reads its rows one after the other. -/
theorem mapM_decodeRow {text : Option Bytes → Except Fault Bytes}
    (htext : ∀ s, text (some s) = .ok s) (rows : List Row) :
    rows.mapM (decodeRow text) = .ok (rows.map readRow) := by
  induction rows with
  | nil => rfl
  | cons r rows ih =>
    rw [List.mapM_cons, decodeRow_eq htext, ok_bind, ih]
    rfl

theorem ScanOutcome.deliver_map {α β : Type*} (o : ScanOutcome) (f : α → β) (l : List α) :
    o.deliver (l.map f) = (o.deliver l).map f := by
  cases o with
  | complete => rfl
  | stopped n => exact List.map_take.symm

/-- **Each reader fills in its jobs column by column.** -/
theorem selectAllJobs_eq (db : Db) (o : ScanOutcome) :
    (o.deliver db.table.rows).mapM selectAllRow = .ok (selectAllJobs db o) := by
  rw [selectAllJobs, ScanOutcome.deliver_map]
  exact mapM_decodeRow (fun _ => rfl) _

theorem selectDueJobs_eq (db : Db) (now : Int64) (o : ScanOutcome) :
    (o.deliver (db.table.rows.filter (isDue now))).mapM selectDueRow =
      .ok (selectDueJobs db now o) := by
  rw [selectDueJobs, ScanOutcome.deliver_map]
  exact mapM_decodeRow (fun _ => rfl) _

theorem getJobById_eq (db : Db) (job : Job) (id : Int32) :
    (match db.table.lookup (bindInt id) with
      | some r => (getByIdRow r).map (true, ·)
      | none => .ok (false, job)) = .ok (getJobById db job id .ok) := by
  simp only [getJobById]
  cases db.table.lookup (bindInt id) with
  | none => rfl
  | some r =>
    simp only [getByIdRow]
    rw [decodeRow_eq fun _ => rfl]
    rfl

/-! ### The three read paths -/

/-- The rows that the writing calls leave: inserted by `insert_job`, and changed by any
of the others. -/
inductive Written : Row → Prop
  | insert (job : Job) (rowid : Int64) : Written ((insertParams job).toRow rowid)
  | change {r : Row} (h : Written r) (op : Op) : Written (op.stmt.setClause r)

/-- The status of such a row is the code of an enumerator. -/
theorem Written.status {r : Row} (h : Written r) : ∃ st : Status, r.status = bindInt st.toInt := by
  induction h with
  | insert job rowid => exact ⟨job.status, rfl⟩
  | change h op ih =>
    cases op with
    | updateJob job id => exact ⟨job.status, rfl⟩
    | updateJobStatus id st => exact ⟨st, rfl⟩
    | pauseJob id => exact ⟨.paused, rfl⟩
    | resumeJob id => exact ⟨.active, rfl⟩
    | _ => exact ih

/-- **Every call leaves such rows**, where all rows were such before. -/
theorem written_run {db : Db} (op : Op) (h : ∀ r ∈ db.table.rows, Written r) :
    ∀ r ∈ (op.run db).2.table.rows, Written r := by
  rw [Op.snd_run]
  intro r hr
  cases hs : op.stmt.step db with
  | none => exact h r (by rwa [hs] at hr)
  | some db' =>
    rw [hs, Option.getD_some] at hr
    have hafter : op.stmt.rowAfter db.table r.id = some r := by
      rw [← Stmt.lookup_step hs]
      exact Table.lookup_eq_some_iff.mpr ⟨hr, rfl⟩
    have hold : ∀ r', db.table.lookup r.id = some r' → Written r' :=
      fun r' hr' => h r' (Table.lookup_eq_some_iff.mp hr').1
    -- a row is new, or what the call makes of an old one
    cases op with
    | insertJob job =>
      simp only [Op.stmt, Stmt.rowAfter] at hafter
      split at hafter
      · exact Option.some.inj hafter ▸ .insert job r.id
      · exact hold r hafter
    | deleteJob id =>
      simp only [Op.stmt, Stmt.rowAfter] at hafter
      split at hafter
      · simp at hafter
      · exact hold r hafter
    | _ =>
      obtain ⟨r', hr', heq⟩ := Option.map_eq_some_iff.mp hafter
      split at heq
      · exact heq ▸ .change (hold r' hr') _
      · exact heq ▸ hold r' hr'

/-- The due jobs are those that are ACTIVE and whose time has come, among all jobs; and a
job is found by its id exactly when one of all jobs has it, which is then the only one. -/
structure ReadersAgree (db : Db) : Prop where
  due : ∀ now, (selectDueJobs db now .complete).Perm
    ((selectAllJobs db .complete).filter fun job => job.status = .active && job.nextRunTime ≤ now)
  byId : ∀ id job₀, (selectAllJobs db .complete).filter (fun job => job.id = id) =
    if (getJobById db job₀ id .ok).1 then [(getJobById db job₀ id .ok).2] else []

/-- A row is due when the job that is read of it is. -/
theorem isDue_readRow {r : Row} (h : Written r) (now : Int64) :
    isDue now r = ((readRow r).status = .active && (readRow r).nextRunTime ≤ now) := by
  obtain ⟨st, hst⟩ := h.status
  have hactive : r.status = bindInt Status.active.toInt ↔ st = .active := by
    rw [hst, bindInt_inj]
    exact Status.toInt_eq_zero_iff
  have hread : (readRow r).status = st := by
    show intToStatus (columnInt r.status) = st
    rw [hst, columnInt_bindInt, intToStatus_toInt]
  rw [isDue, hread]
  congr 1
  exact decide_eq_decide.mpr hactive

/-- **The three read paths agree**, on every table of rows that the writing calls have
left, with ids that fit an `int`. -/
theorem readers_agree {db : Db} (hwritten : ∀ r ∈ db.table.rows, Written r)
    (hfits : ∀ r ∈ db.table.rows, FitsInt r.id) : ReadersAgree db := by
  constructor
  · intro now
    simp only [selectDueJobs, selectAllJobs, ScanOutcome.deliver, List.filter_map]
    rw [List.filter_congr fun r hr => isDue_readRow (hwritten r hr) now]
    exact List.Perm.refl _
  · intro id job₀
    have hid : ∀ r ∈ db.table.rows, ((fun job : Job => decide (job.id = id)) ∘ readRow) r =
        decide (r.id = bindInt id) := by
      intro r hr
      have hcolumn : bindInt (columnInt r.id) = r.id := bindInt_columnInt_eq_iff.mpr (hfits r hr)
      rw [← hcolumn]
      exact decide_eq_decide.mpr bindInt_inj.symm
    simp only [selectAllJobs, ScanOutcome.deliver, List.filter_map]
    rw [List.filter_congr hid, KeyedTable.filter_key Row.id db.table.nodup]
    cases hr : db.table.lookup (bindInt id) with
    | none => simp [getJobById, hr, show KeyedTable.lookup Row.id db.table.rows _ = none from hr]
    | some r =>
      simp [getJobById, hr, show KeyedTable.lookup Row.id db.table.rows _ = some r from hr]

/-- A table with a paused job and a due one. -/
def twoJobs : Db :=
  ((Op.pauseJob 1).run ((Op.insertJob default).run
    ((Op.insertJob default).run Db.empty).2).2).2

theorem readers_agree_two : ReadersAgree twoJobs ∧
    (selectDueJobs twoJobs 0 .complete).map Job.id = [2] := by
  refine ⟨readers_agree ?_ (by decide +kernel), by decide +kernel⟩
  refine written_run _ (written_run _ (written_run _ ?_))
  simp [Db.empty, Table.empty]

/-! ### The two writers -/

/-- The two rows agree in every column other than `id`. -/
def Row.SameColumns (r r' : Row) : Prop := { r with id := r'.id } = r'

/-- The row that `insert_job` creates and the row that `update_job` leaves agree in every
column other than `id`. -/
def WritersAgree (job : Job) (db : Db) (id : Int32) : Prop :=
  ∃ r r', (insertJob db job .ok).2.table.lookup (insertJob db job .ok).2.lastInsertRowid = some r ∧
    (updateJob db job id .ok).2.table.lookup (bindInt id) = some r' ∧ r.SameColumns r'

/-- What `update_job` leaves in the row it names. -/
theorem lookup_updateJob {db : Db} {id : Int32} (job : Job)
    (hid : db.table.lookup (bindInt id) ≠ none) :
    (updateJob db job id .ok).1 = true ∧
      (updateJob db job id .ok).2.table.lookup (bindInt id) =
        some ((updateParams job).toRow (bindInt id)) := by
  obtain ⟨r, hr⟩ := Option.ne_none_iff_exists'.mp hid
  have hrid : r.id = bindInt id := (Table.lookup_eq_some_iff.mp hr).2
  have hrowid : (Stmt.update (updateParams job) (bindInt id)).rowid = some (bindInt id) := rfl
  constructor
  · exact (mutate_eq_true_iff hrowid (fun _ => rfl) db .ok).mpr ⟨rfl, hid⟩
  · rw [updateJob, lookup_mutate hrowid]
    simp only [Stmt.rowAfter, hr, Option.map_some, Stmt.whereClause, hrid, decide_true, if_true,
      Stmt.setClause]

/-- Where the two writers agree, the next run time survives the narrowing. -/
theorem WritersAgree.nextRunTime_eq {db : Db} {id : Int32} {job : Job}
    (h : WritersAgree job db id) (hroom : db.table.nextRowid ≠ none)
    (hid : db.table.lookup (bindInt id) ≠ none) :
    job.nextRunTime.toInt32.toInt64 = job.nextRunTime := by
  obtain ⟨k, hk⟩ := Option.ne_none_iff_exists'.mp hroom
  obtain ⟨r, r', hr, hr', hsame⟩ := h
  rw [lookup_insertJob job hk, Option.some.injEq] at hr
  rw [(lookup_updateJob job hid).2, Option.some.injEq] at hr'
  subst hr hr'
  exact congrArg Row.nextRunTime hsame

/-- **The two writers agree exactly on a next run time that fits an `int`.** -/
theorem writers_agree_iff {db : Db} {id : Int32} (job : Job)
    (hroom : db.table.nextRowid ≠ none) (hid : db.table.lookup (bindInt id) ≠ none) :
    WritersAgree job db id ↔ FitsInt job.nextRunTime := by
  rw [← toInt64_toInt32_eq_iff]
  constructor
  · exact fun h => h.nextRunTime_eq hroom hid
  · intro hfits
    obtain ⟨k, hk⟩ := Option.ne_none_iff_exists'.mp hroom
    refine ⟨_, _, lookup_insertJob job hk, (lookup_updateJob job hid).2, ?_⟩
    rw [insertParams_eq, hfits]
    rfl

theorem writers_agree_two : WritersAgree default twoJobs 1 :=
  (writers_agree_iff default (by decide) (by decide)).mpr (by decide)

/-- For the year 2038, `insert_job` writes 1901. -/
theorem writers_disagree : ¬ WritersAgree { (default : Job) with nextRunTime := 2147483648 }
    twoJobs 1 := by
  intro h
  exact absurd (h.nextRunTime_eq (by decide) (by decide)) (by decide)

/-! ### The round trip -/

/-- **What `update_job` writes is read back**, with the id of the row, and with texts that
end at their first NUL. -/
theorem updateJob_roundTrip {db : Db} {id : Int32} (job job₀ : Job)
    (hid : db.table.lookup (bindInt id) ≠ none) :
    (updateJob db job id .ok).1 = true ∧
      getJobById (updateJob db job id .ok).2 job₀ id .ok =
        (true, { job with
          id := id
          name := cstr job.name
          cronExpr := job.cronExpr.map cstr
          payload := cstr job.payload }) := by
  obtain ⟨htrue, hlookup⟩ := lookup_updateJob job hid
  refine ⟨htrue, ?_⟩
  simp only [getJobById, hlookup]
  rw [readRow_updateParams, show (bindInt id).toInt32 = id from columnInt_bindInt id]

/-- An interval of 0 and an empty expression come back, and the name is cut. -/
theorem updateJob_roundTrip_two :
    let job : Job := { (default : Job) with
      name := [97, 0, 98]
      nextRunTime := 2147483648
      intervalSeconds := some 0
      cronExpr := some [] }
    (updateJob twoJobs job 1 .ok).1 = true ∧
      getJobById (updateJob twoJobs job 1 .ok).2 default 1 .ok =
        (true, { job with id := 1, name := [97] }) :=
  updateJob_roundTrip _ _ (by decide)

end JobScheduler
