import JobScheduler.Database

/-!
# What the mutators report and what they touch

Every writing function of the repository layer runs one statement with numbered parameters.
Those that name a job ask `sqlite3_changes` afterwards whether a row has changed, all but
`update_job_status`.

## Main definitions

* `Op.Selects` — the rows that a call is about.
* `Reports` — a call returns true exactly when there is such a row, and a call that returns
  false leaves the table alone.
* `ChangesOnly`, `RemovesOnly`, `AddsOne` — how far two tables may differ.
* `Framed` — what each function leaves as it was.

## Main results

* `reports_iff` — **a mutator reports whether the job exists**, unless it is
  `update_job_status` on a job that does not.
* `framed` — **the frame of every mutator.**
-/

namespace JobScheduler

/-! ### Whether the job exists -/

/-- The call is about the row: it has the id, and retries left where the call is
`increment_retry_count`. -/
def Op.Selects : Op → Row → Prop
  | .insertJob _, _ => False
  | .incrementRetryCount id, r => r.id = bindInt id ∧ r.retryCount < r.maxRetries
  | .deleteJob id, r | .updateJob _ id, r | .updateJobStatus id _, r | .pauseJob id, r
  | .resumeJob id, r | .updateNextRunTime id _, r | .resetRetryCount id, r => r.id = bindInt id

/-- The call returns true exactly when there is a row for it, and leaves the table alone when
it returns false. -/
structure Reports (op : Op) (db : Db) : Prop where
  flag : (op.run db).1 = .flag true ↔ ∃ r ∈ db.table.rows, op.Selects r
  unchanged : (op.run db).1 = .flag false → (op.run db).2.table = db.table

/-- A call is about the rows that meet the clause of its statement. -/
theorem Op.whereClause_iff {op : Op} (r : Row) :
    op.stmt.whereClause r = true ↔ op.Selects r := by
  cases op <;> simp [Op.stmt, Stmt.whereClause, Op.Selects]

/-- A statement that no row meets leaves the table alone. -/
theorem Stmt.table_step_of_affected {s : Stmt} {db db' : Db} (h : s.step db = some db')
    (hnone : s.affected db.table = 0) : db'.table = db.table := by
  cases s with
  | insert p => simp [affected] at hnone
  | delete id =>
    simp only [step, Option.some.injEq] at h
    subst h
    exact Table.ext (KeyedTable.deleteWhere_eq_self hnone) rfl
  | _ =>
    simp only [step, Option.some.injEq] at h
    subst h
    exact Table.ext (KeyedTable.updateWhere_eq_self hnone) rfl

/-- The statement of such a call changes a row exactly when there is one for it. -/
theorem Op.affected_ne_zero_iff {op : Op} (hins : ¬ op.Inserts) (t : Table) :
    op.stmt.affected t ≠ 0 ↔ ∃ r ∈ t.rows, op.Selects r := by
  have hcount : op.stmt.affected t = t.rows.countP op.stmt.whereClause := by
    cases op with
    | insertJob job => exact absurd trivial hins
    | _ => rfl
  rw [hcount, ← Nat.pos_iff_ne_zero, List.countP_pos_iff]
  simp only [Op.whereClause_iff]

/-- All of them but `update_job_status` follow the protocol of the mutators. -/
theorem Op.run_eq_mutate {op : Op} (hins : ¬ op.Inserts)
    (hstatus : ∀ id st, op ≠ .updateJobStatus id st) (db : Db) :
    op.run db = (.flag (mutate op.stmt db .ok).1, (mutate op.stmt db .ok).2) := by
  cases op with
  | insertJob job => exact absurd trivial hins
  | updateJobStatus id st => exact absurd rfl (hstatus id st)
  | _ => rfl

/-- **These report whether the job exists.** -/
theorem reports_of_mutate {op : Op} (hins : ¬ op.Inserts)
    (hstatus : ∀ id st, op ≠ .updateJobStatus id st) (db : Db) : Reports op db := by
  obtain ⟨id, hrowid⟩ := Op.exists_rowid hins
  obtain ⟨db', hs⟩ := Stmt.step_of_rowid hrowid db
  have hrun := Op.run_eq_mutate hins hstatus db
  rw [mutate_ok hs] at hrun
  constructor
  · rw [hrun, Ret.flag.injEq, decide_eq_true_eq]
    exact Op.affected_ne_zero_iff hins db.table
  · intro hfalse
    rw [hrun, Ret.flag.injEq, decide_eq_false_iff_not, not_not] at hfalse
    rw [hrun]
    exact Stmt.table_step_of_affected hs hfalse

/-- `update_job_status` says that it has updated a row whether there is one or not. -/
theorem reports_updateJobStatus_iff (id : Int32) (st : Status) (db : Db) :
    Reports (.updateJobStatus id st) db ↔ ∃ r ∈ db.table.rows, r.id = bindInt id := by
  have htrue : ((Op.updateJobStatus id st).run db).1 = .flag true := rfl
  constructor
  · intro h
    exact h.flag.mp htrue
  · intro hrow
    refine ⟨iff_of_true htrue hrow, ?_⟩
    intro hfalse
    rw [htrue] at hfalse
    simp at hfalse

/-- **A mutator reports whether the job exists**, and leaves the table alone when it returns
false, exactly when it is not `update_job_status` on a job that does not exist. -/
theorem reports_iff {op : Op} (hins : ¬ op.Inserts) (db : Db) :
    Reports op db ↔
      ∀ id st, op = .updateJobStatus id st → ∃ r ∈ db.table.rows, r.id = bindInt id := by
  by_cases hstatus : ∃ id st, op = .updateJobStatus id st
  · obtain ⟨id, st, rfl⟩ := hstatus
    rw [reports_updateJobStatus_iff]
    constructor
    · intro hrow id' st' heq
      rw [Op.updateJobStatus.injEq] at heq
      exact heq.1 ▸ hrow
    · intro h
      exact h id st rfl
  · have hne : ∀ id st, op ≠ .updateJobStatus id st := fun id st h => hstatus ⟨id, st, h⟩
    exact iff_of_true (reports_of_mutate hins hne db) fun id st h => absurd h (hne id st)

/-- Of two calls on a table with the row 1 one is on that row. -/
theorem reports_deleteTwo :
    let db := (insertJob Db.empty default .ok).2
    ((Op.deleteJob 1).run db).1 = .flag true ∧ Reports (.deleteJob 1) db ∧
      ((Op.deleteJob 2).run db).1 = .flag false ∧ Reports (.deleteJob 2) db := by
  intro db
  refine ⟨by decide +kernel, ?_, by decide +kernel, ?_⟩
  · exact (reports_iff (by decide) db).mpr fun id st h => by simp at h
  · exact (reports_iff (by decide) db).mpr fun id st h => by simp at h

/-- `update_job_status` on an empty table returns true. -/
theorem updateJobStatus_misreports : ¬ Reports (.updateJobStatus 1 .active) Db.empty := by
  rw [reports_updateJobStatus_iff]
  rintro ⟨r, hr, -⟩
  exact absurd hr List.not_mem_nil

/-! ### What the functions leave as it was -/

/-- The second table has the rows of the first, in their places, but that the row with the id
`k` may differ from it as `P` says. -/
structure ChangesOnly (P : Row → Row → Prop) (k : Int64) (t t' : Table) : Prop where
  others : ∀ id, id ≠ k → t'.lookup id = t.lookup id
  row : ∀ r, t.lookup k = some r → ∃ r', t'.lookup k = some r' ∧ P r r'
  ids : t'.rows.map Row.id = t.rows.map Row.id
  nodup : (t'.rows.map Row.id).Nodup

/-- The second table has the rows of the first, in their order, but that the row with the id
`k` may be missing. -/
structure RemovesOnly (k : Int64) (t t' : Table) : Prop where
  rows : t'.rows = t.rows ∨ t'.rows = t.rows.filter fun r => r.id ≠ k
  nodup : (t'.rows.map Row.id).Nodup

/-- The second table has the rows of the first and one more, under an id of its own. -/
structure AddsOne (t t' : Table) : Prop where
  rows : ∃ r, (∀ r' ∈ t.rows, r'.id ≠ r.id) ∧ t'.rows = t.rows ++ [r]
  nodup : (t'.rows.map Row.id).Nodup

/-- The rows agree but for the status. -/
def StatusOnly (r r' : Row) : Prop := r' = { r with status := r'.status }

theorem StatusOnly.refl (r : Row) : StatusOnly r r := rfl

/-- The rows agree but for the next run time. -/
def NextRunTimeOnly (r r' : Row) : Prop := r' = { r with nextRunTime := r'.nextRunTime }

theorem NextRunTimeOnly.refl (r : Row) : NextRunTimeOnly r r := rfl

/-- The rows agree but for the retry count. -/
def RetryCountOnly (r r' : Row) : Prop := r' = { r with retryCount := r'.retryCount }

theorem RetryCountOnly.refl (r : Row) : RetryCountOnly r r := rfl

/-- The rows have the same id; the nine other columns may differ. -/
def SameId (r r' : Row) : Prop := r'.id = r.id

theorem SameId.refl (r : Row) : SameId r r := rfl

/-- What each writing function leaves as it was, whatever becomes of its statement. -/
structure Framed (db : Db) (id : Int32) (o : SqlOutcome) : Prop where
  pauseJob : ChangesOnly StatusOnly (bindInt id) db.table (pauseJob db id o).2.table
  resumeJob : ChangesOnly StatusOnly (bindInt id) db.table (resumeJob db id o).2.table
  updateJobStatus : ∀ newStatus job o', ChangesOnly StatusOnly (bindInt id) db.table
    (updateJobStatus db id newStatus job o o').2.2.table
  updateNextRunTime : ∀ newNextRunTime, ChangesOnly NextRunTimeOnly (bindInt id) db.table
    (updateNextRunTime db id newNextRunTime o).2.table
  incrementRetryCount : ChangesOnly RetryCountOnly (bindInt id) db.table
    (incrementRetryCount db id o).2.table
  resetRetryCount : ChangesOnly RetryCountOnly (bindInt id) db.table
    (resetRetryCount db id o).2.table
  updateJob : ∀ job, ChangesOnly SameId (bindInt id) db.table (updateJob db job id o).2.table
  deleteJob : RemovesOnly (bindInt id) db.table (deleteJob db id o).2.table
  insertJob : ∀ job, if o = .ok ∧ db.table.nextRowid ≠ none
    then AddsOne db.table (insertJob db job o).2.table
    else (insertJob db job o).2.table = db.table

theorem ChangesOnly.refl {P : Row → Row → Prop} (hrefl : ∀ r, P r r) (k : Int64) (t : Table) :
    ChangesOnly P k t t :=
  ⟨fun _ _ => rfl, fun r hr => ⟨r, hr, hrefl r⟩, rfl, t.nodup⟩

/-- An `UPDATE` keeps the list of the ids. -/
theorem Stmt.ids_step {s : Stmt} {id : Int64} (hrowid : s.rowid = some id)
    (hdel : ∀ id', s ≠ .delete id') {db db' : Db} (h : s.step db = some db') :
    db'.table.rows.map Row.id = db.table.rows.map Row.id := by
  cases s with
  | insert p => simp [rowid] at hrowid
  | delete id' => exact absurd rfl (hdel id')
  | _ =>
    simp only [step, Option.some.injEq] at h
    subst h
    exact KeyedTable.map_key_updateWhere Row.id (Stmt.id_setClause _) db.table.rows

/-- **The frame of an `UPDATE`**: it is in the row it names what its `SET` clause may do to
any row. -/
theorem changesOnly_mutate {P : Row → Row → Prop} {s : Stmt} {k : Int64}
    (hrowid : s.rowid = some k) (hdel : ∀ id, s ≠ .delete id) (hrefl : ∀ r, P r r)
    (hset : ∀ r, P r (s.setClause r)) (db : Db) (o : SqlOutcome) :
    ChangesOnly P k db.table (mutate s db o).2.table := by
  cases o with
  | prepareError rc => exact .refl hrefl k db.table
  | stepError => exact .refl hrefl k db.table
  | ok =>
    refine ⟨?_, ?_, ?_, (mutate s db .ok).2.table.nodup⟩
    · intro id hne
      rw [lookup_mutate hrowid, Stmt.rowAfter_of_ne hrowid hne]
    · intro r hr
      have hafter : s.rowAfter db.table k =
          (db.table.lookup k).map fun r => if s.whereClause r then s.setClause r else r := by
        cases s with
        | insert p => simp [Stmt.rowid] at hrowid
        | delete id => exact absurd rfl (hdel id)
        | _ => rfl
      rw [lookup_mutate hrowid, hafter, hr, Option.map_some]
      refine ⟨_, rfl, ?_⟩
      split
      · exact hset r
      · exact hrefl r
    · obtain ⟨db', hs⟩ := Stmt.step_of_rowid hrowid db
      rw [mutate_ok hs]
      exact Stmt.ids_step hrowid hdel hs

/-- Three functions run the same statement, on the status. -/
theorem changesOnly_setStatus (db : Db) (id : Int32) (status : Int64) (o : SqlOutcome) :
    ChangesOnly StatusOnly (bindInt id) db.table
      (mutate (.setStatus status (bindInt id)) db o).2.table := by
  apply changesOnly_mutate rfl (by simp) StatusOnly.refl
  intro r
  rfl

/-- What `update_job_status` leaves is what its `UPDATE` leaves. -/
theorem updateJobStatus_db (db : Db) (id : Int32) (newStatus : Status) (job : Job)
    (o o' : SqlOutcome) : (updateJobStatus db id newStatus job o o').2.2 =
      (mutate (.setStatus (bindInt newStatus.toInt) (bindInt id)) db o).2 := by
  cases o <;> rfl

/-- The frame of `delete_job`. -/
theorem removesOnly_deleteJob (db : Db) (id : Int32) (o : SqlOutcome) :
    RemovesOnly (bindInt id) db.table (deleteJob db id o).2.table := by
  refine ⟨?_, (deleteJob db id o).2.table.nodup⟩
  cases o with
  | prepareError rc => exact Or.inl rfl
  | stepError => exact Or.inl rfl
  | ok =>
    right
    show KeyedTable.deleteWhere (fun r => decide (r.id = bindInt id)) db.table.rows = _
    simp [KeyedTable.deleteWhere]

/-- The frame of `insert_job`. -/
theorem addsOne_insertJob (db : Db) (job : Job) (o : SqlOutcome) :
    if o = .ok ∧ db.table.nextRowid ≠ none then AddsOne db.table (insertJob db job o).2.table
    else (insertJob db job o).2.table = db.table := by
  cases o with
  | prepareError rc => rw [if_neg (by simp)]; rfl
  | stepError => rw [if_neg (by simp)]; rfl
  | ok =>
    cases hk : db.table.nextRowid with
    | none =>
      rw [if_neg (by simp)]
      simp only [insertJob, Stmt.step_insert_full hk]
    | some k =>
      rw [if_pos ⟨rfl, by simp⟩, insertJob_ok job hk]
      refine ⟨⟨(insertParams job).toRow k, ?_, rfl⟩, (db.table.insert _ hk).nodup⟩
      intro r hr hid
      have hmem : r.id ∈ db.table.rows.map Row.id := List.mem_map_of_mem hr
      rw [show r.id = k from hid] at hmem
      exact Table.nextRowid_notMem hk hmem

/-- **The frame of every mutator**, for every table, every id and every outcome of its
statement. -/
theorem framed (db : Db) (id : Int32) (o : SqlOutcome) : Framed db id o where
  pauseJob := changesOnly_setStatus db id _ o
  resumeJob := changesOnly_setStatus db id _ o
  updateJobStatus newStatus job o' := by
    rw [updateJobStatus_db]
    exact changesOnly_setStatus db id _ o
  updateNextRunTime t := changesOnly_mutate (s := .setNextRunTime t (bindInt id)) rfl (by simp)
    NextRunTimeOnly.refl (fun _ => rfl) db o
  incrementRetryCount := changesOnly_mutate (s := .incrementRetryCount (bindInt id)) rfl (by simp)
    RetryCountOnly.refl (fun _ => rfl) db o
  resetRetryCount := changesOnly_mutate (s := .resetRetryCount (bindInt id)) rfl (by simp)
    RetryCountOnly.refl (fun _ => rfl) db o
  updateJob job := changesOnly_mutate (s := .update (updateParams job) (bindInt id)) rfl (by simp)
    SameId.refl (fun _ => rfl) db o
  deleteJob := removesOnly_deleteJob db id o
  insertJob job := addsOne_insertJob db job o

end JobScheduler
