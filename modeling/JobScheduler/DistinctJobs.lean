import JobScheduler.Codec
import JobScheduler.Lib.Merge
import JobScheduler.Mutators

/-!
# Requests on different jobs

A call on one job reads and writes the row of that job alone.  It also reads and writes
`sqlite3_changes`, but reads there what its own statement has just written.

## Main definitions

* `JobCall`, `JobCall.run` — the nine calls on a job.
* `Table.apply` — a table after an action on one of its rows.
* `ActsOnRow` — what a call returns depends on its row, and it acts on no other.

## Main results

* `JobCall.actsOnRow` — **every call acts on its own row.**
* `distinct_jobs` — **requests on different jobs commute**, in every order-preserving merge.
-/

namespace JobScheduler

open KeyedTable Merge

/-! ### The calls -/

/-- A call on a job, with the outcomes of its statements and the `Job &` it is given. -/
inductive JobCall
  | deleteJob (o : SqlOutcome)
  | updateJob (job : Job) (o : SqlOutcome)
  | updateJobStatus (newStatus : Status) (job : Job) (o o' : SqlOutcome)
  | pauseJob (o : SqlOutcome)
  | resumeJob (o : SqlOutcome)
  | updateNextRunTime (newNextRunTime : Int64) (o : SqlOutcome)
  | incrementRetryCount (o : SqlOutcome)
  | resetRetryCount (o : SqlOutcome)
  | getJobById (job : Job) (o : SqlOutcome)

/-- The call, run to its end on the job with the id: what it returns, the job it leaves where
it is given one, and the database. -/
def JobCall.run (id : Int32) (db : Db) : JobCall → (Bool × Option Job) × Db
  | .deleteJob o => let (b, db') := JobScheduler.deleteJob db id o; ((b, none), db')
  | .updateJob job o => let (b, db') := JobScheduler.updateJob db job id o; ((b, none), db')
  | .updateJobStatus newStatus job o o' =>
    let (b, found, db') := JobScheduler.updateJobStatus db id newStatus job o o'
    ((b, some found), db')
  | .pauseJob o => let (b, db') := JobScheduler.pauseJob db id o; ((b, none), db')
  | .resumeJob o => let (b, db') := JobScheduler.resumeJob db id o; ((b, none), db')
  | .updateNextRunTime newNextRunTime o =>
    let (b, db') := JobScheduler.updateNextRunTime db id newNextRunTime o; ((b, none), db')
  | .incrementRetryCount o =>
    let (b, db') := JobScheduler.incrementRetryCount db id o; ((b, none), db')
  | .resetRetryCount o => let (b, db') := JobScheduler.resetRetryCount db id o; ((b, none), db')
  | .getJobById job o =>
    let (b, found) := JobScheduler.getJobById db job id o; ((b, some found), db)

/-! ### Actions on the table -/

/-- The table after an action on one of its rows. -/
def Table.apply (t : Table) {k : Int64} (a : RowAction Row.id k) : Table where
  rows := t.rows.filterMap a.act
  seq := t.seq
  nodup := a.nodup t.nodup
  le_seq r hr := by
    obtain ⟨r', hr', hid⟩ := a.exists_of_mem hr
    rw [hid]
    exact t.le_seq r' hr'

/-- What a statement does to each row. -/
def Stmt.act (s : Stmt) (r : Row) : Option Row :=
  if s.whereClause r then
    match s with
    | .delete _ => none
    | s => some (s.setClause r)
  else some r

/-- A statement with a `WHERE` clause is an action on the row that the clause names. -/
def Stmt.rowAction (s : Stmt) {k : Int64} (hrowid : s.rowid = some k) : RowAction Row.id k where
  act := s.act
  key_eq := by
    intro r r' h
    unfold act at h
    split at h
    · split at h
      · simp at h
      · rw [← Option.some.inj h, id_setClause]
    · rw [← Option.some.inj h]
  of_ne := by
    intro r hne
    refine if_neg ?_
    intro hwhere
    rw [id_of_whereClause hwhere, Option.some.injEq] at hrowid
    exact hne hrowid

/-- No action. -/
def noAction (k : Int64) : RowAction Row.id k := ⟨some, by simp, fun _ => rfl⟩

theorem Table.apply_noAction (t : Table) (k : Int64) : t.apply (noAction k) = t :=
  Table.ext List.filterMap_some rfl

/-- **What a completed statement does to the table.** -/
theorem Stmt.table_step {s : Stmt} {k : Int64} (hrowid : s.rowid = some k) {db db' : Db}
    (h : s.step db = some db') : db'.table = db.table.apply (s.rowAction hrowid) := by
  cases s with
  | insert p => simp [rowid] at hrowid
  | delete id =>
    simp only [step, Option.some.injEq] at h
    subst h
    exact Table.ext (deleteWhere_eq_filterMap _ db.table.rows) rfl
  | _ =>
    simp only [step, Option.some.injEq] at h
    subst h
    exact Table.ext (updateWhere_eq_filterMap _ _ db.table.rows) rfl

theorem Table.lookup_apply_of_ne {k k' : Int64} (h : k' ≠ k) (t : Table)
    (a : RowAction Row.id k) : (t.apply a).lookup k' = t.lookup k' :=
  a.lookup_of_ne h t.rows

theorem Table.apply_comm {k k' : Int64} (h : k ≠ k') (t : Table) (a : RowAction Row.id k)
    (b : RowAction Row.id k') : (t.apply b).apply a = (t.apply a).apply b :=
  Table.ext (a.comm b h t.rows) rfl

/-! ### What a call reads and writes -/

/-- What the call returns depends on the row under `k` alone, and it acts on no other. -/
structure ActsOnRow {ρ : Type*} (k : Int64) (run : Db → ρ × Db) : Prop where
  result : ∀ db db', db.table.lookup k = db'.table.lookup k → (run db).1 = (run db').1
  table : ∃ a : RowAction Row.id k, ∀ db, (run db).2.table = db.table.apply a

section

variable {ρ : Type*} {k : Int64}

/-- A call that writes nothing acts on no row. -/
theorem actsOnRow_of_reads {read : Db → ρ}
    (h : ∀ db db', db.table.lookup k = db'.table.lookup k → read db = read db') :
    ActsOnRow k fun db => (read db, db) :=
  ⟨h, noAction k, fun db => (db.table.apply_noAction k).symm⟩

/-- **A mutator** acts on the row that its statement names. -/
theorem actsOnRow_mutate {s : Stmt} (hrowid : s.rowid = some k) (o : SqlOutcome) :
    ActsOnRow k fun db => mutate s db o := by
  cases o with
  | prepareError rc => exact actsOnRow_of_reads fun _ _ _ => rfl
  | stepError => exact actsOnRow_of_reads fun _ _ _ => rfl
  | ok =>
    refine ⟨?_, s.rowAction hrowid, ?_⟩
    · intro db db' heq
      obtain ⟨after, hs⟩ := Stmt.step_of_rowid hrowid db
      obtain ⟨after', hs'⟩ := Stmt.step_of_rowid hrowid db'
      rw [mutate_ok hs, mutate_ok hs']
      simp only [Stmt.affected_of_rowid hrowid, heq]
    · intro db
      obtain ⟨after, hs⟩ := Stmt.step_of_rowid hrowid db
      rw [mutate_ok hs]
      exact Stmt.table_step hrowid hs

/-- What is made of the result does not matter. -/
theorem ActsOnRow.map {ρ' : Type*} {run : Db → ρ × Db} (h : ActsOnRow k run) (f : ρ → ρ') :
    ActsOnRow k fun db => (f (run db).1, (run db).2) :=
  ⟨fun db db' heq => congrArg f (h.result db db' heq), h.table⟩

end

theorem getJobById_congr {db db' : Db} {id : Int32}
    (h : db.table.lookup (bindInt id) = db'.table.lookup (bindInt id)) (job : Job)
    (o : SqlOutcome) : getJobById db job id o = getJobById db' job id o := by
  simp only [getJobById, h]

/-- `update_job_status` reads back the row that it has written. -/
theorem actsOnRow_updateJobStatus (id : Int32) (newStatus : Status) (job : Job)
    (o o' : SqlOutcome) : ActsOnRow (bindInt id) fun db =>
      (((updateJobStatus db id newStatus job o o').1,
        (updateJobStatus db id newStatus job o o').2.1),
        (updateJobStatus db id newStatus job o o').2.2) := by
  have hrowid : (Stmt.setStatus (bindInt newStatus.toInt) (bindInt id)).rowid =
      some (bindInt id) := rfl
  constructor
  · intro db db' heq
    cases o with
    | prepareError rc => rfl
    | stepError => rfl
    | ok =>
      obtain ⟨after, hs⟩ := Stmt.step_of_rowid hrowid db
      obtain ⟨after', hs'⟩ := Stmt.step_of_rowid hrowid db'
      have hafter : after.table.lookup (bindInt id) = after'.table.lookup (bindInt id) := by
        rw [Stmt.lookup_step hs, Stmt.lookup_step hs']
        simp only [Stmt.rowAfter, heq]
      simp only [updateJobStatus, hs, hs', getJobById_congr hafter]
  · obtain ⟨a, ha⟩ := (actsOnRow_mutate hrowid o).table
    refine ⟨a, ?_⟩
    intro db
    rw [updateJobStatus_db]
    exact ha db

/-- **Every call acts on its own row.** -/
theorem JobCall.actsOnRow (id : Int32) (c : JobCall) :
    ActsOnRow (bindInt id) fun db => c.run id db := by
  cases c with
  | deleteJob o => exact (actsOnRow_mutate (s := .delete (bindInt id)) rfl o).map (·, none)
  | updateJob job o =>
    exact (actsOnRow_mutate (s := .update (updateParams job) (bindInt id)) rfl o).map (·, none)
  | updateJobStatus newStatus job o o' =>
    exact (actsOnRow_updateJobStatus id newStatus job o o').map fun x => (x.1, some x.2)
  | pauseJob o =>
    exact (actsOnRow_mutate (s := .setStatus (bindInt Status.paused.toInt) (bindInt id)) rfl o).map
      (·, none)
  | resumeJob o =>
    exact (actsOnRow_mutate (s := .setStatus (bindInt Status.active.toInt) (bindInt id)) rfl o).map
      (·, none)
  | updateNextRunTime t o =>
    exact (actsOnRow_mutate (s := .setNextRunTime (bindInt64 t) (bindInt id)) rfl o).map (·, none)
  | incrementRetryCount o =>
    exact (actsOnRow_mutate (s := .incrementRetryCount (bindInt id)) rfl o).map (·, none)
  | resetRetryCount o =>
    exact (actsOnRow_mutate (s := .resetRetryCount (bindInt id)) rfl o).map (·, none)
  | getJobById job o =>
    apply actsOnRow_of_reads
    intro db db' heq
    exact congrArg (fun x => (x.1, some x.2)) (getJobById_congr heq job o)

/-! ### Two sequences of calls -/

/-- The calls on a job depend on the table alone. -/
theorem JobCall.observed (id : Int32) : Observed Db.table (JobCall.run id) := by
  intro db db' c heq
  obtain ⟨hresult, a, ha⟩ := c.actsOnRow id
  refine ⟨hresult db db' (by rw [heq]), ?_⟩
  exact (ha db).trans ((congrArg (·.apply a) heq).trans (ha db').symm)

/-- **Calls on different jobs do not disturb one another.** -/
theorem JobCall.independent {i j : Int32} (hij : i ≠ j) :
    Independent Db.table (JobCall.run i) (JobCall.run j) := by
  have hne : bindInt i ≠ bindInt j := fun h => hij (bindInt_inj.mp h)
  have hresult : ∀ {i j : Int32}, bindInt i ≠ bindInt j → ∀ (db : Db) (c c' : JobCall),
      (c.run i (c'.run j db).2).1 = (c.run i db).1 := by
    intro i j hne db c c'
    obtain ⟨a, ha⟩ := (c'.actsOnRow j).table
    refine (c.actsOnRow i).result _ _ ?_
    exact (congrArg (·.lookup (bindInt i)) (ha db)).trans
      (Table.lookup_apply_of_ne hne db.table a)
  refine ⟨hresult hne, fun db c c' => hresult hne.symm db c' c, ?_⟩
  intro db c c'
  obtain ⟨a, ha⟩ := (c.actsOnRow i).table
  obtain ⟨b, hb⟩ := (c'.actsOnRow j).table
  calc (c.run i (c'.run j db).2).2.table
      = (db.table.apply b).apply a := (ha _).trans (congrArg (·.apply a) (hb db))
    _ = (db.table.apply a).apply b := Table.apply_comm hne db.table a b
    _ = (c'.run j (c.run i db).2).2.table := ((hb _).trans (congrArg (·.apply b) (ha db))).symm

/-- **Requests on different jobs commute**: any two order-preserving merges of the two
sequences of calls return the same to every call and end in the same table. -/
theorem distinct_jobs {i j : Int32} (hij : i ≠ j) (db : Db) {xs ys : List JobCall}
    {m m' : List (JobCall ⊕ JobCall)} (hm : IsMerge xs ys m) (hm' : IsMerge xs ys m') :
    (runMerged (JobCall.run i) (JobCall.run j) db m).1 =
        (runMerged (JobCall.run i) (JobCall.run j) db m').1 ∧
      (runMerged (JobCall.run i) (JobCall.run j) db m).2.1 =
        (runMerged (JobCall.run i) (JobCall.run j) db m').2.1 ∧
      (runMerged (JobCall.run i) (JobCall.run j) db m).2.2.table =
        (runMerged (JobCall.run i) (JobCall.run j) db m').2.2.table := by
  have hmerge : ∀ {zs : List (JobCall ⊕ JobCall)}, IsMerge xs ys zs → _ := fun hzs =>
    (JobCall.independent hij).runMerged_eq (JobCall.observed i) (JobCall.observed j) hzs db
  obtain ⟨hleft, hright, htable⟩ := hmerge hm
  obtain ⟨hleft', hright', htable'⟩ := hmerge hm'
  exact ⟨hleft.trans hleft'.symm, hright.trans hright'.symm, htable.trans htable'.symm⟩

/-- An increment and a read of the job 1, and a deletion of the job 2. -/
theorem distinct_jobs_two :
    let increment := JobCall.incrementRetryCount .ok
    let get := JobCall.getJobById default .ok
    let delete := JobCall.deleteJob .ok
    let merged := runMerged (JobCall.run 1) (JobCall.run 2) twoJobs
    (merged [.inl increment, .inl get, .inr delete]).1 =
        (merged [.inr delete, .inl increment, .inl get]).1 ∧
      (merged [.inl increment, .inl get, .inr delete]).2.1 =
        (merged [.inr delete, .inl increment, .inl get]).2.1 ∧
      (merged [.inl increment, .inl get, .inr delete]).2.2.table =
        (merged [.inr delete, .inl increment, .inl get]).2.2.table :=
  distinct_jobs (by decide) twoJobs (.left _ (.left _ (.right _ .nil)))
    (.right _ (.left _ (.left _ .nil)))

end JobScheduler
