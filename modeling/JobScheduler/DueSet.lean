import JobScheduler.Database
import JobScheduler.Lib.History
import Mathlib.Data.List.Induction

/-!
# The due jobs as a function of the history

A run of the writing calls, from the empty table, decides which jobs are due: the ids
that were inserted and not deleted since, whose status was written ACTIVE last, and
whose next run time was written last with a time that has come.

## Main definitions

* `dbAfter` — the database after a run of calls.
* `historyOf` — the calls of a run that act on one rowid.
* `IsDue` — what the history says of a job that is due.

## Main results

* `rowOf_run` — **a row holds what the calls on its id wrote last.**
* `due_iff_history` — **`select_due_jobs` returns the ids that the history says are
  due**, each once.
-/

namespace JobScheduler

open History

/-! ### Runs of calls -/

/-- The database after a run of calls on the empty table. -/
def dbAfter (ops : List Op) : Db := ops.foldl (fun db op => (op.run db).2) Db.empty

theorem dbAfter_concat (ops : List Op) (op : Op) :
    dbAfter (ops ++ [op]) = (op.run (dbAfter ops)).2 := by
  rw [dbAfter, List.foldl_append]
  rfl

/-- The insertions of a run. -/
def insertions (ops : List Op) : ℕ := ops.countP fun op => op.Inserts

/-- The rowid that a call acts on, after `n` insertions. -/
def Op.actsOn (n : ℕ) (op : Op) : Int64 := op.stmt.rowid.getD (Int64.ofNat (n + 1))

/-- The calls of a run that act on a rowid, after `n` insertions. -/
def historyFrom (rowid : Int64) : ℕ → List Op → List Op
  | _, [] => []
  | n, op :: ops =>
    let rest := historyFrom rowid (if op.Inserts then n + 1 else n) ops
    if op.actsOn n = rowid then op :: rest else rest

/-- The calls of a run that act on a rowid. -/
def historyOf (rowid : Int64) (ops : List Op) : List Op := historyFrom rowid 0 ops

theorem historyFrom_concat (rowid : Int64) (op : Op) : ∀ (ops : List Op) (n : ℕ),
    historyFrom rowid n (ops ++ [op]) = historyFrom rowid n ops ++
      if op.actsOn (n + insertions ops) = rowid then [op] else [] := by
  intro ops
  induction ops with
  | nil => intro n; rfl
  | cons op' ops ih =>
    intro n
    have hcount : (if op'.Inserts then n + 1 else n) + insertions ops =
        n + insertions (op' :: ops) := by
      rw [insertions, insertions, List.countP_cons]
      split <;> simp_all
      omega
    simp only [List.cons_append, historyFrom]
    rw [ih, hcount]
    split <;> rfl

theorem historyOf_concat (rowid : Int64) (ops : List Op) (op : Op) :
    historyOf rowid (ops ++ [op]) = historyOf rowid ops ++
      if op.actsOn (insertions ops) = rowid then [op] else [] := by
  rw [historyOf, historyFrom_concat, Nat.zero_add]
  rfl

/-! ### What a row holds -/

/-- What a rowid finds after a run of `n` insertions with this history. -/
inductive RowOf (n : ℕ) (rowid : Int64) (h : List Op) : Option Row → Prop
  | absent (hopen : ¬ OpenSince Op.Inserts Op.Deletes h) : RowOf n rowid h none
  | present {r : Row} (status : Status) (hpos : 0 < rowid.toInt) (hle : rowid.toInt ≤ n)
    (hopen : OpenSince Op.Inserts Op.Deletes h)
    (hlast : lastWrite Op.wroteStatus h = some status)
    (hnext : lastWrite Op.wroteNextRunTime h = some r.nextRunTime)
    (hstatus : r.status = bindInt status.toInt) : RowOf n rowid h (some r)

/-- A call on another rowid leaves a row alone. -/
theorem Op.lookup_run_of_ne {op : Op} {db db' : Db} {n : ℕ} {rowid : Int64}
    (hs : op.stmt.step db = some db')
    (hk : ∀ k, db.table.nextRowid = some k → k = Int64.ofNat (n + 1))
    (hne : op.actsOn n ≠ rowid) : db'.table.lookup rowid = db.table.lookup rowid := by
  rw [Stmt.lookup_step hs]
  cases op with
  | insertJob job =>
    have hnext : db.table.nextRowid ≠ some rowid := fun h => hne (hk rowid h).symm
    simp only [Op.stmt, Stmt.rowAfter, if_neg hnext]
  | _ => exact Stmt.rowAfter_of_ne rfl (fun h => hne h.symm) db.table

/-- A new row holds what was inserted. -/
theorem rowOf_insert {db db' : Db} {n : ℕ} {rowid : Int64} {h : List Op} {job : Job}
    (hs : (Op.insertJob job).stmt.step db = some db')
    (hk : ∀ k, db.table.nextRowid = some k → k = Int64.ofNat (n + 1) ∧ k.toInt = n + 1)
    (hacts : (Op.insertJob job).actsOn n = rowid) :
    RowOf (n + 1) rowid (h ++ [Op.insertJob job]) (db'.table.lookup rowid) := by
  have hrowid : Int64.ofNat (n + 1) = rowid := hacts
  cases hnext : db.table.nextRowid with
  | none =>
    rw [Op.stmt, Stmt.step_insert_full hnext] at hs
    simp at hs
  | some k =>
    obtain ⟨rfl, hint⟩ := hk k hnext
    rw [hrowid] at hnext hint
    rw [Stmt.lookup_step hs]
    simp only [Op.stmt, Stmt.rowAfter, if_pos hnext]
    refine .present job.status (by omega) (by push_cast; omega)
      (openSince_concat.mpr (Or.inl trivial)) ?_ ?_ rfl
    · rw [lastWrite_concat]
      rfl
    · rw [lastWrite_concat]
      rfl

/-- A deleted row is gone. -/
theorem rowOf_delete {db db' : Db} {n : ℕ} {rowid : Int64} {h : List Op} {id : Int32}
    (hs : (Op.deleteJob id).stmt.step db = some db') (hacts : (Op.deleteJob id).actsOn n = rowid) :
    RowOf n rowid (h ++ [Op.deleteJob id]) (db'.table.lookup rowid) := by
  have hrowid : rowid = bindInt id := hacts.symm
  rw [Stmt.lookup_step hs]
  simp only [Op.stmt, Stmt.rowAfter, if_pos hrowid]
  apply RowOf.absent
  intro hopen
  rcases openSince_concat.mp hopen with hins | ⟨-, hdel⟩
  · exact hins
  · exact hdel trivial

/-- Any other call writes the row, if there is one. -/
theorem rowOf_update {op : Op} {n : ℕ} {rowid : Int64} {h : List Op} {row : Option Row}
    (hrow : RowOf n rowid h row) (hid : ∀ r ∈ row, r.id = rowid) (hins : ¬ op.Inserts)
    (hdel : ¬ op.Deletes) (hrowid : op.stmt.rowid = some rowid) :
    RowOf n rowid (h ++ [op])
      (row.map fun r => if op.stmt.whereClause r then op.stmt.setClause r else r) := by
  have hopen_iff : OpenSince Op.Inserts Op.Deletes (h ++ [op]) ↔
      OpenSince Op.Inserts Op.Deletes h := by
    rw [openSince_concat]
    simp [hins, hdel]
  cases hrow with
  | absent hopen => exact .absent (mt hopen_iff.mp hopen)
  | @present r status hpos hle hopen hlast hnext hstatus =>
    obtain ⟨h1, h2⟩ := Op.setClause_wrote hins hdel
      (show op.stmt.rowid = some r.id from (hid r rfl).symm ▸ hrowid)
    refine .present (op.wroteStatus.getD status) hpos hle (hopen_iff.mpr hopen) ?_ ?_ ?_
    · rw [lastWrite_concat, hlast]
      cases op.wroteStatus <;> rfl
    · rw [lastWrite_concat, hnext, h2]
      cases op.wroteNextRunTime <;> rfl
    · rw [h1]
      cases op.wroteStatus with
      | none => exact hstatus
      | some st => rfl

/-- **One more call**: a row holds what the calls on its id wrote last. -/
theorem rowOf_step {op : Op} {db db' : Db} {n : ℕ} {rowid : Int64} {h : List Op}
    (hrow : RowOf n rowid h (db.table.lookup rowid)) (hs : op.stmt.step db = some db')
    (hk : ∀ k, db.table.nextRowid = some k → k = Int64.ofNat (n + 1) ∧ k.toInt = n + 1) :
    RowOf (if op.Inserts then n + 1 else n) rowid
      (h ++ if op.actsOn n = rowid then [op] else []) (db'.table.lookup rowid) := by
  by_cases hacts : op.actsOn n = rowid
  · -- the call acts on this row, and the history grows by it
    rw [if_pos hacts]
    have hid : ∀ r ∈ db.table.lookup rowid, r.id = rowid :=
      fun r hr => (Table.lookup_eq_some_iff.mp hr).2
    cases op with
    | insertJob job => exact rowOf_insert hs hk hacts
    | deleteJob id => exact rowOf_delete hs hacts
    | _ =>
      rw [Stmt.lookup_step hs]
      exact rowOf_update hrow hid id id (congrArg some hacts)
  · -- it acts on another one
    rw [if_neg hacts, List.append_nil, Op.lookup_run_of_ne hs (fun k h => (hk k h).1) hacts]
    have hle : n ≤ if op.Inserts then n + 1 else n := by split <;> omega
    generalize db.table.lookup rowid = row at hrow
    cases hrow with
    | absent hopen => exact .absent hopen
    | present status hpos hrange hopen hlast hnext hstatus =>
      exact .present status hpos (by omega) hopen hlast hnext hstatus

/-! ### Whole runs -/

theorem insertions_concat (ops : List Op) (op : Op) :
    insertions (ops ++ [op]) = if op.Inserts then insertions ops + 1 else insertions ops := by
  rw [insertions, List.countP_append, List.countP_singleton]
  by_cases hins : op.Inserts <;> simp [hins, insertions]

/-- The next rowid counts the insertions. -/
theorem nextRowid_of_seq {t : Table} {n : ℕ} (hseq : t.seq.toInt = n) {k : Int64}
    (hk : t.nextRowid = some k) : k = Int64.ofNat (n + 1) ∧ k.toInt = n + 1 := by
  have hint : k.toInt = n + 1 := by rw [Table.toInt_nextRowid_seq hk, hseq]
  have hlt := Int64.toInt_lt k
  refine ⟨Int64.toInt_inj.mp ?_, hint⟩
  rw [hint, Int64.toInt_ofNat_of_lt (by omega)]
  rfl

/-- Every call completes, while the rowids are far from used up. -/
theorem Op.step_of_seq (op : Op) {db : Db} (hseq : db.table.seq.toInt < 2 ^ 63 - 1) :
    ∃ db', op.stmt.step db = some db' := by
  cases op with
  | insertJob job =>
    obtain ⟨k, hk⟩ := Table.exists_nextRowid hseq
    exact ⟨_, Stmt.step_insert hk⟩
  | _ => exact Stmt.step_of_rowid rfl db

theorem seq_of_step {op : Op} {db db' : Db} {n : ℕ} (hs : op.stmt.step db = some db')
    (hseq : db.table.seq.toInt = n) :
    db'.table.seq.toInt = (if op.Inserts then n + 1 else n : ℕ) := by
  cases op with
  | insertJob job =>
    cases hk : db.table.nextRowid with
    | none =>
      rw [Op.stmt, Stmt.step_insert_full hk] at hs
      simp at hs
    | some k =>
      rw [Op.stmt, Stmt.step_insert hk, Option.some.injEq] at hs
      subst hs
      exact (nextRowid_of_seq hseq hk).2
  | _ =>
    rw [Stmt.seq_step rfl hs]
    exact hseq

/-- **A row holds what the calls on its id wrote last**, after every run. -/
theorem rowOf_run (ops : List Op) (hfew : insertions ops < 2 ^ 31) :
    (dbAfter ops).table.seq.toInt = insertions ops ∧ ∀ rowid,
      RowOf (insertions ops) rowid (historyOf rowid ops) ((dbAfter ops).table.lookup rowid) := by
  induction ops using List.reverseRecOn with
  | nil => exact ⟨rfl, fun rowid => .absent (not_openSince_nil _ _)⟩
  | append_singleton ops op ih =>
    -- the run so far keeps the bound on the insertions, so the last call completes
    have hle : insertions ops ≤ insertions (ops ++ [op]) := by
      rw [insertions_concat]
      split <;> omega
    obtain ⟨hseq, hrows⟩ := ih (by omega)
    obtain ⟨db', hs⟩ := op.step_of_seq (show (dbAfter ops).table.seq.toInt < 2 ^ 63 - 1 by omega)
    have hdb : dbAfter (ops ++ [op]) = db' := by
      rw [dbAfter_concat, Op.snd_run, hs]
      rfl
    rw [hdb, insertions_concat]
    refine ⟨seq_of_step hs hseq, ?_⟩
    intro rowid
    rw [historyOf_concat]
    exact rowOf_step (hrows rowid) hs fun k hk => nextRowid_of_seq hseq hk

/-- The insertion after `n` others returns the id `n + 1`, which is the rowid that the
history gives it. -/
theorem fst_run_insertJob {ops : List Op} (hfew : insertions ops < 2 ^ 31) (job : Job) :
    ((Op.insertJob job).run (dbAfter ops)).1 =
      .id ((Op.insertJob job).actsOn (insertions ops)).toInt32 := by
  obtain ⟨hseq, -⟩ := rowOf_run ops hfew
  obtain ⟨k, hk⟩ := Table.exists_nextRowid (t := (dbAfter ops).table) (by omega)
  obtain ⟨rfl, -⟩ := nextRowid_of_seq hseq hk
  rw [Op.run, insertJob_ok job hk]
  rfl

/-- The history says that the job is due: it was inserted and not deleted since, ACTIVE
was written last, and so was a time that has come. -/
structure IsDue (now : Int64) (h : List Op) : Prop where
  live : OpenSince Op.Inserts Op.Deletes h
  active : lastWrite Op.wroteStatus h = some .active
  time : ∃ t, lastWrite Op.wroteNextRunTime h = some t ∧ t ≤ now

/-- A row is due when its history says so. -/
theorem isDue_iff {n : ℕ} {rowid now : Int64} {h : List Op} {row : Option Row}
    (hrow : RowOf n rowid h row) : (∃ r ∈ row, isDue now r = true) ↔ IsDue now h := by
  cases hrow with
  | absent hopen =>
    constructor
    · rintro ⟨r, hr, -⟩
      simp at hr
    · rintro ⟨hlive, -, -⟩
      exact absurd hlive hopen
  | @present r status hpos hle hopen hlast hnext hstatus =>
    have hactive : r.status = bindInt Status.active.toInt ↔ status = .active := by
      rw [hstatus, bindInt_inj]
      exact Status.toInt_eq_zero_iff
    constructor
    · rintro ⟨r', hr', hdue⟩
      obtain rfl := Option.some.inj hr'
      rw [isDue, Bool.and_eq_true, decide_eq_true_eq, decide_eq_true_eq] at hdue
      exact ⟨hopen, hactive.mp hdue.1 ▸ hlast, _, hnext, hdue.2⟩
    · rintro ⟨-, hactive', t, ht, hle⟩
      rw [hlast, Option.some.injEq] at hactive'
      rw [hnext, Option.some.injEq] at ht
      refine ⟨r, rfl, ?_⟩
      rw [isDue, Bool.and_eq_true, decide_eq_true_eq, decide_eq_true_eq]
      exact ⟨hactive.mpr hactive', show r.nextRunTime ≤ now from ht ▸ hle⟩

/-- The rowids of a run with fewer than 2^31 insertions fit an `int`. -/
theorem fitsInt_of_rowOf {n : ℕ} {rowid : Int64} {h : List Op} {r : Row} (hn : n < 2 ^ 31)
    (hrow : RowOf n rowid h (some r)) : FitsInt rowid := by
  cases hrow with
  | present status hpos hle => exact ⟨by omega, by omega⟩

/-- Every id that such a run leaves in the table fits an `int`. -/
theorem fitsInt_of_mem {ops : List Op} (hfew : insertions ops < 2 ^ 31) {r : Row}
    (hr : r ∈ (dbAfter ops).table.rows) : FitsInt r.id := by
  obtain ⟨-, hrows⟩ := rowOf_run ops hfew
  have hlookup := Table.lookup_eq_some_iff.mpr ⟨hr, rfl⟩
  exact fitsInt_of_rowOf hfew (hlookup ▸ hrows r.id)

/-- **The due jobs are those that the history says are due**, each once. -/
theorem due_iff_history {ops : List Op} (hfew : insertions ops < 2 ^ 31) (now : Int64) :
    (∀ id : Int32, id ∈ (selectDueJobs (dbAfter ops) now .complete).map Job.id ↔
      IsDue now (historyOf (bindInt id) ops)) ∧
      ((selectDueJobs (dbAfter ops) now .complete).map Job.id).Nodup := by
  obtain ⟨-, hrows⟩ := rowOf_run ops hfew
  have hfits : ∀ r ∈ (dbAfter ops).table.rows.filter (isDue now), FitsInt r.id :=
    fun r hr => fitsInt_of_mem hfew (List.mem_filter.mp hr).1
  have hids : (selectDueJobs (dbAfter ops) now .complete).map Job.id =
      ((dbAfter ops).table.rows.filter (isDue now)).map fun r => columnInt r.id := by
    simp only [selectDueJobs, ScanOutcome.deliver, List.map_map]
    rfl
  rw [hids]
  constructor
  · intro id
    rw [← isDue_iff (hrows (bindInt id)), mem_map_columnInt hfits]
    constructor
    · rintro ⟨r, hr, hid⟩
      obtain ⟨hmem, hdue⟩ := List.mem_filter.mp hr
      exact ⟨r, Table.lookup_eq_some_iff.mpr ⟨hmem, hid⟩, hdue⟩
    · rintro ⟨r, hr, hdue⟩
      obtain ⟨hmem, hid⟩ := Table.lookup_eq_some_iff.mp hr
      exact ⟨r, List.mem_filter.mpr ⟨hmem, hdue⟩, hid⟩
  · refine nodup_map_columnInt ?_ hfits
    exact (List.filter_sublist.map Row.id).nodup (dbAfter ops).table.nodup

/-- A job inserted ACTIVE for the time 0, paused, resumed, and moved on to 7. -/
def resumedOps : List Op :=
  [.insertJob default, .pauseJob 1, .resumeJob 1, .updateNextRunTime 1 7]

theorem due_iff_history_resumed :
    (∀ id : Int32, id ∈ (selectDueJobs (dbAfter resumedOps) 7 .complete).map Job.id ↔
      IsDue 7 (historyOf (bindInt id) resumedOps)) ∧
      (selectDueJobs (dbAfter resumedOps) 7 .complete).map Job.id = [1] ∧
      ((selectDueJobs (dbAfter resumedOps) 7 .complete).map Job.id).Nodup := by
  obtain ⟨hdue, hnodup⟩ := due_iff_history (show insertions resumedOps < 2 ^ 31 by decide) 7
  exact ⟨hdue, by decide +kernel, hnodup⟩

end JobScheduler
