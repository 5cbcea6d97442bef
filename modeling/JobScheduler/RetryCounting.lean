import JobScheduler.Calls

/-!
# Counting retries

`increment_retry_count` reads, tests and writes `retry_count` in one `UPDATE`, so however the
statements of the clients interleave they take effect one after the other.

## Main definitions

* `runStmts` — the database after a sequence of statements.
* `Stmt.KeepsCount` — the statement neither writes the retry count of a row nor deletes it,
  unless it is the increment.
* `effectiveIncrements` — how many of the increments of a row change it.
* `CountsTo` — the retry count saturates, and no increment below the bound is lost.

## Main results

* `retry_counting` — **retry counting saturates and loses nothing.**
* `table_run_eq` — **however calls interleave**, the table is that after the statements they have
  completed, in order.
-/

namespace JobScheduler

open Interleave

/-! ### Sequences of statements -/

/-- The database after a statement; one that cannot be done leaves it alone. -/
def Stmt.exec (s : Stmt) (db : Db) : Db := (s.step db).getD db

/-- The database after a sequence of statements. -/
def runStmts (db : Db) (stmts : List Stmt) : Db := stmts.foldl (fun db s => s.exec db) db

@[simp] theorem runStmts_nil (db : Db) : runStmts db [] = db := rfl

@[simp] theorem runStmts_cons (db : Db) (s : Stmt) (stmts : List Stmt) :
    runStmts db (s :: stmts) = runStmts (s.exec db) stmts := rfl

theorem Stmt.table_exec_congr {db db' : Db} (h : db.table = db'.table) (s : Stmt) :
    (s.exec db).table = (s.exec db').table := by
  have hstep := Stmt.step_congr h s
  rw [exec, exec]
  cases hdb : s.step db <;> cases hdb' : s.step db' <;> simp_all

/-- The registers make no difference to the table. -/
theorem table_runStmts {db db' : Db} (h : db.table = db'.table) (stmts : List Stmt) :
    (runStmts db stmts).table = (runStmts db' stmts).table := by
  induction stmts generalizing db db' with
  | nil => exact h
  | cons s stmts ih => exact ih (Stmt.table_exec_congr h s)

/-- The statement is no `DELETE` of the row, no full `UPDATE` and no reset of it. -/
def Stmt.KeepsCount (id : Int64) : Stmt → Prop
  | .delete id' | .update _ id' | .resetRetryCount id' => id' ≠ id
  | _ => True

instance (id : Int64) (s : Stmt) : Decidable (s.KeepsCount id) := by
  unfold Stmt.KeepsCount
  split <;> infer_instance

/-- How many of the increments of the row change it. -/
def effectiveIncrements (id : Int64) : Db → List Stmt → ℕ
  | _, [] => 0
  | db, s :: stmts =>
    (if s = .incrementRetryCount id ∧ (s.exec db).table.lookup id ≠ db.table.lookup id then 1
      else 0) + effectiveIncrements id (s.exec db) stmts

/-- With `n` increments of the row among the statements, `k = min n (max 0 (m - r))` of them
change it, and its retry count grows from `r` by `k`. -/
structure CountsTo (id : Int64) (db : Db) (stmts : List Stmt) (r m : ℤ) : Prop where
  effective : (effectiveIncrements id db stmts : ℤ) =
    min (stmts.count (.incrementRetryCount id) : ℤ) (max 0 (m - r))
  final : ∃ row, (runStmts db stmts).table.lookup id = some row ∧
    row.retryCount.toInt = r + min (stmts.count (.incrementRetryCount id) : ℤ) (max 0 (m - r))

/-! ### One statement -/

/-- What a statement leaves under a rowid, whether it can be done or not. -/
theorem Stmt.lookup_exec (s : Stmt) (db : Db) (id : Int64) :
    (s.exec db).table.lookup id = s.rowAfter db.table id := by
  rw [exec]
  cases hs : s.step db with
  | some db' => exact Stmt.lookup_step hs id
  | none =>
    -- only an `INSERT` can be refused, when no rowid is left
    cases s with
    | insert p =>
      cases hk : db.table.nextRowid with
      | none => simp [rowAfter, hk]
      | some k => simp [step_insert hk] at hs
    | _ => simp [step] at hs

section

variable {id : Int64} {db : Db} {row : Row}

/-- **The increment** is tested and done at once. -/
theorem lookup_exec_increment (hrow : db.table.lookup id = some row) :
    ((Stmt.incrementRetryCount id).exec db).table.lookup id =
      some (if row.retryCount < row.maxRetries then { row with retryCount := row.retryCount + 1 }
        else row) := by
  have hid : row.id = id := (Table.lookup_eq_some_iff.mp hrow).2
  simp only [Stmt.lookup_exec, Stmt.rowAfter, hrow, Option.map_some, Stmt.whereClause,
    Stmt.setClause, hid, decide_true, Bool.true_and, decide_eq_true_eq]

/-- The reset leaves the bound alone. -/
theorem lookup_exec_reset (hrow : db.table.lookup id = some row) :
    ((Stmt.resetRetryCount id).exec db).table.lookup id =
      some { row with retryCount := 0 } := by
  have hid : row.id = id := (Table.lookup_eq_some_iff.mp hrow).2
  simp only [Stmt.lookup_exec, Stmt.rowAfter, hrow, Option.map_some, Stmt.whereClause,
    Stmt.setClause, hid, decide_true, if_true]

/-- **Any other statement** that may stand in such a sequence leaves the row its count and
its bound. -/
theorem lookup_exec_of_ne {s : Stmt} (hrow : db.table.lookup id = some row)
    (hkeep : s.KeepsCount id) (hne : s ≠ .incrementRetryCount id) :
    ∃ row', (s.exec db).table.lookup id = some row' ∧ row'.retryCount = row.retryCount ∧
      row'.maxRetries = row.maxRetries := by
  -- a statement that names another row
  have hother : ∀ id', s.rowid = some id' → id' ≠ id → (s.exec db).table.lookup id = some row := by
    intro id' hrowid hid
    rw [Stmt.lookup_exec, Stmt.rowAfter_of_ne hrowid (Ne.symm hid), hrow]
  have hsame : (s.exec db).table.lookup id = some row → ∃ row',
      (s.exec db).table.lookup id = some row' ∧ row'.retryCount = row.retryCount ∧
        row'.maxRetries = row.maxRetries := fun h => ⟨row, h, rfl, rfl⟩
  cases s with
  | insert p =>
    -- the new row is not this one
    have hnew : db.table.nextRowid ≠ some id := by
      intro hk
      rw [Table.lookup_nextRowid hk] at hrow
      simp at hrow
    exact hsame (by rw [Stmt.lookup_exec, Stmt.rowAfter, if_neg hnew, hrow])
  | delete id' => exact hsame (hother id' rfl hkeep)
  | update p id' => exact hsame (hother id' rfl hkeep)
  | resetRetryCount id' => exact hsame (hother id' rfl hkeep)
  | incrementRetryCount id' =>
    exact hsame (hother id' rfl fun hid => hne (congrArg Stmt.incrementRetryCount hid))
  | setStatus status id' =>
    refine ⟨_, by simp only [Stmt.lookup_exec, Stmt.rowAfter, hrow, Option.map_some]; rfl, ?_⟩
    split <;> exact ⟨rfl, rfl⟩
  | setNextRunTime next id' =>
    refine ⟨_, by simp only [Stmt.lookup_exec, Stmt.rowAfter, hrow, Option.map_some]; rfl, ?_⟩
    split <;> exact ⟨rfl, rfl⟩

/-- Below a bound of 64 bits, one more does not wrap. -/
theorem toInt_retryCount_succ (h : row.retryCount < row.maxRetries) :
    (row.retryCount + 1).toInt = row.retryCount.toInt + 1 := by
  have hmax := Int64.toInt_lt row.maxRetries
  have hmin := Int64.le_toInt row.retryCount
  rw [Int64.lt_iff_toInt_lt] at h
  rw [Int64.toInt_add, Int64.toInt_one, Int.bmod_eq_of_le] <;> omega

end

/-! ### Any number of statements -/

section

variable {id : Int64} {db : Db} {row : Row} {stmts : List Stmt}

/-- An increment in front counts, if the row is below its bound. -/
theorem countsTo_cons_increment (hrow : db.table.lookup id = some row)
    (ih : ∀ row', ((Stmt.incrementRetryCount id).exec db).table.lookup id = some row' →
      CountsTo id ((Stmt.incrementRetryCount id).exec db) stmts row'.retryCount.toInt
        row'.maxRetries.toInt) :
    CountsTo id db (.incrementRetryCount id :: stmts) row.retryCount.toInt
      row.maxRetries.toInt := by
  have hafter := lookup_exec_increment hrow
  by_cases hlt : row.retryCount < row.maxRetries
  · rw [if_pos hlt] at hafter
    obtain ⟨heffective, row', hfinal, hcount⟩ := ih _ hafter
    have hsucc := toInt_retryCount_succ hlt
    have hchanged : ((Stmt.incrementRetryCount id).exec db).table.lookup id ≠
        db.table.lookup id := by
      rw [hafter, hrow]
      intro heq
      have hsame : row.retryCount + 1 = row.retryCount :=
        congrArg Row.retryCount (Option.some.inj heq)
      rw [hsame] at hsucc
      omega
    rw [Int64.lt_iff_toInt_lt] at hlt
    simp only [hsucc] at heffective hcount
    constructor
    · rw [effectiveIncrements, if_pos ⟨rfl, hchanged⟩, List.count_cons_self]
      push_cast
      omega
    · refine ⟨row', hfinal, ?_⟩
      rw [List.count_cons_self, hcount]
      push_cast
      omega
  · -- at its bound or above, the row stays as it is
    rw [if_neg hlt] at hafter
    obtain ⟨heffective, row', hfinal, hcount⟩ := ih _ hafter
    rw [Int64.lt_iff_toInt_lt] at hlt
    constructor
    · rw [effectiveIncrements, if_neg fun h => h.2 (hafter.trans hrow.symm), List.count_cons_self]
      push_cast
      omega
    · refine ⟨row', hfinal, ?_⟩
      rw [List.count_cons_self, hcount]
      push_cast
      omega

/-- Any other statement in front does not. -/
theorem countsTo_cons_of_ne {s : Stmt} (hrow : db.table.lookup id = some row)
    (hkeep : s.KeepsCount id) (hne : s ≠ .incrementRetryCount id)
    (ih : ∀ row', (s.exec db).table.lookup id = some row' →
      CountsTo id (s.exec db) stmts row'.retryCount.toInt row'.maxRetries.toInt) :
    CountsTo id db (s :: stmts) row.retryCount.toInt row.maxRetries.toInt := by
  obtain ⟨row', hafter, hsame, hbound⟩ := lookup_exec_of_ne hrow hkeep hne
  obtain ⟨heffective, row'', hfinal, hcount⟩ := ih _ hafter
  rw [hsame, hbound] at heffective hcount
  constructor
  · rw [effectiveIncrements, if_neg fun h => hne h.1, List.count_cons_of_ne hne, zero_add]
    exact heffective
  · rw [List.count_cons_of_ne hne]
    exact ⟨row'', hfinal, hcount⟩

end

/-- Where a sequence keeps the count but for increments, these count up to the bound. -/
theorem countsTo_of_keepsCount {id : Int64} {stmts : List Stmt}
    (hkeep : ∀ s ∈ stmts, s.KeepsCount id) {db : Db} {row : Row}
    (hrow : db.table.lookup id = some row) :
    CountsTo id db stmts row.retryCount.toInt row.maxRetries.toInt := by
  induction stmts generalizing db row with
  | nil =>
    constructor
    · simp [effectiveIncrements]
    · exact ⟨row, hrow, by simp⟩
  | cons s stmts ih =>
    rw [List.forall_mem_cons] at hkeep
    by_cases hs : s = .incrementRetryCount id
    · subst hs
      exact countsTo_cons_increment hrow fun row' hrow' => ih hkeep.2 hrow'
    · exact countsTo_cons_of_ne hrow hkeep.1 hs fun row' hrow' => ih hkeep.2 hrow'

/-- **Retry counting saturates and loses nothing**: from the count that the row has, and from
0 after a reset. -/
theorem retry_counting {id : Int64} {db : Db} {row : Row} (hrow : db.table.lookup id = some row)
    {stmts : List Stmt} (hkeep : ∀ s ∈ stmts, s.KeepsCount id) :
    CountsTo id db stmts row.retryCount.toInt row.maxRetries.toInt ∧
      CountsTo id ((Stmt.resetRetryCount id).exec db) stmts 0 row.maxRetries.toInt :=
  ⟨countsTo_of_keepsCount hkeep hrow, countsTo_of_keepsCount hkeep (lookup_exec_reset hrow)⟩

/-- Of two increments of a row whose bound is 1 the first changes it, before a reset and
after. -/
theorem retry_counting_two :
    let db := (insertJob Db.empty { (default : Job) with maxRetries := 1 } .ok).2
    let stmts : List Stmt := [.incrementRetryCount 1, .setStatus 1 1, .incrementRetryCount 1]
    CountsTo 1 db stmts 0 1 ∧ CountsTo 1 ((Stmt.resetRetryCount 1).exec db) stmts 0 1 := by
  intro db stmts
  have hrow : db.table.lookup 1 =
      some ((insertParams { (default : Job) with maxRetries := 1 }).toRow 1) := by decide
  exact retry_counting hrow (by decide)

/-! ### Interleaved calls -/

section

variable {ι : Type*} [DecidableEq ι]

/-- The statements that a run completes, in order. -/
def completedStmts : Calls ι → List (ι × Option Failure) → List Stmt
  | _, [] => []
  | c, m :: moves =>
    (if completes (c.threads m.1) m.2 c.shared then [(c.threads m.1).stmt] else []) ++
      completedStmts (c.step CallState.next m) moves

/-- **However calls interleave**, the table is that after the statements they have
completed, in order. -/
theorem table_run_eq (moves : List (ι × Option Failure)) : ∀ c : Calls ι,
    (c.run CallState.next moves).shared.table =
      (runStmts c.shared (completedStmts c moves)).table := by
  induction moves with
  | nil => intro c; rfl
  | cons m moves ih =>
    intro c
    rw [run_cons, ih, shared_step, completedStmts]
    rcases next_cases (c.threads m.1) m.2 c.shared with
      ⟨s, db', ht, he, hs, hnext⟩ | ⟨hnot, htable⟩
    · rw [hnext, if_pos (by rw [ht, he, completes, hs]; rfl), List.singleton_append,
        runStmts_cons, ht, Stmt.exec, CallState.stmt, hs, Option.getD_some]
    · rw [if_neg hnot, List.nil_append]
      exact table_runStmts htable _

/-- **Increments of interleaved calls** are not lost, and none overshoots. -/
theorem interleaved_retries {c : Calls ι} {id : Int64} {row : Row}
    (hrow : c.shared.table.lookup id = some row)
    {moves : List (ι × Option Failure)}
    (hkeep : ∀ s ∈ completedStmts c moves, s.KeepsCount id) :
    ∃ row', (c.run CallState.next moves).shared.table.lookup id = some row' ∧
      row'.retryCount.toInt = row.retryCount.toInt +
        min ((completedStmts c moves).count (.incrementRetryCount id) : ℤ)
          (max 0 (row.maxRetries.toInt - row.retryCount.toInt)) := by
  rw [table_run_eq]
  exact (countsTo_of_keepsCount hkeep hrow).final

end

end JobScheduler
