import JobScheduler.Database
import JobScheduler.Lib.Interleave
import Mathlib.Logic.Function.Iterate

/-!
# Repository calls, one SQLite call at a time

The server runs its handlers on several threads over one connection, so the
`sqlite3_*` calls of two repository functions may interleave.  In serialized mode
each of them is atomic.  A repository call is a small machine: prepare, bind the
parameters, step, finalize, and read the connection's register, which is
`sqlite3_last_insert_rowid` for `insert_job` and `sqlite3_changes` for the rest.

`update_job_status` reads no register and stays out of this module.

## Main definitions

* `Failure` — how an SQLite call fails, and what a step that fails leaves in the registers.
* `CallState`, `CallState.next` — the machine; each call also remembers what its
  own statement did (`Effect`), which the code does not.
* `changesWindow`, `rowidWindow` — the two registers as window protocols.

## Main results

* `run_solo` — a call left alone returns what the sequential function returns.
* `own_changes`, `own_rowid` — **what a call returns is its own statement's doing**
  as long as no other thread changes the register inside its window.
-/

namespace JobScheduler

open Interleave

/-- What a call's own statement did: the rows it changed, and for an `INSERT` the
rowid it gave. -/
structure Effect where
  changed : ℕ
  rowid : Option Int64
  deriving DecidableEq

/-- Whether the statement is the one of `insert_job`, which returns an id. -/
def Stmt.isInsert : Stmt → Bool
  | .insert _ => true
  | _ => false

/-- How far a statement has come when its step fails. -/
inductive Progress
  /-- Its program has not been started. -/
  | prepared
  | started
  /-- An `INSERT` has put its row in, and fails where it commits. -/
  | inserted
  deriving DecidableEq

/-- How an SQLite call fails: the code of a preparation, the progress of a step. -/
structure Failure where
  rc : {rc : Int32 // rc ≠ sqliteOk}
  progress : Progress

/-- What a step that fails leaves.  The table is rolled back; a program that was started has set
`sqlite3_changes` to 0 as it halted, and a row that was put in has left its rowid. -/
def Stmt.failed (s : Stmt) (db : Db) : Progress → Db
  | .prepared => db
  | .started => { db with changes := 0 }
  | .inserted =>
    { db with
      changes := 0
      lastInsertRowid :=
        if s.isInsert then db.table.nextRowid.getD db.lastInsertRowid else db.lastInsertRowid }

@[simp] theorem Stmt.table_failed (s : Stmt) (db : Db) (p : Progress) :
    (s.failed db p).table = db.table := by
  cases p <;> rfl

/-- Where a repository call stands. -/
inductive CallState
  /-- About to call `sqlite3_prepare_v2`. -/
  | calling (s : Stmt)
  /-- Prepared, with `n` parameters still to bind; about to step when `n = 0`. -/
  | prepared (s : Stmt) (n : ℕ)
  /-- Stepped, about to finalize; `own` is missing when the step failed. -/
  | finalizing (s : Stmt) (own : Option Effect)
  /-- Finalized, about to read the connection's register. -/
  | reading (s : Stmt) (own : Effect)
  /-- Returned. -/
  | returned (s : Stmt) (r : Ret) (own : Option Effect)
  deriving DecidableEq

/-- The statement of a call. -/
def CallState.stmt : CallState → Stmt
  | .calling s | .prepared s _ | .finalizing s _ | .reading s _ | .returned s _ _ => s

/-- The number of parameters a statement has. -/
def Stmt.params : Stmt → ℕ
  | .insert _ => 9
  | .delete _ => 1
  | .update _ _ => 10
  | .setStatus _ _ => 2
  | .setNextRunTime _ _ => 2
  | .incrementRetryCount _ => 1
  | .resetRetryCount _ => 1

/-- What a call returns when its preparation fails with code `rc`. -/
def Stmt.prepareFailed (s : Stmt) (rc : Int32) : Ret :=
  if s.isInsert then .id rc else .flag false

/-- What a call returns when its step fails. -/
def Stmt.stepFailed (s : Stmt) : Ret := if s.isInsert then .id (-1) else .flag false

/-- What a call makes of the connection's registers. -/
def Stmt.readBack (s : Stmt) (db : Db) : Ret :=
  if s.isInsert then .id db.lastInsertRowid.toInt32 else .flag (db.changes ≠ 0)

/-- What the statement did, on the way from `db` to `db'`. -/
def Stmt.effect (s : Stmt) (db db' : Db) : Effect :=
  { changed := s.affected db.table
    rowid := if s.isInsert then some db'.lastInsertRowid else none }

/-- The next SQLite call of a repository call.  The answer `none` lets it succeed;
a failure is that of a preparation or a step, and is not looked at elsewhere. -/
def CallState.next : CallState → Option Failure → Db → CallState × Db
  | .calling s, none, db => (.prepared s s.params, db)
  | .calling s, some f, db => (.returned s (s.prepareFailed f.rc) none, db)
  | .prepared s (n + 1), _, db => (.prepared s n, db)
  | .prepared s 0, none, db =>
    match s.step db with
    | none => (.finalizing s none, s.failed db .started)
    | some db' => (.finalizing s (some (s.effect db db')), db')
  | .prepared s 0, some f, db => (.finalizing s none, s.failed db f.progress)
  | .finalizing s none, _, db => (.returned s s.stepFailed none, db)
  | .finalizing s (some own), _, db => (.reading s own, db)
  | .reading s own, _, db => (.returned s (s.readBack db) (some own), db)
  | .returned s r own, _, db => (.returned s r own, db)

@[simp] theorem CallState.stmt_next (t : CallState) (e : Option Failure)
    (db : Db) : (t.next e db).1.stmt = t.stmt := by
  match t, e with
  | .prepared s 0, none => cases hs : s.step db <;> simp [next, hs, stmt]
  | .calling s, none | .calling s, some f | .prepared s (n + 1), _ | .prepared s 0, some _
  | .finalizing s none, _ | .finalizing s (some own), _ | .reading s own, _
  | .returned s r own, _ => rfl

/-- A configuration of threads, each inside one repository call. -/
abbrev Calls (ι : Type*) := Config ι Db CallState

/-- The steps that complete a statement. -/
def completes : CallState → Option Failure → Db → Prop
  | .prepared s 0, none, db => (s.step db).isSome
  | _, _, _ => False

instance (t : CallState) (e : Option Failure) (db : Db) :
    Decidable (completes t e db) := by
  unfold completes
  split <;> infer_instance

/-- **What one SQLite call does**: it completes a statement, or it leaves the table
alone. -/
theorem next_cases (t : CallState) (e : Option Failure) (db : Db) :
    (∃ s db', t = .prepared s 0 ∧ e = none ∧ s.step db = some db' ∧
      t.next e db = (.finalizing s (some (s.effect db db')), db')) ∨
    (¬ completes t e db ∧ (t.next e db).2.table = db.table) := by
  match t, e with
  | .prepared s 0, none =>
    cases h : s.step db with
    | none => exact Or.inr ⟨by simp [completes, h], by simp [CallState.next, h]⟩
    | some db' => exact Or.inl ⟨s, db', rfl, rfl, h, by simp [CallState.next, h]⟩
  | .calling s, none => exact Or.inr ⟨id, rfl⟩
  | .calling s, some f => exact Or.inr ⟨id, rfl⟩
  | .prepared s (n + 1), _ => exact Or.inr ⟨id, rfl⟩
  | .prepared s 0, some f => exact Or.inr ⟨id, s.table_failed db f.progress⟩
  | .finalizing s none, _ => exact Or.inr ⟨id, rfl⟩
  | .finalizing s (some own), _ => exact Or.inr ⟨id, rfl⟩
  | .reading s own, _ => exact Or.inr ⟨id, rfl⟩
  | .returned s r own, _ => exact Or.inr ⟨id, rfl⟩

/-! ### A call left alone -/

/-- One SQLite call of a repository call that no other thread interrupts. -/
def soloStep (x : CallState × Db) : CallState × Db := x.1.next none x.2

/-- Binding the parameters leaves the database alone. -/
private theorem soloStep_bind (s : Stmt) (db : Db) : ∀ n : ℕ,
    soloStep^[n] (.prepared s n, db) = (.prepared s 0, db) := by
  intro n
  induction n with
  | zero => rfl
  | succ n ih => exact ih

private theorem soloStep_call (s : Stmt) (db : Db) :
    soloStep^[s.params + 4] (.calling s, db) = soloStep^[3] (.prepared s 0, db) :=
  calc soloStep^[s.params + 4] (.calling s, db)
      = soloStep^[3 + s.params] (.prepared s s.params, db) := by rw [Nat.add_comm 3]; rfl
    _ = soloStep^[3] (soloStep^[s.params] (.prepared s s.params, db)) :=
      Function.iterate_add_apply ..
    _ = soloStep^[3] (.prepared s 0, db) := by rw [soloStep_bind]

/-- **The machine refines to the sequential functions**: a call that no other
thread interrupts, with every SQLite call succeeding, returns what the function
returns and leaves the same table. -/
theorem run_solo (op : Op) (db : Db) (hop : ∀ id st, op ≠ .updateJobStatus id st) :
    ∃ own db', soloStep^[op.stmt.params + 4] (.calling op.stmt, db) =
      (.returned op.stmt (op.run db).1 own, db') ∧ db'.table = (op.run db).2.table := by
  rw [soloStep_call]
  cases hs : op.stmt.step db with
  | none =>
    -- only an `INSERT` can be refused
    have hsolo : soloStep^[3] (.prepared op.stmt 0, db) =
        (.returned op.stmt op.stmt.stepFailed none, op.stmt.failed db .started) := by
      simp [soloStep, CallState.next, hs]
    rw [hsolo]
    refine ⟨none, op.stmt.failed db .started, ?_⟩
    cases op with
    | updateJobStatus id st => exact absurd rfl (hop id st)
    | insertJob job =>
      rw [Op.stmt] at hs
      simp [Op.run, insertJob, hs, Stmt.stepFailed, Op.stmt, Stmt.isInsert]
    | _ => simp [Op.stmt, Stmt.step] at hs
  | some db' =>
    have hsolo : soloStep^[3] (.prepared op.stmt 0, db) =
        (.returned op.stmt (op.stmt.readBack db') (some (op.stmt.effect db db')), db') := by
      simp [soloStep, CallState.next, hs]
    rw [hsolo]
    refine ⟨some (op.stmt.effect db db'), db', ?_⟩
    cases op with
    | updateJobStatus id st => exact absurd rfl (hop id st)
    | insertJob job =>
      rw [Op.stmt] at hs
      simp [Op.run, insertJob, hs, Stmt.readBack, Op.stmt, Stmt.isInsert]
    | _ =>
      rw [Op.stmt] at hs
      simp [Op.run, deleteJob, updateJob, pauseJob, resumeJob, updateNextRunTime,
        incrementRetryCount, resetRetryCount, mutate, hs, Stmt.readBack, Op.stmt, Stmt.isInsert]

/-! ### The two registers -/

theorem lastInsertRowid_step {s : Stmt} {db db' : Db} (hs : s.isInsert = false)
    (h : s.step db = some db') : db'.lastInsertRowid = db.lastInsertRowid := by
  cases s with
  | insert p => simp [Stmt.isInsert] at hs
  | _ => simp only [Stmt.step, Option.some.injEq] at h; subst h; rfl

/-- Whether the call's own statement changed a row, from its step to its read of
`sqlite3_changes`.  `insert_job` reads another register. -/
def changesSeen : CallState → Option Bool
  | .finalizing s (some own) | .reading s own =>
    if s.isInsert then none else some (decide (own.changed ≠ 0))
  | _ => none

/-- The rowid of the call's own row, from its step to its read of
`sqlite3_last_insert_rowid`. -/
def rowidSeen : CallState → Option Int64
  | .finalizing s (some own) | .reading s own => if s.isInsert then own.rowid else none
  | _ => none

/-- The steps that write `sqlite3_changes`: every one of a statement, but for one that fails
before its program is started. -/
def writesChanges : CallState → Option Failure → Prop
  | .prepared _ 0, none => True
  | .prepared _ 0, some f => f.progress ≠ .prepared
  | _, _ => False

instance (t : CallState) (e : Option Failure) : Decidable (writesChanges t e) := by
  unfold writesChanges
  split <;> infer_instance

/-- The steps that write `sqlite3_last_insert_rowid`: those of an `INSERT` that puts its row in,
also where it fails after that. -/
def writesRowid : CallState → Option Failure → Db → Prop
  | .prepared s 0, none, db => s.isInsert = true ∧ (s.step db).isSome
  | .prepared s 0, some f, _ => s.isInsert = true ∧ f.progress = .inserted
  | _, _, _ => False

instance (t : CallState) (e : Option Failure) (db : Db) : Decidable (writesRowid t e db) := by
  unfold writesRowid
  split <;> infer_instance

/-- A register is written by the step of a statement. -/
theorem writesChanges_step {t : CallState} {e : Option Failure} (h : writesChanges t e) :
    ∃ s, t = .prepared s 0 := by
  cases t with
  | prepared s n =>
    cases n with
    | zero => exact ⟨s, rfl⟩
    | succ n => exact h.elim
  | _ => exact h.elim

theorem writesRowid_step {t : CallState} {e : Option Failure} {db : Db}
    (h : writesRowid t e db) : ∃ s, t = .prepared s 0 := by
  cases t with
  | prepared s n =>
    cases n with
    | zero => exact ⟨s, rfl⟩
    | succ n => exact h.elim
  | _ => exact h.elim

/-- A statement that completes without writing the last rowid is no `INSERT`. -/
theorem isInsert_of_not_writesRowid {s : Stmt} {db db' : Db}
    (h : ¬ writesRowid (.prepared s 0) none db) (hs : s.step db = some db') :
    s.isInsert = false := by
  rw [← Bool.not_eq_true]
  exact fun hins => h ⟨hins, by simp [hs]⟩

/-- A step that fails writes the last rowid where an `INSERT` has put its row in. -/
theorem Stmt.lastInsertRowid_failed {s : Stmt} {p : Progress}
    (h : ¬ (s.isInsert = true ∧ p = .inserted)) (db : Db) :
    (s.failed db p).lastInsertRowid = db.lastInsertRowid := by
  cases p with
  | prepared => rfl
  | started => rfl
  | inserted => exact if_neg fun hins => h ⟨hins, rfl⟩

/-- A call that is not at its step leaves the registers alone. -/
theorem next_of_ne_step {t : CallState} (h : ∀ s, t ≠ .prepared s 0) (e : Option Failure)
    (db : Db) : (t.next e db).2 = db := by
  cases t with
  | calling s => cases e <;> rfl
  | prepared s n =>
    cases n with
    | zero => exact absurd rfl (h s)
    | succ n => rfl
  | finalizing s own => cases own <;> rfl
  | _ => rfl

/-- Nor does it open a window. -/
theorem seen_of_ne_step {t : CallState} (h : ∀ s, t ≠ .prepared s 0) (e : Option Failure)
    (db : Db) : (∀ v, changesSeen (t.next e db).1 = some v → changesSeen t = some v) ∧
      ∀ v, rowidSeen (t.next e db).1 = some v → rowidSeen t = some v := by
  cases t with
  | calling s => cases e <;> simp [CallState.next, changesSeen, rowidSeen]
  | prepared s n =>
    cases n with
    | zero => exact absurd rfl (h s)
    | succ n => simp [CallState.next, changesSeen, rowidSeen]
  | finalizing s own =>
    cases own with
    | none => simp [CallState.next, changesSeen, rowidSeen]
    | some own => exact ⟨fun _ hv => hv, fun _ hv => hv⟩
  | _ => simp [CallState.next, changesSeen, rowidSeen]

/-- `sqlite3_changes` as a register, of which the calls only ask whether it is nonzero. -/
def changesWindow : WindowProtocol CallState.next Bool where
  reg db := decide (db.changes ≠ 0)
  window := changesSeen
  writes t e _ := writesChanges t e
  reg_of_not_writes t e db h := by
    by_cases ht : ∃ s, t = .prepared s 0
    · obtain ⟨s, rfl⟩ := ht
      cases e with
      | none => exact absurd trivial h
      | some f =>
        have hprepared : f.progress = .prepared := not_not.mp h
        rw [CallState.next, hprepared]
        rfl
    · rw [next_of_ne_step (not_exists.mp ht)]
  window_of_writes t e db v h hv := by
    obtain ⟨s, rfl⟩ := writesChanges_step h
    cases e with
    | some f => simp [CallState.next, changesSeen] at hv
    | none =>
      cases hs : s.step db with
      | none => simp [CallState.next, hs, changesSeen] at hv
      | some db' =>
        simp only [CallState.next, hs, changesSeen, Stmt.effect] at hv ⊢
        split at hv
        · simp at hv
        · rw [Option.some.injEq] at hv
          exact (congrArg (fun n : ℕ => decide (n ≠ 0)) (Stmt.changes_step hs)).trans hv
  window_of_not_writes t e db v h hv := by
    by_cases ht : ∃ s, t = .prepared s 0
    · obtain ⟨s, rfl⟩ := ht
      cases e with
      | none => exact absurd trivial h
      | some f => simp [CallState.next, changesSeen] at hv
    · exact (seen_of_ne_step (not_exists.mp ht) e db).1 v hv

instance (t : CallState) (e : Option Failure) (db : Db) :
    Decidable (changesWindow.writes t e db) :=
  inferInstanceAs (Decidable (writesChanges t e))

/-- `sqlite3_last_insert_rowid` as a register. -/
def rowidWindow : WindowProtocol CallState.next Int64 where
  reg := Db.lastInsertRowid
  window := rowidSeen
  writes := writesRowid
  reg_of_not_writes t e db h := by
    by_cases ht : ∃ s, t = .prepared s 0
    · obtain ⟨s, rfl⟩ := ht
      cases e with
      | some f => exact Stmt.lastInsertRowid_failed h db
      | none =>
        cases hs : s.step db with
        | none =>
          simp only [CallState.next, hs]
          exact Stmt.lastInsertRowid_failed (by simp) db
        | some db' =>
          simp only [CallState.next, hs]
          exact lastInsertRowid_step (isInsert_of_not_writesRowid h hs) hs
    · rw [next_of_ne_step (not_exists.mp ht)]
  window_of_writes t e db v h hv := by
    obtain ⟨s, rfl⟩ := writesRowid_step h
    cases e with
    | some f => simp [CallState.next, rowidSeen] at hv
    | none =>
      cases hs : s.step db with
      | none => simp [CallState.next, hs, rowidSeen] at hv
      | some db' =>
        simp only [CallState.next, hs, rowidSeen, Stmt.effect] at hv ⊢
        split at hv
        · rw [Option.some.injEq] at hv
          exact hv
        · simp at hv
  window_of_not_writes t e db v h hv := by
    by_cases ht : ∃ s, t = .prepared s 0
    · obtain ⟨s, rfl⟩ := ht
      cases e with
      | some f => simp [CallState.next, rowidSeen] at hv
      | none =>
        cases hs : s.step db with
        | none => simp [CallState.next, hs, rowidSeen] at hv
        | some db' =>
          have hins : s.isInsert = false := isInsert_of_not_writesRowid h hs
          simp [CallState.next, hs, rowidSeen, hins] at hv
    · exact (seen_of_ne_step (not_exists.mp ht) e db).2 v hv

instance (t : CallState) (e : Option Failure) (db : Db) :
    Decidable (rowidWindow.writes t e db) :=
  inferInstanceAs (Decidable (writesRowid t e db))

/-! ### What a call returns -/

/-- A returned mutator tells whether its own statement changed a row. -/
def TellsChanges : CallState → Prop
  | .returned s r own => s.isInsert = false →
      r = .flag (decide ((own.map Effect.changed).getD 0 ≠ 0))
  | _ => True

/-- A returned `insert_job` that inserted a row tells its rowid. -/
def TellsRowid : CallState → Prop
  | .returned s r (some own) => s.isInsert = true →
      ∃ k, own.rowid = some k ∧ r = .id k.toInt32
  | .finalizing s (some own) | .reading s own => s.isInsert = true → own.rowid.isSome
  | _ => True

variable {ι : Type*} [DecidableEq ι]

theorem tellsChanges_next {t : CallState} {e : Option Failure} {db : Db}
    (ht : TellsChanges t) (hreg : ∀ v, changesSeen t = some v → decide (db.changes ≠ 0) = v) :
    TellsChanges (t.next e db).1 := by
  match t, e with
  | .prepared s 0, none => cases hs : s.step db <;> simp [CallState.next, hs, TellsChanges]
  | .calling s, some f => intro hs; simp [Stmt.prepareFailed, hs]
  | .finalizing s none, _ => intro hs; simp [Stmt.stepFailed, hs]
  | .reading s own, _ =>
    intro hs
    have hch := hreg _ (by simp only [changesSeen, hs]; rfl)
    rw [Stmt.readBack, hs, if_neg Bool.false_ne_true, hch]
    rfl
  | .returned s r own, _ => exact ht
  | .calling s, none | .prepared s (n + 1), _ | .prepared s 0, some _
  | .finalizing s (some own), _ => trivial

theorem tellsRowid_next {t : CallState} {e : Option Failure} {db : Db}
    (ht : TellsRowid t) (hreg : ∀ v, rowidSeen t = some v → db.lastInsertRowid = v) :
    TellsRowid (t.next e db).1 := by
  match t, e with
  | .prepared s 0, none =>
    cases hs : s.step db with
    | none => simp [CallState.next, hs, TellsRowid]
    | some db' =>
      simp only [CallState.next, hs, TellsRowid]
      intro hins
      simp [Stmt.effect, hins]
  | .reading s own, _ =>
    intro hs
    obtain ⟨k, hk⟩ := Option.isSome_iff_exists.mp (ht hs)
    have hlast : db.lastInsertRowid = k := hreg _ (by simp [rowidSeen, hs, hk])
    exact ⟨k, hk, by simp [Stmt.readBack, hs, hlast]⟩
  | .returned s r own, _ => exact ht
  | .finalizing s (some own), _ => exact ht
  | .calling s, none | .calling s, some f | .prepared s (n + 1), _ | .prepared s 0, some _
  | .finalizing s none, _ => trivial

/-- **A mutator tells what its own statement did**, in every run in which no other
statement changes the register inside its window. -/
theorem own_changes {c : Calls ι} (hsafe : changesWindow.Safe c)
    (htells : ∀ i, TellsChanges (c.threads i))
    {moves : List (ι × Option Failure)}
    (h : Along CallState.next changesWindow.KeepsWindows c moves) (i : ι) :
    TellsChanges ((c.run CallState.next moves).threads i) :=
  changesWindow.forall_threads (fun _ _ _ => tellsChanges_next) hsafe htells h i

/-- **`insert_job` tells the rowid of its own row**, in every run in which no other
`INSERT` changes the register inside its window. -/
theorem own_rowid {c : Calls ι} (hsafe : rowidWindow.Safe c)
    (htells : ∀ i, TellsRowid (c.threads i))
    {moves : List (ι × Option Failure)}
    (h : Along CallState.next rowidWindow.KeepsWindows c moves) (i : ι) :
    TellsRowid ((c.run CallState.next moves).threads i) :=
  rowidWindow.forall_threads (fun _ _ _ => tellsRowid_next) hsafe htells h i

end JobScheduler
