import JobScheduler.Job
import JobScheduler.Lib.KeyedTable
import Mathlib.Algebra.Group.Int.Defs
import Mathlib.Algebra.Group.Nat.Defs

/-!
# The `jobs` table and the statements run on it

The repository layer talks to SQLite through prepared statements with numbered
parameters.  Of SQLite the model keeps the rows of `jobs`, the AUTOINCREMENT
counter, and the two registers of the connection that a completed statement
overwrites: `sqlite3_changes` and `sqlite3_last_insert_rowid`.

## Main definitions

* `Row`, `Table` — the columns of `create_table`, and a table with distinct
  primary keys.
* `Table.nextRowid` — the AUTOINCREMENT rule.
* `Db` — the table with the connection's registers.
* `Stmt`, `Stmt.step` — the writing statements of `database.cpp` with their bound
  parameters, and one successful `sqlite3_step` of each.

## Main results

* `Table.lt_nextRowid` — an AUTOINCREMENT key is above every key of the table.
* `Stmt.changes_step` — how a statement leaves the change counter.
* `Stmt.lookup_step` — what a statement leaves under each rowid.
-/

namespace JobScheduler

open CText KeyedTable

/-! ### Values in and out of the statements -/

/-- `sqlite3_bind_int`: the parameter is a 64-bit integer. -/
def bindInt (v : Int32) : Int64 := v.toInt64

/-- `sqlite3_bind_int64`. -/
def bindInt64 (v : Int64) : Int64 := v

/-- `sqlite3_bind_text(stmt, i, s.c_str(), -1, …)`: the text ends at the first
NUL of `s`. -/
def bindText (s : Bytes) : Bytes := cstr s

/-- `sqlite3_column_int`: the low 32 bits of the stored integer. -/
def columnInt (v : Int64) : Int32 := v.toInt32

/-- `sqlite3_column_int64`. -/
def columnInt64 (v : Int64) : Int64 := v

/-- A `std::string` built from the `char *` that `sqlite3_column_text` returns. -/
def columnText (s : Bytes) : Bytes := cstr s

@[simp] theorem columnInt_bindInt (v : Int32) : columnInt (bindInt v) = v := by
  simp [columnInt, bindInt]

@[simp] theorem toInt_bindInt (v : Int32) : (bindInt v).toInt = v.toInt :=
  Int32.toInt_toInt64 v

theorem bindInt_inj {v w : Int32} : bindInt v = bindInt w ↔ v = w := by
  rw [← Int64.toInt_inj, toInt_bindInt, toInt_bindInt, Int32.toInt_inj]

/-- The 64-bit integers that fit an `int`. -/
def FitsInt (v : Int64) : Prop := -2 ^ 31 ≤ v.toInt ∧ v.toInt < 2 ^ 31

instance (v : Int64) : Decidable (FitsInt v) := inferInstanceAs (Decidable (_ ∧ _))

/-- **Narrowing to `int` keeps exactly the integers that fit.** -/
theorem toInt64_toInt32_eq_iff {v : Int64} : v.toInt32.toInt64 = v ↔ FitsInt v := by
  rw [← Int64.toInt_inj, Int32.toInt_toInt64, Int64.toInt_toInt32, Int.bmod_def, FitsInt]
  split <;> omega

theorem bindInt_columnInt_eq_iff {v : Int64} : bindInt (columnInt v) = v ↔ FitsInt v :=
  toInt64_toInt32_eq_iff

/-! ### Rows and tables -/

/-- A row of `jobs`, column by column in the order of `create_table`.  The two
columns without `NOT NULL` are optional. -/
structure Row where
  id : Int64
  name : Bytes
  type : Int64
  status : Int64
  nextRunTime : Int64
  intervalSeconds : Option Int64
  cronExpr : Option Bytes
  payload : Bytes
  retryCount : Int64
  maxRetries : Int64
  deriving DecidableEq, Repr, Inhabited

/-- The table `jobs`: its rows in rowid order, and the table's entry in
`sqlite_sequence`. -/
structure Table where
  rows : List Row
  seq : Int64
  /-- `id` is the primary key. -/
  nodup : (rows.map Row.id).Nodup
  /-- `sqlite_sequence` keeps the largest rowid that the table has ever held. -/
  le_seq : ∀ r ∈ rows, r.id.toInt ≤ seq.toInt
  deriving DecidableEq

theorem Table.ext {t t' : Table} (hrows : t.rows = t'.rows) (hseq : t.seq = t'.seq) : t = t' := by
  cases t
  cases t'
  subst hrows hseq
  rfl

/-- The table as `create_table` leaves it in a new database. -/
def Table.empty : Table := ⟨[], 0, List.nodup_nil, by simp⟩

/-- The row with the given rowid. -/
def Table.lookup (t : Table) (id : Int64) : Option Row := KeyedTable.lookup Row.id t.rows id

theorem Table.lookup_eq_some_iff {t : Table} {id : Int64} {r : Row} :
    t.lookup id = some r ↔ r ∈ t.rows ∧ r.id = id :=
  KeyedTable.lookup_eq_some_iff Row.id t.nodup

/-- The ids that are read of rows whose ids fit an `int`. -/
theorem mem_map_columnInt {rows : List Row} (hfits : ∀ r ∈ rows, FitsInt r.id) {id : Int32} :
    id ∈ rows.map (fun r => columnInt r.id) ↔ ∃ r ∈ rows, r.id = bindInt id := by
  rw [List.mem_map]
  constructor
  · rintro ⟨r, hr, rfl⟩
    exact ⟨r, hr, (bindInt_columnInt_eq_iff.mpr (hfits r hr)).symm⟩
  · rintro ⟨r, hr, hid⟩
    exact ⟨r, hr, by rw [hid, columnInt_bindInt]⟩

theorem nodup_map_columnInt {rows : List Row} (hnd : (rows.map Row.id).Nodup)
    (hfits : ∀ r ∈ rows, FitsInt r.id) : (rows.map fun r => columnInt r.id).Nodup := by
  refine List.Nodup.map_on ?_ (List.Nodup.of_map Row.id hnd)
  intro r hr r' hr' heq
  have hid : r.id = r'.id := by
    rw [← bindInt_columnInt_eq_iff.mpr (hfits r hr), heq,
      bindInt_columnInt_eq_iff.mpr (hfits r' hr')]
  exact List.inj_on_of_nodup_map hnd hr hr' hid

/-! ### AUTOINCREMENT -/

/-- The larger of two integers. -/
def maxInt64 (a b : Int64) : Int64 := if a ≤ b then b else a

/-- The largest rowid the table has held: of its rows and of `sqlite_sequence`. -/
def Table.maxRowid (t : Table) : Int64 := (t.rows.map Row.id).foldr maxInt64 t.seq

/-- The rowid of the next row.  When the largest possible rowid has been used the
insertion fails with `SQLITE_FULL`. -/
def Table.nextRowid (t : Table) : Option Int64 :=
  if t.maxRowid = Int64.maxValue then none else some (t.maxRowid + 1)

theorem toInt_maxInt64 (a b : Int64) : (maxInt64 a b).toInt = max a.toInt b.toInt := by
  unfold maxInt64
  split
  · next h => rw [Int64.le_iff_toInt_le] at h; omega
  · next h => rw [Int64.le_iff_toInt_le] at h; omega

private theorem le_foldr_maxInt64 (ids : List Int64) (seq : Int64) :
    seq.toInt ≤ (ids.foldr maxInt64 seq).toInt ∧
      ∀ id ∈ ids, id.toInt ≤ (ids.foldr maxInt64 seq).toInt := by
  induction ids with
  | nil => simp
  | cons a ids ih =>
    obtain ⟨hseq, hids⟩ := ih
    rw [List.foldr_cons, toInt_maxInt64]
    refine ⟨by omega, ?_⟩
    intro id hid
    rcases List.mem_cons.mp hid with rfl | hid
    · omega
    · have := hids id hid
      omega

theorem Table.seq_le_maxRowid (t : Table) : t.seq.toInt ≤ t.maxRowid.toInt :=
  (le_foldr_maxInt64 _ _).1

theorem Table.le_maxRowid {t : Table} {r : Row} (h : r ∈ t.rows) :
    r.id.toInt ≤ t.maxRowid.toInt :=
  (le_foldr_maxInt64 _ _).2 r.id (List.mem_map_of_mem h)

/-- The next rowid is one more than the largest, without wrapping. -/
theorem Table.toInt_nextRowid {t : Table} {k : Int64} (h : t.nextRowid = some k) :
    k.toInt = t.maxRowid.toInt + 1 := by
  unfold Table.nextRowid at h
  split at h
  · simp at h
  · next hne =>
    rw [Option.some.injEq] at h
    subst h
    have hlt : t.maxRowid.toInt < 2 ^ 63 - 1 := by
      have h1 := Int64.toInt_lt t.maxRowid
      have h2 : t.maxRowid.toInt ≠ Int64.maxValue.toInt := fun h => hne (Int64.toInt_inj.mp h)
      rw [Int64.toInt_maxValue] at h2
      omega
    have hge := Int64.le_toInt t.maxRowid
    rw [Int64.toInt_add, Int64.toInt_one, Int.bmod_eq_of_le] <;> omega

/-- **An AUTOINCREMENT key is above every key of the table.** -/
theorem Table.lt_nextRowid {t : Table} {k : Int64} (h : t.nextRowid = some k) {r : Row}
    (hr : r ∈ t.rows) : r.id.toInt < k.toInt := by
  have h1 := Table.toInt_nextRowid h
  have h2 := Table.le_maxRowid hr
  omega

theorem Table.nextRowid_notMem {t : Table} {k : Int64} (h : t.nextRowid = some k) :
    k ∉ t.rows.map Row.id := by
  intro hk
  obtain ⟨r, hr, rfl⟩ := List.mem_map.mp hk
  exact Int.lt_irrefl _ (Table.lt_nextRowid h hr)

/-- No row has the next rowid. -/
theorem Table.lookup_nextRowid {t : Table} {k : Int64} (h : t.nextRowid = some k) :
    t.lookup k = none :=
  (KeyedTable.lookup_eq_none_iff Row.id).mpr (Table.nextRowid_notMem h)

/-! ### The statements -/

/-- Parameters 1 to 9 of `INSERT` and of the full `UPDATE`, by their numbers. -/
structure JobParams where
  p1 : Bytes
  p2 : Int64
  p3 : Int64
  p4 : Int64
  p5 : Option Int64
  p6 : Option Bytes
  p7 : Bytes
  p8 : Int64
  p9 : Int64
  deriving DecidableEq, Repr

/-- The row that the parameters describe: both statements list the columns as
`name, type, status, next_run_time, interval_seconds, cron_expr, payload,
retry_count, max_retries`. -/
def JobParams.toRow (p : JobParams) (id : Int64) : Row :=
  { id := id, name := p.p1, type := p.p2, status := p.p3, nextRunTime := p.p4,
    intervalSeconds := p.p5, cronExpr := p.p6, payload := p.p7, retryCount := p.p8,
    maxRetries := p.p9 }

/-- The writing statements of `database.cpp`, with their parameters bound. -/
inductive Stmt
  /-- `INSERT INTO jobs (…) VALUES (?, ?, ?, ?, ?, ?, ?, ?, ?);` -/
  | insert (p : JobParams)
  /-- `DELETE FROM jobs WHERE id = ?` -/
  | delete (id : Int64)
  /-- `UPDATE jobs SET name = ?, …, max_retries = ? WHERE id = ?` -/
  | update (p : JobParams) (id : Int64)
  /-- `UPDATE jobs SET status = ? WHERE id = ?` -/
  | setStatus (status : Int64) (id : Int64)
  /-- `UPDATE jobs SET next_run_time = ? WHERE id = ?;` -/
  | setNextRunTime (nextRunTime : Int64) (id : Int64)
  /-- `UPDATE jobs SET retry_count = retry_count + 1
  WHERE id = ? AND retry_count < max_retries;` -/
  | incrementRetryCount (id : Int64)
  /-- `UPDATE jobs SET retry_count = 0 WHERE id = ?;` -/
  | resetRetryCount (id : Int64)
  deriving DecidableEq, Repr

/-- The rowid that the statement's `WHERE` clause names. -/
def Stmt.rowid : Stmt → Option Int64
  | .insert _ => none
  | .delete id | .update _ id | .setStatus _ id | .setNextRunTime _ id
  | .incrementRetryCount id | .resetRetryCount id => some id

/-- The statement's `WHERE` clause. -/
def Stmt.whereClause : Stmt → Row → Bool
  | .insert _, _ => false
  | .incrementRetryCount id, r => r.id = id && r.retryCount < r.maxRetries
  | .delete id, r | .update _ id, r | .setStatus _ id, r | .setNextRunTime _ id, r
  | .resetRetryCount id, r => r.id = id

/-- The statement's `SET` clause; rows are left alone by `INSERT` and `DELETE`. -/
def Stmt.setClause : Stmt → Row → Row
  | .insert _, r | .delete _, r => r
  | .update p _, r => p.toRow r.id
  | .setStatus status _, r => { r with status := status }
  | .setNextRunTime nextRunTime _, r => { r with nextRunTime := nextRunTime }
  | .incrementRetryCount _, r => { r with retryCount := r.retryCount + 1 }
  | .resetRetryCount _, r => { r with retryCount := 0 }

@[simp] theorem Stmt.id_setClause (s : Stmt) (r : Row) : (s.setClause r).id = r.id := by
  cases s <;> rfl

/-- A row that meets the `WHERE` clause is the one it names. -/
theorem Stmt.id_of_whereClause {s : Stmt} {r : Row} (h : s.whereClause r = true) :
    s.rowid = some r.id := by
  cases s <;> simp_all [whereClause, rowid]

/-- Append a row under the next rowid. -/
def Table.insert (t : Table) (p : JobParams) {k : Int64} (h : t.nextRowid = some k) : Table where
  rows := t.rows ++ [p.toRow k]
  seq := k
  nodup := KeyedTable.nodup_append Row.id t.nodup (Table.nextRowid_notMem h)
  le_seq r hr := by
    rcases List.mem_append.mp hr with hr | hr
    · exact Int.le_of_lt (Table.lt_nextRowid h hr)
    · rw [List.mem_singleton.mp hr]
      exact Int.le_refl _

/-- Drop the rows that meet a condition. -/
def Table.deleteWhere (t : Table) (p : Row → Bool) : Table where
  rows := KeyedTable.deleteWhere p t.rows
  seq := t.seq
  nodup := KeyedTable.nodup_deleteWhere Row.id t.nodup p
  le_seq r hr := t.le_seq r (List.mem_of_mem_filter hr)

/-- Run a `SET` clause on the rows that meet the `WHERE` clause. -/
def Table.update (t : Table) (s : Stmt) : Table where
  rows := KeyedTable.updateWhere s.whereClause s.setClause t.rows
  seq := t.seq
  nodup := by
    rw [KeyedTable.map_key_updateWhere Row.id s.id_setClause]
    exact t.nodup
  le_seq r hr := by
    obtain ⟨r', hr', rfl⟩ := List.mem_map.mp hr
    split
    · rw [s.id_setClause]
      exact t.le_seq r' hr'
    · exact t.le_seq r' hr'

/-- The database as one connection sees it. -/
structure Db where
  table : Table
  /-- `sqlite3_changes`: the rows changed by the last completed statement. -/
  changes : ℕ
  /-- `sqlite3_last_insert_rowid`: the rowid of the last completed `INSERT`. -/
  lastInsertRowid : Int64
  deriving DecidableEq

/-- The connection to a new database after `create_table`. -/
def Db.empty : Db := ⟨Table.empty, 0, 0⟩

/-- One `sqlite3_step` that returns `SQLITE_DONE`; `none` when the `INSERT` finds
the largest rowid used up, where the step fails. -/
def Stmt.step (s : Stmt) (db : Db) : Option Db :=
  match s with
  | .insert p =>
    match hk : db.table.nextRowid with
    | none => none
    | some k => some
        { table := db.table.insert p hk
          changes := 1
          lastInsertRowid := k }
  | .delete id => some
      { db with
        table := db.table.deleteWhere fun r => r.id = id
        changes := db.table.rows.countP fun r => r.id = id }
  | s => some
      { db with
        table := db.table.update s
        changes := db.table.rows.countP s.whereClause }

/-- A completed `INSERT`. -/
theorem Stmt.step_insert {p : JobParams} {db : Db} {k : Int64} (hk : db.table.nextRowid = some k) :
    (Stmt.insert p).step db = some
      { table := db.table.insert p hk, changes := 1,
        lastInsertRowid := k } := by
  simp only [step]
  split
  · next h => rw [hk] at h; simp at h
  · next k' h =>
    rw [hk, Option.some.injEq] at h
    subst h
    rfl

theorem Stmt.step_insert_full {p : JobParams} {db : Db} (hk : db.table.nextRowid = none) :
    (Stmt.insert p).step db = none := by
  simp only [step]
  split
  · rfl
  · next k' h => rw [hk] at h; simp at h

theorem Stmt.step_insert_congr {p : JobParams} {db db' : Db} (h : db.table = db'.table) :
    (Stmt.insert p).step db = (Stmt.insert p).step db' := by
  obtain ⟨t, c, k⟩ := db
  obtain ⟨t', c', k'⟩ := db'
  obtain rfl : t = t' := h
  rfl

/-- The registers make no difference to what a statement does to the table and to its count. -/
theorem Stmt.step_congr {db db' : Db} (h : db.table = db'.table) (s : Stmt) :
    (s.step db).map (fun d => (d.table, d.changes)) =
      (s.step db').map fun d => (d.table, d.changes) := by
  obtain ⟨t, c, k⟩ := db
  obtain ⟨t', c', k'⟩ := db'
  obtain rfl : t = t' := h
  cases s <;> rfl

@[simp] theorem Table.lookup_insert (t : Table) (p : JobParams) {k : Int64}
    (h : t.nextRowid = some k) (id : Int64) :
    (t.insert p h).lookup id = if k = id then some (p.toRow k) else t.lookup id :=
  KeyedTable.lookup_append Row.id t.rows (Table.nextRowid_notMem h) id

/-- The rows a statement changes, counted before it runs. -/
def Stmt.affected (s : Stmt) (t : Table) : ℕ :=
  match s with
  | .insert _ => 1
  | s => t.rows.countP s.whereClause

/-- A completed statement leaves in the counter the rows it changed. -/
theorem Stmt.changes_step {s : Stmt} {db db' : Db} (h : s.step db = some db') :
    db'.changes = s.affected db.table := by
  cases s with
  | insert p =>
    simp only [step] at h
    split at h
    · simp at h
    · rw [Option.some.injEq] at h; subst h; rfl
  | _ => simp only [step, Option.some.injEq] at h; subst h; rfl

/-- A statement with a `WHERE` clause completes, and changes the row that the clause
names when it meets the clause. -/
theorem Stmt.step_of_rowid {s : Stmt} {id : Int64} (h : s.rowid = some id) (db : Db) :
    ∃ db', s.step db = some db' := by
  cases s with
  | insert p => simp [rowid] at h
  | _ => exact ⟨_, rfl⟩

theorem Stmt.affected_of_rowid {s : Stmt} {id : Int64} (h : s.rowid = some id) (t : Table) :
    s.affected t = if (t.lookup id).any s.whereClause then 1 else 0 := by
  have hkey : ∀ r, s.whereClause r = true → r.id = id := by
    intro r hr
    rw [id_of_whereClause hr, Option.some.injEq] at h
    exact h
  rw [Table.lookup, ← KeyedTable.countP_of_key Row.id t.nodup hkey]
  cases s with
  | insert p => simp [rowid] at h
  | _ => rfl

/-! ### What a statement leaves under a rowid -/

/-- The row under a rowid after a statement. -/
def Stmt.rowAfter (s : Stmt) (t : Table) (id : Int64) : Option Row :=
  match s with
  | .insert p => if t.nextRowid = some id then some (p.toRow id) else t.lookup id
  | .delete id' => if id = id' then none else t.lookup id
  | s => (t.lookup id).map fun r => if s.whereClause r then s.setClause r else r

/-- **What a completed statement leaves under each rowid.** -/
theorem Stmt.lookup_step {s : Stmt} {db db' : Db} (h : s.step db = some db') (id : Int64) :
    db'.table.lookup id = s.rowAfter db.table id := by
  cases s with
  | insert p =>
    cases hk : db.table.nextRowid with
    | none => simp [step_insert_full hk] at h
    | some k =>
      rw [step_insert hk, Option.some.injEq] at h
      subst h
      simp only [Table.lookup_insert, rowAfter, hk, Option.some.injEq]
      split
      · next heq => rw [heq]
      · rfl
  | delete id' =>
    simp only [step, Option.some.injEq] at h
    subst h
    exact KeyedTable.lookup_deleteWhere Row.id id' id db.table.rows
  | _ =>
    simp only [step, Option.some.injEq] at h
    subst h
    exact KeyedTable.lookup_updateWhere Row.id (Stmt.id_setClause _) db.table.rows id

/-- A statement leaves the rows alone that its clause does not name. -/
theorem Stmt.rowAfter_of_ne {s : Stmt} {id id' : Int64} (hrowid : s.rowid = some id')
    (hne : id ≠ id') (t : Table) : s.rowAfter t id = t.lookup id := by
  have hupdate : (t.lookup id).map (fun r => if s.whereClause r then s.setClause r else r) =
      t.lookup id := by
    cases hr : t.lookup id with
    | none => rfl
    | some r =>
      have hid : r.id = id := (Table.lookup_eq_some_iff.mp hr).2
      have hwhere : ¬ s.whereClause r = true := by
        intro hwhere
        rw [id_of_whereClause hwhere, Option.some.injEq] at hrowid
        exact hne (hid.symm.trans hrowid)
      rw [Option.map_some, if_neg hwhere]
  cases s with
  | insert p => simp [rowid] at hrowid
  | delete id'' =>
    simp only [rowid, Option.some.injEq] at hrowid
    rw [rowAfter, if_neg (hrowid ▸ hne)]
  | _ => exact hupdate

/-- A statement with a `WHERE` clause leaves `sqlite_sequence` alone. -/
theorem Stmt.seq_step {s : Stmt} {id : Int64} (hrowid : s.rowid = some id) {db db' : Db}
    (h : s.step db = some db') : db'.table.seq = db.table.seq := by
  cases s with
  | insert p => simp [rowid] at hrowid
  | _ =>
    simp only [step, Option.some.injEq] at h
    subst h
    rfl

theorem Table.seq_lt_nextRowid {t : Table} {k : Int64} (h : t.nextRowid = some k) :
    t.seq.toInt < k.toInt := by
  have h1 := Table.toInt_nextRowid h
  have h2 := Table.seq_le_maxRowid t
  omega

/-- The largest rowid that the table has held is the one in `sqlite_sequence`. -/
theorem Table.maxRowid_eq (t : Table) : t.maxRowid = t.seq := by
  have hmax : ∀ rows : List Row, (∀ r ∈ rows, r.id.toInt ≤ t.seq.toInt) →
      ((rows.map Row.id).foldr maxInt64 t.seq).toInt = t.seq.toInt := by
    intro rows
    induction rows with
    | nil => intro _; rfl
    | cons r rows ih =>
      intro hle
      have hr := hle r List.mem_cons_self
      rw [List.map_cons, List.foldr_cons, toInt_maxInt64,
        ih fun r' hr' => hle r' (List.mem_cons_of_mem r hr')]
      omega
  exact Int64.toInt_inj.mp (hmax t.rows t.le_seq)

/-- The next rowid is one more than `sqlite_sequence`. -/
theorem Table.toInt_nextRowid_seq {t : Table} {k : Int64} (h : t.nextRowid = some k) :
    k.toInt = t.seq.toInt + 1 := by
  rw [Table.toInt_nextRowid h, Table.maxRowid_eq]

theorem Table.exists_nextRowid {t : Table} (h : t.seq.toInt < 2 ^ 63 - 1) :
    ∃ k, t.nextRowid = some k := by
  have hne : t.seq ≠ Int64.maxValue := by
    intro heq
    rw [heq, Int64.toInt_maxValue] at h
    omega
  exact ⟨_, by rw [Table.nextRowid, Table.maxRowid_eq, if_neg hne]⟩

/-- **`sqlite_sequence` never goes down.** -/
theorem Stmt.seq_le_step {s : Stmt} {db db' : Db} (h : s.step db = some db') :
    db.table.seq.toInt ≤ db'.table.seq.toInt := by
  cases s with
  | insert p =>
    cases hk : db.table.nextRowid with
    | none => simp [step_insert_full hk] at h
    | some k =>
      rw [step_insert hk, Option.some.injEq] at h
      subst h
      exact Int.le_of_lt (Table.seq_lt_nextRowid hk)
  | _ => exact Int.le_of_eq (congrArg Int64.toInt (Stmt.seq_step rfl h)).symm

end JobScheduler
