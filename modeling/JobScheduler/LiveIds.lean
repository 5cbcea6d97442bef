import JobScheduler.DueSet

/-!
# The ids that are live

`insert_job` returns the id of the row it has inserted, and `delete_job` returns whether
it has deleted the row with the id it was given.  What a run of the writing calls has
returned decides which ids `select_all_jobs` lists.

## Main definitions

* `trace` — the calls of a run, with what each returned.
* `returnedIds` — the ids that the insertions of a run returned.
* `Live` — an id was returned, and not deleted since.

## Main results

* `returnedIds_eq` — the insertions of a run return 1, 2, 3 and so on.
* `live_ids` — **an id is never returned twice, and `select_all_jobs` lists the live
  ids**, each once.
-/

namespace JobScheduler

open History

/-! ### What a run returns -/

/-- Calls, with what each returned. -/
def traceFrom : Db → List Op → List (Op × Ret)
  | _, [] => []
  | db, op :: ops => (op, (op.run db).1) :: traceFrom (op.run db).2 ops

/-- The calls of a run on the empty table, with what each returned. -/
def trace (ops : List Op) : List (Op × Ret) := traceFrom Db.empty ops

theorem traceFrom_concat (op : Op) : ∀ (ops : List Op) (db : Db), traceFrom db (ops ++ [op]) =
    traceFrom db ops ++ [(op, (op.run (ops.foldl (fun db op => (op.run db).2) db)).1)] := by
  intro ops
  induction ops with
  | nil => intro db; rfl
  | cons op' ops ih =>
    intro db
    rw [List.cons_append, traceFrom, ih]
    rfl

/-- One more call returns what it returns in the database that the run has left. -/
theorem trace_concat (ops : List Op) (op : Op) :
    trace (ops ++ [op]) = trace ops ++ [(op, (op.run (dbAfter ops)).1)] :=
  traceFrom_concat op ops Db.empty

/-- The id that a call returned. -/
def returnedId (x : Op × Ret) : Option Int32 :=
  match x.2 with
  | .id id => some id
  | .flag _ => none

/-- The ids that the insertions of a run returned, in order. -/
def returnedIds (ops : List Op) : List Int32 := (trace ops).filterMap returnedId

/-- The call was a successful `delete_job` of the id. -/
def Removed (id : Int32) (x : Op × Ret) : Prop := x = (.deleteJob id, .flag true)

/-- The id was returned by `insert_job`, and no `delete_job` of it has succeeded since. -/
def Live (id : Int32) (ops : List Op) : Prop :=
  OpenSince (fun x => returnedId x = some id) (Removed id) (trace ops)

/-- Only `insert_job` returns an id. -/
theorem returnedId_run {op : Op} (hins : ¬ op.Inserts) (db : Db) :
    returnedId (op, (op.run db).1) = none := by
  cases op with
  | insertJob job => exact absurd trivial hins
  | _ => rfl

theorem live_concat {id : Int32} {ops : List Op} {op : Op} :
    Live id (ops ++ [op]) ↔ returnedId (op, (op.run (dbAfter ops)).1) = some id ∨
      Live id ops ∧ ¬ Removed id (op, (op.run (dbAfter ops)).1) := by
  rw [Live, trace_concat, openSince_concat]
  rfl

/-! ### The ids returned -/

/-- The insertion after `n` others returns `n + 1`. -/
def nthId (n : ℕ) : Int32 := (Int64.ofNat (n + 1)).toInt32

theorem fitsInt_ofNat {n : ℕ} (h : n < 2 ^ 31) : FitsInt (Int64.ofNat n) := by
  rw [FitsInt, Int64.toInt_ofNat_of_lt (by omega)]
  omega

theorem bindInt_nthId {n : ℕ} (h : n + 1 < 2 ^ 31) : bindInt (nthId n) = Int64.ofNat (n + 1) :=
  toInt64_toInt32_eq_iff.mpr (fitsInt_ofNat h)

/-- **The insertions of a run return 1, 2, 3 and so on.** -/
theorem returnedIds_eq (ops : List Op) (hfew : insertions ops < 2 ^ 31) :
    returnedIds ops = (List.range (insertions ops)).map nthId := by
  induction ops using List.reverseRecOn with
  | nil => rfl
  | append_singleton ops op ih =>
    have hle : insertions ops ≤ insertions (ops ++ [op]) := by
      rw [insertions_concat]
      split <;> omega
    rw [returnedIds, trace_concat, List.filterMap_append, ← returnedIds, ih (by omega),
      insertions_concat]
    by_cases hins : op.Inserts
    · rw [if_pos hins, List.range_succ, List.map_append]
      congr 1
      obtain ⟨job, rfl⟩ := Op.exists_of_inserts hins
      rw [fst_run_insertJob (by omega) job]
      rfl
    · rw [if_neg hins, List.filterMap_cons, returnedId_run hins]
      simp

theorem nodup_returnedIds {ops : List Op} (hfew : insertions ops < 2 ^ 31) :
    (returnedIds ops).Nodup := by
  rw [returnedIds_eq ops hfew]
  refine List.Nodup.map_on ?_ List.nodup_range
  intro a ha b hb heq
  rw [List.mem_range] at ha hb
  have hint : (Int64.ofNat (a + 1)).toInt = (Int64.ofNat (b + 1)).toInt := by
    rw [← bindInt_nthId (by omega), heq, bindInt_nthId (by omega)]
  rw [Int64.toInt_ofNat_of_lt (by omega), Int64.toInt_ofNat_of_lt (by omega)] at hint
  omega

/-! ### The ids in the table -/

/-- An insertion makes the id it returns live, and no other one. -/
theorem lookup_insert_iff {ops : List Op} {job : Job}
    (hfew : insertions (ops ++ [.insertJob job]) < 2 ^ 31) (id : Int32) :
    ((Op.insertJob job).run (dbAfter ops)).2.table.lookup (bindInt id) ≠ none ↔
      returnedId (.insertJob job, ((Op.insertJob job).run (dbAfter ops)).1) = some id ∨
        (dbAfter ops).table.lookup (bindInt id) ≠ none := by
  have hins : insertions (ops ++ [.insertJob job]) = insertions ops + 1 := insertions_concat ops _
  obtain ⟨hseq, -⟩ := rowOf_run ops (by omega)
  obtain ⟨k, hk⟩ := Table.exists_nextRowid (t := (dbAfter ops).table) (by omega)
  have hrun : (Op.insertJob job).run (dbAfter ops) = (.id k.toInt32,
      ⟨(dbAfter ops).table.insert (insertParams job) hk, 1, k⟩) := by
    rw [Op.run, insertJob_ok job hk]
  -- the rowid fits an `int`, so that the id returned determines it
  have hid : k = bindInt id ↔ k.toInt32 = id := by
    obtain ⟨rfl, -⟩ := nextRowid_of_seq hseq hk
    rw [← bindInt_nthId (n := insertions ops) (by omega), bindInt_inj]
    simp [nthId, bindInt]
  rw [hrun]
  simp only [Table.lookup_insert, returnedId, Option.some.injEq, ← hid]
  by_cases hnew : k = bindInt id <;> simp [hnew]

/-- A deletion ends the life of the id that it names, if it succeeds. -/
theorem lookup_delete_iff (db : Db) (id id' : Int32) :
    ((Op.deleteJob id').run db).2.table.lookup (bindInt id) ≠ none ↔
      db.table.lookup (bindInt id) ≠ none ∧
        ¬ Removed id (.deleteJob id', ((Op.deleteJob id').run db).1) := by
  have hrowid : (Stmt.delete (bindInt id')).rowid = some (bindInt id') := rfl
  have hlookup : ((Op.deleteJob id').run db).2.table.lookup (bindInt id) =
      (Stmt.delete (bindInt id')).rowAfter db.table (bindInt id) := lookup_mutate hrowid db _
  have hflag : (mutate (.delete (bindInt id')) db .ok).1 = true ↔
      db.table.lookup (bindInt id') ≠ none := by
    rw [mutate_eq_true_iff hrowid fun _ => rfl]
    simp
  have hremoved : Removed id (.deleteJob id', ((Op.deleteJob id').run db).1) ↔
      id' = id ∧ db.table.lookup (bindInt id') ≠ none := by
    rw [← hflag]
    simp [Removed, Op.run, JobScheduler.deleteJob]
  rw [hlookup, hremoved]
  simp only [Stmt.rowAfter, bindInt_inj]
  by_cases hid : id = id'
  · subst hid
    simp
  · simp [hid, Ne.symm hid]

/-- **The ids in the table are the live ones**, after every run. -/
theorem lookup_iff_live (ops : List Op) (hfew : insertions ops < 2 ^ 31) (id : Int32) :
    (dbAfter ops).table.lookup (bindInt id) ≠ none ↔ Live id ops := by
  induction ops using List.reverseRecOn with
  | nil =>
    have hnone : Db.empty.table.lookup (bindInt id) = none := rfl
    exact ⟨fun h => absurd hnone h, fun h => absurd h (not_openSince_nil _ _)⟩
  | append_singleton ops op ih =>
    have hle : insertions ops ≤ insertions (ops ++ [op]) := by
      rw [insertions_concat]
      split <;> omega
    rw [dbAfter_concat, live_concat, ← ih (by omega)]
    by_cases hins : op.Inserts
    · obtain ⟨job, rfl⟩ := Op.exists_of_inserts hins
      rw [lookup_insert_iff hfew]
      simp [Removed]
    · rw [returnedId_run hins]
      by_cases hdel : op.Deletes
      · obtain ⟨id', rfl⟩ := Op.exists_of_deletes hdel
        rw [lookup_delete_iff]
        simp
      · -- any other call keeps the rows that there are
        have hremoved : ¬ Removed id (op, (op.run (dbAfter ops)).1) := by
          rintro heq
          exact hdel ((Prod.mk.inj heq).1 ▸ trivial)
        rw [Op.lookup_run hins hdel]
        simp [hremoved]

/-- **No id is returned twice, and `select_all_jobs` lists the live ids**, each once:
after every run with fewer than 2^31 insertions. -/
theorem live_ids {ops : List Op} (hfew : insertions ops < 2 ^ 31) :
    (returnedIds ops).Nodup ∧
      (∀ id, id ∈ (selectAllJobs (dbAfter ops) .complete).map Job.id ↔ Live id ops) ∧
      ((selectAllJobs (dbAfter ops) .complete).map Job.id).Nodup := by
  have hfits : ∀ r ∈ (dbAfter ops).table.rows, FitsInt r.id := fun r => fitsInt_of_mem hfew
  have hids : (selectAllJobs (dbAfter ops) .complete).map Job.id =
      (dbAfter ops).table.rows.map fun r => columnInt r.id := by
    simp only [selectAllJobs, ScanOutcome.deliver, List.map_map]
    rfl
  refine ⟨nodup_returnedIds hfew, ?_, ?_⟩
  · intro id
    rw [← lookup_iff_live ops hfew, hids, mem_map_columnInt hfits, Option.ne_none_iff_exists']
    simp only [Table.lookup_eq_some_iff]
  · rw [hids]
    exact nodup_map_columnInt (dbAfter ops).table.nodup hfits

/-- After a deletion the id is not used again. -/
theorem live_ids_deleted :
    returnedIds [.insertJob default, .insertJob default, .deleteJob 2, .insertJob default] =
        [1, 2, 3] ∧
      (∀ id, id ∈ (selectAllJobs (dbAfter [.insertJob default, .insertJob default, .deleteJob 2,
        .insertJob default]) .complete).map Job.id ↔
          Live id [.insertJob default, .insertJob default, .deleteJob 2, .insertJob default]) :=
  ⟨by decide +kernel, (live_ids (by decide)).2.1⟩

end JobScheduler
