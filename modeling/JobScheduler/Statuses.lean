import JobScheduler.Scheduler

/-!
# Jobs that are over

A job that is COMPLETED, FAILED or CANCELED is over.  `pause_job` and `resume_job` write
the status of the row they name whatever it was, so they are what brings such a job back.

## Main definitions

* `Status.Terminal` — the three statuses.
* `Upkeep` — the calls that neither insert, delete, nor write a whole row.
* `KeptAt` — a row has its status, and is not due.

## Main results

* `lookup_pauseJob`, `lookup_resumeJob` — the two calls, on a row of any status.
* `guards_iff` — where the status is guarded all the same.
* `Op.status_run` — what a call leaves in the status of a row.
* `staysTerminal_iff` — **a job that is over stays so** exactly in the runs that neither
  pause nor resume it.
-/

namespace JobScheduler

open Runs

/-- The job is over. -/
def Status.Terminal : Status → Prop
  | .completed | .failed | .canceled => True
  | _ => False

instance : ∀ st : Status, Decidable st.Terminal
  | .completed | .failed | .canceled => isTrue trivial
  | .active | .paused | .running => isFalse id

/-- The call is `pause_job`, `resume_job`, `update_next_run_time`, `increment_retry_count`
or `reset_retry_count`. -/
def Op.IsUpkeep : Op → Prop
  | .pauseJob _ | .resumeJob _ | .updateNextRunTime _ _ | .incrementRetryCount _
  | .resetRetryCount _ => True
  | _ => False

/-- One of these calls. -/
abbrev Upkeep := {op : Op // op.IsUpkeep}

/-- One call of a run. -/
def upkeepStep (db : Db) (c : Upkeep) : Option Db := some (c.1.run db).2

/-- The call pauses or resumes the row with this rowid. -/
def Op.Switches (rowid : Int64) : Op → Prop
  | .pauseJob id | .resumeJob id => bindInt id = rowid
  | _ => False

/-- The row has this status, and `select_due_jobs` does not return its job. -/
structure KeptAt (rowid : Int64) (st : Status) (db : Db) : Prop where
  status : ∃ r, db.table.lookup rowid = some r ∧ r.status = bindInt st.toInt
  notDue : ∀ now o, rowid ∉ (dueRows db now o).map Prod.fst

/-! ### Pausing and resuming -/

section

variable {db : Db} {id : Int32} {r : Row}

/-- Both calls write the status of the row that they name. -/
theorem lookup_setStatus (hr : db.table.lookup (bindInt id) = some r) (status : Int64) :
    (mutate (.setStatus status (bindInt id)) db .ok).2.table.lookup (bindInt id) =
      some { r with status } := by
  have hid : r.id = bindInt id := (Table.lookup_eq_some_iff.mp hr).2
  rw [lookup_mutate rfl]
  simp only [Stmt.rowAfter, hr, Option.map_some, Stmt.whereClause, Stmt.setClause, hid,
    decide_true, if_true]

/-- **`pause_job` on a row of any status**: it is PAUSED. -/
theorem lookup_pauseJob (hr : db.table.lookup (bindInt id) = some r) :
    (pauseJob db id .ok).2.table.lookup (bindInt id) =
      some { r with status := bindInt Status.paused.toInt } :=
  lookup_setStatus hr _

/-- **`resume_job` on a row of any status**: it is ACTIVE. -/
theorem lookup_resumeJob (hr : db.table.lookup (bindInt id) = some r) :
    (resumeJob db id .ok).2.table.lookup (bindInt id) =
      some { r with status := bindInt Status.active.toInt } :=
  lookup_setStatus hr _

/-- **No call is guarded**: that `pause_job` leaves the rows alone that are not ACTIVE, and
`resume_job` those that are not PAUSED, is so of a row exactly when it is one of these two, or has
the status already. -/
theorem guards_iff {st : Status} (hr : db.table.lookup (bindInt id) = some r)
    (hst : r.status = bindInt st.toInt) :
    ((st ≠ .active → (pauseJob db id .ok).2.table.lookup (bindInt id) = some r) ↔
        st = .active ∨ st = .paused) ∧
      ((st ≠ .paused → (resumeJob db id .ok).2.table.lookup (bindInt id) = some r) ↔
        st = .paused ∨ st = .active) := by
  have hsame : ∀ st', some { r with status := bindInt (Status.toInt st') } = some r ↔ st = st' := by
    intro st'
    rw [Option.some.injEq, ← Status.toInt_inj, ← bindInt_inj, ← hst]
    constructor
    · intro h
      exact (congrArg Row.status h).symm
    · intro h
      rw [← h]
  rw [lookup_pauseJob hr, lookup_resumeJob hr, hsame, hsame]
  exact ⟨or_iff_not_imp_left.symm, or_iff_not_imp_left.symm⟩

end

/-! ### Runs -/

/-- **What a call leaves in the status of a row**: what it writes there, if the row is the
one it names. -/
theorem Op.status_run {op : Op} (hins : ¬ op.Inserts) (hdel : ¬ op.Deletes) {db : Db}
    {rowid : Int64} {r : Row} (hr : db.table.lookup rowid = some r) :
    ∃ r', (op.run db).2.table.lookup rowid = some r' ∧
      (op.stmt.rowid = some rowid →
        r'.status = (op.wroteStatus.map fun st => bindInt st.toInt).getD r.status) ∧
      (op.stmt.rowid ≠ some rowid → r'.status = r.status) := by
  have hid : r.id = rowid := (Table.lookup_eq_some_iff.mp hr).2
  have hafter := Op.lookup_run hins hdel db rowid
  rw [hr, Option.map_some] at hafter
  refine ⟨_, hafter, ?_, ?_⟩
  · intro hrow
    exact (Op.setClause_wrote hins hdel (hid ▸ hrow)).1
  · intro hrow
    rw [if_neg fun hwhere => hrow (hid ▸ Stmt.id_of_whereClause hwhere)]

/-- A row that is not ACTIVE is not due. -/
theorem KeptAt.of_status {rowid : Int64} {st : Status} {db : Db} {r : Row} (hne : st ≠ .active)
    (hr : db.table.lookup rowid = some r) (hst : r.status = bindInt st.toInt) :
    KeptAt rowid st db := by
  refine ⟨⟨r, hr, hst⟩, ?_⟩
  intro now o hmem
  obtain ⟨x, hx, rfl⟩ := List.mem_map.mp hmem
  obtain ⟨r', hr', hactive, -⟩ := mem_dueRows hx
  rw [hr, Option.some.injEq] at hr'
  exact bindInt_status_ne hne (hst.symm.trans (hr' ▸ hactive))

/-- **One call** keeps a row that is over exactly when it neither pauses nor resumes it. -/
theorem keptAt_run {rowid : Int64} {st : Status} (hterm : st.Terminal) {op : Op}
    (hop : op.IsUpkeep) {db : Db} (h : KeptAt rowid st db) :
    KeptAt rowid st (op.run db).2 ↔ ¬ op.Switches rowid := by
  obtain ⟨r, hr, hst⟩ := h.status
  have hins : ¬ op.Inserts := by cases op <;> first | exact id | exact absurd hop id
  have hdel : ¬ op.Deletes := by cases op <;> first | exact id | exact absurd hop id
  obtain ⟨r', hr', hsame, hother⟩ := Op.status_run hins hdel hr
  have hne : st ≠ .active := by
    rintro rfl
    exact hterm
  constructor
  · rintro ⟨⟨r'', hr'', hst''⟩, -⟩ hswitch
    rw [hr', Option.some.injEq] at hr''
    subst hr''
    -- the status written is ACTIVE or PAUSED, and the one kept is neither
    cases op with
    | pauseJob id =>
      have hcode : bindInt st.toInt = bindInt Status.paused.toInt :=
        hst''.symm.trans (hsame (congrArg some hswitch))
      obtain rfl := Status.toInt_inj.mp (bindInt_inj.mp hcode)
      exact hterm
    | resumeJob id =>
      have hcode : bindInt st.toInt = bindInt Status.active.toInt :=
        hst''.symm.trans (hsame (congrArg some hswitch))
      exact hne (Status.toInt_inj.mp (bindInt_inj.mp hcode))
    | _ => exact hswitch
  · intro hswitch
    have hkept : r'.status = r.status := by
      by_cases hrow : op.stmt.rowid = some rowid
      · rw [hsame hrow]
        cases op with
        | pauseJob id => exact absurd (Option.some.inj hrow) hswitch
        | resumeJob id => exact absurd (Option.some.inj hrow) hswitch
        | updateNextRunTime id t => rfl
        | incrementRetryCount id => rfl
        | resetRetryCount id => rfl
        | _ => exact absurd hop id
      · exact hother hrow
    exact KeptAt.of_status hne hr' (hkept.trans hst)

/-- **A job that is over stays so, and is never due, exactly in the runs** that neither
pause nor resume it. -/
theorem staysTerminal_iff {db : Db} {rowid : Int64} {r : Row} {st : Status}
    (hr : db.table.lookup rowid = some r) (hst : r.status = bindInt st.toInt)
    (hterm : st.Terminal) (calls : List Upkeep) :
    Throughout upkeepStep (KeptAt rowid st) db calls ↔ ∀ c ∈ calls, ¬ c.1.Switches rowid := by
  have hne : st ≠ .active := by
    rintro rfl
    exact hterm
  rw [throughout_iff_along (G := fun _ c => ¬ c.1.Switches rowid), along_iff_forall]
  · simp [upkeepStep]
  · intro db c db' hkept hstep
    rw [upkeepStep, Option.some.injEq] at hstep
    exact hstep ▸ keptAt_run hterm c.2 hkept
  · simp [upkeepStep]
  · exact KeptAt.of_status hne hr hst

/-- A job that has been canceled. -/
def canceledJob : Db := (insertJob Db.empty { (default : Job) with status := .canceled } .ok).2

theorem staysTerminal_retried : Throughout upkeepStep (KeptAt 1 .canceled) canceledJob
    [⟨.incrementRetryCount 1, trivial⟩, ⟨.pauseJob 2, trivial⟩] := by
  refine (staysTerminal_iff
    (r := (insertParams { (default : Job) with status := .canceled }).toRow 1)
    (by decide +kernel) (by decide) (by decide) _).mpr ?_
  simp [Op.Switches, bindInt]

/-- `resume_job` makes a canceled job due. -/
theorem canceled_resumed :
    (canceledJob.table.lookup 1).map Row.status = some (bindInt Status.canceled.toInt) ∧
      ¬ Throughout upkeepStep (KeptAt 1 .canceled) canceledJob [⟨.resumeJob 1, trivial⟩] := by
  refine ⟨by decide +kernel, ?_⟩
  intro h
  obtain ⟨-, hdue⟩ := h [⟨.resumeJob 1, trivial⟩] [] _ rfl rfl
  exact hdue 0 .complete (by decide +kernel)

end JobScheduler
