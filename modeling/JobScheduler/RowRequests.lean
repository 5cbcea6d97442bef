import JobScheduler.Controller
import JobScheduler.Codec

/-!
# The requests for one job

Four routes take an id from the URL.  Crow parses it as an `int64_t`, and the handlers
take it as an `int`: two numbers that differ by a multiple of 2^32 name the same row.

## Main definitions

* `RowRequest` — the four requests, and what each should do to the row it names.
* `ActsOn` — a response and a database as they should be for the number in the URL.

## Main results

* `handle_rowRequest` — what the handlers do, to the row that the `int` names.
* `actsOn_iff` — **a request acts on the row it names** exactly when its number fits an
  `int`, or the `int` that is left of it names no row.
-/

namespace JobScheduler

open CText

/-- The requests that name a row. -/
inductive RowRequest
  | deleteTask
  | job
  | pauseJob
  | resumeJob
  deriving DecidableEq, Repr

namespace RowRequest

/-- The request with the number in the URL. -/
def request (n : Int64) : RowRequest → Request
  | .deleteTask => .deleteTask n
  | .job => .job n
  | .pauseJob => .pauseJob n
  | .resumeJob => .resumeJob n

/-- The texts of the handler. -/
def text (flag : Bool) (id : Int32) : RowRequest → Bytes
  | .deleteTask => deleteText flag id
  | .job => getText flag id
  | .pauseJob => pauseText flag id
  | .resumeJob => resumeText flag id

/-- What the request asks for its row. -/
def effect (r : Row) : RowRequest → Option Row
  | .deleteTask => none
  | .job => some r
  | .pauseJob => some { r with status := bindInt Status.paused.toInt }
  | .resumeJob => some { r with status := bindInt Status.active.toInt }

/-- The job that the handler prints: only `get_job_by_id_route` prints the one it has
found. -/
def printed (db : Db) (o : SqlOutcome) (n : Int64) : RowRequest → Option Job
  | .job =>
    let (flag, found) := getJobById db default n.toInt32 o
    if flag then some found else none
  | _ => none

/-- The job that the request asks to see. -/
def shown (r : Row) : RowRequest → Option Job
  | .job => some (readRow r)
  | _ => none

end RowRequest

/-- The request with the number `n` has acted on the row `k`, and on no other: the answer
tells whether the row was there, it is changed as the request asks, and the job shown is
its job. -/
structure ActsOn (req : RowRequest) (db : Db) (o : SqlOutcome) (n k : Int64) (res : Response)
    (db' : Db) : Prop where
  text : res.body = req.text (decide (o = .ok ∧ db.table.lookup k ≠ none)) n.toInt32
  row : db'.table.lookup k =
    if o = .ok then (db.table.lookup k).bind fun r => req.effect r else db.table.lookup k
  others : ∀ id, id ≠ k → db'.table.lookup id = db.table.lookup id
  printed : req.printed db o n =
    if o = .ok then (db.table.lookup k).bind fun r => req.shown r else none

/-! ### What the handlers do -/

section

variable {load : Bytes → Option RValue} {uninit now : Int64} {db : Db} {o : SqlOutcome}

/-- The two texts of a handler are different. -/
theorem RowRequest.text_ne (req : RowRequest) (id : Int32) :
    req.text true id ≠ req.text false id := by
  cases req with
  | job =>
    -- the two texts part after the id
    intro h
    simp only [text, getText, Bool.false_eq_true, if_false, if_true] at h
    exact absurd (List.append_cancel_left h) (by decide)
  | _ => exact ne_of_head rfl rfl (by decide)

/-- A handler that runs a mutator and answers with its text. -/
theorem actsOn_mutate {req : RowRequest} {n : Int64} {s : Stmt}
    (hrowid : s.rowid = some (bindInt n.toInt32))
    (hwhere : ∀ r, s.whereClause r = decide (r.id = bindInt n.toInt32))
    (heffect : s.rowAfter db.table (bindInt n.toInt32) =
      (db.table.lookup (bindInt n.toInt32)).bind fun r => req.effect r)
    (hprinted : req.printed db o n = none) (hshown : ∀ r, req.shown r = none)
    (hhandle : handle load uninit now db o (req.request n) =
      some ((Response.new.assign 200 (req.text (mutate s db o).1 n.toInt32)).finish,
        (mutate s db o).2)) :
    ∃ res db', handle load uninit now db o (req.request n) = some (res, db') ∧
      ActsOn req db o n (bindInt n.toInt32) res db' := by
  have hflag : (mutate s db o).1 =
      decide (o = .ok ∧ db.table.lookup (bindInt n.toInt32) ≠ none) := by
    rw [Bool.eq_iff_iff, mutate_eq_true_iff hrowid hwhere, decide_eq_true_eq]
  refine ⟨_, _, hhandle, ?_, ?_, ?_, ?_⟩
  · rw [← hflag]
    rfl
  · cases o with
    | ok => rw [lookup_mutate hrowid, heffect, if_pos rfl]
    | prepareError rc => rfl
    | stepError => rfl
  · intro id hne
    cases o with
    | ok => rw [lookup_mutate hrowid, Stmt.rowAfter_of_ne hrowid hne]
    | prepareError rc => rfl
    | stepError => rfl
  · rw [hprinted]
    simp [hshown]

/-- **The handlers act on the row that the `int` names.** -/
theorem handle_rowRequest (req : RowRequest) (n : Int64) :
    ∃ res db', handle load uninit now db o (req.request n) = some (res, db') ∧
      ActsOn req db o n (bindInt n.toInt32) res db' := by
  have hrows : ∀ r, db.table.lookup (bindInt n.toInt32) = some r → r.id = bindInt n.toInt32 :=
    fun r hr => (Table.lookup_eq_some_iff.mp hr).2
  -- what `UPDATE jobs SET status = ?` leaves in the row
  have hstatus : ∀ status, (Stmt.setStatus status (bindInt n.toInt32)).rowAfter db.table
      (bindInt n.toInt32) =
        (db.table.lookup (bindInt n.toInt32)).bind fun r => some { r with status := status } := by
    intro status
    cases hr : db.table.lookup (bindInt n.toInt32) with
    | none => simp [Stmt.rowAfter, hr]
    | some r => simp [Stmt.rowAfter, hr, Stmt.whereClause, hrows r hr, Stmt.setClause]
  cases req with
  | deleteTask =>
    refine actsOn_mutate (s := .delete (bindInt n.toInt32)) rfl (fun _ => rfl) ?_ rfl
      (fun _ => rfl) rfl
    cases db.table.lookup (bindInt n.toInt32) <;> simp [Stmt.rowAfter, RowRequest.effect]
  | job =>
    refine ⟨_, db, rfl, ?_, ?_, fun _ _ => rfl, ?_⟩
    · have hflag : (getJobById db default n.toInt32 o).1 =
          decide (o = .ok ∧ db.table.lookup (bindInt n.toInt32) ≠ none) := by
        rw [Bool.eq_iff_iff, getJobById_eq_true_iff, decide_eq_true_eq]
      rw [← hflag]
      rfl
    · simp [RowRequest.effect]
    · cases o with
      | ok =>
        cases hr : db.table.lookup (bindInt n.toInt32) <;>
          simp [RowRequest.printed, RowRequest.shown, getJobById, hr]
      | prepareError rc => rfl
      | stepError => rfl
  | pauseJob =>
    exact actsOn_mutate (s := .setStatus (bindInt Status.paused.toInt) (bindInt n.toInt32)) rfl
      (fun _ => rfl) (hstatus _) rfl (fun _ => rfl) rfl
  | resumeJob =>
    exact actsOn_mutate (s := .setStatus (bindInt Status.active.toInt) (bindInt n.toInt32)) rfl
      (fun _ => rfl) (hstatus _) rfl (fun _ => rfl) rfl

/-- No row has a number that fits no `int`. -/
theorem lookup_of_not_fits (hids : ∀ r ∈ db.table.rows, 0 < r.id.toInt ∧ r.id.toInt < 2 ^ 31)
    {n : Int64} (hfits : ¬ FitsInt n) : db.table.lookup n = none := by
  apply Option.eq_none_iff_forall_ne_some.mpr
  intro r hr
  obtain ⟨hmem, rfl⟩ := Table.lookup_eq_some_iff.mp hr
  have hid := hids r hmem
  exact hfits ⟨by omega, by omega⟩

/-- Where neither of two numbers is answered, acting on the one is acting on the other. -/
theorem ActsOn.of_fails {req : RowRequest} {n k k' : Int64} {res : Response} {db' : Db}
    (h : ActsOn req db o n k res db') (hk : o ≠ .ok ∨ db.table.lookup k = none)
    (hk' : db.table.lookup k' = none) : ActsOn req db o n k' res db' := by
  have hsame : db'.table.lookup k = db.table.lookup k := by
    rw [h.row]
    rcases hk with hk | hk <;> simp [hk]
  have hrest : ∀ id, db'.table.lookup id = db.table.lookup id := by
    intro id
    by_cases hid : id = k
    · rw [hid, hsame]
    · exact h.others id hid
  refine ⟨?_, ?_, fun id _ => hrest id, ?_⟩
  · rw [h.text, hk']
    rcases hk with hk | hk <;> simp [hk]
  · rw [hrest, hk']
    simp
  · rw [h.printed, hk']
    rcases hk with hk | hk <;> simp [hk]

/-- **A request acts on the row it names, and on no other, exactly** when its number fits an
`int`, or else the `int` that is left of it names no row. -/
theorem actsOn_iff (hids : ∀ r ∈ db.table.rows, 0 < r.id.toInt ∧ r.id.toInt < 2 ^ 31)
    (req : RowRequest) (n : Int64) :
    (∃ res db', handle load uninit now db o (req.request n) = some (res, db') ∧
      ActsOn req db o n n res db') ↔
      FitsInt n ∨ o ≠ .ok ∨ db.table.lookup (bindInt n.toInt32) = none := by
  obtain ⟨res, db', hhandle, hacts⟩ := @handle_rowRequest load uninit now db o req n
  by_cases hfits : FitsInt n
  · rw [show bindInt n.toInt32 = n from toInt64_toInt32_eq_iff.mpr hfits] at hacts
    exact ⟨fun _ => Or.inl hfits, fun _ => ⟨res, db', hhandle, hacts⟩⟩
  · have hnone := lookup_of_not_fits hids hfits
    constructor
    · rintro ⟨res', db'', hhandle', hacts'⟩
      rw [hhandle, Option.some.injEq, Prod.mk.injEq] at hhandle'
      obtain ⟨rfl, rfl⟩ := hhandle'
      by_contra hcond
      simp only [not_or, not_not] at hcond
      -- the answer is that of success, and there is no such row
      have htext := hacts'.text
      rw [hacts.text, hnone] at htext
      simp only [hcond, ne_eq, not_false_eq_true, and_self, decide_true, not_true_eq_false,
        and_false, decide_false] at htext
      exact req.text_ne _ htext
    · rintro (h | hcond)
      · exact absurd h hfits
      · exact ⟨res, db', hhandle, hacts.of_fails hcond hnone⟩

end

/-- `DELETE /DeleteTask/2` finds its row. -/
theorem actsOn_two : ∃ res db',
    handle (fun _ => none) 0 0 twoJobs .ok (RowRequest.deleteTask.request 2) = some (res, db') ∧
      ActsOn .deleteTask twoJobs .ok 2 2 res db' :=
  (actsOn_iff (by decide) .deleteTask 2).mpr (Or.inl (by decide))

/-- `DELETE /DeleteTask/4294967297` deletes the job 1. -/
theorem actsOn_alias : ¬ ∃ res db',
    handle (fun _ => none) 0 0 twoJobs .ok (RowRequest.deleteTask.request 4294967297) =
      some (res, db') ∧ ActsOn .deleteTask twoJobs .ok 4294967297 4294967297 res db' := by
  rintro ⟨res, db', hhandle, hacts⟩
  have hgone : handle (fun _ => none) 0 0 twoJobs .ok (RowRequest.deleteTask.request 4294967297) =
      some ((Response.new.assign 200 (deleteText true 1)).finish, (deleteJob twoJobs 1 .ok).2) := by
    rfl
  rw [hgone, Option.some.injEq, Prod.mk.injEq] at hhandle
  have hother := hacts.others 1 (by decide)
  rw [← hhandle.2] at hother
  exact absurd hother (by decide)

end JobScheduler
