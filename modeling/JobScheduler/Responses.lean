import JobScheduler.Routes
import JobScheduler.RowRequests
import JobScheduler.Server

/-!
# From an address to a row

The whole way of a request: the router finds a handler for the method and the address, and the
handler runs on the table.  A row that a request changes is one that its address names.

## Main definitions

* `respond` — the answer to a method, an address and a body, and the table after it.
* `RowRequest.address` — the address of a request for one row.

## Main results

* `respond_of_reaches` — an address of a handler runs it.
* `respond_changes` — **what a request changes, it names.**
-/

namespace JobScheduler

open CText Routing

/-- A response to `HEAD` is sent without its body. -/
def Response.withoutBody (res : Response) : Response :=
  if res.completed then { res with body := [] } else res

/-- What a handler does; `files` are the responses of the one for files, which looks at the file
system. -/
def Called.run (load : Bytes → Option RValue) (files : Bytes → Response) (uninit now : Int64)
    (db : Db) (o : SqlOutcome) : Called → Option (Response × Db)
  | .request req => handle load uninit now db o req
  | .staticFile filePath => some (files filePath, db)

/-- The answer of the server.  A redirection has a header with the address, besides. -/
def respond [Strtod] (load : Bytes → Option RValue) (files : Bytes → Response)
    (uninit now : Int64) (db : Db) (o : SqlOutcome) (m : HTTPMethod) (url body : Bytes) :
    Option (Response × Db) := do
  let router ← (Router.validate routes).toOption
  match ← (router.handle m url).toOption with
  | .answered code _ => some ((Response.new.assign code []).finish, db)
  | .redirect _ _ => some ((Response.new.assign 301 []).finish, db)
  | .run r params skipBody =>
    let called ← r.handler.call body params
    let (res, db) ← called.run load files uninit now db o
    some (if skipBody then res.withoutBody else res, db)

/-- The text before the number, and the method. -/
def RowRequest.address : RowRequest → HTTPMethod × Bytes
  | .deleteTask => (.delete, ascii "/DeleteTask/")
  | .job => (.get, ascii "/job/")
  | .pauseJob => (.post, ascii "/job/pause/")
  | .resumeJob => (.post, ascii "/job/resume/")

section

variable {load : Bytes → Option RValue} {files : Bytes → Response} {uninit now : Int64}
  {db db' : Db} {o : SqlOutcome} {m : HTTPMethod} {url body : Bytes} {res : Response}

/-- **An address of a handler runs it.** -/
theorem respond_of_reaches [Strtod] {c : Called} (hoptions : m ≠ .options)
    (h : Reaches body (if m = .head then .get else m) url c) :
    respond load files uninit now db o m url body =
      (c.run load files uninit now db o).map fun r =>
        (if m = .head then r.1.withoutBody else r.1, r.2) := by
  obtain ⟨router, hrouter⟩ := routes_valid
  obtain ⟨r, params, hrun, hcall⟩ := ((answers_routes hrouter hoptions url).run body c).mp h
  simp only [respond, hrouter, hrun, Except.toOption, Option.bind_eq_bind, Option.bind_some, hcall,
    decide_eq_true_eq]
  cases c.run load files uninit now db o <;> rfl

/-- An answer that is not that of a request leaves the table as it is. -/
theorem respond_cases [Strtod]
    (h : respond load files uninit now db o m url body = some (res, db')) :
    db' = db ∨ ∃ req, m ≠ .options ∧
      Reaches body (if m = .head then .get else m) url (.request req) ∧
        ∃ res', handle load uninit now db o req = some (res', db') := by
  obtain ⟨router, hrouter⟩ := routes_valid
  simp only [respond, hrouter, Except.toOption, Option.bind_eq_bind, Option.bind_some] at h
  cases hhandle : router.handle m url with
  | error f => simp [hhandle] at h
  | ok handled =>
    rw [hhandle, Option.bind_some] at h
    cases handled with
    | answered code allow => exact Or.inl (Prod.mk.inj (Option.some.inj h)).2.symm
    | redirect location skipBody => exact Or.inl (Prod.mk.inj (Option.some.inj h)).2.symm
    | run r params skipBody =>
      have hoptions : m ≠ .options := by
        rintro rfl
        obtain ⟨code, allow, hanswered⟩ := handle_options router url
        rw [hhandle] at hanswered
        exact absurd (Except.ok.inj hanswered) (by simp)
      obtain ⟨c, hcall, h⟩ := Option.bind_eq_some_iff.mp h
      obtain ⟨⟨res', db''⟩, hrun, h⟩ := Option.bind_eq_some_iff.mp h
      obtain rfl := (Prod.mk.inj (Option.some.inj h)).2
      have hreach := (answers_routes hrouter hoptions url).reaches hhandle hcall
      cases c with
      | request req => exact Or.inr ⟨req, hoptions, hreach, res', hrun⟩
      | staticFile filePath => exact Or.inl (Prod.mk.inj (Option.some.inj hrun)).2.symm

/-- An insertion changes no row that is there. -/
theorem lookup_insertJob_of_ne_none (job : Job) {k : Int64} (hk : db.table.lookup k ≠ none) :
    (insertJob db job o).2.table.lookup k = db.table.lookup k := by
  cases o with
  | prepareError rc => rfl
  | stepError => rfl
  | ok =>
    cases hnext : db.table.nextRowid with
    | none => rw [insertJob, Stmt.step_insert_full hnext]
    | some k' =>
      rw [insertJob_ok job hnext, Table.lookup_insert, if_neg]
      rintro rfl
      exact hk (Table.lookup_nextRowid hnext)

theorem lookup_createTask (h : handle load uninit now db o (.createTask body) = some (res, db'))
    {k : Int64} (hk : db.table.lookup k ≠ none) : db'.table.lookup k = db.table.lookup k := by
  rw [handle_eq_serve] at h
  rcases serve_cases h with ⟨rfl, -⟩ | ⟨_, job, -, -, rfl⟩ | ⟨id, c, hcall, -⟩
  · rfl
  · exact lookup_insertJob_of_ne_none job hk
  · simp [Request.jobCall] at hcall

/-- A request for one row changes no other, and that one as it should. -/
theorem changes_rowRequest {req : RowRequest} {id : Int64}
    (h : handle load uninit now db o (req.request id) = some (res, db')) {k : Int64}
    (hk : db'.table.lookup k ≠ db.table.lookup k) : bindInt id.toInt32 = k ∧
      db'.table.lookup k = (db.table.lookup k).bind fun r => req.effect r := by
  obtain ⟨res', db'', hhandle, hacts⟩ := @handle_rowRequest load uninit now db o req id
  rw [h] at hhandle
  obtain ⟨rfl, rfl⟩ := Prod.mk.inj (Option.some.inj hhandle)
  have hrow : bindInt id.toInt32 = k := by
    by_contra hne
    exact hk (hacts.others k (Ne.symm hne))
  subst hrow
  refine ⟨rfl, ?_⟩
  have heffect := hacts.row
  split at heffect
  · exact heffect
  · exact absurd heffect hk

/-- **What a request changes, it names.**  A creation changes no row that is there; any other
request changes the row of the number in its address, as it should. -/
theorem respond_changes [Strtod]
    (h : respond load files uninit now db o m url body = some (res, db')) {k : Int64}
    (hk : db'.table.lookup k ≠ db.table.lookup k) :
    (m = .post ∧ url = ascii "/CreateTask" ∧ db.table.lookup k = none) ∨
      ∃ (req : RowRequest) (text : Bytes) (id : Int64), m = req.address.1 ∧
        url = req.address.2 ++ text ∧ readInt text = some (id, []) ∧ bindInt id.toInt32 = k ∧
          db'.table.lookup k = (db.table.lookup k).bind fun r => req.effect r := by
  have hreads : db ≠ db' := fun heq => hk (by rw [heq])
  rcases respond_cases h with heq | ⟨req, -, hreach, res', hhandle⟩
  · exact absurd heq.symm hreads
  have hsame : ∀ {asked : HTTPMethod}, (if m = .head then .get else m) = asked → asked ≠ .get →
      m = asked := by
    intro asked hasked hget
    split at hasked
    · exact absurd hasked.symm hget
    · exact hasked
  generalize hasked : (if m = .head then HTTPMethod.get else m) = asked at hreach
  cases hreach with
  | root => exact absurd (Prod.mk.inj (Option.some.inj hhandle)).2 hreads
  | jobs => exact absurd (Prod.mk.inj (Option.some.inj hhandle)).2 hreads
  | job => exact absurd (Prod.mk.inj (Option.some.inj hhandle)).2 hreads
  | createTask =>
    refine Or.inl ⟨hsame hasked (by decide), rfl, ?_⟩
    by_contra hrow
    exact hk (lookup_createTask hhandle hrow)
  | @deleteTask text id hread =>
    exact Or.inr ⟨.deleteTask, text, id, hsame hasked (by decide), rfl, hread,
      changes_rowRequest hhandle hk⟩
  | @pauseJob text id hread =>
    exact Or.inr ⟨.pauseJob, text, id, hsame hasked (by decide), rfl, hread,
      changes_rowRequest hhandle hk⟩
  | @resumeJob text id hread =>
    exact Or.inr ⟨.resumeJob, text, id, hsame hasked (by decide), rfl, hread,
      changes_rowRequest hhandle hk⟩

end

/-- `DELETE /DeleteTask/2` deletes the job 2. -/
theorem respond_changes_two : ∃ res db',
    @respond strtodHalf (fun _ => none) (fun _ => .new) 0 0 twoJobs .ok .delete
      (ascii "/DeleteTask/2") [] = some (res, db') ∧
    ((HTTPMethod.delete = .post ∧ ascii "/DeleteTask/2" = ascii "/CreateTask" ∧
        twoJobs.table.lookup 2 = none) ∨
      ∃ (req : RowRequest) (text : Bytes) (id : Int64), HTTPMethod.delete = req.address.1 ∧
        ascii "/DeleteTask/2" = req.address.2 ++ text ∧ readInt text = some (id, []) ∧
          bindInt id.toInt32 = 2 ∧
            db'.table.lookup 2 = (twoJobs.table.lookup 2).bind fun r => req.effect r) := by
  let _ : Strtod := strtodHalf
  have hreach : Reaches [] .delete (ascii "/DeleteTask/" ++ ascii "2")
      (.request (.deleteTask 2)) := .deleteTask (by decide)
  have hrespond : respond (fun _ => none) (fun _ => .new) 0 0 twoJobs .ok .delete
      (ascii "/DeleteTask/2") [] =
        some ((Response.new.assign 200 (deleteText true 2)).finish, (deleteJob twoJobs 2 .ok).2) :=
    respond_of_reaches (m := .delete) (by decide) hreach
  exact ⟨_, _, hrespond, respond_changes hrespond (by decide)⟩

end JobScheduler
