import JobScheduler.Creation

/-!
# The routes

The handlers of `Src/Controller/Controller.cpp`, and what Crow makes of them: a
handler that returns a text has it sent, one that takes the response has to end it
itself, and an exception becomes an empty response with status 500.

Three slips of the source are modelled as they stand.  `res.body = 400` assigns a
character to the body, and leaves the status alone; `if (job.id = -1)` assigns, and
is always taken; `res.end;` names a member function and does not call it.

`crow::json::load` is a parameter: the value a text parses to, or `none`.  What the
handlers print is left out.

## Main definitions

* `Response` — a response under construction.
* `createTaskRoute`, `deleteTaskRoute`, … — the handlers.
* `Request`, `handle` — the registered routes.
* `Truthful` — the response is sent once and tells what happened.

## Main results

* `handle_truthful_iff` — **the requests that are answered as they should be.**
-/

namespace JobScheduler

open CText
open RValue (member object string number)

/-! ### Responses -/

/-- `crow::response`, with the times its completion handler has been called. -/
structure Response where
  code : ℕ
  body : Bytes
  completed : Bool
  sent : ℕ
  deriving DecidableEq, Repr

/-- The response that a handler is given. -/
def Response.new : Response := ⟨200, [], false, 0⟩

namespace Response

/-- `response::write`. -/
def write (res : Response) (bodyPart : Bytes) : Response :=
  { res with body := res.body ++ bodyPart }

/-- `response::end`. -/
def finish (res : Response) : Response :=
  if res.completed then res else { res with completed := true, sent := res.sent + 1 }

/-- `res.body = n`: `std::string` is assigned a character. -/
def assignBody (res : Response) (n : ℕ) : Response := { res with body := [UInt8.ofNat n] }

/-- `res = response(code, body)`: the completion handler stays. -/
def assign (res : Response) (code : ℕ) (body : Bytes) : Response :=
  { res with code, body, completed := false }

end Response

/-! ### The handlers -/

/-- `std::to_string` of an id. -/
def idText (id : Int32) : Bytes := decimalInt id.toInt

/-- `root_route`. -/
def rootRoute (res : Response) : Response :=
  (res.write (ascii "server is listening to our requests now...")).finish

/-- The text for a job that was created. -/
def createdText (id : Int32) : Bytes := ascii "Job created Successfully with id " ++ idText id

/-- `create_task_route`. -/
def createTaskRoute (load : Bytes → Option RValue) (uninit now : Int64) (db : Db) (body : Bytes)
    (o : SqlOutcome) (res : Response) : Except Fault (Response × Db) :=
  match load body with
  | none => pure (((res.assignBody 400).write (ascii "Invalid Json Body")).finish, db)
  | some body => do
    let (job, error, db) ← createJob uninit now db body o
    -- `if (job.id = -1)`
    let job := { job with id := -1 }
    if job.id ≠ (0 : Int32) then pure ((res.assignBody 400).write error, db)
    else pure ((res.assignBody 200).write (createdText job.id), db)

/-- The texts of `delete_task_route`. -/
def deleteText (flag : Bool) (id : Int32) : Bytes :=
  if flag then ascii "successfuly job task with id : " ++ idText id ++ ascii " deleted"
  else ascii "Failed to delete job with id : " ++ idText id

/-- `delete_task_route`. -/
def deleteTaskRoute (db : Db) (id : Int32) (o : SqlOutcome) : Bytes × Db :=
  let (flag, db) := deleteJob db id o
  (deleteText flag id, db)

/-- `get_all_jobs_route`; the jobs it selects are printed. -/
def getAllJobsRoute (res : Response) : Response :=
  res.write (ascii "All jobs retrieved successfully")

/-- The texts of `get_job_by_id_route`. -/
def getText (flag : Bool) (id : Int32) : Bytes :=
  if flag then ascii "job with id " ++ idText id ++ ascii " retrieved successfully"
  else ascii "job with id " ++ idText id ++ ascii "not exist in Database"

/-- `get_job_by_id_route`; the job is printed. -/
def getJobByIdRoute (db : Db) (id : Int32) (o : SqlOutcome) : Bytes :=
  let (flag, _) := getJobById db default id o
  getText flag id

/-- The texts of `pause_job_route`. -/
def pauseText (flag : Bool) (id : Int32) : Bytes :=
  if flag then ascii "job with id : " ++ idText id ++ ascii "paused successfuly"
  else ascii "Failed to pause the job with id : " ++ idText id

/-- `pause_job_route`. -/
def pauseJobRoute (db : Db) (id : Int32) (o : SqlOutcome) : Bytes × Db :=
  let (flag, db) := pauseJob db id o
  (pauseText flag id, db)

/-- The texts of `resume_job_route`. -/
def resumeText (flag : Bool) (id : Int32) : Bytes :=
  if flag then ascii "job with id : " ++ idText id ++ ascii "resumed successfuly"
  else ascii "Failed to resume the job with id : " ++ idText id

/-- `resume_job_route`. -/
def resumeJobRoute (db : Db) (id : Int32) (o : SqlOutcome) : Bytes × Db :=
  let (flag, db) := resumeJob db id o
  (resumeText flag id, db)

/-! ### The routes -/

/-- A request to one of the registered routes.  Crow parses an id as an `int64_t`. -/
inductive Request
  | root
  | createTask (body : Bytes)
  | deleteTask (id : Int64)
  | jobs
  | job (id : Int64)
  | pauseJob (id : Int64)
  | resumeJob (id : Int64)
  deriving DecidableEq

/-- The handler that `register_routes` gives a route, as Crow wraps it; the lambdas
take an id as an `int`. -/
def registerRoutes (load : Bytes → Option RValue) (uninit now : Int64) (db : Db) (o : SqlOutcome)
    (res : Response) : Request → Except Fault (Response × Db)
  | .root => pure (rootRoute res, db)
  | .createTask body => createTaskRoute load uninit now db body o res
  | .deleteTask id =>
    let (text, db) := deleteTaskRoute db id.toInt32 o
    pure ((res.assign 200 text).finish, db)
  | .jobs => pure (getAllJobsRoute res, db)
  | .job id => pure ((res.assign 200 (getJobByIdRoute db id.toInt32 o)).finish, db)
  | .pauseJob id =>
    let (text, db) := pauseJobRoute db id.toInt32 o
    pure ((res.assign 200 text).finish, db)
  | .resumeJob id =>
    let (text, db) := resumeJobRoute db id.toInt32 o
    pure ((res.assign 200 text).finish, db)

/-- `Router::handle`: an exception is answered with status 500.  Only `create_job`
throws, before it has changed the table.  `none` where the behaviour is undefined. -/
def handle (load : Bytes → Option RValue) (uninit now : Int64) (db : Db) (o : SqlOutcome)
    (req : Request) : Option (Response × Db) :=
  match registerRoutes load uninit now db o Response.new req with
  | .ok r => some r
  | .error .undefinedBehaviour => none
  | .error .outOfFuel => none
  | .error _ => some ((Response.new.assign 500 []).finish, db)

/-! ### What a response should say -/

/-- A row with this id is there now, and was not before. -/
def Inserted (db db' : Db) (id : Int32) : Prop :=
  db.table.lookup (bindInt id) = none ∧ db'.table.lookup (bindInt id) ≠ none

/-- The body does not parse, or the checks leave this text. -/
def RejectedWith (load : Bytes → Option RValue) (uninit : Int64) (body error : Bytes) : Prop :=
  (load body = none ∧ error = ascii "Invalid Json Body") ∨
    ∃ v, load body = some v ∧ validateJobInput uninit v = .ok (some error)

/-- The id of a request by id, and the text of a successful answer. -/
def Request.success : Request → Option (Int64 × Bytes)
  | .deleteTask id => some (id, deleteText true id.toInt32)
  | .job id => some (id, getText true id.toInt32)
  | .pauseJob id => some (id, pauseText true id.toInt32)
  | .resumeJob id => some (id, resumeText true id.toInt32)
  | _ => none

/-- **The response is sent once and tells the truth**: on creation, success exactly for
the row that was inserted, and status 400 with the error text for a rejected body; by
id, success exactly for a row that was there. -/
def Truthful (load : Bytes → Option RValue) (uninit now : Int64) (db : Db) (o : SqlOutcome)
    (req : Request) : Prop :=
  ∃ res db', handle load uninit now db o req = some (res, db') ∧ res.sent = 1 ∧
    (∀ body, req = .createTask body →
      (∀ id, (res.code = 200 ∧ res.body = createdText id) ↔ Inserted db db' id) ∧
        ∀ error, RejectedWith load uninit body error → res.code = 400 ∧ res.body = error) ∧
    ∀ id text, req.success = some (id, text) →
      (res.body = text ↔ db.table.lookup id ≠ none)

/-- The row that the statement looks for is found exactly when the request's is there.
An id that fits an `int` is looked for as it is, and any other one as another. -/
def FindsRow (db : Db) (o : SqlOutcome) (id : Int64) : Prop :=
  FitsInt id ∧ (o = .ok ∨ db.table.lookup id = none) ∨
    ¬ FitsInt id ∧
      ((o = .ok ∧ db.table.lookup (bindInt id.toInt32) ≠ none) ↔ db.table.lookup id ≠ none)

/-- The requests that are answered so: the root page; a request by id that finds its
row; and a body on which `create_job` throws. -/
def AnswersWell (load : Bytes → Option RValue) (uninit : Int64) (db : Db) (o : SqlOutcome) :
    Request → Prop
  | .root => True
  | .createTask body => ∃ v, load body = some v ∧ (∀ l, v ≠ .list l) ∧
      ¬ ∃ members, v = .object members ∧
        (validateJobInput uninit v = .ok none → WellTyped members)
  | .jobs => False
  | .deleteTask id | .job id | .pauseJob id | .resumeJob id => FindsRow db o id

/-! ### Requests by id -/

section ById

variable {load : Bytes → Option RValue} {uninit now : Int64} {db db' : Db} {o : SqlOutcome}
  {req : Request} {id : Int64}

theorem findsRow_iff (db : Db) (o : SqlOutcome) (id : Int64) :
    FindsRow db o id ↔
      ((o = .ok ∧ db.table.lookup (bindInt id.toInt32) ≠ none) ↔ db.table.lookup id ≠ none) := by
  unfold FindsRow
  by_cases hfits : FitsInt id
  · have hid : bindInt id.toInt32 = id := toInt64_toInt32_eq_iff.mpr hfits
    rw [hid]
    by_cases hrow : db.table.lookup id = none <;> simp [hfits, hrow]
  · simp [hfits]

/-- What the four requests by id share: the text depends on a flag, which tells
whether the statement has found its row. -/
theorem truthful_byId (text : Bool → Bytes) {flag : Bool}
    (hreq : req.success = some (id, text true)) (hcreate : ∀ body, req ≠ .createTask body)
    (hhandle : handle load uninit now db o req =
      some ((Response.new.assign 200 (text flag)).finish, db'))
    (hflag : flag = true ↔ o = .ok ∧ db.table.lookup (bindInt id.toInt32) ≠ none)
    (htext : text false ≠ text true) :
    Truthful load uninit now db o req ↔ FindsRow db o id := by
  have hbody : text flag = text true ↔ flag = true := by
    cases flag with
    | true => simp
    | false => simp [htext]
  -- the text tells the flag, and the flag whether the statement has found its row
  rw [findsRow_iff, ← hflag, ← hbody]
  constructor
  · rintro ⟨res, db'', hres, -, -, hsuccess⟩
    rw [hhandle, Option.some.injEq, Prod.mk.injEq] at hres
    have := hsuccess id (text true) hreq
    rwa [← hres.1] at this
  · intro h
    refine ⟨_, _, hhandle, rfl, fun body hbody => absurd hbody (hcreate body), ?_⟩
    intro id' text' hsuccess
    rw [hreq, Option.some.injEq, Prod.mk.injEq] at hsuccess
    obtain ⟨rfl, rfl⟩ := hsuccess
    exact h

/-- Texts with different first characters are different. -/
theorem ne_of_head {s t : Bytes} {a b : UInt8} (hs : s.head? = some a) (ht : t.head? = some b)
    (hne : a ≠ b) : s ≠ t := by
  rintro rfl
  rw [hs, Option.some.injEq] at ht
  exact hne ht

theorem truthful_deleteTask : Truthful load uninit now db o (.deleteTask id) ↔
    FindsRow db o id := by
  refine truthful_byId (fun flag => deleteText flag id.toInt32) rfl (by simp) rfl ?_
    (ne_of_head rfl rfl (by decide))
  exact mutate_eq_true_iff (s := .delete (bindInt id.toInt32)) rfl (fun _ => rfl) db o

theorem truthful_pauseJob : Truthful load uninit now db o (.pauseJob id) ↔
    FindsRow db o id := by
  refine truthful_byId (fun flag => pauseText flag id.toInt32) rfl (by simp) rfl ?_
    (ne_of_head rfl rfl (by decide))
  exact mutate_eq_true_iff (s := .setStatus (bindInt Status.paused.toInt) (bindInt id.toInt32)) rfl
    (fun _ => rfl) db o

theorem truthful_resumeJob : Truthful load uninit now db o (.resumeJob id) ↔
    FindsRow db o id := by
  refine truthful_byId (fun flag => resumeText flag id.toInt32) rfl (by simp) rfl ?_
    (ne_of_head rfl rfl (by decide))
  exact mutate_eq_true_iff (s := .setStatus (bindInt Status.active.toInt) (bindInt id.toInt32)) rfl
    (fun _ => rfl) db o

theorem getJobById_eq_true_iff (db : Db) (job : Job) (id : Int32) (o : SqlOutcome) :
    (getJobById db job id o).1 = true ↔ o = .ok ∧ db.table.lookup (bindInt id) ≠ none := by
  cases o with
  | ok => cases h : db.table.lookup (bindInt id) <;> simp [getJobById, h]
  | prepareError rc => simp [getJobById]
  | stepError => simp [getJobById]

theorem truthful_job : Truthful load uninit now db o (.job id) ↔
    FindsRow db o id := by
  refine truthful_byId (fun flag => getText flag id.toInt32) rfl (by simp) rfl
    (getJobById_eq_true_iff db default id.toInt32 o) ?_
  -- the two texts part after the id
  intro h
  simp only [getText, Bool.false_eq_true, if_false, if_true] at h
  exact absurd (List.append_cancel_left h) (by decide)

end ById

/-! ### Creation -/

section Create

variable {load : Bytes → Option RValue} {uninit now : Int64} {db : Db} {o : SqlOutcome}
  {body : Bytes}

/-- A body that does not parse is answered with status 200. -/
theorem not_truthful_of_unparsable (h : load body = none) :
    ¬ Truthful load uninit now db o (.createTask body) := by
  rintro ⟨res, db', hres, -, hcreate, -⟩
  obtain ⟨-, hrejected⟩ := hcreate body rfl
  have hcode := (hrejected _ (Or.inl ⟨h, rfl⟩)).1
  have hok : handle load uninit now db o (.createTask body) =
      some (((Response.new.assignBody 400).write (ascii "Invalid Json Body")).finish, db) := by
    simp only [handle, registerRoutes, createTaskRoute, h]
    rfl
  rw [hok, Option.some.injEq, Prod.mk.injEq] at hres
  rw [← hres.1] at hcode
  exact absurd hcode (by decide)

/-- A response that `create_job` is asked for is never ended. -/
theorem handle_created {v : RValue} {job : Job} {error : Bytes} {db' : Db} (h : load body = some v)
    (hcreate : createJob uninit now db v o = .ok (job, error, db')) :
    handle load uninit now db o (.createTask body) =
      some ((Response.new.assignBody 400).write error, db') := by
  simp only [handle, registerRoutes, createTaskRoute, h, hcreate, ok_bind]
  rfl

theorem not_truthful_of_created {v : RValue} {r : Job × Bytes × Db} (h : load body = some v)
    (hcreate : createJob uninit now db v o = .ok r) :
    ¬ Truthful load uninit now db o (.createTask body) := by
  rintro ⟨res, db', hres, hsent, -⟩
  rw [handle_created h hcreate, Option.some.injEq, Prod.mk.injEq] at hres
  rw [← hres.1] at hsent
  exact absurd (show (0 : ℕ) = 1 from hsent) (by decide)

/-- A list has the checks read keys that were never set, unless it is empty. -/
theorem not_truthful_of_list {l : List RValue} (h : load body = some (.list l)) :
    ¬ Truthful load uninit now db o (.createTask body) := by
  cases l with
  | nil =>
    have hrejected : validateJobInput uninit (.list []) =
        .ok (some (ascii "The Name field is required and must be a non-empty String")) := rfl
    exact not_truthful_of_created h (createJob_of_rejected hrejected o)
  | cons v l =>
    have hundefined : handle load uninit now db o (.createTask body) = none := by
      simp only [handle, registerRoutes, createTaskRoute, h]
      rfl
    rintro ⟨res, db', hres, -⟩
    rw [hundefined] at hres
    simp at hres

/-- Crow ends the response of a body on which `create_job` throws, and nothing has been
inserted. -/
theorem truthful_of_throws {v : RValue} {what : Bytes} (h : load body = some v)
    (hcreate : createJob uninit now db v o = .error (.runtimeError what)) :
    Truthful load uninit now db o (.createTask body) := by
  have hhandle : handle load uninit now db o (.createTask body) =
      some ((Response.new.assign 500 []).finish, db) := by
    simp only [handle, registerRoutes, createTaskRoute, h, hcreate, error_bind]
  refine ⟨_, db, hhandle, rfl, ?_, by simp [Request.success]⟩
  intro body' hbody
  rw [Request.createTask.injEq] at hbody
  subst hbody
  constructor
  · intro id
    constructor
    · rintro ⟨hcode, -⟩
      exact absurd hcode (by decide)
    · rintro ⟨hnone, hsome⟩
      exact absurd hnone hsome
  · rintro error (⟨hnone, -⟩ | ⟨v', hv', hrejected⟩)
    · rw [h] at hnone
      simp at hnone
    · -- a rejected body does not make it throw
      rw [h, Option.some.injEq] at hv'
      subst hv'
      rw [createJob_of_rejected hrejected] at hcreate
      simp at hcreate

theorem truthful_createTask : Truthful load uninit now db o (.createTask body) ↔
    ∃ v, load body = some v ∧ (∀ l, v ≠ .list l) ∧ ¬ ∃ members, v = .object members ∧
      (validateJobInput uninit v = .ok none → WellTyped members) := by
  cases h : load body with
  | none => simp [not_truthful_of_unparsable h]
  | some v =>
    by_cases hlist : ∃ l, v = .list l
    · obtain ⟨l, rfl⟩ := hlist
      simp [not_truthful_of_list h]
    · have hlist : ∀ l, v ≠ .list l := fun l hl => hlist ⟨l, hl⟩
      have hiff := createJob_ok_iff uninit now db o hlist
      constructor
      · intro htruthful
        refine ⟨v, rfl, hlist, ?_⟩
        intro hreturns
        obtain ⟨r, hr⟩ := hiff.mpr hreturns
        exact not_truthful_of_created h hr htruthful
      · rintro ⟨v', hv', -, hthrows⟩
        obtain rfl := Option.some.inj hv'
        obtain ⟨what, hwhat⟩ := createJob_throws uninit now db o hlist
          (fun hr => hthrows (hiff.mp hr))
        exact truthful_of_throws h hwhat

end Create

/-- The list of all jobs is written and never sent. -/
theorem not_truthful_jobs (load : Bytes → Option RValue) (uninit now : Int64) (db : Db)
    (o : SqlOutcome) : ¬ Truthful load uninit now db o .jobs := by
  rintro ⟨res, db', hres, hsent, -⟩
  have hok : handle load uninit now db o .jobs =
      some (Response.new.write (ascii "All jobs retrieved successfully"), db) := rfl
  rw [hok, Option.some.injEq, Prod.mk.injEq] at hres
  rw [← hres.1] at hsent
  exact absurd hsent (by decide)

/-- **The requests that are answered as they should be**, for every table and every
outcome of the SQLite calls. -/
theorem handle_truthful_iff (load : Bytes → Option RValue) (uninit now : Int64) (db : Db)
    (o : SqlOutcome) (req : Request) :
    Truthful load uninit now db o req ↔ AnswersWell load uninit db o req := by
  cases req with
  | root =>
    refine ⟨fun _ => trivial, fun _ => ⟨_, db, rfl, rfl, by simp, by simp [Request.success]⟩⟩
  | createTask body => exact truthful_createTask
  | deleteTask id => exact truthful_deleteTask
  | jobs => exact ⟨not_truthful_jobs load uninit now db o, False.elim⟩
  | job id => exact truthful_job
  | pauseJob id => exact truthful_pauseJob
  | resumeJob id => exact truthful_resumeJob

/-- A body that is no JSON at all is answered with status 200. -/
theorem handle_accepts_garbage :
    ¬ Truthful (fun _ => none) 0 0 Db.empty .ok (.createTask (ascii "x")) := by
  rintro ⟨res, db', hres, -, hcreate, -⟩
  obtain ⟨-, hrejected⟩ := hcreate (ascii "x") rfl
  have hcode := (hrejected (ascii "Invalid Json Body") (Or.inl ⟨rfl, rfl⟩)).1
  have hok : handle (fun _ => none) 0 0 Db.empty .ok (.createTask (ascii "x")) =
      some (⟨200, UInt8.ofNat 400 :: ascii "Invalid Json Body", true, 1⟩, Db.empty) := rfl
  rw [hok, Option.some.injEq, Prod.mk.injEq] at hres
  rw [← hres.1] at hcode
  exact absurd hcode (by decide)

end JobScheduler
