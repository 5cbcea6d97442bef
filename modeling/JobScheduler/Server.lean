import JobScheduler.Controller
import JobScheduler.JobStore
import JobScheduler.Json.Lookup
import JobScheduler.Scheduler

/-!
# The server

What `main` sets going: the routes, which answer requests, and the scheduler loop, which
dispatches due jobs, on one database.  A request is answered between two steps of the loop.
The bodies are bytes; `load` is what `crow::json::load` makes of them.

The routes use the repository layer and nothing else, so they can be run on a store of jobs
as well.  There a tick is one step.

## Main definitions

* `serve` — the routes over anything that answers the calls of the repository layer.
* `ServerEvent`, `Server`, `Server.step` — the server.
* `Plan`, `Plan.step` — what it is for: a store of jobs, the answers, and what the ticks
  dispatch.

## Main results

* `handle_eq_serve` — the handlers are the routes over the table.
* `server_refines` — **every run of the server is one of the plan.**
-/

namespace JobScheduler

open CText Runs Simulation

/-! ### The routes over a store -/

/-- What Crow answers for an exception; `none` where the behaviour is undefined. -/
def thrown : Fault → Option Response
  | .undefinedBehaviour | .outOfFuel => none
  | _ => some (Response.new.assign 500 []).finish

/-- What becomes of the body of a creation: the response, and the job to insert. -/
def creation (load : Bytes → Option RValue) (uninit now : Int64) (body : Bytes) :
    Option (Response × Option Job) :=
  match load body with
  | none => some (((Response.new.assignBody 400).write (ascii "Invalid Json Body")).finish, none)
  | some v =>
    match validateJobInput uninit v with
    | .ok (some error) => some ((Response.new.assignBody 400).write error, none)
    | .ok none =>
      match buildJob uninit now v with
      | .ok job => some ((Response.new.assignBody 400).write [], some job)
      | .error f => (thrown f).map (·, none)
    | .error f => (thrown f).map (·, none)

section

variable {σ τ : Type}

/-- The flag in an answer. -/
def RepoAnswer.found : RepoAnswer → Bool
  | .flag b _ => b
  | _ => false

/-- A route that runs a call on a job, and answers with one of two texts. -/
def serveJob (run : σ → RepoCall → RepoAnswer × σ) (text : Bool → Int32 → Bytes) (s : σ)
    (id : Int32) (c : JobCall) : Response × σ :=
  let (answer, s) := run s (.onJob id c)
  ((Response.new.assign 200 (text answer.found id)).finish, s)

/-- The routes. -/
def serve (run : σ → RepoCall → RepoAnswer × σ) (load : Bytes → Option RValue)
    (uninit now : Int64) (o : SqlOutcome) (s : σ) : Request → Option (Response × σ)
  | .root => some (rootRoute Response.new, s)
  | .createTask body =>
    (creation load uninit now body).map fun (res, job) =>
      (res, job.elim s fun job => (run s (.insertJob job o)).2)
  | .deleteTask id => some (serveJob run deleteText s id.toInt32 (.deleteJob o))
  | .jobs => some (getAllJobsRoute Response.new, s)
  | .job id => some (serveJob run getText s id.toInt32 (.getJobById default o))
  | .pauseJob id => some (serveJob run pauseText s id.toInt32 (.pauseJob o))
  | .resumeJob id => some (serveJob run resumeText s id.toInt32 (.resumeJob o))

/-- **The handlers are the routes over the table.** -/
theorem handle_eq_serve (load : Bytes → Option RValue) (uninit now : Int64) (db : Db)
    (o : SqlOutcome) (req : Request) :
    handle load uninit now db o req = serve RepoCall.run load uninit now o db req := by
  cases req with
  | createTask body =>
    simp only [handle, registerRoutes, createTaskRoute, serve, creation]
    cases load body with
    | none => rfl
    | some v =>
      simp only [createJob]
      cases hvalid : validateJobInput uninit v with
      | error f => cases f <;> rfl
      | ok error =>
        cases error with
        | some error => rfl
        | none =>
          simp only
          cases hjob : buildJob uninit now v with
          | error f => cases f <;> rfl
          | ok job => rfl
  | _ => rfl

/-- The call on a job that a request makes. -/
def Request.jobCall (o : SqlOutcome) : Request → Option (Int32 × JobCall)
  | .deleteTask id => some (id.toInt32, .deleteJob o)
  | .job id => some (id.toInt32, .getJobById default o)
  | .pauseJob id => some (id.toInt32, .pauseJob o)
  | .resumeJob id => some (id.toInt32, .resumeJob o)
  | _ => none

/-- **What a request may do to the store.** -/
theorem serve_cases {run : σ → RepoCall → RepoAnswer × σ} {load : Bytes → Option RValue}
    {uninit now : Int64} {o : SqlOutcome} {s s' : σ} {req : Request} {res : Response}
    (h : serve run load uninit now o s req = some (res, s')) :
    (s' = s ∧ req.jobCall o = none ∧ ∀ body, req = .createTask body →
        creation load uninit now body = some (res, none)) ∨
      (∃ body job, req = .createTask body ∧ creation load uninit now body = some (res, some job) ∧
        s' = (run s (.insertJob job o)).2) ∨
      ∃ id c, req.jobCall o = some (id, c) ∧ s' = (run s (.onJob id c)).2 := by
  cases req with
  | root => exact Or.inl ⟨(Prod.mk.inj (Option.some.inj h)).2.symm, rfl, by simp⟩
  | jobs => exact Or.inl ⟨(Prod.mk.inj (Option.some.inj h)).2.symm, rfl, by simp⟩
  | createTask body =>
    obtain ⟨⟨res', job⟩, hcreation, hs'⟩ := Option.map_eq_some_iff.mp h
    obtain ⟨rfl, rfl⟩ := Prod.mk.inj hs'
    cases job with
    | some job => exact Or.inr (Or.inl ⟨body, job, rfl, hcreation, rfl⟩)
    | none =>
      refine Or.inl ⟨rfl, rfl, ?_⟩
      intro body' hbody
      rw [← Request.createTask.inj hbody, hcreation]
  | _ => exact Or.inr (Or.inr ⟨_, _, rfl, (Prod.mk.inj (Option.some.inj h)).2.symm⟩)

/-- Two results agree, and so do the states that they leave. -/
def Agree {ρ : Type} (R : τ → σ → Prop) (x : Option (ρ × τ)) (y : Option (ρ × σ)) : Prop :=
  x.map Prod.fst = y.map Prod.fst ∧ ∀ a t b s, x = some (a, t) → y = some (b, s) → R t s

theorem agree_some {ρ : Type} {R : τ → σ → Prop} {a : ρ} {t : τ} {s : σ} (h : R t s) :
    Agree R (some (a, t)) (some (a, s)) := by
  refine ⟨rfl, ?_⟩
  intro a' t' b' s' ht hs
  rw [Option.some.injEq, Prod.mk.injEq] at ht hs
  exact ht.2 ▸ hs.2 ▸ h

variable {R : τ → σ → Prop} {ok : τ → RepoCall → Prop} {f : σ → RepoCall → RepoAnswer × σ}
  {g : τ → RepoCall → RepoAnswer × τ}

/-- A route on a job answers the same over stores that do. -/
theorem agree_serveJob (h : Simulates R ok f g) (text : Bool → Int32 → Bytes) {t : τ} {s : σ}
    (hR : R t s) (id : Int32) (c : JobCall) (hok : ok t (.onJob id c)) :
    Agree R (some (serveJob g text t id c)) (some (serveJob f text s id c)) := by
  have hresult := h.result hR hok
  have hnext := h.next hR hok
  simp only [serveJob, hresult]
  exact agree_some hnext

/-- **The routes answer the same over stores that do.** -/
theorem agree_serve (h : Simulates R ok f g) (load : Bytes → Option RValue) (uninit now : Int64)
    (o : SqlOutcome) {t : τ} {s : σ} (hR : R t s) (req : Request)
    (honJob : ∀ id c, ok t (.onJob id c))
    (hinsert : ∀ body, req = .createTask body → ∀ job, ok t (.insertJob job o)) :
    Agree R (serve g load uninit now o t req) (serve f load uninit now o s req) := by
  cases req with
  | root => exact agree_some hR
  | jobs => exact agree_some hR
  | createTask body =>
    simp only [serve]
    cases creation load uninit now body with
    | none => exact ⟨rfl, fun a t' b s' ht => by simp at ht⟩
    | some r =>
      obtain ⟨res, job⟩ := r
      cases job with
      | none => exact agree_some hR
      | some job => exact agree_some (h.next hR (hinsert body rfl job))
  | deleteTask id => exact agree_serveJob h deleteText hR id.toInt32 _ (honJob _ _)
  | job id => exact agree_serveJob h getText hR id.toInt32 _ (honJob _ _)
  | pauseJob id => exact agree_serveJob h pauseText hR id.toInt32 _ (honJob _ _)
  | resumeJob id => exact agree_serveJob h resumeText hR id.toInt32 _ (honJob _ _)

end

/-! ### The server -/

/-- A request is answered, or the loop takes a step. -/
inductive ServerEvent
  | request (uninit now : Int64) (o : SqlOutcome) (req : Request)
  | tick (now : Int64) (o : ScanOutcome)
  | dispatch
  deriving DecidableEq

/-- The request is for a new job. -/
def ServerEvent.creates : ServerEvent → Bool
  | .request _ _ _ (.createTask _) => true
  | _ => false

/-- The loop with its database, and the answers. -/
structure Server where
  scheduler : Scheduler
  answers : List Response

/-- The server as `main` starts it, on a new database. -/
def Server.start : Server := ⟨Scheduler.start Db.empty, []⟩

/-- The server, one event at a time. -/
def Server.step (load : Bytes → Option RValue) (s : Server) : ServerEvent → Option Server
  | .request uninit now o req =>
    (handle load uninit now s.scheduler.db o req).map fun (res, db) =>
      ⟨{ s.scheduler with db }, s.answers ++ [res]⟩
  | .tick now o => (s.scheduler.step (.tick now o)).map fun scheduler => { s with scheduler }
  | .dispatch => (s.scheduler.step .dispatch).map fun scheduler => { s with scheduler }

/-! ### The plan -/

/-- A job that is due at a tick. -/
structure Occurrence where
  tick : ℕ
  /-- The clock as the tick read it. -/
  now : Int64
  job : Job
  deriving DecidableEq

/-- What the server is for: jobs are kept, requests are answered, and each tick has the jobs
that are due. -/
structure Plan where
  store : JobStore
  ticks : ℕ
  agenda : List Occurrence
  answers : List Response

/-- Nothing has happened. -/
def Plan.start : Plan := ⟨IdStore.empty, 0, [], []⟩

/-- What the tick after `n` others has to dispatch. -/
def JobStore.occurrences (st : JobStore) (n : ℕ) (now : Int64) (o : ScanOutcome) :
    List Occurrence :=
  (o.deliver (st.jobs (StoredJob.isDue now))).map fun job => ⟨n + 1, now, job⟩

/-- One event of the plan.  A tick is over at once. -/
def Plan.step (load : Bytes → Option RValue) (p : Plan) : ServerEvent → Option Plan
  | .request uninit now o req =>
    (serve RepoCall.meaning load uninit now o p.store req).map fun (res, store) =>
      { p with store, answers := p.answers ++ [res] }
  | .tick now o => some
      { p with
        ticks := p.ticks + 1
        agenda := p.agenda ++ p.store.occurrences p.ticks now o }
  | .dispatch => some p

/-- What a scheduler has dispatched, and has still to dispatch in this tick. -/
def Scheduler.agenda (s : Scheduler) : List Occurrence :=
  (s.log.map fun d => ⟨d.tick, d.now, d.job⟩) ++ s.due.map fun x => ⟨s.tick, s.now, x.2⟩

/-- The server is where the plan is: it has answered the same, and has dispatched the jobs of
the plan, in order, all but those that are left in its tick. -/
structure Follows (p : Plan) (s : Server) : Prop where
  store : Represents p.store s.scheduler.db
  ticks : p.ticks = s.scheduler.tick
  agenda : p.agenda = s.scheduler.agenda
  answers : p.answers = s.answers

theorem follows_start : Follows Plan.start Server.start := ⟨represents_empty, rfl, rfl, rfl⟩

section

variable {load : Bytes → Option RValue} {p p' : Plan} {s s' : Server}

/-- A request gives out an id for a new job alone. -/
theorem Plan.spends_step :
    Spends (fun p : Plan => p.store.count) ServerEvent.creates
      fun p e p' => p.step load e = some p' := by
  intro p e p' hp'
  cases e with
  | tick now o =>
    rw [← Option.some.inj hp']
    exact Nat.le_add_right _ _
  | dispatch =>
    rw [← Option.some.inj hp']
    exact Nat.le_add_right _ _
  | request uninit now o req =>
    obtain ⟨⟨res, st⟩, hserve, rfl⟩ := Option.map_eq_some_iff.mp hp'
    show st.count ≤ _
    rcases serve_cases hserve with ⟨rfl, -⟩ | ⟨body, job, rfl, -, rfl⟩ | ⟨id, c, -, rfl⟩
    · exact Nat.le_add_right _ _
    · exact RepoCall.spends_meaning p.store (.insertJob job o) _ rfl
    · exact Nat.le_add_right_of_le (RepoCall.spends_meaning p.store (.onJob id c) _ rfl)

/-- A request is answered from the store. -/
theorem Follows.request (h : Follows p s) {uninit now : Int64} {o : SqlOutcome} {req : Request}
    (hfew : (p.store.count +
      if (ServerEvent.request uninit now o req).creates then 1 else 0) < 2 ^ 31)
    (hs : s.step load (.request uninit now o req) = some s') :
    ∃ p', p.step load (.request uninit now o req) = some p' ∧ Follows p' s' := by
  obtain ⟨⟨res, db⟩, hhandle, rfl⟩ := Option.map_eq_some_iff.mp hs
  rw [handle_eq_serve] at hhandle
  have hagree := agree_serve repoCall_simulates load uninit now o h.store req
    (fun _ _ => trivial) (by
      intro body hbody job
      subst hbody
      exact hfew)
  obtain ⟨hres, hstore⟩ := hagree
  rw [hhandle, Option.map_some, Option.map_eq_some_iff] at hres
  obtain ⟨⟨res', st⟩, hserve, hres'⟩ := hres
  subst hres'
  refine ⟨_, congrArg (Option.map _) hserve, hstore _ _ _ _ hserve hhandle, h.ticks, h.agenda, ?_⟩
  exact congrArg (· ++ _) h.answers

/-- A tick finds the jobs that are due in the store. -/
theorem Follows.tick (h : Follows p s) {now : Int64} {o : ScanOutcome}
    (hs : s.step load (.tick now o) = some s') :
    ∃ p', p.step load (.tick now o) = some p' ∧ Follows p' s' := by
  obtain ⟨scheduler, hstep, rfl⟩ := Option.map_eq_some_iff.mp hs
  simp only [Scheduler.step] at hstep
  split at hstep
  · next hdue =>
    rw [Option.some.injEq] at hstep
    subst hstep
    refine ⟨_, rfl, h.store, congrArg (· + 1) h.ticks, ?_, h.answers⟩
    have hjobs : (dueRows s.scheduler.db now o).map Prod.snd =
        o.deliver (p.store.jobs (StoredJob.isDue now)) := by
      rw [dueRows_map_snd]
      exact h.store.selectDueJobs now o
    show p.agenda ++ _ = _
    rw [h.agenda, Scheduler.agenda, Scheduler.agenda, List.isEmpty_iff.mp hdue, List.map_nil,
      List.append_nil, JobStore.occurrences, ← hjobs, List.map_map, h.ticks]
    rfl
  · simp at hstep

/-- A dispatch moves a job from what is left of the tick to what has been dispatched. -/
theorem Follows.dispatch (h : Follows p s) (hs : s.step load .dispatch = some s') :
    ∃ p', p.step load .dispatch = some p' ∧ Follows p' s' := by
  obtain ⟨scheduler, hstep, rfl⟩ := Option.map_eq_some_iff.mp hs
  simp only [Scheduler.step] at hstep
  split at hstep
  · simp at hstep
  · next rowid job due hdue =>
    rw [Option.some.injEq] at hstep
    subst hstep
    refine ⟨p, rfl, h.store, h.ticks, ?_, h.answers⟩
    rw [h.agenda]
    simp only [Scheduler.agenda, hdue, List.map_append, List.map_cons, List.map_nil,
      List.append_assoc, List.cons_append, List.nil_append]

end

/-- The plan follows every run of the server. -/
theorem server_follows {load : Bytes → Option RValue} {events : List ServerEvent} {s : Server}
    (hfew : events.countP ServerEvent.creates < 2 ^ 31)
    (hrun : run (Server.step load) Server.start events = some s) :
    ∃ p, run (Plan.step load) Plan.start events = some p ∧ Follows p s := by
  have hstep : ∀ p s e s', Follows p s →
      (p.store.count + if e.creates then 1 else 0) < 2 ^ 31 → s.step load e = some s' →
      ∃ p', p.step load e = some p' ∧ Follows p' s' := by
    intro p s e s' h hlt hs
    cases e with
    | request uninit now o req => exact h.request hlt hs
    | tick now o => exact h.tick hs
    | dispatch => exact h.dispatch hs
  have hstart : Plan.start.store.count + events.countP ServerEvent.creates < 2 ^ 31 := by
    rw [Plan.start, IdStore.empty, Nat.zero_add]
    exact hfew
  exact run_refines Plan.spends_step hstep events _ _ _ follows_start hstart hrun

/-- The body of a job for the time 1. -/
def serverBody : Bytes :=
  ascii "\x7b\"name\":\"a\",\"type\":0,\"payload\":\"p\",\"next_run_time\":1\x7d"

/-- The job is created, is due, is paused while the tick goes on, and is dispatched. -/
def serverEvents : List ServerEvent :=
  [.request 0 0 .ok (.createTask serverBody), .tick 1 .complete,
    .request 0 0 .ok (.pauseJob 1), .dispatch]

end JobScheduler
