import JobScheduler.Lib.History
import JobScheduler.Server

/-!
# What the server dispatches

The requests of a run decide what is stored when, and so what each tick dispatches.  No
route moves a job on: its next run time stays, and so does its status but for requests to
pause and resume it.

## Main definitions

* `ServerEvent.created`, `ServerEvent.deletes`, `ServerEvent.wroteStatus` — what an event does
  to the jobs.
* `StoredAs` — what the events say about a job.

## Main results

* `item_iff` — the store holds what the events say.
* `dispatched_iff` — **a job is dispatched exactly by the ticks that find it due**, once by
  each.
* `mem_agenda_tick` — what a complete tick dispatches.
* `due_until_stopped` — **a job that is due is dispatched by every complete tick from then on**,
  until a request pauses or deletes it.
-/

namespace JobScheduler

open CText History Runs

/-! ### What an event does to the jobs -/

/-- The job that the event stores. -/
def ServerEvent.created (load : Bytes → Option RValue) : ServerEvent → Option Job
  | .request uninit now .ok (.createTask body) => (creation load uninit now body).bind Prod.snd
  | _ => none

/-- The event deletes the job with this id, if there is one. -/
def ServerEvent.deletes (id : Int32) : ServerEvent → Bool
  | .request _ _ .ok (.deleteTask n) => n.toInt32 = id
  | _ => false

/-- The status that the event gives the job with this id. -/
def ServerEvent.wroteStatus (id : Int32) : ServerEvent → Option Status
  | .request _ _ .ok (.pauseJob n) => if n.toInt32 = id then some .paused else none
  | .request _ _ .ok (.resumeJob n) => if n.toInt32 = id then some .active else none
  | _ => none

/-- The event is a tick. -/
def ServerEvent.isTick : ServerEvent → Bool
  | .tick _ _ => true
  | _ => false

/-- The jobs that the events have stored. -/
def creations (load : Bytes → Option RValue) (events : List ServerEvent) : ℕ :=
  events.countP fun e => (e.created load).isSome

/-- What the events say about the job with this id: it was created, and not deleted since, and
has the status that it was given last. -/
def StoredAs (load : Bytes → Option RValue) (id : Int32) (x : StoredJob)
    (events : List ServerEvent) : Prop :=
  ∃ before e after, events = before ++ e :: after ∧ ∃ built, e.created load = some built ∧
    id = nthId (creations load before) ∧ (∀ e' ∈ after, e'.deletes id = false) ∧
    x = (StoredJob.ofNew built).setStatus
      ((lastWrite (ServerEvent.wroteStatus id) after).getD built.status)

/-- What an event leaves of a job. -/
def ServerEvent.leaves (id : Int32) (e : ServerEvent) (x : StoredJob) : Option StoredJob :=
  if e.deletes id then none else some (x.setStatus ((e.wroteStatus id).getD x.job.status))

section

variable {load : Bytes → Option RValue} {events : List ServerEvent} {e : ServerEvent} {id : Int32}
  {x : StoredJob}

/-- One more event creates the job, or leaves it. -/
theorem storedAs_concat : StoredAs load id x (events ++ [e]) ↔
    (∃ built, e.created load = some built ∧ id = nthId (creations load events) ∧
      x = StoredJob.ofNew built) ∨
      ∃ y, StoredAs load id y events ∧ e.leaves id y = some x := by
  unfold StoredAs
  rw [exists_split_concat]
  constructor
  · intro h
    rcases h with ⟨built, hbuilt, hid, -, hx⟩ |
      ⟨before, c, after, hevents, built, hbuilt, hid, hafter, hx⟩
    · exact Or.inl ⟨built, hbuilt, hid, hx⟩
    · have hold : ∀ e' ∈ after, e'.deletes id = false :=
        fun e' he' => hafter e' (List.mem_append_left _ he')
      have hlast : e.deletes id = false := hafter e (List.mem_append_right _ List.mem_cons_self)
      refine Or.inr ⟨_, ⟨before, c, after, hevents, built, hbuilt, hid, hold, rfl⟩, ?_⟩
      rw [hx, lastWrite_concat, ServerEvent.leaves, hlast]
      cases e.wroteStatus id <;> rfl
  · intro h
    rcases h with ⟨built, hbuilt, hid, hx⟩ |
      ⟨y, ⟨before, c, after, hevents, built, hbuilt, hid, hafter, hy⟩, hleaves⟩
    · exact Or.inl ⟨built, hbuilt, hid, fun e' he' => absurd he' List.not_mem_nil, hx⟩
    · rw [ServerEvent.leaves] at hleaves
      split at hleaves
      · simp at hleaves
      · next hdel =>
        refine Or.inr ⟨before, c, after, hevents, built, hbuilt, hid, ?_, ?_⟩
        · intro e' he'
          rcases List.mem_append.mp he' with he' | he'
          · exact hafter e' he'
          · rw [List.mem_singleton.mp he']
            exact Bool.not_eq_true _ ▸ hdel
        · rw [← Option.some.inj hleaves, hy, lastWrite_concat]
          cases e.wroteStatus id <;> rfl

/-! ### What the store holds -/

variable {p p' : Plan}

/-- An event that neither deletes the job nor gives it a status leaves it as it is. -/
theorem ServerEvent.leaves_eq_some (hdel : e.deletes id = false) (hst : e.wroteStatus id = none)
    (x : StoredJob) : e.leaves id x = some x := by
  rw [leaves, hdel, hst]
  rfl

theorem ServerEvent.bind_leaves (hdel : e.deletes id = false) (hst : e.wroteStatus id = none)
    (item : Option StoredJob) : item.bind (e.leaves id) = item := by
  cases item with
  | none => rfl
  | some x => exact leaves_eq_some hdel hst x

/-- A call that changes the job with the id `id'` as the event does. -/
theorem ServerEvent.item_change {st : JobStore} {id' : Int32} {f : StoredJob → Option StoredJob}
    (hchange : ∀ y, e.leaves id' y = f y) (hother : ∀ id y, id ≠ id' → e.leaves id y = some y)
    (id : Int32) : (st.change id' (fun _ => true) f .ok).2.item id =
      (st.item id).bind (e.leaves id) := by
  show (if id = id' then _ else _) = _
  by_cases hid : id = id'
  · subst hid
    rw [if_pos rfl]
    congr 1
    funext y
    exact (hchange y).symm
  · rw [if_neg hid]
    cases st.item id with
    | none => rfl
    | some y => exact (hother id y hid).symm

/-- What an event makes of the store. -/
def ServerEvent.Changes (load : Bytes → Option RValue) (e : ServerEvent) (st st' : JobStore) :
    Prop :=
  (∃ built, e.created load = some built ∧ st' = st.add (.ofNew built)) ∨
    e.created load = none ∧ st'.count = st.count ∧
      ∀ id, st'.item id = (st.item id).bind (e.leaves id)

/-- An event that does nothing to any job. -/
theorem ServerEvent.changes_refl (hcreated : e.created load = none)
    (hdel : ∀ id, e.deletes id = false) (hst : ∀ id, e.wroteStatus id = none) (st : JobStore) :
    e.Changes load st st :=
  Or.inr ⟨hcreated, rfl, fun id => (bind_leaves (hdel id) (hst id) (st.item id)).symm⟩

/-- A failed statement changes nothing. -/
theorem ServerEvent.changes_failed {uninit now : Int64} {o : SqlOutcome} (ho : o ≠ .ok)
    (req : Request) (st : JobStore) :
    (ServerEvent.request uninit now o req).Changes load st st := by
  cases o with
  | ok => exact absurd rfl ho
  | _ =>
    exact changes_refl (by cases req <;> rfl) (fun id => by cases req <;> rfl)
      (fun id => by cases req <;> rfl) st

/-- **What a request makes of the store.** -/
theorem changes_serve {uninit now : Int64} {o : SqlOutcome} {req : Request} {st st' : JobStore}
    {res : Response} (h : serve RepoCall.meaning load uninit now o st req = some (res, st')) :
    (ServerEvent.request uninit now o req).Changes load st st' := by
  by_cases ho : o = .ok
  · subst ho
    obtain ⟨rfl, hcall, hcreate⟩ | ⟨body, job, rfl, hcreation, rfl⟩ | ⟨id', c, hcall, rfl⟩ :=
      serve_cases h
    · cases req with
      | createTask body =>
        refine ServerEvent.changes_refl ?_ (fun _ => rfl) (fun _ => rfl) st'
        rw [ServerEvent.created, hcreate body rfl]
        rfl
      | root => exact ServerEvent.changes_refl rfl (fun _ => rfl) (fun _ => rfl) st'
      | jobs => exact ServerEvent.changes_refl rfl (fun _ => rfl) (fun _ => rfl) st'
      | _ => simp [Request.jobCall] at hcall
    · refine Or.inl ⟨job, ?_, rfl⟩
      rw [ServerEvent.created, hcreation]
      rfl
    · cases req with
      | root => simp [Request.jobCall] at hcall
      | jobs => simp [Request.jobCall] at hcall
      | createTask body => simp [Request.jobCall] at hcall
      | deleteTask n =>
        obtain ⟨rfl, rfl⟩ := Prod.mk.inj (Option.some.inj hcall)
        refine Or.inr ⟨rfl, rfl, ?_⟩
        refine ServerEvent.item_change (fun y => if_pos (decide_eq_true rfl)) ?_
        intro id y hne
        have hdel : (ServerEvent.request uninit now .ok (.deleteTask n)).deletes id = false :=
          decide_eq_false (Ne.symm hne)
        exact ServerEvent.leaves_eq_some hdel rfl y
      | job n =>
        obtain ⟨rfl, rfl⟩ := Prod.mk.inj (Option.some.inj hcall)
        exact ServerEvent.changes_refl rfl (fun _ => rfl) (fun _ => rfl) st
      | pauseJob n =>
        obtain ⟨rfl, rfl⟩ := Prod.mk.inj (Option.some.inj hcall)
        refine Or.inr ⟨rfl, rfl, ?_⟩
        refine ServerEvent.item_change (fun y => ?_) ?_
        · simp [ServerEvent.leaves, ServerEvent.deletes, ServerEvent.wroteStatus]
        · intro id y hne
          have hst : (ServerEvent.request uninit now .ok (.pauseJob n)).wroteStatus id = none :=
            if_neg (Ne.symm hne)
          exact ServerEvent.leaves_eq_some rfl hst y
      | resumeJob n =>
        obtain ⟨rfl, rfl⟩ := Prod.mk.inj (Option.some.inj hcall)
        refine Or.inr ⟨rfl, rfl, ?_⟩
        refine ServerEvent.item_change (fun y => ?_) ?_
        · simp [ServerEvent.leaves, ServerEvent.deletes, ServerEvent.wroteStatus]
        · intro id y hne
          have hst : (ServerEvent.request uninit now .ok (.resumeJob n)).wroteStatus id = none :=
            if_neg (Ne.symm hne)
          exact ServerEvent.leaves_eq_some rfl hst y
  · have hsame : st' = st := by
      rcases serve_cases h with ⟨rfl, -⟩ | ⟨body, job, -, -, rfl⟩ | ⟨id', c, hcall, rfl⟩
      · rfl
      · cases o with
        | ok => exact absurd rfl ho
        | _ => rfl
      · cases req with
        | root => simp [Request.jobCall] at hcall
        | jobs => simp [Request.jobCall] at hcall
        | createTask body => simp [Request.jobCall] at hcall
        | _ =>
          obtain ⟨rfl, rfl⟩ := Prod.mk.inj (Option.some.inj hcall)
          cases o with
          | ok => exact absurd rfl ho
          | _ => rfl
    rw [hsame]
    exact ServerEvent.changes_failed ho req st

/-- **What an event makes of the store.** -/
theorem Plan.changes_step (hp : p.step load e = some p') : e.Changes load p.store p'.store := by
  cases e with
  | tick now o =>
    rw [← Option.some.inj hp]
    exact ServerEvent.changes_refl rfl (fun _ => rfl) (fun _ => rfl) p.store
  | dispatch =>
    rw [← Option.some.inj hp]
    exact ServerEvent.changes_refl rfl (fun _ => rfl) (fun _ => rfl) p.store
  | request uninit now o req =>
    obtain ⟨⟨res, st⟩, hserve, rfl⟩ := Option.map_eq_some_iff.mp hp
    exact changes_serve hserve

theorem creations_concat : creations load (events ++ [e]) =
    creations load events + if (e.created load).isSome then 1 else 0 := by
  rw [creations, List.countP_append, List.countP_singleton]
  rfl

theorem creations_append_le (load : Bytes → Option RValue) (before after : List ServerEvent) :
    creations load before ≤ creations load (before ++ after) :=
  (List.sublist_append_left before after).countP_le

/-- An event that creates a job does nothing to the others. -/
theorem ServerEvent.leaves_of_created {built : Job} (h : e.created load = some built)
    (x : StoredJob) : e.leaves id x = some x := by
  cases e with
  | tick now o => rfl
  | dispatch => rfl
  | request uninit now o req =>
    cases o with
    | prepareError rc => exact leaves_eq_some (by cases req <;> rfl) (by cases req <;> rfl) x
    | stepError => exact leaves_eq_some (by cases req <;> rfl) (by cases req <;> rfl) x
    | ok =>
      cases req with
      | createTask body => rfl
      | _ => simp [created] at h

/-- **The store holds what the events say.** -/
theorem item_iff (hfew : creations load events < 2 ^ 31)
    (hrun : run (Plan.step load) Plan.start events = some p) :
    p.store.count = creations load events ∧
      ∀ id x, p.store.item id = some x ↔ StoredAs load id x events := by
  induction events using List.reverseRecOn generalizing p with
  | nil =>
    rw [run_nil, Option.some.injEq] at hrun
    subst hrun
    refine ⟨rfl, fun id x => ?_⟩
    constructor
    · intro h
      simp [Plan.start, IdStore.empty] at h
    · intro h
      obtain ⟨before, e, after, heq, _⟩ := h
      exact absurd (List.append_eq_nil_iff.mp heq.symm).2 (List.cons_ne_nil e after)
  | append_singleton events e ih =>
    obtain ⟨q, hq, hstep⟩ := run_concat.mp hrun
    rw [creations_concat] at hfew ⊢
    obtain ⟨hcount, hitem⟩ := ih (by omega) hq
    rcases Plan.changes_step hstep with ⟨built, hbuilt, hstore⟩ | ⟨hnone, hsame, hleaves⟩
    · rw [hbuilt] at hfew ⊢
      rw [hstore]
      refine ⟨congrArg (· + 1) hcount, fun id x => ?_⟩
      rw [storedAs_concat, hbuilt, ← hcount]
      -- the id is none that was given out before
      have hnew : ∀ y, ¬ StoredAs load (nthId q.store.count) y events := by
        intro y hy
        obtain ⟨n, hn, heq⟩ := q.store.bounded _ (by rw [(hitem _ y).mpr hy]; simp)
        exact nthId_ne hn (by rw [hcount]; exact hfew) heq.symm
      show (if id = nthId q.store.count then _ else _) = _ ↔ _
      by_cases hid : id = nthId q.store.count
      · subst hid
        rw [if_pos rfl]
        constructor
        · intro h
          exact Or.inl ⟨built, rfl, rfl, (Option.some.inj h).symm⟩
        · intro h
          rcases h with ⟨built', hbuilt', -, hx⟩ | ⟨y, hy, -⟩
          · rw [hx, Option.some.inj hbuilt']
          · exact absurd hy (hnew y)
      · rw [if_neg hid, hitem]
        constructor
        · intro h
          exact Or.inr ⟨x, h, ServerEvent.leaves_of_created hbuilt x⟩
        · intro h
          rcases h with ⟨-, -, heq, -⟩ | ⟨y, hy, hyx⟩
          · exact absurd heq hid
          · rw [ServerEvent.leaves_of_created hbuilt, Option.some.injEq] at hyx
            exact hyx ▸ hy
    · rw [hnone]
      refine ⟨hsame.trans hcount, fun id x => ?_⟩
      rw [storedAs_concat, hleaves, Option.bind_eq_some_iff, hnone]
      simp only [hitem]
      constructor
      · exact Or.inr
      · intro h
        rcases h with ⟨built, hbuilt, -⟩ | h
        · simp at hbuilt
        · exact h

/-! ### What the ticks have -/

theorem ticks_eq (hrun : run (Plan.step load) Plan.start events = some p) :
    p.ticks = events.countP ServerEvent.isTick := by
  induction events using List.reverseRecOn generalizing p with
  | nil =>
    rw [run_nil, Option.some.injEq] at hrun
    exact hrun ▸ rfl
  | append_singleton events e ih =>
    obtain ⟨q, hq, hstep⟩ := run_concat.mp hrun
    rw [List.countP_append, ← ih hq]
    cases e with
    | request uninit now o req =>
      obtain ⟨r, -, rfl⟩ := Option.map_eq_some_iff.mp hstep
      rfl
    | tick now o => exact Option.some.inj hstep ▸ rfl
    | dispatch => exact Option.some.inj hstep ▸ rfl

/-- The agenda has what the ticks have found. -/
theorem mem_agenda_iff {occ : Occurrence}
    (hrun : run (Plan.step load) Plan.start events = some p) :
    occ ∈ p.agenda ↔ ∃ before e after, events = before ++ e :: after ∧
      ∃ now o q, e = .tick now o ∧ run (Plan.step load) Plan.start before = some q ∧
        occ ∈ q.store.occurrences q.ticks now o := by
  induction events using List.reverseRecOn generalizing p with
  | nil =>
    rw [run_nil, Option.some.injEq] at hrun
    subst hrun
    constructor
    · intro h
      exact absurd h List.not_mem_nil
    · intro h
      obtain ⟨before, e, after, heq, _⟩ := h
      exact absurd (List.append_eq_nil_iff.mp heq.symm).2 (List.cons_ne_nil e after)
  | append_singleton events e ih =>
    obtain ⟨q, hq, hstep⟩ := run_concat.mp hrun
    rw [exists_split_concat, ← ih hq]
    cases e with
    | tick now o =>
      rw [← Option.some.inj hstep, List.mem_append, or_comm]
      refine or_congr_left ⟨fun h => ⟨now, o, q, rfl, hq, h⟩, ?_⟩
      intro h
      obtain ⟨now', o', q', heq, hq', hocc⟩ := h
      obtain ⟨rfl, rfl⟩ := ServerEvent.tick.inj heq
      rw [hq, Option.some.injEq] at hq'
      exact hq' ▸ hocc
    | request uninit now o req =>
      obtain ⟨r, -, rfl⟩ := Option.map_eq_some_iff.mp hstep
      simp
    | dispatch =>
      rw [← Option.some.inj hstep]
      simp

theorem mem_occurrences {st : JobStore} {n : ℕ} {now : Int64} {occ : Occurrence} :
    occ ∈ st.occurrences n now .complete ↔ occ.tick = n + 1 ∧ occ.now = now ∧
      ∃ x, st.item occ.job.id = some x ∧ x.isDue now = true ∧ occ.job = x.under occ.job.id := by
  rw [JobStore.occurrences, List.mem_map]
  simp only [ScanOutcome.deliver, JobStore.mem_jobs]
  constructor
  · intro h
    obtain ⟨job, hjob, hocc⟩ := h
    subst hocc
    exact ⟨rfl, rfl, hjob⟩
  · intro h
    obtain ⟨htick, hnow, hjob⟩ := h
    refine ⟨occ.job, hjob, ?_⟩
    rw [← htick, ← hnow]

/-- What a tick has found has its number. -/
theorem tick_of_mem_occurrences {st : JobStore} {n : ℕ} {now : Int64} {o : ScanOutcome}
    {occ : Occurrence} (h : occ ∈ st.occurrences n now o) : occ.tick = n + 1 := by
  obtain ⟨job, -, rfl⟩ := List.mem_map.mp h
  rfl

theorem nodup_occurrences {st : JobStore} (hfew : st.count < 2 ^ 31) (n : ℕ) (now : Int64)
    (o : ScanOutcome) : ((st.occurrences n now o).map fun x => (x.tick, x.job.id)).Nodup := by
  have hsub : (o.deliver (st.jobs (StoredJob.isDue now))).Sublist
      (st.jobs (StoredJob.isDue now)) := by
    cases o with
    | complete => exact List.Sublist.refl _
    | stopped n => exact List.take_sublist n _
  have hids := (hsub.map Job.id).nodup (JobStore.nodup_jobs hfew _)
  rw [JobStore.occurrences, List.map_map]
  have hpairs : ((o.deliver (st.jobs (StoredJob.isDue now))).map
      ((fun x : Occurrence => (x.tick, x.job.id)) ∘ fun job => ⟨n + 1, now, job⟩)) =
      ((o.deliver (st.jobs (StoredJob.isDue now))).map Job.id).map (n + 1, ·) := by
    rw [List.map_map]
    rfl
  rw [hpairs]
  exact hids.map fun i j heq => (Prod.mk.inj heq).2

/-- No tick has a job twice. -/
theorem nodup_agenda (hfew : creations load events < 2 ^ 31)
    (hrun : run (Plan.step load) Plan.start events = some p) :
    (p.agenda.map fun x => (x.tick, x.job.id)).Nodup ∧ ∀ x ∈ p.agenda, x.tick ≤ p.ticks := by
  induction events using List.reverseRecOn generalizing p with
  | nil =>
    rw [run_nil, Option.some.injEq] at hrun
    subst hrun
    exact ⟨List.nodup_nil, fun x hx => absurd hx List.not_mem_nil⟩
  | append_singleton events e ih =>
    obtain ⟨q, hq, hstep⟩ := run_concat.mp hrun
    rw [creations_concat] at hfew
    obtain ⟨hnodup, hle⟩ := ih (by omega) hq
    cases e with
    | request uninit now o req =>
      obtain ⟨r, -, rfl⟩ := Option.map_eq_some_iff.mp hstep
      exact ⟨hnodup, hle⟩
    | dispatch => exact Option.some.inj hstep ▸ ⟨hnodup, hle⟩
    | tick now o =>
      have hcount := (item_iff (by omega) hq).1
      rw [← Option.some.inj hstep]
      have hnew : ∀ x ∈ q.store.occurrences q.ticks now o, x.tick = q.ticks + 1 :=
        fun x hx => tick_of_mem_occurrences hx
      constructor
      · rw [List.map_append, List.nodup_append]
        refine ⟨hnodup, nodup_occurrences (by omega) q.ticks now o, ?_⟩
        -- the ticks before have smaller numbers
        intro a ha b hb heq
        obtain ⟨x, hx, rfl⟩ := List.mem_map.mp ha
        obtain ⟨y, hy, rfl⟩ := List.mem_map.mp hb
        have hx := hle x hx
        have hy := hnew y hy
        have htick := (Prod.mk.inj heq).1
        omega
      · intro x hx
        rcases List.mem_append.mp hx with hx | hx
        · exact Nat.le_succ_of_le (hle x hx)
        · exact Nat.le_of_eq (hnew x hx)

/-- Only requests to create create. -/
theorem creations_le (load : Bytes → Option RValue) (events : List ServerEvent) :
    creations load events ≤ events.countP ServerEvent.creates := by
  refine List.countP_mono_left ?_
  intro e _ he
  cases e with
  | tick now o => simp [ServerEvent.created] at he
  | dispatch => simp [ServerEvent.created] at he
  | request uninit now o req =>
    cases o with
    | prepareError rc => simp [ServerEvent.created] at he
    | stepError => simp [ServerEvent.created] at he
    | ok =>
      cases req with
      | createTask body => rfl
      | _ => simp [ServerEvent.created] at he

end

/-- The tick with this number finds the job with this id due, as it is in `occ`. -/
def FoundDue (load : Bytes → Option RValue) (events : List ServerEvent) (occ : Occurrence) : Prop :=
  ∃ before after, events = before ++ .tick occ.now .complete :: after ∧
    occ.tick = before.countP ServerEvent.isTick + 1 ∧
    ∃ x, StoredAs load occ.job.id x before ∧ x.isDue occ.now = true ∧
      occ.job = x.under occ.job.id

section

variable {load : Bytes → Option RValue} {events before after : List ServerEvent} {p q : Plan}

/-- The store holds what the first events say. -/
theorem item_iff_of_split {rest : List ServerEvent} {id : Int32} {x : StoredJob}
    (hfew : creations load events < 2 ^ 31) (hevents : events = before ++ rest)
    (hq : run (Plan.step load) Plan.start before = some q) :
    q.store.item id = some x ↔ StoredAs load id x before := by
  have hle := creations_append_le load before rest
  rw [← hevents] at hle
  exact (item_iff (by omega) hq).2 id x

/-- What the agenda has of one complete tick is what that tick finds due, however the scans of
the others end. -/
theorem mem_agenda_tick {now : Int64} {job : Job} (hfew : creations load events < 2 ^ 31)
    (hrun : run (Plan.step load) Plan.start events = some p)
    (hevents : events = before ++ .tick now .complete :: after) :
    ⟨before.countP ServerEvent.isTick + 1, now, job⟩ ∈ p.agenda ↔
      ∃ x, StoredAs load job.id x before ∧ x.isDue now = true ∧ job = x.under job.id := by
  have hcut := hrun
  rw [hevents] at hcut
  obtain ⟨q, hq, -⟩ := run_append.mp hcut
  rw [mem_agenda_iff hrun]
  constructor
  · intro h
    obtain ⟨before', e, after', heq, now', o, q', he, hq', hocc⟩ := h
    subst he
    -- the number of the tick tells its place
    have htick := tick_of_mem_occurrences hocc
    rw [ticks_eq hq'] at htick
    obtain rfl : before = before' :=
      split_unique (hevents.symm.trans heq) rfl rfl (Nat.succ.inj htick)
    rw [hevents, List.append_cancel_left_eq, List.cons.injEq, ServerEvent.tick.injEq] at heq
    obtain ⟨⟨rfl, rfl⟩, -⟩ := heq
    rw [hq, Option.some.injEq] at hq'
    subst hq'
    obtain ⟨-, -, x, hx, hdue, hjob⟩ := mem_occurrences.mp hocc
    exact ⟨x, (item_iff_of_split hfew hevents hq).mp hx, hdue, hjob⟩
  · intro h
    obtain ⟨x, hx, hdue, hjob⟩ := h
    have hitem := (item_iff_of_split hfew hevents hq).mpr hx
    refine ⟨before, _, after, hevents, now, .complete, q, rfl, hq, ?_⟩
    exact mem_occurrences.mpr ⟨by rw [ticks_eq hq], rfl, x, hitem, hdue, hjob⟩

/-- In a run whose scans are complete the agenda has what the ticks find due. -/
theorem mem_agenda_iff_foundDue {occ : Occurrence} (hfew : creations load events < 2 ^ 31)
    (hscan : ∀ now o, ServerEvent.tick now o ∈ events → o = .complete)
    (hrun : run (Plan.step load) Plan.start events = some p) :
    occ ∈ p.agenda ↔ FoundDue load events occ := by
  constructor
  · intro h
    obtain ⟨before, e, after, heq, now, o, q, he, hq, hocc⟩ := (mem_agenda_iff hrun).mp h
    subst he
    obtain rfl : o = .complete := hscan now o (by rw [heq]; simp)
    obtain ⟨htick, hnow, -⟩ := mem_occurrences.mp hocc
    rw [ticks_eq hq] at htick
    obtain ⟨tick, now', job⟩ := occ
    obtain rfl : now' = now := hnow
    obtain rfl : tick = before.countP ServerEvent.isTick + 1 := htick
    exact ⟨before, after, heq, rfl, (mem_agenda_tick hfew hrun heq).mp h⟩
  · intro h
    obtain ⟨before, after, heq, htick, hfound⟩ := h
    obtain ⟨tick, now, job⟩ := occ
    obtain rfl : tick = before.countP ServerEvent.isTick + 1 := htick
    exact (mem_agenda_tick hfew hrun heq).mpr hfound

end

section

variable {load : Bytes → Option RValue} {id : Int32} {x : StoredJob}

/-- The routes write two statuses. -/
theorem ServerEvent.wroteStatus_cases (id : Int32) (e : ServerEvent) :
    e.wroteStatus id = none ∨ e.wroteStatus id = some .paused ∨
      e.wroteStatus id = some .active := by
  cases e with
  | tick now o => exact Or.inl rfl
  | dispatch => exact Or.inl rfl
  | request uninit now o req =>
    cases o with
    | prepareError rc => exact Or.inl (by cases req <;> rfl)
    | stepError => exact Or.inl (by cases req <;> rfl)
    | ok =>
      cases req with
      | pauseJob n =>
        by_cases hid : n.toInt32 = id
        · exact Or.inr (Or.inl (if_pos hid))
        · exact Or.inl (if_neg hid)
      | resumeJob n =>
        by_cases hid : n.toInt32 = id
        · exact Or.inr (Or.inr (if_pos hid))
        · exact Or.inl (if_neg hid)
      | _ => exact Or.inl rfl

/-- The event neither deletes nor pauses the job. -/
def ServerEvent.Spares (id : Int32) (e : ServerEvent) : Prop :=
  e.deletes id = false ∧ e.wroteStatus id ≠ some .paused

/-- An active job that is spared stays as it is. -/
theorem StoredAs.append (hactive : x.job.status = .active) {events : List ServerEvent}
    (h : StoredAs load id x events) (more : List ServerEvent) (hspares : ∀ e ∈ more, e.Spares id) :
    StoredAs load id x (events ++ more) := by
  induction more using List.reverseRecOn with
  | nil => rwa [List.append_nil]
  | append_singleton more e ih =>
    have hold := ih fun e' he' => hspares e' (List.mem_append_left _ he')
    obtain ⟨hdel, hpaused⟩ := hspares e (List.mem_append_right _ List.mem_cons_self)
    rw [← List.append_assoc]
    refine storedAs_concat.mpr (Or.inr ⟨x, hold, ?_⟩)
    rcases e.wroteStatus_cases id with hnone | hp | ha
    · exact ServerEvent.leaves_eq_some hdel hnone x
    · exact absurd hp hpaused
    · rw [ServerEvent.leaves, hdel, ha, Option.getD_some, ← hactive]
      rfl

end

/-- **A job that is due is dispatched by every complete tick from then on**, a one-time job too,
until a request deletes or pauses it: no route and no dispatch moves it on. -/
theorem due_until_stopped {load : Bytes → Option RValue} {events more : List ServerEvent}
    {s : Server} (hfew : (events ++ more).countP ServerEvent.creates < 2 ^ 31)
    (hrun : run (Server.step load) Server.start (events ++ more) = some s) {id : Int32}
    {x : StoredJob} {now : Int64} (hx : StoredAs load id x events) (hdue : x.isDue now = true)
    (hspares : ∀ e ∈ more, e.Spares id) {before after : List ServerEvent} {now' : Int64}
    (hmore : more = before ++ .tick now' .complete :: after) (hnow : now ≤ now') :
    ⟨(events ++ before).countP ServerEvent.isTick + 1, now', x.under id⟩ ∈ s.scheduler.agenda := by
  have hcreations : creations load (events ++ more) < 2 ^ 31 :=
    Nat.lt_of_le_of_lt (creations_le load (events ++ more)) hfew
  have hevents : events ++ more = (events ++ before) ++ .tick now' .complete :: after := by
    rw [hmore, List.append_assoc]
  obtain ⟨p, hp, hfollows⟩ := server_follows hfew hrun
  rw [← hfollows.agenda, mem_agenda_tick hcreations hp hevents]
  rw [StoredJob.isDue, Bool.and_eq_true, decide_eq_true_eq, decide_eq_true_eq] at hdue
  have hstays : StoredAs load id x (events ++ before) := by
    apply hx.append hdue.1
    intro e he
    exact hspares e (by rw [hmore]; exact List.mem_append_left _ he)
  have hdue' : x.isDue now' = true := by
    rw [StoredJob.isDue, Bool.and_eq_true, decide_eq_true_eq, decide_eq_true_eq]
    exact ⟨hdue.1, Int64.le_trans hdue.2 hnow⟩
  exact ⟨x, hstays, hdue', rfl⟩

/-- The ticks of a run whose second scan fails at once. -/
def interruptedTicks : List ServerEvent :=
  [.tick 1 .complete, .dispatch, .tick 2 (.stopped 0), .tick 3 .complete]

/-- A one-time job for the time 1 is dispatched by the ticks at 1 and at 3. -/
theorem due_until_stopped_twice : ∃ s x,
    run (Server.step (load MemberSort.stable)) Server.start
      ([.request 0 0 .ok (.createTask serverBody)] ++ interruptedTicks) = some s ∧
      ⟨1, 1, x⟩ ∈ s.scheduler.agenda ∧ ⟨3, 3, x⟩ ∈ s.scheduler.agenda := by
  obtain ⟨s, hs⟩ := Option.isSome_iff_exists.mp
    (show (run (Server.step (load MemberSort.stable)) Server.start
      ([.request 0 0 .ok (.createTask serverBody)] ++ interruptedTicks)).isSome = true by
        decide +kernel)
  obtain ⟨built, hbuilt⟩ := Option.isSome_iff_exists.mp
    (show ((ServerEvent.request 0 0 .ok (.createTask serverBody)).created
      (load MemberSort.stable)).isSome = true by decide +kernel)
  have hdue : ((ServerEvent.request 0 0 .ok (.createTask serverBody)).created
      (load MemberSort.stable)).map (fun built => (StoredJob.ofNew built).isDue 1) = some true := by
    decide +kernel
  rw [hbuilt, Option.map_some, Option.some.injEq] at hdue
  have hx : StoredAs (load MemberSort.stable) 1 (.ofNew built)
      [.request 0 0 .ok (.createTask serverBody)] :=
    ⟨[], _, [], rfl, built, hbuilt, by decide, by simp, rfl⟩
  have hspares : ∀ e ∈ interruptedTicks, e.Spares 1 := by
    simp [interruptedTicks, ServerEvent.Spares, ServerEvent.deletes, ServerEvent.wroteStatus]
  have hfirst : interruptedTicks =
      [] ++ .tick 1 .complete :: [.dispatch, .tick 2 (.stopped 0), .tick 3 .complete] := rfl
  have hthird : interruptedTicks =
      [.tick 1 .complete, .dispatch, .tick 2 (.stopped 0)] ++ .tick 3 .complete :: [] := rfl
  refine ⟨s, (StoredJob.ofNew built).under 1, hs, ?_, ?_⟩
  · exact due_until_stopped (by decide) hs hx hdue hspares hfirst (by decide)
  · exact due_until_stopped (by decide) hs hx hdue hspares hthird (by decide)

end JobScheduler
