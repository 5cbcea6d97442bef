import JobScheduler.Lib.Runs
import JobScheduler.Numbers

/-!
# Rows and the bodies they come from

The service gives `insert_job` no jobs but those that `create_job` builds, and never calls
`update_job`; its other calls touch one or two columns of a row.  So what a row holds in
the columns that they leave alone was decided by the checks on its body.

## Main definitions

* `ServiceCall`, `Store`, `Store.step` — the calls, and the table with the body that each
  row was created from.
* `Store.EachRow` — a relation between every row and its body.
* `Store.DecidedBy` — a relation that the body decides when its row is created.
* `Reschedulable` — the job has what its next run is computed from.
* `RetriesWithin` — the retry count is within its bounds, and these are those of the body.

## Main results

* `Store.step_createJob` — how a creation changes the table.
* `Store.throughout_eachRow_iff` — **a relation that the body decides** holds throughout
  exactly the runs that store the right bodies.
* `stored_reschedulable` — **every job that is read back** can be rescheduled.
* `retriesWithin_iff` — **retry counts stay within their bounds** exactly in the runs that
  store no body whose `max_retries` is negative as an `int`, or an integer that fits none.
-/

namespace JobScheduler

open CText Runs
open RValue (member object string number)

/-! ### The calls -/

/-- The call is on a row, and writes no whole one. -/
def Op.IsOnRow : Op → Prop
  | .insertJob _ | .updateJob _ _ => False
  | _ => True

/-- A call of the service. -/
inductive ServiceCall
  | createJob (uninit now : Int64) (body : RValue) (o : SqlOutcome)
  /-- A call that meets no failure; those that do leave the table alone. -/
  | onRow (op : Op) (h : op.IsOnRow)

/-- The database, with the body that each row was created from. -/
structure Store where
  db : Db
  bodyOf : Int64 → Option RValue

namespace Store

/-- No row has been created yet. -/
def empty : Store := ⟨Db.empty, fun _ => none⟩

/-- The rows that are new in `db'` were created from `body`. -/
def created (s : Store) (body : RValue) (db' : Db) : Store where
  db := db'
  bodyOf id :=
    if s.db.table.lookup id = none ∧ db'.table.lookup id ≠ none then some body else s.bodyOf id

/-- One call.  A `create_job` that throws leaves the table alone, and one whose behaviour
is undefined has no next state. -/
def step (s : Store) : ServiceCall → Option Store
  | .createJob uninit now body o =>
    match JobScheduler.createJob uninit now s.db body o with
    | .ok (_, _, db') => some (s.created body db')
    | .error .undefinedBehaviour => none
    | .error _ => some s
  | .onRow op _ => some { s with db := (op.run s.db).2 }

/-- The creation stores a row for the object `members`. -/
structure Creates (s : Store) (uninit : Int64) (body : RValue) (o : SqlOutcome)
    (members : List (Bytes × RValue)) : Prop where
  isObject : body = object members
  valid : validateJobInput uninit body = .ok none
  wellTyped : WellTyped members
  ok : o = .ok
  room : s.db.table.nextRowid ≠ none

/-- Every row is in this relation to the body it was created from. -/
def EachRow (P : List (Bytes × RValue) → Row → Prop) (s : Store) : Prop :=
  ∀ id r, s.db.table.lookup id = some r →
    ∃ members, s.bodyOf id = some (object members) ∧ P members r

theorem eachRow_empty (P : List (Bytes × RValue) → Row → Prop) : empty.EachRow P := by
  intro id r hr
  exact absurd hr (by simp [empty, Db.empty, Table.empty, Table.lookup, KeyedTable.lookup])

/-! ### A creation -/

/-- A creation that leaves the table alone changes nothing. -/
theorem created_self (s : Store) (body : RValue) : s.created body s.db = s := by
  rw [created]
  congr 1
  funext id
  exact if_neg fun h => h.2 h.1

/-- What is under each rowid after a creation. -/
theorem created_insert {s : Store} {k : Int64} (hk : s.db.table.nextRowid = some k)
    (body : RValue) (job : Job) (id : Int64) :
    (s.created body (insertJob s.db job .ok).2).db.table.lookup id =
        (if k = id then some ((insertParams job).toRow k) else s.db.table.lookup id) ∧
      (s.created body (insertJob s.db job .ok).2).bodyOf id =
        if k = id then some body else s.bodyOf id := by
  have hnew : s.db.table.lookup k = none := Table.lookup_nextRowid hk
  rw [insertJob_ok job hk]
  simp only [created, Table.lookup_insert, true_and]
  by_cases hid : k = id
  · subst hid
    simp [hnew]
  · rw [if_neg hid, if_neg hid, if_neg fun h => h.2 h.1]

/-- A creation keeps a relation exactly when the row it stores is in it. -/
theorem eachRow_created_iff {P : List (Bytes × RValue) → Row → Prop} {s : Store} {k : Int64}
    (hk : s.db.table.nextRowid = some k) (members : List (Bytes × RValue)) (job : Job)
    (h : s.EachRow P) :
    (s.created (object members) (insertJob s.db job .ok).2).EachRow P ↔
      P members ((insertParams job).toRow k) := by
  have hcreated := created_insert hk (object members) job
  constructor
  · intro hall
    obtain ⟨hrow, hbody⟩ := hcreated k
    rw [if_pos rfl] at hrow hbody
    obtain ⟨members', hmembers, hP⟩ := hall k _ hrow
    rw [hbody, Option.some.injEq, RValue.object.injEq] at hmembers
    exact hmembers ▸ hP
  · intro hP id r hr
    obtain ⟨hrow, hbody⟩ := hcreated id
    rw [hrow] at hr
    rw [hbody]
    by_cases hid : k = id
    · rw [if_pos hid, Option.some.injEq] at hr
      rw [if_pos hid]
      exact ⟨members, rfl, hr ▸ hP⟩
    · rw [if_neg hid] at hr ⊢
      exact h id r hr

/-- A creation that stores no row returns or throws without a change. -/
theorem createJob_unchanged {s : Store} {uninit now : Int64} {body : RValue} {o : SqlOutcome}
    {job : Job} {error : Bytes} {db' : Db} (hnone : ¬ ∃ members, s.Creates uninit body o members)
    (h : createJob uninit now s.db body o = .ok (job, error, db')) : db' = s.db := by
  rcases createJob_cases h with ⟨e, -, -, heq⟩ | ⟨hvalid, built, hbuilt, heq⟩ <;>
    rw [Prod.mk.injEq, Prod.mk.injEq] at heq
  · exact heq.2.2
  · obtain ⟨members, rfl⟩ := isObject_of_valid hvalid
    have hwell := (buildJob_ok_iff (accepted_of_valid hvalid) now).mp ⟨built, hbuilt⟩
    rw [heq.2.2]
    cases o with
    | ok =>
      -- the table is full
      cases hk : s.db.table.nextRowid with
      | none => simp only [insertJob, Stmt.step_insert_full hk]
      | some k => exact absurd ⟨members, rfl, hvalid, hwell, rfl, by simp [hk]⟩ hnone
    | prepareError rc => rfl
    | stepError => rfl

/-- **How a creation changes the table**: not at all, or by the row of the job that is built
from its body. -/
theorem step_createJob {s s' : Store} {uninit now : Int64} {body : RValue} {o : SqlOutcome}
    (h : s.step (.createJob uninit now body o) = some s') :
    (¬ ∃ members, s.Creates uninit body o members) ∧ s' = s ∨
      ∃ members job k, s.Creates uninit body o members ∧
        buildJob uninit now (object members) = .ok job ∧ s.db.table.nextRowid = some k ∧
        s' = s.created (object members) (insertJob s.db job .ok).2 := by
  by_cases hcreates : ∃ members, s.Creates uninit body o members
  · right
    obtain ⟨members, hc⟩ := hcreates
    obtain ⟨rfl, hvalid, hwell, rfl, hroom⟩ := hc
    obtain ⟨job, hjob⟩ := (buildJob_ok_iff (accepted_of_valid hvalid) now).mpr hwell
    obtain ⟨k, hk⟩ := Option.ne_none_iff_exists'.mp hroom
    refine ⟨members, job, k, ⟨rfl, hvalid, hwell, rfl, hroom⟩, hjob, hk, ?_⟩
    simp only [step, createJob_of_accepted hvalid, hjob, ok_bind] at h
    exact (Option.some.inj h).symm
  · refine Or.inl ⟨hcreates, ?_⟩
    simp only [step] at h
    split at h
    · next db' hcreate =>
      rw [createJob_unchanged hcreates hcreate, created_self] at h
      exact (Option.some.inj h).symm
    · simp at h
    · exact (Option.some.inj h).symm

/-- Only on a list may the behaviour of a creation be undefined. -/
theorem step_ne_none (s : Store) (uninit now : Int64) (o : SqlOutcome) {body : RValue}
    (hlist : ∀ l, body ≠ .list l) : s.step (.createJob uninit now body o) ≠ none := by
  simp only [step]
  by_cases hreturns : ∃ r, createJob uninit now s.db body o = .ok r
  · obtain ⟨r, hr⟩ := hreturns
    rw [hr]
    exact Option.some_ne_none _
  · obtain ⟨what, hwhat⟩ := createJob_throws uninit now s.db o hlist hreturns
    rw [hwhat]
    exact Option.some_ne_none _

/-! ### The other calls -/

/-- A call on a row keeps a relation that its `SET` clause keeps. -/
theorem eachRow_onRow {P : List (Bytes × RValue) → Row → Prop} {s : Store} {op : Op}
    (hop : op.IsOnRow) (hset : ¬ op.Deletes → ∀ members r, P members r →
      op.stmt.whereClause r = true → P members (op.stmt.setClause r))
    (h : s.EachRow P) : EachRow P { s with db := (op.run s.db).2 } := by
  intro id r hr
  by_cases hdel : op.Deletes
  · obtain ⟨id', rfl⟩ := Op.exists_of_deletes hdel
    have hafter : ((Op.deleteJob id').run s.db).2.table.lookup id =
        if id = bindInt id' then none else s.db.table.lookup id :=
      lookup_mutate (s := .delete (bindInt id')) rfl s.db id
    rw [hafter] at hr
    split at hr
    · simp at hr
    · exact h id r hr
  · have hins : ¬ op.Inserts := by
      intro hins
      obtain ⟨job, rfl⟩ := Op.exists_of_inserts hins
      exact hop
    rw [Op.lookup_run hins hdel, Option.map_eq_some_iff] at hr
    obtain ⟨r₀, hr₀, rfl⟩ := hr
    obtain ⟨members, hmembers, hP⟩ := h id r₀ hr₀
    refine ⟨members, hmembers, ?_⟩
    split
    · next hwhere => exact hset hdel members r₀ hP hwhere
    · exact hP

/-! ### Relations that the body decides -/

/-- If the call stores a body, `Q` holds of it. -/
def StoresOnly (Q : List (Bytes × RValue) → Prop) (s : Store) : ServiceCall → Prop
  | .createJob uninit _ body o => ∀ members, s.Creates uninit body o members → Q members
  | .onRow _ _ => True

/-- Whether a row is in the relation `P` when it is created is a matter of its body alone,
and no call takes it out. -/
structure DecidedBy (P : List (Bytes × RValue) → Row → Prop) (Q : List (Bytes × RValue) → Prop) :
    Prop where
  created : ∀ {uninit now : Int64} {members : List (Bytes × RValue)} {job : Job},
    Accepted uninit members → buildJob uninit now (object members) = .ok job →
      ∀ k, P members ((insertParams job).toRow k) ↔ Q members
  kept : ∀ {op : Op}, op.IsOnRow → ∀ {members : List (Bytes × RValue)} {r : Row}, P members r →
    op.stmt.whereClause r = true → P members (op.stmt.setClause r)

section

variable {P : List (Bytes × RValue) → Row → Prop} {Q : List (Bytes × RValue) → Prop}

/-- **One call** keeps such a relation exactly when it stores no body but those that `Q`
holds of. -/
theorem eachRow_step (hPQ : DecidedBy P Q) {s s' : Store} {call : ServiceCall} (h : s.EachRow P)
    (hs : s.step call = some s') : s'.EachRow P ↔ s.StoresOnly Q call := by
  cases call with
  | createJob uninit now body o =>
    rcases step_createJob hs with ⟨hnone, rfl⟩ | ⟨members, job, k, hc, hjob, hk, rfl⟩
    · exact iff_of_true h fun members hc => absurd ⟨members, hc⟩ hnone
    · have hbody := hc.isObject
      subst hbody
      rw [eachRow_created_iff hk members job h, hPQ.created (accepted_of_valid hc.valid) hjob]
      refine ⟨?_, fun hQ => hQ members hc⟩
      intro hQ members' hc'
      exact RValue.object.inj hc'.isObject ▸ hQ
  | onRow op hop =>
    rw [← Option.some.inj hs]
    exact iff_of_true (eachRow_onRow hop (fun _ _ _ hr hwhere => hPQ.kept hop hr hwhere) h) trivial

/-- **A run from the empty table** keeps it exactly when it stores no other bodies. -/
theorem throughout_eachRow_iff (hPQ : DecidedBy P Q) (calls : List ServiceCall) :
    Throughout step (EachRow P) empty calls ↔ Along step (StoresOnly Q) empty calls := by
  refine throughout_iff_along (fun _ _ _ => eachRow_step hPQ) ?_ (eachRow_empty P)
  intro s call hs
  cases call with
  | createJob uninit now body o =>
    intro members hc
    obtain ⟨rfl, -⟩ := hc
    exact absurd hs (step_ne_none s uninit now o fun l hl => RValue.noConfusion hl)
  | onRow op hop => trivial

/-- A first call that stores another body breaks it. -/
theorem not_throughout_of_creates (hPQ : DecidedBy P Q) {uninit : Int64} (now : Int64)
    {members : List (Bytes × RValue)} (hc : empty.Creates uninit (object members) .ok members)
    (hQ : ¬ Q members) :
    ¬ Throughout step (EachRow P) empty [.createJob uninit now (object members) .ok] := by
  rw [throughout_eachRow_iff hPQ]
  rintro ⟨hstores, -⟩
  exact hQ (hstores members hc)

end

end Store

/-! ### Rescheduling -/

/-- The job has what its next run is computed from, and so it is computed at any time. -/
structure Reschedulable (job : Job) : Prop where
  interval : job.type = .recurring → job.intervalSeconds ≠ none
  cron : job.type = .cron →
    ∃ cronExpr, job.cronExpr = some cronExpr ∧ isValidCron cronExpr = .ok none
  nextRun : ∀ now, ∃ next,
    computeNextRunTime job.type.toInt now job.intervalSeconds job.cronExpr job.nextRunTime =
      .ok next

/-- One of the three readers returns the job. -/
def ReadFrom (db : Db) (job : Job) : Prop :=
  (∃ o, job ∈ selectAllJobs db o) ∨ (∃ now o, job ∈ selectDueJobs db now o) ∨
    ∃ id job₀ o, getJobById db job₀ id o = (true, job)

theorem ScanOutcome.mem_of_mem_deliver {α : Type*} {o : ScanOutcome} {l : List α} {a : α}
    (h : a ∈ o.deliver l) : a ∈ l := by
  cases o with
  | complete => exact h
  | stopped n => exact List.mem_of_mem_take h

/-- Such a job is read off a row. -/
theorem ReadFrom.exists_row {db : Db} {job : Job} (h : ReadFrom db job) :
    ∃ id r, db.table.lookup id = some r ∧ job = readRow r := by
  have hmem : ∀ r ∈ db.table.rows, db.table.lookup r.id = some r :=
    fun r hr => Table.lookup_eq_some_iff.mpr ⟨hr, rfl⟩
  rcases h with ⟨o, h⟩ | ⟨now, o, h⟩ | ⟨id, job₀, o, h⟩
  · obtain ⟨r, hr, rfl⟩ := List.mem_map.mp (ScanOutcome.mem_of_mem_deliver h)
    exact ⟨r.id, r, hmem r hr, rfl⟩
  · obtain ⟨r, hr, rfl⟩ := List.mem_map.mp (ScanOutcome.mem_of_mem_deliver h)
    exact ⟨r.id, r, hmem r (List.mem_of_mem_filter hr), rfl⟩
  · cases o with
    | ok =>
      rw [getJobById] at h
      split at h
      · next r hr => exact ⟨_, r, hr, (Prod.mk.inj h).2.symm⟩
      · simp at h
    | prepareError rc => simp [getJobById] at h
    | stepError => simp [getJobById] at h

namespace Reschedulable

/-- The next run is computed from the interval and the expression. -/
theorem of_fields {job : Job} (hinterval : job.type = .recurring → job.intervalSeconds ≠ none)
    (hcron : job.type = .cron →
      ∃ cronExpr, job.cronExpr = some cronExpr ∧ isValidCron cronExpr = .ok none) :
    Reschedulable job := by
  refine ⟨hinterval, hcron, ?_⟩
  intro now
  cases htype : job.type with
  | oneTime => exact ⟨_, rfl⟩
  | recurring =>
    obtain ⟨interval, hinterval⟩ := Option.ne_none_iff_exists'.mp (hinterval htype)
    rw [hinterval]
    exact ⟨_, rfl⟩
  | cron =>
    obtain ⟨cronExpr, hexpr, hvalid⟩ := hcron htype
    obtain ⟨cex, hcex⟩ := isValidCron_eq_none.mp hvalid
    obtain ⟨next, hnext, -⟩ := computeCronNextRun_ok now hcex
    rw [hexpr]
    exact ⟨_, hnext⟩

/-- Only three of the fields count. -/
theorem congr {job job' : Job} (h : Reschedulable job) (htype : job'.type = job.type)
    (hinterval : job'.intervalSeconds = job.intervalSeconds)
    (hcron : job'.cronExpr = job.cronExpr) : Reschedulable job' := by
  refine of_fields ?_ ?_
  · rw [htype, hinterval]
    exact h.interval
  · rw [htype, hcron]
    exact h.cron

/-- **The job of a row that is created** can be rescheduled: the expression is valid up to
its first NUL as it was before the cut. -/
theorem of_build {uninit now : Int64} {members : List (Bytes × RValue)} {job : Job}
    (hacc : Accepted uninit members) (hbuild : buildJob uninit now (object members) = .ok job)
    (k : Int64) : Reschedulable (readRow ((insertParams job).toRow k)) := by
  obtain ⟨lit, hjob⟩ := builtFrom_of_buildJob hacc hbuild
  rw [readRow_insertParams]
  refine of_fields ?_ ?_ <;> intro htype <;> rw [hjob.type] at htype
  · obtain ⟨lit', -, -, hinterval, -⟩ := hjob.recurring (eq_toInt_of_intToType (by decide) htype)
    rw [hinterval]
    exact Option.some_ne_none _
  · obtain ⟨raw, -, hvalid, hcron, -⟩ := hjob.cron (eq_toInt_of_intToType (by decide) htype)
    refine ⟨cstr (unescape raw), by rw [hcron]; rfl, ?_⟩
    rw [isValidCron_cstr, hvalid]

/-- A call on a row leaves the three fields alone. -/
theorem setClause {op : Op} (hop : op.IsOnRow) {r : Row} (h : Reschedulable (readRow r)) :
    Reschedulable (readRow (op.stmt.setClause r)) := by
  cases op with
  | insertJob _ => exact absurd hop id
  | updateJob _ _ => exact absurd hop id
  | _ => exact h.congr rfl rfl rfl

end Reschedulable

/-- The job of a row can be rescheduled whatever the body was. -/
theorem reschedulable_decidedBy :
    Store.DecidedBy (fun _ r => Reschedulable (readRow r)) fun _ => True where
  created hacc hbuild k := iff_of_true (Reschedulable.of_build hacc hbuild k) trivial
  kept hop _ _ h _ := h.setClause hop

/-- **Every job that is read back can be rescheduled**, in every state of every run of the
service from the empty table. -/
theorem stored_reschedulable (calls : List ServiceCall) :
    Throughout Store.step (fun s => ∀ job, ReadFrom s.db job → Reschedulable job) Store.empty
      calls := by
  intro before after s' heq hrun job hread
  have hall : Along Store.step (Store.StoresOnly fun _ => True) Store.empty calls := by
    apply along_of_forall
    intro call _ s
    cases call with
    | createJob uninit now body o => exact fun _ _ => trivial
    | onRow op hop => trivial
  have hrows : s'.EachRow fun _ r => Reschedulable (readRow r) :=
    (Store.throughout_eachRow_iff reschedulable_decidedBy calls).mpr hall before after s' heq hrun
  obtain ⟨id, r, hr, rfl⟩ := hread.exists_row
  obtain ⟨members, hmembers, hjob⟩ := hrows id r hr
  exact hjob

/-! ### Retry counts -/

/-- The retry count is within its bounds, and the upper one is the integer that the body
gives, if it gives one. -/
structure RetriesWithin (members : List (Bytes × RValue)) (r : Row) : Prop where
  nonneg : 0 ≤ r.retryCount.toInt
  le : r.retryCount.toInt ≤ r.maxRetries.toInt
  given : ∀ v : Int64, givenInteger members (ascii "max_retries") = some v.toInt →
    r.maxRetries = v

/-- As an `int`, the number that `i` finds is not negative; and when the literal is an
integer of 64 bits, it is one of 32. -/
structure NumberLit.FitsRetries (lit : NumberLit) : Prop where
  nonneg : (clampInt64 lit.decimal.integerPart).toInt % 2 ^ 32 < 2 ^ 31
  fits : ∀ v : Int64, lit.integer? = some v.toInt → FitsInt v

/-- The body has no number for `max_retries`, or one that an `int` can take. -/
def RetriesFit (members : List (Bytes × RValue)) : Prop :=
  ∀ lit, member members (ascii "max_retries") = some (number lit) → lit.FitsRetries

/-- If the call stores a body, the body's `max_retries` is one that an `int` can take. -/
def Store.StoresFitting (s : Store) : ServiceCall → Prop
  | .createJob uninit _ body o => ∀ members, s.Creates uninit body o members → RetriesFit members
  | .onRow _ _ => True

/-- An `int64_t` narrowed to an `int` is not negative. -/
theorem toInt32_nonneg_iff {v : Int64} : 0 ≤ v.toInt32.toInt ↔ v.toInt % 2 ^ 32 < 2 ^ 31 := by
  rw [Int64.toInt_toInt32, Int.bmod_def]
  split <;> omega

/-- A plain integer literal is the number that is read. -/
theorem numberOf_given {members : List (Bytes × RValue)} {key : Bytes} {v : Int64}
    (h : givenInteger members key = some v.toInt) (uninit default : Int64) :
    numberOf uninit members key default = v := by
  unfold givenInteger at h
  split at h
  · next lit hlit => rw [numberOf_number uninit default hlit, NumberLit.lexicalCast_of_integer h]
  · simp at h

/-- What fits, in terms of the number that is read. -/
theorem retriesFit_iff (uninit : Int64) (members : List (Bytes × RValue)) :
    RetriesFit members ↔ (numberOf uninit members (ascii "max_retries") 3).toInt % 2 ^ 32 < 2 ^ 31 ∧
      ∀ v : Int64, givenInteger members (ascii "max_retries") = some v.toInt → FitsInt v := by
  by_cases hnumber : ∃ lit, member members (ascii "max_retries") = some (number lit)
  · obtain ⟨lit, hlit⟩ := hnumber
    have hgiven : givenInteger members (ascii "max_retries") = lit.integer? := by
      rw [givenInteger, hlit]
    rw [hgiven, numberOf_number uninit 3 hlit, lit.lexicalCast_eq]
    constructor
    · intro h
      exact ⟨(h lit hlit).nonneg, (h lit hlit).fits⟩
    · rintro ⟨hnonneg, hfits⟩ lit' hlit'
      rw [hlit, Option.some.injEq, RValue.number.injEq] at hlit'
      exact hlit' ▸ ⟨hnonneg, hfits⟩
  · -- the bound is the default
    have hdefault : numberOf uninit members (ascii "max_retries") 3 = 3 ∧
        givenInteger members (ascii "max_retries") = none := by
      unfold numberOf givenInteger
      split
      · next lit hlit => exact absurd ⟨lit, hlit⟩ hnumber
      · exact ⟨rfl, rfl⟩
    rw [hdefault.1, hdefault.2]
    refine iff_of_true (fun lit hlit => absurd ⟨lit, hlit⟩ hnumber) ⟨by decide, ?_⟩
    intro v hv
    simp at hv

/-- **The row that is created** has its retry count within its bounds exactly when the body
gives bounds that an `int` can take. -/
theorem retriesWithin_created_iff {uninit now : Int64} {members : List (Bytes × RValue)}
    {job : Job} (hacc : Accepted uninit members)
    (hbuild : buildJob uninit now (object members) = .ok job) (k : Int64) :
    RetriesWithin members ((insertParams job).toRow k) ↔ RetriesFit members := by
  obtain ⟨type, hjob⟩ := builtFrom_of_buildJob hacc hbuild
  have hcount : ((insertParams job).toRow k).retryCount.toInt = 0 := by
    show (bindInt job.retryCount).toInt = 0
    rw [hjob.retryCount]
    rfl
  have hmax : ((insertParams job).toRow k).maxRetries =
      (numberOf uninit members (ascii "max_retries") 3).toInt32.toInt64 := by
    show bindInt job.maxRetries = _
    rw [hjob.maxRetries]
    rfl
  rw [retriesFit_iff uninit]
  constructor
  · intro h
    have hle := le_trans h.nonneg h.le
    rw [hmax, Int32.toInt_toInt64] at hle
    refine ⟨toInt32_nonneg_iff.mp hle, ?_⟩
    intro v hv
    have hstored := h.given v hv
    rw [hmax, numberOf_given hv] at hstored
    exact toInt64_toInt32_eq_iff.mp hstored
  · rintro ⟨hnonneg, hfits⟩
    refine ⟨hcount.ge, ?_, ?_⟩
    · rw [hcount, hmax, Int32.toInt_toInt64]
      exact toInt32_nonneg_iff.mpr hnonneg
    · intro v hv
      rw [hmax, numberOf_given hv]
      exact toInt64_toInt32_eq_iff.mpr (hfits v hv)

/-- A call on a row keeps its retry count within its bounds. -/
theorem RetriesWithin.setClause {op : Op} (hop : op.IsOnRow) {members : List (Bytes × RValue)}
    {r : Row} (h : RetriesWithin members r) (hwhere : op.stmt.whereClause r = true) :
    RetriesWithin members (op.stmt.setClause r) := by
  have hmax := Int64.toInt_lt r.maxRetries
  have hnonneg := h.nonneg
  have hle := h.le
  cases op with
  | insertJob _ => exact absurd hop id
  | updateJob _ _ => exact absurd hop id
  | incrementRetryCount _ =>
    -- the clause asks for a count below its bound, so one more does not wrap
    simp only [Op.stmt, Stmt.whereClause, Bool.and_eq_true, decide_eq_true_eq,
      Int64.lt_iff_toInt_lt] at hwhere
    have hsucc : (r.retryCount + 1).toInt = r.retryCount.toInt + 1 := by
      rw [Int64.toInt_add, Int64.toInt_one, Int.bmod_eq_of_le] <;> omega
    refine ⟨?_, ?_, h.given⟩
    · show 0 ≤ (r.retryCount + 1).toInt
      omega
    · show (r.retryCount + 1).toInt ≤ r.maxRetries.toInt
      omega
  | resetRetryCount _ => exact ⟨le_rfl, le_trans hnonneg hle, h.given⟩
  | _ => exact ⟨hnonneg, hle, h.given⟩

/-- The retry counts are a matter of the bodies. -/
theorem retriesWithin_decidedBy : Store.DecidedBy RetriesWithin RetriesFit where
  created := retriesWithin_created_iff
  kept hop _ _ h hwhere := h.setClause hop hwhere

/-- **Retry counts stay within their bounds**, in every state of a run from the empty table,
exactly when each body that the run stores has no number for `max_retries`, or one that an
`int` can take. -/
theorem retriesWithin_iff (calls : List ServiceCall) :
    Throughout Store.step (Store.EachRow RetriesWithin) Store.empty calls ↔
      Along Store.step Store.StoresFitting Store.empty calls := by
  have hstores : Store.StoresFitting = Store.StoresOnly RetriesFit := by
    funext s call
    cases call <;> rfl
  rw [hstores]
  exact Store.throughout_eachRow_iff retriesWithin_decidedBy calls

/-- The members of a job with one retry more than the largest `int`. -/
def manyRetries : List (Bytes × RValue) :=
  oneTimeMembers ++ [(ascii "max_retries", intLit 2147483648 (by decide))]

theorem creates_manyRetries : Store.empty.Creates 0 (object manyRetries) .ok manyRetries := by
  refine ⟨rfl, by decide +kernel, ?_, rfl, by decide⟩
  constructor <;> intro v hv <;> exact absurd (show none = some v from hv) (by simp)

/-- Its retry count, 0, is above its bound. -/
theorem retries_above : ¬ Throughout Store.step (Store.EachRow RetriesWithin) Store.empty
    [.createJob 0 0 (object manyRetries) .ok] := by
  refine Store.not_throughout_of_creates retriesWithin_decidedBy 0 creates_manyRetries ?_
  intro hfit
  exact absurd (hfit _ rfl).nonneg (by decide)

end JobScheduler
