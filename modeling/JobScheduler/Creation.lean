import JobScheduler.Service

/-!
# Creating a job

What a request body gets: an error text and an untouched table, or a row with the
next run time that its schedule asks for.

## Main definitions

* `ReturnsNormally` — `create_job` either rejects the body with a text or goes on to
  `insert_job`.
* `ReadBack` — what `get_job_by_id` reads of the row just inserted.
* `CorrectNextRun` — the row holds the time and the interval that the body gives.
* `HonestVerdict` — the id returned tells what became of the row.

## Main results

* `createJob_returns_iff` — `create_job` throws on bodies that are no object, and on
  two members whose type is not looked at.
* `createJob_correct_iff` — the row is right exactly when the next run time fits the
  32 bits in which it is stored, and the rowid those in which it is returned.
* `createJob_honest_iff` — the id is an honest verdict exactly when SQLite fails no call.
-/

namespace JobScheduler

open CText
open RValue (member object string number)

/-! ### Returning -/

theorem createJob_of_rejected {uninit now : Int64} {db : Db} {body : RValue} {error : Bytes}
    (h : validateJobInput uninit body = .ok (some error)) (o : SqlOutcome) :
    createJob uninit now db body o = .ok ({ (default : Job) with id := -1 }, error, db) := by
  rw [createJob, h]
  rfl

theorem createJob_of_accepted {uninit : Int64} {body : RValue}
    (h : validateJobInput uninit body = .ok none) (now : Int64) (db : Db) (o : SqlOutcome) :
    createJob uninit now db body o = (do
      let job ← buildJob uninit now body
      pure ({ job with id := (insertJob db job o).1 }, [], (insertJob db job o).2)) := by
  rw [createJob, h]
  rfl

/-- The value is neither an object nor a list. -/
theorem validateJobInput_scalar {body : RValue} (uninit : Int64)
    (hobject : ∀ members, body ≠ .object members) (hlist : ∀ l, body ≠ .list l) :
    validateJobInput uninit body = .error (.runtimeError (ascii "value is not a container")) := by
  cases body with
  | object members => exact absurd rfl (hobject members)
  | list l => exact absurd rfl (hlist l)
  | _ => rfl

/-- A value that is no object is not accepted: Crow throws, or finds no `name`. -/
theorem validateJobInput_of_not_object {body : RValue} (uninit : Int64)
    (h : ∀ members, body ≠ .object members) :
    (∃ f, validateJobInput uninit body = .error f) ∨
      validateJobInput uninit body = .ok (some
        (ascii "The Name field is required and must be a non-empty String")) := by
  by_cases hlist : ∃ l, body = .list l
  · obtain ⟨l, rfl⟩ := hlist
    cases l with
    | nil => exact Or.inr rfl
    | cons v l => exact Or.inl ⟨.undefinedBehaviour, rfl⟩
  · exact Or.inl ⟨_, validateJobInput_scalar uninit h fun l hl => hlist ⟨l, hl⟩⟩

/-- A rejected body leaves a text in `out_error`. -/
theorem error_ne_nil {uninit : Int64} {body : RValue} {error : Bytes}
    (h : validateJobInput uninit body = .ok (some error)) : error ≠ [] := by
  by_cases hobject : ∃ members, body = .object members
  · obtain ⟨members, rfl⟩ := hobject
    obtain ⟨r, hr, -, htext⟩ := validateJobInput_object uninit members
    rw [hr, Except.ok.injEq] at h
    exact htext error h
  · rcases validateJobInput_of_not_object uninit fun members hm => hobject ⟨members, hm⟩ with
      ⟨f, hf⟩ | hname
    · rw [hf] at h
      simp at h
    · rw [hname, Except.ok.injEq, Option.some.injEq] at h
      rw [← h]
      decide

/-- What is accepted is an object. -/
theorem isObject_of_valid {uninit : Int64} {body : RValue}
    (h : validateJobInput uninit body = .ok none) : ∃ members, body = .object members := by
  by_contra hobject
  rcases validateJobInput_of_not_object uninit fun members hm => hobject ⟨members, hm⟩ with
    ⟨f, hf⟩ | hname
  · rw [hf] at h
    simp at h
  · rw [hname] at h
    simp at h

/-- How `create_job` returns, when it does. -/
theorem createJob_cases {uninit now : Int64} {db : Db} {body : RValue} {o : SqlOutcome}
    {r : Job × Bytes × Db} (h : createJob uninit now db body o = .ok r) :
    (∃ error, validateJobInput uninit body = .ok (some error) ∧ error ≠ [] ∧
      r = ({ (default : Job) with id := -1 }, error, db)) ∨
    (validateJobInput uninit body = .ok none ∧ ∃ job, buildJob uninit now body = .ok job ∧
      r = ({ job with id := (insertJob db job o).1 }, [], (insertJob db job o).2)) := by
  obtain ⟨v, hv, -⟩ := bind_eq_ok.mp h
  cases v with
  | some error =>
    rw [createJob_of_rejected hv, Except.ok.injEq] at h
    exact Or.inl ⟨error, hv, error_ne_nil hv, h.symm⟩
  | none =>
    rw [createJob_of_accepted hv] at h
    obtain ⟨job, hjob, hr⟩ := bind_eq_ok.mp h
    exact Or.inr ⟨hv, job, hjob, (Except.ok.inj hr).symm⟩

/-- A creation from a body that is accepted has run `insert_job`. -/
theorem createJob_of_valid {uninit now : Int64} {db db' : Db} {body : RValue} {o : SqlOutcome}
    {job : Job} {error : Bytes} (hvalid : validateJobInput uninit body = .ok none)
    (h : createJob uninit now db body o = .ok (job, error, db')) :
    ∃ built, buildJob uninit now body = .ok built ∧
      job = { built with id := (insertJob db built o).1 } ∧ error = [] ∧
      db' = (insertJob db built o).2 := by
  rcases createJob_cases h with ⟨e, he, -⟩ | ⟨-, built, hbuilt, heq⟩
  · rw [hvalid] at he
    simp at he
  · rw [Prod.mk.injEq, Prod.mk.injEq] at heq
    exact ⟨built, hbuilt, heq⟩

/-- `create_job` returns exactly on objects that the checks reject, or whose members
are well typed. -/
theorem createJob_ok_iff (uninit now : Int64) (db : Db) (o : SqlOutcome) {body : RValue}
    (hlist : ∀ l, body ≠ .list l) :
    (∃ r, createJob uninit now db body o = .ok r) ↔ ∃ members, body = .object members ∧
      (validateJobInput uninit body = .ok none → WellTyped members) := by
  by_cases hobject : ∃ members, body = .object members
  · obtain ⟨members, rfl⟩ := hobject
    obtain ⟨v, hv, hiff, -⟩ := validateJobInput_object uninit members
    cases v with
    | some error =>
      exact ⟨fun _ => ⟨members, rfl, by simp [hv]⟩, fun _ => ⟨_, createJob_of_rejected hv o⟩⟩
    | none =>
      -- after the checks, what is left to throw is the reading of the members
      have hbuild := buildJob_ok_iff (hiff.mp rfl) now
      rw [createJob_of_accepted hv]
      constructor
      · rintro ⟨r, hr⟩
        obtain ⟨job, hjob, -⟩ := bind_eq_ok.mp hr
        exact ⟨members, rfl, fun _ => hbuild.mp ⟨job, hjob⟩⟩
      · rintro ⟨members', heq, hwell⟩
        rw [RValue.object.injEq] at heq
        subst heq
        obtain ⟨job, hjob⟩ := hbuild.mpr (hwell hv)
        exact ⟨_, by rw [hjob]; rfl⟩
  · -- `has` throws on anything that is no container
    have hthrows : createJob uninit now db body o =
        .error (.runtimeError (ascii "value is not a container")) := by
      rw [createJob, validateJobInput_scalar uninit (fun m hm => hobject ⟨m, hm⟩) hlist]
      rfl
    constructor
    · rintro ⟨r, hr⟩
      rw [hthrows] at hr
      simp at hr
    · rintro ⟨members, rfl, -⟩
      exact absurd ⟨members, rfl⟩ hobject

/-- A body on which `create_job` does not return makes it throw what Crow does. -/
theorem createJob_throws (uninit now : Int64) (db : Db) (o : SqlOutcome) {body : RValue}
    (hlist : ∀ l, body ≠ .list l) (h : ¬ ∃ r, createJob uninit now db body o = .ok r) :
    ∃ what, createJob uninit now db body o = .error (.runtimeError what) := by
  by_cases hobject : ∃ members, body = .object members
  · obtain ⟨members, rfl⟩ := hobject
    obtain ⟨v, hv, hiff, -⟩ := validateJobInput_object uninit members
    cases v with
    | some error => exact absurd ⟨_, createJob_of_rejected hv o⟩ h
    | none =>
      have hwell : ¬ WellTyped members := fun hwell =>
        h ((createJob_ok_iff uninit now db o hlist).mpr ⟨members, rfl, fun _ => hwell⟩)
      obtain ⟨what, hwhat⟩ := buildJob_throws (hiff.mp rfl) hwell now
      exact ⟨what, by rw [createJob_of_accepted hv, hwhat]; rfl⟩
  · refine ⟨ascii "value is not a container", ?_⟩
    rw [createJob, validateJobInput_scalar uninit (fun m hm => hobject ⟨m, hm⟩) hlist]
    rfl

/-- `create_job` returns: a rejected body gets the id -1 and a text, and leaves the
table alone; an accepted one goes on to `insert_job`. -/
def ReturnsNormally (uninit now : Int64) (db : Db) (body : RValue) (o : SqlOutcome) : Prop :=
  (∃ job error, createJob uninit now db body o = .ok (job, error, db) ∧ job.id = -1 ∧
    error ≠ []) ∨
  (validateJobInput uninit body = .ok none ∧ ∃ job, createJob uninit now db body o =
    .ok ({ job with id := (insertJob db job o).1 }, [], (insertJob db job o).2))

/-- **`create_job` returns exactly on objects that the checks reject, or whose
`interval_seconds` and `cron_expr` have a type that their accessor takes.** -/
theorem createJob_returns_iff (uninit now : Int64) (db : Db) (o : SqlOutcome) {body : RValue}
    (hlist : ∀ l, body ≠ .list l) :
    ReturnsNormally uninit now db body o ↔ ∃ members, body = .object members ∧
      (validateJobInput uninit body = .ok none → WellTyped members) := by
  rw [← createJob_ok_iff uninit now db o hlist]
  constructor
  · rintro (⟨job, error, hjob, -⟩ | ⟨-, job, hjob⟩) <;> exact ⟨_, hjob⟩
  · rintro ⟨r, hr⟩
    rcases createJob_cases hr with ⟨error, -, htext, rfl⟩ | ⟨hv, job, -, rfl⟩
    · exact Or.inl ⟨_, error, hr, rfl, htext⟩
    · exact Or.inr ⟨hv, job, hr⟩

/-- A number in a request body. -/
def intLit (n : ℕ) (h : ((decimal n).foldl NumberParsingState.next .minus).accepts = true) :
    RValue :=
  .number ⟨decimal n, h⟩

/-- The body of a one-time job. -/
def oneTimeBody (nextRunTime : RValue) : List (Bytes × RValue) :=
  [(ascii "name", .string (ascii "a")), (ascii "type", intLit 0 (by decide)),
    (ascii "payload", .string (ascii "p")), (ascii "next_run_time", nextRunTime)]

/-- The body of a one-time job for 1. -/
def oneTimeMembers : List (Bytes × RValue) := oneTimeBody (intLit 1 (by decide))

/-- A body that the checks accept and `create_job` throws on: `interval_seconds` is
`true`. -/
def unreadBody : RValue :=
  .object (oneTimeMembers ++ [(ascii "interval_seconds", .true)])

theorem createJob_throws_unread : ¬ ReturnsNormally 0 0 Db.empty unreadBody .ok := by
  have hthrows : createJob 0 0 Db.empty unreadBody .ok =
      .error (.runtimeError (ascii "expected number, got: True")) := by rfl
  rintro (⟨job, error, hjob, -⟩ | ⟨-, job, hjob⟩) <;> rw [hthrows] at hjob <;> simp at hjob

/-- The body of a one-time job with a text for `interval_seconds`. -/
def textIntervalMembers : List (Bytes × RValue) :=
  oneTimeMembers ++ [(ascii "interval_seconds", .string (ascii "5"))]

theorem createJob_returns_text :
    validateJobInput 0 (.object textIntervalMembers) = .ok none ∧
      ReturnsNormally 0 0 Db.empty (.object textIntervalMembers) .ok := by
  have hwell : WellTyped textIntervalMembers := by
    constructor
    · intro v hv
      obtain rfl : RValue.string (ascii "5") = v := Option.some.inj hv
      exact Or.inr (Or.inr rfl)
    · intro v hv
      exact absurd (show none = some v from hv) (by simp)
  refine ⟨by decide +kernel, ?_⟩
  exact (createJob_returns_iff 0 0 Db.empty .ok (by simp)).mpr
    ⟨textIntervalMembers, rfl, fun _ => hwell⟩

/-! ### The next run time -/

/-- `get_job_by_id` reads `j` back under the id, off the row inserted last. -/
def ReadBack (db : Db) (id : Int32) (j : Job) : Prop :=
  bindInt id = db.lastInsertRowid ∧ getJobById db default id .ok = (true, j)

/-- The row just inserted holds what the body asks for: a one-time job the given
time, a recurring job the given interval and the time one interval from now. -/
def CorrectNextRun (now : Int64) (members : List (Bytes × RValue)) (db : Db) (id : Int32) : Prop :=
  (givenInteger members (ascii "type") = some 0 → ∃ j, ReadBack db id j ∧
    givenInteger members (ascii "next_run_time") = some j.nextRunTime.toInt) ∧
  (givenInteger members (ascii "type") = some 1 → ∃ j d, ReadBack db id j ∧
    givenInteger members (ascii "interval_seconds") = some d ∧
    j.intervalSeconds.map Int32.toInt = some d ∧ j.nextRunTime.toInt = now.toInt + d ∧
    now < j.nextRunTime)

/-- The next run time fits the 32 bits in which `insert_job` binds it, and the rowid
`k` those in which it is returned. -/
def FitsStorage (now : Int64) (members : List (Bytes × RValue)) (k : Int64) : Prop :=
  (givenInteger members (ascii "type") = some 0 → FitsInt k ∧
    ∀ v, givenInteger members (ascii "next_run_time") = some v → v < 2 ^ 31) ∧
  (givenInteger members (ascii "type") = some 1 → FitsInt k ∧
    ∀ d, givenInteger members (ascii "interval_seconds") = some d → now.toInt + d < 2 ^ 31)

/-- What is read back of a job that was inserted. -/
theorem readBack_insert_iff {db : Db} {k : Int64} (hk : db.table.nextRowid = some k)
    (job j : Job) :
    ReadBack (insertJob db job .ok).2 (insertJob db job .ok).1 j ↔
      FitsInt k ∧ j = readRow ((insertParams job).toRow k) := by
  rw [insertJob_ok job hk]
  simp only [ReadBack, getJobById]
  rw [show bindInt k.toInt32 = k ↔ FitsInt k from toInt64_toInt32_eq_iff]
  apply and_congr_right
  intro hfits
  have hbind : bindInt k.toInt32 = k := toInt64_toInt32_eq_iff.mpr hfits
  rw [hbind, Table.lookup_insert, if_pos rfl]
  simp [eq_comm]

/-- A plain literal is read at its value. -/
theorem givenInteger_number {members : List (Bytes × RValue)} {key : Bytes} {lit : NumberLit}
    (hplain : ∀ key lit, member members key = some (number lit) →
      ∃ v : Int64, lit.integer? = some v.toInt)
    (h : member members key = some (number lit)) (uninit : Int64) :
    givenInteger members key = some (lexicalCast uninit lit.text).toInt := by
  obtain ⟨v, hv⟩ := hplain key lit h
  rw [givenInteger, h, NumberLit.lexicalCast_of_integer hv]
  exact hv

/-- Narrowed and widened again, a number lies in the range of an `int`. -/
theorem toInt_narrowed_lt (v : Int64) : v.toInt32.toInt64.toInt < 2 ^ 31 := by
  rw [Int32.toInt_toInt64]
  exact Int32.toInt_lt _

theorem toInt_narrowed {v : Int64} (h0 : 0 ≤ v.toInt) (h : v.toInt < 2 ^ 31) :
    v.toInt32.toInt64 = v :=
  toInt64_toInt32_eq_iff.mpr ⟨by omega, h⟩

theorem toInt_add_of_lt {v w : Int64} (hv : 0 ≤ v.toInt) (hw : 0 ≤ w.toInt)
    (h : v.toInt + w.toInt < 2 ^ 31) : (v + w).toInt = v.toInt + w.toInt := by
  rw [Int64.toInt_add, Int.bmod_eq_of_le] <;> omega

/-- A one-time job's row holds the time that it was given exactly when that fits. -/
theorem oneTime_correct_iff {built : Job} {v k : Int64} (hpos : 0 < v.toInt)
    (hnext : built.nextRunTime = v) :
    (∃ j, (FitsInt k ∧ j = readRow ((insertParams built).toRow k)) ∧
      some v.toInt = some j.nextRunTime.toInt) ↔
      FitsInt k ∧ ∀ v', some v.toInt = some v' → v' < 2 ^ 31 := by
  constructor
  · rintro ⟨j, ⟨hfits, rfl⟩, hj⟩
    refine ⟨hfits, ?_⟩
    intro v' hv'
    rw [readRow_insertParams] at hj
    rw [← Option.some.inj hv', Option.some.inj hj]
    exact toInt_narrowed_lt _
  · rintro ⟨hfits, hlt⟩
    refine ⟨_, ⟨hfits, rfl⟩, ?_⟩
    rw [readRow_insertParams, hnext]
    exact congrArg (some ∘ Int64.toInt) (toInt_narrowed (by omega) (hlt _ rfl)).symm

/-- A recurring job's row holds its interval, and the time one interval from now,
exactly when that time fits. -/
theorem recurring_correct_iff {built : Job} {now v k : Int64} (hnow : 0 ≤ now.toInt)
    (hpos : 0 < v.toInt) (hinterval : built.intervalSeconds = some v.toInt32)
    (hnext : built.nextRunTime = now + v.toInt32.toInt64) :
    (∃ j d, (FitsInt k ∧ j = readRow ((insertParams built).toRow k)) ∧ some v.toInt = some d ∧
      j.intervalSeconds.map Int32.toInt = some d ∧ j.nextRunTime.toInt = now.toInt + d ∧
      now < j.nextRunTime) ↔
      FitsInt k ∧ ∀ d, some v.toInt = some d → now.toInt + d < 2 ^ 31 := by
  constructor
  · rintro ⟨j, d, ⟨hfits, rfl⟩, hd, -, hj, -⟩
    refine ⟨hfits, ?_⟩
    intro d' hd'
    rw [readRow_insertParams] at hj
    rw [← Option.some.inj hd', Option.some.inj hd, ← hj]
    exact toInt_narrowed_lt _
  · rintro ⟨hfits, hlt⟩
    have hlt' := hlt _ rfl
    -- neither the interval nor the sum is cut
    have hd : v.toInt32.toInt64 = v := toInt_narrowed (by omega) (by omega)
    have hsum := toInt_add_of_lt hnow (le_of_lt hpos) hlt'
    rw [hd] at hnext
    have hstored : built.nextRunTime.toInt32.toInt64 = built.nextRunTime :=
      toInt_narrowed (by rw [hnext]; omega) (by rw [hnext]; omega)
    refine ⟨_, _, ⟨hfits, rfl⟩, rfl, ?_, ?_, ?_⟩ <;> rw [readRow_insertParams]
    · rw [hinterval, Option.map_some, ← Int32.toInt_toInt64, hd]
    · dsimp only
      rw [hstored, hnext, hsum]
    · dsimp only
      rw [hstored, hnext, Int64.lt_iff_toInt_lt, hsum]
      omega

/-- **The row is right exactly when its times and its rowid fit 32 bits.** -/
theorem createJob_correct_iff {uninit now : Int64} {db db' : Db}
    {members : List (Bytes × RValue)} {job : Job} {error : Bytes} {k : Int64}
    (hvalid : validateJobInput uninit (.object members) = .ok none)
    (hplain : ∀ key lit, member members key = some (number lit) →
      ∃ v : Int64, lit.integer? = some v.toInt)
    (hnow : 0 ≤ now.toInt) (hk : db.table.nextRowid = some k)
    (hcreate : createJob uninit now db (.object members) .ok = .ok (job, error, db')) :
    CorrectNextRun now members db' job.id ↔ FitsStorage now members k := by
  have hacc := accepted_of_valid hvalid
  obtain ⟨built, hbuilt, rfl, -, rfl⟩ := createJob_of_valid hvalid hcreate
  obtain ⟨lit, hjob⟩ := builtFrom_of_buildJob hacc hbuilt
  have hgiven := givenInteger_number hplain hjob.typeLit uninit
  simp only [CorrectNextRun, FitsStorage, readBack_insert_iff hk, hgiven, Option.some.injEq]
  have hzero : (0 : Int64).toInt = 0 := rfl
  rcases type_cases hjob.nonneg hjob.le with ⟨ht, hv⟩ | ⟨ht, hv⟩ | ⟨ht, hv⟩ <;> rw [hv]
  · -- a one-time job
    obtain ⟨lit', hlit', hpos, hnext⟩ := hjob.oneTime ht
    rw [Int64.lt_iff_toInt_lt, hzero] at hpos
    rw [givenInteger_number hplain hlit' uninit]
    exact and_congr (forall_congr' fun _ => oneTime_correct_iff hpos hnext) (by simp)
  · -- a recurring job
    obtain ⟨lit', hlit', hpos, hinterval, hnext⟩ := hjob.recurring ht
    rw [Int64.lt_iff_toInt_lt, hzero] at hpos
    rw [givenInteger_number hplain hlit' uninit]
    exact and_congr (by simp)
      (forall_congr' fun _ => recurring_correct_iff hnow hpos hinterval hnext)
  · -- nothing is asked of a cron job
    simp

/-- The job built from the body of a one-time job. -/
def oneTimeJob (nextRunTime : Int64) : Job where
  id := 0
  name := ascii "a"
  type := .oneTime
  status := .active
  nextRunTime := nextRunTime
  intervalSeconds := none
  cronExpr := none
  payload := ascii "p"

/-- The checks accept the body of a one-time job for 1. -/
theorem validateJobInput_one : validateJobInput 0 (.object oneTimeMembers) = .ok none := by
  decide +kernel

theorem buildJob_one : buildJob 0 0 (.object oneTimeMembers) = .ok (oneTimeJob 1) := by
  decide +kernel

/-- A one-time job for 2 147 483 648 is stored for -2 147 483 648. -/
theorem createJob_truncates :
    let members := oneTimeBody (intLit 2147483648 (by decide))
    validateJobInput 0 (.object members) = .ok none ∧
      givenInteger members (ascii "next_run_time") = some 2147483648 ∧
      ∃ job db', createJob 0 0 Db.empty (.object members) .ok = .ok (job, [], db') ∧
        ¬ CorrectNextRun 0 members db' job.id := by
  have hvalid : validateJobInput 0 (.object (oneTimeBody (intLit 2147483648 (by decide)))) =
      .ok none := by decide +kernel
  have hbuild : buildJob 0 0 (.object (oneTimeBody (intLit 2147483648 (by decide)))) =
      .ok (oneTimeJob 2147483648) := by decide +kernel
  have hcreate := createJob_of_accepted hvalid 0 Db.empty .ok
  rw [hbuild, ok_bind] at hcreate
  refine ⟨hvalid, by decide +kernel, _, _, hcreate, ?_⟩
  intro h
  obtain ⟨j, hread, hv⟩ := h.1 (by decide +kernel)
  obtain ⟨-, rfl⟩ := (readBack_insert_iff (k := 1) (by decide) _ j).mp hread
  rw [readRow_insertParams] at hv
  exact absurd hv (by decide +kernel)

theorem createJob_correct_one :
    ∃ job db', createJob 0 0 Db.empty (.object oneTimeMembers) .ok = .ok (job, [], db') ∧
      CorrectNextRun 0 oneTimeMembers db' job.id := by
  have hcreate := createJob_of_accepted validateJobInput_one 0 Db.empty .ok
  rw [buildJob_one, ok_bind] at hcreate
  have hplain : ∀ key lit,
      member oneTimeMembers key = some (number lit) →
        ∃ v : Int64, lit.integer? = some v.toInt := by
    intro key lit h
    have hmem := RValue.mem_of_member h
    simp only [oneTimeMembers, oneTimeBody, intLit, List.mem_cons, Prod.mk.injEq, reduceCtorEq,
      and_false, RValue.number.injEq, List.not_mem_nil, or_false, false_or] at hmem
    rcases hmem with ⟨-, rfl⟩ | ⟨-, rfl⟩
    · exact ⟨0, by decide +kernel⟩
    · exact ⟨1, by decide +kernel⟩
  refine ⟨_, _, hcreate, (createJob_correct_iff (k := 1) validateJobInput_one hplain (by decide)
    (by decide) hcreate).mpr
      ⟨fun _ => ⟨by decide, fun v hv => ?_⟩, fun h => absurd h (by decide +kernel)⟩⟩
  have hone : givenInteger oneTimeMembers (ascii "next_run_time") = some 1 := by
    decide +kernel
  rw [hone, Option.some.injEq] at hv
  omega

/-! ### The verdict -/

/-- Every row was there before. -/
def NoRowAdded (db db' : Db) : Prop := ∀ r ∈ db'.table.rows, r ∈ db.table.rows

/-- The id is that of the one new row, and all other rows are as they were. -/
def OneRowAdded (db db' : Db) (id : Int32) : Prop :=
  ∃ r, r.id = bindInt id ∧ r ∉ db.table.rows ∧ db'.table.rows = db.table.rows ++ [r]

/-- The id that is returned is -1 exactly when no row was added, which then has an error
text, and otherwise it is the id of the row that was. -/
structure HonestVerdict (db db' : Db) (job : Job) (error : Bytes) : Prop where
  failed : job.id = -1 ↔ NoRowAdded db db'
  text : job.id = -1 → error ≠ []
  inserted : job.id ≠ -1 → OneRowAdded db db' job.id

/-- What `insert_job` returns for a row that it has inserted under a positive rowid is an
honest verdict. -/
theorem HonestVerdict.of_insert {db : Db} {k : Int64} (hk : db.table.nextRowid = some k)
    (hpos : 0 < k.toInt) (hfew : k.toInt < 2 ^ 31) {job : Job} (built : Job) {error : Bytes}
    (hid : job.id = (insertJob db built .ok).1) :
    HonestVerdict db (insertJob db built .ok).2 job error := by
  rw [insertJob_ok built hk] at hid ⊢
  dsimp only at hid
  have hbind : bindInt job.id = k := by
    rw [hid]
    exact toInt64_toInt32_eq_iff.mpr ⟨by omega, hfew⟩
  have hnew : (insertParams built).toRow k ∉ db.table.rows := fun hmem =>
    Table.nextRowid_notMem hk (List.mem_map_of_mem hmem)
  have hne : job.id ≠ -1 := by
    intro heq
    have hneg : (bindInt (-1)).toInt = -1 := rfl
    rw [← heq, hbind] at hneg
    omega
  refine ⟨⟨fun h => absurd h hne, fun hnone => ?_⟩, fun h => absurd h hne, fun _ => ?_⟩
  · exact absurd (hnone _ (List.mem_append_right _ List.mem_cons_self)) hnew
  · exact ⟨(insertParams built).toRow k, hbind.symm, hnew, rfl⟩

/-- **The verdict on an accepted body is honest exactly when every SQLite call succeeds.** -/
theorem createJob_honest_iff {uninit now : Int64} {db db' : Db} {body : RValue} {o : SqlOutcome}
    {job : Job} {error : Bytes} {k : Int64} (hvalid : validateJobInput uninit body = .ok none)
    (hk : db.table.nextRowid = some k) (hpos : 0 < k.toInt) (hfew : k.toInt < 2 ^ 31)
    (hcreate : createJob uninit now db body o = .ok (job, error, db')) :
    HonestVerdict db db' job error ↔ o = .ok := by
  obtain ⟨built, -, hjob, herror, hdb⟩ := createJob_of_valid hvalid hcreate
  constructor
  · -- a call that fails leaves the table alone, so the id is -1, and there is no text
    intro h
    by_contra hfailed
    have hsame : db' = db := by
      rw [hdb]
      cases o with
      | ok => exact absurd rfl hfailed
      | prepareError rc => rfl
      | stepError => rfl
    exact absurd herror (h.text (h.failed.mpr fun r hr => hsame ▸ hr))
  · rintro rfl
    rw [hdb]
    exact HonestVerdict.of_insert hk hpos hfew built (by rw [hjob])

theorem createJob_honest_one : ∃ job db',
    createJob 0 0 Db.empty (.object oneTimeMembers) .ok = .ok (job, [], db') ∧
      HonestVerdict Db.empty db' job [] := by
  have hcreate := createJob_of_accepted validateJobInput_one 0 Db.empty .ok
  rw [buildJob_one, ok_bind] at hcreate
  exact ⟨_, _, hcreate, (createJob_honest_iff (k := 1) validateJobInput_one (by decide) (by decide)
    (by decide) hcreate).mpr rfl⟩

/-- A statement that cannot be prepared, with `SQLITE_ERROR`, passes for the job 1. -/
theorem createJob_dishonest : ∃ job,
    validateJobInput 0 (.object oneTimeMembers) = .ok none ∧
      createJob 0 0 Db.empty (.object oneTimeMembers) (.prepareError ⟨1, by decide⟩) =
        .ok (job, [], Db.empty) ∧ job.id = 1 ∧ ¬ HonestVerdict Db.empty Db.empty job [] := by
  have hcreate := createJob_of_accepted validateJobInput_one 0 Db.empty
    (.prepareError ⟨1, by decide⟩)
  rw [buildJob_one, ok_bind] at hcreate
  refine ⟨_, validateJobInput_one, hcreate, rfl, ?_⟩
  intro h
  exact absurd (h.failed.mpr fun r hr => hr) (by decide)

end JobScheduler
