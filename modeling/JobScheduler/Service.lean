import JobScheduler.Cron.Walk
import JobScheduler.Database
import JobScheduler.Json

/-!
# The service layer

The functions of `Src/Service/service.cpp`.  The source has `retrun true` for
`return true` in `is_valid_cron` and `sqlite*` for `sqlite3*` in `get_due_jobs`;
both are read as meant.  The clock is an argument, and `uninit` is what
`RValue.i` may read off an uninitialised variable.

## Main definitions

* `isValidCron`, `validateJobInput` — the checks on a request body.
* `computeCronNextRun`, `computeNextRunTime`, `buildJob`, `createJob`, `getDueJobs`.
* `Accepted` — what the checks amount to on an object.
* `BuiltFrom` — what the job takes from the members of an accepted object.

## Main results

* `validateJobInput_object` — the checks return on every object, and accept exactly
  the bodies that are `Accepted`.
* `computeCronNextRun_ok` — the next run of an expression that is valid is found.
* `builtFrom_of_buildJob` — the job that `create_job` builds is `BuiltFrom` the members.
-/

namespace JobScheduler

open CText

/-! ### Cron expressions -/

/-- The text that `is_valid_cron` and `compute_cron_next_run` hand to `make_cron`. -/
def fullExpr (cronExpr : Bytes) : Bytes := ascii "0" ++ cronExpr

/-- `is_valid_cron`: `none` for true, and for false the text left in `out_error`. -/
def isValidCron (cronExpr : Bytes) : Except Fault (Option Bytes) :=
  match Cron.makeCron (fullExpr cronExpr) with
  | .ok _ => .ok none
  | .error (.badCronexpr what) => .ok (some what)
  | .error f => .error f

/-- `compute_cron_next_run`. -/
def computeCronNextRun (cronExpr : Bytes) (now : Int64) : Except Fault Int64 := do
  let cex ← Cron.makeCron (fullExpr cronExpr)
  let next ← Cron.cronNext cex now.toInt
  pure (Int64.ofInt next)

/-- `compute_next_run_time`. -/
def computeNextRunTime (type : Int32) (now : Int64) (intervalSeconds : Option Int32)
    (cronExpr : Option Bytes) (clientNextRunTime : Int64) : Except Fault Int64 :=
  if type = 0 then pure clientNextRunTime
  else if type = 1 then
    match intervalSeconds with
    | some interval => pure (now + interval.toInt64)
    | none => throw .badOptionalAccess
  else if type = 2 then
    match cronExpr with
    | some cronExpr => computeCronNextRun cronExpr now
    | none => throw .badOptionalAccess
  else pure (-1)

/-! ### Validation -/

/-- `!body.has(key) || body[key].t() != type || …`, the test of every field. -/
def fieldFails (body : RValue) (key : Bytes) (type : JsonType)
    (bad : RValue → Except Fault Bool) : Except Fault Bool := do
  if !(← body.has key) then pure true
  else
    let v ← body.get key
    if v.t ≠ type then pure true else bad v

/-- `… == ""` -/
def isEmptyText (v : RValue) : Except Fault Bool := do pure (decide ((← v.s) = []))

/-- `… <= 0` -/
def isNotPositive (uninit : Int64) (v : RValue) : Except Fault Bool := do
  pure (decide ((← v.i uninit) ≤ 0))

/-- `… < 0 || … > 2` -/
def isNoType (uninit : Int64) (v : RValue) : Except Fault Bool := do
  let n ← v.i uninit
  pure (decide (n < 0) || decide (n > 2))

/-- The part of `validate_job_input` that depends on the type. -/
def validateSchedule (uninit : Int64) (body : RValue) (type : Int32) :
    Except Fault (Option Bytes) := do
  if type = 0 then
    if ← fieldFails body (ascii "next_run_time") .number (isNotPositive uninit) then
      pure (some (ascii "ONE_TIME jobs require a positive 'next_run_time' value"))
    else pure none
  else if type = 1 then
    if ← fieldFails body (ascii "interval_seconds") .number (isNotPositive uninit) then
      pure (some (ascii "RECURRING jobs require a positive 'interval_seconds' value"))
    else pure none
  else if type = 2 then
    if ← fieldFails body (ascii "cron_expr") .string isEmptyText then
      pure (some (ascii "The Cron expression is required and must be a non-empty String"))
    else
      match ← isValidCron (← (← body.get (ascii "cron_expr")).s) with
      | some cronErr => pure (some (ascii "Invalid cron expression " ++ cronErr))
      | none => pure none
  else pure none

/-- `validate_job_input`: `none` for true, and for false the text left in
`out_error`. -/
def validateJobInput (uninit : Int64) (body : RValue) : Except Fault (Option Bytes) := do
  if ← fieldFails body (ascii "name") .string isEmptyText then
    pure (some (ascii "The Name field is required and must be a non-empty String"))
  else if ← fieldFails body (ascii "type") .number (isNoType uninit) then
    pure (some
      (ascii "The Type field is required and  must be 0 (ONE_TIME), 1 (RECURRING), or 2 (CRON)"))
  else if ← fieldFails body (ascii "payload") .string isEmptyText then
    pure (some (ascii "The Payload field is required and must be a non-empty String"))
  else
    let type := (← (← body.get (ascii "type")).i uninit).toInt32
    validateSchedule uninit body type

/-! ### Creating a job -/

/-- A member that is neither missing nor null. -/
def presentMember (body : RValue) (key : Bytes) : Except Fault (Option RValue) := do
  if !(← body.has key) then pure none
  else
    let v ← body.get key
    if v.t = .null then pure none else pure (some v)

/-- A member's number, or a default when it is missing or no number. -/
def numberMember (uninit : Int64) (body : RValue) (key : Bytes) (default : Int64) :
    Except Fault Int64 := do
  if ← body.has key then
    let v ← body.get key
    if v.t = .number then v.i uninit else pure default
  else pure default

/-- `job.interval_seconds`; `i()` is narrowed to the `int` of the `std::optional<int>`. -/
def intervalSecondsOf (uninit : Int64) (body : RValue) : Except Fault (Option Int32) := do
  match ← presentMember body (ascii "interval_seconds") with
  | none => pure none
  | some v => pure (some (← v.i uninit).toInt32)

/-- `job.cron_expr`. -/
def cronExprOf (body : RValue) : Except Fault (Option Bytes) := do
  match ← presentMember body (ascii "cron_expr") with
  | none => pure none
  | some v => pure (some (← v.s))

/-- `create_job` between the validation and `insert_job`.  `id` is not set yet. -/
def buildJob (uninit now : Int64) (body : RValue) : Except Fault Job := do
  let name ← (← body.get (ascii "name")).s
  let jobType := intToType (← (← body.get (ascii "type")).i uninit).toInt32
  let payload ← (← body.get (ascii "payload")).s
  let intervalSeconds ← intervalSecondsOf uninit body
  let cronExpr ← cronExprOf body
  let clientNextRunTime ← numberMember uninit body (ascii "next_run_time") 0
  let maxRetries := (← numberMember uninit body (ascii "max_retries") 3).toInt32
  let type := (← (← body.get (ascii "type")).i uninit).toInt32
  let nextRunTime ← computeNextRunTime type now intervalSeconds cronExpr clientNextRunTime
  pure
    { id := 0, name, type := jobType, status := .active, nextRunTime, intervalSeconds, cronExpr
      payload, retryCount := 0, maxRetries }

/-- `create_job`: the job it returns, the text left in `out_error`, which the caller
passes empty, and the database.  Of the job that a rejected body gets, only the id
is set. -/
def createJob (uninit now : Int64) (db : Db) (body : RValue) (o : SqlOutcome) :
    Except Fault (Job × Bytes × Db) := do
  match ← validateJobInput uninit body with
  | some error => pure ({ (default : Job) with id := -1 }, error, db)
  | none =>
    let job ← buildJob uninit now body
    let (id, db') := insertJob db job o
    pure ({ job with id }, [], db')

/-- `get_due_jobs`. -/
def getDueJobs (db : Db) (now : Int64) (o : ScanOutcome) : List Job := selectDueJobs db now o

/-! ### Valid expressions -/

theorem cstr_fullExpr (cronExpr : Bytes) : cstr (fullExpr cronExpr) = 48 :: cstr cronExpr :=
  cstr_cons_of_ne (by decide) cronExpr

/-- `make_cron` reads no further than the first NUL. -/
theorem makeCron_cstr (cronExpr : Bytes) :
    Cron.makeCron (fullExpr (cstr cronExpr)) = Cron.makeCron (fullExpr cronExpr) := by
  have hfields : Cron.fields (fullExpr (cstr cronExpr)) = Cron.fields (fullExpr cronExpr) := by
    rw [Cron.fields, Cron.fields, cstr_fullExpr, cstr_fullExpr, cstr_cstr]
  unfold Cron.makeCron
  rw [hfields]
  rfl

theorem isValidCron_cstr (cronExpr : Bytes) :
    isValidCron (cstr cronExpr) = isValidCron cronExpr := by
  rw [isValidCron, isValidCron, makeCron_cstr]

theorem isValidCron_ok (cronExpr : Bytes) : ∃ r, isValidCron cronExpr = .ok r := by
  have h := Cron.makeCron_parses (fullExpr cronExpr)
  unfold isValidCron
  cases hm : Cron.makeCron (fullExpr cronExpr) with
  | ok cex => exact ⟨none, rfl⟩
  | error f =>
    rw [hm] at h
    cases f with
    | badCronexpr what => exact ⟨some what, rfl⟩
    | _ => exact absurd h id

theorem isValidCron_eq_none {cronExpr : Bytes} :
    isValidCron cronExpr = .ok none ↔ ∃ cex, Cron.makeCron (fullExpr cronExpr) = .ok cex := by
  unfold isValidCron
  split <;> simp_all

/-- **The next run of a valid expression is found.** -/
theorem computeCronNextRun_ok {cronExpr : Bytes} {cex : Cron.CronExpr} (now : Int64)
    (h : Cron.makeCron (fullExpr cronExpr) = .ok cex) :
    ∃ v, computeCronNextRun cronExpr now = .ok (Int64.ofInt v) ∧
      Cron.cronNext cex now.toInt = .ok v := by
  obtain ⟨v, hv⟩ := Cron.cronNext_ok ((Cron.makeCron_parses _).of_ok h) now.toInt
  exact ⟨v, by rw [computeCronNextRun, h, ok_bind, hv]; rfl, hv⟩

/-! ### Validation of objects -/

section Object

variable {uninit : Int64} {members : List (Bytes × RValue)} {key : Bytes}

open RValue (member object string number has_object get_object s_string i_number)

theorem fieldFails_object (type : JsonType) (bad : RValue → Except Fault Bool) :
    fieldFails (object members) key type bad =
      match member members key with
      | none => .ok true
      | some v => if v.t ≠ type then .ok true else bad v := by
  rw [fieldFails, has_object, ok_bind]
  cases h : member members key with
  | none => rfl
  | some v =>
    rw [get_object h]
    rfl

theorem fieldFails_text (members : List (Bytes × RValue)) (key : Bytes) :
    ∃ b, fieldFails (object members) key .string isEmptyText = .ok b ∧
      (b = false ↔ ∃ raw, member members key = some (string raw) ∧ unescape raw ≠ []) := by
  rw [fieldFails_object]
  cases h : member members key with
  | none => exact ⟨true, rfl, by simp⟩
  | some v =>
    cases v with
    | string raw =>
      refine ⟨decide (unescape raw = []), ?_, by simp⟩
      simp only [RValue.t, ne_eq, not_true_eq_false, if_false]
      rfl
    | _ => exact ⟨true, rfl, by simp⟩

theorem fieldFails_number (members : List (Bytes × RValue)) (key : Bytes)
    {bad : RValue → Except Fault Bool} {p : Int64 → Bool}
    (hbad : ∀ lit : NumberLit, bad (number lit) = .ok (p (lexicalCast uninit lit.text))) :
    ∃ b, fieldFails (object members) key .number bad = .ok b ∧
      (b = false ↔ ∃ lit, member members key = some (number lit) ∧
        p (lexicalCast uninit lit.text) = false) := by
  rw [fieldFails_object]
  cases h : member members key with
  | none => exact ⟨true, rfl, by simp⟩
  | some v =>
    cases v with
    | number lit =>
      refine ⟨p (lexicalCast uninit lit.text), ?_, by simp⟩
      simp only [RValue.t, ne_eq, not_true_eq_false, if_false]
      exact hbad lit
    | _ => exact ⟨true, rfl, by simp⟩

/-- What a body must have for its type. -/
def ScheduleAccepted (uninit : Int64) (members : List (Bytes × RValue)) (type : Int32) : Prop :=
  (type = 0 → ∃ lit, member members (ascii "next_run_time") = some (number lit) ∧
    0 < lexicalCast uninit lit.text) ∧
  (type = 1 → ∃ lit, member members (ascii "interval_seconds") = some (number lit) ∧
    0 < lexicalCast uninit lit.text) ∧
  (type = 2 → ∃ raw, member members (ascii "cron_expr") = some (string raw) ∧
    unescape raw ≠ [] ∧ isValidCron (unescape raw) = .ok none)

/-- What the checks of `validate_job_input` amount to on an object. -/
structure Accepted (uninit : Int64) (members : List (Bytes × RValue)) : Prop where
  name : ∃ raw, member members (ascii "name") = some (string raw) ∧ unescape raw ≠ []
  type : ∃ lit, member members (ascii "type") = some (number lit) ∧
    0 ≤ lexicalCast uninit lit.text ∧ lexicalCast uninit lit.text ≤ 2 ∧
    ScheduleAccepted uninit members (lexicalCast uninit lit.text).toInt32
  payload : ∃ raw, member members (ascii "payload") = some (string raw) ∧ unescape raw ≠ []

theorem isNotPositive_number (uninit : Int64) (lit : NumberLit) :
    isNotPositive uninit (number lit) = .ok (decide (lexicalCast uninit lit.text ≤ 0)) := rfl

theorem isNoType_number (uninit : Int64) (lit : NumberLit) :
    isNoType uninit (number lit) =
      .ok (decide (lexicalCast uninit lit.text < 0) || decide (lexicalCast uninit lit.text > 2)) :=
  rfl

/-- A check that rejects a body leaves a text in `out_error`. -/
private theorem check_ok {x : Except Fault Bool} {b : Bool} {text : Bytes}
    {rest : Except Fault (Option Bytes)} {P Q R : Prop} (hx : x = .ok b) (hb : b = false ↔ P)
    (htext : text ≠ []) (hR : P ∧ Q ↔ R)
    (hrest : P → ∃ r, rest = .ok r ∧ (r = none ↔ Q) ∧ ∀ e, r = some e → e ≠ []) :
    ∃ r, (do if ← x then pure (some text) else rest) = .ok r ∧ (r = none ↔ R) ∧
      ∀ e, r = some e → e ≠ [] := by
  subst hx
  rw [← hR]
  cases b with
  | true =>
    refine ⟨some text, rfl, ?_, fun e he => Option.some.inj he ▸ htext⟩
    simp [← hb]
  | false =>
    obtain ⟨r, hr, hQ, hne⟩ := hrest (hb.mp rfl)
    refine ⟨r, hr, ?_, hne⟩
    rw [hQ]
    simp [hb.mp rfl]

/-- The end of a chain of checks. -/
private theorem pure_none_ok : ∃ r, (pure none : Except Fault (Option Bytes)) = .ok r ∧
    (r = none ↔ True) ∧ ∀ e, r = some e → e ≠ [] :=
  ⟨none, rfl, by simp, by simp⟩

theorem validateSchedule_object (uninit : Int64) (members : List (Bytes × RValue)) (type : Int32) :
    ∃ r, validateSchedule uninit (object members) type = .ok r ∧
      (r = none ↔ ScheduleAccepted uninit members type) ∧ ∀ e, r = some e → e ≠ [] := by
  unfold validateSchedule
  by_cases h0 : type = 0
  · subst h0
    obtain ⟨b, hb, hiff⟩ := fieldFails_number members (ascii "next_run_time")
      (p := fun n => decide (n ≤ 0)) (isNotPositive_number uninit)
    exact check_ok hb hiff (by decide) (by simp [ScheduleAccepted]) fun _ => pure_none_ok
  by_cases h1 : type = 1
  · subst h1
    obtain ⟨b, hb, hiff⟩ := fieldFails_number members (ascii "interval_seconds")
      (p := fun n => decide (n ≤ 0)) (isNotPositive_number uninit)
    exact check_ok hb hiff (by decide) (by simp [ScheduleAccepted]) fun _ => pure_none_ok
  by_cases h2 : type = 2
  · subst h2
    obtain ⟨b, hb, hiff⟩ := fieldFails_text members (ascii "cron_expr")
    refine check_ok (Q := ∃ raw, member members (ascii "cron_expr") = some (string raw) ∧
      isValidCron (unescape raw) = .ok none) hb hiff (by decide) ?_ ?_
    · constructor
      · rintro ⟨⟨raw, hraw, hne⟩, raw', hraw', hvalid⟩
        rw [hraw, Option.some.injEq, RValue.string.injEq] at hraw'
        subst hraw'
        exact ⟨by simp, by simp, fun _ => ⟨raw, hraw, hne, hvalid⟩⟩
      · rintro ⟨-, -, h⟩
        obtain ⟨raw, hraw, hne, hvalid⟩ := h rfl
        exact ⟨⟨raw, hraw, hne⟩, raw, hraw, hvalid⟩
    · rintro ⟨raw, hraw, -⟩
      obtain ⟨r, hr⟩ := isValidCron_ok (unescape raw)
      rw [get_object hraw, ok_bind, s_string, ok_bind, hr, ok_bind]
      cases r with
      | none => exact ⟨none, rfl, by simp [hraw, hr], by simp⟩
      | some cronErr =>
        refine ⟨_, rfl, by simp [hraw, hr], ?_⟩
        intro e he
        rw [← Option.some.inj he]
        exact List.append_ne_nil_of_left_ne_nil (by decide) _
  · refine ⟨none, by rw [if_neg h0, if_neg h1, if_neg h2]; rfl, ?_, by simp⟩
    simp [ScheduleAccepted, h0, h1, h2]

/-- **The checks return on every object**: they accept exactly the bodies that are
`Accepted`, and leave a text for the others. -/
theorem validateJobInput_object (uninit : Int64) (members : List (Bytes × RValue)) :
    ∃ r, validateJobInput uninit (object members) = .ok r ∧
      (r = none ↔ Accepted uninit members) ∧ ∀ e, r = some e → e ≠ [] := by
  obtain ⟨b₁, hb₁, hname⟩ := fieldFails_text members (ascii "name")
  obtain ⟨b₂, hb₂, htype⟩ := fieldFails_number members (ascii "type")
    (p := fun n => decide (n < 0) || decide (n > 2)) (isNoType_number uninit)
  obtain ⟨b₃, hb₃, hpayload⟩ := fieldFails_text members (ascii "payload")
  -- the type's own check and the schedule's look at the same number
  let Q := ∃ lit, member members (ascii "type") = some (number lit) ∧
    ScheduleAccepted uninit members (lexicalCast uninit lit.text).toInt32
  refine check_ok hb₁ hname (by decide) ?_ fun _ => check_ok hb₂ htype (by decide) Iff.rfl
    fun ⟨lit, hlit, _⟩ => check_ok (Q := Q) hb₃ hpayload (by decide) Iff.rfl fun _ => ?_
  · constructor
    · rintro ⟨h1, ⟨lit, hlit, hrange⟩, h3, lit', hlit', h4⟩
      rw [hlit, Option.some.injEq, RValue.number.injEq] at hlit'
      subst hlit'
      simp only [Bool.or_eq_false_iff, decide_eq_false_iff_not, Int64.not_lt, gt_iff_lt] at hrange
      exact ⟨h1, ⟨lit, hlit, hrange.1, hrange.2, h4⟩, h3⟩
    · rintro ⟨h1, ⟨lit, hlit, h2, h2', h4⟩, h3⟩
      refine ⟨h1, ⟨lit, hlit, ?_⟩, h3, lit, hlit, h4⟩
      simp only [Bool.or_eq_false_iff, decide_eq_false_iff_not, Int64.not_lt, gt_iff_lt]
      exact ⟨h2, h2'⟩
  · obtain ⟨r, hr, hiff, hne⟩ := validateSchedule_object uninit members
      (lexicalCast uninit lit.text).toInt32
    rw [get_object hlit, ok_bind, i_number, ok_bind]
    refine ⟨r, hr, hiff.trans ?_, hne⟩
    simp [Q, hlit]

theorem accepted_of_valid (h : validateJobInput uninit (object members) = .ok none) :
    Accepted uninit members := by
  obtain ⟨r, hr, hiff, -⟩ := validateJobInput_object uninit members
  rw [hr, Except.ok.injEq] at h
  exact hiff.mp h

/-! ### The job built from an object -/

/-- The integer that a member gives, when it is a plain integer literal. -/
def givenInteger (members : List (Bytes × RValue)) (key : Bytes) : Option ℤ :=
  match member members key with
  | some (.number lit) => lit.integer?
  | _ => none

/-- Members that are read without a look at their type have a type that their
accessor takes. -/
structure WellTyped (members : List (Bytes × RValue)) : Prop where
  intervalSeconds : ∀ v, member members (ascii "interval_seconds") = some v →
    v.t = .null ∨ v.t = .number ∨ v.t = .string
  cronExpr : ∀ v, member members (ascii "cron_expr") = some v → v.t = .null ∨ v.t = .string

theorem presentMember_object (members : List (Bytes × RValue)) (key : Bytes) :
    presentMember (object members) key =
      match member members key with
      | none => .ok none
      | some v => if v.t = .null then .ok none else .ok (some v) := by
  rw [presentMember, has_object, ok_bind]
  cases h : member members key with
  | none => rfl
  | some v =>
    rw [get_object h]
    rfl

/-- A member's number, or the default. -/
def numberOf (uninit : Int64) (members : List (Bytes × RValue)) (key : Bytes) (default : Int64) :
    Int64 :=
  match member members key with
  | some (.number lit) => lexicalCast uninit lit.text
  | _ => default

theorem numberOf_number {lit : NumberLit} (uninit default : Int64)
    (h : member members key = some (number lit)) :
    numberOf uninit members key default = lexicalCast uninit lit.text := by
  rw [numberOf, h]

theorem numberMember_object (uninit : Int64) (members : List (Bytes × RValue)) (key : Bytes)
    (default : Int64) :
    numberMember uninit (object members) key default =
      .ok (numberOf uninit members key default) := by
  rw [numberMember, has_object, ok_bind, numberOf]
  cases h : member members key with
  | none => rfl
  | some v =>
    rw [get_object h]
    cases v <;> rfl

theorem intervalSecondsOf_object (uninit : Int64) (members : List (Bytes × RValue)) :
    intervalSecondsOf uninit (object members) =
      match member members (ascii "interval_seconds") with
      | none | some .null => .ok none
      | some v => (v.i uninit).map fun n => some n.toInt32 := by
  rw [intervalSecondsOf, presentMember_object]
  cases member members (ascii "interval_seconds") with
  | none => rfl
  | some v => cases v <;> rfl

theorem cronExprOf_object (members : List (Bytes × RValue)) :
    cronExprOf (object members) =
      match member members (ascii "cron_expr") with
      | none | some .null => .ok none
      | some v => v.s.map some := by
  rw [cronExprOf, presentMember_object]
  cases member members (ascii "cron_expr") with
  | none => rfl
  | some v => cases v <;> rfl

theorem intervalSecondsOf_number {lit : NumberLit} (uninit : Int64)
    (h : member members (ascii "interval_seconds") = some (number lit)) :
    intervalSecondsOf uninit (object members) =
      .ok (some (lexicalCast uninit lit.text).toInt32) := by
  rw [intervalSecondsOf_object, h]
  rfl

theorem cronExprOf_string {raw : Bytes}
    (h : member members (ascii "cron_expr") = some (string raw)) :
    cronExprOf (object members) = .ok (some (unescape raw)) := by
  rw [cronExprOf_object, h]
  rfl

/-- The two accessors throw nothing but what Crow does. -/
theorem intervalSecondsOf_throws {f : Fault} (uninit : Int64) (members : List (Bytes × RValue))
    (h : intervalSecondsOf uninit (object members) = .error f) :
    ∃ what, f = .runtimeError what := by
  rw [intervalSecondsOf_object] at h
  cases hm : member members (ascii "interval_seconds") with
  | none => simp [hm] at h
  | some v => cases v <;> simp_all [RValue.i, Except.map, eq_comm]

theorem cronExprOf_throws {f : Fault} (members : List (Bytes × RValue))
    (h : cronExprOf (object members) = .error f) : ∃ what, f = .runtimeError what := by
  rw [cronExprOf_object] at h
  cases hm : member members (ascii "cron_expr") with
  | none => simp [hm] at h
  | some v => cases v <;> simp_all [RValue.s, Except.map, eq_comm]

/-- The two accessors return exactly on members of a type that they take. -/
theorem wellTyped_iff (uninit : Int64) (members : List (Bytes × RValue)) :
    WellTyped members ↔ (∃ i, intervalSecondsOf uninit (object members) = .ok i) ∧
      ∃ c, cronExprOf (object members) = .ok c := by
  have hinterval : (∃ i, intervalSecondsOf uninit (object members) = .ok i) ↔
      ∀ v, member members (ascii "interval_seconds") = some v →
        v.t = .null ∨ v.t = .number ∨ v.t = .string := by
    rw [intervalSecondsOf_object]
    cases member members (ascii "interval_seconds") with
    | none => simp
    | some v => cases v <;> simp [RValue.t, RValue.i, Except.map]
  have hcron : (∃ c, cronExprOf (object members) = .ok c) ↔
      ∀ v, member members (ascii "cron_expr") = some v → v.t = .null ∨ v.t = .string := by
    rw [cronExprOf_object]
    cases member members (ascii "cron_expr") with
    | none => simp
    | some v => cases v <;> simp [RValue.t, RValue.s, Except.map]
  rw [hinterval, hcron]
  exact ⟨fun h => ⟨h.intervalSeconds, h.cronExpr⟩, fun h => ⟨h.1, h.2⟩⟩

/-- The job that `create_job` makes of an object with the fields it has checked. -/
theorem buildJob_object {raw₁ raw₂ : Bytes} {lit : NumberLit} (uninit now : Int64)
    (hname : member members (ascii "name") = some (string raw₁))
    (htype : member members (ascii "type") = some (number lit))
    (hpayload : member members (ascii "payload") = some (string raw₂)) :
    buildJob uninit now (object members) = (do
      let intervalSeconds ← intervalSecondsOf uninit (object members)
      let cronExpr ← cronExprOf (object members)
      let nextRunTime ← computeNextRunTime (lexicalCast uninit lit.text).toInt32 now
        intervalSeconds cronExpr (numberOf uninit members (ascii "next_run_time") 0)
      pure
        { id := 0, name := unescape raw₁, type := intToType (lexicalCast uninit lit.text).toInt32
          status := .active, nextRunTime, intervalSeconds, cronExpr, payload := unescape raw₂
          retryCount := 0
          maxRetries := (numberOf uninit members (ascii "max_retries") 3).toInt32 }) := by
  rw [buildJob, get_object hname, get_object htype, get_object hpayload]
  simp only [ok_bind, s_string, i_number, numberMember_object]

/-- A type that the checks accept is one of the three. -/
theorem type_cases {n : Int64} (h0 : 0 ≤ n) (h2 : n ≤ 2) :
    n.toInt32 = 0 ∧ n.toInt = 0 ∨ n.toInt32 = 1 ∧ n.toInt = 1 ∨ n.toInt32 = 2 ∧ n.toInt = 2 := by
  rw [Int64.le_iff_toInt_le] at h0 h2
  have h : n.toInt = 0 ∨ n.toInt = 1 ∨ n.toInt = 2 := by
    have : (0 : Int64).toInt = 0 := rfl
    have : (2 : Int64).toInt = 2 := rfl
    omega
  rcases h with h | h | h
  · have hn : n = 0 := Int64.toInt_inj.mp h
    exact Or.inl ⟨by rw [hn]; rfl, h⟩
  · have hn : n = 1 := Int64.toInt_inj.mp h
    exact Or.inr (Or.inl ⟨by rw [hn]; rfl, h⟩)
  · have hn : n = 2 := Int64.toInt_inj.mp h
    exact Or.inr (Or.inr ⟨by rw [hn]; rfl, h⟩)

/-- **After the checks, only the two members that are read unchecked can make
`create_job` throw.** -/
theorem buildJob_ok_iff (hacc : Accepted uninit members) (now : Int64) :
    (∃ job, buildJob uninit now (object members) = .ok job) ↔ WellTyped members := by
  obtain ⟨⟨raw₁, hname, -⟩, ⟨lit, htype, h0, h2, hschedule⟩, raw₂, hpayload, -⟩ := hacc
  rw [wellTyped_iff uninit, buildJob_object uninit now hname htype hpayload]
  constructor
  · rintro ⟨job, hjob⟩
    obtain ⟨i, hi, hjob⟩ := bind_eq_ok.mp hjob
    obtain ⟨c, hc, -⟩ := bind_eq_ok.mp hjob
    exact ⟨⟨i, hi⟩, c, hc⟩
  · rintro ⟨⟨i, hi⟩, c, hc⟩
    have hnext : ∃ next, computeNextRunTime (lexicalCast uninit lit.text).toInt32 now i c
        (numberOf uninit members (ascii "next_run_time") 0) = .ok next := by
      obtain ⟨hs0, hs1, hs2⟩ := hschedule
      rcases type_cases h0 h2 with ⟨h, -⟩ | ⟨h, -⟩ | ⟨h, -⟩ <;> rw [h] at hs0 hs1 hs2 ⊢
      · exact ⟨_, rfl⟩
      · -- the interval is a number, so it has been read
        obtain ⟨lit', hlit', -⟩ := hs1 rfl
        rw [intervalSecondsOf_number uninit hlit'] at hi
        rw [← Except.ok.inj hi]
        exact ⟨_, rfl⟩
      · -- the expression is a valid one
        obtain ⟨raw, hraw, -, hvalid⟩ := hs2 rfl
        rw [cronExprOf_string hraw] at hc
        rw [← Except.ok.inj hc]
        obtain ⟨cex, hcex⟩ := isValidCron_eq_none.mp hvalid
        obtain ⟨v, hv, -⟩ := computeCronNextRun_ok now hcex
        exact ⟨_, hv⟩
    obtain ⟨next, hnext⟩ := hnext
    exact ⟨_, by rw [hi, ok_bind, hc, ok_bind, hnext]; rfl⟩

/-- A member of the wrong type makes `create_job` throw what Crow does. -/
theorem buildJob_throws (hacc : Accepted uninit members) (hwell : ¬ WellTyped members)
    (now : Int64) : ∃ what, buildJob uninit now (object members) = .error (.runtimeError what) := by
  obtain ⟨⟨raw₁, hname, -⟩, ⟨lit, htype, -⟩, raw₂, hpayload, -⟩ := hacc
  rw [wellTyped_iff uninit] at hwell
  rw [buildJob_object uninit now hname htype hpayload]
  cases hi : intervalSecondsOf uninit (object members) with
  | error f =>
    obtain ⟨what, rfl⟩ := intervalSecondsOf_throws uninit members hi
    exact ⟨what, rfl⟩
  | ok i =>
    cases hc : cronExprOf (object members) with
    | error f =>
      obtain ⟨what, rfl⟩ := cronExprOf_throws members hc
      exact ⟨what, rfl⟩
    | ok c => exact absurd ⟨⟨i, hi⟩, c, hc⟩ hwell

/-- What the job that is built takes from the members, its type from the literal `lit`. -/
structure BuiltFrom (uninit now : Int64) (members : List (Bytes × RValue)) (lit : NumberLit)
    (job : Job) : Prop where
  typeLit : member members (ascii "type") = some (number lit)
  nonneg : 0 ≤ lexicalCast uninit lit.text
  le : lexicalCast uninit lit.text ≤ 2
  schedule : ScheduleAccepted uninit members (lexicalCast uninit lit.text).toInt32
  type : job.type = intToType (lexicalCast uninit lit.text).toInt32
  intervalSeconds : intervalSecondsOf uninit (object members) = .ok job.intervalSeconds
  cronExpr : cronExprOf (object members) = .ok job.cronExpr
  nextRunTime : computeNextRunTime (lexicalCast uninit lit.text).toInt32 now job.intervalSeconds
    job.cronExpr (numberOf uninit members (ascii "next_run_time") 0) = .ok job.nextRunTime
  retryCount : job.retryCount = 0
  maxRetries : job.maxRetries = (numberOf uninit members (ascii "max_retries") 3).toInt32

/-- **What the job that is built takes from the members.** -/
theorem builtFrom_of_buildJob {now : Int64} {job : Job} (hacc : Accepted uninit members)
    (hbuild : buildJob uninit now (object members) = .ok job) :
    ∃ lit, BuiltFrom uninit now members lit job := by
  obtain ⟨⟨raw₁, hname, -⟩, ⟨lit, htype, h0, h2, hschedule⟩, raw₂, hpayload, -⟩ := hacc
  rw [buildJob_object uninit now hname htype hpayload] at hbuild
  obtain ⟨i, hi, hbuild⟩ := bind_eq_ok.mp hbuild
  obtain ⟨c, hc, hbuild⟩ := bind_eq_ok.mp hbuild
  obtain ⟨next, hnext, hbuild⟩ := bind_eq_ok.mp hbuild
  obtain rfl := Except.ok.inj hbuild
  exact ⟨lit, htype, h0, h2, hschedule, rfl, hi, hc, hnext, rfl, rfl⟩

section

variable {now : Int64} {lit : NumberLit} {job : Job}

/-- The next run time of a one-time job is the one given. -/
theorem BuiltFrom.oneTime (h : BuiltFrom uninit now members lit job)
    (htype : (lexicalCast uninit lit.text).toInt32 = 0) :
    ∃ lit', member members (ascii "next_run_time") = some (number lit') ∧
      0 < lexicalCast uninit lit'.text ∧ job.nextRunTime = lexicalCast uninit lit'.text := by
  obtain ⟨lit', hlit', hpos⟩ := h.schedule.1 htype
  have hnext := h.nextRunTime
  rw [htype, numberOf_number uninit 0 hlit'] at hnext
  exact ⟨lit', hlit', hpos, (Except.ok.inj hnext).symm⟩

/-- That of a recurring job is one interval from now. -/
theorem BuiltFrom.recurring (h : BuiltFrom uninit now members lit job)
    (htype : (lexicalCast uninit lit.text).toInt32 = 1) :
    ∃ lit', member members (ascii "interval_seconds") = some (number lit') ∧
      0 < lexicalCast uninit lit'.text ∧
      job.intervalSeconds = some (lexicalCast uninit lit'.text).toInt32 ∧
      job.nextRunTime = now + (lexicalCast uninit lit'.text).toInt32.toInt64 := by
  obtain ⟨lit', hlit', hpos⟩ := h.schedule.2.1 htype
  have hinterval := h.intervalSeconds
  rw [intervalSecondsOf_number uninit hlit', Except.ok.injEq] at hinterval
  have hnext := h.nextRunTime
  rw [htype, ← hinterval] at hnext
  exact ⟨lit', hlit', hpos, hinterval.symm, (Except.ok.inj hnext).symm⟩

/-- That of a cron job is the next run of its expression. -/
theorem BuiltFrom.cron (h : BuiltFrom uninit now members lit job)
    (htype : (lexicalCast uninit lit.text).toInt32 = 2) :
    ∃ raw, member members (ascii "cron_expr") = some (string raw) ∧
      isValidCron (unescape raw) = .ok none ∧ job.cronExpr = some (unescape raw) ∧
      computeCronNextRun (unescape raw) now = .ok job.nextRunTime := by
  obtain ⟨raw, hraw, -, hvalid⟩ := h.schedule.2.2 htype
  have hcron := h.cronExpr
  rw [cronExprOf_string hraw, Except.ok.injEq] at hcron
  have hnext := h.nextRunTime
  rw [htype, ← hcron] at hnext
  exact ⟨raw, hraw, hvalid, hcron.symm, hnext⟩

end

end Object

end JobScheduler
