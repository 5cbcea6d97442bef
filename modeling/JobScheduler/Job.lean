import JobScheduler.Lib.CText

/-!
# Jobs

The record of `Src/Model/Job.h` and the codings of its two enumerations in
`Src/Model/Job.cpp`.  `int` is `Int32`, `long long` is `Int64` and a
`std::string` is a list of bytes.  The printing functions are left out: nothing
the server stores or answers depends on them.

## Main definitions

* `JobType`, `Status` — the enumerations, with their enumerator values.
* `intToType`, `intToStatus` — the decodings, which map unknown codes to the
  first enumerator.
* `Job` — the record.
-/

namespace JobScheduler

open CText

/-- `enum Job_Type { ONE_TIME, RECURRING, CRON }`. -/
inductive JobType
  | oneTime
  | recurring
  | cron
  deriving DecidableEq, Repr, Inhabited

/-- `enum Status { ACTIVE, PAUSED, RUNNING, COMPLETED, FAILED, CANCELED }`. -/
inductive Status
  | active
  | paused
  | running
  | completed
  | failed
  | canceled
  deriving DecidableEq, Repr, Inhabited

/-- The enumerator's value, as an implicit conversion to `int` gives it. -/
def JobType.toInt : JobType → Int32
  | .oneTime => 0
  | .recurring => 1
  | .cron => 2

/-- The enumerator's value, as an implicit conversion to `int` gives it. -/
def Status.toInt : Status → Int32
  | .active => 0
  | .paused => 1
  | .running => 2
  | .completed => 3
  | .failed => 4
  | .canceled => 5

/-- `int_to_type`. -/
def intToType (number : Int32) : JobType :=
  if number = 0 then .oneTime
  else if number = 1 then .recurring
  else if number = 2 then .cron
  else .oneTime

/-- `int_to_status`. -/
def intToStatus (number : Int32) : Status :=
  if number = 0 then .active
  else if number = 1 then .paused
  else if number = 2 then .running
  else if number = 3 then .completed
  else if number = 4 then .failed
  else if number = 5 then .canceled
  else .active

@[simp] theorem intToType_toInt (t : JobType) : intToType t.toInt = t := by
  cases t <;> rfl

@[simp] theorem intToStatus_toInt (s : Status) : intToStatus s.toInt = s := by
  cases s <;> rfl

/-- A type other than ONE_TIME comes from its own number. -/
theorem eq_toInt_of_intToType {n : Int32} {t : JobType} (hne : t ≠ .oneTime)
    (h : intToType n = t) : n = t.toInt := by
  subst h
  unfold intToType at hne ⊢
  split
  · next h0 => exact h0
  · split
    · next h1 => exact h1
    · split
      · next h2 => exact h2
      · simp_all

theorem Status.toInt_inj {s t : Status} : s.toInt = t.toInt ↔ s = t := by
  refine ⟨fun h => ?_, congrArg toInt⟩
  rw [← intToStatus_toInt s, h, intToStatus_toInt]

theorem Status.toInt_eq_zero_iff {s : Status} : s.toInt = 0 ↔ s = .active := by
  cases s <;> decide

/-- `struct Job`. -/
structure Job where
  id : Int32
  name : Bytes
  type : JobType
  status : Status
  nextRunTime : Int64
  intervalSeconds : Option Int32
  cronExpr : Option Bytes
  payload : Bytes
  retryCount : Int32 := 0
  maxRetries : Int32 := 3
  deriving DecidableEq, Repr, Inhabited

end JobScheduler
