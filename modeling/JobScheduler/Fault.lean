import JobScheduler.Lib.CText

/-!
# Ways a C++ call can fail to return

A function that may throw is a computation in `Except Fault`.  `catch` clauses
match on the fault; what no clause matches passes on.

## Main definitions

* `Fault` — the exceptions the code and its libraries raise, and the two outcomes
  that no `catch` clause sees: undefined behaviour and a loop that has not ended.

## Main results

* `bind_eq_ok` — a sequence of calls returns when each of them does.
-/

namespace JobScheduler

open CText

/-- How a call ends when it does not return. -/
inductive Fault
  /-- `std::runtime_error`, with its `what()`. -/
  | runtimeError (what : Bytes)
  /-- `cron::bad_cronexpr`, with its `what()`. -/
  | badCronexpr (what : Bytes)
  /-- `std::bad_optional_access`, from `std::optional::value`. -/
  | badOptionalAccess
  /-- `std::out_of_range`, from `std::bitset::set` and `std::bitset::test`. -/
  | outOfRange
  /-- The C++ standard puts no requirement on the program here. -/
  | undefinedBehaviour
  /-- A loop has not ended within the steps the model allows it. -/
  | outOfFuel
  deriving DecidableEq, Repr

variable {ε α β : Type}

/-- A sequence of two calls returns exactly when both do. -/
theorem bind_eq_ok {x : Except ε α} {f : α → Except ε β} {b : β} :
    x >>= f = .ok b ↔ ∃ a, x = .ok a ∧ f a = .ok b := by
  cases x with
  | error e => simp [bind, Except.bind]
  | ok a => simp [bind, Except.bind]

@[simp] theorem ok_bind (a : α) (f : α → Except ε β) : (Except.ok a >>= f) = f a := rfl

@[simp] theorem error_bind (e : ε) (f : α → Except ε β) :
    (Except.error e >>= f) = .error e := rfl

end JobScheduler
