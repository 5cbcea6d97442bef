import JobScheduler.Lib.Interleave
import JobScheduler.Lib.Simulation

/-!
# Linearization

Threads run operations on a shared state in several steps each.  When one step of every
operation, where it *commits*, does to the state what the whole operation does, and the other
steps leave the state alone, the state is always that after the committed operations, one
after the other.  When each operation returns what it did where it committed, it returns what
it returns there.  The operations look at a part of the state only, the rest may be anything.

## Main definitions

* `Linearizes next view f call` — what a thread owes and has left, and how its steps commit.
* `Linearizes.committed` — the operations that a run commits, with their threads, in order.
* `resultsOf` — what the operations of one thread return, in such an order.

## Main results

* `Linearizes.shared_run`, `Linearizes.owed_run`, `Linearizes.left_run` — **the run, as one
  sequence of operations.**
* `resultsOf_simulates` — the same for the abstract operations that these stand for.
-/

namespace Linearize

open Interleave Simulation

variable {ι σ υ τ ε α β ρ : Type} [DecidableEq ι]

/-- Every step commits an operation of `f`, or leaves alone what the operations see of the shared
state.  What a thread owes are the results of what it has committed; what it has left are the
calls it has still to commit. -/
structure Linearizes (next : τ → ε → σ → τ × σ) (view : σ → υ) (f : υ → α → ρ × υ)
    (call : α → β) where
  commits : τ → ε → σ → Option α
  owed : τ → List ρ
  left : τ → List β
  of_some : ∀ t e s x, commits t e s = some x → view (next t e s).2 = (f (view s) x).2 ∧
    owed (next t e s).1 = owed t ++ [(f (view s) x).1] ∧ left t = call x :: left (next t e s).1
  of_none : ∀ t e s, commits t e s = none → view (next t e s).2 = view s ∧
    owed (next t e s).1 = owed t ∧ left t = left (next t e s).1

/-- What the operations of thread `i` return when all are run in order. -/
def resultsOf (f : υ → α → ρ × υ) (i : ι) : υ → List (ι × α) → List ρ
  | _, [] => []
  | s, x :: xs => (if x.1 = i then [(f s x.2).1] else []) ++ resultsOf f i (f s x.2).2 xs

/-- The calls of thread `i`, in order. -/
def callsOf (call : α → β) (i : ι) (xs : List (ι × α)) : List β :=
  (xs.filter fun x => x.1 = i).map fun x => call x.2

/-- Each call of the thread has a result. -/
theorem length_resultsOf (f : υ → α → ρ × υ) (call : α → β) (i : ι) (xs : List (ι × α)) :
    ∀ s : υ, (resultsOf f i s xs).length = (callsOf call i xs).length := by
  induction xs with
  | nil => exact fun s => rfl
  | cons x xs ih =>
    intro s
    rw [resultsOf, List.length_append, ih, callsOf, callsOf, List.length_map, List.length_map,
      List.filter_cons]
    by_cases hi : x.1 = i
    · rw [if_pos hi, decide_eq_true hi, if_pos rfl, List.length_cons]
      exact Nat.add_comm _ _
    · rw [if_neg hi, decide_eq_false hi, if_neg Bool.false_ne_true]
      exact Nat.zero_add _

namespace Linearizes

variable {next : τ → ε → σ → τ × σ} {view : σ → υ} {f : υ → α → ρ × υ} {call : α → β}
  (L : Linearizes next view f call)

/-- The operations that a run commits, in order. -/
def committed : Config ι σ τ → List (ι × ε) → List (ι × α)
  | _, [] => []
  | c, m :: moves =>
    ((L.commits (c.threads m.1) m.2 c.shared).map fun x => (m.1, x)).toList ++
      committed (c.step next m) moves

/-- What is committed later comes later. -/
theorem committed_append (moves later : List (ι × ε)) : ∀ c : Config ι σ τ,
    L.committed c (moves ++ later) =
      L.committed c moves ++ L.committed (c.run next moves) later := by
  induction moves with
  | nil => exact fun c => rfl
  | cons m moves ih =>
    intro c
    rw [List.cons_append, committed, ih, committed, List.append_assoc]
    rfl

/-- **What is seen of the shared state** is that after the committed operations. -/
theorem shared_run (moves : List (ι × ε)) : ∀ c : Config ι σ τ,
    view (c.run next moves).shared =
      (Merge.runAll f (view c.shared) ((L.committed c moves).map Prod.snd)).2 := by
  induction moves with
  | nil => exact fun c => rfl
  | cons m moves ih =>
    intro c
    rw [run_cons, ih, committed, shared_step]
    cases hcommit : L.commits (c.threads m.1) m.2 c.shared with
    | none =>
      rw [(L.of_none _ _ _ hcommit).1]
      rfl
    | some x =>
      rw [(L.of_some _ _ _ _ hcommit).1]
      rfl

/-- **What a thread owes** is what its operations return there. -/
theorem owed_run (i : ι) (moves : List (ι × ε)) : ∀ c : Config ι σ τ,
    L.owed ((c.run next moves).threads i) =
      L.owed (c.threads i) ++ resultsOf f i (view c.shared) (L.committed c moves) := by
  induction moves with
  | nil => exact fun c => (List.append_nil _).symm
  | cons m moves ih =>
    intro c
    rw [run_cons, ih, committed, shared_step]
    cases hcommit : L.commits (c.threads m.1) m.2 c.shared with
    | none =>
      obtain ⟨hshared, howed, -⟩ := L.of_none _ _ _ hcommit
      rw [hshared, Option.map_none, Option.toList_none, List.nil_append]
      by_cases hi : i = m.1
      · subst hi
        rw [threads_step_self, howed]
      · rw [threads_step_of_ne next c m hi]
    | some x =>
      obtain ⟨hshared, howed, -⟩ := L.of_some _ _ _ _ hcommit
      rw [hshared, Option.map_some, Option.toList_some, List.singleton_append, resultsOf]
      by_cases hi : i = m.1
      · subst hi
        rw [threads_step_self, howed, if_pos rfl, List.append_assoc]
      · rw [threads_step_of_ne next c m hi, if_neg (Ne.symm hi), List.nil_append]

/-- **A thread commits its calls in its own order.** -/
theorem left_run (i : ι) (moves : List (ι × ε)) : ∀ c : Config ι σ τ,
    L.left (c.threads i) =
      callsOf call i (L.committed c moves) ++ L.left ((c.run next moves).threads i) := by
  induction moves with
  | nil => exact fun c => rfl
  | cons m moves ih =>
    intro c
    rw [run_cons, committed, callsOf, List.filter_append, List.map_append, List.append_assoc]
    have hrest := ih (c.step next m)
    rw [callsOf] at hrest
    rw [← hrest]
    cases hcommit : L.commits (c.threads m.1) m.2 c.shared with
    | none =>
      rw [Option.map_none, Option.toList_none, List.filter_nil, List.map_nil, List.nil_append]
      by_cases hi : i = m.1
      · subst hi
        rw [threads_step_self]
        exact (L.of_none _ _ _ hcommit).2.2
      · rw [threads_step_of_ne next c m hi]
    | some x =>
      rw [Option.map_some, Option.toList_some, List.filter_singleton]
      by_cases hi : i = m.1
      · subst hi
        rw [threads_step_self, decide_eq_true rfl]
        exact (L.of_some _ _ _ _ hcommit).2.2
      · rw [threads_step_of_ne next c m hi, decide_eq_false (Ne.symm hi)]
        rfl

end Linearizes

/-- **Abstract operations return the same to each thread.** -/
theorem resultsOf_simulates {ω : Type} {R : ω → υ → Prop} {ok : ω → α → Prop}
    {f : υ → α → ρ × υ} {g : ω → α → ρ × ω} (h : Simulates R ok f g) (i : ι)
    (xs : List (ι × α)) : ∀ {t : ω} {s : υ}, R t s → Allowed ok g t (xs.map Prod.snd) →
      resultsOf f i s xs = resultsOf g i t xs := by
  induction xs with
  | nil => exact fun _ _ => rfl
  | cons x xs ih =>
    intro t s hR hok
    rw [List.map_cons] at hok
    rw [resultsOf, resultsOf, h.result hR hok.1, ih (h.next hR hok.1) hok.2]

end Linearize
