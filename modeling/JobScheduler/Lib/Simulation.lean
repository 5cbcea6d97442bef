import JobScheduler.Lib.Merge
import JobScheduler.Lib.Runs

/-!
# Two levels of one design

Operations run on a state, and on an abstract state that it stands for.  When each
operation returns the same on both sides and keeps the relation between them, so does
every sequence.  The same for two state machines, where the abstract one can follow each
step.  Either may rest on a supply that some of the operations use up.

## Main definitions

* `Simulates R ok f g` — the operations `f` do on their states what `g` do on abstract
  ones, as long as they are allowed.
* `Allowed` — every operation of a sequence is allowed where it is run.
* `Spends` — the operations that `p` marks use up one each of what there is.

## Main results

* `Simulates.runAll` — **a sequence returns the same on both sides.**
* `run_refines` — **the abstract machine follows every run.**
-/

namespace Simulation

open Merge

variable {α σ τ ρ : Type}

/-- Each operation that is allowed returns the same on both sides, and keeps the
relation. -/
structure Simulates (R : τ → σ → Prop) (ok : τ → α → Prop) (f : σ → α → ρ × σ)
    (g : τ → α → ρ × τ) : Prop where
  result : ∀ {t s x}, R t s → ok t x → (f s x).1 = (g t x).1
  next : ∀ {t s x}, R t s → ok t x → R (g t x).2 (f s x).2

/-- Every operation of the sequence is allowed where it is run. -/
def Allowed (ok : τ → α → Prop) (g : τ → α → ρ × τ) : τ → List α → Prop
  | _, [] => True
  | t, x :: xs => ok t x ∧ Allowed ok g (g t x).2 xs

/-- **A sequence of operations returns the same on both sides**, and keeps the relation. -/
theorem Simulates.runAll {R : τ → σ → Prop} {ok : τ → α → Prop} {f : σ → α → ρ × σ}
    {g : τ → α → ρ × τ} (h : Simulates R ok f g) (xs : List α) : ∀ {t : τ} {s : σ}, R t s →
    Allowed ok g t xs →
      (Merge.runAll f s xs).1 = (Merge.runAll g t xs).1 ∧
        R (Merge.runAll g t xs).2 (Merge.runAll f s xs).2 := by
  induction xs with
  | nil => exact fun hR _ => ⟨rfl, hR⟩
  | cons x xs ih =>
    intro t s hR hok
    obtain ⟨hresults, hlast⟩ := ih (h.next hR hok.1) hok.2
    refine ⟨?_, hlast⟩
    rw [Merge.runAll, Merge.runAll, h.result hR hok.1, hresults]

/-! ### A supply that is used up -/

/-- An operation uses up one of a supply where `p` marks it, and none elsewhere. -/
def Spends (used : τ → ℕ) (p : α → Bool) (next : τ → α → τ → Prop) : Prop :=
  ∀ t x t', next t x t' → used t' ≤ used t + if p x then 1 else 0

/-- As long as the supply lasts, everything is allowed. -/
theorem allowed_of_countP {ok : τ → α → Prop} {g : τ → α → ρ × τ} {used : τ → ℕ}
    {p : α → Bool} {N : ℕ} (hspends : Spends used p fun t x t' => (g t x).2 = t')
    (hok : ∀ t x, (used t + if p x then 1 else 0) < N → ok t x) (xs : List α) :
    ∀ t, used t + xs.countP p < N → Allowed ok g t xs := by
  induction xs with
  | nil => exact fun _ _ => trivial
  | cons x xs ih =>
    intro t hlt
    rw [List.countP_cons] at hlt
    have hused := hspends t x _ rfl
    exact ⟨hok t x (by omega), ih _ (by omega)⟩

/-- **The abstract machine follows every run**, as long as the supply lasts. -/
theorem run_refines {step : σ → α → Option σ} {spec : τ → α → Option τ} {R : τ → σ → Prop}
    {used : τ → ℕ} {p : α → Bool} {N : ℕ}
    (hspends : Spends used p fun t x t' => spec t x = some t')
    (hstep : ∀ t s x s', R t s → (used t + if p x then 1 else 0) < N → step s x = some s' →
      ∃ t', spec t x = some t' ∧ R t' s') (xs : List α) :
    ∀ t s s', R t s → used t + xs.countP p < N → Runs.run step s xs = some s' →
      ∃ t', Runs.run spec t xs = some t' ∧ R t' s' := by
  induction xs with
  | nil =>
    intro t s s' hR _ hrun
    rw [Runs.run_nil, Option.some.injEq] at hrun
    exact ⟨t, rfl, hrun ▸ hR⟩
  | cons x xs ih =>
    intro t s s' hR hlt hrun
    rw [List.countP_cons] at hlt
    obtain ⟨u, hu, hrest⟩ := Runs.run_cons_eq_some.mp hrun
    obtain ⟨t', ht', hR'⟩ := hstep t s x u hR (by omega) hu
    have hused := hspends t x t' ht'
    obtain ⟨t'', ht'', hR''⟩ := ih t' u s' hR' (by omega) hrest
    exact ⟨t'', Runs.run_cons_eq_some.mpr ⟨t', ht', ht''⟩, hR''⟩

end Simulation
