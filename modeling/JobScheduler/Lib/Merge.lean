import Mathlib.Data.List.Basic

/-!
# Merges of two sequences of operations

Two clients run their operations on one state, each in its own order.  Of the state only an
observation matters.  Where no operation of the one changes what an operation of the other
returns, and the two can be exchanged as far as can be observed, it does not matter how the
sequences are merged.

## Main definitions

* `IsMerge xs ys zs` — `zs` is an order-preserving merge of `xs` and `ys`.
* `runAll`, `runMerged` — the results and the last state of a sequence, and of a merge.
* `Observed` — an operation depends on the observation of the state alone.
* `Independent` — the operations of the two sequences do not disturb one another.

## Main results

* `Independent.runMerged_eq` — **a merge of independent sequences** gives each the results
  that it has alone, and is observed to end where the one after the other ends.
-/

namespace Merge

variable {α β σ ρ ρ' ω : Type*}

/-- The third list has the elements of the other two, marked with where they come from and in
the order in which they stand there. -/
inductive IsMerge : List α → List β → List (α ⊕ β) → Prop
  | nil : IsMerge [] [] []
  | left {xs : List α} {ys : List β} {zs : List (α ⊕ β)} (x : α) (h : IsMerge xs ys zs) :
    IsMerge (x :: xs) ys (.inl x :: zs)
  | right {xs : List α} {ys : List β} {zs : List (α ⊕ β)} (y : β) (h : IsMerge xs ys zs) :
    IsMerge xs (y :: ys) (.inr y :: zs)

/-- The results of the operations, one after the other, and the state they end in. -/
def runAll (f : σ → α → ρ × σ) : σ → List α → List ρ × σ
  | s, [] => ([], s)
  | s, x :: xs => ((f s x).1 :: (runAll f (f s x).2 xs).1, (runAll f (f s x).2 xs).2)

/-- The results of the operations of the one side, of those of the other, and the state they
end in. -/
def runMerged (f : σ → α → ρ × σ) (g : σ → β → ρ' × σ) :
    σ → List (α ⊕ β) → List ρ × List ρ' × σ
  | s, [] => ([], [], s)
  | s, .inl x :: zs =>
    ((f s x).1 :: (runMerged f g (f s x).2 zs).1, (runMerged f g (f s x).2 zs).2)
  | s, .inr y :: zs =>
    ((runMerged f g (g s y).2 zs).1, (g s y).1 :: (runMerged f g (g s y).2 zs).2.1,
      (runMerged f g (g s y).2 zs).2.2)

/-- What an operation returns, and what is observed after it, depends on what was observed
before it. -/
def Observed (obs : σ → ω) (f : σ → α → ρ × σ) : Prop :=
  ∀ s s' x, obs s = obs s' → (f s x).1 = (f s' x).1 ∧ obs (f s x).2 = obs (f s' x).2

/-- Operations of the two sides do not disturb one another. -/
structure Independent (obs : σ → ω) (f : σ → α → ρ × σ) (g : σ → β → ρ' × σ) : Prop where
  left : ∀ s x y, (f (g s y).2 x).1 = (f s x).1
  right : ∀ s x y, (g (f s x).2 y).1 = (g s y).1
  comm : ∀ s x y, obs (f (g s y).2 x).2 = obs (g (f s x).2 y).2

variable {obs : σ → ω} {f : σ → α → ρ × σ} {g : σ → β → ρ' × σ}

theorem Independent.symm (h : Independent obs f g) : Independent obs g f where
  left s y x := h.right s x y
  right s y x := h.left s x y
  comm s y x := (h.comm s x y).symm

/-- A sequence depends on the observation alone, as its operations do. -/
theorem Observed.runAll (hf : Observed obs f) (xs : List α) : ∀ {s s' : σ}, obs s = obs s' →
    (runAll f s xs).1 = (runAll f s' xs).1 ∧ obs (runAll f s xs).2 = obs (runAll f s' xs).2 := by
  induction xs with
  | nil => exact fun h => ⟨rfl, h⟩
  | cons x xs ih =>
    intro s s' h
    obtain ⟨hresult, hnext⟩ := hf s s' x h
    obtain ⟨hresults, hlast⟩ := ih hnext
    refine ⟨?_, hlast⟩
    rw [Merge.runAll, Merge.runAll, hresult, hresults]

/-- **One operation moves past a sequence** of the other side. -/
theorem Independent.runAll_past (h : Independent obs f g) (hg : Observed obs g) (x : α)
    (ys : List β) : ∀ s : σ, (runAll g (f s x).2 ys).1 = (runAll g s ys).1 ∧
      obs (runAll g (f s x).2 ys).2 = obs (f (runAll g s ys).2 x).2 := by
  induction ys with
  | nil => exact fun s => ⟨rfl, rfl⟩
  | cons y ys ih =>
    intro s
    -- first past the head, then past the rest
    obtain ⟨hswap, hswapLast⟩ := hg.runAll ys (h.comm s x y).symm
    obtain ⟨hresults, hlast⟩ := ih (g s y).2
    constructor
    · rw [runAll, runAll, h.right, hswap, hresults]
    · exact hswapLast.trans hlast

/-- **A merge of independent sequences** gives each the results that it has alone, and is
observed to end where the one after the other ends. -/
theorem Independent.runMerged_eq (h : Independent obs f g) (hf : Observed obs f)
    (hg : Observed obs g) {xs : List α} {ys : List β} {zs : List (α ⊕ β)} (hm : IsMerge xs ys zs) :
    ∀ s : σ, (runMerged f g s zs).1 = (runAll f s xs).1 ∧
      (runMerged f g s zs).2.1 = (runAll g s ys).1 ∧
      obs (runMerged f g s zs).2.2 = obs (runAll g (runAll f s xs).2 ys).2 := by
  induction hm with
  | nil => exact fun s => ⟨rfl, rfl, rfl⟩
  | @left xs ys zs x hm ih =>
    intro s
    obtain ⟨hleft, hright, hlast⟩ := ih (f s x).2
    refine ⟨?_, ?_, hlast⟩
    · rw [runMerged, runAll, hleft]
    · rw [runMerged, hright]
      exact (h.runAll_past hg x ys s).1
  | @right xs ys zs y hm ih =>
    intro s
    obtain ⟨hleft, hright, hlast⟩ := ih (g s y).2
    obtain ⟨hpast, hpastLast⟩ := h.symm.runAll_past hf y xs s
    refine ⟨?_, ?_, ?_⟩
    · rw [runMerged, hleft, hpast]
    · rw [runMerged, runAll, hright]
    · rw [runMerged, hlast]
      exact (hg.runAll ys hpastLast).2

end Merge
