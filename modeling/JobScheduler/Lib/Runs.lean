import Mathlib.Data.List.Basic

/-!
# Runs of a state machine

A machine takes events one at a time; an event that is not enabled has no next state.
A run is a list of events, each enabled where it is taken.

## Main definitions

* `run step s es` — the state after the events `es`, from `s`.
* `Along step G s es` — every event of the run meets the condition `G` in the state
  where it is taken.
* `Throughout step I s es` — every state that the run goes through meets `I`.

## Main results

* `run_append` — a run can be cut anywhere.
* `invariant` — **induction over runs**: what every event that meets `G` keeps, a run of
  such events keeps.
* `throughout_iff_along` — **an exact condition**: where exactly the events that meet `G`
  keep `I`, a run keeps it throughout exactly when it consists of such events.
-/

namespace Runs

variable {σ ε : Type*}

/-- The state after a list of events; `none` when one of them is not enabled. -/
def run (step : σ → ε → Option σ) : σ → List ε → Option σ
  | s, [] => some s
  | s, e :: es => (step s e).bind fun s' => run step s' es

/-- Every event of the run meets `G` in the state where it is taken. -/
def Along (step : σ → ε → Option σ) (G : σ → ε → Prop) : σ → List ε → Prop
  | _, [] => True
  | s, e :: es => G s e ∧ match step s e with
    | none => True
    | some s' => Along step G s' es

instance decidableAlong (step : σ → ε → Option σ) (G : σ → ε → Prop) [∀ s e, Decidable (G s e)] :
    ∀ (s : σ) (es : List ε), Decidable (Along step G s es)
  | _, [] => isTrue trivial
  | s, e :: es =>
    match h : step s e with
    | none => decidable_of_iff (G s e) (by simp [Along, h])
    | some s' =>
      have := decidableAlong step G s' es
      decidable_of_iff (G s e ∧ Along step G s' es) (by simp [Along, h])

variable {step : σ → ε → Option σ}

@[simp] theorem run_nil (s : σ) : run step s [] = some s := rfl

theorem run_cons_eq_some {s s' : σ} {e : ε} {es : List ε} :
    run step s (e :: es) = some s' ↔ ∃ t, step s e = some t ∧ run step t es = some s' := by
  rw [run, Option.bind_eq_some_iff]

/-- A run can be cut anywhere. -/
theorem run_append {s s' : σ} : ∀ {es es' : List ε},
    run step s (es ++ es') = some s' ↔ ∃ t, run step s es = some t ∧ run step t es' = some s' := by
  intro es
  induction es generalizing s with
  | nil => intro es'; simp
  | cons e es ih =>
    intro es'
    rw [List.cons_append, run_cons_eq_some]
    constructor
    · rintro ⟨t, ht, hrun⟩
      obtain ⟨u, hu, hrest⟩ := ih.mp hrun
      exact ⟨u, run_cons_eq_some.mpr ⟨t, ht, hu⟩, hrest⟩
    · rintro ⟨u, hu, hrest⟩
      obtain ⟨t, ht, hrun⟩ := run_cons_eq_some.mp hu
      exact ⟨t, ht, ih.mpr ⟨u, hrun, hrest⟩⟩

/-- One more event. -/
theorem run_concat {s s' : σ} {es : List ε} {e : ε} :
    run step s (es ++ [e]) = some s' ↔ ∃ t, run step s es = some t ∧ step t e = some s' := by
  have hone : ∀ t, run step t [e] = step t e := by
    intro t
    rw [run]
    cases step t e <;> rfl
  rw [run_append]
  simp only [hone]

/-- **Induction over runs.** -/
theorem invariant {G : σ → ε → Prop} {I : σ → Prop}
    (hstep : ∀ s e s', I s → G s e → step s e = some s' → I s') :
    ∀ {es : List ε} {s s' : σ}, I s → Along step G s es → run step s es = some s' → I s' := by
  intro es
  induction es with
  | nil =>
    intro s s' hI _ hrun
    rw [run_nil, Option.some.injEq] at hrun
    exact hrun ▸ hI
  | cons e es ih =>
    intro s s' hI hG hrun
    obtain ⟨t, ht, hrun⟩ := run_cons_eq_some.mp hrun
    rw [Along, ht] at hG
    exact ih (hstep s e t hI hG.1 ht) hG.2 hrun

/-! ### Every state of a run -/

/-- Every state that the run goes through meets `I`. -/
def Throughout (step : σ → ε → Option σ) (I : σ → Prop) (s : σ) (es : List ε) : Prop :=
  ∀ before after s', es = before ++ after → run step s before = some s' → I s'

theorem throughout_nil {I : σ → Prop} {s : σ} : Throughout step I s [] ↔ I s := by
  constructor
  · intro h
    exact h [] [] s rfl rfl
  · intro hI before after s' heq hrun
    obtain ⟨rfl, -⟩ := List.append_eq_nil_iff.mp heq.symm
    rw [run_nil, Option.some.injEq] at hrun
    exact hrun ▸ hI

theorem throughout_cons {I : σ → Prop} {s : σ} {e : ε} {es : List ε} :
    Throughout step I s (e :: es) ↔ I s ∧ ∀ t, step s e = some t → Throughout step I t es := by
  constructor
  · intro h
    refine ⟨h [] (e :: es) s rfl rfl, ?_⟩
    rintro t ht before after s' rfl hrun
    exact h (e :: before) after s' rfl (run_cons_eq_some.mpr ⟨t, ht, hrun⟩)
  · rintro ⟨hI, hrest⟩ before after s' heq hrun
    cases before with
    | nil =>
      rw [run_nil, Option.some.injEq] at hrun
      exact hrun ▸ hI
    | cons e' before =>
      rw [List.cons_append, List.cons.injEq] at heq
      obtain ⟨rfl, rfl⟩ := heq
      obtain ⟨t, ht, hrun⟩ := run_cons_eq_some.mp hrun
      exact hrest t ht before after s' rfl hrun

/-- **An exact condition.**  Where an event keeps `I` exactly when it meets `G`, a run
keeps `I` throughout exactly when all its events meet `G`. -/
theorem throughout_iff_along {G : σ → ε → Prop} {I : σ → Prop}
    (hstep : ∀ s e s', I s → step s e = some s' → (I s' ↔ G s e))
    (hdisabled : ∀ s e, step s e = none → G s e) :
    ∀ {es : List ε} {s : σ}, I s → (Throughout step I s es ↔ Along step G s es) := by
  intro es
  induction es with
  | nil => exact fun hI => ⟨fun _ => trivial, fun _ => throughout_nil.mpr hI⟩
  | cons e es ih =>
    intro s hI
    rw [throughout_cons, Along]
    cases hs : step s e with
    | none => simp [hI, hdisabled s e hs]
    | some t =>
      have hiff := hstep s e t hI hs
      constructor
      · rintro ⟨-, hrest⟩
        -- the rest of the run begins in `t`, which meets `I`, so `e` meets `G`
        have ht : I t := hrest t rfl [] es t rfl rfl
        exact ⟨hiff.mp ht, (ih ht).mp (hrest t rfl)⟩
      · rintro ⟨hG, hrest⟩
        refine ⟨hI, ?_⟩
        intro u hu
        rw [Option.some.injEq] at hu
        exact hu ▸ (ih (hiff.mpr hG)).mpr hrest

/-- A condition on the events alone holds along every run of such events. -/
theorem along_of_forall {G : σ → ε → Prop} : ∀ {es : List ε} (s : σ), (∀ e ∈ es, ∀ s, G s e) →
    Along step G s es := by
  intro es
  induction es with
  | nil => intro s _; trivial
  | cons e es ih =>
    intro s h
    refine ⟨h e List.mem_cons_self s, ?_⟩
    split
    · trivial
    · exact ih _ fun e' he' => h e' (List.mem_cons_of_mem e he')

/-- Where every event is enabled, it holds along no others. -/
theorem along_iff_forall {G : ε → Prop} (htotal : ∀ s e, step s e ≠ none) :
    ∀ {es : List ε} {s : σ}, Along step (fun _ => G) s es ↔ ∀ e ∈ es, G e := by
  intro es
  induction es with
  | nil => intro s; simp [Along]
  | cons e es ih =>
    intro s
    obtain ⟨t, ht⟩ := Option.ne_none_iff_exists'.mp (htotal s e)
    simp only [Along, ht, List.forall_mem_cons, ih]

end Runs
