import Mathlib.Algebra.Order.Group.Nat
import Mathlib.Tactic.Ring

/-!
# Counters that wrap

`for (i = start; i <= stop; i += step)` with a counter modulo `M`: the values that the loop
passes through.  A step that fits above `stop` counts up.  One that does not wraps at once,
and so counts down, by what the step lacks to `M`.

## Main definitions

* `Visits M step stop i j` — the loop that is at `i` passes through `j`.

## Main results

* `visits_of_fits`, `visits_of_wraps` — **the values are those of a progression**, upwards or
  downwards.
-/

namespace Stride

/-- The loop at `i` runs on to `j`, all the way within `stop`. -/
inductive Visits (M step stop : ℕ) : ℕ → ℕ → Prop
  | here {i : ℕ} (h : i ≤ stop) : Visits M step stop i i
  | next {i j : ℕ} (h : i ≤ stop) (hrest : Visits M step stop ((i + step) % M) j) :
      Visits M step stop i j

variable {M step stop i j : ℕ}

theorem Visits.start_le (h : Visits M step stop i j) : i ≤ stop := by
  cases h <;> assumption

/-- One round of the loop. -/
theorem visits_iff (h : i ≤ stop) :
    Visits M step stop i j ↔ j = i ∨ Visits M step stop ((i + step) % M) j := by
  constructor
  · intro hvisits
    cases hvisits with
    | here => exact Or.inl rfl
    | next _ hrest => exact Or.inr hrest
  · rintro (rfl | hrest)
    · exact Visits.here h
    · exact Visits.next h hrest

/-! ### Upwards -/

theorem Visits.of_add (hfits : stop + step < M) (k : ℕ) :
    ∀ i, i + k * step ≤ stop → Visits M step stop i (i + k * step) := by
  induction k with
  | zero =>
    intro i h
    rw [Nat.zero_mul, Nat.add_zero] at h ⊢
    exact Visits.here h
  | succ k ih =>
    intro i h
    have hadd : i + (k + 1) * step = i + step + k * step := by ring
    rw [hadd] at h ⊢
    refine Visits.next (by omega) ?_
    rw [Nat.mod_eq_of_lt (by omega)]
    exact ih (i + step) h

/-- **A step that fits counts up.** -/
theorem visits_of_fits (hfits : stop + step < M) :
    Visits M step stop i j ↔ i ≤ j ∧ j ≤ stop ∧ step ∣ j - i := by
  constructor
  · intro h
    induction h with
    | here h => exact ⟨Nat.le_refl _, h, by simp⟩
    | @next i j h _ ih =>
      rw [Nat.mod_eq_of_lt (by omega)] at ih
      obtain ⟨hle, hstop, hdvd⟩ := ih
      have hsub : j - i = j - (i + step) + step := by omega
      exact ⟨by omega, hstop, hsub ▸ (Nat.dvd_add_self_right).mpr hdvd⟩
  · rintro ⟨hle, hstop, k, hk⟩
    have hj : j = i + k * step := by
      rw [Nat.mul_comm k]
      omega
    rw [hj]
    exact Visits.of_add hfits k i (by omega)

/-! ### Downwards -/

/-- A counter that wraps has come down by what the step lacks to `M`. -/
theorem wrap_eq (hstep : step < M) (hi : i < M) (hwraps : M ≤ i + step) :
    (i + step) % M = i - (M - step) := by
  rw [Nat.mod_eq_sub_mod hwraps, Nat.mod_eq_of_lt (by omega)]
  omega

theorem Visits.of_sub (hstep : step < M) (hlt : stop < M) (k : ℕ) :
    ∀ i, i ≤ stop → k * (M - step) ≤ i → Visits M step stop i (i - k * (M - step)) := by
  induction k with
  | zero =>
    intro i h _
    rw [Nat.zero_mul]
    exact Visits.here h
  | succ k ih =>
    intro i h hle
    rw [Nat.succ_mul] at hle ⊢
    refine Visits.next h ?_
    rw [wrap_eq hstep (by omega) (by omega), Nat.add_comm, ← Nat.sub_sub]
    exact ih (i - (M - step)) (by omega) (by omega)

/-- **A step that does not fit counts down**: a round that does not wrap lands above
`stop`. -/
theorem visits_of_wraps (hstep : step < M) (hwraps : M ≤ stop + step) (hhalf : 2 * stop < M)
    (hi : i ≤ stop) : Visits M step stop i j ↔ j ≤ i ∧ (M - step) ∣ i - j := by
  constructor
  · intro h
    induction h with
    | here h => exact ⟨Nat.le_refl _, by simp⟩
    | @next i j h hrest ih =>
      have hstart := hrest.start_le
      have hwrap : M ≤ i + step := by
        by_contra hlt
        rw [Nat.mod_eq_of_lt (by omega)] at hstart
        omega
      rw [wrap_eq hstep (by omega) hwrap] at ih hstart
      obtain ⟨hle, hdvd⟩ := ih hstart
      have hsub : i - j = i - (M - step) - j + (M - step) := by omega
      exact ⟨by omega, hsub ▸ (Nat.dvd_add_self_right).mpr hdvd⟩
  · rintro ⟨hle, k, hk⟩
    have hj : j = i - k * (M - step) := by
      rw [Nat.mul_comm k]
      omega
    rw [hj]
    exact Visits.of_sub hstep (by omega) k i hi (by rw [Nat.mul_comm k]; omega)

end Stride
