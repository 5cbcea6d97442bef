import Mathlib.Algebra.Order.Field.Power
import Mathlib.Algebra.Order.Ring.Rat
import Mathlib.Tactic.Linarith
import Mathlib.Tactic.NormNum
import Mathlib.Tactic.Positivity

/-!
# Decimal numerals

A numeral in scientific notation: a sign, the digits before the point, those after it,
and an exponent of ten.

## Main definitions

* `Decimal` — a numeral, by its parts.
* `Decimal.value` — the number that it denotes.
* `Decimal.integerPart` — what is left of it when it is cut at the point.

## Main results

* `Decimal.value_eq_integerPart_iff` — **cutting at the point keeps the value** exactly
  of numerals with nothing but zeros after the point, and no exponent unless they are 0.
-/

/-- A decimal numeral. -/
structure Decimal where
  neg : Bool
  /-- The digits before the point. -/
  int : ℕ
  /-- The digits after the point. -/
  frac : ℕ
  /-- How many these are. -/
  places : ℕ
  exp : ℤ
  frac_lt : frac < 10 ^ places

namespace Decimal

/-- The number without its sign. -/
def magnitude (d : Decimal) : ℚ := (d.int + d.frac / 10 ^ d.places) * 10 ^ d.exp

/-- The number that the numeral denotes. -/
def value (d : Decimal) : ℚ := if d.neg then -d.magnitude else d.magnitude

/-- The numeral cut at the point, with the exponent left out. -/
def integerPart (d : Decimal) : ℤ := if d.neg then -d.int else d.int

/-- Nothing but zeros after the point, and no exponent unless the numeral is 0. -/
def IsPlain (d : Decimal) : Prop := d.frac = 0 ∧ (d.exp = 0 ∨ d.int = 0)

instance (d : Decimal) : Decidable d.IsPlain := inferInstanceAs (Decidable (_ ∧ _))

theorem fraction_bounds (d : Decimal) :
    0 ≤ (d.frac / 10 ^ d.places : ℚ) ∧ (d.frac / 10 ^ d.places : ℚ) < 1 := by
  have hpow : (0 : ℚ) < 10 ^ d.places := by positivity
  have hlt : (d.frac : ℚ) < 10 ^ d.places := by exact_mod_cast d.frac_lt
  exact ⟨by positivity, (div_lt_one hpow).mpr hlt⟩

theorem fraction_eq_zero_iff (d : Decimal) : (d.frac / 10 ^ d.places : ℚ) = 0 ↔ d.frac = 0 := by
  have hpow : (10 : ℚ) ^ d.places ≠ 0 := by positivity
  rw [div_eq_zero_iff, Nat.cast_eq_zero]
  simp [hpow]

/-- Cutting at the point keeps the magnitude of the plain numerals only. -/
theorem magnitude_eq_int_iff (d : Decimal) : d.magnitude = d.int ↔ d.IsPlain := by
  obtain ⟨hf0, hf1⟩ := d.fraction_bounds
  have hzero := d.fraction_eq_zero_iff
  rw [magnitude, IsPlain, ← hzero]
  generalize (d.frac / 10 ^ d.places : ℚ) = f at *
  have hint : (0 : ℚ) ≤ d.int := Nat.cast_nonneg _
  constructor
  · intro h
    rcases lt_trichotomy d.exp 0 with hneg | hexp | hpos
    · -- a tenth of the number, at most, so the digits before the point are 0
      have hten : (10 : ℚ) ^ d.exp ≤ 10 ^ (-1 : ℤ) := zpow_le_zpow_right₀ (by norm_num) (by omega)
      have hpow : (0 : ℚ) < 10 ^ d.exp := by positivity
      have hle : (d.int + f) * (10 : ℚ) ^ d.exp ≤ (d.int + f) * 10 ^ (-1 : ℤ) :=
        mul_le_mul_of_nonneg_left hten (by linarith)
      rw [h] at hle
      norm_num at hle
      have hlt : (d.int : ℚ) < 1 := by linarith
      have hint0 : d.int = 0 := by
        have : d.int < 1 := by exact_mod_cast hlt
        omega
      rw [hint0, Nat.cast_zero, zero_add, mul_eq_zero] at h
      exact ⟨h.resolve_right hpow.ne', Or.inr hint0⟩
    · rw [hexp, zpow_zero, mul_one] at h
      exact ⟨by linarith, Or.inl hexp⟩
    · -- ten times the number, at least, so the number is 0
      have hten : (10 : ℚ) ^ (1 : ℤ) ≤ 10 ^ d.exp := zpow_le_zpow_right₀ (by norm_num) (by omega)
      have hle : (d.int + f) * (10 : ℚ) ^ (1 : ℤ) ≤ (d.int + f) * 10 ^ d.exp :=
        mul_le_mul_of_nonneg_left hten (by linarith)
      rw [h, zpow_one] at hle
      have hint0 : (d.int : ℚ) = 0 := by linarith
      exact ⟨by linarith, Or.inr (by exact_mod_cast hint0)⟩
  · rintro ⟨rfl, hexp | hint0⟩
    · rw [hexp, zpow_zero, mul_one, add_zero]
    · simp [hint0]

/-- **Cutting at the point keeps the value of the plain numerals**, and of no others. -/
theorem value_eq_integerPart_iff (d : Decimal) : d.value = d.integerPart ↔ d.IsPlain := by
  rw [← magnitude_eq_int_iff, value, integerPart]
  cases d.neg <;> simp

end Decimal
