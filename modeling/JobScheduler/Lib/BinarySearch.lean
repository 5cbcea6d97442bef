import Mathlib.Data.List.TakeWhile

/-!
# Binary search

`std::lower_bound` over a range in which the elements below the value come first: it
finds where they end.

## Main definitions

* `lowerBound p first len` — the position found, where `p i` says that the element
  at `i` is below the value.

## Main results

* `lowerBound_eq` — the search finds the cut between what is below and what is not.
* `getElem?_lowerBound` — **it finds the element that a search from the front finds**.
-/

namespace BinarySearch

/-- `std::lower_bound` on the `len` positions from `first`. -/
def lowerBound (p : ℕ → Bool) (first len : ℕ) : ℕ :=
  if len = 0 then first
  else
    let half := len / 2
    if p (first + half) then lowerBound p (first + half + 1) (len - half - 1)
    else lowerBound p first half
termination_by len
decreasing_by all_goals omega

/-- The cut stays within the range that is left. -/
theorem lowerBound_eq {p : ℕ → Bool} {cut : ℕ} (hp : ∀ i, p i = true ↔ i < cut) (len : ℕ) :
    ∀ first, first ≤ cut → cut ≤ first + len → lowerBound p first len = cut := by
  induction len using Nat.strong_induction_on with
  | _ len ih =>
    intro first hfirst hcut
    rw [lowerBound]
    split
    · omega
    · next hlen =>
      dsimp only
      split
      · next h =>
        have hlt := (hp _).mp h
        exact ih _ (by omega) _ (by omega) (by omega)
      · next h =>
        have hle := Nat.not_lt.mp fun hlt => h ((hp _).mpr hlt)
        exact ih _ (by omega) _ hfirst hle

variable {α : Type} {q : α → Bool} {l : List α}

/-- Where the elements below the value come first, they are those of `takeWhile`. -/
theorem any_getElem?_iff (hl : l.Pairwise fun a b => q b = true → q a = true) (i : ℕ) :
    (l[i]?).any q = true ↔ i < (l.takeWhile q).length := by
  induction l generalizing i with
  | nil => simp
  | cons a l ih =>
    obtain ⟨hhead, htail⟩ := List.pairwise_cons.mp hl
    by_cases ha : q a = true
    · rw [List.takeWhile_cons_of_pos ha]
      cases i with
      | zero => simp [ha]
      | succ i => simp [ih htail]
    · rw [List.takeWhile_cons_of_neg ha]
      cases i with
      | zero => simp [ha]
      | succ i =>
        -- a later element below the value would make the first one so
        rw [List.getElem?_cons_succ]
        cases hb : l[i]? with
        | none => simp
        | some b =>
          have hq : ¬ q b = true := fun hq => ha (hhead b (List.mem_of_getElem? hb) hq)
          simp [hq]

/-- **The search finds the first element that is not below the value.** -/
theorem getElem?_lowerBound (hl : l.Pairwise fun a b => q b = true → q a = true) :
    l[lowerBound (fun i => (l[i]?).any q) 0 l.length]? = (l.dropWhile q).head? := by
  have hcut : lowerBound (fun i => (l[i]?).any q) 0 l.length = (l.takeWhile q).length :=
    lowerBound_eq (any_getElem?_iff hl) l.length 0 (Nat.zero_le _) (by
      rw [Nat.zero_add]
      exact (List.takeWhile_prefix q).length_le)
  rw [hcut, List.head?_eq_getElem?]
  calc l[(l.takeWhile q).length]?
      = (l.takeWhile q ++ l.dropWhile q)[(l.takeWhile q).length]? := by
        rw [List.takeWhile_append_dropWhile]
    _ = (l.dropWhile q)[0]? := by
        rw [List.getElem?_append_right (Nat.le_refl _), Nat.sub_self]

end BinarySearch
