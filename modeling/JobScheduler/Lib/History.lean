import Mathlib.Data.List.Basic

/-!
# Histories

A history is the list of the events so far, the last one at its end.  What a history
says about the present is what its events wrote last, and whether something opened in
it has been closed since.

## Main definitions

* `lastWrite f h` — the last value that an event of `h` wrote, where `f` tells what each
  writes.
* `OpenSince opens closes h` — an event of `h` opened something, and none after it
  closed it.

## Main results

* `lastWrite_concat`, `openSince_concat`, `exists_split_concat` — one more event.
* `split_unique` — the place of an event among its like.
-/

namespace History

variable {α β : Type*}

/-- The last value written. -/
def lastWrite (f : α → Option β) (h : List α) : Option β := h.reverse.findSome? f

@[simp] theorem lastWrite_nil (f : α → Option β) : lastWrite f [] = none := rfl

/-- One more event writes what it writes, or leaves what was written last. -/
@[simp] theorem lastWrite_concat (f : α → Option β) (h : List α) (e : α) :
    lastWrite f (h ++ [e]) = (f e).or (lastWrite f h) := by
  rw [lastWrite, List.reverse_append, List.reverse_singleton, List.singleton_append,
    List.findSome?_cons]
  cases f e <;> rfl

/-- Something has been opened, and not closed since. -/
def OpenSince (opens closes : α → Prop) (h : List α) : Prop :=
  ∃ before e after, h = before ++ e :: after ∧ opens e ∧ ∀ e' ∈ after, ¬ closes e'

theorem not_openSince_nil (opens closes : α → Prop) : ¬ OpenSince opens closes [] := by
  rintro ⟨before, e, after, h, -⟩
  exact List.cons_ne_nil e after (List.append_eq_nil_iff.mp h.symm).2

/-- One more event opens, or it does not close what was open. -/
theorem openSince_concat {opens closes : α → Prop} {h : List α} {e : α} :
    OpenSince opens closes (h ++ [e]) ↔ opens e ∨ OpenSince opens closes h ∧ ¬ closes e := by
  constructor
  · rintro ⟨before, e', after, heq, hopens, hafter⟩
    rcases List.eq_nil_or_concat after with rfl | ⟨after, e'', rfl⟩
    · -- it is the last event that opens
      have hlast := List.append_inj_right' heq rfl
      rw [List.cons.injEq] at hlast
      exact Or.inl (hlast.1 ▸ hopens)
    · rw [List.concat_eq_append, ← List.cons_append, ← List.append_assoc] at heq
      obtain ⟨hh, hlast⟩ := List.append_inj' heq rfl
      rw [List.cons.injEq] at hlast
      obtain ⟨rfl, -⟩ := hlast
      rw [List.concat_eq_append] at hafter
      have hbefore : ∀ x ∈ after, ¬ closes x := fun x hx => hafter x (List.mem_append_left _ hx)
      have hlast : ¬ closes e := hafter e (List.mem_append_right _ List.mem_cons_self)
      exact Or.inr ⟨⟨before, e', after, hh, hopens, hbefore⟩, hlast⟩
  · rintro (hopens | ⟨⟨before, e', after, rfl, hopens, hafter⟩, hcloses⟩)
    · exact ⟨h, e, [], rfl, hopens, by simp⟩
    · refine ⟨before, e', after ++ [e], by simp, hopens, ?_⟩
      intro x hx
      rcases List.mem_append.mp hx with hx | hx
      · exact hafter x hx
      · rw [List.mem_singleton.mp hx]
        exact hcloses

/-- An event of a longer history is the last one, or is in what comes before it. -/
theorem exists_split_concat {P : List α → α → List α → Prop} {h : List α} {e : α} :
    (∃ before x after, h ++ [e] = before ++ x :: after ∧ P before x after) ↔
      P h e [] ∨ ∃ before x after, h = before ++ x :: after ∧ P before x (after ++ [e]) := by
  constructor
  · intro h
    obtain ⟨before, x, after, heq, hP⟩ := h
    rcases List.eq_nil_or_concat after with rfl | ⟨after, y, rfl⟩
    · obtain ⟨rfl, hlast⟩ := List.append_inj' heq rfl
      rw [List.cons.injEq] at hlast
      exact Or.inl (hlast.1 ▸ hP)
    · rw [List.concat_eq_append] at heq hP
      rw [← List.cons_append, ← List.append_assoc] at heq
      obtain ⟨hh, hlast⟩ := List.append_inj' heq rfl
      rw [List.cons.injEq] at hlast
      obtain ⟨rfl, -⟩ := hlast
      exact Or.inr ⟨before, x, after, hh, hP⟩
  · intro hsplit
    rcases hsplit with hP | ⟨before, x, after, rfl, hP⟩
    · exact ⟨h, e, [], rfl, hP⟩
    · exact ⟨before, x, after ++ [e], by simp, hP⟩

/-- Two places of a history with the same number of marked events before them, both of them
marked, are one place. -/
theorem split_unique {P : α → Bool} {before before' after after' : List α} {e e' : α}
    (h : before ++ e :: after = before' ++ e' :: after') (he : P e = true) (he' : P e' = true)
    (hcount : before.countP P = before'.countP P) : before = before' := by
  induction before generalizing before' with
  | nil =>
    cases before' with
    | nil => rfl
    | cons x before' =>
      have hx := (List.cons.inj h).1
      rw [List.countP_nil, List.countP_cons, ← hx, if_pos he] at hcount
      omega
  | cons x before ih =>
    cases before' with
    | nil =>
      have hx := (List.cons.inj h).1
      rw [List.countP_nil, List.countP_cons, hx, if_pos he'] at hcount
      omega
    | cons y before' =>
      obtain ⟨rfl, hrest⟩ := List.cons.inj h
      rw [List.countP_cons, List.countP_cons, Nat.add_right_cancel_iff] at hcount
      rw [ih hrest hcount]

end History
