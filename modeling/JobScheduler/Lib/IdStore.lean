import Mathlib.Data.List.Basic
import Mathlib.Data.List.Nodup
import Mathlib.Data.List.Range

/-!
# A store under ids that are given out in order

The store holds items under ids, which it gives out one after the other and never
again.  It is a function, and the number of ids given out; the items can be listed in
the order of their ids.

## Main definitions

* `IdStore nth α` — a store of items under the ids `nth 0`, `nth 1` and so on.
* `add`, `modify`, `list` — a new item, a change or removal, and the items in order.

## Main results

* `nodup_list` — no id is listed twice.
* `list_modify`, `list_add` — **what a change makes of the listed items.**
-/

/-- Items under the first `count` ids. -/
structure IdStore {κ : Type} (nth : ℕ → κ) (α : Type) where
  item : κ → Option α
  count : ℕ
  /-- An item has an id that was given out. -/
  bounded : ∀ k, item k ≠ none → ∃ n, n < count ∧ k = nth n

namespace IdStore

variable {κ α : Type} {nth : ℕ → κ}

/-- The empty store. -/
def empty : IdStore nth α := ⟨fun _ => none, 0, fun _ h => absurd rfl h⟩

/-- The items with their ids, in order. -/
def list (st : IdStore nth α) : List (κ × α) :=
  (List.range st.count).filterMap fun n => (st.item (nth n)).map (nth n, ·)

theorem mem_list {st : IdStore nth α} {k : κ} {a : α} :
    (k, a) ∈ list st ↔ st.item k = some a := by
  rw [list, List.mem_filterMap]
  constructor
  · rintro ⟨n, -, hn⟩
    obtain ⟨b, hb, heq⟩ := Option.map_eq_some_iff.mp hn
    rw [Prod.mk.injEq] at heq
    rw [← heq.1, ← heq.2, hb]
  · intro h
    obtain ⟨n, hn, rfl⟩ := st.bounded k (by rw [h]; simp)
    exact ⟨n, List.mem_range.mpr hn, by rw [h]; rfl⟩

/-- **No id is listed twice**, where no id is given out twice. -/
theorem nodup_list {st : IdStore nth α}
    (hnth : ∀ n m, n < m → m < st.count → nth n ≠ nth m) : (st.list.map Prod.fst).Nodup := by
  have hsub : ∀ l : List ℕ, ((l.filterMap fun n => (st.item (nth n)).map (nth n, ·)).map
      Prod.fst).Sublist (l.map nth) := by
    intro l
    induction l with
    | nil => exact List.Sublist.slnil
    | cons n l ih =>
      cases hitem : st.item (nth n) with
      | none =>
        rw [List.filterMap_cons_none (by rw [hitem]; rfl)]
        exact ih.cons (nth n)
      | some a =>
        rw [List.filterMap_cons_some (by rw [hitem]; rfl)]
        exact ih.cons_cons (nth n)
  refine (hsub _).nodup (List.Nodup.map_on ?_ List.nodup_range)
  intro n hn m hm heq
  rw [List.mem_range] at hn hm
  rcases Nat.lt_trichotomy n m with hlt | hsame | hlt
  · exact absurd heq (hnth n m hlt hm)
  · exact hsame
  · exact absurd heq.symm (hnth m n hlt hn)

variable [DecidableEq κ]

/-- The item under an id is changed, or removed. -/
def modify (st : IdStore nth α) (k : κ) (f : α → Option α) : IdStore nth α where
  item k' := if k' = k then (st.item k').bind f else st.item k'
  count := st.count
  bounded k' h := by
    apply st.bounded k'
    intro hnone
    simp [hnone] at h

/-- A new item under the next id. -/
def add (st : IdStore nth α) (a : α) : IdStore nth α where
  item k := if k = nth st.count then some a else st.item k
  count := st.count + 1
  bounded k h := by
    by_cases hk : k = nth st.count
    · exact ⟨st.count, Nat.lt_succ_self _, hk⟩
    · rw [if_neg hk] at h
      obtain ⟨n, hn, hnth⟩ := st.bounded k h
      exact ⟨n, Nat.lt_succ_of_lt hn, hnth⟩

/-- **A change is made in its place**, and the other items are left alone. -/
theorem list_modify (st : IdStore nth α) (k : κ) (f : α → Option α) :
    list (modify st k f) =
      (list st).filterMap fun x => if x.1 = k then (f x.2).map (x.1, ·) else some x := by
  rw [list, list, List.filterMap_filterMap]
  apply List.filterMap_congr
  intro n _
  simp only [modify]
  cases hitem : st.item (nth n) with
  | none => simp
  | some a => by_cases hk : nth n = k <;> simp [hk]

/-- **A new item comes last**, where its id is none that was given out before. -/
theorem list_add {st : IdStore nth α} (hnew : ∀ n, n < st.count → nth n ≠ nth st.count) (a : α) :
    list (add st a) = list st ++ [(nth st.count, a)] := by
  simp only [list, add, List.range_succ, List.filterMap_append]
  congr 1
  · apply List.filterMap_congr
    intro n hn
    rw [if_neg (hnew n (List.mem_range.mp hn))]
  · simp

end IdStore
