import JobScheduler.Json.Load
import JobScheduler.Lib.BinarySearch
import Mathlib.Data.List.Lex
import Mathlib.Data.List.Sort

/-!
# Looking a member up

`has` and `operator[]` sort the members by key and search them by halves.  A key that
the body repeats has several members, and the sort decides which of them is found.

## Main definitions

* `lookup` — the search that `has` and `operator[]` make.
* `MemberSort.stable` — the sort that keeps members of one key in their order.

## Main results

* `lookup_sort` — **the search finds what a search through all the members would**:
  some member with the key, when there is one.
-/

namespace JobScheduler

open CText BinarySearch

/-- `lower_bound`, and the test of the member it finds. -/
def lookup (members : List (Bytes × RValue)) (key : Bytes) : Option RValue :=
  match members[lowerBound (fun i => (members[i]?).any fun m => decide (keyLt m.1 key)) 0
      members.length]? with
  | none => none
  | some m => if m.1 = key then some m.2 else none

/-! ### The order of the keys -/

theorem chars_injective {k l : Bytes} (h : chars k = chars l) : k = l := by
  refine List.map_injective_iff.mpr ?_ h
  intro c d hcd
  have hbytes : c.toInt8.toUInt8 = d.toInt8.toUInt8 := congrArg Int8.toUInt8 (Int8.toInt_inj.mp hcd)
  rwa [UInt8.toUInt8_toInt8, UInt8.toUInt8_toInt8] at hbytes

theorem keyLt_irrefl (k : Bytes) : ¬ keyLt k k := lt_irrefl (chars k)

/-- Keys of which neither comes first are the same. -/
theorem eq_of_not_keyLt {k l : Bytes} (h : ¬ keyLt k l) (h' : ¬ keyLt l k) : k = l :=
  chars_injective (le_antisymm (not_lt.mp h') (not_lt.mp h))

/-- The members of lesser keys come first. -/
theorem pairwise_keyLt {members : List (Bytes × RValue)}
    (h : members.Pairwise fun m n => ¬ keyLt n.1 m.1) (key : Bytes) :
    members.Pairwise fun m n =>
      decide (keyLt n.1 key) = true → decide (keyLt m.1 key) = true := by
  refine h.imp fun {m n} hmn hn => ?_
  rw [decide_eq_true_eq] at hn ⊢
  by_contra hm
  exact hmn (lt_of_lt_of_le (α := List ℤ) hn (not_lt.mp hm))

/-- The members before the one that is found do not have the key, and when that one does
not have it, neither do those behind it. -/
theorem lookup_eq_member {members : List (Bytes × RValue)}
    (h : members.Pairwise fun m n => ¬ keyLt n.1 m.1) (key : Bytes) :
    lookup members key = RValue.member members key := by
  rw [lookup, getElem?_lowerBound (pairwise_keyLt h key), RValue.member]
  induction members with
  | nil => rfl
  | cons m members ih =>
    obtain ⟨hhead, htail⟩ := List.pairwise_cons.mp h
    by_cases hlt : keyLt m.1 key
    · have hne : ¬ m.1 = key := fun heq => keyLt_irrefl key (heq ▸ hlt)
      rw [List.dropWhile_cons_of_pos (by simpa using hlt), ih htail,
        List.find?_cons_of_neg (by simpa using hne)]
    · rw [List.dropWhile_cons_of_neg (by simpa using hlt), List.head?_cons]
      by_cases heq : m.1 = key
      · rw [List.find?_cons_of_pos (by simpa using heq)]
        simp [heq]
      · have hgt : keyLt key m.1 := by
          by_contra hle
          exact heq (eq_of_not_keyLt hlt hle)
        have hnone : (m :: members).find? (fun m => m.1 = key) = none := by
          rw [List.find?_eq_none]
          intro n hn
          rw [decide_eq_true_eq]
          rcases List.mem_cons.mp hn with rfl | hn
          · exact heq
          · rintro rfl
            exact hhead n hn hgt
        rw [hnone]
        simp [heq]

theorem mem_keys_of_member {members : List (Bytes × RValue)} {key : Bytes} :
    (RValue.member members key).isSome ↔ ∃ v, (key, v) ∈ members := by
  constructor
  · intro h
    obtain ⟨v, hv⟩ := Option.isSome_iff_exists.mp h
    exact ⟨v, RValue.mem_of_member hv⟩
  · rintro ⟨v, hv⟩
    rw [RValue.member, Option.isSome_map, List.find?_isSome]
    exact ⟨(key, v), hv, by simp⟩

/-- **A lookup finds a member of the body**: the search by halves in the sorted members
finds what a search through all of them finds, which is a member with the key when the
body has one, and no other than its own when the body has one of them only. -/
theorem lookup_sort (σ : MemberSort) (members : List (Bytes × RValue)) (key : Bytes) :
    lookup (σ.sort members) key = RValue.member (σ.sort members) key ∧
      ((lookup (σ.sort members) key).isSome ↔ ∃ v, (key, v) ∈ members) ∧
      (∀ v, lookup (σ.sort members) key = some v → (key, v) ∈ members) ∧
      ∀ v, (∀ w, (key, w) ∈ members ↔ w = v) → lookup (σ.sort members) key = some v := by
  have hsame := lookup_eq_member (σ.sorted members) key
  have hmem : ∀ {v}, (key, v) ∈ σ.sort members ↔ (key, v) ∈ members :=
    (σ.perm members).mem_iff
  have hfound : ∀ v, lookup (σ.sort members) key = some v → (key, v) ∈ members := by
    intro v hv
    rw [hsame] at hv
    exact hmem.mp (RValue.mem_of_member hv)
  have hsome : (lookup (σ.sort members) key).isSome ↔ ∃ v, (key, v) ∈ members := by
    rw [hsame, mem_keys_of_member]
    simp only [hmem]
  refine ⟨hsame, hsome, hfound, ?_⟩
  intro v honly
  obtain ⟨w, hw⟩ := Option.isSome_iff_exists.mp (hsome.mpr ⟨v, (honly v).mpr rfl⟩)
  rw [hw, (honly w).mp (hfound w hw)]

/-- The sort that leaves members of one key as they stand in the body. -/
def MemberSort.stable : MemberSort where
  sort := List.insertionSort fun m n => ¬ keyLt n.1 m.1
  perm := List.perm_insertionSort _
  sorted members := by
    have : Std.Total fun m n : Bytes × RValue => ¬ keyLt n.1 m.1 :=
      ⟨fun m n => (le_total (chars m.1) (chars n.1)).imp not_lt.mpr not_lt.mpr⟩
    have : IsTrans (Bytes × RValue) fun m n => ¬ keyLt n.1 m.1 :=
      ⟨fun _ _ _ h h' => not_lt.mpr ((not_lt.mp h).trans (not_lt.mp h'))⟩
    exact List.pairwise_insertionSort _ members

end JobScheduler
