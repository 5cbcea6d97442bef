import Mathlib.Data.List.Nodup
import Mathlib.Data.List.Basic

/-!
# Tables of rows with a key

A table is a list of rows, each with a key; no two rows have the same key.
Statements select rows by a condition and rewrite or drop them.  Everything a
table holds can be asked one key at a time, so each statement is described by
what it does to `lookup`.

## Main definitions

* `lookup key rows k` — the row with key `k`.
* `updateWhere p f rows`, `deleteWhere p rows` — rewrite by `f`, or drop, the
  rows that satisfy `p`.
* `RowAction` — what is done to the row with one key.

## Main results

* `lookup_updateWhere`, `lookup_deleteWhere`, `lookup_append` — each statement as
  a change of `lookup`.
* `lookup_eq_some_iff` — with distinct keys, `lookup` finds exactly the rows.
* `countP_of_key` — a condition that fixes the key is met by one row at most.
* `RowAction.lookup_of_ne`, `RowAction.comm` — **actions on different rows** do not see one
  another, and can be exchanged.
-/

namespace KeyedTable

variable {κ ρ : Type*} [DecidableEq κ] (key : ρ → κ)

/-- The row with key `k`, if there is one. -/
def lookup (rows : List ρ) (k : κ) : Option ρ := rows.find? fun r => key r = k

/-- Rewrite by `f` the rows that satisfy `p`. -/
def updateWhere (p : ρ → Bool) (f : ρ → ρ) (rows : List ρ) : List ρ :=
  rows.map fun r => if p r then f r else r

/-- Drop the rows that satisfy `p`. -/
def deleteWhere (p : ρ → Bool) (rows : List ρ) : List ρ := rows.filter fun r => !p r

/-! ### Looking a key up -/

@[simp] theorem lookup_nil (k : κ) : lookup key ([] : List ρ) k = none := rfl

theorem key_of_lookup {rows : List ρ} {k : κ} {r : ρ} (h : lookup key rows k = some r) :
    key r = k := by
  simpa using List.find?_some h

theorem mem_of_lookup {rows : List ρ} {k : κ} {r : ρ} (h : lookup key rows k = some r) :
    r ∈ rows :=
  List.mem_of_find?_eq_some h

theorem lookup_eq_none_iff {rows : List ρ} {k : κ} :
    lookup key rows k = none ↔ k ∉ rows.map key := by
  simp only [lookup, List.find?_eq_none, decide_eq_true_eq, List.mem_map, not_exists, not_and]

theorem isSome_lookup_iff {rows : List ρ} {k : κ} :
    (lookup key rows k).isSome ↔ k ∈ rows.map key := by
  rw [← not_iff_not, Bool.not_eq_true, Option.isSome_eq_false_iff, Option.isNone_iff_eq_none,
    lookup_eq_none_iff]

/-- With distinct keys, `lookup` finds exactly the rows of the table. -/
theorem lookup_eq_some_iff {rows : List ρ} (hnd : (rows.map key).Nodup) {k : κ} {r : ρ} :
    lookup key rows k = some r ↔ r ∈ rows ∧ key r = k := by
  refine ⟨fun h => ⟨mem_of_lookup key h, key_of_lookup key h⟩, ?_⟩
  rintro ⟨hmem, rfl⟩
  have hsome : (lookup key rows (key r)).isSome :=
    (isSome_lookup_iff key).mpr (List.mem_map_of_mem hmem)
  obtain ⟨r', hr'⟩ := Option.isSome_iff_exists.mp hsome
  have heq : r' = r :=
    List.inj_on_of_nodup_map hnd (mem_of_lookup key hr') hmem (key_of_lookup key hr')
  rw [hr', heq]

/-- A key selects the row that it finds, and no other. -/
theorem filter_key {rows : List ρ} (hnd : (rows.map key).Nodup) (k : κ) :
    rows.filter (fun r => key r = k) = (lookup key rows k).toList := by
  induction rows with
  | nil => rfl
  | cons r rows ih =>
    rw [List.map_cons, List.nodup_cons] at hnd
    by_cases hk : key r = k
    · -- no row further on has the key
      have hnone : lookup key rows k = none := (lookup_eq_none_iff key).mpr (hk ▸ hnd.1)
      have hhead : lookup key (r :: rows) k = some r := by simp [lookup, hk]
      rw [List.filter_cons_of_pos (by simpa using hk), ih hnd.2, hnone, hhead]
      rfl
    · have htail : lookup key (r :: rows) k = lookup key rows k := by simp [lookup, hk]
      rw [List.filter_cons_of_neg (by simpa using hk), ih hnd.2, htail]

/-! ### Statements -/

omit [DecidableEq κ] in
theorem map_key_updateWhere {p : ρ → Bool} {f : ρ → ρ} (hf : ∀ r, key (f r) = key r)
    (rows : List ρ) : (updateWhere p f rows).map key = rows.map key := by
  rw [updateWhere, List.map_map]
  apply List.map_congr_left
  intro r _
  simp only [Function.comp_apply]
  split <;> simp [hf]

/-- An update that keeps the keys rewrites what each key finds. -/
theorem lookup_updateWhere {p : ρ → Bool} {f : ρ → ρ} (hf : ∀ r, key (f r) = key r)
    (rows : List ρ) (k : κ) :
    lookup key (updateWhere p f rows) k =
      (lookup key rows k).map fun r => if p r then f r else r := by
  rw [lookup, lookup, updateWhere, List.find?_map]
  congr 2
  funext r
  simp only [Function.comp_apply]
  split <;> simp [hf]

theorem lookup_deleteWhere (k k' : κ) (rows : List ρ) :
    lookup key (deleteWhere (fun r => key r = k) rows) k' =
      if k' = k then none else lookup key rows k' := by
  rw [lookup, lookup, deleteWhere, List.find?_filter]
  split
  · next h =>
    subst h
    rw [List.find?_eq_none]
    intro r _
    by_cases hr : key r = k' <;> simp [hr]
  · next h =>
    congr 1
    funext r
    by_cases hr : key r = k'
    · subst hr; simp [h]
    · simp [hr]

theorem lookup_append (rows : List ρ) {r : ρ} (h : key r ∉ rows.map key) (k : κ) :
    lookup key (rows ++ [r]) k = if key r = k then some r else lookup key rows k := by
  have hnone : lookup key rows (key r) = none := (lookup_eq_none_iff key).mpr h
  rw [lookup, List.find?_append]
  split
  · next hk =>
    subst hk
    rw [lookup] at hnone
    simp [hnone]
  · next hk => simp [lookup, hk]

omit [DecidableEq κ] in
theorem nodup_deleteWhere {rows : List ρ} (hnd : (rows.map key).Nodup) (p : ρ → Bool) :
    ((deleteWhere p rows).map key).Nodup :=
  hnd.sublist (List.filter_sublist.map key)

omit [DecidableEq κ] in
theorem nodup_append {rows : List ρ} (hnd : (rows.map key).Nodup) {r : ρ}
    (h : key r ∉ rows.map key) : ((rows ++ [r]).map key).Nodup := by
  rw [List.map_append, List.map_singleton, ← List.concat_eq_append]
  exact hnd.concat h

/-! ### How many rows a condition meets -/

/-- An update that no row meets changes nothing. -/
theorem updateWhere_eq_self {p : ρ → Bool} {f : ρ → ρ} {rows : List ρ} (h : rows.countP p = 0) :
    updateWhere p f rows = rows := by
  rw [List.countP_eq_zero] at h
  have hkeep : ∀ r ∈ rows, (if p r then f r else r) = r := fun r hr => if_neg (h r hr)
  rw [updateWhere, List.map_congr_left hkeep, List.map_id']

/-- A deletion that no row meets drops nothing. -/
theorem deleteWhere_eq_self {p : ρ → Bool} {rows : List ρ} (h : rows.countP p = 0) :
    deleteWhere p rows = rows := by
  rw [List.countP_eq_zero] at h
  refine List.filter_eq_self.mpr ?_
  intro r hr
  simp [h r hr]

/-- A condition that only rows with key `k` can satisfy is met by one row when
the row with key `k` satisfies it, and by none otherwise. -/
theorem countP_of_key {rows : List ρ} (hnd : (rows.map key).Nodup) {p : ρ → Bool} {k : κ}
    (hp : ∀ r, p r = true → key r = k) :
    rows.countP p = if (lookup key rows k).any p then 1 else 0 := by
  induction rows with
  | nil => simp
  | cons r rows ih =>
    rw [List.map_cons, List.nodup_cons] at hnd
    rw [List.countP_cons, ih hnd.2]
    by_cases hk : key r = k
    · have hnone : lookup key rows k = none := (lookup_eq_none_iff key).mpr (hk ▸ hnd.1)
      have hhead : lookup key (r :: rows) k = some r := by simp [lookup, hk]
      rw [hnone, hhead]
      simp
    · have hpr : ¬ p r = true := fun hpr => hk (hp r hpr)
      have htail : lookup key (r :: rows) k = lookup key rows k := by simp [lookup, hk]
      rw [htail]
      simp [hpr]

/-! ### Actions on one row -/

omit [DecidableEq κ] in
theorem deleteWhere_eq_filterMap (p : ρ → Bool) (rows : List ρ) :
    deleteWhere p rows = rows.filterMap fun r => if p r then none else some r := by
  rw [deleteWhere, ← List.filterMap_eq_filter]
  congr 1
  funext r
  cases hp : p r <;> simp [Option.guard, hp]

omit [DecidableEq κ] in
theorem updateWhere_eq_filterMap (p : ρ → Bool) (f : ρ → ρ) (rows : List ρ) :
    updateWhere p f rows = rows.filterMap fun r => if p r then some (f r) else some r := by
  rw [updateWhere, ← List.filterMap_eq_map]
  congr 1
  funext r
  cases hp : p r <;> simp [hp]

/-- What is done to the row with the key `k`: it may be rewritten or dropped, and any other
row is left alone. -/
structure RowAction (k : κ) where
  act : ρ → Option ρ
  key_eq : ∀ {r r'}, act r = some r' → key r' = key r
  of_ne : ∀ {r}, key r ≠ k → act r = some r

namespace RowAction

variable {key} {k k' : κ} (a : RowAction key k)

omit [DecidableEq κ] in
/-- Every row that is left has the key of one that was there. -/
theorem exists_of_mem {rows : List ρ} {r' : ρ} (h : r' ∈ rows.filterMap a.act) :
    ∃ r ∈ rows, key r' = key r := by
  obtain ⟨r, hr, hact⟩ := List.mem_filterMap.mp h
  exact ⟨r, hr, a.key_eq hact⟩

omit [DecidableEq κ] in
theorem nodup {rows : List ρ} (hnd : (rows.map key).Nodup) :
    ((rows.filterMap a.act).map key).Nodup := by
  induction rows with
  | nil => exact List.nodup_nil
  | cons r rows ih =>
    rw [List.map_cons, List.nodup_cons] at hnd
    cases hact : a.act r with
    | none =>
      rw [List.filterMap_cons_none hact]
      exact ih hnd.2
    | some r' =>
      rw [List.filterMap_cons_some hact, List.map_cons, List.nodup_cons, a.key_eq hact]
      refine ⟨?_, ih hnd.2⟩
      intro hmem
      obtain ⟨r₁, hr₁, hkey⟩ := List.mem_map.mp hmem
      obtain ⟨r₂, hr₂, hkey'⟩ := a.exists_of_mem hr₁
      exact hnd.1 (List.mem_map.mpr ⟨r₂, hr₂, hkey' ▸ hkey⟩)

/-- The rows under other keys are found as before. -/
theorem lookup_of_ne (h : k' ≠ k) (rows : List ρ) :
    lookup key (rows.filterMap a.act) k' = lookup key rows k' := by
  induction rows with
  | nil => rfl
  | cons r rows ih =>
    by_cases hk : key r = k
    · -- the row of the action, or what is left of it, is not looked for
      have hne : key r ≠ k' := fun heq => h (heq.symm.trans hk)
      have htail : lookup key (r :: rows) k' = lookup key rows k' := by simp [lookup, hne]
      rw [htail, ← ih]
      cases hact : a.act r with
      | none => rw [List.filterMap_cons_none hact]
      | some r' =>
        rw [List.filterMap_cons_some hact]
        simp [lookup, a.key_eq hact, hne]
    · rw [List.filterMap_cons_some (a.of_ne hk), lookup, lookup, List.find?_cons, List.find?_cons]
      split
      · rfl
      · exact ih

/-- **Actions on different rows** can be exchanged. -/
theorem comm (b : RowAction key k') (h : k ≠ k') (rows : List ρ) :
    (rows.filterMap b.act).filterMap a.act = (rows.filterMap a.act).filterMap b.act := by
  rw [List.filterMap_filterMap, List.filterMap_filterMap]
  apply List.filterMap_congr
  intro r _
  by_cases hk : key r = k
  · rw [b.of_ne fun hk' => h (hk.symm.trans hk'), Option.bind_some]
    cases hact : a.act r with
    | none => rfl
    | some r' => exact (b.of_ne fun hk' => h (hk.symm.trans ((a.key_eq hact).symm.trans hk'))).symm
  · rw [a.of_ne hk, Option.bind_some]
    cases hact : b.act r with
    | none => rfl
    | some r' => exact a.of_ne fun hk' => hk ((b.key_eq hact).symm.trans hk')

end RowAction

end KeyedTable
