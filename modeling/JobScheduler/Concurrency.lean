import JobScheduler.Calls
import JobScheduler.Creation
import Mathlib.Data.Fintype.Basic

/-!
# Concurrent requests

The worker threads share one connection and take its `sqlite3_*` calls in any order.
`create_job` looks at the database only in `insert_job`, so a thread that creates a job
is one `insert_job` call; the other calls are the mutators themselves.

## Main definitions

* `Creating` — a `create_job` that has come to its `insert_job`.
* `Mutation` — a writing call that reads one of the two registers back.
* `ReturnOwnIds`, `ReportOwnEffects` — what the calls of a configuration that have
  returned should have returned.

## Main results

* `concurrent_creates` — **concurrent creates return their own ids**, in every run in
  which no `INSERT` puts its row in between the step of another and its read.
* `concurrent_mutators` — **concurrent mutators report their own effects**, in every run
  in which no statement changes the register between the step of another and its read.
-/

namespace JobScheduler

open Interleave

/-! ### Calls and their statements -/

/-- The rowid of the row that the call has inserted. -/
def CallState.ownRowid : CallState → Option Int64
  | .finalizing _ (some own) | .reading _ own | .returned _ _ (some own) => own.rowid
  | _ => none

/-- A call inserts its row where it completes its statement, and nowhere else. -/
theorem CallState.ownRowid_next {t : CallState} {e : Option Failure} {db : Db}
    (h : ¬ completes t e db) : (t.next e db).1.ownRowid = t.ownRowid := by
  match t, e with
  | .prepared s 0, none =>
    cases hs : s.step db with
    | none => simp [next, hs, ownRowid]
    | some db' => exact absurd (by simp [completes, hs]) h
  | .calling s, none | .calling s, some rc | .prepared s (n + 1), _ | .prepared s 0, some _
  | .finalizing s none, _ | .finalizing s (some own), _ | .reading s own, _
  | .returned s r own, _ => rfl

/-! ### Creating jobs -/

/-- A `create_job` that has accepted its body and built the job. -/
structure Creating where
  uninit : Int64
  /-- The clock as the call reads it. -/
  now : Int64
  body : RValue
  job : Job
  accepted : validateJobInput uninit body = .ok none
  built : buildJob uninit now body = .ok job

/-- The statement that is left to run. -/
def Creating.stmt (x : Creating) : Stmt := .insert (insertParams x.job)

/-- Left alone, the call returns the id of the job that `create_job` returns. -/
theorem Creating.run_solo (x : Creating) (db : Db) : ∃ job db' db'' own,
    createJob x.uninit x.now db x.body .ok = .ok (job, [], db') ∧
      soloStep^[x.stmt.params + 4] (.calling x.stmt, db) =
        (.returned x.stmt (.id job.id) own, db'') ∧ db''.table = db'.table := by
  have hcreate := createJob_of_accepted x.accepted x.now db .ok
  rw [x.built, ok_bind] at hcreate
  obtain ⟨own, db'', hrun, htable⟩ := JobScheduler.run_solo (.insertJob x.job) db (by simp)
  exact ⟨_, _, db'', own, hcreate, hrun, htable⟩

variable {ι : Type*} [DecidableEq ι]

/-- Threads that are about to call `insert_job`. -/
def Calls.creating (db : Db) (creates : ι → Creating) : Calls ι :=
  ⟨db, fun i => .calling (creates i).stmt⟩

/-- Every call that has inserted a row and returned has returned that row's id: the
table holds there what the call stored.  No two of them have returned the same id. -/
structure ReturnOwnIds (creates : ι → Creating) (c : Calls ι) : Prop where
  own : ∀ i s r own, c.threads i = .returned s r (some own) → ∃ id : Int32,
    r = .id id ∧ own.rowid = some (bindInt id) ∧
      c.shared.table.lookup (bindInt id) =
        some ((insertParams (creates i).job).toRow (bindInt id))
  distinct : ∀ i j s s' r own own', c.threads i = .returned s r (some own) →
    c.threads j = .returned s' r (some own') → i = j

/-- The rows that the calls have inserted are there, under rowids of their own. -/
structure OwnRows (creates : ι → Creating) (c : Calls ι) : Prop where
  stmt : ∀ i, (c.threads i).stmt = (creates i).stmt
  le_seq : ∀ i k, (c.threads i).ownRowid = some k → k.toInt ≤ c.shared.table.seq.toInt
  fits : ∀ i k, (c.threads i).ownRowid = some k → FitsInt k
  row : ∀ i k, (c.threads i).ownRowid = some k →
    c.shared.table.lookup k = some ((insertParams (creates i).job).toRow k)
  distinct : ∀ i j k, (c.threads i).ownRowid = some k → (c.threads j).ownRowid = some k → i = j

/-- The rowid that the move gives to a row fits an `int`. -/
def RowidFits (c : Calls ι) (m : ι × Option Failure) : Prop :=
  completes (c.threads m.1) m.2 c.shared → ∀ k ∈ c.shared.table.nextRowid, FitsInt k

instance (c : Calls ι) (m : ι × Option Failure) :
    Decidable (RowidFits c m) :=
  match h : c.shared.table.nextRowid with
  | none => isTrue (by simp [RowidFits, h])
  | some k =>
    decidable_of_iff (completes (c.threads m.1) m.2 c.shared → FitsInt k) (by simp [RowidFits, h])

omit [DecidableEq ι] in
theorem ownRows_creating (db : Db) (creates : ι → Creating) :
    OwnRows creates (Calls.creating db creates) where
  stmt _ := rfl
  le_seq i k h := by simp [Calls.creating, CallState.ownRowid] at h
  fits i k h := by simp [Calls.creating, CallState.ownRowid] at h
  row i k h := by simp [Calls.creating, CallState.ownRowid] at h
  distinct i j k h := by simp [Calls.creating, CallState.ownRowid] at h

theorem stmt_step {creates : ι → Creating} {c : Calls ι}
    (h : ∀ i, (c.threads i).stmt = (creates i).stmt)
    (m : ι × Option Failure) (i : ι) :
    ((c.step CallState.next m).threads i).stmt = (creates i).stmt := by
  by_cases hi : i = m.1
  · subst hi
    rw [threads_step_self, CallState.stmt_next, h]
  · rw [threads_step_of_ne CallState.next c m hi, h]

/-- A move that completes no statement leaves the rows and their owners alone. -/
theorem ownRows_step_of_not_completes {creates : ι → Creating} {c : Calls ι}
    {m : ι × Option Failure} (h : OwnRows creates c)
    (hnot : ¬ completes (c.threads m.1) m.2 c.shared)
    (htable : ((c.threads m.1).next m.2 c.shared).2.table = c.shared.table) :
    OwnRows creates (c.step CallState.next m) := by
  have hshared : (c.step CallState.next m).shared.table = c.shared.table := htable
  have hown : ∀ i, ((c.step CallState.next m).threads i).ownRowid = (c.threads i).ownRowid := by
    intro i
    by_cases hi : i = m.1
    · subst hi
      rw [threads_step_self, CallState.ownRowid_next hnot]
    · rw [threads_step_of_ne CallState.next c m hi]
  constructor
  · exact stmt_step h.stmt m
  · intro i k hk
    rw [hshared]
    exact h.le_seq i k (hown i ▸ hk)
  · intro i k hk
    exact h.fits i k (hown i ▸ hk)
  · intro i k hk
    rw [hshared]
    exact h.row i k (hown i ▸ hk)
  · intro i j k hi hj
    exact h.distinct i j k (hown i ▸ hi) (hown j ▸ hj)

/-- A move that completes an `INSERT` gives its row a rowid above all others. -/
theorem ownRows_step_of_completes {creates : ι → Creating} {c : Calls ι}
    {m : ι × Option Failure} (h : OwnRows creates c) {k : Int64}
    (hk : c.shared.table.nextRowid = some k) (hfits : FitsInt k)
    (hnext : (c.threads m.1).next m.2 c.shared =
      (.finalizing (creates m.1).stmt (some ⟨1, some k⟩),
        ⟨c.shared.table.insert (insertParams (creates m.1).job) hk, 1, k⟩)) :
    OwnRows creates (c.step CallState.next m) := by
  have hseq := Table.seq_lt_nextRowid hk
  have hshared : (c.step CallState.next m).shared =
      ⟨c.shared.table.insert (insertParams (creates m.1).job) hk, 1, k⟩ := congrArg Prod.snd hnext
  -- the moving thread owns the new rowid, and the others what they owned
  have hown : ∀ i k', ((c.step CallState.next m).threads i).ownRowid = some k' →
      i = m.1 ∧ k' = k ∨ i ≠ m.1 ∧ (c.threads i).ownRowid = some k' := by
    intro i k' hk'
    by_cases hi : i = m.1
    · subst hi
      rw [threads_step_self, hnext] at hk'
      exact Or.inl ⟨rfl, (Option.some.inj hk').symm⟩
    · rw [threads_step_of_ne CallState.next c m hi] at hk'
      exact Or.inr ⟨hi, hk'⟩
  -- a rowid that a thread owned before is not the new one
  have hold : ∀ i k', (c.threads i).ownRowid = some k' → k' ≠ k := by
    rintro i k' hk' rfl
    have := h.le_seq i k' hk'
    omega
  constructor
  · exact stmt_step h.stmt m
  · intro i k' hk'
    rw [hshared]
    show k'.toInt ≤ k.toInt
    rcases hown i k' hk' with ⟨-, rfl⟩ | ⟨-, hk'⟩
    · exact Int.le_refl _
    · have := h.le_seq i k' hk'
      omega
  · intro i k' hk'
    rcases hown i k' hk' with ⟨-, rfl⟩ | ⟨-, hk'⟩
    · exact hfits
    · exact h.fits i k' hk'
  · intro i k' hk'
    rw [hshared, Table.lookup_insert]
    rcases hown i k' hk' with ⟨rfl, rfl⟩ | ⟨-, hk'⟩
    · rw [if_pos rfl]
    · rw [if_neg (hold i k' hk').symm]
      exact h.row i k' hk'
  · intro i j k' hi hj
    rcases hown i k' hi with ⟨rfl, rfl⟩ | ⟨-, hi⟩ <;> rcases hown j k' hj with ⟨rfl, hkk⟩ | ⟨-, hj⟩
    · rfl
    · exact absurd rfl (hold j k' hj)
    · exact absurd hkk (hold i k' hi)
    · exact h.distinct i j k' hi hj

/-- **One move**: the rows of the calls stay theirs. -/
theorem ownRows_step {creates : ι → Creating} {c : Calls ι}
    {m : ι × Option Failure} (h : OwnRows creates c) (hfits : RowidFits c m) :
    OwnRows creates (c.step CallState.next m) := by
  rcases next_cases (c.threads m.1) m.2 c.shared with
    ⟨s, db', hthread, he, hs, hnext⟩ | ⟨hnot, htable⟩
  · have hstmt : s = (creates m.1).stmt := by
      have := h.stmt m.1
      rwa [hthread] at this
    subst hstmt
    cases hk : c.shared.table.nextRowid with
    | none =>
      rw [Creating.stmt, Stmt.step_insert_full hk] at hs
      simp at hs
    | some k =>
      have hcompletes : completes (c.threads m.1) m.2 c.shared := by
        simp [completes, hthread, he, hs]
      rw [Creating.stmt, Stmt.step_insert hk, Option.some.injEq] at hs
      subst hs
      exact ownRows_step_of_completes h hk (hfits hcompletes k hk) hnext
  · exact ownRows_step_of_not_completes h hnot htable

/-- **Concurrent creates return their own ids**, in every run in which no `INSERT`
puts its row in (and completes, or fails after that) between the step of another call and
its read of the last rowid, and each rowid fits an `int`. -/
theorem concurrent_creates {db : Db} {creates : ι → Creating}
    {moves : List (ι × Option Failure)}
    (h : Along CallState.next (fun c m => rowidWindow.Exclusive c m ∧ RowidFits c m)
      (Calls.creating db creates) moves) :
    ReturnOwnIds creates ((Calls.creating db creates).run CallState.next moves) := by
  have hrows : OwnRows creates ((Calls.creating db creates).run CallState.next moves) :=
    run_induction (fun _ m hc hm => ownRows_step hc hm.2) moves _ (ownRows_creating db creates) h
  have hsafe : rowidWindow.Safe (Calls.creating db creates) := by
    intro i v hv
    simp [rowidWindow, Calls.creating, rowidSeen] at hv
  have hstart : ∀ i, TellsRowid ((Calls.creating db creates).threads i) := fun _ => trivial
  have htells := own_rowid hsafe hstart (Along.mono (fun _ _ hm => hm.1.keepsWindows) h)
  -- a call that has returned tells the rowid of its row, which the cast to `int` keeps
  have hown : ∀ i s r own, ((Calls.creating db creates).run CallState.next moves).threads i =
      .returned s r (some own) → ∃ id : Int32, r = .id id ∧ own.rowid = some (bindInt id) := by
    intro i s r own hi
    have hstmt := hrows.stmt i
    have htells := htells i
    rw [hi] at hstmt htells
    obtain ⟨k, hk, rfl⟩ := htells (by rw [show s = (creates i).stmt from hstmt]; rfl)
    have hfits := hrows.fits i k (by rw [hi]; exact hk)
    exact ⟨k.toInt32, rfl, by rw [hk, bindInt, toInt64_toInt32_eq_iff.mpr hfits]⟩
  constructor
  · intro i s r own hi
    obtain ⟨id, hr, hid⟩ := hown i s r own hi
    exact ⟨id, hr, hid, hrows.row i _ (by rw [hi]; exact hid)⟩
  · intro i j s s' r own own' hi hj
    obtain ⟨id, rfl, hid⟩ := hown i s r own hi
    obtain ⟨id', hr, hid'⟩ := hown j s' _ own' hj
    obtain rfl := Ret.id.inj hr
    exact hrows.distinct i j (bindInt id) (by rw [hi]; exact hid) (by rw [hj]; exact hid')

/-- The creation of a one-time job. -/
def oneTimeCreating : Creating where
  uninit := 0
  now := 0
  body := .object oneTimeMembers
  job := oneTimeJob 1
  accepted := validateJobInput_one
  built := buildJob_one

/-- `n` steps of a thread in a row, with no failure. -/
def turns {ι : Type*} (i : ι) (n : ℕ) : List (ι × Option Failure) :=
  List.replicate n (i, none)

theorem concurrent_creates_inTurn :
    ReturnOwnIds (fun _ : Fin 2 => oneTimeCreating)
      ((Calls.creating Db.empty fun _ : Fin 2 => oneTimeCreating).run CallState.next
        (turns 0 13 ++ turns 1 13)) :=
  concurrent_creates (by decide +kernel)

/-- Two jobs are created, and both requests are told the id of the second. -/
theorem concurrent_creates_sameId :
    ¬ ReturnOwnIds (fun _ : Fin 2 => oneTimeCreating)
      ((Calls.creating Db.empty fun _ : Fin 2 => oneTimeCreating).run CallState.next
        (turns 0 11 ++ turns 1 11 ++ turns 0 2 ++ turns 1 2)) := by
  intro h
  have hfirst : ((Calls.creating Db.empty fun _ : Fin 2 => oneTimeCreating).run CallState.next
      (turns 0 11 ++ turns 1 11 ++ turns 0 2 ++ turns 1 2)).threads 0 =
        .returned oneTimeCreating.stmt (.id 2) (some ⟨1, some 1⟩) := by decide +kernel
  have hsecond : ((Calls.creating Db.empty fun _ : Fin 2 => oneTimeCreating).run CallState.next
      (turns 0 11 ++ turns 1 11 ++ turns 0 2 ++ turns 1 2)).threads 1 =
        .returned oneTimeCreating.stmt (.id 2) (some ⟨1, some 2⟩) := by decide +kernel
  exact absurd (h.distinct 0 1 _ _ _ _ _ hfirst hsecond) (by decide)

/-! ### Changing jobs -/

/-- A writing call that reads one of the two registers back. -/
abbrev Mutation := {op : Op // ∀ id st, op ≠ .updateJobStatus id st}

/-- Threads that are about to run a writing call each. -/
def Calls.mutating (db : Db) (calls : ι → Mutation) : Calls ι :=
  ⟨db, fun i => .calling (calls i).1.stmt⟩

/-- Every call that has returned, apart from `insert_job`, has told whether its own
statement changed a row. -/
def ReportOwnEffects (c : Calls ι) : Prop :=
  ∀ i s r own, c.threads i = .returned s r own → s.isInsert = false →
    ∃ b, r = .flag b ∧ (b = true ↔ ∃ e, own = some e ∧ e.changed ≠ 0)

/-- **Concurrent mutators report their own effects**, in every run in which no statement
that is run between the step of another call and its read of the changes differs from it
in whether it changed a row; one that fails has changed none. -/
theorem concurrent_mutators {db : Db} {calls : ι → Mutation}
    {moves : List (ι × Option Failure)}
    (h : Along CallState.next changesWindow.KeepsWindows (Calls.mutating db calls) moves) :
    ReportOwnEffects ((Calls.mutating db calls).run CallState.next moves) := by
  have hsafe : changesWindow.Safe (Calls.mutating db calls) := by
    intro i v hv
    simp [changesWindow, Calls.mutating, changesSeen] at hv
  have hstart : ∀ i, TellsChanges ((Calls.mutating db calls).threads i) := fun _ => trivial
  intro i s r own hi hs
  have htells := own_changes hsafe hstart h i
  rw [hi] at htells
  refine ⟨_, htells hs, ?_⟩
  rw [decide_eq_true_eq]
  cases own with
  | none => simp
  | some e => simp

/-- `pause_job` as one of several calls. -/
def pausing (id : Int32) : Mutation := ⟨.pauseJob id, by simp⟩

/-- One thread pauses job 7, which is not there, and another job 1, which is. -/
def pausingTwo : Calls (Fin 2) :=
  Calls.mutating ((Op.insertJob (oneTimeJob 1)).run Db.empty).2
    fun i => pausing (if i = 0 then 7 else 1)

theorem concurrent_mutators_inTurn :
    ReportOwnEffects (pausingTwo.run
      CallState.next (turns 0 6 ++ turns 1 6)) :=
  concurrent_mutators (by decide +kernel)

/-- A thread that has paused no row is told that it has, by the pause of another. -/
theorem concurrent_mutators_foreign :
    ¬ ReportOwnEffects (pausingTwo.run
      CallState.next (turns 0 4 ++ turns 1 4 ++ turns 0 2)) := by
  intro h
  have hfirst : (pausingTwo.run
      CallState.next (turns 0 4 ++ turns 1 4 ++ turns 0 2)).threads 0 =
        .returned (pausing 7).1.stmt (.flag true) (some ⟨0, none⟩) := by decide +kernel
  obtain ⟨b, hb, hiff⟩ := h 0 _ _ _ hfirst rfl
  obtain rfl := Ret.flag.inj hb
  obtain ⟨e, he, hchanged⟩ := hiff.mp rfl
  exact hchanged (congrArg Effect.changed (Option.some.inj he)).symm

end JobScheduler
