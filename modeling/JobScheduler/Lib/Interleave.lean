import Mathlib.Data.Fintype.Defs

/-!
# Interleaved threads over a shared state

Threads take turns in any order.  A turn is one atomic step of one thread: it
reads and writes the shared state and the thread's own local state, and leaves
the other threads alone.  The environment may answer each step (`ε`), for
instance to let a call fail.

A shared *register* is overwritten by certain steps and read back later by the
thread that wrote it.  The window rule says when reading back is safe: between a
thread's write and its read, other threads write nothing else into the register.

## Main definitions

* `Config`, `Config.step`, `Config.run` — configurations and their runs.
* `Along G c moves` — every move of the run meets the condition `G` in the
  configuration where it is taken.
* `WindowProtocol` — a register protocol, with the window of each local state.
* `WindowProtocol.KeepsWindows`, `WindowProtocol.Exclusive` — conditions on one move.
* `WindowProtocol.comap` — the protocol of threads that run one machine after the other.

## Main results

* `run_induction` — invariants of runs.
* `WindowProtocol.forall_threads` — **the window rule**; `forall_threads_two` for two registers.
-/

namespace Interleave

variable {ι σ τ ε : Type*} [DecidableEq ι]

/-- A shared state and one local state for each thread. -/
structure Config (ι σ τ : Type*) where
  shared : σ
  threads : ι → τ

/-- One move: thread `m.1` takes its next step, answered by `m.2`. -/
def Config.step (next : τ → ε → σ → τ × σ) (c : Config ι σ τ) (m : ι × ε) : Config ι σ τ :=
  { shared := (next (c.threads m.1) m.2 c.shared).2
    threads := Function.update c.threads m.1 (next (c.threads m.1) m.2 c.shared).1 }

/-- The moves of a run, in order. -/
def Config.run (next : τ → ε → σ → τ × σ) (c : Config ι σ τ) (moves : List (ι × ε)) :
    Config ι σ τ :=
  moves.foldl (Config.step next) c

/-- Every move of the run meets `G` in the configuration where it is taken. -/
def Along (next : τ → ε → σ → τ × σ) (G : Config ι σ τ → ι × ε → Prop) :
    Config ι σ τ → List (ι × ε) → Prop
  | _, [] => True
  | c, m :: moves => G c m ∧ Along next G (c.step next m) moves

instance decidableAlong (next : τ → ε → σ → τ × σ) (G : Config ι σ τ → ι × ε → Prop)
    [∀ c m, Decidable (G c m)] : ∀ c moves, Decidable (Along next G c moves)
  | _, [] => isTrue trivial
  | c, m :: moves =>
    have := decidableAlong next G (c.step next m) moves
    inferInstanceAs (Decidable (G c m ∧ Along next G (c.step next m) moves))

section Run

variable (next : τ → ε → σ → τ × σ)

@[simp] theorem run_nil (c : Config ι σ τ) : c.run next [] = c := rfl

@[simp] theorem run_cons (c : Config ι σ τ) (m : ι × ε) (moves : List (ι × ε)) :
    c.run next (m :: moves) = (c.step next m).run next moves := rfl

@[simp] theorem shared_step (c : Config ι σ τ) (m : ι × ε) :
    (c.step next m).shared = (next (c.threads m.1) m.2 c.shared).2 := rfl

@[simp] theorem threads_step_self (c : Config ι σ τ) (m : ι × ε) :
    (c.step next m).threads m.1 = (next (c.threads m.1) m.2 c.shared).1 := by
  simp [Config.step]

theorem threads_step_of_ne (c : Config ι σ τ) (m : ι × ε) {i : ι} (h : i ≠ m.1) :
    (c.step next m).threads i = c.threads i := by
  simp [Config.step, h]

/-- **Induction over runs**: what every move that meets `G` keeps, a run of such
moves keeps. -/
theorem run_induction {next : τ → ε → σ → τ × σ} {G : Config ι σ τ → ι × ε → Prop}
    {I : Config ι σ τ → Prop} (hstep : ∀ c m, I c → G c m → I (c.step next m)) :
    ∀ (moves : List (ι × ε)) (c : Config ι σ τ), I c → Along next G c moves →
      I (c.run next moves) := by
  intro moves
  induction moves with
  | nil => intro c hI _; exact hI
  | cons m moves ih =>
    intro c hI hG
    exact ih (c.step next m) (hstep c m hI hG.1) hG.2

/-- A weaker condition holds along every run along which a stronger one does. -/
theorem Along.mono {next : τ → ε → σ → τ × σ} {G G' : Config ι σ τ → ι × ε → Prop}
    (hG : ∀ c m, G c m → G' c m) : ∀ {moves : List (ι × ε)} {c : Config ι σ τ},
      Along next G c moves → Along next G' c moves := by
  intro moves
  induction moves with
  | nil => intro c _; trivial
  | cons m moves ih => intro c h; exact ⟨hG c m h.1, ih h.2⟩

end Run

/-! ### Registers -/

/-- A protocol in which threads write a register of the shared state and read it
back later.  `window t` is the value that a thread in local state `t` has written
and not yet read back. -/
structure WindowProtocol (next : τ → ε → σ → τ × σ) (ρ : Type*) where
  /-- The register. -/
  reg : σ → ρ
  /-- The value written and still to be read back. -/
  window : τ → Option ρ
  /-- The steps that write the register. -/
  writes : τ → ε → σ → Prop
  /-- Other steps leave the register alone. -/
  reg_of_not_writes : ∀ t e s, ¬ writes t e s → reg (next t e s).2 = reg s
  /-- A writing step leaves its own window open on the register's value, if at all. -/
  window_of_writes : ∀ t e s v, writes t e s → window (next t e s).1 = some v →
    reg (next t e s).2 = v
  /-- Other steps open no window and change no value in one. -/
  window_of_not_writes : ∀ t e s v, ¬ writes t e s → window (next t e s).1 = some v →
    window t = some v

namespace WindowProtocol

variable {next : τ → ε → σ → τ × σ} {ρ : Type*} (P : WindowProtocol next ρ)

/-- The move leaves the register as every other thread's open window shows it. -/
def KeepsWindows (c : Config ι σ τ) (m : ι × ε) : Prop :=
  P.writes (c.threads m.1) m.2 c.shared → ∀ i, i ≠ m.1 →
    ∀ v ∈ P.window (c.threads i), P.reg (c.step next m).shared = v

/-- The move writes the register only while no other thread's window is open. -/
def Exclusive (c : Config ι σ τ) (m : ι × ε) : Prop :=
  P.writes (c.threads m.1) m.2 c.shared → ∀ i, i ≠ m.1 → P.window (c.threads i) = none

section

variable [Fintype ι] [DecidableEq ρ] [∀ t e s, Decidable (P.writes t e s)]

instance (c : Config ι σ τ) (m : ι × ε) : Decidable (P.KeepsWindows c m) :=
  inferInstanceAs (Decidable (P.writes _ _ _ → ∀ i, i ≠ m.1 →
    ∀ v ∈ P.window (c.threads i), P.reg (c.step next m).shared = v))

instance (c : Config ι σ τ) (m : ι × ε) : Decidable (P.Exclusive c m) :=
  inferInstanceAs (Decidable (P.writes _ _ _ → ∀ i, i ≠ m.1 → P.window (c.threads i) = none))

end

theorem Exclusive.keepsWindows {P : WindowProtocol next ρ} {c : Config ι σ τ} {m : ι × ε}
    (h : P.Exclusive c m) : P.KeepsWindows c m := by
  intro hw i hi v hv
  rw [h hw i hi] at hv
  exact absurd hv (by simp)

/-- Every open window shows the register's value. -/
def Safe (c : Config ι σ τ) : Prop :=
  ∀ i v, P.window (c.threads i) = some v → P.reg c.shared = v

theorem safe_step {c : Config ι σ τ} {m : ι × ε} (hc : P.Safe c) (hm : P.KeepsWindows c m) :
    P.Safe (c.step next m) := by
  intro i v hv
  by_cases hi : i = m.1
  · -- the moving thread: its window shows what it has just written, or was open before
    subst hi
    rw [threads_step_self] at hv
    rw [shared_step]
    by_cases hw : P.writes (c.threads m.1) m.2 c.shared
    · exact P.window_of_writes _ _ _ _ hw hv
    · rw [P.reg_of_not_writes _ _ _ hw]
      exact hc m.1 v (P.window_of_not_writes _ _ _ _ hw hv)
  · -- another thread: its window was open, so the move keeps the value in it
    rw [threads_step_of_ne next c m hi] at hv
    by_cases hw : P.writes (c.threads m.1) m.2 c.shared
    · exact hm hw i hi v hv
    · rw [shared_step, P.reg_of_not_writes _ _ _ hw]
      exact hc i v hv

/-- **The window rule.**  What a step keeps of a local state that reads the register
back as it wrote it, every run keeps of every thread, when no thread changes the
register inside another thread's window. -/
theorem forall_threads {T : τ → Prop}
    (hnext : ∀ t e s, T t → (∀ v, P.window t = some v → P.reg s = v) → T (next t e s).1)
    {c : Config ι σ τ} (hc : P.Safe c) (hT : ∀ i, T (c.threads i)) {moves : List (ι × ε)}
    (h : Along next P.KeepsWindows c moves) (i : ι) : T ((c.run next moves).threads i) := by
  have hstep : ∀ (c : Config ι σ τ) (m : ι × ε), (P.Safe c ∧ ∀ i, T (c.threads i)) →
      P.KeepsWindows c m → P.Safe (c.step next m) ∧ ∀ i, T ((c.step next m).threads i) := by
    intro c m ⟨hsafe, hT⟩ hm
    refine ⟨P.safe_step hsafe hm, ?_⟩
    intro i
    by_cases hi : i = m.1
    · subst hi
      rw [threads_step_self]
      exact hnext _ _ _ (hT m.1) (hsafe m.1)
    · rw [threads_step_of_ne next c m hi]
      exact hT i
  exact (run_induction hstep moves c ⟨hc, hT⟩ h).2 i

/-- The window rule for two registers. -/
theorem forall_threads_two {ρ' : Type*} (Q : WindowProtocol next ρ') {T : τ → Prop}
    (hnext : ∀ t e s, T t → (∀ v, P.window t = some v → P.reg s = v) →
      (∀ v, Q.window t = some v → Q.reg s = v) → T (next t e s).1)
    {c : Config ι σ τ} (hP : P.Safe c) (hQ : Q.Safe c) (hT : ∀ i, T (c.threads i))
    {moves : List (ι × ε)}
    (h : Along next (fun c m => P.KeepsWindows c m ∧ Q.KeepsWindows c m) c moves) (i : ι) :
    T ((c.run next moves).threads i) := by
  have hstep : ∀ (c : Config ι σ τ) (m : ι × ε),
      (P.Safe c ∧ Q.Safe c ∧ ∀ i, T (c.threads i)) → P.KeepsWindows c m ∧ Q.KeepsWindows c m →
        P.Safe (c.step next m) ∧ Q.Safe (c.step next m) ∧ ∀ i, T ((c.step next m).threads i) := by
    intro c m hc hm
    obtain ⟨hP, hQ, hT⟩ := hc
    refine ⟨P.safe_step hP hm.1, Q.safe_step hQ hm.2, fun i => ?_⟩
    by_cases hi : i = m.1
    · subst hi
      rw [threads_step_self]
      exact hnext _ _ _ (hT m.1) (hP m.1) (hQ m.1)
    · rw [threads_step_of_ne next c m hi]
      exact hT i
  exact (run_induction hstep moves c ⟨hP, hQ, hT⟩ h).2.2 i

/-- The protocol of threads that run such machines one after the other: `view` is the machine
that a thread is in.  A step is one of that machine, or else it leaves the state alone and
no window open. -/
def comap {τ' : Type*} {next' : τ' → ε → σ → τ' × σ} (view : τ' → Option τ)
    (h : ∀ t e s, (∃ u, view t = some u ∧ view (next' t e s).1 = some (next u e s).1 ∧
        (next' t e s).2 = (next u e s).2) ∨
      (next' t e s).2 = s ∧ (view (next' t e s).1).bind P.window = none ∧
        ∀ u ∈ view t, ¬ P.writes u e s) : WindowProtocol next' ρ where
  reg := P.reg
  window t := (view t).bind P.window
  writes t e s := ∃ u ∈ view t, P.writes u e s
  reg_of_not_writes t e s hw := by
    rcases h t e s with ⟨u, hu, -, hs⟩ | ⟨hs, -⟩
    · rw [hs]
      exact P.reg_of_not_writes u e s fun hwrites => hw ⟨u, hu, hwrites⟩
    · rw [hs]
  window_of_writes t e s v hw hv := by
    obtain ⟨u, hu, hwrites⟩ := hw
    rcases h t e s with ⟨u', hu', hview, hs⟩ | ⟨-, hnone, -⟩
    · rw [Option.mem_def, hu', Option.some.injEq] at hu
      rw [hs, hu]
      rw [hview, hu] at hv
      exact P.window_of_writes u e s v hwrites hv
    · rw [hnone] at hv
      simp at hv
  window_of_not_writes t e s v hw hv := by
    rcases h t e s with ⟨u, hu, hview, -⟩ | ⟨-, hnone, -⟩
    · rw [hview] at hv
      rw [hu]
      exact P.window_of_not_writes u e s v (fun hwrites => hw ⟨u, hu, hwrites⟩) hv
    · rw [hnone] at hv
      simp at hv

end WindowProtocol

end Interleave
