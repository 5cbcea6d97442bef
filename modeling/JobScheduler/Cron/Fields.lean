import JobScheduler.CronSyntax
import JobScheduler.Lib.Stride

/-!
# What a cron expression says

Each part of a field spells a span: a range of values and how far apart they are.  A field has
the values of its parts, and an expression the sets of its fields.  This holds of every text
that the parser accepts, but a step too wide for the 8-bit counter of the loop counts down.

## Main definitions

* `Span`, `partSpan` — what a part of a field spells.
* `Span.Has` — the values of a span.
* `Says`, `Spelled` — what a field says, and an expression.

## Main results

* `setBits_eq_ok` — the loop sets the values of a span.
* `setCronField_eq_ok` — a field is accepted exactly when each of its parts is, and then
  it has their values.
* `makeCron_spelled` — **the parser returns what the text says**, and nothing else.
-/

namespace JobScheduler
namespace Cron

open CText Stride

/-- The values from `first` on, `step` apart, up to `last`. -/
structure Span where
  first : UInt8
  last : UInt8
  step : UInt8
  deriving DecidableEq

/-- What a comma-separated part of a field spells. -/
def partSpan (field : Bytes) (minval maxval : UInt8) : Except Fault Span :=
  if !contains field 47 then do
    let (first, last) ← makeRange field minval maxval
    pure { first, last, step := 1 }
  else
    match split field 47 with
    | [p₀, p₁] => do
      let (first, last) ← makeRange p₀ minval maxval
      let last := if !contains p₀ 45 then maxval else last
      let delta ← toCronInt p₁
      if delta ≤ 0 then
        throw (.badCronexpr (ascii "Incrementer must be a positive value"))
      else
        pure { first, last, step := delta }
    | _ => throw (.badCronexpr (ascii "Incrementer must have two fields"))

/-- The values of a span.  The counter of the loop has 8 bits and starts `minval` below the
value: a step that takes it past 255 counts down from `first`, by what the step lacks to 256. -/
def Span.Has (s : Span) (minval : UInt8) (v : ℕ) : Prop :=
  if s.last.toNat - minval.toNat + s.step.toNat < 256 then
    s.first.toNat ≤ v ∧ v ≤ s.last.toNat ∧ s.step.toNat ∣ v - s.first.toNat
  else minval.toNat ≤ v ∧ v ≤ s.first.toNat ∧ (256 - s.step.toNat) ∣ s.first.toNat - v

/-- The span lies within the bounds of its field. -/
structure Span.Within (s : Span) (minval maxval : UInt8) : Prop where
  min_le : minval.toNat ≤ s.first.toNat
  first_le : s.first.toNat ≤ s.last.toNat
  le_max : s.last.toNat ≤ maxval.toNat
  step_pos : 0 < s.step.toNat

/-- The field is a list of spans, and the set has the values of all of them: its bit `i` stands
for the value `minval + i`. -/
structure Says {N : ℕ} (value : Bytes) (minval maxval : UInt8) (t : BitVec N) : Prop where
  noComma : value.getLast? ≠ some 44
  nonempty : split value 44 ≠ []
  spans : ∀ part ∈ split value 44, ∃ s, partSpan part minval maxval = .ok s
  bits : ∀ i, t.getLsbD i = true ↔ ∃ part ∈ split value 44, ∃ s,
    partSpan part minval maxval = .ok s ∧ s.Has minval (minval.toNat + i)

/-- The text has six fields, and they say the sets of the expression. -/
def Spelled (expr : Bytes) (cex : CronExpr) : Prop :=
  expr ≠ [] ∧ ∃ f₀ f₁ f₂ f₃ f₄ f₅, fields expr = [f₀, f₁, f₂, f₃, f₄, f₅] ∧
    Says f₀ 0 59 cex.seconds ∧ Says f₁ 0 59 cex.minutes ∧ Says f₂ 0 23 cex.hours ∧
    Says (anyValue f₃) 1 31 cex.daysOfMonth ∧
    Says (replaceOrdinals (toUpper f₄) months) 1 12 cex.months ∧
    Says (anyValue (replaceOrdinals (toUpper f₅) days)) 0 6 cex.daysOfWeek

/-! ### The loop -/

theorem bitsetSet_eq_ok {N i : ℕ} {target t : BitVec N} (h : bitsetSet target i = .ok t) (j : ℕ) :
    t.getLsbD j = true ↔ target.getLsbD j = true ∨ j = i := by
  rw [bitsetSet] at h
  split at h
  · next hi =>
    rw [← Except.ok.inj h, BitVec.getLsbD_or, BitVec.getLsbD_twoPow, decide_eq_true hi,
      Bool.true_and, Bool.or_eq_true, decide_eq_true_eq, eq_comm (a := i)]
  · simp at h

/-- The loop sets the bits that its counter passes through. -/
theorem setBits_visits {N stop : ℕ} {delta : UInt8} {t : BitVec N} (j : ℕ) (fuel : ℕ) :
    ∀ (i : UInt8) (target : BitVec N), setBits fuel i stop delta target = .ok t →
      (t.getLsbD j = true ↔
        target.getLsbD j = true ∨ Visits 256 delta.toNat stop i.toNat j) := by
  induction fuel with
  | zero => intro i target h; simp [setBits] at h
  | succ fuel ih =>
    intro i target h
    rw [setBits] at h
    split at h
    · next hi =>
      obtain ⟨target', hset, hrest⟩ := bind_eq_ok.mp h
      have hnext : (i + delta).toNat = (i.toNat + delta.toNat) % 256 := UInt8.toNat_add i delta
      rw [ih _ _ hrest, bitsetSet_eq_ok hset, hnext, visits_iff (i := i.toNat) (by omega), or_assoc]
    · next hi =>
      rw [← Except.ok.inj h]
      refine ⟨Or.inl, fun hor => hor.resolve_right fun hvisits => hi ?_⟩
      exact_mod_cast hvisits.start_le

section

variable {N : ℕ} {minval maxval : UInt8} {s : Span}

/-- The values of a span are those that the counter passes through. -/
theorem Span.Within.visits_has (hs : s.Within minval maxval) (hmax : maxval.toNat ≤ 59) (j : ℕ) :
    Visits 256 s.step.toNat (s.last.toNat - minval.toNat) (s.first - minval).toNat j ↔
      s.Has minval (minval.toNat + j) := by
  obtain ⟨hmin, hfirst, hlast, hstep⟩ := hs
  have hlt := s.step.toNat_lt
  rw [UInt8.toNat_sub_of_le _ _ (UInt8.le_iff_toNat_le.mpr hmin), Span.Has]
  split
  · next hfits =>
    have hsub : j - (s.first.toNat - minval.toNat) = minval.toNat + j - s.first.toNat := by omega
    rw [visits_of_fits hfits, hsub]
    constructor <;> rintro ⟨h1, h2, h3⟩ <;> exact ⟨by omega, by omega, h3⟩
  · next hwraps =>
    have hsub : s.first.toNat - minval.toNat - j = s.first.toNat - (minval.toNat + j) := by omega
    rw [visits_of_wraps hlt (by omega) (by omega) (by omega), hsub]
    exact ⟨fun h => ⟨by omega, by omega, h.2⟩, fun h => ⟨by omega, h.2.2⟩⟩

/-- On a span the loop ends. -/
theorem exists_setBits (hb : FieldBounds N minval maxval) (hs : s.Within minval maxval)
    (target : BitVec N) : ∃ t,
      setBits 256 (s.first - minval) ((s.last.toNat : ℤ) - minval.toNat) s.step target = .ok t := by
  have hmax := hb.max_le
  have hsize := hb.lt_size
  have hlast := hs.le_max
  obtain ⟨t, ht, -⟩ := setBits_ok (N := N) (by omega) (by omega) hs.step_pos 256
    (s.first - minval) target (roundsLeft_le hs.min_le hs.le_max hmax)
  exact ⟨t, ht⟩

/-- **The loop sets the values of a span.** -/
theorem setBits_eq_ok (hb : FieldBounds N minval maxval) (hs : s.Within minval maxval)
    {target t : BitVec N} :
    setBits 256 (s.first - minval) ((s.last.toNat : ℤ) - minval.toNat) s.step target = .ok t ↔
      ∀ i, t.getLsbD i = true ↔ target.getLsbD i = true ∨ s.Has minval (minval.toNat + i) := by
  have hspan := hs.visits_has hb.max_le
  have hstop : ((s.last.toNat : ℤ) - minval.toNat) = ((s.last.toNat - minval.toNat : ℕ) : ℤ) := by
    have := hs.min_le
    have := hs.first_le
    omega
  have hsets : ∀ t', setBits 256 (s.first - minval) ((s.last.toNat : ℤ) - minval.toNat) s.step
      target = .ok t' → ∀ i, t'.getLsbD i = true ↔
        target.getLsbD i = true ∨ s.Has minval (minval.toNat + i) := by
    intro t' h i
    rw [hstop] at h
    rw [setBits_visits i _ _ _ h, hspan]
  refine ⟨hsets t, fun h => ?_⟩
  obtain ⟨t', ht'⟩ := exists_setBits hb hs target
  have heq : t' = t := by
    apply BitVec.eq_of_getLsbD_eq
    intro i _
    rw [Bool.eq_iff_iff, hsets t' ht' i, h i]
  rw [← heq, ht']

/-! ### Parts of a field -/

theorem partSpan_parses (field : Bytes) :
    Parses (Span.Within · minval maxval) (partSpan field minval maxval) := by
  unfold partSpan
  split
  · apply (makeRange_parses field minval maxval).bind
    intro r hr
    exact ⟨hr.1, hr.2.1, hr.2.2, Nat.one_pos⟩
  split
  · next p₀ p₁ _ =>
    apply (makeRange_parses p₀ minval maxval).bind
    intro r hr
    apply (toCronInt_parses p₁).bind
    intro delta _
    split
    · trivial
    · next hpos =>
      rw [UInt8.le_iff_toNat_le, not_le] at hpos
      refine ⟨hr.1, ?_, ?_, hpos⟩ <;> dsimp only <;> split <;> omega
  · trivial

/-- A part runs the loop on its span. -/
theorem setCronPart_eq (field : Bytes) (target : BitVec N) :
    setCronPart field target minval maxval = partSpan field minval maxval >>= fun s =>
      setBits 256 (s.first - minval) ((s.last.toNat : ℤ) - minval.toNat) s.step target := by
  unfold setCronPart partSpan
  split
  · cases makeRange field minval maxval <;> rfl
  · rcases split field 47 with _ | ⟨p₀, _ | ⟨p₁, _ | ⟨p₂, parts⟩⟩⟩
    · rfl
    · rfl
    · dsimp only
      cases makeRange p₀ minval maxval with
      | error e => rfl
      | ok r =>
        cases toCronInt p₁ with
        | error e => rfl
        | ok delta =>
          simp only [ok_bind]
          split <;> rfl
    · rfl

/-- **A part adds the values of its span.** -/
theorem setCronPart_eq_ok (hb : FieldBounds N minval maxval) {field : Bytes} {target t : BitVec N} :
    setCronPart field target minval maxval = .ok t ↔
      ∃ s, partSpan field minval maxval = .ok s ∧
        ∀ i, t.getLsbD i = true ↔
          target.getLsbD i = true ∨ s.Has minval (minval.toNat + i) := by
  rw [setCronPart_eq, bind_eq_ok]
  refine exists_congr fun s => and_congr_right fun hs => ?_
  exact setBits_eq_ok hb ((partSpan_parses field).of_ok hs)

/-! ### Fields -/

/-- The parts of a field add their values one after the other. -/
theorem foldlM_setCronPart_eq_ok (hb : FieldBounds N minval maxval) {t : BitVec N}
    (parts : List Bytes) : ∀ target : BitVec N,
      parts.foldlM (fun target field => setCronPart field target minval maxval) target = .ok t ↔
        (∀ part ∈ parts, ∃ s, partSpan part minval maxval = .ok s) ∧
          ∀ i, t.getLsbD i = true ↔ target.getLsbD i = true ∨ ∃ part ∈ parts, ∃ s,
            partSpan part minval maxval = .ok s ∧ s.Has minval (minval.toNat + i) := by
  induction parts with
  | nil =>
    intro target
    simp only [List.foldlM_nil, List.not_mem_nil, false_and, exists_false, or_false,
      false_implies, implies_true, true_and]
    constructor
    · intro h i
      rw [Except.ok.inj h]
    · intro h
      refine congrArg Except.ok (BitVec.eq_of_getLsbD_eq fun i _ => ?_)
      rw [Bool.eq_iff_iff, h i]
  | cons part parts ih =>
    intro target
    rw [List.foldlM_cons, bind_eq_ok, List.forall_mem_cons]
    constructor
    · rintro ⟨target', hpart, hrest⟩
      obtain ⟨s, hs, hbits⟩ := (setCronPart_eq_ok hb).mp hpart
      obtain ⟨hspans, hvalues⟩ := (ih target').mp hrest
      refine ⟨⟨⟨s, hs⟩, hspans⟩, fun i => ?_⟩
      rw [hvalues, hbits, or_assoc]
      simp [hs]
    · rintro ⟨⟨⟨s, hs⟩, hspans⟩, hvalues⟩
      -- the first part returns, since the loop on its span ends
      obtain ⟨target', hloop⟩ := exists_setBits hb ((partSpan_parses part).of_ok hs) target
      have hpart : setCronPart part target minval maxval = .ok target' := by
        rw [setCronPart_eq, hs, ok_bind, hloop]
      refine ⟨target', hpart, (ih target').mpr ⟨hspans, fun i => ?_⟩⟩
      obtain ⟨s', hs', hbits⟩ := (setCronPart_eq_ok hb).mp hpart
      rw [hvalues, hbits, or_assoc]
      obtain rfl := Except.ok.inj (hs.symm.trans hs')
      simp [hs]

/-- **A field is accepted** exactly when each of its parts is, and then it has the values of all
of them. -/
theorem setCronField_eq_ok (hb : FieldBounds N minval maxval) {value : Bytes} {t : BitVec N} :
    setCronField value 0 minval maxval = .ok t ↔ Says value minval maxval t := by
  have hfold := foldlM_setCronPart_eq_ok hb (t := t) (split value 44) 0
  have hzero : ∀ i, (0 : BitVec N).getLsbD i = false := fun i => BitVec.getLsbD_zero
  simp only [hzero, Bool.false_eq_true, false_or] at hfold
  unfold setCronField
  split
  · next hcomma => exact ⟨fun h => by simp [throw, throwThe, MonadExceptOf.throw] at h,
      fun h => absurd hcomma h.noComma⟩
  · next hcomma =>
    split
    · next hnil => exact ⟨fun h => by simp [throw, throwThe, MonadExceptOf.throw] at h,
        fun h => absurd hnil h.nonempty⟩
    · next hne =>
      rw [hfold]
      exact ⟨fun h => ⟨hcomma, hne, h.1, h.2⟩, fun h => ⟨h.spans, h.bits⟩⟩

end

/-! ### Expressions -/

theorem minutesBounds : FieldBounds 60 0 59 := ⟨by decide, by decide⟩

theorem hoursBounds : FieldBounds 24 0 23 := ⟨by decide, by decide⟩

theorem daysOfWeekBounds : FieldBounds 7 0 6 := ⟨by decide, by decide⟩

theorem daysOfMonthBounds : FieldBounds 31 1 31 := ⟨by decide, by decide⟩

theorem monthsBounds : FieldBounds 12 1 12 := ⟨by decide, by decide⟩

/-- **The parser returns what the text says**: it accepts the texts that say an expression, and
none else. -/
theorem makeCron_spelled (expr : Bytes) (cex : CronExpr) :
    makeCron expr = .ok cex ↔ Spelled expr cex := by
  by_cases hne : expr = []
  · subst hne
    exact ⟨fun h => by simp [makeCron, throw, throwThe, MonadExceptOf.throw] at h,
      fun h => absurd rfl h.1⟩
  · simp only [Spelled, makeCron_ok_iff hne, parseFields_ok_iff, setCronDaysOfMonth, setCronMonth,
      setCronDaysOfWeek, setCronField_eq_ok minutesBounds, setCronField_eq_ok hoursBounds,
      setCronField_eq_ok daysOfWeekBounds, setCronField_eq_ok daysOfMonthBounds,
      setCronField_eq_ok monthsBounds, ne_eq, hne, not_false_eq_true, true_and]

end Cron
end JobScheduler
