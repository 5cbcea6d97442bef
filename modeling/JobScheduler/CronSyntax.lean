import JobScheduler.Service

/-!
# Which texts are cron expressions

`is_valid_cron` puts a `0` for the seconds in front of the five fields of its text,
without the blank that would make it a field.  A text that starts with a blank is
parsed as five fields, and any other one as six, the first of them one digit longer.

## Main definitions

* `standardExpr` — the text with a field `0` in front.
* `Denotes` — the five fields of a text denote the sets of an expression whose
  seconds are 0.
* `FiveFields` — the text is accepted exactly when it is a standard one, and then it
  is parsed as what it denotes.
* `LoopEnds`, `GateTotal` — the field loop and `is_valid_cron` end, and throw nothing.

## Main results

* `fiveFields_iff` — **the texts with which the missing blank does no harm.**
* `cron_gate` — **the cron gate is total.**
-/

namespace JobScheduler

open CText
open Cron (CronExpr makeCron makeCron_parses parseFields fields setCronField setCronDaysOfMonth
  setCronMonth setCronDaysOfWeek setBits setBits_ok setBits_mono roundsLeft_le FieldBounds)

/-- The field `0`, a blank, and the text. -/
def standardExpr (cronExpr : Bytes) : Bytes := ascii "0 " ++ cronExpr

/-- The seconds are 0, and the other sets are those of the five fields, in order. -/
def Denotes (cronExpr : Bytes) (cex : CronExpr) : Prop :=
  (∀ i, cex.seconds.getLsbD i = decide (i = 0)) ∧
    ∃ f₁ f₂ f₃ f₄ f₅, fields cronExpr = [f₁, f₂, f₃, f₄, f₅] ∧
      setCronField f₁ 0 0 59 = .ok cex.minutes ∧ setCronField f₂ 0 0 23 = .ok cex.hours ∧
      setCronDaysOfMonth f₃ 0 = .ok cex.daysOfMonth ∧ setCronMonth f₄ 0 = .ok cex.months ∧
      setCronDaysOfWeek f₅ 0 = .ok cex.daysOfWeek

/-- `is_valid_cron` accepts the text exactly when `make_cron` accepts it with a field
`0` in front, and `compute_cron_next_run` parses it as what its fields denote. -/
structure FiveFields (cronExpr : Bytes) : Prop where
  valid : isValidCron cronExpr = .ok none ↔ ∃ cex, makeCron (standardExpr cronExpr) = .ok cex
  denotes : isValidCron cronExpr = .ok none → ∀ cex, makeCron (fullExpr cronExpr) = .ok cex →
    Denotes cronExpr cex

/-- The text, as `make_cron` sees it, does not start with a field. -/
def StartsBlank (cronExpr : Bytes) : Prop := cstr cronExpr = [] ∨ ∃ s, cstr cronExpr = 32 :: s

/-- The six fields are accepted. -/
def Accepts (f₀ f₁ f₂ f₃ f₄ f₅ : Bytes) : Prop := ∃ cex, parseFields f₀ f₁ f₂ f₃ f₄ f₅ = .ok cex

/-- Neither five fields that are accepted after `0`, nor six that are accepted with a
`0` on the first of them. -/
def NoFields (cronExpr : Bytes) : Prop :=
  match fields cronExpr with
  | [f₁, f₂, f₃, f₄, f₅] => ¬ Accepts (ascii "0") f₁ f₂ f₃ f₄ f₅
  | [f₁, f₂, f₃, f₄, f₅, f₆] => ¬ Accepts (ascii "0" ++ f₁) f₂ f₃ f₄ f₅ f₆
  | _ => True

/-! ### What the texts are cut into -/

theorem fields_standardExpr (cronExpr : Bytes) :
    fields (standardExpr cronExpr) = ascii "0" :: fields cronExpr := by
  have hcstr : cstr (standardExpr cronExpr) = 48 :: 32 :: cstr cronExpr := by
    show cstr (48 :: 32 :: cronExpr) = _
    rw [cstr_cons_of_ne (by decide), cstr_cons_of_ne (by decide)]
  rw [fields, hcstr, words_cons (by decide)]
  rfl

/-- In front of a blank, `0` is a field. -/
theorem fields_fullExpr_of_blank {cronExpr : Bytes} (h : StartsBlank cronExpr) :
    fields (fullExpr cronExpr) = ascii "0" :: fields cronExpr := by
  rw [fields, cstr_fullExpr, words_cons (by decide), fields]
  rcases h with h | ⟨s, h⟩ <;> rw [h] <;> simp [ascii]

/-- In front of a field, `0` becomes its first character. -/
theorem fields_fullExpr_of_field {cronExpr : Bytes} (h : ¬ StartsBlank cronExpr) :
    fields (fullExpr cronExpr) = (fields cronExpr).modifyHead (ascii "0" ++ ·) := by
  cases hc : cstr cronExpr with
  | nil => exact absurd (Or.inl hc) h
  | cons c s =>
    have hne : c ≠ 32 := fun heq => h (Or.inr ⟨s, heq ▸ hc⟩)
    rw [fields, cstr_fullExpr, fields, hc, words_cons_cons (by decide) hne]
    rfl

/-! ### What is accepted -/

theorem makeCron_ok_iff {expr : Bytes} (hne : expr ≠ []) {cex : CronExpr} :
    makeCron expr = .ok cex ↔ ∃ f₀ f₁ f₂ f₃ f₄ f₅, fields expr = [f₀, f₁, f₂, f₃, f₄, f₅] ∧
      parseFields f₀ f₁ f₂ f₃ f₄ f₅ = .ok cex := by
  rw [makeCron, if_neg (by simpa using hne)]
  constructor
  · intro h
    split at h
    · next hfields => exact ⟨_, _, _, _, _, _, hfields, h⟩
    · simp [throw, throwThe, MonadExceptOf.throw] at h
  · rintro ⟨f₀, f₁, f₂, f₃, f₄, f₅, hfields, h⟩
    rw [hfields]
    exact h

theorem parseFields_ok_iff {f₀ f₁ f₂ f₃ f₄ f₅ : Bytes} {cex : CronExpr} :
    parseFields f₀ f₁ f₂ f₃ f₄ f₅ = .ok cex ↔
      setCronField f₀ 0 0 59 = .ok cex.seconds ∧ setCronField f₁ 0 0 59 = .ok cex.minutes ∧
      setCronField f₂ 0 0 23 = .ok cex.hours ∧ setCronDaysOfMonth f₃ 0 = .ok cex.daysOfMonth ∧
      setCronMonth f₄ 0 = .ok cex.months ∧ setCronDaysOfWeek f₅ 0 = .ok cex.daysOfWeek := by
  simp only [parseFields, bind_eq_ok]
  constructor
  · rintro ⟨seconds, h₀, minutes, h₁, hours, h₂, daysOfWeek, h₅, daysOfMonth, h₃, months, h₄, h⟩
    obtain rfl := (Except.ok.inj h).symm
    exact ⟨h₀, h₁, h₂, h₃, h₄, h₅⟩
  · rintro ⟨h₀, h₁, h₂, h₃, h₄, h₅⟩
    exact ⟨_, h₀, _, h₁, _, h₂, _, h₅, _, h₃, _, h₄, rfl⟩

/-- What follows a field `0` is parsed as what it denotes. -/
theorem denotes_of_makeCron {cronExpr expr : Bytes} {cex : CronExpr} (hne : expr ≠ [])
    (hfields : fields expr = ascii "0" :: fields cronExpr) (h : makeCron expr = .ok cex) :
    Denotes cronExpr cex := by
  obtain ⟨f₀, f₁, f₂, f₃, f₄, f₅, hf, hparse⟩ := (makeCron_ok_iff hne).mp h
  rw [hfields, List.cons.injEq] at hf
  obtain ⟨rfl, hf⟩ := hf
  obtain ⟨h₀, h₁, h₂, h₃, h₄, h₅⟩ := parseFields_ok_iff.mp hparse
  refine ⟨fun i => ?_, f₁, f₂, f₃, f₄, f₅, hf, h₁, h₂, h₃, h₄, h₅⟩
  have hzero : setCronField (ascii "0") 0 0 59 = .ok (BitVec.twoPow 60 0) := by decide +kernel
  rw [hzero, Except.ok.injEq] at h₀
  rw [← h₀, BitVec.getLsbD_twoPow]
  simp [eq_comm]

/-! ### The missing blank -/

section

variable {cronExpr : Bytes}

theorem fullExpr_ne_nil (cronExpr : Bytes) : fullExpr cronExpr ≠ [] := List.cons_ne_nil _ _

theorem standardExpr_ne_nil (cronExpr : Bytes) : standardExpr cronExpr ≠ [] := List.cons_ne_nil _ _

/-- A text that starts with a blank is parsed as it should be. -/
theorem fiveFields_of_blank (h : StartsBlank cronExpr) : FiveFields cronExpr := by
  have hfull := fields_fullExpr_of_blank h
  constructor
  · rw [isValidCron_eq_none]
    simp only [makeCron_ok_iff (fullExpr_ne_nil _), makeCron_ok_iff (standardExpr_ne_nil _), hfull,
      fields_standardExpr]
  · intro _ cex hcex
    exact denotes_of_makeCron (fullExpr_ne_nil _) hfull hcex

/-- Any other text is valid exactly when it has six fields and is accepted with a `0`
on the first of them. -/
theorem isValidCron_of_field (h : ¬ StartsBlank cronExpr) :
    isValidCron cronExpr = .ok none ↔ ∃ f₁ f₂ f₃ f₄ f₅ f₆,
      fields cronExpr = [f₁, f₂, f₃, f₄, f₅, f₆] ∧ Accepts (ascii "0" ++ f₁) f₂ f₃ f₄ f₅ f₆ := by
  rw [isValidCron_eq_none]
  simp only [makeCron_ok_iff (fullExpr_ne_nil _), fields_fullExpr_of_field h]
  constructor
  · rintro ⟨cex, f₀, f₂, f₃, f₄, f₅, f₆, hf, hparse⟩
    cases hc : fields cronExpr with
    | nil => simp [hc] at hf
    | cons f₁ rest =>
      rw [hc, List.modifyHead_cons, List.cons.injEq] at hf
      obtain ⟨rfl, rfl⟩ := hf
      exact ⟨f₁, f₂, f₃, f₄, f₅, f₆, rfl, cex, hparse⟩
  · rintro ⟨f₁, f₂, f₃, f₄, f₅, f₆, hf, cex, hparse⟩
    exact ⟨cex, _, f₂, f₃, f₄, f₅, f₆, by rw [hf, List.modifyHead_cons], hparse⟩

/-- A text is a standard one when it has five fields that are accepted after `0`. -/
theorem standardExpr_iff (cronExpr : Bytes) : (∃ cex, makeCron (standardExpr cronExpr) = .ok cex) ↔
    ∃ f₁ f₂ f₃ f₄ f₅, fields cronExpr = [f₁, f₂, f₃, f₄, f₅] ∧
      Accepts (ascii "0") f₁ f₂ f₃ f₄ f₅ := by
  simp only [makeCron_ok_iff (standardExpr_ne_nil _), fields_standardExpr]
  constructor
  · rintro ⟨cex, f₀, f₁, f₂, f₃, f₄, f₅, hf, hparse⟩
    rw [List.cons.injEq] at hf
    obtain ⟨rfl, hf⟩ := hf
    exact ⟨f₁, f₂, f₃, f₄, f₅, hf, cex, hparse⟩
  · rintro ⟨f₁, f₂, f₃, f₄, f₅, hf, cex, hparse⟩
    exact ⟨cex, _, f₁, f₂, f₃, f₄, f₅, by rw [hf], hparse⟩

/-- No text has five fields and six. -/
theorem fiveFields_of_field (h : ¬ StartsBlank cronExpr) :
    FiveFields cronExpr ↔ NoFields cronExpr := by
  constructor
  · rintro ⟨hvalid, hdenotes⟩
    rw [isValidCron_of_field h, standardExpr_iff] at hvalid
    unfold NoFields
    split
    · -- a standard text, which would have to be valid, and so have six fields
      next f₁ f₂ f₃ f₄ f₅ hf =>
      intro haccepts
      obtain ⟨g₁, g₂, g₃, g₄, g₅, g₆, hg, -⟩ := hvalid.mpr ⟨f₁, f₂, f₃, f₄, f₅, hf, haccepts⟩
      rw [hf] at hg
      simp at hg
    · -- a valid text, which would have to be a standard one
      next f₁ f₂ f₃ f₄ f₅ f₆ hf =>
      intro haccepts
      obtain ⟨g₁, g₂, g₃, g₄, g₅, hg, -⟩ := hvalid.mp ⟨f₁, f₂, f₃, f₄, f₅, f₆, hf, haccepts⟩
      rw [hf] at hg
      simp at hg
    · trivial
  · -- it is neither valid nor standard
    intro hnone
    have hinvalid : ¬ isValidCron cronExpr = .ok none := by
      rw [isValidCron_of_field h]
      rintro ⟨f₁, f₂, f₃, f₄, f₅, f₆, hf, haccepts⟩
      rw [NoFields, hf] at hnone
      exact hnone haccepts
    refine ⟨⟨fun hv => absurd hv hinvalid, fun hs => ?_⟩, fun hv => absurd hv hinvalid⟩
    obtain ⟨f₁, f₂, f₃, f₄, f₅, hf, haccepts⟩ := (standardExpr_iff cronExpr).mp hs
    rw [NoFields, hf] at hnone
    exact absurd haccepts hnone

/-- **The missing blank does no harm** exactly to texts that start with a blank, and to
those that are accepted neither with it nor without. -/
theorem fiveFields_iff (cronExpr : Bytes) :
    FiveFields cronExpr ↔ StartsBlank cronExpr ∨ NoFields cronExpr := by
  by_cases h : StartsBlank cronExpr
  · exact ⟨fun _ => Or.inl h, fun _ => fiveFields_of_blank h⟩
  · rw [fiveFields_of_field h]
    exact ⟨Or.inr, fun hor => hor.resolve_left h⟩

end

/-- Every minute, as five fields, is refused. -/
theorem everyMinute_refused : ¬ FiveFields (ascii "* * * * *") := by
  rintro ⟨hvalid, -⟩
  have hstandard : ∃ cex, makeCron (standardExpr (ascii "* * * * *")) = .ok cex := by
    refine ⟨⟨1, BitVec.allOnes 60, BitVec.allOnes 24, BitVec.allOnes 7, BitVec.allOnes 31,
      BitVec.allOnes 12⟩, ?_⟩
    decide +kernel
  have hrefused : isValidCron (ascii "* * * * *") ≠ .ok none := by decide +kernel
  exact hrefused (hvalid.mpr hstandard)

/-! ### The gate -/

/-- For every range of the field that is accepted and every increment but 0, which is refused
before, the loop ends: it has one result, whatever number of rounds it is allowed from 256
on. -/
def LoopEnds (N : ℕ) (minval maxval : UInt8) : Prop :=
  ∀ (first last delta : UInt8) (target : BitVec N), minval ≤ first → first ≤ last →
    last ≤ maxval → delta ≠ 0 → ∃ t, ∀ fuel, 256 ≤ fuel →
      setBits fuel (first - minval) ((last.toNat : ℤ) - minval.toNat) delta target = .ok t

/-- `is_valid_cron` returns, since the parser throws nothing that it does not catch; and
where it returns true, each field of the expression that is parsed has a value. -/
structure GateTotal (cronExpr : Bytes) : Prop where
  returns : ∃ r, isValidCron cronExpr = .ok r
  throws : ∀ f, makeCron (fullExpr cronExpr) = .error f → ∃ what, f = .badCronexpr what
  nonempty : isValidCron cronExpr = .ok none →
    ∃ cex, makeCron (fullExpr cronExpr) = .ok cex ∧ cex.Nonempty

theorem loopEnds {N : ℕ} {minval maxval : UInt8} (hb : FieldBounds N minval maxval) :
    LoopEnds N minval maxval := by
  intro first last delta target h1 h2 h3 hdelta
  rw [UInt8.le_iff_toNat_le] at h1 h2 h3
  have hpos : 0 < delta.toNat := by
    rw [Nat.pos_iff_ne_zero]
    intro h
    exact hdelta (UInt8.toNat_inj.mp h)
  have hmax := hb.max_le
  have hsize := hb.lt_size
  obtain ⟨t, ht, -⟩ := setBits_ok (N := N) (by omega) (by omega) hpos 256 (first - minval) target
    (roundsLeft_le h1 h3 hmax)
  exact ⟨t, fun fuel hfuel => setBits_mono ht hfuel⟩

theorem gateTotal (cronExpr : Bytes) : GateTotal cronExpr := by
  have hparses := makeCron_parses (fullExpr cronExpr)
  refine ⟨isValidCron_ok cronExpr, ?_, ?_⟩
  · intro f hf
    rw [hf] at hparses
    cases f with
    | badCronexpr what => exact ⟨what, rfl⟩
    | _ => exact absurd hparses id
  · intro hvalid
    obtain ⟨cex, hcex⟩ := isValidCron_eq_none.mp hvalid
    exact ⟨cex, hcex, hparses.of_ok hcex⟩

/-- **The cron gate is total**, on every text, and the loop ends in each of the fields. -/
theorem cron_gate : (∀ cronExpr, GateTotal cronExpr) ∧ LoopEnds 60 0 59 ∧ LoopEnds 24 0 23 ∧
    LoopEnds 7 0 6 ∧ LoopEnds 31 1 31 ∧ LoopEnds 12 1 12 := by
  refine ⟨gateTotal, ?_, ?_, ?_, ?_, ?_⟩ <;> apply loopEnds <;> constructor <;> decide

end JobScheduler
