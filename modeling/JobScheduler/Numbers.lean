import JobScheduler.Creation
import JobScheduler.Lib.Decimal

/-!
# The numbers in a request body

`i()` reads a number by stream extraction: the digits in front of the point, however the
literal goes on, and the nearest 64-bit integer when there are too many.

## Main definitions

* `NumberLit.decimal` — the numeral that a literal spells.
* `Validated` — the literals that `validate_job_input` has looked at.
* `ReadAtValue` — each of these is read at its value.

## Main results

* `NumberLit.text_eq` — a literal consists of the parts that make its numeral.
* `NumberLit.read_eq_value_iff` — the literals that are read at their value.
* `accepted_read_iff` — **what an accepted body must look like** for its numbers to be
  read at their value.
-/

namespace JobScheduler

open CText
open RValue (member object string number)

/-! ### What the parser lets through -/

/-- The text may follow in this state. -/
def NumberParsingState.Accepts (st : NumberParsingState) (s : Bytes) : Prop :=
  (s.foldl NumberParsingState.next st).accepts = true

/-- An exponent: its letter, a sign or none, and digits. -/
def IsExponent (s : Bytes) : Prop :=
  ∃ c sign ds, (c = 101 ∨ c = 69) ∧ (sign = [] ∨ sign = [43] ∨ sign = [45]) ∧
    ds.all isDigit = true ∧ s = c :: (sign ++ ds)

/-- What may follow the digits before the point. -/
def IsTail (s : Bytes) : Prop :=
  s = [] ∨ IsExponent s ∨
    ∃ s', s = 46 :: s' ∧ (s'.dropWhile isDigit = [] ∨ IsExponent (s'.dropWhile isDigit))

namespace NumberParsingState

/-- The parser knows two kinds of digits. -/
theorem next_of_isDigit {c : UInt8} (h : isDigit c = true) (st : NumberParsingState) :
    st.next c = st.next 48 ∨ st.next c = st.next 49 := by
  by_cases h0 : c = 48
  · exact Or.inl (by rw [h0])
  · have hnine : (decide (49 ≤ c) && decide (c ≤ 57)) = true := by
      rw [isDigit_iff] at h
      rw [Bool.and_eq_true, decide_eq_true_eq, decide_eq_true_eq, UInt8.le_iff_toNat_le,
        UInt8.le_iff_toNat_le]
      have hne : c.toNat ≠ 48 := fun heq => h0 (UInt8.toNat_inj.mp heq)
      simp only [UInt8.reduceToNat]
      omega
    right
    unfold next
    rw [if_neg h0, if_pos hnine]
    cases st <;> rfl

/-- The other characters that it knows. -/
theorem next_of_not_isDigit {c : UInt8} (h : ¬ isDigit c = true) (st : NumberParsingState) :
    c = 46 ∨ c = 45 ∨ c = 43 ∨ c = 101 ∨ c = 69 ∨ st.next c = .invalid := by
  have h0 : c ≠ 48 := by
    rintro rfl
    exact h (by decide)
  have hnine : ¬ (decide (49 ≤ c) && decide (c ≤ 57)) = true := by
    intro hnine
    apply h
    rw [Bool.and_eq_true, decide_eq_true_eq, decide_eq_true_eq, UInt8.le_iff_toNat_le,
      UInt8.le_iff_toNat_le] at hnine
    rw [isDigit_iff]
    simp only [UInt8.reduceToNat] at hnine
    omega
  unfold next
  rw [if_neg h0, if_neg hnine]
  by_cases h1 : c = 46
  · exact Or.inl h1
  by_cases h2 : c = 45
  · exact Or.inr (Or.inl h2)
  by_cases h3 : c = 43
  · exact Or.inr (Or.inr (Or.inl h3))
  by_cases h4 : c = 101
  · exact Or.inr (Or.inr (Or.inr (Or.inl h4)))
  by_cases h5 : c = 69
  · exact Or.inr (Or.inr (Or.inr (Or.inr (Or.inl h5))))
  · simp [h1, h2, h3, h4, h5]

/-- In a state in which no other character may follow, only digits may. -/
theorem next_eq_invalid {st : NumberParsingState}
    (hst : st.next 46 = .invalid ∧ st.next 45 = .invalid ∧ st.next 43 = .invalid ∧
      st.next 101 = .invalid ∧ st.next 69 = .invalid) {c : UInt8} (h : ¬ isDigit c = true) :
    st.next c = .invalid := by
  obtain ⟨hpoint, hminus, hplus, he, hE⟩ := hst
  rcases next_of_not_isDigit h st with rfl | rfl | rfl | rfl | rfl | hnext
  · exact hpoint
  · exact hminus
  · exact hplus
  · exact he
  · exact hE
  · exact hnext

theorem accepts_cons {st : NumberParsingState} {c : UInt8} {s : Bytes} :
    st.Accepts (c :: s) ↔ (st.next c).Accepts s := Iff.rfl

/-- A digit leads where both kinds of digits do. -/
theorem next_digit {st st' : NumberParsingState} (h0 : st.next 48 = st') (h1 : st.next 49 = st')
    {c : UInt8} (hc : isDigit c = true) : st.next c = st' := by
  rcases next_of_isDigit hc st with h | h
  · exact h.trans h0
  · exact h.trans h1

/-- There is no way back. -/
theorem not_accepts_invalid (s : Bytes) : ¬ invalid.Accepts s := by
  induction s with
  | nil => exact Bool.false_ne_true
  | cons c s ih =>
    have hnext : invalid.next c = invalid := by
      by_cases hc : isDigit c = true
      · exact next_digit rfl rfl hc
      · exact next_eq_invalid ⟨rfl, rfl, rfl, rfl, rfl⟩ hc
    rwa [accepts_cons, hnext]

/-- A state that digits do not leave accepts any number of them. -/
theorem accepts_dropWhile {st : NumberParsingState} (h0 : st.next 48 = st) (h1 : st.next 49 = st)
    {s : Bytes} (h : st.Accepts s) : st.Accepts (s.dropWhile isDigit) := by
  induction s with
  | nil => exact h
  | cons c s ih =>
    rw [List.dropWhile_cons]
    by_cases hc : isDigit c = true
    · rw [if_pos hc]
      rw [accepts_cons, next_digit h0 h1 hc] at h
      exact ih h
    · rw [if_neg hc]
      exact h

/-- What is left when the digits have been dropped does not start with one. -/
theorem dropWhile_eq_nil_or_cons (s : Bytes) : s.dropWhile isDigit = [] ∨
    ∃ c t, s.dropWhile isDigit = c :: t ∧ ¬ isDigit c = true := by
  cases hs : s.dropWhile isDigit with
  | nil => exact Or.inl rfl
  | cons c t =>
    refine Or.inr ⟨c, t, rfl, ?_⟩
    have hhead := List.head_dropWhile_not isDigit (l := s) (by rw [hs]; exact List.cons_ne_nil c t)
    simpa [hs] using hhead

/-- The digits of an exponent. -/
theorem accepts_digitsAfterE {s : Bytes} (h : digitsAfterE.Accepts s) : s.all isDigit = true := by
  rw [List.all_eq_true, ← List.dropWhile_eq_nil_iff]
  have hrest := accepts_dropWhile rfl rfl h
  rcases dropWhile_eq_nil_or_cons s with hnil | ⟨c, t, hs, hc⟩
  · exact hnil
  · rw [hs, accepts_cons, next_eq_invalid ⟨rfl, rfl, rfl, rfl, rfl⟩ hc] at hrest
    exact absurd hrest (not_accepts_invalid t)

/-- What follows the letter of an exponent. -/
theorem accepts_e {s : Bytes} (h : e.Accepts s) :
    ∃ sign ds, (sign = [] ∨ sign = [43] ∨ sign = [45]) ∧ ds.all isDigit = true ∧
      s = sign ++ ds := by
  cases s with
  | nil => exact absurd h Bool.false_ne_true
  | cons c s =>
    rw [accepts_cons] at h
    by_cases hc : isDigit c = true
    · rw [next_digit rfl rfl hc] at h
      refine ⟨[], c :: s, Or.inl rfl, ?_, rfl⟩
      rw [List.all_cons, hc, accepts_digitsAfterE h]
      rfl
    · rcases next_of_not_isDigit hc e with rfl | rfl | rfl | rfl | rfl | hnext
      · exact absurd h (not_accepts_invalid s)
      · exact ⟨[45], s, Or.inr (Or.inr rfl), accepts_digitsAfterE h, rfl⟩
      · exact ⟨[43], s, Or.inr (Or.inl rfl), accepts_digitsAfterE h, rfl⟩
      · exact absurd h (not_accepts_invalid s)
      · exact absurd h (not_accepts_invalid s)
      · exact absurd (hnext ▸ h) (not_accepts_invalid s)

theorem isExponent_of_accepts {c : UInt8} {s : Bytes} (hc : c = 101 ∨ c = 69) (h : e.Accepts s) :
    IsExponent (c :: s) := by
  obtain ⟨sign, ds, hsign, hds, rfl⟩ := accepts_e h
  exact ⟨c, sign, ds, hc, hsign, hds, rfl⟩

/-- What follows the point: digits, and an exponent or nothing. -/
theorem accepts_digitsAfterPoints {s : Bytes} (h : digitsAfterPoints.Accepts s) :
    s.dropWhile isDigit = [] ∨ IsExponent (s.dropWhile isDigit) := by
  have hrest := accepts_dropWhile rfl rfl h
  rcases dropWhile_eq_nil_or_cons s with hnil | ⟨c, t, hs, hc⟩
  · exact Or.inl hnil
  · rw [hs] at hrest ⊢
    rw [accepts_cons] at hrest
    rcases next_of_not_isDigit hc digitsAfterPoints with rfl | rfl | rfl | rfl | rfl | hnext
    · exact absurd hrest (not_accepts_invalid t)
    · exact absurd hrest (not_accepts_invalid t)
    · exact absurd hrest (not_accepts_invalid t)
    · exact Or.inr (isExponent_of_accepts (Or.inl rfl) hrest)
    · exact Or.inr (isExponent_of_accepts (Or.inr rfl) hrest)
    · exact absurd (hnext ▸ hrest) (not_accepts_invalid t)

/-- What follows a digit other than a first 0. -/
theorem accepts_digits {s : Bytes} (h : digits.Accepts s) : IsTail (s.dropWhile isDigit) := by
  have hrest := accepts_dropWhile rfl rfl h
  rcases dropWhile_eq_nil_or_cons s with hnil | ⟨c, t, hs, hc⟩
  · exact Or.inl hnil
  · rw [hs] at hrest ⊢
    rw [accepts_cons] at hrest
    rcases next_of_not_isDigit hc digits with rfl | rfl | rfl | rfl | rfl | hnext
    · exact Or.inr (Or.inr ⟨t, rfl, accepts_digitsAfterPoints hrest⟩)
    · exact absurd hrest (not_accepts_invalid t)
    · exact absurd hrest (not_accepts_invalid t)
    · exact Or.inr (Or.inl (isExponent_of_accepts (Or.inl rfl) hrest))
    · exact Or.inr (Or.inl (isExponent_of_accepts (Or.inr rfl) hrest))
    · exact absurd (hnext ▸ hrest) (not_accepts_invalid t)

/-- What follows a first 0: a point, or nothing. -/
theorem accepts_zeroFirst {s : Bytes} (h : zeroFirst.Accepts s) : IsTail (s.dropWhile isDigit) := by
  cases s with
  | nil => exact Or.inl rfl
  | cons c s =>
    rw [accepts_cons] at h
    by_cases hc : isDigit c = true
    · rw [next_digit rfl rfl hc] at h
      exact absurd h (not_accepts_invalid s)
    · rw [List.dropWhile_cons, if_neg hc]
      rcases next_of_not_isDigit hc zeroFirst with rfl | rfl | rfl | rfl | rfl | hnext
      · exact Or.inr (Or.inr ⟨s, rfl, accepts_digitsAfterPoints h⟩)
      · exact absurd h (not_accepts_invalid s)
      · exact absurd h (not_accepts_invalid s)
      · exact absurd h (not_accepts_invalid s)
      · exact absurd h (not_accepts_invalid s)
      · exact absurd (hnext ▸ h) (not_accepts_invalid s)

/-- The digits before the point, of which there is one at least. -/
theorem accepts_afterMinus {s : Bytes} (h : afterMinus.Accepts s) :
    s.takeWhile isDigit ≠ [] ∧ IsTail (s.dropWhile isDigit) := by
  cases s with
  | nil => exact absurd h Bool.false_ne_true
  | cons c s =>
    rw [accepts_cons] at h
    by_cases hc : isDigit c = true
    · rw [List.takeWhile_cons, if_pos hc, List.dropWhile_cons, if_pos hc]
      refine ⟨List.cons_ne_nil _ _, ?_⟩
      rcases next_of_isDigit hc afterMinus with hnext | hnext <;> rw [hnext] at h
      · exact accepts_zeroFirst h
      · exact accepts_digits h
    · rw [next_eq_invalid ⟨rfl, rfl, rfl, rfl, rfl⟩ hc] at h
      exact absurd h (not_accepts_invalid s)

/-- A minus or none, and digits. -/
theorem accepts_minus {s : Bytes} (h : minus.Accepts s) :
    (s = 45 :: (scanSign s).2 ∧ (scanSign s).1 = true ∨
      s = (scanSign s).2 ∧ (scanSign s).1 = false) ∧ afterMinus.Accepts (scanSign s).2 := by
  cases s with
  | nil => exact absurd h Bool.false_ne_true
  | cons c s =>
    by_cases hminus : c = 45
    · subst hminus
      exact ⟨Or.inl ⟨rfl, rfl⟩, h⟩
    · by_cases hplus : c = 43
      · subst hplus
        exact absurd h (not_accepts_invalid s)
      · have hscan : scanSign (c :: s) = (false, c :: s) := by
          unfold scanSign
          split
          · next heq => exact absurd (List.cons.inj heq).1 hminus
          · next heq => exact absurd (List.cons.inj heq).1 hplus
          · rfl
        rw [hscan]
        refine ⟨Or.inr ⟨rfl, rfl⟩, ?_⟩
        -- without a minus, the two states go on alike
        have hnext : minus.next c = afterMinus.next c := by
          unfold next
          rw [if_neg hminus, if_neg hminus]
        rw [accepts_cons, ← hnext]
        exact h

end NumberParsingState

/-! ### The numeral that a literal spells -/

/-- The digits after a point, and what follows them. -/
def scanFraction : Bytes → Bytes × Bytes
  | 46 :: s => (s.takeWhile isDigit, s.dropWhile isDigit)
  | s => ([], s)

/-- The value of an exponent, 0 where there is none or it has no digits. -/
def exponentValue : Bytes → ℤ
  | [] => 0
  | _ :: s => if (scanSign s).1 then -digitsValue (scanSign s).2 else digitsValue (scanSign s).2

theorem scanFraction_all (s : Bytes) : (scanFraction s).1.all isDigit = true := by
  unfold scanFraction
  split
  · exact List.all_takeWhile
  · rfl

/-- What follows the digits before the point: a point with digits or neither, and an
exponent or none. -/
theorem scanFraction_of_isTail {s : Bytes} (h : IsTail s) : ∃ point,
    (point = [46] ∨ point = [] ∧ (scanFraction s).1 = []) ∧
      ((scanFraction s).2 = [] ∨ IsExponent (scanFraction s).2) ∧
      s = point ++ ((scanFraction s).1 ++ (scanFraction s).2) := by
  rcases h with rfl | hexp | ⟨s', rfl, hexp⟩
  · exact ⟨[], Or.inr ⟨rfl, rfl⟩, Or.inl rfl, rfl⟩
  · have hscan : scanFraction s = ([], s) := by
      obtain ⟨c, sign, ds, rfl | rfl, -, -, rfl⟩ := hexp <;> rfl
    rw [hscan]
    exact ⟨[], Or.inr ⟨rfl, rfl⟩, Or.inr hexp, rfl⟩
  · refine ⟨[46], Or.inl rfl, hexp, ?_⟩
    exact congrArg (46 :: ·) List.takeWhile_append_dropWhile.symm

namespace NumberLit

/-- A minus. -/
def isNegative (lit : NumberLit) : Bool := (scanSign lit.text).1

/-- The digits before the point. -/
def intDigits (lit : NumberLit) : Bytes := (scanSign lit.text).2.takeWhile isDigit

/-- The digits after the point. -/
def fracDigits (lit : NumberLit) : Bytes :=
  (scanFraction ((scanSign lit.text).2.dropWhile isDigit)).1

/-- The exponent, with its letter. -/
def exponent (lit : NumberLit) : Bytes :=
  (scanFraction ((scanSign lit.text).2.dropWhile isDigit)).2

/-- The numeral that the literal spells. -/
def decimal (lit : NumberLit) : Decimal where
  neg := lit.isNegative
  int := digitsValue lit.intDigits
  frac := digitsValue lit.fracDigits
  places := lit.fracDigits.length
  exp := exponentValue lit.exponent
  frac_lt := digitsValue_lt (scanFraction_all _)

/-- The literal has a digit before its point. -/
theorem intDigits_ne_nil (lit : NumberLit) : lit.intDigits ≠ [] :=
  (NumberParsingState.accepts_afterMinus (NumberParsingState.accepts_minus lit.accepted).2).1

/-- **A literal consists of the parts that make its numeral**: a minus or none, digits, a
point with digits or neither, and an exponent or none. -/
theorem text_eq (lit : NumberLit) : ∃ minus point,
    (minus = [45] ∧ lit.isNegative = true ∨ minus = [] ∧ lit.isNegative = false) ∧
      (point = [46] ∨ point = [] ∧ lit.fracDigits = []) ∧
      (lit.exponent = [] ∨ IsExponent lit.exponent) ∧
      lit.text = minus ++ lit.intDigits ++ point ++ lit.fracDigits ++ lit.exponent := by
  obtain ⟨hsign, hrest⟩ := NumberParsingState.accepts_minus lit.accepted
  have hminus : ∃ minus : Bytes,
      (minus = [45] ∧ lit.isNegative = true ∨ minus = [] ∧ lit.isNegative = false) ∧
        lit.text = minus ++ (scanSign lit.text).2 := by
    rcases hsign with ⟨htext, hneg⟩ | ⟨htext, hneg⟩
    · exact ⟨[45], Or.inl ⟨rfl, hneg⟩, htext⟩
    · exact ⟨[], Or.inr ⟨rfl, hneg⟩, htext⟩
  obtain ⟨minus, hminus, htext⟩ := hminus
  obtain ⟨point, hpoint, hexp, htail⟩ :=
    scanFraction_of_isTail (NumberParsingState.accepts_afterMinus hrest).2
  refine ⟨minus, point, hminus, hpoint, hexp, ?_⟩
  calc lit.text = minus ++ (scanSign lit.text).2 := htext
    _ = minus ++ (lit.intDigits ++ (scanSign lit.text).2.dropWhile isDigit) := by
      rw [intDigits, List.takeWhile_append_dropWhile]
    _ = minus ++ (lit.intDigits ++ (point ++ (lit.fracDigits ++ lit.exponent))) := by
      rw [fracDigits, exponent, ← htail]
    _ = minus ++ lit.intDigits ++ point ++ lit.fracDigits ++ lit.exponent := by
      simp only [List.append_assoc]

/-! ### What is read -/

/-- **`i` reads the digits before the point**, or the nearest 64-bit integer. -/
theorem lexicalCast_eq (uninit : Int64) (lit : NumberLit) :
    lexicalCast uninit lit.text = clampInt64 lit.decimal.integerPart :=
  lexicalCast_of_scan (scanInteger_digits lit.intDigits_ne_nil)

/-- The literals that are read at their value: the digits before the point are an integer
in range, with no other digits than zeros after it and no exponent; or they are too many,
and the exponent takes the numeral back to the largest integer. -/
def ReadsExactly (lit : NumberLit) : Prop :=
  lit.decimal.integerPart < 2 ^ 63 ∧ lit.decimal.IsPlain ∨
    2 ^ 63 ≤ lit.decimal.integerPart ∧ lit.decimal.value = 2 ^ 63 - 1

/-- **The literals that are read at their value**, of those that are read as a number from
0 on. -/
theorem read_eq_value_iff {uninit : Int64} {lit : NumberLit}
    (h : 0 ≤ lexicalCast uninit lit.text) :
    ((lexicalCast uninit lit.text).toInt : ℚ) = lit.decimal.value ↔ lit.ReadsExactly := by
  rw [lexicalCast_eq, Int64.le_iff_toInt_le] at h
  rw [lexicalCast_eq, ReadsExactly, ← Decimal.value_eq_integerPart_iff]
  generalize lit.decimal.integerPart = n at *
  by_cases hlow : n < -2 ^ 63
  · rw [clampInt64, if_pos hlow] at h
    exact absurd h (by decide)
  by_cases hhigh : 2 ^ 63 ≤ n
  · have hclamp : (clampInt64 n).toInt = 2 ^ 63 - 1 := by
      rw [clampInt64, if_neg hlow, if_pos hhigh]
      rfl
    have hcast : ((2 ^ 63 - 1 : ℤ) : ℚ) = 2 ^ 63 - 1 := by norm_num
    rw [hclamp, hcast, eq_comm]
    constructor
    · exact fun hvalue => Or.inr ⟨hhigh, hvalue⟩
    · rintro (⟨hlt, -⟩ | ⟨-, hvalue⟩)
      · exact absurd hlt (not_lt.mpr hhigh)
      · exact hvalue
  · have hclamp : (clampInt64 n).toInt = n := by
      rw [clampInt64, if_neg hlow, if_neg hhigh]
      exact Int64.toInt_ofInt_of_le (by omega) (by omega)
    rw [hclamp, eq_comm]
    constructor
    · exact fun hvalue => Or.inl ⟨not_le.mp hhigh, hvalue⟩
    · rintro (⟨-, hvalue⟩ | ⟨hge, -⟩)
      · exact hvalue
      · exact absurd hge hhigh

end NumberLit

/-! ### What the checks let through -/

/-- The numbers that `validate_job_input` looks at, with the keys that it finds them
under. -/
inductive Validated (uninit : Int64) (members : List (Bytes × RValue)) : Bytes → NumberLit → Prop
  | type {lit : NumberLit} (hlit : member members (ascii "type") = some (number lit)) :
    Validated uninit members (ascii "type") lit
  | nextRunTime {type lit : NumberLit} (htype : member members (ascii "type") = some (number type))
    (h0 : (lexicalCast uninit type.text).toInt32 = 0)
    (hlit : member members (ascii "next_run_time") = some (number lit)) :
    Validated uninit members (ascii "next_run_time") lit
  | intervalSeconds {type lit : NumberLit}
    (htype : member members (ascii "type") = some (number type))
    (h1 : (lexicalCast uninit type.text).toInt32 = 1)
    (hlit : member members (ascii "interval_seconds") = some (number lit)) :
    Validated uninit members (ascii "interval_seconds") lit

/-- What `i` makes of each number that was looked at is the value of its literal. -/
def ReadAtValue (uninit : Int64) (members : List (Bytes × RValue)) : Prop :=
  ∀ key lit, Validated uninit members key lit →
    ∃ v, (do (← (object members).get key).i uninit) = .ok v ∧ (v.toInt : ℚ) = lit.decimal.value

/-- A number that was looked at is found under its key. -/
theorem Validated.member_eq {uninit : Int64} {members : List (Bytes × RValue)} {key : Bytes}
    {lit : NumberLit} (h : Validated uninit members key lit) :
    member members key = some (number lit) := by
  cases h with
  | type hlit => exact hlit
  | nextRunTime htype h0 hlit => exact hlit
  | intervalSeconds htype h1 hlit => exact hlit

/-- In a body that was accepted, such a number is read as one from 0 on. -/
theorem Validated.nonneg {uninit : Int64} {members : List (Bytes × RValue)} {key : Bytes}
    {lit : NumberLit} (hacc : Accepted uninit members) (h : Validated uninit members key lit) :
    0 ≤ lexicalCast uninit lit.text := by
  obtain ⟨-, ⟨type, htype, h0, h2, hs0, hs1, -⟩, -⟩ := hacc
  have hlit := h.member_eq
  cases h with
  | type =>
    rw [htype, Option.some.injEq, RValue.number.injEq] at hlit
    exact hlit ▸ h0
  | nextRunTime htype' hzero =>
    rw [htype, Option.some.injEq, RValue.number.injEq] at htype'
    obtain ⟨lit', hlit', hpos⟩ := hs0 (htype' ▸ hzero)
    rw [hlit', Option.some.injEq, RValue.number.injEq] at hlit
    exact hlit ▸ Int64.le_of_lt hpos
  | intervalSeconds htype' hone =>
    rw [htype, Option.some.injEq, RValue.number.injEq] at htype'
    obtain ⟨lit', hlit', hpos⟩ := hs1 (htype' ▸ hone)
    rw [hlit', Option.some.injEq, RValue.number.injEq] at hlit
    exact hlit ▸ Int64.le_of_lt hpos

/-- A number that was looked at, and how it is read. -/
theorem Validated.readAtValue_iff {uninit : Int64} {members : List (Bytes × RValue)}
    {key : Bytes} {lit : NumberLit} (hacc : Accepted uninit members)
    (h : Validated uninit members key lit) :
    (∃ v, (do (← (object members).get key).i uninit) = .ok v ∧
      (v.toInt : ℚ) = lit.decimal.value) ↔ lit.ReadsExactly := by
  rw [← NumberLit.read_eq_value_iff (h.nonneg hacc), RValue.get_object h.member_eq, ok_bind,
    RValue.i_number]
  simp

/-- **What an accepted body must look like** for its numbers to be read at their value. -/
theorem accepted_read_iff {uninit : Int64} {members : List (Bytes × RValue)}
    (hvalid : validateJobInput uninit (object members) = .ok none) :
    ReadAtValue uninit members ↔
      ∀ key lit, Validated uninit members key lit → lit.ReadsExactly := by
  have hacc := accepted_of_valid hvalid
  exact forall₃_congr fun key lit h => h.readAtValue_iff hacc

/-- The numbers of the one-time body are read at their value. -/
theorem accepted_read_one : ReadAtValue 0 oneTimeMembers := by
  refine (accepted_read_iff validateJobInput_one).mpr ?_
  intro key lit h
  cases h with
  | type hlit =>
    obtain rfl := RValue.number.inj (Option.some.inj hlit)
    exact Or.inl ⟨by decide, by decide⟩
  | nextRunTime htype h0 hlit =>
    obtain rfl := RValue.number.inj (Option.some.inj hlit)
    exact Or.inl ⟨by decide, by decide⟩
  | intervalSeconds htype h1 hlit =>
    obtain rfl := RValue.number.inj (Option.some.inj htype)
    exact absurd h1 (by decide)

/-- A body whose job is due at 1.5. -/
def fractionMembers : List (Bytes × RValue) :=
  oneTimeBody (.number ⟨ascii "1.5", by decide⟩)

/-- It is accepted, and its job is due at 1. -/
theorem accepted_misread :
    validateJobInput 0 (object fractionMembers) = .ok none ∧ ¬ ReadAtValue 0 fractionMembers := by
  have hvalid : validateJobInput 0 (object fractionMembers) = .ok none := by rfl
  refine ⟨hvalid, ?_⟩
  intro h
  have hlit : Validated 0 fractionMembers (ascii "next_run_time") ⟨ascii "1.5", by decide⟩ :=
    Validated.nextRunTime rfl rfl rfl
  -- its digits before the point are in range, and one after it is no zero
  have hexact := (hlit.readAtValue_iff (accepted_of_valid hvalid)).mp (h _ _ hlit)
  rcases hexact with ⟨-, hplain⟩ | ⟨hge, -⟩
  · exact absurd hplain (by decide)
  · exact absurd hge (by decide)

end JobScheduler
