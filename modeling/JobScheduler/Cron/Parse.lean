import JobScheduler.Fault

/-!
# Parsing cron expressions

`make_cron` of croncpp with its standard traits: the expression is cut at blanks
into six fields, and each field sets bits of a bitset.  A field is a list of
ranges with an optional increment; two of the fields may use names for numbers.

## Main definitions

* `toCronInt`, `makeRange`, `setBits`, `setCronField`, `setCronDaysOfWeek`,
  `setCronDaysOfMonth`, `setCronMonth` — the field parsers.
* `CronExpr`, `makeCron` — the six bitsets, and the parser.

## Main results

* `Parses.bind` — the rule for what a parser returns when it returns.
* `setBits_ok` — **the 8-bit loop ends** for every start and increment, within the
  bitset, and sets a bit.
* `makeCron_parses` — the only exception of the parser is `bad_cronexpr`, and
  every field of an accepted expression has a value.
-/

namespace JobScheduler
namespace Cron

open CText

/-- `ULONG_MAX` of the compiler the project is built with, MinGW-w64 `g++`. -/
def ulongMax : ℕ := 4294967295

/-- `std::stoul`: a leading decimal number, negated modulo `ULONG_MAX + 1` after a
minus; `none` where it throws. -/
def stoul (text : Bytes) : Option ℕ :=
  match scanInteger text with
  | none => none
  | some (neg, m) =>
    if ulongMax < m then none
    else some (if neg then (ulongMax + 1 - m) % (ulongMax + 1) else m)

/-- `to_cron_int`: the number cast to `uint8_t`. -/
def toCronInt (text : Bytes) : Except Fault UInt8 :=
  match stoul text with
  | some n => .ok (UInt8.ofNat n)
  | none => .error (.badCronexpr (ascii "stoul"))

/-- `utils::split`: the stream is built from a `const char *`. -/
def split (text : Bytes) (delimiter : UInt8) : List Bytes := getlines delimiter (cstr text)

/-- `utils::contains`. -/
def contains (text : Bytes) (ch : UInt8) : Bool := text.elem ch

/-- `utils::to_upper`. -/
def toUpper (text : Bytes) : Bytes := text.map CText.toUpper

/-- `replace_ordinals`: the first occurrence of each name becomes its index. -/
def replaceOrdinals (text : Bytes) (replacement : List Bytes) : Bytes :=
  replacement.zipIdx.foldl (fun text name => replaceFirst name.1 (decimal name.2) text) text

/-- The ends that `make_range` reads off a field. -/
def rangeEnds (field : Bytes) (minval maxval : UInt8) : Except Fault (UInt8 × UInt8) :=
  if field = ascii "*" then .ok (minval, maxval)
  else if !contains field 45 then do
    let first ← toCronInt field
    pure (first, first)
  else
    match split field 45 with
    | [p₀, p₁] => do
      let first ← toCronInt p₀
      let last ← toCronInt p₁
      pure (first, last)
    | _ => throw (.badCronexpr (ascii "Specified range requires two fields"))

/-- `make_range`. -/
def makeRange (field : Bytes) (minval maxval : UInt8) : Except Fault (UInt8 × UInt8) := do
  let (first, last) ← rangeEnds field minval maxval
  if first > maxval || last > maxval then
    throw (.badCronexpr (ascii "Specified range exceeds maximum"))
  else if first < minval || last < minval then
    throw (.badCronexpr (ascii "Specified range is less than minimum"))
  else if first > last then
    throw (.badCronexpr (ascii "Specified range start exceeds range end"))
  else pure (first, last)

/-- `std::bitset::set`. -/
def bitsetSet {N : ℕ} (target : BitVec N) (i : ℕ) : Except Fault (BitVec N) :=
  if i < N then .ok (target ||| BitVec.twoPow N i) else .error .outOfRange

/-- `for (cron_int i = start; i <= stop; i += delta) target.set(i);` with an 8-bit
`i`; `stop` is an `int`.  The loop is given as many rounds as `i` has values. -/
def setBits {N : ℕ} : ℕ → UInt8 → ℤ → UInt8 → BitVec N → Except Fault (BitVec N)
  | 0, _, _, _, _ => .error .outOfFuel
  | fuel + 1, i, stop, delta, target =>
    if (i.toNat : ℤ) ≤ stop then
      bitsetSet target i.toNat >>= setBits fuel (i + delta) stop delta
    else .ok target

/-- One comma-separated part of a field. -/
def setCronPart {N : ℕ} (field : Bytes) (target : BitVec N) (minval maxval : UInt8) :
    Except Fault (BitVec N) :=
  if !contains field 47 then do
    let (first, last) ← makeRange field minval maxval
    setBits 256 (first - minval) ((last.toNat : ℤ) - minval.toNat) 1 target
  else
    match split field 47 with
    | [p₀, p₁] => do
      let (first, last) ← makeRange p₀ minval maxval
      -- without a dash the increment runs on to the end of the field's values
      let last := if !contains p₀ 45 then maxval else last
      let delta ← toCronInt p₁
      if delta ≤ 0 then
        throw (.badCronexpr (ascii "Incrementer must be a positive value"))
      else
        setBits 256 (first - minval) ((last.toNat : ℤ) - minval.toNat) delta target
    | _ => throw (.badCronexpr (ascii "Incrementer must have two fields"))

/-- `set_cron_field`. -/
def setCronField {N : ℕ} (value : Bytes) (target : BitVec N) (minval maxval : UInt8) :
    Except Fault (BitVec N) :=
  if value.getLast? = some 44 then
    throw (.badCronexpr (ascii "Value cannot end with comma"))
  else
    match split value 44 with
    | [] => throw (.badCronexpr (ascii "Expression parsing error"))
    | fields => fields.foldlM (fun target field => setCronPart field target minval maxval) target

/-- `cron_standard_traits::DAYS`. -/
def days : List Bytes := ["SUN", "MON", "TUE", "WED", "THU", "FRI", "SAT"].map ascii

/-- `cron_standard_traits::MONTHS`. -/
def months : List Bytes :=
  ["NIL", "JAN", "FEB", "MAR", "APR", "MAY", "JUN", "JUL", "AUG", "SEP", "OCT", "NOV",
    "DEC"].map ascii

/-- A field that is `?` alone stands for `*`. -/
def anyValue (value : Bytes) : Bytes := if value = ascii "?" then ascii "*" else value

/-- `set_cron_days_of_week`. -/
def setCronDaysOfWeek (value : Bytes) (target : BitVec 7) : Except Fault (BitVec 7) :=
  setCronField (anyValue (replaceOrdinals (toUpper value) days)) target 0 6

/-- `set_cron_days_of_month`. -/
def setCronDaysOfMonth (value : Bytes) (target : BitVec 31) : Except Fault (BitVec 31) :=
  setCronField (anyValue value) target 1 31

/-- `set_cron_month`. -/
def setCronMonth (value : Bytes) (target : BitVec 12) : Except Fault (BitVec 12) :=
  setCronField (replaceOrdinals (toUpper value) months) target 1 12

/-- `cronexpr`; its copy of the text, which nothing here reads back, is left
out. -/
structure CronExpr where
  seconds : BitVec 60
  minutes : BitVec 60
  hours : BitVec 24
  daysOfWeek : BitVec 7
  daysOfMonth : BitVec 31
  months : BitVec 12
  deriving DecidableEq, Repr

/-- The fields of an expression: its words, blanks being what separates them. -/
def fields (expr : Bytes) : List Bytes := words 32 (cstr expr)

/-- The six field parsers, in the order in which `make_cron` runs them. -/
def parseFields (f₀ f₁ f₂ f₃ f₄ f₅ : Bytes) : Except Fault CronExpr := do
  let seconds ← setCronField f₀ 0 0 59
  let minutes ← setCronField f₁ 0 0 59
  let hours ← setCronField f₂ 0 0 23
  let daysOfWeek ← setCronDaysOfWeek f₅ 0
  let daysOfMonth ← setCronDaysOfMonth f₃ 0
  let months ← setCronMonth f₄ 0
  pure { seconds, minutes, hours, daysOfWeek, daysOfMonth, months }

/-- `make_cron`. -/
def makeCron (expr : Bytes) : Except Fault CronExpr :=
  if expr.isEmpty then
    throw (.badCronexpr (ascii "Invalid empty cron expression"))
  else
    match fields expr with
    | [f₀, f₁, f₂, f₃, f₄, f₅] => parseFields f₀ f₁ f₂ f₃ f₄ f₅
    | _ => throw (.badCronexpr (ascii "cron expression must have six fields"))

/-! ### What the parsers throw -/

/-- The computation returns a value that satisfies `P` or throws `bad_cronexpr`. -/
def Parses {α : Type} (P : α → Prop) : Except Fault α → Prop
  | .ok a => P a
  | .error (.badCronexpr _) => True
  | .error _ => False

theorem Parses.bind {α β : Type} {P : α → Prop} {Q : β → Prop} {x : Except Fault α}
    {f : α → Except Fault β} (hx : Parses P x) (hf : ∀ a, P a → Parses Q (f a)) :
    Parses Q (x >>= f) := by
  cases x with
  | error e => cases e <;> exact hx
  | ok a => exact hf a hx

theorem Parses.of_ok {α : Type} {P : α → Prop} {x : Except Fault α} {a : α} (hx : Parses P x)
    (h : x = .ok a) : P a := by
  subst h
  exact hx

theorem toCronInt_parses (text : Bytes) : Parses (fun _ => True) (toCronInt text) := by
  unfold toCronInt
  split <;> trivial

theorem rangeEnds_parses (field : Bytes) (minval maxval : UInt8) :
    Parses (fun _ => True) (rangeEnds field minval maxval) := by
  unfold rangeEnds
  split
  · trivial
  split
  · exact (toCronInt_parses field).bind fun _ _ => trivial
  split
  · exact (toCronInt_parses _).bind fun _ _ => (toCronInt_parses _).bind fun _ _ => trivial
  · trivial

/-- **A range that is accepted lies within the bounds of its field.** -/
theorem makeRange_parses (field : Bytes) (minval maxval : UInt8) :
    Parses (fun r => minval.toNat ≤ r.1.toNat ∧ r.1.toNat ≤ r.2.toNat ∧
      r.2.toNat ≤ maxval.toNat) (makeRange field minval maxval) := by
  apply (rangeEnds_parses field minval maxval).bind
  rintro ⟨first, last⟩ _
  dsimp only
  split
  · trivial
  next h1 =>
  split
  · trivial
  next h2 =>
  split
  · trivial
  next h3 =>
  simp only [gt_iff_lt, Bool.or_eq_true, decide_eq_true_eq, not_or, UInt8.lt_iff_toNat_lt]
    at h1 h2 h3
  show minval.toNat ≤ first.toNat ∧ first.toNat ≤ last.toNat ∧ last.toNat ≤ maxval.toNat
  omega

/-! ### The 8-bit loop

An increment of at most 196 takes an index of at most 59 past 59 before it can
wrap at 256.  A larger one wraps at once: modulo 256 it subtracts at most 59, so
the index falls until it drops below zero and lands above 196. -/

/-- The rounds left to the loop at index `i`. -/
def roundsLeft (i : UInt8) (stop : ℤ) (delta : UInt8) : ℤ :=
  if stop < i.toNat then 1
  else if delta.toNat + stop ≤ 255 then stop - i.toNat + 2
  else i.toNat + 2

theorem roundsLeft_next {i : UInt8} {stop : ℤ} {delta : UInt8} (hstop : stop ≤ 59)
    (hdelta : 0 < delta.toNat) (hi : (i.toNat : ℤ) ≤ stop) :
    roundsLeft (i + delta) stop delta < roundsLeft i stop delta := by
  have hnext : (i + delta).toNat = (i.toNat + delta.toNat) % 256 := UInt8.toNat_add i delta
  have hd : delta.toNat < 256 := delta.toNat_lt
  unfold roundsLeft
  rw [hnext]
  split <;> split <;> omega

/-- **The 8-bit loop ends**, within the bitset; it clears no bit and sets the one
it starts at. -/
theorem setBits_ok {N : ℕ} {stop : ℤ} {delta : UInt8} (hstop : stop ≤ 59) (hN : stop < N)
    (hdelta : 0 < delta.toNat) : ∀ (fuel : ℕ) (i : UInt8) (target : BitVec N),
      roundsLeft i stop delta ≤ fuel → ∃ t, setBits fuel i stop delta target = .ok t ∧
        (∀ j, target.getLsbD j = true → t.getLsbD j = true) ∧
        ((i.toNat : ℤ) ≤ stop → t.getLsbD i.toNat = true) := by
  intro fuel
  induction fuel with
  | zero =>
    -- some round is always left
    intro i target h
    unfold roundsLeft at h
    split at h
    · omega
    split at h <;> omega
  | succ fuel ih =>
    intro i target h
    by_cases hi : (i.toNat : ℤ) ≤ stop
    · have hlt := roundsLeft_next hstop hdelta hi
      obtain ⟨t, ht, hmono, -⟩ := ih (i + delta) (target ||| BitVec.twoPow N i.toNat)
        (by push_cast at h; omega)
      have hiN : i.toNat < N := by omega
      refine ⟨t, ?_, ?_, ?_⟩
      · rw [setBits, if_pos hi, bitsetSet, if_pos hiN]
        exact ht
      · intro j hj
        exact hmono j (by rw [BitVec.getLsbD_or, hj, Bool.true_or])
      · intro _
        refine hmono i.toNat ?_
        rw [BitVec.getLsbD_or, BitVec.getLsbD_twoPow]
        simp [hiN]
    · -- the index is past the end: nothing more is set
      exact ⟨target, by rw [setBits, if_neg hi], fun j hj => hj, fun h => absurd h hi⟩

/-- Once the loop has ended, more rounds change nothing. -/
theorem setBits_mono {N : ℕ} {stop : ℤ} {delta : UInt8} {t : BitVec N} {fuel fuel' : ℕ}
    {i : UInt8} {target : BitVec N} (h : setBits fuel i stop delta target = .ok t)
    (hle : fuel ≤ fuel') : setBits fuel' i stop delta target = .ok t := by
  induction fuel generalizing fuel' i target with
  | zero => simp [setBits] at h
  | succ fuel ih =>
    obtain ⟨fuel', rfl⟩ := Nat.exists_eq_add_of_le' (Nat.lt_of_lt_of_le (Nat.succ_pos fuel) hle)
    rw [setBits] at h ⊢
    split at h
    · next hi =>
      obtain ⟨target', htarget, hrest⟩ := bind_eq_ok.mp h
      rw [if_pos hi, htarget, ok_bind]
      exact ih hrest (Nat.le_of_succ_le_succ hle)
    · next hi => rw [if_neg hi, h]

section

variable {N : ℕ} {minval maxval first last delta : UInt8}

/-- On a range that was accepted the loop starts with at most as many rounds as its index
has values. -/
theorem roundsLeft_le (h1 : minval.toNat ≤ first.toNat) (h3 : last.toNat ≤ maxval.toNat)
    (hmax : maxval.toNat ≤ 59) :
    roundsLeft (first - minval) ((last.toNat : ℤ) - minval.toNat) delta ≤ (256 : ℕ) := by
  have hstart : (first - minval).toNat = first.toNat - minval.toNat :=
    UInt8.toNat_sub_of_le _ _ (UInt8.le_iff_toNat_le.mpr h1)
  unfold roundsLeft
  rw [hstart]
  split
  · omega
  split <;> omega

/-- The loop as the field parsers run it, on a range that was accepted. -/
theorem setBits_parses {target : BitVec N}
    (h1 : minval.toNat ≤ first.toNat) (h2 : first.toNat ≤ last.toNat)
    (h3 : last.toNat ≤ maxval.toNat) (hmax : maxval.toNat ≤ 59)
    (hN : maxval.toNat - minval.toNat < N) (hdelta : 0 < delta.toNat) :
    Parses (· ≠ 0)
      (setBits 256 (first - minval) ((last.toNat : ℤ) - minval.toNat) delta target) := by
  have hstart : (first - minval).toNat = first.toNat - minval.toNat :=
    UInt8.toNat_sub_of_le _ _ (UInt8.le_iff_toNat_le.mpr h1)
  obtain ⟨t, ht, -, hset⟩ := setBits_ok (N := N) (by omega) (by omega) hdelta 256
    (first - minval) target (roundsLeft_le h1 h3 hmax)
  rw [ht]
  rintro rfl
  have := hset (by omega)
  simp at this

end

/-! ### Fields -/

/-- The values of a field fit a bitset of size `N`, which has 60 bits at most. -/
structure FieldBounds (N : ℕ) (minval maxval : UInt8) : Prop where
  max_le : maxval.toNat ≤ 59
  lt_size : maxval.toNat - minval.toNat < N

/-- A part of a field adds a value. -/
theorem setCronPart_parses {N : ℕ} {minval maxval : UInt8} (hb : FieldBounds N minval maxval)
    (field : Bytes) (target : BitVec N) :
    Parses (· ≠ 0) (setCronPart field target minval maxval) := by
  unfold setCronPart
  split
  · -- a range
    apply (makeRange_parses field minval maxval).bind
    intro r hr
    exact setBits_parses hr.1 hr.2.1 hr.2.2 hb.max_le hb.lt_size (by decide)
  split
  · next p₀ p₁ _ =>
    -- a range with an increment
    apply (makeRange_parses p₀ minval maxval).bind
    intro r hr
    apply (toCronInt_parses p₁).bind
    intro delta _
    split
    · trivial
    · next hpos =>
      rw [UInt8.le_iff_toNat_le, not_le] at hpos
      have hlast : r.1.toNat ≤ (if !contains p₀ 45 then maxval else r.2).toNat ∧
          (if !contains p₀ 45 then maxval else r.2).toNat ≤ maxval.toNat := by
        split <;> omega
      exact setBits_parses hr.1 hlast.1 hlast.2 hb.max_le hb.lt_size hpos
  · trivial

/-- The parts of a field after the first: each leaves a nonempty set. -/
theorem foldlM_setCronPart_parses {N : ℕ} {minval maxval : UInt8}
    (hb : FieldBounds N minval maxval) : ∀ (parts : List Bytes) (target : BitVec N), target ≠ 0 →
      Parses (· ≠ 0)
        (parts.foldlM (fun target field => setCronPart field target minval maxval) target) := by
  intro parts
  induction parts with
  | nil => intro target h; exact h
  | cons part parts ih =>
    intro target _
    rw [List.foldlM_cons]
    exact (setCronPart_parses hb part target).bind ih

/-- **A field that is accepted has a value**, and a field that is not throws
`bad_cronexpr`. -/
theorem setCronField_parses {N : ℕ} {minval maxval : UInt8} (hb : FieldBounds N minval maxval)
    (value : Bytes) (target : BitVec N) :
    Parses (· ≠ 0) (setCronField value target minval maxval) := by
  unfold setCronField
  split
  · trivial
  split
  · trivial
  · next hne =>
    obtain ⟨part, parts, hparts⟩ := List.exists_cons_of_ne_nil hne
    rw [hparts, List.foldlM_cons]
    exact (setCronPart_parses hb part target).bind (foldlM_setCronPart_parses hb parts)

/-- Each of the six fields has a value. -/
structure CronExpr.Nonempty (cex : CronExpr) : Prop where
  seconds : cex.seconds ≠ 0
  minutes : cex.minutes ≠ 0
  hours : cex.hours ≠ 0
  daysOfWeek : cex.daysOfWeek ≠ 0
  daysOfMonth : cex.daysOfMonth ≠ 0
  months : cex.months ≠ 0

theorem parseFields_parses (f₀ f₁ f₂ f₃ f₄ f₅ : Bytes) :
    Parses CronExpr.Nonempty (parseFields f₀ f₁ f₂ f₃ f₄ f₅) := by
  unfold parseFields
  apply (setCronField_parses ⟨by decide, by decide⟩ f₀ 0).bind
  intro seconds h₀
  apply (setCronField_parses ⟨by decide, by decide⟩ f₁ 0).bind
  intro minutes h₁
  apply (setCronField_parses ⟨by decide, by decide⟩ f₂ 0).bind
  intro hours h₂
  apply (setCronField_parses ⟨by decide, by decide⟩ _ 0).bind
  intro daysOfWeek h₅
  apply (setCronField_parses ⟨by decide, by decide⟩ _ 0).bind
  intro daysOfMonth h₃
  apply (setCronField_parses ⟨by decide, by decide⟩ _ 0).bind
  intro months h₄
  exact ⟨h₀, h₁, h₂, h₅, h₃, h₄⟩

/-- **The parser is total**: it returns an expression all of whose fields have a
value, or throws `bad_cronexpr`. -/
theorem makeCron_parses (expr : Bytes) : Parses CronExpr.Nonempty (makeCron expr) := by
  unfold makeCron
  split
  · trivial
  split
  · exact parseFields_parses ..
  · trivial

end Cron
end JobScheduler
