import JobScheduler.Cron.Grammar

/-!
# Cron expressions as they are written

An expression of six fields is parsed to what it means.  The gate puts a `0` in front of the
text: after a blank that is the seconds, and otherwise it is read as part of them.

## Main definitions

* `Schedule`, `Schedule.expr` — six fields, and the sets that they mean.
* `Schedule.words`, `Schedule.text` — how they are written.
* `Schedule.Fits` — every field is within its bounds.
* `Schedule.zeroed` — what the gate reads without a blank in front.
* `Gated`, `ReadsSeconds` — what the gate makes of a text, and of its seconds.
* `Schedule.ofExpr` — an expression as the values of its sets.

## Main results

* `makeCron_words` — **the parser returns what the fields mean.**
* `gated` — **the gate accepts five fields after a blank, or six without one**, and reads them.
* `accepted_iff` — **the gate lets through every expression whose fields have values.**
-/

namespace JobScheduler
namespace Cron

open CText

variable {names : List Bytes}

/-- `*`. -/
def Field.all : Field names where
  parts := [⟨.all, none⟩]
  nonempty := by simp

/-- What a field of days means: `?` is all of them. -/
def dayField (d : Option (Field names)) : Field names := d.getD Field.all

def dayText (d : Option (Field names)) : Bytes := d.elim (ascii "?") Field.text

/-- The fields of an expression. -/
structure Schedule where
  seconds : Field []
  minutes : Field []
  hours : Field []
  daysOfMonth : Option (Field [])
  months : Field Cron.months
  daysOfWeek : Option (Field days)

/-- The sets that they mean. -/
def Schedule.expr (s : Schedule) : CronExpr where
  seconds := s.seconds.set 60 0 59
  minutes := s.minutes.set 60 0 59
  hours := s.hours.set 24 0 23
  daysOfWeek := (dayField s.daysOfWeek).set 7 0 6
  daysOfMonth := (dayField s.daysOfMonth).set 31 1 31
  months := s.months.set 12 1 12

/-- All fields but the seconds. -/
def Schedule.standardWords (s : Schedule) : List Bytes :=
  [s.minutes.text, s.hours.text, dayText s.daysOfMonth, s.months.text, dayText s.daysOfWeek]

def Schedule.words (s : Schedule) : List Bytes := s.seconds.text :: s.standardWords

/-- The fields, with a blank between them. -/
def Schedule.text (s : Schedule) : Bytes := [32].intercalate s.words

/-- Every field is within its bounds. -/
structure Schedule.Fits (s : Schedule) : Prop where
  seconds : s.seconds.Fits 0 59
  minutes : s.minutes.Fits 0 59
  hours : s.hours.Fits 0 23
  daysOfMonth : (dayField s.daysOfMonth).Fits 1 31
  months : s.months.Fits 1 12
  daysOfWeek : (dayField s.daysOfWeek).Fits 0 6

instance (s : Schedule) : Decidable s.Fits :=
  decidable_of_iff (s.seconds.Fits 0 59 ∧ s.minutes.Fits 0 59 ∧ s.hours.Fits 0 23 ∧
      (dayField s.daysOfMonth).Fits 1 31 ∧ s.months.Fits 1 12 ∧ (dayField s.daysOfWeek).Fits 0 6)
    ⟨fun h => ⟨h.1, h.2.1, h.2.2.1, h.2.2.2.1, h.2.2.2.2.1, h.2.2.2.2.2⟩,
      fun h => ⟨h.seconds, h.minutes, h.hours, h.daysOfMonth, h.months, h.daysOfWeek⟩⟩

/-! ### Fields -/

theorem isNames_days : IsNames 3 days := by
  refine ⟨?_, ?_, ?_⟩
  · simp [days, ascii]
  · simp [days, ascii, isUpper]
  · decide +kernel

theorem isNames_months : IsNames 3 Cron.months := by
  refine ⟨?_, ?_, ?_⟩
  · simp [Cron.months, ascii]
  · simp [Cron.months, ascii, isUpper]
  · decide +kernel

/-- Without names a text is settled as it is. -/
theorem Field.text_eq_settled (f : Field []) : f.text = write Numeral.settled f.symbols := by
  have hwrite : (Numeral.text : Numeral [] → Bytes) = Numeral.settled := by
    funext n
    cases n with
    | digits text hne hdigits => rfl
    | name text v hname => simp at hname
  rw [Field.text, hwrite]

/-- A settled text is not the mark of a day field. -/
theorem anyValue_settled (f : Field names) :
    anyValue (write Numeral.settled f.symbols) = write Numeral.settled f.symbols := by
  rw [anyValue, if_neg]
  intro heq
  obtain h | h := mem_write_settled (heq ▸ List.mem_singleton_self 63 :
    (63 : UInt8) ∈ write Numeral.settled f.symbols)
  · exact absurd h (by decide)
  · exact absurd (f.marks 63 h) (by simp [IsMark])

section

variable {N : ℕ} {lo hi : UInt8}

theorem setCronField_text (hb : FieldBounds N lo hi) {f : Field []}
    (hf : f.Fits lo.toNat hi.toNat) :
    setCronField f.text 0 lo hi = .ok (f.set N lo.toNat hi.toNat) := by
  rw [setCronField_eq_ok hb, f.text_eq_settled]
  exact Field.says hb hf.parts

theorem setCronField_minutes {f : Field []} (hf : f.Fits 0 59) :
    setCronField f.text 0 0 59 = .ok (f.set 60 0 59) := by
  have h := setCronField_text minutesBounds (f := f)
  simp only [UInt8.reduceToNat] at h
  exact h hf

/-- A field of days, once its names have been replaced. -/
theorem says_dayField (hb : FieldBounds N lo hi) {d : Option (Field names)}
    (hd : (dayField d).Fits lo.toNat hi.toNat) :
    Says (anyValue (d.elim (ascii "?") fun f => write Numeral.settled f.symbols)) lo hi
      ((dayField d).set N lo.toNat hi.toNat) := by
  cases d with
  | none => exact Field.says hb hd.parts
  | some f =>
    rw [Option.elim_some, anyValue_settled]
    exact Field.says hb hd.parts

theorem setCronDaysOfMonth_text {d : Option (Field [])} (hd : (dayField d).Fits 1 31) :
    setCronDaysOfMonth (dayText d) 0 = .ok ((dayField d).set 31 1 31) := by
  have hsays := says_dayField daysOfMonthBounds hd
  rw [setCronDaysOfMonth, setCronField_eq_ok daysOfMonthBounds]
  cases d with
  | none => exact hsays
  | some f => rwa [dayText, Option.elim_some, f.text_eq_settled]

theorem setCronMonth_text {f : Field Cron.months} (hf : f.Fits 1 12) :
    setCronMonth f.text 0 = .ok (f.set 12 1 12) := by
  rw [setCronMonth, setCronField_eq_ok monthsBounds,
    replaceOrdinals_text isNames_months (by decide) f hf.once]
  exact Field.says monthsBounds hf.parts

theorem setCronDaysOfWeek_text {d : Option (Field days)} (hd : (dayField d).Fits 0 6) :
    setCronDaysOfWeek (dayText d) 0 = .ok ((dayField d).set 7 0 6) := by
  have hsays := says_dayField daysOfWeekBounds hd
  rw [setCronDaysOfWeek, setCronField_eq_ok daysOfWeekBounds]
  cases d with
  | none =>
    have hany : replaceOrdinals (toUpper (ascii "?")) days = ascii "?" := by decide +kernel
    rw [dayText, Option.elim_none, hany]
    exact hsays
  | some f =>
    rwa [dayText, Option.elim_some, replaceOrdinals_text isNames_days (by decide) f hd.once]

end

/-! ### Expressions -/

/-- **The fields of an expression are parsed to what they mean.** -/
theorem parseFields_words {s : Schedule} (h : s.Fits) :
    parseFields s.seconds.text s.minutes.text s.hours.text (dayText s.daysOfMonth) s.months.text
      (dayText s.daysOfWeek) = .ok s.expr := by
  rw [parseFields_ok_iff]
  refine ⟨?_, ?_, ?_, ?_, ?_, ?_⟩
  · exact setCronField_minutes h.seconds
  · exact setCronField_minutes h.minutes
  · exact setCronField_text hoursBounds h.hours
  · exact setCronDaysOfMonth_text h.daysOfMonth
  · exact setCronMonth_text h.months
  · exact setCronDaysOfWeek_text h.daysOfWeek

section

variable {len : ℕ} (hn : IsNames len names)
include hn

theorem Numeral.mem_text {n : Numeral names} {c : UInt8} (h : c ∈ n.text) :
    isDigit c = true ∨ isUpper (CText.toUpper c) = true := by
  cases n with
  | digits text hne hdigits => exact Or.inl (List.all_eq_true.mp hdigits c h)
  | name text v hname =>
    exact Or.inr (hn.upper _ (List.mem_of_getElem? hname) _ (List.mem_map_of_mem h))

variable (hpos : 0 < len)
include hpos

theorem Numeral.text_ne_nil (n : Numeral names) : n.text ≠ [] := by
  cases n with
  | digits text hne hdigits => exact hne
  | name text v hname =>
    have hlen := hn.length_eq _ (List.mem_of_getElem? hname)
    rw [toUpper, List.length_map] at hlen
    rw [Numeral.text, ← List.length_pos_iff]
    omega

/-- A field is written without blanks and NULs. -/
theorem Field.text_isWord (f : Field names) : (32 : UInt8) ∉ f.text ∧ f.text ≠ [] ∧ 0 ∉ f.text := by
  have hbyte : ∀ c ∈ f.text, isDigit c = true ∨ isUpper (CText.toUpper c) = true ∨ IsMark c := by
    intro c hc
    obtain ⟨symbol, hsymbol, hmem⟩ := List.mem_flatMap.mp hc
    cases symbol with
    | mark b =>
      obtain rfl := List.mem_singleton.mp hmem
      exact Or.inr (Or.inr (f.marks c hsymbol))
    | number n =>
      rcases Numeral.mem_text hn hmem with h | h
      · exact Or.inl h
      · exact Or.inr (Or.inl h)
  refine ⟨fun hmem => ?_, ?_, fun hmem => ?_⟩
  · exact absurd (hbyte 32 hmem) (by simp [IsMark]; decide)
  · rw [Field.text, Field.symbols, write_intercalate]
    refine intercalate_ne_nil (by simp [f.nonempty]) ?_
    simp only [List.map_map, List.forall_mem_map]
    exact fun p _ => p.write_ne_nil (Numeral.text_ne_nil hn hpos)
  · exact absurd (hbyte 0 hmem) (by simp [IsMark]; decide)

theorem dayText_isWord (d : Option (Field names)) :
    (32 : UInt8) ∉ dayText d ∧ dayText d ≠ [] ∧ 0 ∉ dayText d := by
  cases d with
  | none =>
    show (32 : UInt8) ∉ [63] ∧ ([63] : Bytes) ≠ [] ∧ (0 : UInt8) ∉ [63]
    decide
  | some f => exact f.text_isWord hn hpos

end

/-- The fields of an expression are its words. -/
theorem Schedule.isWord (s : Schedule) :
    ∀ t ∈ s.words, (32 : UInt8) ∉ t ∧ t ≠ [] ∧ 0 ∉ t := by
  have hnil : IsNames 3 ([] : List Bytes) := ⟨by simp, by simp, List.nodup_nil⟩
  have hplain : ∀ f : Field [], (32 : UInt8) ∉ f.text ∧ f.text ≠ [] ∧ 0 ∉ f.text :=
    Field.text_isWord hnil (by decide)
  rw [Schedule.words, Schedule.standardWords]
  simp only [List.forall_mem_cons, List.not_mem_nil, false_implies, implies_true, and_true]
  exact ⟨hplain _, hplain _, hplain _, dayText_isWord hnil (by decide) _,
    Field.text_isWord isNames_months (by decide) _, dayText_isWord isNames_days (by decide) _⟩

theorem Schedule.fields_text (s : Schedule) : fields s.text = s.words := by
  have hnul : (0 : UInt8) ∉ s.text := by
    intro hmem
    rcases mem_intercalate hmem with h | ⟨t, ht, h⟩
    · exact absurd h (by decide)
    · exact (s.isWord t ht).2.2 h
  rw [fields, cstr_eq_self_iff.mpr hnul, Schedule.text, words_intercalate]
  exact fun t ht => ⟨(s.isWord t ht).1, (s.isWord t ht).2.1⟩

/-- The text of an expression does not start with a blank. -/
theorem Schedule.not_startsBlank (s : Schedule) : ¬ StartsBlank s.text := by
  obtain ⟨hblank, hne, hnul⟩ := s.isWord s.seconds.text List.mem_cons_self
  obtain ⟨c, w, hw⟩ := List.exists_cons_of_ne_nil hne
  rw [hw, List.mem_cons, not_or] at hblank hnul
  have htext : cstr s.text = c :: cstr ([32].intercalate (w :: s.standardWords)) := by
    rw [Schedule.text, Schedule.words, hw, List.intercalate_cons_cons_left,
      cstr_cons_of_ne (Ne.symm hnul.1)]
  rintro (h | ⟨rest, h⟩)
  · rw [htext] at h
    exact absurd h (List.cons_ne_nil _ _)
  · rw [htext, List.cons.injEq] at h
    exact hblank.1 h.1.symm

/-- An expression, with any number of blanks between its fields. -/
theorem makeCron_of_fields {s : Schedule} (h : s.Fits) {text : Bytes} (ht : fields text = s.words) :
    makeCron text = .ok s.expr := by
  have hne : text ≠ [] := by
    rintro rfl
    exact absurd ht (List.cons_ne_nil _ _).symm
  exact (makeCron_ok_iff hne).mpr ⟨_, _, _, _, _, _, ht, parseFields_words h⟩

/-- **The parser returns what an expression means.** -/
theorem makeCron_words (s : Schedule) (h : s.Fits) : makeCron s.text = .ok s.expr ∧
    ∀ text, fields text = s.words → makeCron text = .ok s.expr :=
  ⟨makeCron_of_fields h s.fields_text, fun _ ht => makeCron_of_fields h ht⟩

/-- Every quarter of an hour from nine to six, on the weekdays of two months. -/
def officeHours : Schedule where
  seconds := ⟨[⟨.one (.digits (ascii "0") (by decide) (by decide)), none⟩], by simp⟩
  minutes := ⟨[⟨.all, some (.digits (ascii "15") (by decide) (by decide))⟩], by simp⟩
  hours := ⟨[⟨.between (.digits (ascii "09") (by decide) (by decide))
    (.digits (ascii "17") (by decide) (by decide)), none⟩], by simp⟩
  daysOfMonth := none
  months := ⟨[⟨.one (.name (ascii "JAN") 1 (by decide)), none⟩,
    ⟨.one (.name (ascii "mar") 3 (by decide)), none⟩], by simp⟩
  daysOfWeek := some ⟨[⟨.between (.name (ascii "Mon") 1 (by decide))
    (.name (ascii "Fri") 5 (by decide)), none⟩], by simp⟩

theorem makeCron_words_officeHours :
    officeHours.text = ascii "0 */15 09-17 ? JAN,mar Mon-Fri" ∧
      makeCron officeHours.text = .ok officeHours.expr :=
  ⟨by decide +kernel, (makeCron_words officeHours (by decide +kernel)).1⟩

/-! ### The gate -/

/-- A `0` in front of the digits. -/
def Numeral.zeroed : Numeral [] → Numeral []
  | .digits text _ hdigits => .digits (48 :: text) (List.cons_ne_nil 48 text)
    (by rw [List.all_cons, hdigits]; rfl)
  | .name text v hname => .name text v hname

/-- `0*` is read as the number 0. -/
def Range.zeroed : Range [] → Range []
  | .all => .one (.digits [48] (List.cons_ne_nil 48 []) rfl)
  | .one n => .one n.zeroed
  | .between a b => .between a.zeroed b

def Part.zeroed (p : Part []) : Part [] where
  range := p.range.zeroed
  every := p.every

/-- The field with a `0` on its first part. -/
def Field.zeroed (f : Field []) : Field [] where
  parts := f.parts.modifyHead Part.zeroed
  nonempty := by simpa using f.nonempty

def Schedule.zeroed (s : Schedule) : Schedule := { s with seconds := s.seconds.zeroed }

theorem Numeral.zeroed_settled (n : Numeral []) : n.zeroed.settled = 48 :: n.settled := by
  cases n with
  | digits text hne hdigits => rfl
  | name text v hname => simp at hname

theorem Numeral.zeroed_value (n : Numeral []) : n.zeroed.value = n.value := by
  cases n <;> rfl

/-- A range but `*` begins with a number. -/
theorem Range.write_zeroed {r : Range []} (h : r ≠ .all) :
    write Numeral.settled r.zeroed.symbols = 48 :: write Numeral.settled r.symbols := by
  cases r with
  | all => exact absurd rfl h
  | one n => simp [Range.zeroed, Range.symbols, n.zeroed_settled]
  | between a b => simp [Range.zeroed, Range.symbols, a.zeroed_settled]

section

variable {N : ℕ} {hi : UInt8} {p : Part []} {f : Field []}

theorem Part.zeroed_fits (h : p.Fits 0 hi.toNat) : p.zeroed.Fits 0 hi.toNat := by
  obtain ⟨range, every⟩ := p
  cases range with
  | all =>
    refine ⟨Nat.zero_le _, Nat.le_refl _, Nat.zero_le _, h.step_pos, ?_⟩
    cases every with
    | none => exact Nat.lt_of_le_of_lt (Nat.le_refl 1) (by decide)
    | some n => exact h.step_fits
  | one n =>
    have hmax : n.zeroed.value ≤ hi.toNat := n.zeroed_value.symm ▸ h.le_max
    refine ⟨Nat.zero_le _, Nat.le_refl _, hmax, h.step_pos, ?_⟩
    show n.zeroed.value - 0 + _ < 256
    rw [n.zeroed_value]
    exact h.step_fits
  | between a b =>
    have hfirst : a.zeroed.value ≤ b.value := a.zeroed_value.symm ▸ h.first_le
    refine ⟨Nat.zero_le _, hfirst, h.le_max, h.step_pos, ?_⟩
    show a.zeroed.value - 0 + _ < 256
    rw [a.zeroed_value]
    exact h.step_fits

/-- A part with a `0` on it spells what the gate reads. -/
theorem partSpan_zeroed (hmax : hi.toNat ≤ 59) (h : p.Fits 0 hi.toNat) :
    partSpan (48 :: write Numeral.settled p.symbols) 0 hi = .ok (p.zeroed.span 0 hi) := by
  by_cases hall : p.range = .all
  · -- the number of `0*` is the one in front of the asterisk
    have hnumber : toCronInt [48, 42] = .ok 0 := by decide
    have hrange : makeRange [48, 42] 0 hi = .ok (0, 0) := by
      rw [makeRange, rangeEnds, if_neg (by decide), if_pos (by decide), hnumber]
      simp [pure, Except.pure]
    obtain ⟨range, every⟩ := p
    obtain rfl : range = .all := hall
    rw [Part.write_settled_eq]
    show partSpan ([48, 42] ++ everyText every) 0 hi = _
    rw [partSpan_append (by decide) (by decide) hrange h.step_le]
    cases every with
    | none => rfl
    | some n =>
      have hlast : UInt8.ofNat hi.toNat = hi := UInt8.ofNat_toNat
      rw [Option.isSome_some, if_pos (by decide), Part.span, Part.zeroed, Part.last,
        Range.zeroed, hlast]
      rfl
  · have hfits : p.zeroed.Fits (0 : UInt8).toNat hi.toNat := Part.zeroed_fits h
    have hspan := partSpan_settled hmax hfits
    rwa [Part.write_settled_eq, Part.zeroed, Range.write_zeroed hall, List.cons_append,
      ← Part.write_settled_eq] at hspan

/-- **The seconds are read with a `0` on their first part.** -/
theorem setCronField_zeroed (hb : FieldBounds N 0 hi) (hf : f.Fits 0 hi.toNat) :
    setCronField (48 :: f.text) 0 0 hi = .ok (f.zeroed.set N 0 hi.toNat) := by
  have hnul : (0 : UInt8) ∉ 48 :: f.text := by
    rw [f.text_eq_settled, List.mem_cons]
    rintro (h | h)
    · exact absurd h (by decide)
    · rcases mem_write_settled h with h | h
      · exact absurd h (by decide)
      · exact absurd (f.marks 0 h) (by simp [IsMark])
  obtain ⟨parts, hne⟩ := f
  cases parts with
  | nil => exact absurd rfl hne
  | cons p parts =>
    -- the tokens of the field, the first of them with a 0 in front
    have hvalue : 48 :: Field.text ⟨p :: parts, hne⟩ = [44].intercalate
        ((48 :: write Numeral.settled p.symbols) ::
          parts.map fun p => write Numeral.settled p.symbols) := by
      rw [Field.text_eq_settled, Field.write_settled_eq, List.map_cons,
        List.intercalate_cons_cons_left]
    have htokens := (Field.mk (p :: parts) hne).settled_tokens
    rw [List.map_cons, List.forall_mem_cons] at htokens
    have htokens' : ∀ t ∈ (48 :: write Numeral.settled p.symbols) ::
        parts.map fun p => write Numeral.settled p.symbols, (44 : UInt8) ∉ t ∧ t ≠ [] := by
      rw [List.forall_mem_cons]
      refine ⟨⟨?_, List.cons_ne_nil _ _⟩, htokens.2⟩
      rw [List.mem_cons, not_or]
      exact ⟨by decide, htokens.1.1⟩
    have hfits := List.forall_mem_cons.mp hf.parts
    have hfirst := partSpan_zeroed hb.max_le hfits.1
    have hrest : ∀ q ∈ parts,
        partSpan (write Numeral.settled q.symbols) 0 hi = .ok (q.span 0 hi) :=
      fun q hq => partSpan_settled hb.max_le (hfits.2 q hq)
    rw [setCronField_eq_ok hb]
    refine Field.says_of_split hb ?_ ((48 :: write Numeral.settled p.symbols) ::
        parts.map fun p => write Numeral.settled p.symbols) ?_ ?_ ?_ ?_
    · exact List.forall_mem_cons.mpr ⟨Part.zeroed_fits hfits.1, hfits.2⟩
    · rw [hvalue]
      exact getLast?_intercalate_ne htokens'
    · rw [split, cstr_eq_self_iff.mpr hnul, hvalue, getlines_intercalate htokens']
    · rw [List.forall_mem_cons, List.forall_mem_map]
      exact ⟨⟨_, List.mem_cons_self, hfirst⟩,
        fun q hq => ⟨q, List.mem_cons_of_mem _ hq, hrest q hq⟩⟩
    · exact List.forall_mem_cons.mpr ⟨⟨_, List.mem_cons_self, hfirst⟩, fun q hq =>
        ⟨_, List.mem_cons_of_mem _ (List.mem_map_of_mem hq), hrest q hq⟩⟩

end

/-- The field `0`. -/
def Field.zero : Field [] where
  parts := [⟨.one (.digits [48] (List.cons_ne_nil 48 []) rfl), none⟩]
  nonempty := by simp

/-- The schedule at second 0. -/
def Schedule.atZero (s : Schedule) : Schedule := { s with seconds := Field.zero }

/-- What the gate makes of a text with the fields of `s`: with five fields it wants a blank in
front of them, and with six it wants none. -/
structure Gated (s : Schedule) (text : Bytes) : Prop where
  five : StartsBlank text → fields text = s.standardWords →
    isValidCron text = .ok none ∧ makeCron (fullExpr text) = .ok s.atZero.expr
  six : ¬ StartsBlank text → fields text = s.words →
    isValidCron text = .ok none ∧ makeCron (fullExpr text) = .ok s.zeroed.expr
  fiveRefused : ¬ StartsBlank text → fields text = s.standardWords → isValidCron text ≠ .ok none
  sixRefused : StartsBlank text → fields text = s.words → isValidCron text ≠ .ok none

theorem Schedule.atZero_fits {s : Schedule} (h : s.Fits) : s.atZero.Fits :=
  { h with seconds := show Field.zero.Fits 0 59 by decide }

/-- Six fields without a blank in front. -/
theorem makeCron_of_six {s : Schedule} (h : s.Fits) {text : Bytes} (hblank : ¬ StartsBlank text)
    (ht : fields text = s.words) : makeCron (fullExpr text) = .ok s.zeroed.expr := by
  have hseconds : setCronField (48 :: s.seconds.text) 0 0 59 =
      .ok (s.seconds.zeroed.set 60 0 59) := by
    have hzeroed := setCronField_zeroed minutesBounds (f := s.seconds)
    simp only [UInt8.reduceToNat] at hzeroed
    exact hzeroed h.seconds
  have hparse : parseFields (48 :: s.seconds.text) s.minutes.text s.hours.text
      (dayText s.daysOfMonth) s.months.text (dayText s.daysOfWeek) = .ok s.zeroed.expr := by
    have hrest := (parseFields_ok_iff.mp (parseFields_words h)).2
    rw [parseFields_ok_iff]
    simp only [Schedule.expr, Schedule.zeroed] at hrest ⊢
    exact ⟨hseconds, hrest⟩
  have hfields : fields (fullExpr text) = (48 :: s.seconds.text) :: s.standardWords := by
    rw [fields_fullExpr_of_field hblank, ht]
    rfl
  exact (makeCron_ok_iff (fullExpr_ne_nil text)).mpr ⟨_, _, _, _, _, _, hfields, hparse⟩

/-- A part that is `*` and nothing more. -/
def Part.IsStar (p : Part []) : Prop := p.range = .all ∧ p.every = none

theorem Part.zeroed_has {p : Part []} (h : ¬ p.IsStar) (hi v : ℕ) :
    p.zeroed.has 0 hi v = p.has 0 hi v := by
  rw [Bool.eq_iff_iff, Part.has_iff, Part.has_iff]
  obtain ⟨range, every⟩ := p
  cases range with
  | all =>
    cases every with
    | none => exact absurd ⟨rfl, rfl⟩ h
    | some n => rfl
  | one n =>
    cases every <;> simp [Part.zeroed, Range.zeroed, Range.first, Part.last, Range.last,
      n.zeroed_value, Part.step]
  | between a b =>
    simp [Part.zeroed, Range.zeroed, Range.first, Part.last, Range.last, a.zeroed_value, Part.step]

/-- The `0` changes no other field. -/
theorem Field.zeroed_set {f : Field []} (h : ∀ p ∈ f.parts.head?, ¬ p.IsStar) (N hi : ℕ) :
    f.zeroed.set N 0 hi = f.set N 0 hi := by
  have hhas : ∀ v, f.zeroed.has 0 hi v = f.has 0 hi v := by
    intro v
    obtain ⟨parts, hne⟩ := f
    cases parts with
    | nil => exact absurd rfl hne
    | cons p parts =>
      have hp := Part.zeroed_has (h p rfl) hi v
      simp [Field.has, Field.zeroed, hp]
  simp only [Field.set, hhas]

/-- What the seconds are once a `0` stands in front: the same, but where they begin with a part
that is `*` alone, which is no more than the second 0. -/
structure ReadsSeconds (s : Schedule) : Prop where
  same : (∀ p ∈ s.seconds.parts.head?, ¬ p.IsStar) → s.zeroed.expr = s.expr
  star : s.seconds = Field.all → s.zeroed = s.atZero

theorem readsSeconds (s : Schedule) : ReadsSeconds s := by
  constructor
  · intro h
    simp only [Schedule.expr, Schedule.zeroed, Field.zeroed_set h]
  · intro h
    rw [Schedule.zeroed, h]
    rfl

/-- **What the gate makes of an expression.** -/
theorem gated (s : Schedule) (h : s.Fits) : ReadsSeconds s ∧ ∀ text, Gated s text := by
  refine ⟨readsSeconds s, fun text => ⟨?_, ?_, ?_, ?_⟩⟩
  · intro hblank ht
    have hparse : makeCron (fullExpr text) = .ok s.atZero.expr := by
      refine makeCron_of_fields (Schedule.atZero_fits h) ?_
      rw [fields_fullExpr_of_blank hblank, ht]
      rfl
    exact ⟨isValidCron_eq_none.mpr ⟨_, hparse⟩, hparse⟩
  · intro hblank ht
    have hparse := makeCron_of_six h hblank ht
    exact ⟨isValidCron_eq_none.mpr ⟨_, hparse⟩, hparse⟩
  · intro hblank ht hvalid
    obtain ⟨f₁, f₂, f₃, f₄, f₅, f₆, hf, -⟩ := (isValidCron_of_field hblank).mp hvalid
    rw [ht] at hf
    simp [Schedule.standardWords] at hf
  · intro hblank ht hvalid
    obtain ⟨cex, hcex⟩ := isValidCron_eq_none.mp hvalid
    obtain ⟨f₀, f₁, f₂, f₃, f₄, f₅, hf, -⟩ := (makeCron_ok_iff (fullExpr_ne_nil text)).mp hcex
    rw [fields_fullExpr_of_blank hblank, ht] at hf
    simp [Schedule.words, Schedule.standardWords] at hf

/-- The office hours are accepted as they are written, with second 0. -/
theorem gated_officeHours :
    isValidCron officeHours.text = .ok none ∧ officeHours.zeroed.expr = officeHours.expr := by
  have h := gated officeHours (by decide +kernel)
  have hnumber : ∀ p ∈ officeHours.seconds.parts.head?, ¬ p.IsStar := by
    simp [officeHours, Part.IsStar]
  exact ⟨((h.2 _).six officeHours.not_startsBlank officeHours.fields_text).1, h.1.same hnumber⟩

/-! ### Every expression has a text -/

/-- The values of a set. -/
def setValues {N : ℕ} (lo : ℕ) (t : BitVec N) : List ℕ :=
  ((List.range N).filter fun i => t.getLsbD i).map (lo + ·)

def Numeral.ofNat (v : ℕ) : Numeral names :=
  .digits (decimal v) (decimal_ne_nil v) isDigit_decimal

@[simp] theorem Numeral.value_ofNat (v : ℕ) : (Numeral.ofNat v : Numeral names).value = v :=
  digitsValue_decimal v

/-- The values of a field, one after the other. -/
def Field.ofValues (vs : List ℕ) (hne : vs ≠ []) : Field names where
  parts := vs.map fun v => ⟨.one (.ofNat v), none⟩
  nonempty := by simpa using hne

section

variable {N lo hi : ℕ} {t : BitVec N}

theorem mem_setValues {v : ℕ} : v ∈ setValues lo t ↔ lo ≤ v ∧ v - lo < N ∧ t.getLsbD (v - lo) := by
  rw [setValues, List.mem_map]
  constructor
  · rintro ⟨i, hi, rfl⟩
    simpa using hi
  · rintro ⟨hlo, hlt, hbit⟩
    exact ⟨v - lo, by simp [hlt, hbit], by omega⟩

theorem setValues_ne_nil (h : t ≠ 0) : setValues lo t ≠ [] := by
  intro hnil
  refine h (BitVec.eq_of_getLsbD_eq fun i hi => ?_)
  by_contra hbit
  have hmem : lo + i ∈ setValues lo t := by
    rw [mem_setValues, Nat.add_sub_cancel_left]
    exact ⟨by omega, hi, by simpa using hbit⟩
  simp [hnil] at hmem

theorem Field.used_ofValues (vs : List ℕ) (hne : vs ≠ []) :
    (Field.ofValues vs hne : Field names).used = [] := by
  rw [Field.used, List.filter_eq_nil_iff, List.forall_mem_map]
  intro symbol hsymbol
  rcases mem_intercalate hsymbol with h | ⟨symbols, hsymbols, h⟩
  · simp [List.mem_singleton.mp h, Symbol.piece]
  · obtain ⟨p, hp, rfl⟩ := List.mem_map.mp hsymbols
    obtain ⟨v, -, rfl⟩ := List.mem_map.mp hp
    simp [List.mem_singleton.mp h, Symbol.piece, Numeral.ofNat]

theorem Field.ofValues_fits {vs : List ℕ} (hne : vs ≠ []) (hvs : ∀ v ∈ vs, lo ≤ v ∧ v ≤ hi)
    (hhi : hi < 255) : (Field.ofValues vs hne : Field names).Fits lo hi := by
  refine ⟨?_, by rw [Field.used_ofValues]; exact List.nodup_nil⟩
  rw [Field.ofValues, List.forall_mem_map]
  intro v hv
  obtain ⟨hlo, hle⟩ := hvs v hv
  constructor <;> simp only [Range.first, Range.last, Part.step, Option.elim_none,
    Numeral.value_ofNat] <;> omega

/-- A set is the meaning of its values. -/
theorem Field.ofValues_set (hne : setValues lo t ≠ []) :
    (Field.ofValues (setValues lo t) hne : Field names).set N lo hi = t := by
  refine BitVec.eq_of_getLsbD_eq fun i hi' => ?_
  rw [Bool.eq_iff_iff, Field.set, getLsbD_bitsOf, Field.has, List.any_eq_true]
  constructor
  · rintro ⟨-, p, hp, hhas⟩
    obtain ⟨v, hv, rfl⟩ := List.mem_map.mp hp
    obtain ⟨hle, hge, -⟩ := Part.has_iff.mp hhas
    simp only [Range.first, Part.last, Range.last, Numeral.value_ofNat] at hle hge
    obtain rfl : v = lo + i := by omega
    simpa using (mem_setValues.mp hv).2.2
  · intro hbit
    have hmem : lo + i ∈ setValues lo t := by
      rw [mem_setValues, Nat.add_sub_cancel_left]
      exact ⟨by omega, hi', hbit⟩
    refine ⟨hi', _, List.mem_map_of_mem hmem, Part.has_iff.mpr ?_⟩
    simp [Range.first, Part.last, Range.last]

end

/-- The expression is written as the values of its sets. -/
def Schedule.ofExpr (cex : CronExpr) (h : cex.Nonempty) : Schedule where
  seconds := .ofValues (setValues 0 cex.seconds) (setValues_ne_nil h.seconds)
  minutes := .ofValues (setValues 0 cex.minutes) (setValues_ne_nil h.minutes)
  hours := .ofValues (setValues 0 cex.hours) (setValues_ne_nil h.hours)
  daysOfMonth := some (.ofValues (setValues 1 cex.daysOfMonth) (setValues_ne_nil h.daysOfMonth))
  months := .ofValues (setValues 1 cex.months) (setValues_ne_nil h.months)
  daysOfWeek := some (.ofValues (setValues 0 cex.daysOfWeek) (setValues_ne_nil h.daysOfWeek))

section

variable {cex : CronExpr} (h : cex.Nonempty)

theorem Schedule.ofExpr_fits : (Schedule.ofExpr cex h).Fits := by
  have hvalues : ∀ {N : ℕ} (lo hi : ℕ) (t : BitVec N), lo + N ≤ hi + 1 →
      ∀ v ∈ setValues lo t, lo ≤ v ∧ v ≤ hi := by
    intro N lo hi t hN v hv
    obtain ⟨hlo, hlt, -⟩ := mem_setValues.mp hv
    omega
  refine ⟨?_, ?_, ?_, ?_, ?_, ?_⟩ <;>
    refine Field.ofValues_fits (setValues_ne_nil ?_) (hvalues _ _ _ (by decide)) (by decide)
  · exact h.seconds
  · exact h.minutes
  · exact h.hours
  · exact h.daysOfMonth
  · exact h.months
  · exact h.daysOfWeek

theorem Schedule.ofExpr_expr : (Schedule.ofExpr cex h).expr = cex := by
  obtain ⟨seconds, minutes, hours, daysOfWeek, daysOfMonth, months⟩ := cex
  simp only [Schedule.expr, Schedule.ofExpr, dayField, Option.getD_some, Field.ofValues_set]

end

/-- **The gate lets through every expression whose fields have values**, and no other. -/
theorem accepted_iff (cex : CronExpr) :
    (∃ text, isValidCron text = .ok none ∧ makeCron (fullExpr text) = .ok cex) ↔ cex.Nonempty := by
  constructor
  · rintro ⟨text, -, hparse⟩
    exact (makeCron_parses _).of_ok hparse
  · intro h
    have hparse := makeCron_of_six (Schedule.ofExpr_fits h) (Schedule.not_startsBlank _)
      (Schedule.fields_text _)
    have hnumber : ∀ p ∈ (Schedule.ofExpr cex h).seconds.parts.head?, ¬ p.IsStar := by
      intro p hp hstar
      obtain ⟨v, -, rfl⟩ := List.mem_map.mp (List.mem_of_mem_head? hp)
      exact absurd hstar.1 (by simp)
    rw [(readsSeconds _).same hnumber, Schedule.ofExpr_expr] at hparse
    exact ⟨_, isValidCron_eq_none.mpr ⟨_, hparse⟩, hparse⟩

end Cron
end JobScheduler
