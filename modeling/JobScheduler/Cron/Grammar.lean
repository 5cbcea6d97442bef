import JobScheduler.Cron.Fields
import JobScheduler.Lib.Spelling

/-!
# The language of cron fields

A field is a list of parts: all values, one, or those between two, and every so many of them.
A number is written in digits, or as the name of a month or of a weekday.  A field of this
language has a meaning, and the field parsers return it.

## Main definitions

* `Numeral`, `Range`, `Part`, `Field` — the language.
* `Field.has`, `Field.set` — what it means.
* `Field.text`, `Field.symbols` — how it is written.
* `Field.Fits` — the numbers are within the bounds of the field, no name is used twice, and no
  increment is so wide that the counter of the loop wraps.

## Main results

* `replaceOrdinals_text` — **the names of a field are replaced** by what they stand for.
* `partSpan_settled` — a part spells the span that it means.
* `Field.says` — **a field says what it means.**
-/

namespace JobScheduler
namespace Cron

open CText

/-! ### The language -/

/-- A number of a field: digits, or in capitals or not the name of an index. -/
inductive Numeral (names : List Bytes)
  | digits (text : Bytes) (hne : text ≠ []) (hdigits : text.all isDigit = true)
  | name (text : Bytes) (v : ℕ) (hname : names[v]? = some (toUpper text))

/-- `*`, `n` or `a-b`. -/
inductive Range (names : List Bytes)
  | all
  | one (n : Numeral names)
  | between (a b : Numeral names)

/-- A range, and what follows its slash. -/
structure Part (names : List Bytes) where
  range : Range names
  every : Option (Numeral names)

/-- The parts that commas separate. -/
structure Field (names : List Bytes) where
  parts : List (Part names)
  nonempty : parts ≠ []

variable {names : List Bytes}

/-! ### Its meaning -/

def Numeral.value : Numeral names → ℕ
  | .digits text _ _ => digitsValue text
  | .name _ v _ => v

def Range.first (lo : ℕ) : Range names → ℕ
  | .all => lo
  | .one n => n.value
  | .between a _ => a.value

def Range.last (hi : ℕ) : Range names → ℕ
  | .all => hi
  | .one n => n.value
  | .between _ b => b.value

/-- Every so many from one value on, the values run to the end of the field. -/
def Part.last (hi : ℕ) (p : Part names) : ℕ :=
  match p.range, p.every with
  | .one _, some _ => hi
  | range, _ => range.last hi

def Part.step (p : Part names) : ℕ := p.every.elim 1 Numeral.value

def Part.has (lo hi v : ℕ) (p : Part names) : Bool :=
  p.range.first lo ≤ v && v ≤ p.last hi && decide (p.step ∣ v - p.range.first lo)

theorem Part.has_iff {lo hi v : ℕ} {p : Part names} : p.has lo hi v = true ↔
    p.range.first lo ≤ v ∧ v ≤ p.last hi ∧ p.step ∣ v - p.range.first lo := by
  simp [Part.has, and_assoc]

/-- The value is one of some part. -/
def Field.has (lo hi v : ℕ) (f : Field names) : Bool := f.parts.any (·.has lo hi v)

/-- The indices below `N` with the property. -/
def bitsOf (N : ℕ) (p : ℕ → Bool) : BitVec N :=
  (List.range N).foldl (fun t i => if p i then t ||| BitVec.twoPow N i else t) 0

/-- Its values, as a bitset. -/
def Field.set (N lo hi : ℕ) (f : Field names) : BitVec N := bitsOf N fun i => f.has lo hi (lo + i)

/-! ### How it is written -/

inductive Symbol (names : List Bytes)
  | mark (c : UInt8)
  | number (n : Numeral names)

def Range.symbols : Range names → List (Symbol names)
  | .all => [.mark 42]
  | .one n => [.number n]
  | .between a b => [.number a, .mark 45, .number b]

def Part.symbols (p : Part names) : List (Symbol names) :=
  match p.every with
  | none => p.range.symbols
  | some n => p.range.symbols ++ [.mark 47, .number n]

def Field.symbols (f : Field names) : List (Symbol names) :=
  [.mark 44].intercalate (f.parts.map Part.symbols)

def Numeral.text : Numeral names → Bytes
  | .digits text _ _ => text
  | .name text _ _ => text

/-- The numeral once the names have been replaced. -/
def Numeral.settled : Numeral names → Bytes
  | .digits text _ _ => text
  | .name _ v _ => decimal v

/-- Symbols, with their numerals written in one way or the other. -/
def write (numeral : Numeral names → Bytes) (symbols : List (Symbol names)) : Bytes :=
  symbols.flatMap fun
    | .mark c => [c]
    | .number n => numeral n

def Field.text (f : Field names) : Bytes := write Numeral.text f.symbols

def Symbol.piece : Symbol names → Piece
  | .mark c => .plain [c]
  | .number (.digits text _ _) => .plain text
  | .number (.name _ v _) => .name v

/-- The names that a field uses. -/
def Field.used (f : Field names) : List Piece :=
  (f.symbols.map Symbol.piece).filter fun
    | .plain _ => false
    | .name _ => true

/-! ### What fits -/

/-- The values are within the bounds of the field, in order, and the 8-bit counter does not wrap
with its first step: it never does then. -/
structure Part.Fits (lo hi : ℕ) (p : Part names) : Prop where
  min_le : lo ≤ p.range.first lo
  first_le : p.range.first lo ≤ p.range.last hi
  le_max : p.range.last hi ≤ hi
  step_pos : 0 < p.step
  step_fits : p.range.first lo - lo + p.step < 256

instance (lo hi : ℕ) (p : Part names) : Decidable (p.Fits lo hi) :=
  decidable_of_iff (lo ≤ p.range.first lo ∧ p.range.first lo ≤ p.range.last hi ∧
      p.range.last hi ≤ hi ∧ 0 < p.step ∧ p.range.first lo - lo + p.step < 256)
    ⟨fun h => ⟨h.1, h.2.1, h.2.2.1, h.2.2.2.1, h.2.2.2.2⟩,
      fun h => ⟨h.min_le, h.first_le, h.le_max, h.step_pos, h.step_fits⟩⟩

structure Field.Fits (lo hi : ℕ) (f : Field names) : Prop where
  parts : ∀ p ∈ f.parts, p.Fits lo hi
  once : f.used.Nodup

instance (lo hi : ℕ) (f : Field names) : Decidable (f.Fits lo hi) :=
  decidable_of_iff ((∀ p ∈ f.parts, p.Fits lo hi) ∧ f.used.Nodup)
    ⟨fun h => ⟨h.1, h.2⟩, fun h => ⟨h.parts, h.once⟩⟩

theorem getLsbD_bitsOf {N : ℕ} {p : ℕ → Bool} (i : ℕ) :
    (bitsOf N p).getLsbD i = true ↔ i < N ∧ p i = true := by
  have hfold : ∀ (l : List ℕ) (t : BitVec N),
      (l.foldl (fun t i => if p i then t ||| BitVec.twoPow N i else t) t).getLsbD i = true ↔
        t.getLsbD i = true ∨ (i ∈ l ∧ i < N ∧ p i = true) := by
    intro l
    induction l with
    | nil => intro t; simp
    | cons j l ih =>
      intro t
      rw [List.foldl_cons, ih, List.mem_cons]
      by_cases hj : p j = true
      · by_cases heq : i = j
        · subst heq
          simp only [hj, if_true, BitVec.getLsbD_or, BitVec.getLsbD_twoPow, decide_true,
            Bool.and_true, Bool.or_eq_true, decide_eq_true_eq, true_or, true_and, and_true]
          tauto
        · simp [hj, heq, Ne.symm heq, BitVec.getLsbD_twoPow]
      · by_cases heq : i = j
        · subst heq
          simp [hj]
        · simp [hj, heq]
  rw [bitsOf, hfold]
  simp

/-! ### Numerals -/

section

variable (n : Numeral names)

/-- A numeral is digits once the names have been replaced. -/
theorem Numeral.settled_digits :
    n.settled ≠ [] ∧ n.settled.all isDigit = true ∧ digitsValue n.settled = n.value := by
  cases n with
  | digits text hne hdigits => exact ⟨hne, hdigits, rfl⟩
  | name text v hname => exact ⟨decimal_ne_nil v, isDigit_decimal, digitsValue_decimal v⟩

theorem Numeral.toCronInt_settled (h : n.value ≤ 255) :
    toCronInt n.settled = .ok (UInt8.ofNat n.value) := by
  obtain ⟨hne, hdigits, hvalue⟩ := n.settled_digits
  have hsign := scanSign_digits hne hdigits
  have hscan := scanInteger_signed (s := n.settled) (by rwa [hsign]) (by rwa [hsign])
  rw [hsign, hvalue] at hscan
  have hmax : ¬ ulongMax < n.value := by
    have : ulongMax = 4294967295 := rfl
    omega
  rw [toCronInt, stoul, hscan]
  simp [hmax]

end

/-! ### Names -/

/-- A mark of the language. -/
def IsMark (c : UInt8) : Prop := c = 42 ∨ c = 44 ∨ c = 45 ∨ c = 47

/-- The marks among symbols are those of the language. -/
def Marks (symbols : List (Symbol names)) : Prop := ∀ c, .mark c ∈ symbols → IsMark c

theorem IsMark.isUpper {c : UInt8} (h : IsMark c) : isUpper c = false := by
  rcases h with rfl | rfl | rfl | rfl <;> rfl

theorem IsMark.toUpper {c : UInt8} (h : IsMark c) : CText.toUpper c = c := by
  rcases h with rfl | rfl | rfl | rfl <;> rfl

section

variable {numeral : Numeral names → Bytes} {symbols : List (Symbol names)}

@[simp] theorem write_nil : write numeral [] = [] := rfl

@[simp] theorem write_mark (c : UInt8) :
    write numeral (.mark c :: symbols) = c :: write numeral symbols := rfl

@[simp] theorem write_number (n : Numeral names) :
    write numeral (.number n :: symbols) = numeral n ++ write numeral symbols := rfl

@[simp] theorem write_append (rest : List (Symbol names)) :
    write numeral (symbols ++ rest) = write numeral symbols ++ write numeral rest :=
  List.flatMap_append

end

theorem toUpper_digits {ds : Bytes} (h : ds.all isDigit = true) : toUpper ds = ds := by
  have hdigit : ∀ c ∈ ds, CText.toUpper c = c := by
    intro c hc
    have hc' := isDigit_iff.mp (List.all_eq_true.mp h c hc)
    rw [CText.toUpper, if_neg]
    rw [Bool.and_eq_true, decide_eq_true_eq, UInt8.le_iff_toNat_le]
    rintro ⟨hle, -⟩
    have : 97 ≤ c.toNat := hle
    omega
  rw [toUpper, List.map_congr_left hdigit, List.map_id']

theorem toUpper_append (s t : Bytes) : toUpper (s ++ t) = toUpper s ++ toUpper t :=
  List.map_append

/-- Before the names are replaced, the text in capitals spells the pieces. -/
theorem toUpper_write {symbols : List (Symbol names)} (h : Marks symbols) :
    toUpper (write Numeral.text symbols) = spell names 0 (symbols.map Symbol.piece) := by
  induction symbols with
  | nil => rfl
  | cons symbol symbols ih =>
    have hrest := ih fun c hc => h c (List.mem_cons_of_mem _ hc)
    cases symbol with
    | mark c =>
      have hc := (h c List.mem_cons_self).toUpper
      rw [write_mark, List.map_cons, Symbol.piece, spell_plain, ← hrest, toUpper, List.map_cons, hc]
      rfl
    | number n =>
      rw [write_number, toUpper_append, hrest, List.map_cons]
      cases n with
      | digits text hne hdigits =>
        rw [Symbol.piece, spell_plain, Numeral.text, toUpper_digits hdigits]
      | name text v hname =>
        rw [Symbol.piece, spell_name, Numeral.text, Piece.text, if_neg (Nat.not_lt_zero v),
          List.getD_eq_getElem?_getD, hname, Option.getD_some]

/-- After, it spells them settled. -/
theorem write_settled (symbols : List (Symbol names)) :
    write Numeral.settled symbols = spell names names.length (symbols.map Symbol.piece) := by
  induction symbols with
  | nil => rfl
  | cons symbol symbols ih =>
    cases symbol with
    | mark c => rw [write_mark, ih, List.map_cons, Symbol.piece, spell_plain]; rfl
    | number n =>
      rw [write_number, ih, List.map_cons]
      cases n with
      | digits text hne hdigits => rw [Symbol.piece, spell_plain, Numeral.settled]
      | name text v hname =>
        have hv : v < names.length := (List.getElem?_eq_some_iff.mp hname).1
        rw [Symbol.piece, spell_name, Numeral.settled, Piece.text, if_pos hv]

/-! ### Names stand apart -/

section

variable {ps : List Piece} (hps : Apart names ps)
include hps

theorem apart_mark {c : UInt8} (hc : IsMark c) :
    Apart names (Symbol.piece (.mark c : Symbol names) :: ps) := by
  refine Apart.plain (List.cons_ne_nil c []) (fun b hb => ?_) hps
  rw [List.mem_singleton.mp hb]
  exact hc.isUpper

variable (hhead : ∀ w, ps.head? ≠ some (.name w))
include hhead

theorem apart_number (n : Numeral names) : Apart names ((Symbol.number n).piece :: ps) := by
  cases n with
  | digits text hne hdigits =>
    exact Apart.plain hne (fun c hc =>
      isUpper_eq_false_of_isDigit (List.all_eq_true.mp hdigits c hc)) hps
  | name text v hname => exact Apart.name (List.getElem?_eq_some_iff.mp hname).1 hhead hps

theorem Range.apart (r : Range names) :
    Apart names (r.symbols.map Symbol.piece ++ ps) := by
  cases r with
  | all => exact apart_mark hps (Or.inl rfl)
  | one n => exact apart_number hps hhead n
  | between a b =>
    exact apart_number (apart_mark (apart_number hps hhead b) (by simp [IsMark]))
      (by simp [Symbol.piece]) a

theorem Part.apart (p : Part names) : Apart names (p.symbols.map Symbol.piece ++ ps) := by
  rw [Part.symbols]
  cases p.every with
  | none => exact Range.apart hps hhead p.range
  | some n =>
    rw [List.map_append, List.append_assoc]
    exact Range.apart (apart_mark (apart_number hps hhead n) (by simp [IsMark]))
      (by simp [Symbol.piece]) p.range

end

theorem Field.apart (f : Field names) : Apart names (f.symbols.map Symbol.piece) := by
  rw [Field.symbols]
  induction f.parts with
  | nil => exact Apart.nil
  | cons p parts ih =>
    cases parts with
    | nil =>
      have hlast := p.apart Apart.nil (by simp)
      rw [List.append_nil] at hlast
      rwa [List.map_singleton, List.intercalate_singleton]
    | cons q parts =>
      rw [List.map_cons, List.map_cons, List.intercalate_cons_cons, List.append_assoc,
        List.map_append, ← List.map_cons]
      exact p.apart (apart_mark ih (by simp [IsMark])) (by simp [Symbol.piece])

theorem Range.marks {r : Range names} {c : UInt8} (h : .mark c ∈ r.symbols) : c = 42 ∨ c = 45 := by
  cases r <;> simp [Range.symbols] at h <;> simp [h]

theorem Part.marks {p : Part names} {c : UInt8} (h : .mark c ∈ p.symbols) :
    c = 42 ∨ c = 45 ∨ c = 47 := by
  rw [Part.symbols] at h
  split at h
  · rcases Range.marks h with rfl | rfl <;> simp
  · rw [List.mem_append] at h
    rcases h with h | h
    · rcases Range.marks h with rfl | rfl <;> simp
    · simp only [List.mem_cons, Symbol.mark.injEq, reduceCtorEq, List.not_mem_nil, or_self,
        or_false] at h
      simp [h]

theorem Field.marks (f : Field names) : Marks f.symbols := by
  intro c hc
  rcases mem_intercalate hc with hsep | ⟨symbols, hp, hmem⟩
  · simp only [List.mem_singleton, Symbol.mark.injEq] at hsep
    simp [IsMark, hsep]
  · obtain ⟨p, -, rfl⟩ := List.mem_map.mp hp
    rcases Part.marks hmem with rfl | rfl | rfl <;> simp [IsMark]

/-- **The names of a field are replaced** by what they stand for. -/
theorem replaceOrdinals_text {len : ℕ} (hn : IsNames len names) (hpos : 0 < len) (f : Field names)
    (honce : f.used.Nodup) :
    replaceOrdinals (toUpper f.text) names = write Numeral.settled f.symbols := by
  have hcount : ∀ v, (f.symbols.map Symbol.piece).count (.name v) ≤ 1 := by
    intro v
    have h := List.nodup_iff_count_le_one.mp honce (.name v)
    rwa [Field.used, List.count_filter rfl] at h
  rw [Field.text, toUpper_write f.marks, replaceOrdinals, foldl_replaceFirst hn hpos f.apart hcount,
    ← write_settled]

/-! ### Parts -/

theorem toNat_ofNat_of_le {n : ℕ} (h : n ≤ 255) : (UInt8.ofNat n).toNat = n := by
  rw [UInt8.toNat_ofNat']
  omega

theorem contains_eq_true {text : Bytes} {ch : UInt8} : contains text ch = true ↔ ch ∈ text := by
  rw [contains, List.elem_iff]

/-- A settled text is digits and marks. -/
theorem mem_write_settled {symbols : List (Symbol names)} {c : UInt8}
    (h : c ∈ write Numeral.settled symbols) : isDigit c = true ∨ .mark c ∈ symbols := by
  obtain ⟨symbol, hsymbol, hc⟩ := List.mem_flatMap.mp h
  cases symbol with
  | mark b =>
    obtain rfl := List.mem_singleton.mp hc
    exact Or.inr hsymbol
  | number n => exact Or.inl (List.all_eq_true.mp n.settled_digits.2.1 c hc)

/-- No NUL cuts it. -/
theorem split_settled {symbols : List (Symbol names)} (h : Marks symbols) (d : UInt8) :
    split (write Numeral.settled symbols) d = getlines d (write Numeral.settled symbols) := by
  have hnul : (0 : UInt8) ∉ write Numeral.settled symbols := by
    intro hmem
    rcases mem_write_settled hmem with hdigit | hmark
    · exact absurd hdigit (by decide)
    · exact absurd (h 0 hmark) (by simp [IsMark])
  rw [split, cstr_eq_self_iff.mpr hnul]

theorem Numeral.notMem_settled (n : Numeral names) {c : UInt8} (hc : isDigit c = false) :
    c ∉ n.settled := by
  intro hmem
  have hdigit := List.all_eq_true.mp n.settled_digits.2.1 c hmem
  rw [hc] at hdigit
  exact absurd hdigit (by decide)

section

variable {lo hi : UInt8}

/-- The ends of a range are read as they are meant. -/
theorem rangeEnds_settled (r : Range names) (hfirst : r.first lo.toNat ≤ 255)
    (hlast : r.last hi.toNat ≤ 255) :
    rangeEnds (write Numeral.settled r.symbols) lo hi =
      .ok (UInt8.ofNat (r.first lo.toNat), UInt8.ofNat (r.last hi.toNat)) := by
  cases r with
  | all =>
    rw [Range.first, Range.last, UInt8.ofNat_toNat, UInt8.ofNat_toNat, rangeEnds]
    exact if_pos rfl
  | one n =>
    have hdash := n.notMem_settled (c := 45) rfl
    have hstar : n.settled ≠ ascii "*" := by
      intro heq
      exact n.notMem_settled (c := 42) rfl (heq ▸ List.mem_singleton_self 42)
    rw [Range.symbols, write_number, write_nil, List.append_nil, rangeEnds, if_neg hstar,
      if_pos (by simpa [← contains_eq_true] using hdash), n.toCronInt_settled hfirst]
    rfl
  | between a b =>
    have htext : write Numeral.settled (Range.between a b).symbols =
        a.settled ++ 45 :: b.settled := by
      rw [Range.symbols, write_number, write_mark, write_number, write_nil, List.append_nil]
    have hsplit : split (write Numeral.settled (Range.between a b).symbols) 45 =
        [a.settled, b.settled] := by
      rw [split_settled, htext, getlines_append (a.notMem_settled rfl),
        getlines_of_notMem (b.notMem_settled rfl) b.settled_digits.1]
      intro c hc
      rcases Range.marks hc with rfl | rfl <;> simp [IsMark]
    have hdash : (45 : UInt8) ∈ a.settled ++ 45 :: b.settled := by simp
    have hstar : a.settled ++ 45 :: b.settled ≠ ascii "*" := by
      intro heq
      rw [heq] at hdash
      exact absurd hdash (by decide)
    rw [rangeEnds, hsplit, htext, if_neg hstar, if_neg (by simp [contains_eq_true])]
    simp only [a.toCronInt_settled hfirst, b.toCronInt_settled hlast, ok_bind]
    rfl

/-- A range within the bounds of its field is accepted. -/
theorem makeRange_settled (r : Range names) (hmax : hi.toNat ≤ 59)
    (h1 : lo.toNat ≤ r.first lo.toNat) (h2 : r.first lo.toNat ≤ r.last hi.toNat)
    (h3 : r.last hi.toNat ≤ hi.toNat) :
    makeRange (write Numeral.settled r.symbols) lo hi =
      .ok (UInt8.ofNat (r.first lo.toNat), UInt8.ofNat (r.last hi.toNat)) := by
  have hfirst : (UInt8.ofNat (r.first lo.toNat)).toNat = r.first lo.toNat :=
    toNat_ofNat_of_le (by omega)
  have hlast : (UInt8.ofNat (r.last hi.toNat)).toNat = r.last hi.toNat :=
    toNat_ofNat_of_le (by omega)
  rw [makeRange, rangeEnds_settled r (by omega) (by omega), ok_bind]
  dsimp only
  rw [if_neg, if_neg, if_neg]
  · rfl
  all_goals
    simp only [gt_iff_lt, Bool.or_eq_true, decide_eq_true_eq, not_or, UInt8.lt_iff_toNat_lt,
      hfirst, hlast]
    omega

/-- The span that a part means. -/
def Part.span (lo hi : UInt8) (p : Part names) : Span where
  first := UInt8.ofNat (p.range.first lo.toNat)
  last := UInt8.ofNat (p.last hi.toNat)
  step := UInt8.ofNat p.step

theorem Range.notMem_settled (r : Range names) {c : UInt8} (hdigit : isDigit c = false)
    (h42 : c ≠ 42) (h45 : c ≠ 45) : c ∉ write Numeral.settled r.symbols := by
  intro hmem
  rcases mem_write_settled hmem with h | h
  · rw [hdigit] at h
    exact absurd h (by decide)
  · rcases Range.marks h with rfl | rfl
    · exact h42 rfl
    · exact h45 rfl

/-- What follows a range. -/
def everyText (every : Option (Numeral names)) : Bytes :=
  every.elim [] fun n => 47 :: n.settled

theorem Part.write_settled_eq (p : Part names) : write Numeral.settled p.symbols =
    write Numeral.settled p.range.symbols ++ everyText p.every := by
  rw [Part.symbols, everyText]
  cases p.every with
  | none => exact (List.append_nil _).symm
  | some n => rw [write_append, write_mark, write_number, write_nil, List.append_nil]; rfl

/-- A range that is accepted, and what follows it. -/
theorem partSpan_append {text : Bytes} {first last : UInt8} {every : Option (Numeral names)}
    (hnul : (0 : UInt8) ∉ text) (hslash : (47 : UInt8) ∉ text)
    (hrange : makeRange text lo hi = .ok (first, last))
    (hevery : ∀ n ∈ every, 0 < n.value ∧ n.value ≤ 255) :
    partSpan (text ++ everyText every) lo hi =
      .ok { first, last := if every.isSome && !contains text 45 then hi else last,
            step := UInt8.ofNat (every.elim 1 Numeral.value) } := by
  cases every with
  | none =>
    have htext : text ++ everyText (none : Option (Numeral names)) = text := List.append_nil text
    rw [htext, partSpan, if_pos (by simpa [← contains_eq_true] using hslash), hrange]
    rfl
  | some n =>
    obtain ⟨hpos, hle⟩ := hevery n rfl
    have hnul' : (0 : UInt8) ∉ text ++ 47 :: n.settled := by
      rw [List.mem_append, List.mem_cons]
      rintro (h | h | h)
      · exact hnul h
      · exact absurd h (by decide)
      · exact n.notMem_settled rfl h
    have hsplit : split (text ++ 47 :: n.settled) 47 = [text, n.settled] := by
      rw [split, cstr_eq_self_iff.mpr hnul', getlines_append hslash,
        getlines_of_notMem (n.notMem_settled rfl) n.settled_digits.1]
    have hdelta : ¬ UInt8.ofNat n.value ≤ 0 := by
      rw [UInt8.le_iff_toNat_le, toNat_ofNat_of_le hle]
      show ¬ n.value ≤ 0
      omega
    show partSpan (text ++ 47 :: n.settled) lo hi = _
    rw [partSpan, if_neg (by simp [contains_eq_true]), hsplit]
    simp only [hrange, ok_bind, n.toCronInt_settled hle, if_neg hdelta, Option.isSome_some,
      Bool.true_and, Option.elim_some]
    rfl

/-- After a dash the increment ends where the range does. -/
theorem Part.last_eq (p : Part names) :
    (if p.every.isSome && !contains (write Numeral.settled p.range.symbols) 45 then hi
      else UInt8.ofNat (p.range.last hi.toNat)) = UInt8.ofNat (p.last hi.toNat) := by
  obtain ⟨range, every⟩ := p
  cases every with
  | none => cases range <;> rfl
  | some n =>
    cases range with
    | all => simp [Part.last, Range.last]
    | one m =>
      have hdash : contains (m.settled ++ []) 45 = false := by
        rw [List.append_nil, ← Bool.not_eq_true, contains_eq_true]
        exact m.notMem_settled rfl
      rw [Range.symbols, write_number, write_nil, hdash]
      simp [Part.last]
    | between a b =>
      have hdash : contains (a.settled ++ 45 :: (b.settled ++ [])) 45 = true := by
        simp [contains_eq_true]
      rw [Range.symbols, write_number, write_mark, write_number, write_nil, hdash]
      rfl

theorem Part.Fits.step_le {lo hi : ℕ} {p : Part names} (h : p.Fits lo hi) :
    ∀ n ∈ p.every, 0 < n.value ∧ n.value ≤ 255 := by
  intro n hn
  have hpos := h.step_pos
  have hfits := h.step_fits
  rw [Part.step, hn, Option.elim_some] at hpos hfits
  omega

/-- **A part spells the span that it means.** -/
theorem partSpan_settled {p : Part names} (hmax : hi.toNat ≤ 59) (h : p.Fits lo.toNat hi.toNat) :
    partSpan (write Numeral.settled p.symbols) lo hi = .ok (p.span lo hi) := by
  have hrange := makeRange_settled p.range hmax h.min_le h.first_le h.le_max
  have hbyte : ∀ c : UInt8, isDigit c = false → c ≠ 42 → c ≠ 45 →
      c ∉ write Numeral.settled p.range.symbols := fun c => p.range.notMem_settled
  rw [p.write_settled_eq, partSpan_append (hbyte 0 rfl (by decide) (by decide))
    (hbyte 47 rfl (by decide) (by decide)) hrange h.step_le, p.last_eq]
  rfl

theorem Part.Fits.last_le {lo hi : ℕ} {p : Part names} (h : p.Fits lo hi) : p.last hi ≤ hi := by
  have := h.le_max
  unfold Part.last
  split <;> omega

/-- The values of the span are those that the part means. -/
theorem Part.has_span {p : Part names} (hmax : hi.toNat ≤ 59) (h : p.Fits lo.toNat hi.toNat)
    (v : ℕ) : (p.span lo hi).Has lo v ↔ p.has lo.toNat hi.toNat v = true := by
  have hlast := h.last_le
  have hmin := h.min_le
  have hfirst := h.first_le
  have hle := h.le_max
  have hfits := h.step_fits
  rw [Span.Has, Part.span, toNat_ofNat_of_le (by omega), toNat_ofNat_of_le (by omega),
    toNat_ofNat_of_le (by omega), Part.has_iff]
  split
  · exact Iff.rfl
  · -- the second value is above the last one, and below the first there is none
    constructor
    · rintro ⟨hlo, hv, hdvd⟩
      have hzero := Nat.eq_zero_of_dvd_of_lt hdvd (by omega)
      obtain rfl : v = p.range.first lo.toNat := by omega
      exact ⟨Nat.le_refl _, by unfold Part.last; split <;> omega, by simp⟩
    · rintro ⟨hv, hlast', hdvd⟩
      have hzero := Nat.eq_zero_of_dvd_of_lt hdvd (by omega)
      obtain rfl : v = p.range.first lo.toNat := by omega
      exact ⟨hmin, Nat.le_refl _, by simp⟩

end

/-! ### Fields -/

theorem Part.write_ne_nil {numeral : Numeral names → Bytes} (h : ∀ n, numeral n ≠ [])
    (p : Part names) : write numeral p.symbols ≠ [] := by
  have hrange : ∀ r : Range names, write numeral r.symbols ≠ [] := by
    intro r
    cases r with
    | all => simp [Range.symbols]
    | one n => simp [Range.symbols, h n]
    | between a b => simp [Range.symbols]
  rw [Part.symbols]
  split
  · exact hrange _
  · rw [write_append]
    exact List.append_ne_nil_of_left_ne_nil (hrange _) _

theorem write_intercalate {numeral : Numeral names → Bytes} (c : UInt8)
    (l : List (List (Symbol names))) :
    write numeral ([.mark c].intercalate l) = [c].intercalate (l.map (write numeral)) := by
  induction l with
  | nil => rfl
  | cons symbols l ih =>
    cases l with
    | nil => simp
    | cons symbols' l =>
      rw [List.map_cons] at ih
      rw [List.intercalate_cons_cons, write_append, write_append, ih, List.map_cons, List.map_cons,
        List.intercalate_cons_cons]
      rfl

/-- The parts of a settled field. -/
theorem Field.write_settled_eq (f : Field names) :
    write Numeral.settled f.symbols =
      [44].intercalate (f.parts.map fun p => write Numeral.settled p.symbols) := by
  rw [Field.symbols, write_intercalate, List.map_map]
  rfl

theorem Field.settled_tokens (f : Field names) :
    ∀ t ∈ f.parts.map fun p => write Numeral.settled p.symbols, (44 : UInt8) ∉ t ∧ t ≠ [] := by
  intro t ht
  obtain ⟨p, -, rfl⟩ := List.mem_map.mp ht
  refine ⟨fun hmem => ?_, p.write_ne_nil fun n => n.settled_digits.1⟩
  rcases mem_write_settled hmem with h | h
  · exact absurd h (by decide)
  · exact absurd (Part.marks h) (by decide)

section

variable {N : ℕ} {lo hi : UInt8} {f : Field names}

/-- A field that is cut into texts of its parts. -/
theorem Field.says_of_split (hb : FieldBounds N lo hi)
    (hf : ∀ p ∈ f.parts, p.Fits lo.toNat hi.toNat) {value : Bytes} (tokens : List Bytes)
    (hlast : value.getLast? ≠ some 44) (hsplit : split value 44 = tokens)
    (htokens : ∀ t ∈ tokens, ∃ p ∈ f.parts, partSpan t lo hi = .ok (p.span lo hi))
    (hparts : ∀ p ∈ f.parts, ∃ t ∈ tokens, partSpan t lo hi = .ok (p.span lo hi)) :
    Says value lo hi (f.set N lo.toNat hi.toNat) := by
  have hsize := hb.lt_size
  refine ⟨hlast, ?_, ?_, fun i => ?_⟩
  · obtain ⟨p, hp⟩ := List.exists_mem_of_ne_nil _ f.nonempty
    obtain ⟨t, ht, -⟩ := hparts p hp
    rw [hsplit]
    exact List.ne_nil_of_mem ht
  · rw [hsplit]
    intro t ht
    obtain ⟨p, -, hspan⟩ := htokens t ht
    exact ⟨_, hspan⟩
  · rw [hsplit, Field.set, getLsbD_bitsOf, Field.has, List.any_eq_true]
    constructor
    · rintro ⟨-, p, hp, hhas⟩
      obtain ⟨t, ht, hspan⟩ := hparts p hp
      exact ⟨t, ht, _, hspan, (Part.has_span hb.max_le (hf p hp) _).mpr hhas⟩
    · rintro ⟨t, ht, s, hs, hhas⟩
      obtain ⟨p, hp, hspan⟩ := htokens t ht
      obtain rfl := Except.ok.inj (hspan.symm.trans hs)
      rw [Part.has_span hb.max_le (hf p hp)] at hhas
      refine ⟨?_, p, hp, hhas⟩
      have hlast := (hf p hp).last_le
      have hle := (Part.has_iff.mp hhas).2.1
      omega

/-- **A field says what it means**, once its names have been replaced. -/
theorem Field.says (hb : FieldBounds N lo hi) (hf : ∀ p ∈ f.parts, p.Fits lo.toNat hi.toNat) :
    Says (write Numeral.settled f.symbols) lo hi (f.set N lo.toNat hi.toNat) := by
  have hspan : ∀ p ∈ f.parts,
      partSpan (write Numeral.settled p.symbols) lo hi = .ok (p.span lo hi) :=
    fun p hp => partSpan_settled hb.max_le (hf p hp)
  refine Field.says_of_split hb hf _ ?_ ?_ ?_
    fun p hp => ⟨_, List.mem_map_of_mem hp, hspan p hp⟩
  · rw [f.write_settled_eq]
    exact getLast?_intercalate_ne f.settled_tokens
  · rw [split_settled f.marks, f.write_settled_eq, getlines_intercalate f.settled_tokens]
  · rw [List.forall_mem_map]
    exact fun p hp => ⟨p, hp, hspan p hp⟩

end

end Cron
end JobScheduler
