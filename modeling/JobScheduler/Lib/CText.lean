import Mathlib.Algebra.Group.Nat.Defs
import Mathlib.Data.List.Basic
import Mathlib.Data.List.Induction
import Mathlib.Data.List.TakeWhile

/-!
# Byte strings as the C and C++ libraries read them

A `std::string` is a list of bytes.  A `const char *` made from it ends at the
first NUL, a `std::getline` loop cuts it at a delimiter, and the numeric
extractors read a sign and a run of decimal digits off its front.

## Main definitions

* `cstr s` — what a reader of the NUL-terminated copy of `s` sees.
* `getlines d s` — the tokens of a `std::getline` loop with delimiter `d`.
* `words d s` — the nonempty ones among them.
* `scanInteger s` — the sign and magnitude that `strtoul` and stream extraction
  read off the front of `s`.

## Main results

* `words_cons_delim`, `words_cons` — how one more byte in front of a text
  changes its words.
* `scanInteger_digits` — an optional sign and digits are read as far as the digits go.
-/

namespace CText

/-- The bytes of a `std::string`. -/
abbrev Bytes := List UInt8

/-- The bytes of an ASCII literal. -/
def ascii (s : String) : Bytes := s.toList.map fun c => UInt8.ofNat c.toNat

/-- The text a reader of the NUL-terminated copy of `s` sees. -/
def cstr (s : Bytes) : Bytes := s.takeWhile (· != 0)

/-- `isspace` in the C locale. -/
def isSpace (c : UInt8) : Bool := c == 32 || (9 ≤ c && c ≤ 13)

/-- `isdigit` in the C locale. -/
def isDigit (c : UInt8) : Bool := 48 ≤ c && c ≤ 57

/-- `toupper` in the C locale. -/
def toUpper (c : UInt8) : UInt8 := if 97 ≤ c && c ≤ 122 then c - 32 else c

/-- The number a run of decimal digits denotes. -/
def digitsValue (ds : Bytes) : ℕ := ds.foldl (fun n c => 10 * n + (c.toNat - 48)) 0

/-- The digits of a natural number: `std::to_string`. -/
def decimal (n : ℕ) : Bytes := (Nat.toDigits 10 n).map fun c => UInt8.ofNat c.toNat

/-- `std::to_string` of a signed integer. -/
def decimalInt (n : ℤ) : Bytes := if n < 0 then 45 :: decimal n.natAbs else decimal n.natAbs

/-! ### C strings -/

theorem cstr_cons_of_ne {c : UInt8} (h : c ≠ 0) (s : Bytes) : cstr (c :: s) = c :: cstr s := by
  simp [cstr, h]

/-- A C string has no NUL left to cut at. -/
theorem cstr_cstr (s : Bytes) : cstr (cstr s) = cstr s :=
  List.takeWhile_idem

/-- A text is cut exactly when it has a NUL. -/
theorem cstr_eq_self_iff {s : Bytes} : cstr s = s ↔ 0 ∉ s := by
  rw [cstr, List.takeWhile_eq_self_iff]
  constructor
  · intro h hmem
    exact absurd (h 0 hmem) (by decide)
  · rintro h c hc
    rw [bne_iff_ne]
    rintro rfl
    exact h hc

/-! ### The `std::getline` loop -/

/-- The loop with the bytes read since the last delimiter held in `acc`, last
byte first.  At the end of the stream a token is kept only when a byte of it was
read, so a trailing delimiter opens no empty token. -/
def getlinesAux (d : UInt8) : Bytes → Bytes → List Bytes
  | acc, [] => if acc.isEmpty then [] else [acc.reverse]
  | acc, c :: s => if c = d then acc.reverse :: getlinesAux d [] s else getlinesAux d (c :: acc) s

/-- The tokens of `while (std::getline(stream, token, d))`. -/
def getlines (d : UInt8) (s : Bytes) : List Bytes := getlinesAux d [] s

@[simp] theorem getlines_nil (d : UInt8) : getlines d [] = [] := rfl

@[simp] theorem getlines_cons_delim (d : UInt8) (s : Bytes) :
    getlines d (d :: s) = [] :: getlines d s := by
  simp [getlines, getlinesAux]

/-- A token that has begun runs to the next delimiter, which is dropped. -/
private theorem getlinesAux_of_ne_nil (d : UInt8) (s : Bytes) : ∀ acc : Bytes, acc ≠ [] →
    getlinesAux d acc s =
      (acc.reverse ++ s.takeWhile (· != d)) :: getlines d (s.dropWhile (· != d)).tail := by
  induction s with
  | nil => intro acc h; simp [getlinesAux, h]
  | cons c s ih =>
    intro acc _
    by_cases hc : c = d
    · subst hc; simp [getlinesAux, getlines]
    · rw [getlinesAux, if_neg hc, ih (c :: acc) (List.cons_ne_nil _ _)]
      simp [hc]

theorem getlines_cons {d c : UInt8} (h : c ≠ d) (s : Bytes) :
    getlines d (c :: s) =
      (c :: s.takeWhile (· != d)) :: getlines d (s.dropWhile (· != d)).tail := by
  rw [getlines, getlinesAux, if_neg h, getlinesAux_of_ne_nil d s [c] (List.cons_ne_nil _ _)]
  simp

/-- The nonempty tokens of the loop. -/
def words (d : UInt8) (s : Bytes) : List Bytes := (getlines d s).filter fun t => !t.isEmpty

@[simp] theorem words_nil (d : UInt8) : words d [] = [] := rfl

/-- A leading delimiter opens an empty token, which `words` drops. -/
@[simp] theorem words_cons_delim (d : UInt8) (s : Bytes) : words d (d :: s) = words d s := by
  simp [words]

/-- Any other byte opens a word that runs to the next delimiter. -/
theorem words_cons {d c : UInt8} (h : c ≠ d) (s : Bytes) :
    words d (c :: s) = (c :: s.takeWhile (· != d)) :: words d (s.dropWhile (· != d)).tail := by
  simp [words, getlines_cons h]

/-- A byte written directly in front of a word becomes its first byte. -/
theorem words_cons_cons {d c c' : UInt8} (h : c ≠ d) (h' : c' ≠ d) (s : Bytes) :
    words d (c :: c' :: s) = (words d (c' :: s)).modifyHead (c :: ·) := by
  rw [words_cons h, words_cons h']
  simp [h']

/-! ### Numbers -/

/-- An optional sign, `true` for minus, and the text after it. -/
def scanSign : Bytes → Bool × Bytes
  | 45 :: s => (true, s)
  | 43 :: s => (false, s)
  | s => (false, s)

/-- The sign and the magnitude that a decimal extraction reads off the front of
`s`: blanks, an optional sign, and the longest run of digits.  `none` when no
digit follows. -/
def scanInteger (s : Bytes) : Option (Bool × ℕ) :=
  let signed := scanSign (s.dropWhile isSpace)
  let ds := signed.2.takeWhile isDigit
  if ds.isEmpty then none else some (signed.1, digitsValue ds)

theorem isDigit_iff {c : UInt8} : isDigit c = true ↔ 48 ≤ c.toNat ∧ c.toNat ≤ 57 := by
  rw [isDigit, Bool.and_eq_true, decide_eq_true_eq, decide_eq_true_eq, UInt8.le_iff_toNat_le,
    UInt8.le_iff_toNat_le]
  rfl

theorem isSpace_eq_false_of_isDigit {c : UInt8} (h : isDigit c = true) : isSpace c = false := by
  rw [isDigit_iff] at h
  rw [isSpace, Bool.or_eq_false_iff, Bool.and_eq_false_iff, beq_eq_false_iff_ne,
    decide_eq_false_iff_not, decide_eq_false_iff_not, ne_eq, ← UInt8.toNat_inj,
    UInt8.le_iff_toNat_le, UInt8.le_iff_toNat_le]
  simp only [UInt8.reduceToNat]
  omega

private theorem takeWhile_isDigit {ds : Bytes} (h : ds.all isDigit = true) :
    ds.takeWhile isDigit = ds :=
  List.takeWhile_eq_self_iff.mpr fun c hc => List.all_eq_true.mp h c hc

/-- An optional sign with a digit after it starts with no blank. -/
private theorem dropWhile_isSpace_signed {s : Bytes} (h : (scanSign s).2.takeWhile isDigit ≠ []) :
    s.dropWhile isSpace = s := by
  revert h
  unfold scanSign
  split
  · exact fun _ => rfl
  · exact fun _ => rfl
  · intro h
    cases s with
    | nil => rfl
    | cons c s =>
      have hc : isDigit c = true := by
        by_contra hc
        exact h (by rw [List.takeWhile_cons, if_neg hc])
      rw [List.dropWhile_cons, isSpace_eq_false_of_isDigit hc]
      rfl

/-- **An optional sign and digits are read** as far as the digits go. -/
theorem scanInteger_digits {s : Bytes} (h : (scanSign s).2.takeWhile isDigit ≠ []) :
    scanInteger s = some ((scanSign s).1, digitsValue ((scanSign s).2.takeWhile isDigit)) := by
  simp only [scanInteger, dropWhile_isSpace_signed h]
  simp [h]

/-- An optional sign and digits, with nothing after them, are read as a whole. -/
theorem scanInteger_signed {s : Bytes} (h : (scanSign s).2.all isDigit = true)
    (hne : (scanSign s).2 ≠ []) :
    scanInteger s = some ((scanSign s).1, digitsValue (scanSign s).2) := by
  have hdigits := takeWhile_isDigit h
  rw [scanInteger_digits (by rwa [hdigits]), hdigits]

/-- A number is below the power of ten that its digits ask for. -/
theorem digitsValue_lt {ds : Bytes} (h : ds.all isDigit = true) :
    digitsValue ds < 10 ^ ds.length := by
  induction ds using List.reverseRecOn with
  | nil => decide
  | append_singleton ds c ih =>
    rw [List.all_append, Bool.and_eq_true] at h
    have hc : isDigit c = true := by simpa using h.2
    have hlt := ih h.1
    rw [isDigit_iff] at hc
    have hconcat : digitsValue (ds ++ [c]) = 10 * digitsValue ds + (c.toNat - 48) := by
      rw [digitsValue, List.foldl_append]
      rfl
    rw [hconcat, List.length_append, List.length_singleton, Nat.pow_succ]
    omega

/-! ### Substitution -/

/-- Replace the first occurrence of `pat` in a text by `new`: the text is left
alone where `pat` does not occur. -/
def replaceFirst (pat new : Bytes) : Bytes → Bytes
  | [] => []
  | c :: s => if pat.isPrefixOf (c :: s) then new ++ (c :: s).drop pat.length
      else c :: replaceFirst pat new s

example : getlines 44 (ascii "a,,b,") = [ascii "a", [], ascii "b"] := by decide
example : scanInteger (ascii " -12x") = some (true, 12) := by decide

end CText
