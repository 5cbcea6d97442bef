import JobScheduler.Lib.CText
import Mathlib.Data.List.Nodup

/-!
# Texts that are read back

What the readers of `CText` make of a text that was written for them: tokens with a delimiter
between them, decimal numerals, and names that are replaced by their indices.

## Main definitions

* `Piece`, `spell names k` — a text in pieces, with the names below `k` replaced.
* `Apart` — letters stand in names only, and no two names touch.

## Main results

* `getlines_intercalate`, `words_intercalate` — the tokens are read back.
* `digitsValue_decimal` — a numeral is read back.
* `foldl_replaceFirst` — **names that occur once each are replaced**, each where it stands.
-/

namespace CText

/-! ### Joined lists -/

section

variable {α : Type} {sep : List α} {l : List (List α)}

theorem intercalate_ne_nil (hne : l ≠ []) (h : ∀ x ∈ l, x ≠ []) : sep.intercalate l ≠ [] := by
  cases l with
  | nil => exact absurd rfl hne
  | cons x l =>
    have hx := h x List.mem_cons_self
    cases l with
    | nil => rwa [List.intercalate_singleton]
    | cons y l =>
      rw [List.intercalate_cons_cons, List.append_assoc]
      exact List.append_ne_nil_of_left_ne_nil hx _

/-- What stands in a joined list stands in the separator or in one of the lists. -/
theorem mem_intercalate {a : α} (h : a ∈ sep.intercalate l) : a ∈ sep ∨ ∃ x ∈ l, a ∈ x := by
  induction l with
  | nil => simp at h
  | cons x l ih =>
    cases l with
    | nil => exact Or.inr ⟨x, List.mem_singleton_self x, by rwa [List.intercalate_singleton] at h⟩
    | cons y l =>
      rw [List.intercalate_cons_cons, List.mem_append, List.mem_append] at h
      rcases h with (hx | hsep) | hrest
      · exact Or.inr ⟨x, List.mem_cons_self, hx⟩
      · exact Or.inl hsep
      · rcases ih hrest with hsep | ⟨z, hz, ha⟩
        · exact Or.inl hsep
        · exact Or.inr ⟨z, List.mem_cons_of_mem x hz, ha⟩

end

/-! ### Tokens -/

section

variable {d : UInt8} {t : Bytes}

private theorem takeWhile_ne_append (h : d ∉ t) (s : Bytes) :
    (t ++ d :: s).takeWhile (· != d) = t ∧ (t ++ d :: s).dropWhile (· != d) = d :: s := by
  have ht : ∀ c ∈ t, (c != d) = true := fun c hc => by
    rw [bne_iff_ne]
    rintro rfl
    exact h hc
  rw [List.takeWhile_append_of_pos ht, List.dropWhile_append_of_pos ht]
  simp

/-- A token runs to the delimiter after it. -/
theorem getlines_append (h : d ∉ t) (s : Bytes) :
    getlines d (t ++ d :: s) = t :: getlines d s := by
  cases t with
  | nil => rw [List.nil_append, getlines_cons_delim]
  | cons c t =>
    have hc : c ≠ d := fun heq => h (heq ▸ List.mem_cons_self)
    obtain ⟨htake, hdrop⟩ := takeWhile_ne_append (fun hmem => h (List.mem_cons_of_mem c hmem)) s
    rw [List.cons_append, getlines_cons hc, htake, hdrop, List.tail_cons]

/-- The last token runs to the end. -/
theorem getlines_of_notMem (h : d ∉ t) (hne : t ≠ []) : getlines d t = [t] := by
  cases t with
  | nil => exact absurd rfl hne
  | cons c t =>
    have hc : c ≠ d := fun heq => h (heq ▸ List.mem_cons_self)
    have ht : ∀ b ∈ t, (b != d) = true := fun b hb => by
      rw [bne_iff_ne]
      rintro rfl
      exact h (List.mem_cons_of_mem c hb)
    rw [getlines_cons hc, List.takeWhile_eq_self_iff.mpr ht, List.dropWhile_eq_nil_iff.mpr ht]
    rfl

end

section

variable {d : UInt8} {tokens : List Bytes} (h : ∀ t ∈ tokens, d ∉ t ∧ t ≠ [])
include h

/-- **Tokens are read back.** -/
theorem getlines_intercalate : getlines d ([d].intercalate tokens) = tokens := by
  induction tokens with
  | nil => rfl
  | cons t tokens ih =>
    rw [List.forall_mem_cons] at h
    cases tokens with
    | nil => rw [List.intercalate_singleton, getlines_of_notMem h.1.1 h.1.2]
    | cons u tokens =>
      rw [List.intercalate_cons_cons, List.append_assoc, List.singleton_append,
        getlines_append h.1.1, ih h.2]

theorem words_intercalate : words d ([d].intercalate tokens) = tokens := by
  rw [words, getlines_intercalate h, List.filter_eq_self]
  intro t ht
  simpa using (h t ht).2

/-- The text does not end in the delimiter. -/
theorem getLast?_intercalate_ne : ([d].intercalate tokens).getLast? ≠ some d := by
  induction tokens with
  | nil => simp
  | cons t tokens ih =>
    rw [List.forall_mem_cons] at h
    have hlast : t.getLast? ≠ some d := fun hd => h.1.1 (List.mem_of_getLast? hd)
    cases tokens with
    | nil => rwa [List.intercalate_singleton]
    | cons u tokens =>
      have hne : [d].intercalate (u :: tokens) ≠ [] :=
        intercalate_ne_nil (List.cons_ne_nil u tokens) fun x hx => (h.2 x hx).2
      rw [List.intercalate_cons_cons, List.getLast?_append_of_ne_nil _ hne]
      exact ih h.2

end

/-! ### Numerals -/

theorem decimal_ne_nil (n : ℕ) : decimal n ≠ [] := by
  simp [decimal, Nat.toDigits_ne_nil]

/-- The byte of a digit is its character. -/
private theorem toNat_ofNat_digit {c : Char} (h : c.isDigit = true) :
    (UInt8.ofNat c.toNat).toNat = c.toNat ∧ 48 ≤ c.toNat ∧ c.toNat ≤ 57 := by
  have hrange : 48 ≤ c.toNat ∧ c.toNat ≤ 57 := Char.isDigit_iff_toNat.mp h
  exact ⟨by rw [UInt8.toNat_ofNat']; omega, hrange⟩

theorem isDigit_decimal {n : ℕ} : (decimal n).all isDigit = true := by
  rw [List.all_eq_true]
  intro b hb
  obtain ⟨c, hc, rfl⟩ := List.mem_map.mp hb
  obtain ⟨hbyte, hdigit⟩ :=
    toNat_ofNat_digit (Nat.isDigit_of_mem_toDigits (by decide) (by decide) hc)
  rw [isDigit_iff, hbyte]
  exact hdigit

/-- **A numeral is read back.** -/
theorem digitsValue_decimal (n : ℕ) : digitsValue (decimal n) = n := by
  have hfold : ∀ cs : List Char, (∀ c ∈ cs, c.isDigit = true) → ∀ m,
      (cs.map fun c => UInt8.ofNat c.toNat).foldl (fun n c => 10 * n + (c.toNat - 48)) m =
        Nat.ofDigitChars 10 cs m := by
    intro cs
    induction cs with
    | nil => intro _ m; rfl
    | cons c cs ih =>
      intro h m
      rw [List.forall_mem_cons] at h
      rw [List.map_cons, List.foldl_cons, ih h.2, (toNat_ofNat_digit h.1).1, Nat.ofDigitChars_cons]
      rfl
  have hdigits : ∀ c ∈ Nat.toDigits 10 n, c.isDigit = true := fun c hc =>
    Nat.isDigit_of_mem_toDigits (by decide) (by decide) hc
  rw [digitsValue, decimal, hfold _ hdigits, Nat.ofDigitChars_ten_toDigits]

/-- Digits have no sign in front of them. -/
theorem scanSign_digits {ds : Bytes} (hne : ds ≠ []) (h : ds.all isDigit = true) :
    scanSign ds = (false, ds) := by
  cases ds with
  | nil => exact absurd rfl hne
  | cons c ds =>
    rw [List.all_cons, Bool.and_eq_true, isDigit_iff] at h
    unfold scanSign
    split
    · next heq => simp [(List.cons.inj heq).1] at h
    · next heq => simp [(List.cons.inj heq).1] at h
    · rfl

/-! ### Names -/

/-- A capital letter. -/
def isUpper (c : UInt8) : Bool := 65 ≤ c && c ≤ 90

/-- Names of one length, in capital letters, no two alike. -/
structure IsNames (len : ℕ) (names : List Bytes) : Prop where
  length_eq : ∀ n ∈ names, n.length = len
  upper : ∀ n ∈ names, ∀ c ∈ n, isUpper c = true
  nodup : names.Nodup

/-- A piece of a text: bytes that stand for themselves, or the name of an index. -/
inductive Piece
  | plain (s : Bytes)
  | name (v : ℕ)
  deriving DecidableEq

/-- The text of a piece when the names below `k` have been replaced. -/
def Piece.text (names : List Bytes) (k : ℕ) : Piece → Bytes
  | .plain s => s
  | .name v => if v < k then decimal v else names.getD v []

/-- The text that is written in pieces. -/
def spell (names : List Bytes) (k : ℕ) (ps : List Piece) : Bytes :=
  ps.flatMap (Piece.text names k)

/-- Capital letters stand in names only, and a name is followed by something else. -/
inductive Apart (names : List Bytes) : List Piece → Prop
  | nil : Apart names []
  | plain {s : Bytes} {ps : List Piece} (hne : s ≠ []) (hs : ∀ c ∈ s, isUpper c = false)
      (hps : Apart names ps) : Apart names (.plain s :: ps)
  | name {v : ℕ} {ps : List Piece} (hv : v < names.length)
      (hhead : ∀ w, ps.head? ≠ some (.name w)) (hps : Apart names ps) :
      Apart names (.name v :: ps)

theorem isUpper_eq_false_of_isDigit {c : UInt8} (h : isDigit c = true) : isUpper c = false := by
  rw [isDigit_iff] at h
  rw [isUpper, Bool.and_eq_false_iff, decide_eq_false_iff_not, UInt8.le_iff_toNat_le]
  left
  show ¬ 65 ≤ c.toNat
  omega

section

variable {pat new s t u : Bytes}

theorem replaceFirst_cons {c : UInt8} (h : ¬ pat <+: c :: s) :
    replaceFirst pat new (c :: s) = c :: replaceFirst pat new s := by
  rw [replaceFirst, if_neg (by rwa [List.isPrefixOf_iff_prefix])]

/-- A text that starts with the pattern. -/
theorem replaceFirst_self (hne : pat ≠ []) (s : Bytes) :
    replaceFirst pat new (pat ++ s) = new ++ s := by
  cases pat with
  | nil => exact absurd rfl hne
  | cons c pat =>
    rw [List.cons_append, replaceFirst, if_pos (by simp), ← List.cons_append, List.drop_left]

/-- The pattern starts nowhere in a text that has none of its bytes. -/
theorem replaceFirst_append_of_notMem (hne : pat ≠ []) (h : ∀ c ∈ t, c ∉ pat) (s : Bytes) :
    replaceFirst pat new (t ++ s) = t ++ replaceFirst pat new s := by
  induction t with
  | nil => rfl
  | cons c t ih =>
    rw [List.forall_mem_cons] at h
    rw [List.cons_append, replaceFirst_cons, ih h.2, List.cons_append]
    intro hstarts
    cases pat with
    | nil => exact hne rfl
    | cons b pat =>
      rw [List.cons_prefix_cons] at hstarts
      exact h.1 (hstarts.1 ▸ List.mem_cons_self)

/-- A pattern in capital letters does not end before the next byte that is none. -/
theorem not_prefix_append (hpat : ∀ c ∈ pat, isUpper c = true) (hlen : u.length < pat.length)
    (hs : ∀ c, s.head? = some c → isUpper c = false) : ¬ pat <+: u ++ s := by
  rintro ⟨r, hr⟩
  rcases List.append_eq_append_iff.mp hr with ⟨x, hx, -⟩ | ⟨x, hx, hrest⟩
  · rw [hx, List.length_append] at hlen
    omega
  · cases x with
    | nil => simp [hx] at hlen
    | cons c x =>
      have hupper := hpat c (by simp [hx])
      rw [hs c (by simp [hrest])] at hupper
      exact absurd hupper (by decide)

/-- So it starts nowhere in what is shorter. -/
theorem replaceFirst_append_of_short (hpat : ∀ c ∈ pat, isUpper c = true)
    (hlen : u.length < pat.length) (hs : ∀ c, s.head? = some c → isUpper c = false) :
    replaceFirst pat new (u ++ s) = u ++ replaceFirst pat new s := by
  induction u with
  | nil => rfl
  | cons c u ih =>
    have hstarts := not_prefix_append hpat hlen hs
    rw [List.cons_append] at hstarts ⊢
    rw [replaceFirst_cons hstarts, ih (Nat.lt_of_succ_lt hlen), List.cons_append]

/-- Nor in another name. -/
theorem replaceFirst_append_of_ne (hpat : ∀ c ∈ pat, isUpper c = true)
    (hlen : u.length = pat.length) (hne : u ≠ pat)
    (hs : ∀ c, s.head? = some c → isUpper c = false) :
    replaceFirst pat new (u ++ s) = u ++ replaceFirst pat new s := by
  cases u with
  | nil => rfl
  | cons c u =>
    rw [List.cons_append, replaceFirst_cons, replaceFirst_append_of_short hpat _ hs,
      List.cons_append]
    · rw [← hlen]
      exact Nat.lt_succ_self _
    · intro hstarts
      rw [← List.cons_append] at hstarts
      have htake := List.prefix_iff_eq_take.mp hstarts
      rw [← hlen, List.take_left] at htake
      exact hne htake.symm

end

section

variable {len k : ℕ} {names : List Bytes} {ps : List Piece}

/-- What follows a name does not start with a capital letter. -/
theorem Apart.head_spell (h : Apart names ps) (hhead : ∀ w, ps.head? ≠ some (.name w)) (c : UInt8)
    (hc : (spell names k ps).head? = some c) : isUpper c = false := by
  cases h with
  | nil => simp [spell] at hc
  | @plain s ps hne hs _ =>
    cases s with
    | nil => exact absurd rfl hne
    | cons b s =>
      simp only [spell, List.flatMap_cons, Piece.text, List.cons_append, List.head?_cons,
        Option.some.injEq] at hc
      exact hc ▸ hs b List.mem_cons_self
  | @name v ps => exact absurd rfl (hhead v)

@[simp] theorem spell_plain (s : Bytes) :
    spell names k (.plain s :: ps) = s ++ spell names k ps := rfl

@[simp] theorem spell_name (v : ℕ) :
    spell names k (.name v :: ps) = (Piece.name v).text names k ++ spell names k ps := rfl

theorem spell_succ (h : .name k ∉ ps) : spell names (k + 1) ps = spell names k ps := by
  refine List.flatMap_congr fun p hp => ?_
  cases p with
  | plain s => rfl
  | name v =>
    have hne : v ≠ k := fun heq => h (heq ▸ hp)
    have hiff : v < k + 1 ↔ v < k := by omega
    simp only [Piece.text, hiff]

/-- One name is replaced, where it stands. -/
theorem replaceFirst_spell (hn : IsNames len names) (hpos : 0 < len) (hk : k < names.length)
    (h : Apart names ps) (hcount : ps.count (.name k) ≤ 1) :
    replaceFirst names[k] (decimal k) (spell names k ps) = spell names (k + 1) ps := by
  have hmem : names[k] ∈ names := List.getElem_mem hk
  have hupper := hn.upper _ hmem
  have hne : names[k] ≠ [] := by
    rw [← List.length_pos_iff, hn.length_eq _ hmem]
    exact hpos
  have hskip : ∀ t s : Bytes, (∀ c ∈ t, isUpper c = false) →
      replaceFirst names[k] (decimal k) (t ++ s) =
        t ++ replaceFirst names[k] (decimal k) s := by
    intro t s ht
    refine replaceFirst_append_of_notMem hne (fun c hc hmem => ?_) s
    have hlower := ht c hc
    rw [hupper c hmem] at hlower
    exact absurd hlower (by decide)
  induction h with
  | nil => rfl
  | @plain s ps _ hs _ ih =>
    rw [List.count_cons_of_ne (by simp)] at hcount
    rw [spell_plain, spell_plain, hskip s _ hs, ih hcount]
  | @name v ps hv hhead hps ih =>
    have hget : names.getD v [] = names[v] := by simp [hv]
    rw [spell_name, spell_name, Piece.text, Piece.text, hget]
    rcases lt_trichotomy v k with hlt | rfl | hgt
    · -- the name is replaced already
      rw [List.count_cons_of_ne (by simpa using hlt.ne)] at hcount
      rw [if_pos hlt, if_pos (by omega), ← ih hcount]
      refine hskip _ _ fun c hc => ?_
      exact isUpper_eq_false_of_isDigit (List.all_eq_true.mp isDigit_decimal c hc)
    · -- it is this one, and it does not stand in what follows
      rw [List.count_cons_self] at hcount
      have hnotMem : Piece.name v ∉ ps := List.count_eq_zero.mp (by omega)
      rw [if_neg (Nat.lt_irrefl v), if_pos (Nat.lt_succ_self v), spell_succ hnotMem,
        replaceFirst_self hne]
    · -- it is replaced later
      rw [List.count_cons_of_ne (by simpa using hgt.ne')] at hcount
      have hother : names[v] ∈ names := List.getElem_mem hv
      rw [if_neg (by omega), if_neg (by omega), ← ih hcount]
      refine replaceFirst_append_of_ne hupper ?_ ?_ (hps.head_spell hhead)
      · rw [hn.length_eq _ hother, hn.length_eq _ hmem]
      · intro heq
        exact hgt.ne' ((List.Nodup.getElem_inj_iff hn.nodup).mp heq)

/-- **Names that occur once each are replaced**, each where it stands. -/
theorem foldl_replaceFirst (hn : IsNames len names) (hpos : 0 < len) (h : Apart names ps)
    (honce : ∀ v, ps.count (.name v) ≤ 1) :
    names.zipIdx.foldl (fun text name => replaceFirst name.1 (decimal name.2) text)
      (spell names 0 ps) = spell names names.length ps := by
  have htake : ∀ n ≤ names.length,
      (names.take n).zipIdx.foldl (fun text name => replaceFirst name.1 (decimal name.2) text)
        (spell names 0 ps) = spell names n ps := by
    intro n
    induction n with
    | zero => intro _; rfl
    | succ n ih =>
      intro hn'
      rw [List.take_succ_eq_append_getElem hn', List.zipIdx_append, List.foldl_append,
        ih (Nat.le_of_succ_le hn')]
      have hlen : (names.take n).length = n := List.length_take_of_le (Nat.le_of_succ_le hn')
      rw [List.zipIdx_singleton, hlen]
      simpa using replaceFirst_spell hn hpos hn' h (honce n)
  rw [← htake names.length le_rfl, List.take_length]

end

end CText
