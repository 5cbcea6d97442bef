import Mathlib.Data.List.TakeWhile

/-!
# Scanners and the languages they read

A scanner takes a value off the front of a text and leaves what follows it.  A
language says which texts spell a value, with no scanner in sight.  A scanner
reads a language when it finds only values that the text in front spells, and
finds each of them wherever what comes next does not go on with it.

## Main definitions

* `Reads p L F` — the scanner `p` reads the language `L` in front of the texts `F`.
* `Enclosed` — what stands between two brackets: elements with commas between
  them, and blanks around each.
* `enclosed` — the scanner for it, from behind the opening bracket.

## Main results

* `Reads.unique` — a language that is read has no ambiguous text.
* `reads_enclosed` — **a scanner for the elements makes one for the enclosed list**.
-/

namespace Scan

variable {σ α β : Type}

/-- A value off the front of a text, and the rest. -/
abbrev Scanner (σ α : Type) := List σ → Option (α × List σ)

/-- The texts that spell a value. -/
abbrev Lang (σ α : Type) := α → List σ → Prop

/-- The scanner reads the language, in front of the texts `F`. -/
structure Reads (p : Scanner σ α) (L : Lang σ α) (F : List σ → Prop) : Prop where
  sound : ∀ {s a r}, p s = some (a, r) → ∃ t, s = t ++ r ∧ L a t
  complete : ∀ {a t r}, L a t → F r → p (t ++ r) = some (a, r)

/-- A text spells one value at most. -/
theorem Reads.unique {p : Scanner σ α} {L : Lang σ α} {F : List σ → Prop} (h : Reads p L F)
    {r : List σ} (hr : F r) {a b : α} {t : List σ} (ha : L a t) (hb : L b t) : a = b := by
  have hsame : some (a, r) = some (b, r) := (h.complete ha hr).symm.trans (h.complete hb hr)
  exact congrArg Prod.fst (Option.some.inj hsame)

/-- The values go through a function. -/
theorem Reads.map {p : Scanner σ α} {L : Lang σ α} {F : List σ → Prop} (h : Reads p L F)
    (f : α → β) :
    Reads (fun s => (p s).map (Prod.map f id)) (fun b t => ∃ a, b = f a ∧ L a t) F := by
  refine ⟨?_, ?_⟩
  · intro s b r hs
    obtain ⟨⟨a, r'⟩, ha, heq⟩ := Option.map_eq_some_iff.mp hs
    rw [Prod.map_apply, id_eq, Prod.mk.injEq] at heq
    obtain ⟨rfl, rfl⟩ := heq
    obtain ⟨t, ht, hL⟩ := h.sound ha
    exact ⟨t, ht, a, rfl, hL⟩
  · rintro b t r ⟨a, rfl, hL⟩ hr
    simp only [h.complete hL hr]
    rfl

/-- The same texts, told otherwise. -/
theorem Reads.congr {p : Scanner σ α} {L L' : Lang σ α} {F : List σ → Prop} (h : Reads p L F)
    (hL : ∀ a t, L a t ↔ L' a t) : Reads p L' F := by
  have heq : L = L' := funext fun a => funext fun t => propext (hL a t)
  rwa [← heq]

/-! ### Blanks -/

theorem dropWhile_blanks {ws : σ → Bool} {w : List σ} (hw : w.all ws = true) (t : List σ) :
    (w ++ t).dropWhile ws = t.dropWhile ws := by
  induction w with
  | nil => rfl
  | cons c w ih =>
    rw [List.all_cons, Bool.and_eq_true] at hw
    rw [List.cons_append, List.dropWhile_cons_of_pos hw.1]
    exact ih hw.2

/-- Blanks are skipped up to the first other symbol. -/
theorem dropWhile_blanks_cons {ws : σ → Bool} {w : List σ} (hw : w.all ws = true) {c : σ}
    (hc : ws c = false) (t : List σ) : (w ++ c :: t).dropWhile ws = c :: t := by
  rw [dropWhile_blanks hw, List.dropWhile_cons_of_neg (by simp [hc])]

/-- What has been skipped was blank. -/
theorem exists_blanks (ws : σ → Bool) (s : List σ) :
    ∃ w, w.all ws = true ∧ s = w ++ s.dropWhile ws :=
  ⟨s.takeWhile ws, List.all_takeWhile, List.takeWhile_append_dropWhile.symm⟩

/-! ### Enclosed lists -/

/-- One element or more, with commas between them and blanks behind each. -/
inductive Elements (ws : σ → Bool) (comma : σ) (item : Lang σ α) : Lang σ (List α)
  | last {a t w} : item a t → w.all ws = true → Elements ws comma item [a] (t ++ w)
  | cons {a t w w' as ts} : item a t → w.all ws = true → w'.all ws = true →
    Elements ws comma item as ts →
      Elements ws comma item (a :: as) (t ++ (w ++ comma :: (w' ++ ts)))

/-- What stands between the brackets. -/
inductive Enclosed (ws : σ → Bool) (comma : σ) (item : Lang σ α) : Lang σ (List α)
  | empty {w} : w.all ws = true → Enclosed ws comma item [] w
  | elements {w as ts} : w.all ws = true → Elements ws comma item as ts →
    Enclosed ws comma item as (w ++ ts)

/-- How the elements are told apart: neither a blank, nor the comma, nor the bracket
goes on with one, and none starts with a blank or with the bracket. -/
structure Punctuation (ws : σ → Bool) (comma close : σ) (item : Lang σ α)
    (F : List σ → Prop) : Prop where
  comma_solid : ws comma = false
  close_solid : ws close = false
  comma_ne : comma ≠ close
  follows : ∀ {c} r, ws c = true ∨ c = comma ∨ c = close → F (c :: r)
  starts : ∀ {a t}, item a t → ∃ c t', t = c :: t' ∧ ws c = false ∧ c ≠ close

/-- The list starts as its first element does. -/
theorem Elements.starts {ws : σ → Bool} {comma close : σ} {item : Lang σ α} {F : List σ → Prop}
    (hpunct : Punctuation ws comma close item F) {as : List α} {t : List σ}
    (h : Elements ws comma item as t) : ∃ c t', t = c :: t' ∧ ws c = false ∧ c ≠ close := by
  cases h with
  | last ha _ =>
    obtain ⟨c, t', rfl, hc⟩ := hpunct.starts ha
    exact ⟨c, t' ++ _, rfl, hc⟩
  | cons ha _ _ _ =>
    obtain ⟨c, t', rfl, hc⟩ := hpunct.starts ha
    exact ⟨c, t' ++ _, rfl, hc⟩

/-- A condition on the symbols of the elements, the commas and the blanks is one on the text. -/
theorem Enclosed.forall_mem {ws : σ → Bool} {comma : σ} {item : Lang σ α} {P : σ → Prop}
    (hws : ∀ c, ws c = true → P c) (hcomma : P comma) (hitem : ∀ a t, item a t → ∀ c ∈ t, P c)
    {as : List α} {t : List σ} (h : Enclosed ws comma item as t) : ∀ c ∈ t, P c := by
  have hblanks : ∀ {w : List σ}, w.all ws = true → ∀ c ∈ w, P c :=
    fun hw c hc => hws c (List.all_eq_true.mp hw c hc)
  cases h with
  | empty hw => exact hblanks hw
  | elements hw h =>
    refine List.forall_mem_append.mpr ⟨hblanks hw, ?_⟩
    induction h with
    | last ha hw' => exact List.forall_mem_append.mpr ⟨hitem _ _ ha, hblanks hw'⟩
    | cons ha hw1 hw2 _ ih =>
      refine List.forall_mem_append.mpr ⟨hitem _ _ ha, List.forall_mem_append.mpr ⟨hblanks hw1, ?_⟩⟩
      exact List.forall_mem_cons.mpr ⟨hcomma, List.forall_mem_append.mpr ⟨hblanks hw2, ih⟩⟩

theorem Elements.and_iff {ws : σ → Bool} {comma : σ} {item item' : Lang σ α} {P : α → Prop}
    (hitem : ∀ a t, item a t ↔ item' a t ∧ P a) {as : List α} {t : List σ} :
    Elements ws comma item as t ↔ Elements ws comma item' as t ∧ ∀ a ∈ as, P a := by
  constructor
  · intro h
    induction h with
    | last ha hw =>
      obtain ⟨ha', hP⟩ := (hitem _ _).mp ha
      exact ⟨.last ha' hw, by simpa using hP⟩
    | cons ha hw hw' _ ih =>
      obtain ⟨ha', hP⟩ := (hitem _ _).mp ha
      exact ⟨.cons ha' hw hw' ih.1, List.forall_mem_cons.mpr ⟨hP, ih.2⟩⟩
  · rintro ⟨h, hP⟩
    induction h with
    | last ha hw => exact .last ((hitem _ _).mpr ⟨ha, hP _ (List.mem_singleton_self _)⟩) hw
    | cons ha hw hw' _ ih =>
      rw [List.forall_mem_cons] at hP
      exact .cons ((hitem _ _).mpr ⟨ha, hP.1⟩) hw hw' (ih hP.2)

/-- A condition on the elements is one on the list. -/
theorem Enclosed.and_iff {ws : σ → Bool} {comma : σ} {item item' : Lang σ α} {P : α → Prop}
    (hitem : ∀ a t, item a t ↔ item' a t ∧ P a) {as : List α} {t : List σ} :
    Enclosed ws comma item as t ↔ Enclosed ws comma item' as t ∧ ∀ a ∈ as, P a := by
  constructor
  · intro h
    cases h with
    | empty hw => exact ⟨.empty hw, by simp⟩
    | elements hw h =>
      obtain ⟨h', hP⟩ := (Elements.and_iff hitem).mp h
      exact ⟨.elements hw h', hP⟩
  · rintro ⟨h, hP⟩
    cases h with
    | empty hw => exact .empty hw
    | elements hw h => exact .elements hw ((Elements.and_iff hitem).mpr ⟨h, hP⟩)

section Enclosed

variable [DecidableEq σ]

/-- The loop over the elements, for at most `n` of them. -/
def elements (ws : σ → Bool) (comma close : σ) (item : Scanner σ α) : ℕ → Scanner σ (List α)
  | 0, _ => none
  | n + 1, s =>
    match item s with
    | none => none
    | some (a, s) =>
      match s.dropWhile ws with
      | [] => none
      | c :: s =>
        if c = close then some ([a], s)
        else if c = comma then
          (elements ws comma close item n (s.dropWhile ws)).map (Prod.map (a :: ·) id)
        else none

/-- The text from behind the opening bracket. -/
def enclosed (ws : σ → Bool) (comma close : σ) (item : Scanner σ α) : Scanner σ (List α) :=
  fun s =>
    match s.dropWhile ws with
    | [] => none
    | c :: s =>
      if c = close then some ([], s)
      else elements ws comma close item (s.length + 1) (c :: s)

variable {ws : σ → Bool} {comma close : σ} {item : Lang σ α} {p : Scanner σ α}
  {F : List σ → Prop}

theorem elements_sound (hp : Reads p item F) : ∀ n {s as r},
    elements ws comma close p n s = some (as, r) →
      ∃ t, s = t ++ close :: r ∧ Elements ws comma item as t := by
  intro n
  induction n with
  | zero =>
    intro s as r h
    simp [elements] at h
  | succ n ih =>
    intro s as r h
    rw [elements] at h
    cases hitem : p s with
    | none => simp [hitem] at h
    | some found =>
      obtain ⟨a, s'⟩ := found
      obtain ⟨t, rfl, ht⟩ := hp.sound hitem
      obtain ⟨w, hw, hs'⟩ := exists_blanks ws s'
      simp only [hitem] at h
      cases hrest : s'.dropWhile ws with
      | nil => simp [hrest] at h
      | cons c s'' =>
        simp only [hrest] at h
        rw [hrest] at hs'
        subst hs'
        split at h
        · next hc =>
          rw [Option.some.injEq, Prod.mk.injEq] at h
          obtain ⟨rfl, rfl⟩ := h
          exact ⟨t ++ w, by simp [hc], .last ht hw⟩
        · split at h
          · next hcomma =>
            obtain ⟨⟨as', r'⟩, hloop, heq⟩ := Option.map_eq_some_iff.mp h
            rw [Prod.map_apply, id_eq, Prod.mk.injEq] at heq
            obtain ⟨rfl, rfl⟩ := heq
            obtain ⟨ts, hts, helements⟩ := ih hloop
            obtain ⟨w', hw', hs''⟩ := exists_blanks ws s''
            refine ⟨_, ?_, .cons ht hw hw' helements⟩
            rw [hs'', hts, hcomma]
            simp
          · simp at h

/-- Each element is found, and then what separates it from the next. -/
theorem elements_complete (hp : Reads p item F) (hpunct : Punctuation ws comma close item F)
    {as : List α} {t : List σ} (h : Elements ws comma item as t) (r : List σ) : ∀ n,
    t.length < n → elements ws comma close p n (t ++ close :: r) = some (as, r) := by
  have hfollows : ∀ {w : List σ} {c : σ} {s}, w.all ws = true → c = comma ∨ c = close →
      F (w ++ c :: s) := by
    intro w c s hw hc
    cases w with
    | nil => exact hpunct.follows s (Or.inr hc)
    | cons d w =>
      rw [List.all_cons, Bool.and_eq_true] at hw
      exact hpunct.follows _ (Or.inl hw.1)
  induction h with
  | @last a t w ha hw =>
    intro n hn
    cases n with
    | zero => omega
    | succ n =>
    rw [List.append_assoc, elements, hp.complete ha (hfollows hw (Or.inr rfl))]
    simp only [dropWhile_blanks_cons hw hpunct.close_solid, if_true]
  | @cons a t w w' as ts ha hw hw' hts ih =>
    intro n hn
    cases n with
    | zero => omega
    | succ n =>
      obtain ⟨c, t', hhead, hsolid, -⟩ := hts.starts hpunct
      have hskip : (w' ++ (ts ++ close :: r)).dropWhile ws = ts ++ close :: r := by
        rw [hhead, List.cons_append, dropWhile_blanks_cons hw' hsolid]
      have hlen : ts.length < n := by
        simp only [List.length_append, List.length_cons] at hn
        omega
      have hassoc : (t ++ (w ++ comma :: (w' ++ ts))) ++ close :: r =
          t ++ (w ++ comma :: (w' ++ (ts ++ close :: r))) := by simp
      rw [hassoc, elements, hp.complete ha (hfollows hw (Or.inl rfl))]
      simp only [dropWhile_blanks_cons hw hpunct.comma_solid, if_neg hpunct.comma_ne, if_true,
        hskip, ih n hlen]
      rfl

/-- What the loop over the elements reads, with its closing bracket. -/
theorem enclosed_sound (hp : Reads p item F) {s : List σ} {as : List α} {r : List σ}
    (h : enclosed ws comma close p s = some (as, r)) :
    ∃ t, s = t ++ close :: r ∧ Enclosed ws comma item as t := by
  obtain ⟨w, hw, hs⟩ := exists_blanks ws s
  rw [enclosed] at h
  cases hrest : s.dropWhile ws with
  | nil => simp [hrest] at h
  | cons c s' =>
    simp only [hrest] at h
    rw [hrest] at hs
    subst hs
    split at h
    · next hc =>
      rw [Option.some.injEq, Prod.mk.injEq] at h
      obtain ⟨rfl, rfl⟩ := h
      exact ⟨w, by rw [hc], .empty hw⟩
    · obtain ⟨t, ht, helements⟩ := elements_sound hp _ h
      exact ⟨w ++ t, by rw [ht, List.append_assoc], .elements hw helements⟩

theorem enclosed_complete (hp : Reads p item F) (hpunct : Punctuation ws comma close item F)
    {as : List α} {t : List σ} (h : Enclosed ws comma item as t) (r : List σ) :
    enclosed ws comma close p (t ++ close :: r) = some (as, r) := by
  cases h with
  | empty hw =>
    simp only [enclosed, dropWhile_blanks_cons hw hpunct.close_solid, if_true]
  | @elements w as ts hw hts =>
    obtain ⟨c, t', hhead, hsolid, hne⟩ := hts.starts hpunct
    have hskip : (w ++ (ts ++ close :: r)).dropWhile ws = c :: (t' ++ close :: r) := by
      rw [hhead, List.cons_append, dropWhile_blanks_cons hw hsolid]
    have hloop := elements_complete hp hpunct hts r ((t' ++ close :: r).length + 1) (by
      simp only [hhead, List.length_cons, List.length_append]
      omega)
    rw [List.append_assoc]
    simp only [enclosed, hskip, if_neg hne]
    rw [← hloop, hhead, List.cons_append]

/-- **A list is read up to its closing bracket** when its elements are read. -/
theorem reads_enclosed (hp : Reads p item F) (hpunct : Punctuation ws comma close item F) :
    Reads (enclosed ws comma close p)
      (fun as t => ∃ t', t = t' ++ [close] ∧ Enclosed ws comma item as t') (fun _ => True) := by
  refine ⟨?_, ?_⟩
  · intro s as r h
    obtain ⟨t, rfl, ht⟩ := enclosed_sound hp h
    exact ⟨t ++ [close], by simp, t, rfl, ht⟩
  · rintro as t r ⟨t', rfl, ht⟩ -
    rw [List.append_assoc, List.singleton_append]
    exact enclosed_complete hp hpunct ht r

end Enclosed

end Scan
