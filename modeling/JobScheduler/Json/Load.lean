import JobScheduler.Lib.Scan
import JobScheduler.Numbers

/-!
# Parsing a request body

`crow::json::load` is a recursive descent over the NUL-terminated copy of the body.
What it accepts is JSON but for a few habits of its own: a number may end in its
point or in its exponent's letter and sign, text may hold any byte but a quote, a
backslash or a NUL, and what follows the first NUL is not looked at.  It gives up
on containers that are nested too deep.

An object's members are sorted by key when one is first looked up; `MemberSort` is
what `std::sort` promises for them.

## Main definitions

* `decodeString`, `decodeNumber`, `decodeList`, `decodeObject`, `decodeValue` — the
  parser's functions, from the text that is left to the value and what is left then.
* `load` — the parser.
* `JsonText σ v t` — the text `t` spells the value `v`.
* `Spells σ s v` — so does a body `s`, with blanks around it.

## Main results

* `load_eq_some_iff` — **the parser accepts exactly the bodies that spell a value**
  nested no deeper than it looks, and finds that value.
-/

namespace JobScheduler

open CText Scan

/-! ### Members in the order of their keys -/

/-- The bytes of a key as `char`, which is signed. -/
def chars (key : Bytes) : List ℤ := key.map fun c => c.toInt8.toInt

/-- `r_string::operator<`. -/
def keyLt (k l : Bytes) : Prop := chars k < chars l

instance (k l : Bytes) : Decidable (keyLt k l) := inferInstanceAs (Decidable (chars k < chars l))

/-- `std::sort` of the members by key: all of them, in the order of their keys, and
members with one key in any order. -/
structure MemberSort where
  sort : List (Bytes × RValue) → List (Bytes × RValue)
  perm : ∀ members, (sort members).Perm members
  sorted : ∀ members, (sort members).Pairwise fun m n => ¬ keyLt n.1 m.1

/-! ### The parser -/

/-- The blanks of `ws_skip`. -/
def isWs (c : UInt8) : Bool := c = 32 || c = 9 || c = 13 || c = 10

/-- `ws_skip`. -/
def wsSkip (data : Bytes) : Bytes := data.dropWhile isWs

/-- `consume`. -/
def consume (c : UInt8) : Bytes → Option Bytes
  | [] => none
  | d :: data => if d = c then some data else none

/-- `check`, for the digits of a `\u` escape. -/
def check (c : UInt8) : Bool :=
  (48 ≤ c && c ≤ 57) || (97 ≤ c && c ≤ 102) || (65 ≤ c && c ≤ 70)

/-- The other characters that may follow a backslash. -/
def isEscape (c : UInt8) : Bool :=
  c = 34 || c = 92 || c = 47 || c = 98 || c = 102 || c = 110 || c = 114 || c = 116

/-- The loop of `decode_string`: the text up to the closing quote. -/
def stringText : Scanner UInt8 Bytes
  | [] => none
  | c :: s =>
    if c = 34 then some ([], s)
    else if c = 0 then none
    else if c = 92 then
      match s with
      | 117 :: h1 :: h2 :: h3 :: h4 :: s =>
        if check h1 && check h2 && check h3 && check h4 then
          (stringText s).map (Prod.map ([92, 117, h1, h2, h3, h4] ++ ·) id)
        else none
      | c :: s => if isEscape c then (stringText s).map (Prod.map ([92, c] ++ ·) id) else none
      | [] => none
    else (stringText s).map (Prod.map (c :: ·) id)

/-- `decode_string`. -/
def decodeString : Scanner UInt8 Bytes := fun data => (consume 34 data).bind stringText

/-- The characters that `decode_number` goes on with. -/
def isNumberChar (c : UInt8) : Bool :=
  isDigit c || c = 46 || c = 45 || c = 43 || c = 101 || c = 69

/-- The loop of `decode_number`.  The inner loop over the digits that follow a digit is
left to the outer one: digits do not lead out of the state that the first one leads to. -/
def numberText (st : NumberParsingState) :
    (s : Bytes) → Option ({t : Bytes // st.Accepts t} × Bytes)
  | [] => if h : st.accepts = true then some (⟨[], h⟩, []) else none
  | c :: s =>
    if st = .invalid then none
    else if isNumberChar c then
      (numberText (st.next c) s).map (Prod.map (fun t => ⟨c :: t.1, t.2⟩) id)
    else if h : st.accepts = true then some (⟨[], h⟩, c :: s) else none

/-- `decode_number`. -/
def decodeNumber : Scanner UInt8 RValue := fun data =>
  (numberText .minus data).map (Prod.map (fun t => .number ⟨t.1, t.2⟩) id)

/-- The rest of a keyword. -/
def keyword (rest : Bytes) (v : RValue) : Scanner UInt8 RValue := fun data =>
  if rest.isPrefixOf data then some (v, data.drop rest.length) else none

/-- The limit on the depth of the recursion, which grows by two with each container. -/
def maxDepth : ℕ := 10000

/-- `decode_list`, with `decode_value` for the elements. -/
def decodeList (value : ℕ → Scanner UInt8 RValue) (depth : ℕ) : Scanner UInt8 RValue := fun data =>
  (consume 91 data).bind fun data =>
    if maxDepth < depth then none
    else (enclosed isWs 44 93 (value (depth + 1)) data).map (Prod.map .list id)

/-- A key, a colon and a value. -/
def decodeMember (value : Scanner UInt8 RValue) : Scanner UInt8 (Bytes × RValue) := fun data =>
  (decodeString data).bind fun (t, data) =>
    (consume 58 (wsSkip data)).bind fun data =>
      (value (wsSkip data)).map (Prod.map (unescape t, ·) id)

/-- `decode_object`, with `decode_value` for the members, and the sort that the first
lookup makes. -/
def decodeObject (σ : MemberSort) (value : ℕ → Scanner UInt8 RValue) (depth : ℕ) :
    Scanner UInt8 RValue := fun data =>
  (consume 123 data).bind fun data =>
    if maxDepth < depth then none
    else (enclosed isWs 44 125 (decodeMember (value (depth + 1))) data).map
      (Prod.map (fun members => .object (σ.sort members)) id)

/-- `decode_value`, for at most `fuel` values within each other. -/
def decodeValue (σ : MemberSort) : ℕ → ℕ → Scanner UInt8 RValue
  | 0, _, _ => none
  | fuel + 1, depth, data =>
    match data with
    | 91 :: _ => decodeList (decodeValue σ fuel) (depth + 1) data
    | 123 :: _ => decodeObject σ (decodeValue σ fuel) (depth + 1) data
    | 34 :: _ => (decodeString data).map (Prod.map .string id)
    | 116 :: data => keyword (ascii "rue") .true data
    | 102 :: data => keyword (ascii "alse") .false data
    | 110 :: data => keyword (ascii "ull") .null data
    | _ => decodeNumber data

/-- `parse`.  The fuel is more than the recursion takes before it is stopped. -/
def parse (σ : MemberSort) (data : Bytes) : Option RValue :=
  match decodeValue σ (maxDepth + 1) 0 (wsSkip data) with
  | none => none
  | some (ret, data) => if (wsSkip data).headD 0 = 0 then some ret else none

/-- `load`, of a text with its terminating NUL. -/
def load (σ : MemberSort) (str : Bytes) : Option RValue := parse σ (str ++ [0])

/-! ### The language -/

/-- What may stand between quotes. -/
inductive StringText : Bytes → Prop
  | nil : StringText []
  | char {c s} : c ≠ 34 → c ≠ 0 → c ≠ 92 → StringText s → StringText (c :: s)
  | escape {c s} : isEscape c = true → StringText s → StringText (92 :: c :: s)
  | unicode {h1 h2 h3 h4 s} :
    check h1 = true → check h2 = true → check h3 = true → check h4 = true → StringText s →
      StringText (92 :: 117 :: h1 :: h2 :: h3 :: h4 :: s)

/-- A member of an object: its key is decoded. -/
inductive MemberText (value : Lang UInt8 RValue) : Lang UInt8 (Bytes × RValue)
  | mk {raw w w' v t} : StringText raw → w.all isWs = true → w'.all isWs = true → value v t →
    MemberText value (unescape raw, v) (34 :: (raw ++ 34 :: (w ++ 58 :: (w' ++ t))))

/-- The text spells the value. -/
inductive JsonText (σ : MemberSort) : Lang UInt8 RValue
  | null : JsonText σ .null (ascii "null")
  | true : JsonText σ .true (ascii "true")
  | false : JsonText σ .false (ascii "false")
  | number (lit) : JsonText σ (.number lit) lit.text
  | string {raw} : StringText raw → JsonText σ (.string raw) (34 :: (raw ++ [34]))
  | list {l t} : Enclosed isWs 44 (JsonText σ) l t → JsonText σ (.list l) (91 :: (t ++ [93]))
  | object {members t} : Enclosed isWs 44 (MemberText (JsonText σ)) members t →
    JsonText σ (.object (σ.sort members)) (123 :: (t ++ [125]))

/-- Containers are nested at most `n` deep in the value. -/
def NestedIn : ℕ → RValue → Prop
  | 0, .list _ | 0, .object _ => False
  | n + 1, .list l => ∀ v ∈ l, NestedIn n v
  | n + 1, .object members => ∀ m ∈ members, NestedIn n m.2
  | _, _ => True

/-- The body spells the value, with blanks around it. -/
def Spells (σ : MemberSort) (s : Bytes) (v : RValue) : Prop :=
  ∃ w t w', w.all isWs = true ∧ w'.all isWs = true ∧ JsonText σ v t ∧ s = w ++ (t ++ w')

/-! ### Strings -/

theorem stringText_quote (s : Bytes) : stringText (34 :: s) = some ([], s) := by
  rw [stringText.eq_def]
  rfl

theorem stringText_char {c : UInt8} (h34 : c ≠ 34) (h0 : c ≠ 0) (h92 : c ≠ 92) (s : Bytes) :
    stringText (c :: s) = (stringText s).map (Prod.map (c :: ·) id) := by
  rw [stringText.eq_def]
  dsimp only
  rw [if_neg h34, if_neg h0, if_neg h92]

theorem stringText_escape {c : UInt8} (h : isEscape c = true) (s : Bytes) :
    stringText (92 :: c :: s) = (stringText s).map (Prod.map ([92, c] ++ ·) id) := by
  rw [stringText, if_neg (by decide), if_neg (by decide), if_pos rfl, if_pos h]
  -- a `u` is no escape of this kind
  rintro h1 h2 h3 h4 s' rfl -
  exact absurd h (by decide)

theorem stringText_unicode {h1 h2 h3 h4 : UInt8}
    (h : (check h1 && check h2 && check h3 && check h4) = true) (s : Bytes) :
    stringText (92 :: 117 :: h1 :: h2 :: h3 :: h4 :: s) =
      (stringText s).map (Prod.map ([92, 117, h1, h2, h3, h4] ++ ·) id) := by
  rw [stringText, if_neg (by decide), if_neg (by decide), if_pos rfl, if_pos h]

/-- The text runs up to the first quote that no backslash stands before. -/
theorem stringText_sound {s raw r : Bytes} (h : stringText s = some (raw, r)) :
    s = raw ++ 34 :: r ∧ StringText raw := by
  -- what the rest of the text gives, with a piece put in front of it
  have hmap : ∀ {piece s : Bytes} {raw : Bytes},
      (∀ {raw}, stringText s = some (raw, r) → s = raw ++ 34 :: r ∧ StringText raw) →
      (stringText s).map (Prod.map (piece ++ ·) id) = some (raw, r) →
        ∃ raw', raw = piece ++ raw' ∧ s = raw' ++ 34 :: r ∧ StringText raw' := by
    intro piece s raw ih h
    obtain ⟨⟨raw', r'⟩, hrest, heq⟩ := Option.map_eq_some_iff.mp h
    rw [Prod.map_apply, id_eq, Prod.mk.injEq] at heq
    obtain ⟨rfl, rfl⟩ := heq
    exact ⟨raw', rfl, ih hrest⟩
  fun_induction stringText s generalizing raw with
  | case1 => simp at h
  | case2 s =>
    rw [Option.some.injEq, Prod.mk.injEq] at h
    obtain ⟨rfl, rfl⟩ := h
    exact ⟨rfl, .nil⟩
  | case3 => simp at h
  | case4 h1 h2 h3 h4 s hcheck _ _ ih =>
    obtain ⟨raw', rfl, rfl, hraw⟩ := hmap ih h
    simp only [Bool.and_eq_true] at hcheck
    exact ⟨rfl, .unicode hcheck.1.1.1 hcheck.1.1.2 hcheck.1.2 hcheck.2 hraw⟩
  | case5 => simp at h
  | case6 c s _ hescape _ _ ih =>
    obtain ⟨raw', rfl, rfl, hraw⟩ := hmap ih h
    exact ⟨rfl, .escape hescape hraw⟩
  | case7 => simp at h
  | case8 => simp at h
  | case9 c s h34 h0 h92 ih =>
    obtain ⟨raw', rfl, rfl, hraw⟩ :=
      hmap ih (show (stringText s).map (Prod.map ([c] ++ ·) id) = some (raw, r) from h)
    exact ⟨rfl, .char h34 h0 h92 hraw⟩

theorem stringText_complete {raw : Bytes} (h : StringText raw) (r : Bytes) :
    stringText (raw ++ 34 :: r) = some (raw, r) := by
  induction h with
  | nil => exact stringText_quote r
  | char h34 h0 h92 _ ih => rw [List.cons_append, stringText_char h34 h0 h92, ih]; rfl
  | escape hc _ ih => rw [List.cons_append, List.cons_append, stringText_escape hc, ih]; rfl
  | unicode h1 h2 h3 h4 _ ih =>
    simp only [List.cons_append]
    rw [stringText_unicode (by rw [h1, h2, h3, h4]; rfl), ih]
    rfl

theorem reads_stringText :
    Reads stringText (fun raw t => t = raw ++ [34] ∧ StringText raw) (fun _ => True) := by
  refine ⟨?_, ?_⟩
  · intro s raw r h
    obtain ⟨rfl, hraw⟩ := stringText_sound h
    exact ⟨raw ++ [34], by simp, rfl, hraw⟩
  · rintro raw t r ⟨rfl, hraw⟩ -
    rw [List.append_assoc]
    exact stringText_complete hraw r

theorem consume_eq_some {c : UInt8} {s r : Bytes} : consume c s = some r ↔ s = c :: r := by
  cases s with
  | nil => simp [consume]
  | cons d s =>
    rw [consume]
    split
    · next h => simp [h]
    · next h => simp [h]

/-- A character first, which has to be there. -/
theorem reads_consume {α : Type} {p : Scanner UInt8 α} {L : Lang UInt8 α} {F : Bytes → Prop}
    (h : Reads p L F) (c : UInt8) :
    Reads (fun s => (consume c s).bind p) (fun a t => ∃ t', t = c :: t' ∧ L a t') F := by
  refine ⟨?_, ?_⟩
  · intro s a r hs
    obtain ⟨s', hc, ha⟩ := Option.bind_eq_some_iff.mp hs
    obtain ⟨t, rfl, hL⟩ := h.sound ha
    exact ⟨c :: t, consume_eq_some.mp hc, t, rfl, hL⟩
  · rintro a t r ⟨t', rfl, hL⟩ hr
    rw [List.cons_append, consume_eq_some.mpr rfl]
    exact h.complete hL hr

theorem reads_decodeString :
    Reads decodeString (fun raw t => t = 34 :: (raw ++ [34]) ∧ StringText raw)
      (fun _ => True) := by
  refine (reads_consume reads_stringText 34).congr fun raw t => ?_
  constructor
  · rintro ⟨_, rfl, rfl, hraw⟩
    exact ⟨rfl, hraw⟩
  · rintro ⟨rfl, hraw⟩
    exact ⟨_, rfl, rfl, hraw⟩

/-! ### Numbers -/

/-- What comes next does not go on with a number. -/
def NumberEnds (r : Bytes) : Prop := ∀ c t, r = c :: t → isNumberChar c = false

/-- The other characters end a number, and so lead nowhere inside one. -/
theorem isNumberChar_of_accepts {st : NumberParsingState} {c : UInt8} {t : Bytes}
    (h : st.Accepts (c :: t)) : isNumberChar c = true := by
  rw [NumberParsingState.accepts_cons] at h
  by_cases hdigit : isDigit c = true
  · simp [isNumberChar, hdigit]
  · rcases NumberParsingState.next_of_not_isDigit hdigit st with rfl | rfl | rfl | rfl | rfl | hnext
    · rfl
    · rfl
    · rfl
    · rfl
    · rfl
    · rw [hnext] at h
      exact absurd h (NumberParsingState.not_accepts_invalid t)

theorem numberText_sound {s : Bytes} : ∀ {st : NumberParsingState} {t : {t // st.Accepts t}}
    {r : Bytes}, numberText st s = some (t, r) → s = t.1 ++ r := by
  induction s with
  | nil =>
    intro st t r h
    rw [numberText] at h
    split at h
    · rw [Option.some.injEq, Prod.mk.injEq] at h
      rw [← h.1, ← h.2]
      rfl
    · simp at h
  | cons c s ih =>
    intro st t r h
    rw [numberText] at h
    split at h
    · simp at h
    split at h
    · obtain ⟨⟨t', r'⟩, hrest, heq⟩ := Option.map_eq_some_iff.mp h
      rw [Prod.map_apply, id_eq, Prod.mk.injEq] at heq
      rw [← heq.1, ← heq.2, ih hrest]
      rfl
    split at h
    · rw [Option.some.injEq, Prod.mk.injEq] at h
      rw [← h.1, ← h.2]
      rfl
    · simp at h

/-- A literal is read to its end, and no further. -/
theorem numberText_complete {r : Bytes} (hr : NumberEnds r) : ∀ (t : Bytes)
    {st : NumberParsingState} (h : st.Accepts t),
    numberText st (t ++ r) = some (⟨t, h⟩, r) := by
  intro t
  induction t with
  | nil =>
    intro st h
    have hacc : st.accepts = true := h
    cases r with
    | nil => rw [List.nil_append, numberText, dif_pos hacc]
    | cons c r =>
      have hst : st ≠ .invalid := by
        rintro rfl
        exact NumberParsingState.not_accepts_invalid [] h
      rw [List.nil_append, numberText, if_neg hst, if_neg (by simp [hr c r rfl]), dif_pos hacc]
  | cons c t ih =>
    intro st h
    have hst : st ≠ .invalid := by
      rintro rfl
      exact NumberParsingState.not_accepts_invalid _ h
    have hnext : (st.next c).Accepts t := h
    rw [List.cons_append, numberText, if_neg hst, if_pos (isNumberChar_of_accepts h), ih hnext]
    rfl

theorem reads_numberText :
    Reads (numberText .minus) (fun t s => s = t.1) NumberEnds := by
  refine ⟨?_, ?_⟩
  · intro s t r h
    exact ⟨t.1, numberText_sound h, rfl⟩
  · rintro t s r rfl hr
    exact numberText_complete hr t.1 t.2

theorem reads_decodeNumber :
    Reads decodeNumber (fun v t => ∃ lit : NumberLit, v = .number lit ∧ t = lit.text)
      NumberEnds := by
  refine (reads_numberText.map fun t => RValue.number ⟨t.1, t.2⟩).congr fun v s => ?_
  constructor
  · rintro ⟨t, rfl, rfl⟩
    exact ⟨⟨t.1, t.2⟩, rfl, rfl⟩
  · rintro ⟨lit, rfl, rfl⟩
    exact ⟨⟨lit.text, lit.accepted⟩, rfl, rfl⟩

/-! ### Values -/

theorem keyword_eq_some {rest : Bytes} {v w : RValue} {s r : Bytes} :
    keyword rest v s = some (w, r) ↔ w = v ∧ s = rest ++ r := by
  rw [keyword]
  split
  · next h =>
    obtain ⟨t, rfl⟩ := List.isPrefixOf_iff_prefix.mp h
    rw [List.drop_left, Option.some.injEq, Prod.mk.injEq, List.append_cancel_left_eq, eq_comm,
      @eq_comm _ t]
  · next h =>
    refine ⟨fun heq => by simp at heq, ?_⟩
    rintro ⟨-, rfl⟩
    exact absurd (List.isPrefixOf_iff_prefix.mpr (List.prefix_append rest r)) h

/-- A value starts with a character that is no blank and closes no container. -/
theorem jsonText_starts {σ : MemberSort} {v : RValue} {t : Bytes} (h : JsonText σ v t) :
    ∃ c t', t = c :: t' ∧ isWs c = false ∧ c ≠ 93 := by
  cases h with
  | null => exact ⟨110, _, rfl, by decide, by decide⟩
  | true => exact ⟨116, _, rfl, by decide, by decide⟩
  | false => exact ⟨102, _, rfl, by decide, by decide⟩
  | number lit =>
    cases htext : lit.text with
    | nil =>
      have hacc := lit.accepted
      rw [htext] at hacc
      exact absurd hacc (by decide)
    | cons c t =>
      have haccepted : NumberParsingState.minus.Accepts (c :: t) := htext ▸ lit.accepted
      have hchar := isNumberChar_of_accepts haccepted
      refine ⟨c, t, rfl, ?_, ?_⟩
      · rw [Bool.eq_false_iff]
        intro hws
        simp only [isWs, Bool.or_eq_true, decide_eq_true_eq] at hws
        rcases hws with ((rfl | rfl) | rfl) | rfl <;> exact absurd hchar (by decide)
      · rintro rfl
        exact absurd hchar (by decide)
  | string _ => exact ⟨34, _, rfl, by decide, by decide⟩
  | list _ => exact ⟨91, _, rfl, by decide, by decide⟩
  | object _ => exact ⟨123, _, rfl, by decide, by decide⟩

theorem numberEnds_of_isWs {c : UInt8} (h : isWs c = true ∨ c = 44 ∨ c = 93 ∨ c = 125)
    (r : Bytes) : NumberEnds (c :: r) := by
  rintro d t heq
  obtain ⟨rfl, -⟩ := List.cons.inj heq
  simp only [isWs, Bool.or_eq_true, decide_eq_true_eq] at h
  rcases h with (((rfl | rfl) | rfl) | rfl) | rfl | rfl | rfl <;> rfl

/-- A list's elements, an object's members and the blanks and commas between them. -/
theorem punctuation_list {item : Lang UInt8 RValue}
    (hitem : ∀ {v t}, item v t → ∃ c t', t = c :: t' ∧ isWs c = false ∧ c ≠ 93) :
    Punctuation isWs 44 93 item NumberEnds where
  comma_solid := by decide
  close_solid := by decide
  comma_ne := by decide
  follows r h := numberEnds_of_isWs (by tauto) r
  starts := hitem

theorem punctuation_object {item : Lang UInt8 RValue} :
    Punctuation isWs 44 125 (MemberText item) NumberEnds where
  comma_solid := by decide
  close_solid := by decide
  comma_ne := by decide
  follows r h := numberEnds_of_isWs (by tauto) r
  starts := by
    rintro m t ⟨_, _, _, _⟩
    exact ⟨34, _, rfl, by decide, by decide⟩

/-- **A member is read** when its value is. -/
theorem reads_decodeMember {value : Scanner UInt8 RValue} {item : Lang UInt8 RValue}
    (h : Reads value item NumberEnds)
    (hitem : ∀ {v t}, item v t → ∃ c t', t = c :: t' ∧ isWs c = false ∧ c ≠ 93) :
    Reads (decodeMember value) (MemberText item) NumberEnds := by
  refine ⟨?_, ?_⟩
  · intro s m r hm
    obtain ⟨⟨raw, s1⟩, hkey, hm⟩ := Option.bind_eq_some_iff.mp hm
    obtain ⟨s2, hcolon, hm⟩ := Option.bind_eq_some_iff.mp hm
    obtain ⟨⟨v, r'⟩, hvalue, heq⟩ := Option.map_eq_some_iff.mp hm
    rw [Prod.map_apply, id_eq, Prod.mk.injEq] at heq
    obtain ⟨rfl, rfl⟩ := heq
    obtain ⟨_, rfl, rfl, hraw⟩ := reads_decodeString.sound hkey
    obtain ⟨w, hw, hs1⟩ := exists_blanks isWs s1
    obtain ⟨w', hw', hs2⟩ := exists_blanks isWs s2
    obtain ⟨t, ht, hv⟩ := h.sound hvalue
    refine ⟨_, ?_, .mk hraw hw hw' hv⟩
    rw [wsSkip] at hcolon ht
    rw [hs1, consume_eq_some.mp hcolon, hs2, ht]
    simp
  · rintro m t r hm hr
    cases hm with
    | @mk raw w w' v t hraw hw hw' hv =>
    obtain ⟨c, t', hhead, hsolid, -⟩ := hitem hv
    have hassoc : (34 :: (raw ++ 34 :: (w ++ 58 :: (w' ++ t)))) ++ r =
        34 :: (raw ++ [34]) ++ (w ++ 58 :: (w' ++ (t ++ r))) := by simp
    have hcolon : wsSkip (w ++ 58 :: (w' ++ (t ++ r))) = 58 :: (w' ++ (t ++ r)) :=
      dropWhile_blanks_cons hw (by decide) _
    have hskip : wsSkip (w' ++ (t ++ r)) = t ++ r := by
      rw [wsSkip, hhead, List.cons_append, dropWhile_blanks_cons hw' hsolid]
    rw [hassoc, decodeMember, reads_decodeString.complete ⟨rfl, hraw⟩ trivial, Option.bind_some]
    simp only [hcolon, consume_eq_some.mpr rfl, Option.bind_some, hskip, h.complete hv hr]
    rfl

/-! ### Nesting -/

/-- The containers that may still be opened at this depth of the recursion. -/
def levels (depth : ℕ) : ℕ := (maxDepth + 1 - depth) / 2

theorem levels_succ {depth : ℕ} (h : depth + 1 ≤ maxDepth) :
    levels depth = levels (depth + 2) + 1 := by
  rw [levels, levels]
  omega

theorem levels_eq_zero {depth : ℕ} (h : maxDepth < depth + 1) : levels depth = 0 := by
  rw [levels]
  omega

section Containers

variable {σ : MemberSort} {value : ℕ → Scanner UInt8 RValue} {depth n : ℕ}

/-- The values that are read below: `n` more containers may be opened. -/
def TextIn (σ : MemberSort) (n : ℕ) : Lang UInt8 RValue := fun v t => JsonText σ v t ∧ NestedIn n v

theorem reads_decodeList (hdepth : depth ≤ maxDepth)
    (h : Reads (value (depth + 1)) (TextIn σ n) NumberEnds) :
    Reads (decodeList value depth)
      (fun v t => ∃ l t', v = .list l ∧ t = 91 :: (t' ++ [93]) ∧
        Enclosed isWs 44 (TextIn σ n) l t') (fun _ => True) := by
  have hlist := (reads_enclosed h (punctuation_list fun hv => jsonText_starts hv.1)).map RValue.list
  have hdecode : decodeList value depth = fun data => (consume 91 data).bind fun data =>
      (enclosed isWs 44 93 (value (depth + 1)) data).map (Prod.map .list id) := by
    funext data
    simp only [decodeList, if_neg (Nat.not_lt.mpr hdepth)]
  rw [hdecode]
  refine (reads_consume hlist 91).congr fun v t => ?_
  constructor
  · rintro ⟨_, rfl, l, rfl, t', rfl, hl⟩
    exact ⟨l, t', rfl, rfl, hl⟩
  · rintro ⟨l, t', rfl, rfl, hl⟩
    exact ⟨_, rfl, l, rfl, t', rfl, hl⟩

theorem reads_decodeObject (hdepth : depth ≤ maxDepth)
    (h : Reads (value (depth + 1)) (TextIn σ n) NumberEnds) :
    Reads (decodeObject σ value depth)
      (fun v t => ∃ members t', v = .object (σ.sort members) ∧ t = 123 :: (t' ++ [125]) ∧
        Enclosed isWs 44 (MemberText (TextIn σ n)) members t') (fun _ => True) := by
  have hmember := reads_decodeMember h fun hv => jsonText_starts hv.1
  have hobject := (reads_enclosed hmember punctuation_object).map fun members =>
    RValue.object (σ.sort members)
  have hdecode : decodeObject σ value depth = fun data => (consume 123 data).bind fun data =>
      (enclosed isWs 44 125 (decodeMember (value (depth + 1))) data).map
        (Prod.map (fun members => .object (σ.sort members)) id) := by
    funext data
    simp only [decodeObject, if_neg (Nat.not_lt.mpr hdepth)]
  rw [hdecode]
  refine (reads_consume hobject 123).congr fun v t => ?_
  constructor
  · rintro ⟨_, rfl, members, rfl, t', rfl, hmembers⟩
    exact ⟨members, t', rfl, rfl, hmembers⟩
  · rintro ⟨members, t', rfl, rfl, hmembers⟩
    exact ⟨_, rfl, members, rfl, t', rfl, hmembers⟩

theorem nestedIn_list {l : List RValue} : NestedIn (n + 1) (.list l) ↔ ∀ v ∈ l, NestedIn n v :=
  Iff.rfl

theorem nestedIn_object {members : List (Bytes × RValue)} :
    NestedIn (n + 1) (.object members) ↔ ∀ m ∈ members, NestedIn n m.2 := Iff.rfl

theorem memberText_and_iff {m : Bytes × RValue} {t : Bytes} :
    MemberText (TextIn σ n) m t ↔ MemberText (JsonText σ) m t ∧ NestedIn n m.2 := by
  constructor
  · rintro ⟨hraw, hw, hw', hv⟩
    exact ⟨⟨hraw, hw, hw', hv.1⟩, hv.2⟩
  · rintro ⟨⟨hraw, hw, hw', hv⟩, hn⟩
    exact ⟨hraw, hw, hw', hv, hn⟩

/-- The elements of a list may be nested one less deep than the list. -/
theorem textIn_list {l : List RValue} {t : Bytes} (h : Enclosed isWs 44 (TextIn σ n) l t) :
    TextIn σ (n + 1) (.list l) (91 :: (t ++ [93])) := by
  obtain ⟨hl, hn⟩ := (Enclosed.and_iff fun _ _ => Iff.rfl).mp h
  exact ⟨.list hl, nestedIn_list.mpr hn⟩

theorem textIn_object {members : List (Bytes × RValue)} {t : Bytes}
    (h : Enclosed isWs 44 (MemberText (TextIn σ n)) members t) :
    TextIn σ (n + 1) (.object (σ.sort members)) (123 :: (t ++ [125])) := by
  obtain ⟨hmembers, hn⟩ := (Enclosed.and_iff fun m t => memberText_and_iff (m := m) (t := t)).mp h
  exact ⟨.object hmembers, nestedIn_object.mpr fun m hm => hn m ((σ.perm members).mem_iff.mp hm)⟩

end Containers

/-! ### The parser -/

section Value

variable {σ : MemberSort} {fuel depth : ℕ}

/-- Any character that may be in a number leads to `decode_number`. -/
theorem decodeValue_number {c : UInt8} (hc : isNumberChar c = true) (s : Bytes) :
    decodeValue σ (fuel + 1) depth (c :: s) = decodeNumber (c :: s) := by
  rw [decodeValue]
  · rintro data heq
    obtain ⟨rfl, -⟩ := List.cons.inj heq
    exact absurd hc (by decide)
  · rintro data heq
    obtain ⟨rfl, -⟩ := List.cons.inj heq
    exact absurd hc (by decide)
  · rintro data heq
    obtain ⟨rfl, -⟩ := List.cons.inj heq
    exact absurd hc (by decide)
  · rintro data heq
    obtain ⟨rfl, -⟩ := List.cons.inj heq
    exact absurd hc (by decide)
  · rintro data heq
    obtain ⟨rfl, -⟩ := List.cons.inj heq
    exact absurd hc (by decide)
  · rintro data heq
    obtain ⟨rfl, -⟩ := List.cons.inj heq
    exact absurd hc (by decide)

/-- Where no container may be opened any more, none is. -/
theorem decodeList_eq_none {value : ℕ → Scanner UInt8 RValue} (h : maxDepth < depth) (s : Bytes) :
    decodeList value depth s = none := by
  rw [decodeList]
  cases consume 91 s <;> simp [h]

theorem decodeObject_eq_none {value : ℕ → Scanner UInt8 RValue} (h : maxDepth < depth)
    (s : Bytes) : decodeObject σ value depth s = none := by
  rw [decodeObject]
  cases consume 123 s <;> simp [h]

/-- A container may be opened here when the value is one. -/
theorem exists_level {v : RValue} (hn : NestedIn (levels depth) v)
    (hv : ¬ NestedIn 0 v) : depth + 1 ≤ maxDepth := by
  by_contra hdepth
  rw [levels_eq_zero (Nat.not_le.mp hdepth)] at hn
  exact hv hn

/-- **The parser's recursion reads the values** that are nested no deeper than it may still
go. -/
theorem reads_decodeValue : ∀ fuel depth, levels depth < fuel →
    Reads (decodeValue σ fuel depth) (TextIn σ (levels depth)) NumberEnds := by
  intro fuel
  induction fuel with
  | zero => exact fun depth h => absurd h (Nat.not_lt_zero _)
  | succ fuel ih =>
    intro depth hfuel
    -- two levels of the recursion make one of the value
    have hbelow : depth + 1 ≤ maxDepth →
        Reads (decodeValue σ fuel (depth + 2)) (TextIn σ (levels (depth + 2))) NumberEnds := by
      intro hdepth
      rw [levels_succ hdepth] at hfuel
      exact ih (depth + 2) (Nat.lt_of_succ_lt_succ hfuel)
    refine ⟨?_, ?_⟩
    · intro s v r h
      unfold decodeValue at h
      split at h
      · by_cases hdepth : depth + 1 ≤ maxDepth
        · obtain ⟨t, hs, l, t', rfl, rfl, hl⟩ :=
            (reads_decodeList hdepth (hbelow hdepth)).sound h
          rw [levels_succ hdepth]
          exact ⟨_, hs, textIn_list hl⟩
        · rw [decodeList_eq_none (Nat.not_le.mp hdepth)] at h
          simp at h
      · by_cases hdepth : depth + 1 ≤ maxDepth
        · obtain ⟨t, hs, members, t', rfl, rfl, hmembers⟩ :=
            (reads_decodeObject hdepth (hbelow hdepth)).sound h
          rw [levels_succ hdepth]
          exact ⟨_, hs, textIn_object hmembers⟩
        · rw [decodeObject_eq_none (Nat.not_le.mp hdepth)] at h
          simp at h
      · obtain ⟨t, hs, raw, rfl, rfl, hraw⟩ := (reads_decodeString.map RValue.string).sound h
        exact ⟨_, hs, .string hraw, by simp [NestedIn]⟩
      · obtain ⟨rfl, rfl⟩ := keyword_eq_some.mp h
        exact ⟨ascii "true", rfl, .true, by simp [NestedIn]⟩
      · obtain ⟨rfl, rfl⟩ := keyword_eq_some.mp h
        exact ⟨ascii "false", rfl, .false, by simp [NestedIn]⟩
      · obtain ⟨rfl, rfl⟩ := keyword_eq_some.mp h
        exact ⟨ascii "null", rfl, .null, by simp [NestedIn]⟩
      · obtain ⟨t, rfl, lit, rfl, rfl⟩ := reads_decodeNumber.sound h
        exact ⟨_, rfl, .number lit, by simp [NestedIn]⟩
    · rintro v t r ⟨hv, hn⟩ hr
      cases hv with
      | null => exact keyword_eq_some.mpr ⟨rfl, rfl⟩
      | true => exact keyword_eq_some.mpr ⟨rfl, rfl⟩
      | false => exact keyword_eq_some.mpr ⟨rfl, rfl⟩
      | number lit =>
        obtain ⟨c, t, htext, -⟩ := jsonText_starts (σ := σ) (.number lit)
        have haccepted : NumberParsingState.minus.Accepts (c :: t) := htext ▸ lit.accepted
        have hc := isNumberChar_of_accepts haccepted
        have hread := reads_decodeNumber.complete ⟨lit, rfl, rfl⟩ hr
        rw [htext, List.cons_append] at hread ⊢
        rw [decodeValue_number hc, hread]
      | string hraw =>
        exact (reads_decodeString.map RValue.string).complete ⟨_, rfl, rfl, hraw⟩ trivial
      | list hl =>
        have hdepth := exists_level hn (by simp [NestedIn])
        rw [levels_succ hdepth, nestedIn_list] at hn
        have htexts := (Enclosed.and_iff fun _ _ => Iff.rfl).mpr ⟨hl, hn⟩
        exact (reads_decodeList hdepth (hbelow hdepth)).complete ⟨_, _, rfl, rfl, htexts⟩ trivial
      | @object members _ hmembers =>
        have hdepth := exists_level hn (by simp [NestedIn])
        rw [levels_succ hdepth, nestedIn_object] at hn
        have hn' : ∀ m ∈ members, NestedIn (levels (depth + 2)) m.2 :=
          fun m hm => hn m ((σ.perm members).mem_iff.mpr hm)
        have htexts := (Enclosed.and_iff fun m t => memberText_and_iff (m := m) (t := t)).mpr
          ⟨hmembers, hn'⟩
        exact (reads_decodeObject hdepth (hbelow hdepth)).complete ⟨_, _, rfl, rfl, htexts⟩ trivial

end Value

/-! ### The body -/

theorem ne_zero_of_isWs {c : UInt8} (h : isWs c = true) : c ≠ 0 := by
  rintro rfl
  exact absurd h (by decide)

theorem ne_zero_of_blanks {w : Bytes} (hw : w.all isWs = true) : ∀ c ∈ w, c ≠ 0 :=
  fun c hc => ne_zero_of_isWs (List.all_eq_true.mp hw c hc)

theorem ne_zero_of_stringText {raw : Bytes} (h : StringText raw) : ∀ c ∈ raw, c ≠ 0 := by
  have hcheck : ∀ {c : UInt8}, check c = true → c ≠ 0 := by
    rintro c hc rfl
    exact absurd hc (by decide)
  induction h with
  | nil => simp
  | char _ h0 _ _ ih => exact List.forall_mem_cons.mpr ⟨h0, ih⟩
  | escape hc _ ih =>
    refine List.forall_mem_cons.mpr ⟨by decide, List.forall_mem_cons.mpr ⟨?_, ih⟩⟩
    rintro rfl
    exact absurd hc (by decide)
  | unicode h1 h2 h3 h4 _ ih =>
    simp only [List.forall_mem_cons]
    exact ⟨by decide, by decide, hcheck h1, hcheck h2, hcheck h3, hcheck h4, ih⟩

theorem ne_zero_of_accepts (t : Bytes) : ∀ {st : NumberParsingState}, st.Accepts t →
    ∀ c ∈ t, c ≠ 0 := by
  induction t with
  | nil => simp
  | cons c t ih =>
    intro st h
    have hrest : (st.next c).Accepts t := h
    refine List.forall_mem_cons.mpr ⟨?_, ih hrest⟩
    rintro rfl
    exact absurd (isNumberChar_of_accepts h) (by decide)

/-- A text of a value has no NUL. -/
theorem ne_zero_of_textIn {σ : MemberSort} (n : ℕ) : ∀ {v : RValue} {t : Bytes},
    TextIn σ n v t → ∀ c ∈ t, c ≠ 0 := by
  have hquoted : ∀ {raw t : Bytes}, StringText raw → (∀ c ∈ t, c ≠ 0) →
      ∀ c ∈ 34 :: (raw ++ 34 :: t), c ≠ 0 := by
    intro raw t hraw ht
    refine List.forall_mem_cons.mpr ⟨by decide, List.forall_mem_append.mpr ?_⟩
    exact ⟨ne_zero_of_stringText hraw, List.forall_mem_cons.mpr ⟨by decide, ht⟩⟩
  induction n using Nat.strong_induction_on with
  | _ n ih =>
    rintro v t ⟨hv, hn⟩
    cases hv with
    | null => exact (by simp : ∀ c ∈ ([110, 117, 108, 108] : Bytes), c ≠ 0)
    | true => exact (by simp : ∀ c ∈ ([116, 114, 117, 101] : Bytes), c ≠ 0)
    | false => exact (by simp : ∀ c ∈ ([102, 97, 108, 115, 101] : Bytes), c ≠ 0)
    | number lit => exact ne_zero_of_accepts _ lit.accepted
    | string hraw => exact hquoted hraw (by simp)
    | list hl =>
      cases n with
      | zero => simp [NestedIn] at hn
      | succ n =>
        have htexts := (Enclosed.and_iff fun _ _ => Iff.rfl).mpr ⟨hl, nestedIn_list.mp hn⟩
        have hinner := Enclosed.forall_mem (P := (· ≠ 0)) (fun _ => ne_zero_of_isWs) (by decide)
          (fun _ _ => ih n (Nat.lt_succ_self n)) htexts
        refine List.forall_mem_cons.mpr ⟨by decide, List.forall_mem_append.mpr ⟨hinner, ?_⟩⟩
        simp
    | @object members t hmembers =>
      cases n with
      | zero => simp [NestedIn] at hn
      | succ n =>
        have hn' : ∀ m ∈ members, NestedIn n m.2 :=
          fun m hm => nestedIn_object.mp hn m ((σ.perm members).mem_iff.mpr hm)
        have htexts := (Enclosed.and_iff fun m t => memberText_and_iff (m := m) (t := t)).mpr
          ⟨hmembers, hn'⟩
        have hinner := Enclosed.forall_mem (P := (· ≠ 0)) (fun _ => ne_zero_of_isWs) (by decide)
          (by
            rintro m t ⟨hraw, hw, hw', hv⟩
            refine hquoted hraw (List.forall_mem_append.mpr ⟨ne_zero_of_blanks hw, ?_⟩)
            refine List.forall_mem_cons.mpr ⟨by decide, List.forall_mem_append.mpr ?_⟩
            exact ⟨ne_zero_of_blanks hw', ih n (Nat.lt_succ_self n) hv⟩) htexts
        refine List.forall_mem_cons.mpr ⟨by decide, List.forall_mem_append.mpr ⟨hinner, ?_⟩⟩
        simp

theorem cstr_append_zero {p : Bytes} (h : ∀ c ∈ p, c ≠ 0) (u : Bytes) :
    cstr (p ++ 0 :: u) = p := by
  rw [cstr, List.takeWhile_append_of_pos fun c hc => bne_iff_ne.mpr (h c hc)]
  simp

theorem ne_zero_of_mem_cstr {s : Bytes} : ∀ c ∈ cstr s, c ≠ 0 := by
  intro c hc
  have := List.mem_takeWhile_imp hc
  simpa using this

/-- The copy that is parsed is the text up to its first NUL, and a NUL. -/
theorem exists_terminated (s : Bytes) : ∃ u, s ++ [0] = cstr s ++ 0 :: u := by
  induction s with
  | nil => exact ⟨[], rfl⟩
  | cons c s ih =>
    by_cases hc : c = 0
    · subst hc
      exact ⟨s ++ [0], rfl⟩
    · obtain ⟨u, hu⟩ := ih
      exact ⟨u, by rw [cstr_cons_of_ne hc, List.cons_append, hu, List.cons_append]⟩

/-- **The parser accepts exactly the bodies that spell a value** nested in containers at most
5000 deep, up to the first NUL, and finds that value. -/
theorem load_eq_some_iff {σ : MemberSort} {s : Bytes} {v : RValue} :
    load σ s = some v ↔ Spells σ (cstr s) v ∧ NestedIn 5000 v := by
  have hreads : Reads (decodeValue σ (maxDepth + 1) 0) (TextIn σ 5000) NumberEnds :=
    reads_decodeValue (maxDepth + 1) 0 (by decide)
  obtain ⟨u, hu⟩ := exists_terminated s
  rw [load, parse, hu]
  constructor
  · intro h
    split at h
    · simp at h
    · next ret data hvalue =>
      split at h
      · next hend =>
        rw [Option.some.injEq] at h
        subst h
        obtain ⟨t, ht, htext⟩ := hreads.sound hvalue
        obtain ⟨w, hw, hs⟩ := exists_blanks isWs (cstr s ++ 0 :: u)
        obtain ⟨w', hw', hdata⟩ := exists_blanks isWs data
        have hfree : ∀ c ∈ w ++ (t ++ w'), c ≠ 0 :=
          List.forall_mem_append.mpr ⟨ne_zero_of_blanks hw,
            List.forall_mem_append.mpr ⟨ne_zero_of_textIn 5000 htext, ne_zero_of_blanks hw'⟩⟩
        have hbody : cstr s ++ 0 :: u = (w ++ (t ++ w')) ++ wsSkip data := by
          rw [wsSkip] at ht ⊢
          rw [hs, ht, List.append_assoc, List.append_assoc, ← hdata]
        -- what is left starts with the NUL that ends the copy
        refine ⟨⟨w, t, w', hw, hw', htext.1, ?_⟩, htext.2⟩
        cases hrest : wsSkip data with
        | nil =>
          rw [hrest, List.append_nil] at hbody
          exact absurd rfl (hfree 0 (hbody ▸ List.mem_append_cons_self))
        | cons c r =>
          rw [hrest, List.headD_cons] at hend
          rw [hrest, hend] at hbody
          rw [← cstr_append_zero ne_zero_of_mem_cstr u, hbody, cstr_append_zero hfree]
      · simp at h
  · rintro ⟨⟨w, t, w', hw, hw', hv, hs⟩, hn⟩
    obtain ⟨c, t', hhead, hsolid, -⟩ := jsonText_starts hv
    have hskip : wsSkip (cstr s ++ 0 :: u) = t ++ (w' ++ 0 :: u) := by
      rw [hs, List.append_assoc, List.append_assoc, wsSkip, hhead, List.cons_append,
        dropWhile_blanks_cons hw hsolid]
    have hends : NumberEnds (w' ++ 0 :: u) := by
      cases w' with
      | nil =>
        rintro d r heq
        obtain ⟨rfl, -⟩ := List.cons.inj heq
        decide
      | cons d w' =>
        rw [List.all_cons, Bool.and_eq_true] at hw'
        exact numberEnds_of_isWs (Or.inl hw'.1) _
    have hrest : wsSkip (w' ++ 0 :: u) = 0 :: u := dropWhile_blanks_cons hw' (by decide) u
    rw [hskip, hreads.complete ⟨hv, hn⟩ hends]
    simp [hrest]

end JobScheduler
