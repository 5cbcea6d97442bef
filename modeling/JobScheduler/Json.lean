import JobScheduler.Fault
import Mathlib.Algebra.Group.Int.Defs

/-!
# JSON values as Crow reads them

The part of `crow::json::rvalue` that the service layer uses: the type of a
value, `has` and `operator[]` on objects, and the accessors `i` and `s`.  A value
keeps the text it was parsed from: a number its literal, a string the text
between its quotes, which `s` decodes.

Crow sorts an object's members by key the first time one is looked up, with an
unstable sort, and takes the first of the members with the key.  `object` holds
the members as that sort leaves them, so every choice among repeated keys is some
value of the type.

## Main definitions

* `NumberLit` — the literals that `decode_number` accepts.
* `unescape` — the decoding of a string's text.
* `RValue` — JSON values.
* `RValue.has`, `RValue.get`, `RValue.i`, `RValue.s` — the accessors, which throw
  on a value of the wrong type.
* `NumberLit.integer?` — the value of a plain integer literal.

## Main results

* `unescape_escape` — every text has a form in which it is read back.
* `NumberLit.lexicalCast_of_integer` — `i` reads a plain integer literal in the
  `int64_t` range at its value.
-/

namespace JobScheduler

open CText

/-- `crow::json::type`, without `Function`, which is never parsed. -/
inductive JsonType
  | null
  | false
  | true
  | number
  | string
  | list
  | object
  deriving DecidableEq, Repr

/-- `get_type_str`, which has no case for `Null`. -/
def getTypeStr : JsonType → Bytes
  | .number => ascii "Number"
  | .false => ascii "False"
  | .true => ascii "True"
  | .list => ascii "List"
  | .string => ascii "String"
  | .object => ascii "Object"
  | .null => ascii "Unknown"

/-! ### Numbers -/

/-- The states of `decode_number`. -/
inductive NumberParsingState
  | minus
  | afterMinus
  | zeroFirst
  | digits
  | digitsAfterPoints
  | e
  | digitsAfterE
  | invalid
  deriving DecidableEq, Repr

/-- One character of `decode_number`; the columns of the source's tables. -/
def NumberParsingState.next (st : NumberParsingState) (c : UInt8) : NumberParsingState :=
  if c = 48 then
    match st with
    | .minus | .afterMinus => .zeroFirst
    | .digits => .digits
    | .digitsAfterPoints => .digitsAfterPoints
    | .e | .digitsAfterE => .digitsAfterE
    | .zeroFirst | .invalid => .invalid
  else if 49 ≤ c && c ≤ 57 then
    match st with
    | .minus | .afterMinus | .digits => .digits
    | .digitsAfterPoints => .digitsAfterPoints
    | .e | .digitsAfterE => .digitsAfterE
    | .zeroFirst | .invalid => .invalid
  else if c = 46 then
    match st with
    | .zeroFirst | .digits => .digitsAfterPoints
    | _ => .invalid
  else if c = 45 then
    match st with
    | .minus => .afterMinus
    | .e => .digitsAfterE
    | _ => .invalid
  else if c = 43 then
    match st with
    | .e => .digitsAfterE
    | _ => .invalid
  else if c = 101 || c = 69 then
    match st with
    | .digits | .digitsAfterPoints => .e
    | _ => .invalid
  else .invalid

/-- The states in which a number may end. -/
def NumberParsingState.accepts : NumberParsingState → Bool
  | .zeroFirst | .digits | .digitsAfterPoints | .digitsAfterE => true
  | _ => false

/-- A number literal that `decode_number` accepts. -/
structure NumberLit where
  text : Bytes
  accepted : (text.foldl NumberParsingState.next .minus).accepts = true

/-- The nearest 64-bit integer. -/
def clampInt64 (n : ℤ) : Int64 :=
  if n < -2 ^ 63 then Int64.minValue
  else if 2 ^ 63 ≤ n then Int64.maxValue
  else Int64.ofInt n

@[simp] theorem clampInt64_toInt (v : Int64) : clampInt64 v.toInt = v := by
  have h1 := Int64.toInt_lt v
  have h2 := Int64.le_toInt v
  rw [clampInt64, if_neg (by omega), if_neg (by omega), Int64.ofInt_toInt]

/-- `utility::lexical_cast<int64_t>`: stream extraction.  A stream with nothing
but blanks left sets no result, and `uninit` is what the uninitialised variable
holds; without a digit the result is 0, and out of range it is the nearer
bound. -/
def lexicalCast (uninit : Int64) (text : Bytes) : Int64 :=
  if (text.dropWhile isSpace).isEmpty then uninit
  else match scanInteger text with
    | none => 0
    | some (neg, m) => clampInt64 (if neg then -m else m)

/-- The value of a plain integer literal: an optional minus and digits, with no
fraction and no exponent. -/
def NumberLit.integer? (lit : NumberLit) : Option ℤ :=
  let signed := scanSign lit.text
  if signed.2.all isDigit && !signed.2.isEmpty then
    some (if signed.1 then -(digitsValue signed.2) else digitsValue signed.2)
  else none

/-- Text with a number in front is read as that number. -/
theorem lexicalCast_of_scan {uninit : Int64} {text : Bytes} {neg : Bool} {m : ℕ}
    (h : scanInteger text = some (neg, m)) :
    lexicalCast uninit text = clampInt64 (if neg then -m else m) := by
  have hne : (text.dropWhile isSpace).isEmpty = false := by
    cases hd : text.dropWhile isSpace with
    | nil => simp [scanInteger, hd, scanSign] at h
    | cons c s => rfl
  rw [lexicalCast, hne, h]
  rfl

/-- **A plain integer literal in the `int64_t` range is read at its value.** -/
theorem NumberLit.lexicalCast_of_integer {lit : NumberLit} {v : Int64}
    (h : lit.integer? = some v.toInt) (uninit : Int64) : lexicalCast uninit lit.text = v := by
  simp only [integer?] at h
  split at h
  · next hds =>
    rw [Bool.and_eq_true, Bool.not_eq_true', List.isEmpty_eq_false_iff] at hds
    rw [lexicalCast_of_scan (scanInteger_signed hds.1 hds.2), Option.some.inj h, clampInt64_toInt]
  · simp at h

/-! ### Strings -/

/-- `from_hex`. -/
def fromHex (c : UInt8) : ℕ :=
  if 97 ≤ c then c.toNat - 97 + 10
  else if 65 ≤ c then c.toNat - 65 + 10
  else c.toNat - 48

/-- The bytes that `unescape` writes for the code unit of a `\u` escape. -/
def encodeUnit (code : ℕ) : Bytes :=
  if 0x800 ≤ code then
    [UInt8.ofNat (0xE0 ||| (code >>> 12)), UInt8.ofNat (0x80 ||| ((code >>> 6) &&& 0x3F)),
      UInt8.ofNat (0x80 ||| (code &&& 0x3F))]
  else if 0x80 ≤ code then
    [UInt8.ofNat (0xC0 ||| (code >>> 6)), UInt8.ofNat (0x80 ||| (code &&& 0x3F))]
  else [UInt8.ofNat code]

/-- The byte that `unescape` writes for a backslash and `c`; nothing for other
characters, which the parser does not let through. -/
def escaped (c : UInt8) : Bytes :=
  if c = 34 || c = 92 || c = 47 then [c]
  else if c = 98 then [8]
  else if c = 102 then [12]
  else if c = 110 then [10]
  else if c = 114 then [13]
  else if c = 116 then [9]
  else []

/-- `rvalue::unescape`. -/
def unescape : Bytes → Bytes
  | 92 :: 117 :: h1 :: h2 :: h3 :: h4 :: s =>
    encodeUnit ((fromHex h1 <<< 12) + (fromHex h2 <<< 8) + (fromHex h3 <<< 4) + fromHex h4)
      ++ unescape s
  | 92 :: c :: s => escaped c ++ unescape s
  | c :: s => c :: unescape s
  | [] => []

theorem unescape_cons_of_ne {c : UInt8} (h : c ≠ 92) (s : Bytes) :
    unescape (c :: s) = c :: unescape s := by
  rw [unescape]
  · rintro h1 h2 h3 h4 s' rfl
    exact absurd rfl h
  · rintro c' s' rfl
    exact absurd rfl h

theorem unescape_backslash {c : UInt8} (h : c ≠ 117) (s : Bytes) :
    unescape (92 :: c :: s) = escaped c ++ unescape s := by
  rw [unescape]
  rintro h1 h2 h3 h4 s' rfl
  exact absurd rfl h

/-- Text as it stands between quotes. -/
def escape (s : Bytes) : Bytes := s.flatMap fun c => if c = 34 || c = 92 then [92, c] else [c]

/-- **Escaped text is read back.** -/
theorem unescape_escape (s : Bytes) : unescape (escape s) = s := by
  induction s with
  | nil => rfl
  | cons c s ih =>
    have hcons : escape (c :: s) = (if c = 34 || c = 92 then [92, c] else [c]) ++ escape s := rfl
    rw [hcons]
    split
    · next h =>
      rw [Bool.or_eq_true, decide_eq_true_eq, decide_eq_true_eq] at h
      rw [List.cons_append, List.singleton_append, unescape_backslash, ih]
      · rcases h with rfl | rfl <;> rfl
      · rcases h with rfl | rfl <;> decide
    · next h =>
      have hc : c ≠ 92 := fun hc => h (by simp [hc])
      rw [List.singleton_append, unescape_cons_of_ne hc, ih]

example : unescape (ascii "a\\n\\u0041\\u0000") = [97, 10, 65, 0] := by decide

/-! ### Values -/

/-- `crow::json::rvalue`, of a value that parsed. -/
inductive RValue
  | null
  | false
  | true
  | number (lit : NumberLit)
  /-- The text between the quotes, escapes and all. -/
  | string (raw : Bytes)
  | list (l : List RValue)
  /-- The members, with their decoded keys, in the order `has` sorts them into. -/
  | object (members : List (Bytes × RValue))

namespace RValue

/-- `rvalue::t`. -/
def t : RValue → JsonType
  | .null => .null
  | .false => .false
  | .true => .true
  | .number _ => .number
  | .string _ => .string
  | .list _ => .list
  | .object _ => .object

/-- The member that a lookup by key finds. -/
def member (members : List (Bytes × RValue)) (key : Bytes) : Option RValue :=
  (members.find? fun m => m.1 = key).map Prod.snd

/-- `rvalue::has`.  The elements of a list have keys that were never set. -/
def has (v : RValue) (key : Bytes) : Except Fault Bool :=
  match v with
  | .object members => .ok (member members key).isSome
  | .list [] => .ok Bool.false
  | .list (_ :: _) => .error .undefinedBehaviour
  | _ => .error (.runtimeError (ascii "value is not a container"))

/-- `rvalue::operator[]` with a key. -/
def get (v : RValue) (key : Bytes) : Except Fault RValue :=
  match v with
  | .object members =>
    match member members key with
    | some m => .ok m
    | none => .error (.runtimeError (ascii "cannot find key: " ++ key))
  | _ => .error (.runtimeError (ascii "value is not an object"))

/-- `rvalue::i`; `uninit` as for `lexicalCast`.  A string is read by its text as
it stands, which `s` has not yet decoded. -/
def i (uninit : Int64) : RValue → Except Fault Int64
  | .number lit => .ok (lexicalCast uninit lit.text)
  | .string raw => .ok (lexicalCast uninit raw)
  | v => .error (.runtimeError (ascii "expected number, got: " ++ getTypeStr v.t))

/-- `rvalue::s`. -/
def s : RValue → Except Fault Bytes
  | .string raw => .ok (unescape raw)
  | _ => .error (.runtimeError (ascii "value is not string"))

@[simp] theorem has_object (members : List (Bytes × RValue)) (key : Bytes) :
    (object members).has key = .ok (member members key).isSome := rfl

theorem get_object {members : List (Bytes × RValue)} {key : Bytes} {v : RValue}
    (h : member members key = some v) : (object members).get key = .ok v := by
  simp [get, h]

@[simp] theorem i_number (uninit : Int64) (lit : NumberLit) :
    (number lit).i uninit = .ok (lexicalCast uninit lit.text) := rfl

@[simp] theorem s_string (raw : Bytes) : (string raw).s = .ok (unescape raw) := rfl

theorem mem_of_member {members : List (Bytes × RValue)} {key : Bytes} {v : RValue}
    (h : member members key = some v) : (key, v) ∈ members := by
  obtain ⟨m, hm, rfl⟩ := Option.map_eq_some_iff.mp h
  have hkey : m.1 = key := by simpa using List.find?_some hm
  rw [← hkey]
  exact List.mem_of_find?_eq_some hm

end RValue

end JobScheduler
