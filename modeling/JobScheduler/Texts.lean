import JobScheduler.Codec
import JobScheduler.Stored

/-!
# The texts of a job

`validate_job_input` asks for a name and a payload that are not empty, of the decoded
strings, which may hold NULs.  `insert_job` binds what comes before the first of these.

## Main definitions

* `textOf` — the decoded string that a body has for a key.
* `KeepsTexts` — the name and the payload read back of a row are those of its body, and
  not empty.
* `PlainTexts` — neither text of the body has a NUL.

## Main results

* `keepsTexts_iff` — **no row is blank, and none has lost any of its texts**, exactly in the
  runs that store no body with a NUL in its name or its payload.
-/

namespace JobScheduler

open CText Runs
open RValue (member object string)

/-- The string that the members have under a key, decoded. -/
def textOf (members : List (Bytes × RValue)) (key : Bytes) : Option Bytes :=
  match member members key with
  | some (string raw) => some (unescape raw)
  | _ => none

/-- The job has a name and a payload, byte for byte those of the body. -/
structure HasTexts (members : List (Bytes × RValue)) (job : Job) : Prop where
  name_ne_nil : job.name ≠ []
  payload_ne_nil : job.payload ≠ []
  name : textOf members (ascii "name") = some job.name
  payload : textOf members (ascii "payload") = some job.payload

/-- What `get_job_by_id` reads of the row has the texts of the body. -/
def KeepsTexts (members : List (Bytes × RValue)) (r : Row) : Prop :=
  ∃ job, getByIdRow r = .ok job ∧ HasTexts members job

/-- Neither the name nor the payload of the body has a NUL. -/
structure PlainTexts (members : List (Bytes × RValue)) : Prop where
  name : ∀ s, textOf members (ascii "name") = some s → 0 ∉ s
  payload : ∀ s, textOf members (ascii "payload") = some s → 0 ∉ s

theorem keepsTexts_iff_readRow {members : List (Bytes × RValue)} {r : Row} :
    KeepsTexts members r ↔ HasTexts members (readRow r) := by
  rw [KeepsTexts, getByIdRow, decodeRow_eq fun _ => rfl]
  simp

/-- The job that is built has the texts of its body. -/
theorem hasTexts_of_buildJob {uninit now : Int64} {members : List (Bytes × RValue)} {job : Job}
    (hacc : Accepted uninit members) (hbuild : buildJob uninit now (object members) = .ok job) :
    HasTexts members job := by
  obtain ⟨⟨raw₁, hname, hne₁⟩, ⟨lit, htype, -⟩, raw₂, hpayload, hne₂⟩ := hacc
  rw [buildJob_object uninit now hname htype hpayload] at hbuild
  obtain ⟨i, -, hbuild⟩ := bind_eq_ok.mp hbuild
  obtain ⟨c, -, hbuild⟩ := bind_eq_ok.mp hbuild
  obtain ⟨next, -, hbuild⟩ := bind_eq_ok.mp hbuild
  obtain rfl := Except.ok.inj hbuild
  exact ⟨hne₁, hne₂, by rw [textOf, hname], by rw [textOf, hpayload]⟩

/-- **The row that is created** keeps the texts of its body exactly when they have no
NUL. -/
theorem keepsTexts_created_iff {uninit now : Int64} {members : List (Bytes × RValue)} {job : Job}
    (hacc : Accepted uninit members) (hbuild : buildJob uninit now (object members) = .ok job)
    (k : Int64) : KeepsTexts members ((insertParams job).toRow k) ↔ PlainTexts members := by
  have hjob := hasTexts_of_buildJob hacc hbuild
  rw [keepsTexts_iff_readRow, readRow_insertParams]
  constructor
  · intro h
    have hname : cstr job.name = job.name := Option.some.inj (h.name.symm.trans hjob.name)
    have hpayload : cstr job.payload = job.payload :=
      Option.some.inj (h.payload.symm.trans hjob.payload)
    constructor <;> intro s hs
    · rw [hjob.name, Option.some.injEq] at hs
      exact cstr_eq_self_iff.mp (hs ▸ hname)
    · rw [hjob.payload, Option.some.injEq] at hs
      exact cstr_eq_self_iff.mp (hs ▸ hpayload)
  · intro h
    -- nothing of the two texts is cut off
    have hname : cstr job.name = job.name := cstr_eq_self_iff.mpr (h.name _ hjob.name)
    have hpayload : cstr job.payload = job.payload :=
      cstr_eq_self_iff.mpr (h.payload _ hjob.payload)
    constructor
    · show cstr job.name ≠ []
      rw [hname]
      exact hjob.name_ne_nil
    · show cstr job.payload ≠ []
      rw [hpayload]
      exact hjob.payload_ne_nil
    · show _ = some (cstr job.name)
      rw [hname]
      exact hjob.name
    · show _ = some (cstr job.payload)
      rw [hpayload]
      exact hjob.payload

/-- No call on a row writes a text. -/
theorem keepsTexts_decidedBy : Store.DecidedBy KeepsTexts PlainTexts where
  created := keepsTexts_created_iff
  kept := by
    intro op hop members r h _
    rw [keepsTexts_iff_readRow] at h ⊢
    cases op with
    | insertJob _ => exact absurd hop id
    | updateJob _ _ => exact absurd hop id
    | _ => exact ⟨h.name_ne_nil, h.payload_ne_nil, h.name, h.payload⟩

/-- **No row is blank, and none has lost any of its texts**, in every state of a run from the
empty table, exactly when no body that the run stores has a NUL in its name or its
payload. -/
theorem keepsTexts_iff (calls : List ServiceCall) :
    Throughout Store.step (Store.EachRow KeepsTexts) Store.empty calls ↔
      Along Store.step (Store.StoresOnly PlainTexts) Store.empty calls :=
  Store.throughout_eachRow_iff keepsTexts_decidedBy calls

/-- The members of a job whose name is a NUL and an `a`. -/
def nulName : List (Bytes × RValue) :=
  (ascii "name", string (ascii "\\u0000a")) :: oneTimeMembers.tail

theorem creates_nulName : Store.empty.Creates 0 (object nulName) .ok nulName := by
  refine ⟨rfl, by decide +kernel, ?_, rfl, by decide⟩
  constructor <;> intro v hv <;> exact absurd (show none = some v from hv) (by simp)

/-- It is accepted, and its row has no name. -/
theorem stores_blank : ¬ Throughout Store.step (Store.EachRow KeepsTexts) Store.empty
    [.createJob 0 0 (object nulName) .ok] := by
  refine Store.not_throughout_of_creates keepsTexts_decidedBy 0 creates_nulName ?_
  intro hplain
  exact hplain.name [0, 97] rfl List.mem_cons_self

end JobScheduler
