import JobScheduler.Cron.Parse
import JobScheduler.Lib.Gregorian

/-!
# Searching for the next instant

`cron_next` of croncpp with its standard traits.  The search moves a `std::tm`
forward field by field; every change of a field goes through `mktime`, which
normalises the others.  Local time is UTC, so `mktime` and `localtime` are the
Gregorian conversion and the daylight-saving flag has no effect.

`find_next` calls itself after each field it has changed, and goes on with the
next field once that call has returned.  Its stages are functions of the call
they make, `again`; `findNext` ties the knot with a bound on the depth of the
calls.

## Main definitions

* `Tm`, `mktime`, `localtime` — broken-down times.
* `addToField`, `setField`, `resetField`, `resetAllFields` — the changes.
* `findNextField`, `findNextDay` — the search in one field.
* `secondStage`, …, `monthStage`, `findNext` — the recursive search.
* `cronNext` — the entry point.
-/

namespace JobScheduler
namespace Cron

open CText

/-! ### Broken-down times -/

/-- `std::tm`, without `tm_yday` and `tm_isdst`. -/
structure Tm where
  sec : ℤ
  min : ℤ
  hour : ℤ
  mday : ℤ
  mon : ℤ
  year : ℤ
  wday : ℤ
  deriving DecidableEq, Repr

/-- The seconds since the epoch that the fields denote, in range or not. -/
def Tm.time (date : Tm) : ℤ :=
  Gregorian.dayNumber (date.year + 1900) date.mon date.mday * 86400 + date.hour * 3600 +
    date.min * 60 + date.sec

/-- `localtime_s` and `localtime_r`: the fields of an instant. -/
def localtime (t : ℤ) : Tm where
  sec := t % 60
  min := t / 60 % 60
  hour := t / 3600 % 24
  mday := Gregorian.dayOf (t / 86400)
  mon := Gregorian.monthOf (t / 86400)
  year := Gregorian.yearOf (t / 86400) - 1900
  wday := Gregorian.weekday (t / 86400)

/-- `mktime`: the instant, and the fields brought into range.  Instants before the
epoch are refused with -1 and the fields left alone. -/
def mktime (date : Tm) : ℤ × Tm :=
  if date.time < 0 then (-1, date) else (date.time, localtime date.time)

/-- `enum class cron_field`. -/
inductive CronField
  | second
  | minute
  | hourOfDay
  | dayOfWeek
  | dayOfMonth
  | month
  | year
  deriving DecidableEq, Repr

/-- The fields in the order of their enumerators. -/
def CronField.all : List CronField :=
  [.second, .minute, .hourOfDay, .dayOfWeek, .dayOfMonth, .month, .year]

/-- The check after every change: `mktime` may not fail. -/
def normalise (date : Tm) : Except Fault Tm :=
  if (mktime date).1 = -1 then throw (.badCronexpr (ascii "Invalid time expression"))
  else pure (mktime date).2

/-- `add_to_field`. -/
def addToField (date : Tm) (field : CronField) (val : ℤ) : Except Fault Tm :=
  normalise <|
    match field with
    | .second => { date with sec := date.sec + val }
    | .minute => { date with min := date.min + val }
    | .hourOfDay => { date with hour := date.hour + val }
    | .dayOfWeek | .dayOfMonth => { date with mday := date.mday + val }
    | .month => { date with mon := date.mon + val }
    | .year => { date with year := date.year + val }

/-- `set_field`. -/
def setField (date : Tm) (field : CronField) (val : ℤ) : Except Fault Tm :=
  normalise <|
    match field with
    | .second => { date with sec := val }
    | .minute => { date with min := val }
    | .hourOfDay => { date with hour := val }
    | .dayOfWeek => { date with wday := val }
    | .dayOfMonth => { date with mday := val }
    | .month => { date with mon := val }
    | .year => { date with year := val }

/-- `reset_field`. -/
def resetField (date : Tm) (field : CronField) : Except Fault Tm :=
  normalise <|
    match field with
    | .second => { date with sec := 0 }
    | .minute => { date with min := 0 }
    | .hourOfDay => { date with hour := 0 }
    | .dayOfWeek => { date with wday := 0 }
    | .dayOfMonth => { date with mday := 1 }
    | .month => { date with mon := 0 }
    | .year => { date with year := 0 }

/-- A `std::bitset<7>` of fields. -/
abbrev MarkedFields := CronField → Bool

/-- `empty_list`. -/
def emptyList : MarkedFields := fun _ => false

/-- `mark_field`. -/
def markField (orders : MarkedFields) (field : CronField) : MarkedFields :=
  fun f => orders f || f == field

/-- `reset_all_fields`. -/
def resetAllFields (date : Tm) (markedFields : MarkedFields) : Except Fault Tm :=
  CronField.all.foldlM
    (fun date field => if markedFields field then resetField date field else pure date) date

/-! ### The search in one field -/

/-- `next_set_bit`; `none` is `INVALID_INDEX`. -/
def nextSetBit {N : ℕ} (target : BitVec N) (offset : ℕ) : Option ℕ :=
  (List.range' offset (N - offset)).find? fun i => target.getLsbD i

/-- `find_next` of one field: the value it settles on, and the date. -/
def findNextField {N : ℕ} (target : BitVec N) (date : Tm) (value : ℕ)
    (field nextField : CronField) (markedFields : MarkedFields) :
    Except Fault (Option ℕ × Tm) := do
  let (nextValue, date) ← match nextSetBit target value with
    | some v => pure (some v, date)
    | none => do
      let date ← addToField date nextField 1
      let date ← resetField date field
      pure (nextSetBit target 0, date)
  if nextValue ≠ some value then
    -- `static_cast<int>(INVALID_INDEX)` is -1
    let date ← setField date field (nextValue.elim (-1) fun v => (v : ℤ))
    let date ← resetAllFields date markedFields
    pure (nextValue, date)
  else
    pure (nextValue, date)

/-- `std::bitset::test`. -/
def bitsetTest {N : ℕ} (target : BitVec N) (i : ℕ) : Except Fault Bool :=
  if i < N then .ok (target.getLsbD i) else .error .outOfRange

/-- Whether both day sets have the day, the second being looked at only when the
first has it. -/
def testDay (daysOfMonth : BitVec 31) (dayOfMonth : ℕ) (daysOfWeek : BitVec 7)
    (dayOfWeek : ℕ) : Except Fault Bool := do
  if !(← bitsetTest daysOfMonth (dayOfMonth - 1)) then pure false
  else bitsetTest daysOfWeek dayOfWeek

/-- The loop of `find_next_day`, with what `count` is short of `maximum`. -/
def findNextDayLoop (daysOfMonth : BitVec 31) (daysOfWeek : BitVec 7)
    (markedFields : MarkedFields) : ℕ → Tm → ℕ → ℕ → Except Fault (ℕ × Tm)
  | 0, date, dayOfMonth, dayOfWeek => do
    let _ ← testDay daysOfMonth dayOfMonth daysOfWeek dayOfWeek
    pure (dayOfMonth, date)
  | left + 1, date, dayOfMonth, dayOfWeek => do
    if ← testDay daysOfMonth dayOfMonth daysOfWeek dayOfWeek then
      pure (dayOfMonth, date)
    else
      let next ← addToField date .dayOfMonth 1
      let date ← resetAllFields next markedFields
      findNextDayLoop daysOfMonth daysOfWeek markedFields left date next.mday.toNat
        next.wday.toNat

/-- `find_next_day`, with `maximum = 366`. -/
def findNextDay (date : Tm) (daysOfMonth : BitVec 31) (dayOfMonth : ℕ) (daysOfWeek : BitVec 7)
    (dayOfWeek : ℕ) (markedFields : MarkedFields) : Except Fault (ℕ × Tm) :=
  findNextDayLoop daysOfMonth daysOfWeek markedFields 366 date dayOfMonth dayOfWeek

/-! ### The recursive search -/

/-- A call of `find_next`: what it returns, and the date it leaves. -/
abbrev Search := Except Fault (Bool × Tm)

/-- `res = find_next(…); if (!res) return res;` with the rest of the function. -/
def orReturn (call : Search) (rest : Tm → Search) : Search := do
  let (res, date) ← call
  if !res then pure (res, date) else rest date

section Stages

variable (cex : CronExpr) (again : Tm → Search) (dot : ℤ)

/-- The months, and the end of `find_next`. -/
def monthStage (markedFields : MarkedFields) (date : Tm) : Search := do
  let month := date.mon.toNat
  let (updatedMonth, date) ←
    findNextField cex.months date month .month .year markedFields
  if some month ≠ updatedMonth then
    -- the difference is taken in `size_t`; `CRON_MAX_YEARS_DIFF` is 4
    if 4 < (date.year - dot) % 2 ^ 64 then pure (false, date)
    else orReturn (again date) fun date => pure (true, date)
  else
    pure (true, date)

/-- The days: "unchanged" is judged by the number of the day in its month. -/
def dayStage (markedFields : MarkedFields) (date : Tm) : Search := do
  let dayOfWeek := date.wday.toNat
  let dayOfMonth := date.mday.toNat
  let (updatedDayOfMonth, date) ←
    findNextDay date cex.daysOfMonth dayOfMonth cex.daysOfWeek dayOfWeek markedFields
  if dayOfMonth = updatedDayOfMonth then
    monthStage cex again dot (markField markedFields .dayOfMonth) date
  else
    orReturn (again date) (monthStage cex again dot markedFields)

/-- The hours. -/
def hourStage (markedFields : MarkedFields) (date : Tm) : Search := do
  let hour := date.hour.toNat
  let (updatedHour, date) ←
    findNextField cex.hours date hour .hourOfDay .dayOfWeek markedFields
  if some hour = updatedHour then
    dayStage cex again dot (markField markedFields .hourOfDay) date
  else
    orReturn (again date) (dayStage cex again dot markedFields)

/-- The minutes. -/
def minuteStage (markedFields : MarkedFields) (date : Tm) : Search := do
  let minute := date.min.toNat
  let (updateMinute, date) ←
    findNextField cex.minutes date minute .minute .hourOfDay markedFields
  if some minute = updateMinute then
    hourStage cex again dot (markField markedFields .minute) date
  else
    orReturn (again date) (hourStage cex again dot markedFields)

/-- The seconds, from the start of `find_next`. -/
def secondStage (date : Tm) : Search := do
  let second := date.sec.toNat
  let (updatedSecond, date) ←
    findNextField cex.seconds date second .second .minute emptyList
  if some second = updatedSecond then
    minuteStage cex again dot (markField emptyList .second) date
  else
    minuteStage cex again dot emptyList date

end Stages

/-- `find_next`, with a bound on the depth of its calls. -/
def findNext (cex : CronExpr) (dot : ℤ) : ℕ → Tm → Search
  | 0, _ => .error .outOfFuel
  | fuel + 1, date => secondStage cex (findNext cex dot fuel) dot date

/-- A depth that no search reaches. -/
@[irreducible] def maxDepth : ℕ := 3000 * 86400

/-- `cron_next`, on `std::time_t`.  `INVALID_TIME` is -1. -/
def cronNext (cex : CronExpr) (date : ℤ) : Except Fault ℤ := do
  let (original, dt) := mktime (localtime date)
  if original = -1 then pure (-1)
  else
    let (res, dt) ← findNext cex dt.year maxDepth dt
    if !res then pure (-1)
    else
      let (calculated, dt) := mktime dt
      if calculated = -1 then pure calculated
      else if calculated = original then
        let dt ← addToField dt .second 1
        let (res, dt) ← findNext cex dt.year maxDepth dt
        if !res then pure (-1) else pure (mktime dt).1
      else pure (mktime dt).1

end Cron
end JobScheduler
