import Mathlib.Data.Set.Card
import Neri.Lib.FixedNumeral

/-!
# Calendar ticks (`calendar-ticks.hk`, `calendar-codecs.hk`)

A date-time is stored as a text and counted in ticks of 100 nanoseconds. Texts are their lists of
bytes. No number in this file leaves the range of `Int`. Division drops the fraction of the quotient.
`DateTime` says what the functions are for: the moments of the proleptic Gregorian calendar.
-/

namespace Neri.Data

open FixedNumeral

def calendarMonthDays (year month : Int) : Int :=
  if month = 2 then
    if year - year.tdiv 4 * 4 = 0 ∧
        (year - year.tdiv 100 * 100 ≠ 0 ∨ year - year.tdiv 400 * 400 = 0) then 29
    else 28
  else if month = 4 ∨ month = 6 ∨ month = 9 ∨ month = 11 then 30 else 31

theorem calendarMonthDays_pos (year month : Int) : 0 < calendarMonthDays year month := by
  rw [calendarMonthDays]
  split_ifs <;> decide

def calendarYearDays (year : Int) : Int :=
  let prior := year - 1
  prior * 365 + prior.tdiv 4 - prior.tdiv 100 + prior.tdiv 400

/-- The loop of `calendarDigits`, over the bytes that it reads. -/
def digitsLoop : (bytes : List UInt8) → (result : Int) → Int
  | [], result => result
  | byte :: bytes, result =>
    if byte < 48 ∨ byte > 57 then -1 else digitsLoop bytes (result * 10 + byte.toNat - 48)

/-- `calendarDigits`, for a range inside the text. -/
def calendarDigits (value : List UInt8) (start length : Nat) : Int :=
  digitsLoop ((value.drop start).take length) 0

/-- The loop of `calendarDateTimeTicks` over the months before the month. -/
def precedingLoop (year month : Int) (preceding : Nat) (days : Int) : Int :=
  if preceding < month then
    precedingLoop year month (preceding + 1) (days + calendarMonthDays year preceding)
  else days
termination_by (month - preceding).toNat

def calendarDateTimeTicks (value : List UInt8) : Int :=
  let year := calendarDigits value 0 4
  let month := calendarDigits value 5 2
  let days := precedingLoop year month 1 (calendarYearDays year + calendarDigits value 8 2 - 1)
  days * 864000000000 + calendarDigits value 11 2 * 36000000000 +
    calendarDigits value 14 2 * 600000000 + calendarDigits value 17 2 * 10000000 +
    calendarDigits value 20 7

def asText (value : Int) : List UInt8 :=
  if value < 0 then 45 :: decimal value.natAbs else decimal value.toNat

def calendarPad (value : Int) (width : Nat) : List UInt8 :=
  List.replicate (width - (asText value).length) 48 ++ asText value

/-- The loop of `calendarTicksText` that finds the year. -/
def yearLoop (days : Int) (lower upper : Nat) : Nat :=
  if lower + 1 < upper then
    let middle := (lower + upper) / 2
    if calendarYearDays middle ≤ days then yearLoop days middle upper else yearLoop days lower middle
  else lower
termination_by upper - lower

/-- The loop of `calendarTicksText` that finds the month, with the days that remain. -/
def monthLoop (year : Int) (remaining : Int) (month : Nat) : Int × Nat :=
  if h : remaining ≥ calendarMonthDays year month then
    monthLoop year (remaining - calendarMonthDays year month) (month + 1)
  else (remaining, month)
termination_by remaining.toNat
decreasing_by
  have hpos := calendarMonthDays_pos year month
  omega

def calendarTicksText (ticks : Int) : Option (List UInt8) :=
  if ticks < 0 ∨ ticks > 3155378975999999999 then none
  else
    let days := ticks.tdiv 864000000000
    let year := yearLoop days 1 10000
    let (remaining, month) := monthLoop year (days - calendarYearDays year) 1
    let daytime := ticks - days * 864000000000
    let hour := daytime.tdiv 36000000000
    let minute := daytime.tdiv 600000000 - hour * 60
    let second := daytime.tdiv 10000000 - daytime.tdiv 600000000 * 60
    let fraction := daytime - daytime.tdiv 10000000 * 10000000
    some (calendarPad year 4 ++ [45] ++ calendarPad month 2 ++ [45] ++ calendarPad (remaining + 1) 2 ++
      [84] ++ calendarPad hour 2 ++ [58] ++ calendarPad minute 2 ++ [58] ++ calendarPad second 2 ++
      [46] ++ calendarPad fraction 7 ++ [90])

/-! ## The calendar -/

def isLeapYear (year : Nat) : Prop := 4 ∣ year ∧ (¬100 ∣ year ∨ 400 ∣ year)

instance (year : Nat) : Decidable (isLeapYear year) := inferInstanceAs (Decidable (_ ∧ _))

def daysInMonth (year month : Nat) : Nat :=
  if month = 2 then if isLeapYear year then 29 else 28
  else if month ∈ [4, 6, 9, 11] then 30 else 31

/-- A moment of the years 0001 to 9999, to 100 nanoseconds. -/
@[ext]
structure DateTime where
  year : Nat
  month : Nat
  day : Nat
  hour : Nat
  minute : Nat
  second : Nat
  fraction : Nat
  year_mem : 1 ≤ year ∧ year ≤ 9999
  month_mem : 1 ≤ month ∧ month ≤ 12
  day_mem : 1 ≤ day ∧ day ≤ daysInMonth year month
  hour_lt : hour < 24
  minute_lt : minute < 60
  second_lt : second < 60
  fraction_lt : fraction < 10000000

namespace DateTime

def fields (t : DateTime) : List Nat :=
  [t.year, t.month, t.day, t.hour, t.minute, t.second, t.fraction]

/-- Moments come after each other as their fields say, the year first. -/
instance : LT DateTime := ⟨fun t t' => t.fields < t'.fields⟩

/-- `yyyy-mm-ddThh:mm:ss.fffffffZ`. -/
def layout : List (Nat × UInt8) := [(4, 45), (2, 45), (2, 84), (2, 58), (2, 58), (2, 46), (7, 90)]

def text (t : DateTime) : List UInt8 := FixedNumeral.text layout t.fields

/-- The units of 100 nanoseconds since 0001-01-01T00:00:00, one for each moment before this one. -/
noncomputable def unitsBefore (t : DateTime) : Nat := {earlier : DateTime | earlier < t}.ncard

end DateTime

end Neri.Data
