import Neri.Data.Calendar

/-!
# Date-times with an offset (`date-time-offset.hk`, `date-time.hk`, `date-only.hk`, `time-only.hk`)

A value of `DateOnly`, `TimeOnly` or `DateTime` is its text. Every slice that the parsers take
starts and ends at a byte that they have compared with an ASCII byte, so none of them splits a
scalar.
-/

namespace Neri.Data

open FixedNumeral

/-- The days of a month, as `DateOnly.parse` tests for them. -/
def dateOnlyMaximum (year month : Int) : Int :=
  if month = 4 ∨ month = 6 ∨ month = 9 ∨ month = 11 then 30
  else if month = 2 then
    if year - year.tdiv 4 * 4 = 0 ∧
        (year - year.tdiv 100 * 100 ≠ 0 ∨ year - year.tdiv 400 * 400 = 0) then 29
    else 28
  else 31

/-- `DateOnly.parse`. -/
def dateOnlyParse (value : List UInt8) : Option (List UInt8) :=
  if value.length ≠ 10 ∨ value[4]? ≠ some 45 ∨ value[7]? ≠ some 45 then none
  else
    let year := calendarDigits value 0 4
    let month := calendarDigits value 5 2
    let day := calendarDigits value 8 2
    if year < 1 ∨ month < 1 ∨ month > 12 ∨ day < 1 then none
    else if day > dateOnlyMaximum year month then none
    else some value

/-- `TimeOnly.parse`. -/
def timeOnlyParse (value : List UInt8) : Option (List UInt8) :=
  let length := value.length
  if length < 8 ∨ length > 16 ∨ value[2]? ≠ some 58 ∨ value[5]? ≠ some 58 then none
  else
    let hour := calendarDigits value 0 2
    let minute := calendarDigits value 3 2
    let second := calendarDigits value 6 2
    if hour < 0 ∨ hour > 23 ∨ minute < 0 ∨ minute > 59 ∨ second < 0 ∨ second > 59 then none
    else if length > 8 ∧
        (length < 10 ∨ value[8]? ≠ some 46 ∨ calendarDigits value 9 (length - 9) < 0) then none
    else
      let fraction := value.drop 9
      some (value.take 8 ++ [46] ++ (fraction ++ List.replicate (7 - fraction.length) 48))

/-- `DateTime.parse`. -/
def dateTimeParse (value : List UInt8) : Option (List UInt8) :=
  let length := value.length
  if length < 20 ∨ length > 28 ∨ value[10]? ≠ some 84 ∨ value[length - 1]? ≠ some 90 then none
  else do
    let date ← dateOnlyParse (value.take 10)
    let time ← timeOnlyParse ((value.drop 11).take (length - 12))
    return date ++ [84] ++ time ++ [90]

/-- `DateTime.minimum`. -/
def dateTimeMinimum : List UInt8 := text DateTime.layout [1, 1, 1, 0, 0, 0, 0]

/-- The values of the class `DateTime`. -/
def IsDateTime (value : List UInt8) : Prop :=
  value = dateTimeMinimum ∨ ∃ source, dateTimeParse source = some value

/-- `host::parseInt`: a minus sign or none, and digits to the end of the text. -/
def parseInt (value : List UInt8) : Option Int :=
  let negative := value.head? = some 45
  let digits := if negative then value.tail else value
  let magnitude := digitsLoop digits 0
  if digits = [] ∨ magnitude < 0 then none
  else
    let parsed := if negative then -magnitude else magnitude
    if parsed < -2 ^ 63 ∨ parsed ≥ 2 ^ 63 then none else some parsed

structure DateTimeOffset where
  utc : Int := 0
  offset : Int := 0
  value : List UInt8 := dateTimeMinimum ++ [124, 48]

namespace DateTimeOffset

def fromLocal (localText : List UInt8) (offsetMinutes : Int) : Option DateTimeOffset :=
  if offsetMinutes < -840 ∨ offsetMinutes > 840 then none
  else
    let ticks := calendarDateTimeTicks localText - offsetMinutes * 600000000
    (calendarTicksText ticks).map fun utc =>
      { utc := ticks, offset := offsetMinutes, value := utc ++ [124] ++ asText offsetMinutes }

def parse (text : List UInt8) : Option DateTimeOffset :=
  let length := text.length
  if length ≥ 20 ∧ text[length - 1]? = some 90 then (dateTimeParse text).bind (fromLocal · 0)
  else if length < 25 ∨ length > 33 then none
  else
    let sign := text[length - 6]?
    let hour := calendarDigits text (length - 5) 2
    let minute := calendarDigits text (length - 2) 2
    if (sign ≠ some 43 ∧ sign ≠ some 45) ∨ text[length - 3]? ≠ some 58 ∨ hour < 0 ∨ hour > 14 ∨
        minute < 0 ∨ minute > 59 ∨ (hour = 14 ∧ minute ≠ 0) then none
    else
      (dateTimeParse (text.take (length - 6) ++ [90])).bind
        (fromLocal · ((if sign = some 45 then -1 else 1) * (hour * 60 + minute)))

def fromStorage (text : List UInt8) : Option DateTimeOffset :=
  let length := text.length
  if length < 30 ∨ length > 33 ∨ text[28]? ≠ some 124 then none
  else do
    let utc ← dateTimeParse (text.take 28)
    let offset ← parseInt ((text.drop 29).take (length - 29))
    if offset < -840 ∨ offset > 840 then none
    else
      let ticks := calendarDateTimeTicks utc
      let _ ← calendarTicksText (ticks + offset * 600000000)
      if text ≠ utc ++ [124] ++ asText offset then none
      else some { utc := ticks, offset := offset, value := text }

def toStorage (v : DateTimeOffset) : List UInt8 := v.value

def toText (v : DateTimeOffset) : List UInt8 :=
  let absolute := if v.offset < 0 then -v.offset else v.offset
  match calendarTicksText (v.utc + v.offset * 600000000) with
  | none => []
  | some localText =>
    localText.take 27 ++ [if v.offset < 0 then 45 else 43] ++ calendarPad (absolute.tdiv 60) 2 ++
      [58] ++ calendarPad (absolute - absolute.tdiv 60 * 60) 2

/-- The values of the class. -/
inductive Built : DateTimeOffset → Prop
  | minimum : Built {}
  | fromLocal {localText : List UInt8} {offsetMinutes : Int} {v : DateTimeOffset} :
    IsDateTime localText → fromLocal localText offsetMinutes = some v → Built v
  | parse {text : List UInt8} {v : DateTimeOffset} : parse text = some v → Built v
  | fromStorage {text : List UInt8} {v : DateTimeOffset} : fromStorage text = some v → Built v

end DateTimeOffset

end Neri.Data
