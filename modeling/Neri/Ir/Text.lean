import Neri.Frontend.Unicode

/-!
# Comparing texts by UTF-16 code units (`text.hk`, `ir_utf16_cursor.hk`)

The compiler orders declarations by the UTF-16 code units of their names. A cursor reads them off
the UTF-8 bytes: it decodes one scalar at a time and, for a scalar outside the basic plane, hands
out the high surrogate and keeps the low one for the next call.
-/

namespace Neri.Ir

open Neri.Frontend

/-- `IrUtf16Cursor`: the text as its bytes, the position of the next scalar and the low surrogate
that is still to be handed out, or `-1`. -/
structure IrUtf16Cursor where
  text : List UInt8
  bytePosition : Nat := 0
  pendingLow : Int := -1

namespace IrUtf16Cursor

def hasNext (cursor : IrUtf16Cursor) : Bool :=
  decide (cursor.pendingLow ≥ 0) || decide (cursor.bytePosition < cursor.text.length)

/-- `nextUnit`: the unit, and the cursor behind it. -/
def nextUnit (cursor : IrUtf16Cursor) : Int × IrUtf16Cursor :=
  if cursor.pendingLow ≥ 0 then (cursor.pendingLow, { cursor with pendingLow := -1 })
  else
    let point := codePointAt cursor.text cursor.bytePosition
    let next := cursor.bytePosition + utf8Width (byteAt cursor.text cursor.bytePosition)
    if point ≤ 65535 then (point, { cursor with bytePosition := next })
    else
      let scalar := point - 65536
      (55296 + scalar / 1024,
        { cursor with
          bytePosition := next
          pendingLow := 56320 + (scalar - scalar / 1024 * 1024) })

/-- An upper bound for the units that are left. -/
def remaining (cursor : IrUtf16Cursor) : Nat :=
  2 * (cursor.text.length - cursor.bytePosition) + (if cursor.pendingLow ≥ 0 then 1 else 0)

theorem remaining_nextUnit_lt (cursor : IrUtf16Cursor) (h : cursor.hasNext = true) :
    cursor.nextUnit.2.remaining < cursor.remaining := by
  have hwidth := utf8Width_pos (byteAt cursor.text cursor.bytePosition)
  simp only [hasNext, Bool.or_eq_true, decide_eq_true_eq] at h
  unfold nextUnit remaining
  by_cases hlow : cursor.pendingLow ≥ 0
  · rw [if_pos hlow, if_pos hlow]
    simp
  · rw [if_neg hlow]
    simp only
    split
    · simp only
      omega
    · simp only
      split <;> omega

end IrUtf16Cursor

/-- The loop of `irCompareText`, and the tests behind it. -/
def compareUnits (left right : IrUtf16Cursor) : Int :=
  if h : left.hasNext = true ∧ right.hasNext = true then
    if left.nextUnit.1 < right.nextUnit.1 then -1
    else if left.nextUnit.1 > right.nextUnit.1 then 1
    else compareUnits left.nextUnit.2 right.nextUnit.2
  else if left.hasNext then 1
  else if right.hasNext then -1
  else 0
termination_by left.remaining
decreasing_by exact IrUtf16Cursor.remaining_nextUnit_lt left h.1

def irCompareText (left right : String) : Int :=
  compareUnits { text := utf8Bytes left } { text := utf8Bytes right }

end Neri.Ir
