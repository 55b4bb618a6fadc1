import Neri.Stdlib.StrictUtf8

/-!
# Where bytes stop being UTF-8 (`text.hk`)

`invalidUtf8Offset` reads an array once, byte by byte, with the number of bytes that the present
sequence still needs and the range of the next one.
-/

namespace Neri.Stdlib

/-- The variables of the loop of `invalidUtf8Offset`. -/
structure Utf8Scan where
  remaining : Nat := 0
  minimum : Nat := 128
  maximum : Nat := 191
  sequenceStart : Nat := 0
  deriving DecidableEq

/-- The loop at a byte: nothing where it returns the index. -/
def Utf8Scan.step (scan : Utf8Scan) (index : Nat) (value : UInt8) : Option Utf8Scan :=
  let byte := value.toNat
  if scan.remaining > 0 then
    if byte < scan.minimum ∨ byte > scan.maximum then none
    else some { scan with remaining := scan.remaining - 1, minimum := 128, maximum := 191 }
  else if byte ≥ 128 then
    if byte ≥ 194 ∧ byte ≤ 223 then some { scan with sequenceStart := index, remaining := 1 }
    else if byte ≥ 224 ∧ byte ≤ 239 then
      some { sequenceStart := index, remaining := 2
             minimum := if byte = 224 then 160 else 128
             maximum := if byte = 237 then 159 else 191 }
    else if byte ≥ 240 ∧ byte ≤ 244 then
      some { sequenceStart := index, remaining := 3
             minimum := if byte = 240 then 144 else 128
             maximum := if byte = 244 then 143 else 191 }
    else none
  else some scan

def invalidUtf8From (scan : Utf8Scan) (index : Nat) : List UInt8 → Option Nat
  | [] => if scan.remaining > 0 then some scan.sequenceStart else none
  | value :: values =>
    match scan.step index value with
    | none => some index
    | some scan => invalidUtf8From scan (index + 1) values

/-- The offset of the first byte out of its range, or of the first byte of a sequence that the end
cuts. -/
def invalidUtf8Offset (value : List UInt8) : Option Nat := invalidUtf8From {} 0 value

end Neri.Stdlib
