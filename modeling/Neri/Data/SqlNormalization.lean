import Neri.Stdlib.Text

/-!
# SQL in a normal form (`migrations.hk`)

Definitions of a database are compared without blanks, semicolons and the case of letters. The walk
goes byte by byte, cuts each byte out as a string of its own, and leaves quoted parts alone.
-/

namespace Neri.Data

open Neri.Stdlib

/-- The loop of `schemaNormalizedSql` over the bytes that are left, with `quote` as the quote of the
part it is in, or zero. -/
def schemaNormalizedFrom (sql : Text) : List UInt8 → Nat → UInt8 → Text → Option Text
  | [], _, _, output => some output
  | byte :: rest, index, quote, output =>
    if quote ≠ 0 then do
      let text ← sql.slice index 1
      if byte = quote then
        match rest with
        | [] => some (output ++ text)
        | next :: after =>
          if next = quote then do
            let second ← sql.slice (index + 1) 1
            schemaNormalizedFrom sql after (index + 2) quote (output ++ text ++ second)
          else schemaNormalizedFrom sql (next :: after) (index + 1) 0 (output ++ text)
      else schemaNormalizedFrom sql rest (index + 1) quote (output ++ text)
    else if byte = 39 ∨ byte = 34 then do
      let text ← sql.slice index 1
      schemaNormalizedFrom sql rest (index + 1) byte (output ++ text)
    else if byte.toNat > 32 ∧ byte ≠ 59 then do
      let text ← if byte.toNat ≥ 97 ∧ byte.toNat ≤ 122 then
          (Text.ofString "ABCDEFGHIJKLMNOPQRSTUVWXYZ").slice (byte.toNat - 97) 1
        else sql.slice index 1
      schemaNormalizedFrom sql rest (index + 1) quote (output ++ text)
    else schemaNormalizedFrom sql rest (index + 1) quote output
termination_by structural bytes => bytes

def schemaNormalizedSql (sql : Text) : Option Text :=
  schemaNormalizedFrom sql sql.bytes 0 0 ""

end Neri.Data
