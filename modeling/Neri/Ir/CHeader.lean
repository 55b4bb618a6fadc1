import Neri.Stdlib.Text

/-!
# Names in C headers (`c_header.hk`, `text.hk`)

A declaration of a module becomes a C declaration under a name that has letters and digits for its
letters and digits, and an escape of an underscore and two hexadecimal digits for every other byte.
The walk goes byte by byte and cuts each byte out as a string of its own.
-/

namespace Neri.Ir

open Neri.Stdlib

def irHexDigit (value : Nat) : Option Text := (Text.ofString "0123456789abcdef").slice value 1

def irHex (value : Text) : Option Text :=
  (List.range value.byteLength).foldlM (fun result index => do
    let byte := (← value.byteAt index).toNat
    let high ← irHexDigit (byte / 16)
    let low ← irHexDigit (byte - byte / 16 * 16)
    return result ++ high ++ low) ""

/-- The bytes that stand for themselves. -/
def isCNameByte (byte : UInt8) : Bool :=
  (byte.toNat ≥ 65 && byte.toNat ≤ 90) || (byte.toNat ≥ 97 && byte.toNat ≤ 122) ||
    (byte.toNat ≥ 48 && byte.toNat ≤ 57)

/-- One round of the loop of `irCIdentifier`. -/
def irCIdentifierRound (name result : Text) (index : Nat) : Option Text := do
  let byte ← name.byteAt index
  let text ← name.slice index 1
  if isCNameByte byte then return result ++ text
  else
    let hex ← irHex text
    return result ++ (Text.ofString "_" ++ hex)

def irCIdentifier (name : Text) : Option Text :=
  (List.range name.byteLength).foldlM (irCIdentifierRound name) ""

/-- What a C identifier is made of: ASCII letters, digits and underscores. -/
def isCIdentifierByte (byte : UInt8) : Bool := isCNameByte byte || byte.toNat = 95

end Neri.Ir
