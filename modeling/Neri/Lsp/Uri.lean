import Neri.Ir.CHeader

/-!
# File URIs (`lsp/project.hk`, `lsp/json.hk`, `platform.hk`)

A path is written byte by byte, with an escape for most bytes, and the reader takes the bytes
together again before it checks them. The host says which path is absolute.
-/

namespace Neri.Lsp

open Neri.Stdlib Neri.Ir

/-- What the language server asks its host. -/
structure PathHost where
  windows : Bool
  pathAbsolute : Text → Option Text

/-- The bytes that stand for themselves: letters, digits and `/`, `-`, `.`, `_`, `~`. -/
def isUriByte (byte : UInt8) : Bool :=
  isCNameByte byte || byte = 47 || byte = 45 || byte = 46 || byte = 95 || byte = 126

def lspCharacter (point : Nat) : Text :=
  let last := 128 + (point - point / 64 * 64)
  let middle := 128 + (point / 64 - point / 4096 * 64)
  let bytes :=
    if point < 128 then [point]
    else if point < 2048 then [192 + point / 64, last]
    else if point < 65536 then [224 + point / 4096, middle, last]
    else [240 + point / 262144, 128 + (point / 4096 - point / 262144 * 64), middle, last]
  (Text.fromBytes (bytes.map UInt8.ofNat)).getD ""

def platformDrivePath (path : Text) : Bool :=
  match path.bytes with
  | drive :: colon :: separator :: _ =>
    (drive.toNat ≥ 65 && drive.toNat ≤ 90 || drive.toNat ≥ 97 && drive.toNat ≤ 122) && colon = 58 &&
      (separator = 47 || separator = 92)
  | _ => false

/-- One round of the loop of `lspUri`. -/
def lspUriRound (result : Text) (byte : UInt8) : Option Text :=
  if isUriByte byte then some (result ++ lspCharacter byte.toNat)
  else do
    let high ← irHexDigit (byte.toNat / 16)
    let low ← irHexDigit (byte.toNat - byte.toNat / 16 * 16)
    return result ++ "%" ++ high ++ low

def lspUri (path : Text) : Option Text :=
  path.bytes.foldlM lspUriRound
    (Text.ofString (if platformDrivePath path then "file:///" else "file://"))

def lspHexDigit (byte : UInt8) : Option Nat :=
  if byte.toNat ≥ 48 && byte.toNat ≤ 57 then some (byte.toNat - 48)
  else if byte.toNat ≥ 65 && byte.toNat ≤ 70 then some (byte.toNat - 55)
  else if byte.toNat ≥ 97 && byte.toNat ≤ 102 then some (byte.toNat - 87)
  else none

/-- The loop of `lspPath` over the bytes that are left. -/
def lspPathBytes : List UInt8 → Option (List UInt8)
  | [] => some []
  | 37 :: first :: second :: rest => do
    let high ← lspHexDigit first
    let low ← lspHexDigit second
    if high * 16 + low = 0 then none
    else return UInt8.ofNat (high * 16 + low) :: (← lspPathBytes rest)
  | byte :: rest =>
    if byte = 63 || byte = 35 || byte = 37 || byte = 0 then none
    else (lspPathBytes rest).map (byte :: ·)

/-- `lspPath`; the slice is behind a slash, so that it is never out of place. -/
def lspPath (host : PathHost) (uri : Text) : Option Text :=
  if !(Text.ofString "file:///").bytes.isPrefixOf uri.bytes || uri.byteLength > 16384 then none
  else do
    let path ← Text.fromBytes (← lspPathBytes (uri.bytes.drop 7))
    if host.windows && path.byteLength ≥ 4 && path.byteAt 0 = some 47 && path.byteAt 2 = some 58 then
      host.pathAbsolute (← path.slice 1 (path.byteLength - 1))
    else host.pathAbsolute path

end Neri.Lsp
