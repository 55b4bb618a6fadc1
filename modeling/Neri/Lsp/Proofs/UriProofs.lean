import Neri.Ir.Proofs.CHeaderProofs
import Neri.Lsp.Uri

/-!
# Proofs: file URIs

The reader takes back what the writer has written for a byte, whatever follows it.
-/

namespace Neri.Lsp

open Neri.Stdlib Neri.Ir List

variable {host : PathHost}

def uriCode (byte : UInt8) : List UInt8 :=
  if isUriByte byte then [byte]
  else [37, hexDigitByte (byte.toNat / 16), hexDigitByte (byte.toNat % 16)]

theorem plain_of_isUriByte {byte : UInt8} (h : isUriByte byte = true) :
    byte.toNat < 128 ∧ byte.toNat ≠ 63 ∧ byte.toNat ≠ 35 ∧ byte.toNat ≠ 37 ∧ byte.toNat ≠ 0 := by
  have hall : ∀ n < 256, isUriByte (UInt8.ofNat n) = true →
      n < 128 ∧ n ≠ 63 ∧ n ≠ 35 ∧ n ≠ 37 ∧ n ≠ 0 := by decide +kernel
  exact hall byte.toNat byte.toNat_lt (by rwa [UInt8.ofNat_toNat])

theorem lspCharacter_bytes {byte : UInt8} (h : byte.toNat < 128) :
    (lspCharacter byte.toNat).bytes = [byte] := by
  have hbytes := fromBytes_singleton byte
  rw [if_pos h] at hbytes
  obtain ⟨text, htext, hbyte⟩ := Option.map_eq_some_iff.mp hbytes
  simp [lspCharacter, h, htext, hbyte]

theorem lspUriRound_bytes (result : Text) (byte : UInt8) :
    ∃ next, lspUriRound result byte = some next ∧ next.bytes = result.bytes ++ uriCode byte := by
  unfold lspUriRound uriCode
  split
  next h =>
    exact ⟨_, rfl, by rw [Text.bytes_append, lspCharacter_bytes (plain_of_isUriByte h).1]⟩
  next =>
    have hlt := byte.toNat_lt
    obtain ⟨high, hhigh, hhighBytes⟩ := irHexDigit_bytes (byte.toNat / 16) (by omega)
    obtain ⟨low, hlow, hlowBytes⟩ := irHexDigit_bytes (byte.toNat % 16) (by omega)
    have hrest : byte.toNat - byte.toNat / 16 * 16 = byte.toNat % 16 := by omega
    have hpercent : (Text.ofString "%").bytes = [37] := by decide +kernel
    rw [hhigh, hrest, hlow]
    exact ⟨_, rfl, by simp [hpercent, hhighBytes, hlowBytes]⟩

theorem foldlM_lspUriRound (bytes : List UInt8) (start : Text) :
    ∃ uri, bytes.foldlM lspUriRound start = some uri ∧
      uri.bytes = start.bytes ++ bytes.flatMap uriCode := by
  induction bytes generalizing start with
  | nil => exact ⟨start, rfl, by simp⟩
  | cons byte bytes ih =>
    obtain ⟨next, hnext, hbytes⟩ := lspUriRound_bytes start byte
    obtain ⟨uri, huri, hrest⟩ := ih next
    refine ⟨uri, ?_, by rw [hrest, hbytes, flatMap_cons, append_assoc]⟩
    rw [foldlM_cons, hnext]
    exact huri

theorem lspPathBytes_uriCode {byte : UInt8} (hzero : byte ≠ 0) (rest : List UInt8) :
    lspPathBytes (uriCode byte ++ rest) = (lspPathBytes rest).map (byte :: ·) := by
  unfold uriCode
  split
  next h =>
    have hplain := plain_of_isUriByte h
    have hne (other : UInt8) (hother : byte.toNat ≠ other.toNat) : byte ≠ other :=
      fun heq => hother (congrArg _ heq)
    have h63 := hne 63 hplain.2.1
    have h35 := hne 35 hplain.2.2.1
    have h37 := hne 37 hplain.2.2.2.1
    rw [singleton_append, lspPathBytes.eq_3 _ _ fun _ _ _ heq => absurd heq h37]
    simp [h63, h35, h37, hzero]
  next =>
    have hdigit : ∀ value < 16, lspHexDigit (hexDigitByte value) = some value := by decide +kernel
    have hlt := byte.toNat_lt
    have hvalue : byte.toNat / 16 * 16 + byte.toNat % 16 = byte.toNat := by omega
    have hne : byte.toNat ≠ 0 := fun heq => hzero (UInt8.toNat_inj.mp heq)
    rw [cons_append, cons_append, singleton_append, lspPathBytes.eq_2,
      hdigit _ (by omega), hdigit _ (by omega)]
    simp only [Option.bind_eq_bind, Option.bind_some, hvalue, if_neg hne, UInt8.ofNat_toNat]
    cases lspPathBytes rest <;> rfl

theorem lspPathBytes_flatMap_uriCode {bytes : List UInt8} (hzero : 0 ∉ bytes) :
    lspPathBytes (bytes.flatMap uriCode) = some bytes := by
  induction bytes with
  | nil => rfl
  | cons byte bytes ih =>
    rw [mem_cons, not_or] at hzero
    rw [flatMap_cons, lspPathBytes_uriCode (Ne.symm hzero.1), ih hzero.2, Option.map_some]

/-- An absolute path of the host, without a zero byte, whose URI is not too long. -/
structure IsLspPath (host : PathHost) (path : Text) : Prop where
  absolute : path.bytes.head? = some 47
  zero : 0 ∉ path.bytes
  unchanged : host.pathAbsolute path = some path
  short : ∀ uri, lspUri path = some uri → uri.byteLength ≤ 16384

theorem IsLspPath.roundTrip {path : Text} (h : IsLspPath host path) (hhost : host.windows = false) :
    (lspUri path).bind (lspPath host) = some path := by
  obtain ⟨rest, hpath⟩ := head?_eq_some_iff.mp h.absolute
  have hdrive : platformDrivePath path = false := by
    unfold platformDrivePath
    rw [hpath]
    split
    next heq =>
      cases heq
      rfl
    next => rfl
  have hscheme : (Text.ofString "file:///").bytes = (Text.ofString "file://").bytes ++ [47] ∧
      (Text.ofString "file://").bytes.length = 7 := by decide +kernel
  obtain ⟨uri, huri, hbytes⟩ := foldlM_lspUriRound path.bytes "file://"
  have hstart : lspUri path = some uri := by
    rw [lspUri, hdrive]
    exact huri
  have hstarts : (Text.ofString "file:///").bytes.isPrefixOf uri.bytes = true := by
    refine isPrefixOf_iff_prefix.mpr ?_
    rw [hbytes, hpath]
    exact prefix_append ..
  have hdrop : uri.bytes.drop 7 = path.bytes.flatMap uriCode := by
    rw [hbytes, ← hscheme.2, drop_left]
  have hlength := h.short uri hstart
  rw [hstart, Option.bind_some, lspPath, hstarts, if_neg (by simpa using hlength), hdrop,
    lspPathBytes_flatMap_uriCode h.zero]
  simp [Text.fromBytes, path.strict, hhost, h.unchanged]

/-- On a host that is not Windows, the path of a URI of a path is the path, so that different paths
have different URIs. -/
theorem lspPath_lspUri (host : PathHost) (hhost : host.windows = false) :
    (∀ path, IsLspPath host path → (lspUri path).bind (lspPath host) = some path) ∧
      ∀ path other, IsLspPath host path → IsLspPath host other → path ≠ other →
        lspUri path ≠ lspUri other := by
  refine ⟨fun path h => h.roundTrip hhost, fun path other h hother hne heq => hne ?_⟩
  have hpath := h.roundTrip hhost
  rw [heq, hother.roundTrip hhost] at hpath
  exact (Option.some.inj hpath).symm

theorem lspPath_lspUri_blank :
    let host : PathHost := ⟨false, some⟩
    (lspUri "/a b").bind (lspPath host) = some "/a b" := by
  refine (lspPath_lspUri ⟨false, some⟩ rfl).1 _ ⟨by decide +kernel, by decide +kernel, rfl, ?_⟩
  intro uri huri
  have huri' : lspUri "/a b" = some "file:///a%20b" := by
    decide +kernel
  cases huri.symm.trans huri'
  decide +kernel

end Neri.Lsp
