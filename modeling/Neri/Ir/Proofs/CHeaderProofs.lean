import Mathlib.Data.FinEnum
import Neri.Frontend.Unicode
import Neri.Ir.CHeader
import Neri.Lib.PrefixCode

/-!
# Names in C headers: which names have one, and that they differ

A name with a byte outside ASCII has no C name: the walk cuts a scalar. The names of ASCII bytes have
one, and the bytes can be read back from it, escape by escape.
-/

namespace Neri.Ir

open Neri.Stdlib List Option

def hexDigitByte (value : Nat) : UInt8 := (Text.ofString "0123456789abcdef").bytes.getD value 0

def cNameCode (byte : UInt8) : List UInt8 :=
  if isCNameByte byte then [byte]
  else [95, hexDigitByte (byte.toNat / 16), hexDigitByte (byte.toNat % 16)]

/-! ## One round -/

theorem irHexDigit_bytes (v : Nat) (h : v < 16) :
    ∃ digit, irHexDigit v = some digit ∧ digit.bytes = [hexDigitByte v] := by
  have hall : ∀ v < 16, (irHexDigit v).map Text.bytes = some [hexDigitByte v] := by
    decide +kernel
  obtain ⟨digit, hdigit, hbytes⟩ := map_eq_some_iff.mp (hall v h)
  exact ⟨digit, hdigit, hbytes⟩

theorem fromBytes_singleton (byte : UInt8) :
    (Text.fromBytes [byte]).map Text.bytes = if byte.toNat < 128 then some [byte] else none := by
  have hstrict : isStrictUtf8 [byte] = decide (byte.toNat < 128) := by
    unfold isStrictUtf8
    by_cases h : byte.toNat ≤ 0x7f
    · have hlt : byte.toNat < 128 := by omega
      simp [h, hlt, isStrictUtf8]
    · have hge : ¬byte.toNat < 128 := by omega
      simp [h, hge]
  unfold Text.fromBytes
  by_cases h : byte.toNat < 128
  · rw [dif_pos (by simpa [hstrict] using h), if_pos h]
    rfl
  · rw [dif_neg (by simpa [hstrict] using h), if_neg h]
    rfl

theorem slice_one {name : Text} {i : Nat} {byte : UInt8} (h : name.bytes[i]? = some byte) :
    (name.slice i 1).map Text.bytes = if byte.toNat < 128 then some [byte] else none := by
  obtain ⟨hindex, hbyte⟩ := List.getElem_of_getElem? h
  have hbytes : (name.bytes.drop i).take 1 = [byte] := by
    rw [drop_eq_getElem_cons hindex, hbyte]
    rfl
  unfold Text.slice
  have hbounds : (i ≤ name.byteLength && 1 ≤ name.byteLength - i) = true := by
    rw [Bool.and_eq_true, decide_eq_true_eq, decide_eq_true_eq, Text.byteLength]
    omega
  rw [if_pos (by simpa using hbounds), hbytes]
  exact fromBytes_singleton byte

theorem irHex_bytes {text : Text} {byte : UInt8} (h : text.bytes = [byte]) :
    (irHex text).map Text.bytes =
      some [hexDigitByte (byte.toNat / 16), hexDigitByte (byte.toNat % 16)] := by
  obtain ⟨high, hhigh, hhighBytes⟩ := irHexDigit_bytes (byte.toNat / 16)
    (by have := byte.toNat_lt; omega)
  obtain ⟨low, hlow, hlowBytes⟩ := irHexDigit_bytes (byte.toNat % 16)
    (Nat.mod_lt _ (by omega))
  have hrest : byte.toNat - byte.toNat / 16 * 16 = byte.toNat % 16 := by omega
  have hempty : (Text.ofString "").bytes = [] := rfl
  simp [irHex, Text.byteLength, Text.byteAt, h, hhigh, hrest, hlow, hhighBytes, hlowBytes, hempty]

theorem irCIdentifierRound_bytes {name : Text} (result : Text) {i : Nat} {byte : UInt8}
    (h : name.bytes[i]? = some byte) : (irCIdentifierRound name result i).map Text.bytes =
      if byte.toNat < 128 then some (result.bytes ++ cNameCode byte) else none := by
  have hslice := slice_one h
  have hunderscore : (Text.ofString "_").bytes = [95] := by decide +kernel
  unfold irCIdentifierRound
  rw [Text.byteAt, h, bind_eq_bind, bind_some]
  by_cases hascii : byte.toNat < 128
  · rw [if_pos hascii] at hslice ⊢
    obtain ⟨text, htext, hbytes⟩ := map_eq_some_iff.mp hslice
    rw [htext, bind_eq_bind, bind_some]
    unfold cNameCode
    by_cases hname : isCNameByte byte = true
    · rw [if_pos hname, if_pos hname]
      simp [hbytes]
    · rw [if_neg hname, if_neg hname]
      obtain ⟨hex, hhex, hhexBytes⟩ := map_eq_some_iff.mp (irHex_bytes hbytes)
      rw [hhex]
      simp [hunderscore, hhexBytes]
  · rw [if_neg hascii] at hslice ⊢
    rw [map_eq_none_iff.mp hslice]
    rfl

/-! ## The walk -/

theorem foldlM_round_bytes (name : Text) (count : Nat) (hcount : count ≤ name.byteLength) :
    ((range count).foldlM (irCIdentifierRound name) "").map Text.bytes =
      if ∀ byte ∈ name.bytes.take count, byte.toNat < 128 then
        some ((name.bytes.take count).flatMap cNameCode) else none := by
  induction count with
  | zero =>
    simp only [range_zero, foldlM_nil, take_zero, not_mem_nil,
      false_implies, implies_true, if_true, flatMap_nil]
    rfl
  | succ count ih =>
    have hindex : count < name.bytes.length := hcount
    have ih := ih (Nat.le_of_succ_le hcount)
    rw [range_succ, foldlM_append]
    have htake : name.bytes.take (count + 1) = name.bytes.take count ++ [name.bytes[count]] :=
      take_succ_eq_append_getElem hindex
    have hbyte : name.bytes[count]? = some name.bytes[count] := getElem?_eq_getElem hindex
    rw [htake]
    by_cases hascii : ∀ byte ∈ name.bytes.take count, byte.toNat < 128
    · rw [if_pos hascii] at ih
      obtain ⟨result, hresult, hbytes⟩ := map_eq_some_iff.mp ih
      rw [hresult, bind_eq_bind, bind_some, foldlM_cons]
      have hround := irCIdentifierRound_bytes result hbyte
      by_cases hlast : name.bytes[count].toNat < 128
      · rw [if_pos hlast] at hround
        obtain ⟨next, hnext, hnextBytes⟩ := map_eq_some_iff.mp hround
        rw [hnext, if_pos]
        · rw [flatMap_append, ← hbytes]
          simpa using hnextBytes
        · intro byte hmem
          rcases mem_append.mp hmem with hmem | hmem
          · exact hascii byte hmem
          · rw [mem_singleton.mp hmem]
            exact hlast
      · rw [if_neg hlast] at hround
        rw [map_eq_none_iff.mp hround, if_neg]
        · rfl
        · exact fun hall => hlast (hall _ (mem_append_right _ mem_cons_self))
    · rw [if_neg hascii] at ih
      rw [map_eq_none_iff.mp ih, if_neg]
      · rfl
      · exact fun hall => hascii fun byte hmem => hall byte (mem_append_left _ hmem)

theorem irCIdentifier_bytes (name : Text) : (irCIdentifier name).map Text.bytes =
      if ∀ byte ∈ name.bytes, byte.toNat < 128 then some (name.bytes.flatMap cNameCode)
      else none := by
  have h := foldlM_round_bytes name name.byteLength (Nat.le_refl _)
  rwa [Text.byteLength, take_length] at h

/-! ## Reading a C name back -/

theorem hexDigitByte_injective {a b : Nat} (ha : a < 16) (hb : b < 16)
    (h : hexDigitByte a = hexDigitByte b) : a = b := by
  have hall : ∀ a < 16, ∀ b < 16, hexDigitByte a = hexDigitByte b → a = b := by
    decide +kernel
  exact hall a ha b hb h

/-- No code word is the beginning of another one. -/
theorem cNameCode_append_inj {a b : UInt8} {as bs : List UInt8}
    (h : cNameCode a ++ as = cNameCode b ++ bs) : a = b ∧ as = bs := by
  have hunderscore : isCNameByte 95 = false := by decide
  unfold cNameCode at h
  by_cases ha : isCNameByte a = true
  · rw [if_pos ha] at h
    by_cases hb : isCNameByte b = true
    · rw [if_pos hb] at h
      simpa using h
    · rw [if_neg hb] at h
      obtain ⟨rfl, -⟩ := cons.inj h
      exact absurd ha (by simp [hunderscore])
  · rw [if_neg ha] at h
    by_cases hb : isCNameByte b = true
    · rw [if_pos hb] at h
      obtain ⟨rfl, -⟩ := cons.inj h
      exact absurd hb (by simp [hunderscore])
    · rw [if_neg hb] at h
      obtain ⟨-, h⟩ := cons.inj h
      obtain ⟨hhigh, h⟩ := cons.inj h
      obtain ⟨hlow, hrest⟩ := cons.inj h
      have hhigh := hexDigitByte_injective (by have := a.toNat_lt; omega)
        (by have := b.toNat_lt; omega) hhigh
      have hlow := hexDigitByte_injective (Nat.mod_lt _ (by omega)) (Nat.mod_lt _ (by omega)) hlow
      exact ⟨UInt8.toNat_inj.mp (by omega), hrest⟩

theorem flatMap_cNameCode_injective :
    Function.Injective fun bytes : List UInt8 => bytes.flatMap cNameCode := by
  intro as bs h
  refine PrefixCode.eq_of_flatMap_eq (fun byte => ?_) (fun _ _ _ _ _ _ => cNameCode_append_inj) h
  unfold cNameCode
  split <;> simp

theorem isCIdentifierByte_of_mem_cNameCode {byte code : UInt8} (h : code ∈ cNameCode byte) :
    isCIdentifierByte code = true := by
  have hdigit : ∀ v < 16, isCIdentifierByte (hexDigitByte v) = true := by
    decide +kernel
  unfold cNameCode at h
  by_cases hname : isCNameByte byte = true
  · rw [if_pos hname, mem_singleton] at h
    simp [isCIdentifierByte, h, hname]
  · rw [if_neg hname] at h
    simp only [mem_cons, not_mem_nil, or_false] at h
    rcases h with rfl | rfl | rfl
    · decide
    · exact hdigit _ (by have := byte.toNat_lt; omega)
    · exact hdigit _ (Nat.mod_lt _ (by omega))

/-- A name has a C name of letters, digits and underscores if its bytes are ASCII, and names of ASCII
bytes that differ have C names that differ. -/
theorem irCIdentifier_iff_ascii (name : Text) :
    ((∃ identifier, irCIdentifier name = some identifier ∧
        (∀ byte ∈ identifier.bytes, isCIdentifierByte byte = true) ∧
        ∀ other, other ≠ name → irCIdentifier other ≠ some identifier) ↔
      ∀ byte ∈ name.bytes, byte.toNat < 128) := by
  have hname := irCIdentifier_bytes name
  constructor
  · rintro ⟨identifier, hsome, -⟩
    by_contra hascii
    rw [if_neg hascii, hsome] at hname
    cases hname
  · intro hascii
    rw [if_pos hascii] at hname
    obtain ⟨identifier, hsome, hbytes⟩ := map_eq_some_iff.mp hname
    refine ⟨identifier, hsome, fun byte hmem => ?_, fun other hne hother => hne ?_⟩
    · rw [hbytes] at hmem
      obtain ⟨source, -, hcode⟩ := mem_flatMap.mp hmem
      exact isCIdentifierByte_of_mem_cNameCode hcode
    · have hotherBytes := irCIdentifier_bytes other
      rw [hother, map_some] at hotherBytes
      split_ifs at hotherBytes
      have hcodes := (some.inj hotherBytes).symm.trans hbytes
      exact Text.ext (flatMap_cNameCode_injective hcodes)

/-- The lexer reads the letter as an identifier, and it has no C name. -/
theorem irCIdentifier_eAcute : Frontend.isIdentifier "é" = true ∧ irCIdentifier "é" = none := by
  constructor <;> decide +kernel

end Neri.Ir
