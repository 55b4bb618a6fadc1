import Neri.Stdlib.Utf8Offset

/-!
# The offset and the strict check

The scan and `isStrictUtf8` cut an array at the same places. Behind the bytes that it has read, the
variables of the scan say which bytes can follow (`Utf8Scan.completes`), and the bytes that it has
read are whole sequences and the start of one (`Scanned`).
-/

namespace Neri.Stdlib

open Utf8 List

/-- Bytes that end the present sequence, with whole sequences behind them. -/
def completes : (remaining minimum maximum : Nat) → List UInt8 → Bool
  | 0, _, _, bytes => isStrictUtf8 bytes
  | _ + 1, _, _, [] => false
  | remaining + 1, minimum, maximum, b :: bytes =>
    UInt8.between b minimum maximum && completes remaining 128 191 bytes

def Utf8Scan.completes (scan : Utf8Scan) (bytes : List UInt8) : Bool :=
  Stdlib.completes scan.remaining scan.minimum scan.maximum bytes

theorem isContinuation_eq (b : UInt8) : isContinuation b = UInt8.between b 128 191 := by
  rw [Bool.eq_iff_iff, isContinuation_iff, between_iff]

/-- The second byte of a longer sequence has its own range. -/
theorem second_eq (first second : UInt8) {least last low high : Nat} (h : least ≠ last) :
    (if first.toNat = least then UInt8.between second low 191
      else if first.toNat = last then UInt8.between second 128 high
      else UInt8.between second 128 191) =
      UInt8.between second (if first.toNat = least then low else 128)
        (if first.toNat = last then high else 191) := by
  split_ifs
  · omega
  all_goals rfl

/-- The strict check of a first byte, as the scan makes it. -/
theorem isStrictUtf8_cons (first : UInt8) (bytes : List UInt8) : isStrictUtf8 (first :: bytes) =
      if first.toNat < 128 then isStrictUtf8 bytes
      else if first.toNat ≥ 194 ∧ first.toNat ≤ 223 then completes 1 128 191 bytes
      else if first.toNat ≥ 224 ∧ first.toNat ≤ 239 then
        completes 2 (if first.toNat = 224 then 160 else 128) (if first.toNat = 237 then 159 else 191)
          bytes else if first.toNat ≥ 240 ∧ first.toNat ≤ 244 then
        completes 3 (if first.toNat = 240 then 144 else 128) (if first.toNat = 244 then 143 else 191)
          bytes else false := by
  rw [isStrictUtf8.eq_def]
  simp only [between_iff, Nat.lt_succ_iff, ge_iff_le, isContinuation_eq]
  refine if_congr Iff.rfl rfl (if_congr Iff.rfl ?_ (if_congr Iff.rfl ?_ (if_congr Iff.rfl ?_ rfl)))
  · cases bytes <;> rfl
  · obtain _ | ⟨second, _ | ⟨third, bytes⟩⟩ := bytes
    · rfl
    · exact (Bool.and_false _).symm
    · dsimp only
      rw [second_eq first second (by decide), Bool.and_assoc]
      rfl
  · obtain _ | ⟨second, _ | ⟨third, _ | ⟨fourth, bytes⟩⟩⟩ := bytes
    · rfl
    · exact (Bool.and_false _).symm
    · simp only [completes, Bool.and_false]
    · dsimp only
      rw [second_eq first second (by decide), Bool.and_assoc, Bool.and_assoc]
      rfl

variable {scan scan' : Utf8Scan} {i : Nat} {b : UInt8} {pre sequence bytes : List UInt8}

/-- Some byte is in range, and between two sequences every continuation byte is. -/
def Utf8Scan.Ready (scan : Utf8Scan) : Prop :=
  (scan.minimum ≤ scan.maximum ∧ scan.minimum < 256) ∧
    (scan.remaining = 0 → scan.minimum = 128 ∧ scan.maximum = 191)

theorem Utf8Scan.ready_continuation (remaining start : Nat) : Ready ⟨remaining, 128, 191, start⟩ :=
  ⟨⟨(by decide : 128 ≤ 191), (by decide : 128 < 256)⟩, fun _ => ⟨rfl, rfl⟩⟩

theorem Utf8Scan.ready_second {remaining minimum maximum start : Nat}
    (h : minimum ≤ maximum ∧ minimum < 256) : Ready ⟨remaining + 1, minimum, maximum, start⟩ :=
  ⟨h, fun hzero => absurd hzero (Nat.succ_ne_zero _)⟩

/-- A byte passes exactly where the present sequence goes on with it, or a sequence starts. -/
theorem Utf8Scan.step_spec (hready : scan.Ready) (i : Nat) (b : UInt8) : match scan.step i b with
    | none => ∀ bytes, scan.completes (b :: bytes) = false
    | some scan' => scan'.Ready ∧ (∀ bytes, scan.completes (b :: bytes) = scan'.completes bytes) ∧
        (0 < scan'.remaining → scan'.sequenceStart =
          if 0 < scan.remaining then scan.sequenceStart else i) := by
  obtain ⟨remaining, minimum, maximum, start⟩ := scan
  cases remaining with
  | succ remaining =>
    by_cases hrange : b.toNat < minimum ∨ b.toNat > maximum
    · have hstep : step ⟨remaining + 1, minimum, maximum, start⟩ i b = none := by
        rw [step, if_pos (Nat.succ_pos _), if_pos hrange]
      rw [hstep]
      intro bytes
      have hbetween : UInt8.between b minimum maximum = false := by
        rw [← Bool.not_eq_true, between_iff]
        omega
      rw [completes, Stdlib.completes, hbetween, Bool.false_and]
    · have hstep : step ⟨remaining + 1, minimum, maximum, start⟩ i b =
          some ⟨remaining, 128, 191, start⟩ := by
        rw [step, if_neg hrange]
        rfl
      rw [hstep]
      refine ⟨ready_continuation remaining start, fun bytes => ?_,
        fun _ => (if_pos (Nat.succ_pos _)).symm⟩
      have hbetween : UInt8.between b minimum maximum = true := between_iff.mpr (by omega)
      rw [completes, Stdlib.completes, hbetween, Bool.true_and, completes]
  | zero =>
    obtain ⟨rfl, rfl⟩ := hready.2 rfl
    simp only [completes, Stdlib.completes, isStrictUtf8_cons, step]
    by_cases hascii : b.toNat < 128
    · rw [if_neg (Nat.not_le.mpr hascii)]
      exact ⟨hready, fun bytes => if_pos hascii, fun h => absurd h (Nat.lt_irrefl 0)⟩
    · rw [if_neg (Nat.lt_irrefl 0), if_pos (Nat.not_lt.mp hascii)]
      simp only [if_neg hascii]
      by_cases htwo : b.toNat ≥ 194 ∧ b.toNat ≤ 223
      · simp only [if_pos htwo]
        exact ⟨ready_continuation 1 i, fun _ => trivial, fun _ => rfl⟩
      by_cases hthree : b.toNat ≥ 224 ∧ b.toNat ≤ 239
      · simp only [if_neg htwo, if_pos hthree]
        refine ⟨ready_second ?_, fun _ => trivial, fun _ => rfl⟩
        split_ifs <;> omega
      by_cases hfour : b.toNat ≥ 240 ∧ b.toNat ≤ 244
      · simp only [if_neg htwo, if_neg hthree, if_pos hfour]
        refine ⟨ready_second ?_, fun _ => trivial, fun _ => rfl⟩
        split_ifs <;> omega
      simp only [if_neg htwo, if_neg hthree, if_neg hfour]
      exact fun _ => trivial

/-- The bytes that the scan has read: whole sequences, and the start of one that goes on. -/
structure Scanned (before sequence : List UInt8) (scan : Utf8Scan) : Prop where
  ready : scan.Ready
  whole : isStrictUtf8 before = true
  ahead : ∀ bytes, isStrictUtf8 (sequence ++ bytes) = scan.completes bytes
  between : scan.remaining = 0 → sequence = []
  start : 0 < scan.remaining → scan.sequenceStart = before.length
  unfinished : ∀ part, part ≠ [] → part <+: sequence → isStrictUtf8 part = false

theorem isStrictUtf8_append (h : isStrictUtf8 pre = true) (bytes : List UInt8) :
    isStrictUtf8 (pre ++ bytes) = isStrictUtf8 bytes := by
  obtain ⟨chars, rfl⟩ := exists_encode h
  exact isStrictUtf8_encode_append chars bytes

theorem Utf8Scan.completes_nil (h : 0 < scan.remaining) : scan.completes [] = false := by
  obtain ⟨remaining, minimum, maximum, start⟩ := scan
  cases remaining with
  | zero => exact absurd h (Nat.lt_irrefl 0)
  | succ remaining => rfl

theorem Scanned.step (h : Scanned pre sequence scan)
    (hstep : scan.step (pre ++ sequence).length b = some scan') :
    ∃ before' sequence', before' ++ sequence' = pre ++ sequence ++ [b] ∧
      Scanned before' sequence' scan' := by
  have hspec := Utf8Scan.step_spec h.ready (pre ++ sequence).length b
  rw [hstep] at hspec
  obtain ⟨hready, hcompletes, hstart⟩ := hspec
  have hahead : ∀ bytes, isStrictUtf8 (sequence ++ [b] ++ bytes) = scan'.completes bytes := by
    intro bytes
    rw [append_assoc, h.ahead]
    exact hcompletes bytes
  have hwhole : isStrictUtf8 (sequence ++ [b]) = scan'.completes [] := by
    rw [← hahead, append_nil]
  by_cases hrest : scan'.remaining = 0
  · -- The byte is the last one of its sequence.
    have hstrict : ∀ bytes, isStrictUtf8 bytes = scan'.completes bytes := by
      intro bytes
      rw [Utf8Scan.completes, hrest, completes]
    refine ⟨pre ++ sequence ++ [b], [], append_nil _, hready, ?_, hstrict, fun _ => rfl,
      fun hpos => absurd hrest (Nat.ne_of_gt hpos), fun part hne hpart => absurd (prefix_nil.mp hpart) hne⟩
    rw [append_assoc, isStrictUtf8_append h.whole, hwhole, ← hstrict]
    rfl
  · have hpos := Nat.pos_of_ne_zero hrest
    refine ⟨pre, sequence ++ [b], (append_assoc ..).symm, hready, h.whole, hahead,
      fun hzero => absurd hzero hrest, fun _ => ?_, fun part hne hpart => ?_⟩
    · rw [hstart hpos]
      split_ifs with hinside
      · exact h.start hinside
      · rw [h.between (Nat.eq_zero_of_not_pos hinside), append_nil]
    · rcases prefix_concat_iff.mp hpart with rfl | hpart
      · rw [hwhole, Utf8Scan.completes_nil hpos]
      · exact h.unfinished part hne hpart

/-- Bytes that begin the encoding of a scalar without ending it. -/
def Unfinished (sequence : List UInt8) : Prop :=
  ∃ scalar rest, rest ≠ [] ∧ String.utf8EncodeChar scalar = sequence ++ rest

theorem exists_completes (remaining : Nat) {minimum maximum : Nat}
    (h : minimum ≤ maximum ∧ minimum < 256) :
    ∃ bytes, completes remaining minimum maximum bytes = true := by
  induction remaining generalizing minimum maximum with
  | zero => exact ⟨[], rfl⟩
  | succ remaining ih =>
    obtain ⟨bytes, hbytes⟩ := ih (show 128 ≤ 191 ∧ 128 < 256 by decide)
    have hvalue : (UInt8.ofNat minimum).toNat = minimum := UInt8.toNat_ofNat_of_lt' h.2
    have hbetween : UInt8.between (UInt8.ofNat minimum) minimum maximum = true :=
      between_iff.mpr (by omega)
    exact ⟨UInt8.ofNat minimum :: bytes, by rw [completes, hbetween, hbytes, Bool.true_and]⟩

theorem Scanned.part (h : Scanned pre sequence scan) : Unfinished sequence := by
  by_cases hnil : sequence = []
  · exact ⟨'a', String.utf8EncodeChar 'a', by decide, by rw [hnil, nil_append]⟩
  obtain ⟨bytes, hbytes⟩ := exists_completes scan.remaining h.ready.1
  obtain ⟨scalars, hscalars⟩ := exists_encode ((h.ahead bytes).trans hbytes)
  cases scalars with
  | nil => exact absurd (append_eq_nil_iff.mp hscalars.symm).1 hnil
  | cons scalar scalars =>
    have hstrict : isStrictUtf8 (String.utf8EncodeChar scalar) = true := by
      rw [← append_nil (String.utf8EncodeChar scalar), isStrictUtf8_utf8EncodeChar_append]
      rfl
    rcases append_eq_append_iff.mp hscalars with ⟨rest, hsequence, -⟩ | ⟨rest, hscalar, -⟩
    · -- No whole scalar is in the sequence.
      have hpart := h.unfinished _ (by simp) ⟨rest, hsequence.symm⟩
      rw [hpart] at hstrict
      cases hstrict
    · refine ⟨scalar, rest, fun hrest => ?_, hscalar⟩
      rw [hrest, append_nil] at hscalar
      rw [hscalar, h.unfinished sequence hnil (prefix_refl _)] at hstrict
      cases hstrict

theorem isNone_invalidUtf8From (hready : scan.Ready) :
    (invalidUtf8From scan i bytes).isNone = scan.completes bytes := by
  induction bytes generalizing scan i with
  | nil =>
    rw [invalidUtf8From]
    split_ifs with hrest
    · rw [Utf8Scan.completes_nil hrest]
      rfl
    · rw [Utf8Scan.completes, Nat.eq_zero_of_not_pos hrest]
      rfl
  | cons b bytes ih =>
    have hspec := Utf8Scan.step_spec hready i b
    rw [invalidUtf8From]
    cases hstep : scan.step i b with
    | none =>
      rw [hstep] at hspec
      rw [hspec bytes]
      rfl
    | some scan' =>
      rw [hstep] at hspec
      rw [hspec.2.1 bytes]
      exact ih hspec.1

/-- What an offset says: behind whole sequences and the start of one, there is a byte with which no
bytes are well formed, or the array ends inside the sequence at the offset. -/
def FirstViolation (value : List UInt8) (offset : Nat) : Prop :=
  ∃ whole part, (∃ scalars, encode scalars = whole) ∧ Unfinished part ∧
    ((∃ b rest, value = whole ++ part ++ b :: rest ∧ offset = (whole ++ part).length ∧
        ∀ more scalars, encode scalars ≠ whole ++ part ++ b :: more) ∨
      (value = whole ++ part ∧ part ≠ [] ∧ offset = whole.length))

theorem Scanned.run (h : Scanned pre sequence scan) {off : Nat}
    (hrun : invalidUtf8From scan (pre ++ sequence).length bytes = some off) :
    FirstViolation (pre ++ sequence ++ bytes) off := by
  induction bytes generalizing pre sequence scan with
  | nil =>
    rw [invalidUtf8From] at hrun
    split_ifs at hrun with hrest
    refine ⟨pre, sequence, exists_encode h.whole, h.part, .inr ⟨append_nil _, ?_, ?_⟩⟩
    · -- A scan inside a sequence is not at its start.
      intro hnil
      have hstrict := h.ahead []
      rw [hnil, Utf8Scan.completes_nil hrest] at hstrict
      cases hstrict
    · rw [← h.start hrest]
      exact (Option.some.inj hrun).symm
  | cons b bytes ih =>
    rw [invalidUtf8From] at hrun
    cases hstep : scan.step (pre ++ sequence).length b with
    | none =>
      rw [hstep] at hrun
      have hspec := Utf8Scan.step_spec h.ready (pre ++ sequence).length b
      rw [hstep] at hspec
      refine ⟨pre, sequence, exists_encode h.whole, h.part, .inl ⟨b, bytes, rfl,
        (Option.some.inj hrun).symm, fun more scalars hscalars => ?_⟩⟩
      have hstrict := isStrictUtf8_encode scalars
      rw [hscalars, append_assoc, isStrictUtf8_append h.whole, h.ahead, hspec more] at hstrict
      cases hstrict
    | some scan' =>
      rw [hstep] at hrun
      obtain ⟨before', sequence', hsplit, h'⟩ := h.step hstep
      have hlength : (before' ++ sequence').length = (pre ++ sequence).length + 1 := by
        rw [hsplit, length_append, length_singleton]
      have hrest : before' ++ sequence' ++ bytes = pre ++ sequence ++ b :: bytes := by
        rw [hsplit, append_assoc _ [b], singleton_append]
      rw [← hrest]
      exact ih h' (hlength ▸ hrun)

/-- The scan, the strict check and the encoding of scalars accept the same arrays, and an offset is
the one of the first violation. -/
theorem invalidUtf8Offset_spec (value : List UInt8) :
    (invalidUtf8Offset value = none ↔ isStrictUtf8 value = true) ∧
      (isStrictUtf8 value = true ↔ ∃ scalars, encode scalars = value) ∧
      ∀ off, invalidUtf8Offset value = some off → FirstViolation value off := by
  have hready : Utf8Scan.Ready {} := Utf8Scan.ready_continuation 0 0
  refine ⟨?_, ⟨exists_encode, ?_⟩, ?_⟩
  · rw [← Option.isNone_iff_eq_none, invalidUtf8Offset, isNone_invalidUtf8From hready]
    rfl
  · rintro ⟨scalars, rfl⟩
    exact isStrictUtf8_encode scalars
  · intro off hoffset
    have hstart : Scanned [] [] {} := by
      refine ⟨hready, rfl, fun _ => rfl, fun _ => rfl, fun _ => rfl, fun part hne hpart => ?_⟩
      exact absurd (prefix_nil.mp hpart) hne
    exact hstart.run hoffset

end Neri.Stdlib
