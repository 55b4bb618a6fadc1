import Mathlib.Algebra.BigOperators.Group.List.Basic
import Mathlib.Algebra.Order.Ring.Nat
import Neri.Stdlib.Http

/-!
# A payload is written once and in order

While the call runs, it has written what lies before the place `offset + sent`, and there is more in
the window. What the socket is given on a turn is therefore the payload from there on.
-/

namespace Neri.Stdlib.Http

namespace PayloadWrite

open List

variable {payload : List UInt8} {w : PayloadWrite} {answer : WriteTurn}

structure Sound (payload : List UInt8) (w : PayloadWrite) : Prop where
  running : w.returned = false →
    w.failure = none ∧ w.bytesWritten = w.offset + w.sent ∧ w.sent < w.size payload
  finished : w.returned = true ∧ w.failure = none ↔ w.bytesWritten = payload.length

theorem Sound.fail (h : Sound payload w) (hrun : w.returned = false) (failure : Failure) :
    Sound payload (w.fail failure) := by
  obtain ⟨-, hwritten, hsent⟩ := h.running hrun
  refine ⟨nofun, nofun, fun hall => ?_⟩
  have hall : w.bytesWritten = payload.length := hall
  rw [size] at hsent
  omega

theorem Sound.accept (h : Sound payload w) (hrun : w.returned = false) {count : Nat}
    (hcount : count ≤ w.size payload - w.sent) : Sound payload (w.accept payload count) := by
  obtain ⟨hfailure, hwritten, hsent⟩ := h.running hrun
  have hsize : w.size payload = min (payload.length - w.offset) 1024 := rfl
  unfold PayloadWrite.accept
  split
  · rename_i hmore
    refine ⟨fun _ => ⟨hfailure, ?_, hmore⟩, fun hdone => ?_, fun hall => ?_⟩
    · show w.bytesWritten + count = w.offset + (w.sent + count)
      omega
    · cases hrun.symm.trans hdone.1
    · have hall : w.bytesWritten + count = payload.length := hall
      omega
  · refine ⟨fun hleft => ⟨hfailure, ?_, ?_⟩, ?_⟩
    · show w.bytesWritten + count = w.offset + w.size payload + 0
      omega
    · have hleft := of_decide_eq_false hleft
      show 0 < min (payload.length - (w.offset + w.size payload)) 1024
      omega
    · rw [decide_eq_true_iff, and_iff_left hfailure]
      show payload.length ≤ w.offset + w.size payload ↔ w.bytesWritten + count = payload.length
      omega

theorem length_request : (w.request payload).length = w.size payload - w.sent := by
  rw [request, window, length_drop, length_take, length_drop, size]
  omega

theorem Sound.turn (h : Sound payload w) (hrun : w.returned = false)
    (hcount : answer.failure = none → answer.count ≤ (w.request payload).length) :
    Sound payload (w.turn payload answer) := by
  rw [length_request] at hcount
  unfold PayloadWrite.turn
  cases hwait : answer.failure with
  | some failure => exact h.fail hrun failure
  | none =>
    have hcount := hcount hwait
    dsimp only
    split_ifs
    · exact h.fail hrun _
    · exact h.fail hrun _
    · exact h.accept hrun (by omega)
    · exact h

theorem sound_start : Sound payload (start payload) := by
  refine ⟨fun hrun => ⟨rfl, rfl, ?_⟩, ?_⟩
  · have hrun := of_decide_eq_false hrun
    show 0 < min (payload.length - 0) 1024
    omega
  · simp [start, eq_comm]

/-! ## What the socket sees -/

/-- The count of a turn is what is added to `bytesWritten`, if it is positive. -/
theorem turn_bytesWritten (payload : List UInt8) (w : PayloadWrite)
    (hwait : answer.failure = none) :
    (w.turn payload answer).bytesWritten = w.bytesWritten + answer.count.toNat := by
  unfold PayloadWrite.turn
  rw [hwait]
  dsimp only
  split_ifs with herror hstalled hpositive
  · simp [PayloadWrite.fail, herror]
  · simp [PayloadWrite.fail, hstalled]
  · unfold PayloadWrite.accept
    split <;> rfl
  · rw [Int.toNat_of_nonpos (by omega), Nat.add_zero]

theorem run_of_returned (payload : List UInt8) (answers : List WriteTurn)
    (h : w.returned = true) :
    w.run payload answers = w ∧ w.netWrites payload answers = [] := by
  cases answers with
  | nil => exact ⟨rfl, rfl⟩
  | cons answer answers => exact ⟨if_pos h, if_pos h⟩

theorem Sound.take_request (h : Sound payload w) (hrun : w.returned = false) {count : Nat}
    (hcount : count ≤ (w.request payload).length) :
    payload.take w.bytesWritten ++ (w.request payload).take count =
      payload.take (w.bytesWritten + count) := by
  rw [length_request] at hcount
  rw [take_add, request, window, drop_take, drop_drop, take_take, (h.running hrun).2.1,
    Nat.min_eq_left hcount]

/-- What a run from `w` does: the socket is asked once for each answer up to the return, the counts
are added up, and what the socket accepts continues the payload from where the call was. -/
structure Writes (payload : List UInt8) (w : PayloadWrite) (answers : List WriteTurn)
    (after : PayloadWrite) (calls : List NetWrite) : Prop where
  consumed : ∃ consumed rest, answers = consumed ++ rest ∧ (rest = [] ∨ after.returned = true) ∧
    calls.map (·.count) = (consumed.filter (·.failure.isNone)).map (·.count)
  counted : after.bytesWritten = w.bytesWritten + (calls.map (·.count.toNat)).sum
  accepted : Sound payload w → (∀ call ∈ calls, call.count ≤ call.bytes.length) →
    Sound payload after ∧ payload.take w.bytesWritten ++ calls.flatMap NetWrite.accepted =
      payload.take after.bytesWritten

theorem writes (payload : List UInt8) (w : PayloadWrite) (answers : List WriteTurn) :
    Writes payload w answers (w.run payload answers) (w.netWrites payload answers) := by
  induction answers generalizing w with
  | nil => exact ⟨⟨[], [], rfl, .inl rfl, rfl⟩, rfl, fun h _ => ⟨h, append_nil _⟩⟩
  | cons answer answers ih =>
    cases hrun : w.returned with
    | true =>
      obtain ⟨hsame, hnone⟩ := run_of_returned payload (answer :: answers) hrun
      rw [hsame, hnone]
      exact ⟨⟨[], _, rfl, .inr hrun, rfl⟩, rfl, fun h _ => ⟨h, append_nil _⟩⟩
    | false =>
      rw [PayloadWrite.run, netWrites, hrun, if_neg Bool.false_ne_true, if_neg Bool.false_ne_true]
      cases hwait : answer.failure with
      | some failure =>
        have hfail : w.turn payload answer = w.fail failure := by rw [turn, hwait]
        rw [hfail, (run_of_returned payload answers rfl).1]
        exact ⟨⟨[answer], answers, rfl, .inr rfl, by simp [hwait]⟩, rfl,
          fun h _ => ⟨h.fail hrun failure, append_nil _⟩⟩
      | none =>
        obtain ⟨⟨consumed, rest, hanswers, hrest, hcounts⟩, hcounted, haccepted⟩ :=
          ih (w.turn payload answer)
        have hwritten := turn_bytesWritten payload w hwait
        refine ⟨⟨answer :: consumed, rest, hanswers ▸ rfl, hrest, by simp [hwait, hcounts]⟩, ?_, ?_⟩
        · rw [hcounted, hwritten, map_cons, sum_cons, Nat.add_assoc]
        · intro h hcalls
          obtain ⟨hcount, hcalls⟩ := forall_mem_cons.mp hcalls
          obtain ⟨hsound, htaken⟩ := haccepted (h.turn hrun fun _ => hcount) hcalls
          refine ⟨hsound, ?_⟩
          have hnat : answer.count.toNat ≤ (w.request payload).length := Int.toNat_le.mpr hcount
          rw [← htaken, hwritten, ← h.take_request hrun hnat, append_assoc]
          rfl

end PayloadWrite

/-- After any answers of the host, none of which accepts more than it was given: the socket was
asked once for each answer up to the return (or up to the last one), the bytes it accepted are the
first ones of the payload, as many as its positive counts sum up to and as are reported, and the
call has returned without a failure exactly if those are all. -/
theorem writePayload_exact (text : Text) (binaryBody : Option (List UInt8)) (answers : List WriteTurn)
    (h : ∀ call ∈ payloadWrites text binaryBody answers, call.count ≤ call.bytes.length) :
    let payload := payloadBytes text binaryBody
    let calls := payloadWrites text binaryBody answers
    let w := writePayloadResult text binaryBody answers
    (∃ consumed rest, answers = consumed ++ rest ∧ (rest = [] ∨ w.returned = true) ∧
        calls.map (·.count) = (consumed.filter (·.failure.isNone)).map (·.count)) ∧
      w.bytesWritten = (calls.map (·.count.toNat)).sum ∧
      calls.flatMap NetWrite.accepted = payload.take w.bytesWritten ∧
      (w.returned = true ∧ w.failure = none ↔ w.bytesWritten = payload.length) := by
  intro payload calls w
  have hwrites := PayloadWrite.writes payload (.start payload) answers
  obtain ⟨hsound, htaken⟩ := hwrites.accepted PayloadWrite.sound_start h
  exact ⟨hwrites.consumed, hwrites.counted.trans (Nat.zero_add _), htaken, hsound.finished⟩

/-- A byte is accepted, the socket asks to try again, and then the others are accepted. -/
theorem writePayload_exact_threeTurns : (payloadWrites (.ofString "") (some [1, 2, 3])
        [⟨none, 1, ""⟩, ⟨none, -2, ""⟩, ⟨none, 2, ""⟩]).flatMap NetWrite.accepted = [1, 2, 3] ∧
      (writePayloadResult (.ofString "") (some [1, 2, 3])
        [⟨none, 1, ""⟩, ⟨none, -2, ""⟩, ⟨none, 2, ""⟩]).bytesWritten = 3 := by
  obtain ⟨-, hsum, htaken, hfinished⟩ := writePayload_exact (.ofString "") (some [1, 2, 3])
    [⟨none, 1, ""⟩, ⟨none, -2, ""⟩, ⟨none, 2, ""⟩] (by decide)
  have hall := hfinished.mp ⟨by decide, by decide⟩
  refine ⟨?_, hall⟩
  rw [htaken, hall]
  rfl

end Neri.Stdlib.Http
