import Neri.Frontend.TokenBuffer

/-!
# Token access and the cached node

The cache holds the place of an index between the sentinel and the last token, or nothing. A walk from
there or from the sentinel ends at the place of the index, or behind the last token.
-/

namespace Neri.Frontend

open List

inductive TokenCall where
  | add (node : TokenNode)
  | nodeAt (index : Int)

/-- The answers of a sequence of calls, if none of them stops the program. -/
def TokenBuffer.answers : TokenBuffer → List TokenCall → Option (List (Option TokenNode))
  | _, [] => some []
  | b, .add node :: calls => (b.add node).answers calls
  | b, .nodeAt i :: calls =>
    (b.nodeAt i).bind fun (answer, b) => (b.answers calls).map (answer :: ·)

/-- What the calls are to answer, after these tokens. -/
def expectedAnswers : List TokenNode → List TokenCall → List (Option TokenNode)
  | _, [] => []
  | tokens, .add node :: calls => expectedAnswers (tokens ++ [node]) calls
  | tokens, .nodeAt i :: calls =>
    some (if 0 ≤ i then tokens.getD i.toNat .sentinel else .sentinel) ::
      expectedAnswers tokens calls

/-- No index is so far below the index of the call before that their distance overflows. A call finds
the sentinel at -1; behind the tokens it finds nothing, and the next call starts anew. -/
def NoOverflow : Nat → Option Int → List TokenCall → Prop
  | _, _, [] => True
  | size, found, .add _ :: calls => NoOverflow (size + 1) found calls
  | size, found, .nodeAt i :: calls =>
    (∀ last ∈ found, last - i ≤ 9223372036854775807) ∧
      NoOverflow size (if i < size then some (max i (-1)) else none) calls

namespace TokenBuffer

variable {b : TokenBuffer} {tokens : List TokenNode} {found : Option Int}

/-- The buffer holds the tokens, and its cache the place of what was found last. -/
structure Holds (buffer : TokenBuffer) (tokens : List TokenNode) (found : Option Int) : Prop where
  nodes : buffer.nodes = .sentinel :: tokens
  cached : buffer.cached = found.map fun i => (i + 1).toNat
  cachedIndex : ∀ i ∈ found, buffer.cachedIndex = i ∧ -1 ≤ i ∧ i < tokens.length

theorem goBack_eq (steps place : Nat) : goBack steps (place + steps) = some place := by
  induction steps with
  | zero => rfl
  | succ steps ih => exact ih

theorem goOn_eq (h : b.Holds tokens found) (steps : Nat) : ∀ place ≤ tokens.length,
    b.goOn steps (some place) =
      if place + steps ≤ tokens.length then some (place + steps) else none := by
  have hnone : ∀ steps, b.goOn steps none = none := fun steps => by
    induction steps with
    | zero => rfl
    | succ steps ih => exact ih
  induction steps with
  | zero => exact fun place hplace => (if_pos hplace).symm
  | succ steps ih =>
    intro place hplace
    rw [goOn, Option.bind_some, nextNode, h.nodes, length_cons]
    by_cases hnext : place + 1 ≤ tokens.length
    · rw [if_pos (Nat.lt_succ_of_le hnext), ih _ hnext, Nat.add_right_comm]
      rfl
    · rw [if_neg (by omega), hnone, if_neg (by omega)]

theorem startAt_eq_none (h : b.Holds tokens found) {i last : Int} (hlast : last ∈ found)
    (hfar : 9223372036854775807 < last - i) : b.startAt i = none := by
  obtain ⟨hi, -, -⟩ := h.cachedIndex last hlast
  rw [startAt, h.cached, Option.mem_def.mp hlast, Option.map_some]
  dsimp only
  rw [hi, if_pos (by omega), if_pos hfar]

/-- The walk starts at a place at or before that of the index, or at the sentinel. -/
theorem startAt_eq_some (h : b.Holds tokens found) {i : Int}
    (hnear : ∀ last ∈ found, last - i ≤ 9223372036854775807) :
    ∃ cur : Int, b.startAt i = some ((cur + 1).toNat, cur) ∧ -1 ≤ cur ∧
      cur ≤ max i (-1) ∧ cur < tokens.length := by
  unfold startAt
  cases found with
  | none =>
    rw [h.cached]
    exact ⟨-1, rfl, by omega, by omega, by omega⟩
  | some last =>
    obtain ⟨hi, hmin, hlt⟩ := h.cachedIndex last rfl
    have hnear := hnear last rfl
    rw [h.cached, hi, Option.map_some]
    dsimp only
    split_ifs with hback hfar hshort
    · exact absurd hnear (by omega)
    · have hplace : (last + 1).toNat = (i + 1).toNat + (last - i).toNat := by omega
      rw [hplace, goBack_eq]
      exact ⟨i, rfl, by omega, by omega, by omega⟩
    · exact ⟨-1, rfl, by omega, by omega, by omega⟩
    · exact ⟨last, rfl, hmin, by omega, hlt⟩

theorem nodeAt_eq (h : b.Holds tokens found) {i : Int}
    (hnear : ∀ last ∈ found, last - i ≤ 9223372036854775807) : ∃ after, b.nodeAt i = some
        (some (if 0 ≤ i then tokens.getD i.toNat .sentinel else .sentinel), after) ∧
      after.Holds tokens (if i < tokens.length then some (max i (-1)) else none) := by
  obtain ⟨cur, hstart, hmin, hmax, hlt⟩ := startAt_eq_some h hnear
  have hnode : b.goOn (i - cur).toNat (some (cur + 1).toNat) =
      if i < tokens.length then some (max i (-1) + 1).toNat else none := by
    rw [goOn_eq h _ _ (by omega)]
    split_ifs <;> first | omega | rfl | (congr 1; omega)
  rw [nodeAt, hstart]
  refine ⟨_, congrArg (fun answer => some (answer, _)) ?_, h.nodes, ?_, fun last hlast => ?_⟩
  · rw [hnode, h.nodes]
    by_cases hi : 0 ≤ i
    · rw [if_pos hi, show max i (-1) = i by omega]
      split_ifs with hin
      · have hplace : (i + 1).toNat = i.toNat + 1 := by omega
        have hlen : i.toNat < tokens.length := by omega
        simp [hplace, hlen]
      · have hlen : tokens.length ≤ i.toNat := by omega
        simp [hlen]
    · rw [if_pos (by omega), if_neg hi, show max i (-1) = -1 by omega]
      rfl
  · rw [hnode]
    split <;> rfl
  · split_ifs at hlast with hin
    · cases hlast
      exact ⟨by dsimp only; omega, by omega, by omega⟩
    · cases hlast

theorem answers_eq_iff (h : b.Holds tokens found) (calls : List TokenCall) :
    b.answers calls = some (expectedAnswers tokens calls) ↔
      NoOverflow tokens.length found calls := by
  induction calls generalizing b tokens found with
  | nil => exact iff_of_true rfl trivial
  | cons call calls ih =>
    cases call with
    | add node =>
      have hadd : (b.add node).Holds (tokens ++ [node]) found := by
        refine ⟨by rw [add, h.nodes]; rfl, h.cached, fun i hi => ?_⟩
        obtain ⟨heq, hmin, hlt⟩ := h.cachedIndex i hi
        exact ⟨heq, hmin, by rw [length_append]; omega⟩
      rw [answers, expectedAnswers, NoOverflow, ih hadd, length_append]
      rfl
    | nodeAt i =>
      rw [answers, expectedAnswers, NoOverflow]
      by_cases hnear : ∀ last ∈ found, last - i ≤ 9223372036854775807
      · obtain ⟨after, hnode, hafter⟩ := nodeAt_eq h hnear
        rw [hnode, ← ih hafter, and_iff_right hnear]
        simp
      · obtain ⟨last, hlast, hfar⟩ : ∃ last ∈ found, 9223372036854775807 < last - i := by
          simpa only [not_forall, Int.not_le, exists_prop] using hnear
        rw [nodeAt, startAt_eq_none h hlast hfar]
        exact iff_of_false (by simp) fun h => hnear h.1

end TokenBuffer

/-- A call of `nodeAt` answers with the token of its index, and with the sentinel for other indices,
exactly as long as no distance between a call and what the call before it found overflows. -/
theorem nodeAt_history_iff (calls : List TokenCall) :
    TokenBuffer.answers {} calls = some (expectedAnswers [] calls) ↔
      NoOverflow 0 (some (-1)) calls := by
  refine TokenBuffer.answers_eq_iff ⟨rfl, rfl, fun i hi => ?_⟩ calls
  cases hi
  exact ⟨rfl, by decide, by decide⟩

/-- The least index, behind a call that has found a token. -/
theorem nodeAt_least_stops : TokenBuffer.answers {}
    [.add .sentinel, .nodeAt 0, .nodeAt (-9223372036854775808)] = none := by
  decide

end Neri.Frontend
