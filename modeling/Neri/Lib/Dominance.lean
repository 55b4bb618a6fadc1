import Mathlib.Data.Set.Insert

/-!
# Dominance in a rooted graph

A node `d` dominates `b` when every path from the entry to `b` goes through `d`. The iterative
computation of dominators shrinks an assignment of node sets with the equation "`b` itself, and what
dominates all predecessors of `b`". An assignment that satisfies the equation lists dominators only,
and no dominator is ever removed.
-/

namespace Dominance

variable {α : Type*}

/-- `Path edge entry ps b`: a path from `entry` to `b` whose earlier nodes are `ps`, the latest
first. -/
inductive Path (edge : α → α → Prop) (entry : α) : List α → α → Prop where
  | entry : Path edge entry [] entry
  | step {ps : List α} {a b : α} : Path edge entry ps a → edge a b → Path edge entry (a :: ps) b

/-- Every path to `b` goes through `d`. -/
def Dominates (edge : α → α → Prop) (entry d b : α) : Prop :=
  ∀ ps, Path edge entry ps b → d = b ∨ d ∈ ps

variable {edge : α → α → Prop} {entry : α}

theorem Path.cut {ps : List α} {b c : α} (h : Path edge entry ps b) (hc : c ∈ ps) :
    ∃ qs, Path edge entry qs c ∧ qs.length < ps.length := by
  induction h with
  | entry => exact absurd hc List.not_mem_nil
  | @step ps a b hpath _ ih =>
    rcases List.mem_cons.mp hc with rfl | hc
    · exact ⟨ps, hpath, Nat.lt_succ_self _⟩
    · obtain ⟨qs, hqs, hlt⟩ := ih hc
      exact ⟨qs, hqs, Nat.lt_succ_of_lt hlt⟩

/-- A reachable node is reached by a path that meets it at its end only. -/
theorem Path.exists_first {ps : List α} {b : α} (h : Path edge entry ps b) :
    ∃ qs, Path edge entry qs b ∧ b ∉ qs := by
  induction hlen : ps.length using Nat.strong_induction_on generalizing ps with
  | _ n ih =>
    by_cases hb : b ∈ ps
    · obtain ⟨qs, hqs, hlt⟩ := h.cut hb
      exact ih qs.length (hlen ▸ hlt) hqs rfl
    · exact ⟨ps, h, hb⟩

/-- What strictly dominates a node dominates its predecessors. -/
theorem Dominates.of_edge {a b d : α} (h : Dominates edge entry d b) (hedge : edge a b)
    (hne : d ≠ b) : Dominates edge entry d a := by
  intro ps hps
  exact List.mem_cons.mp ((h (a :: ps) (hps.step hedge)).resolve_left hne)

/-- A set assignment that satisfies the dominator equations at every edge lists dominators only. -/
theorem dominates_of_mem (dom : α → Set α) (hentry : dom entry ⊆ {entry})
    (hedge : ∀ a b, edge a b → dom b ⊆ insert b (dom a)) {d b : α} (hd : d ∈ dom b) :
    Dominates edge entry d b := by
  intro ps hps
  induction hps with
  | entry => exact .inl (hentry hd)
  | @step ps a b _ hab ih =>
    rcases hedge a b hab hd with rfl | hd
    · exact .inl rfl
    · exact .inr (List.mem_cons.mpr (ih hd))

end Dominance
