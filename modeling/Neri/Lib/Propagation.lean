import Mathlib.Order.Bounds.Basic

/-!
# Propagating values along the edges of a graph

Every node carries a value of a join-semilattice. A node starts at its `base` value, and an edge
`a → b` asks that the transferred value of `a` is below the value of `b`. A worklist computes the
least assignment that is closed under these demands: it keeps an assignment between the base and every
closed one, and the nodes whose outgoing edges may still be violated.

The lemmas below are the rules of that invariant, from the start to the empty worklist.
-/

namespace Propagation

open Function

variable {ι L : Type*} [SemilatticeSup L]

/-- The assignment `v` is above the base and satisfies the demand of every edge. -/
structure Closed (base : ι → L) (edge : ι → ι → Prop) (t : L → L) (v : ι → L) : Prop where
  base_le : ∀ a, base a ≤ v a
  edge_le : ∀ a b, edge a b → t (v a) ≤ v b

/-- The worklist invariant: `v` lies between the base and every closed assignment, and only the
edges selected by `pending` may be violated. -/
structure Inv (base : ι → L) (edge : ι → ι → Prop) (t : L → L) (pending : ι → ι → Prop)
    (v : ι → L) : Prop where
  base_le : ∀ a, base a ≤ v a
  below : ∀ w, Closed base edge t w → ∀ a, v a ≤ w a
  settled : ∀ a b, edge a b → ¬ pending a b → t (v a) ≤ v b

variable {base : ι → L} {edge : ι → ι → Prop} {t : L → L} {pending : ι → ι → Prop} {v : ι → L}

/-- At the start every edge is pending and every node has its base value. -/
theorem Inv.init : Inv base edge t (fun _ _ => True) base where
  base_le := fun _ => le_rfl
  below := fun _ hw a => hw.base_le a
  settled := fun _ _ _ h => absurd trivial h

theorem Inv.weaken {pending' : ι → ι → Prop} (h : Inv base edge t pending v)
    (hp : ∀ a b, edge a b → pending a b → pending' a b) : Inv base edge t pending' v where
  base_le := h.base_le
  below := h.below
  settled := fun a b hab hn => h.settled a b hab (fun hpa => hn (hp a b hab hpa))

/-- With no edge pending the assignment is the least closed one. -/
theorem Inv.isLeast (h : Inv base edge t pending v) (hp : ∀ a b, edge a b → ¬ pending a b) :
    IsLeast {u | Closed base edge t u} v :=
  ⟨⟨h.base_le, fun a b hab => h.settled a b hab (hp a b hab)⟩, fun w hw a => h.below w hw a⟩

section Relax

variable [DecidableEq ι]

/-- Raising the node `b` by a value that every closed assignment has at `b` keeps the invariant,
as long as the edges out of `b` become pending. -/
theorem Inv.raise (h : Inv base edge t pending v) (b : ι) (x : L)
    (hx : ∀ w, Closed base edge t w → x ≤ w b) {pending' : ι → ι → Prop}
    (hself : ∀ c, edge b c → v b ⊔ x = v b ∨ pending' b c)
    (hrest : ∀ a c, edge a c → pending a c → pending' a c ∨ (c = b ∧ t (v a) ≤ v b ⊔ x)) :
    Inv base edge t pending' (update v b (v b ⊔ x)) where
  base_le := by
    intro a
    by_cases hab : a = b
    · subst hab
      rw [update_self]
      exact (h.base_le a).trans le_sup_left
    · rw [update_of_ne hab]
      exact h.base_le a
  below := by
    intro w hw a
    by_cases hab : a = b
    · subst hab
      rw [update_self]
      exact sup_le (h.below w hw a) (hx w hw)
    · rw [update_of_ne hab]
      exact h.below w hw a
  settled := by
    intro a c hac hn
    -- an edge out of `b` is settled only when the raise changed nothing
    have hva : update v b (v b ⊔ x) a = v a := by
      by_cases hab : a = b
      · subst hab
        rcases hself c hac with he | hp
        · rw [update_self, he]
        · exact absurd hp hn
      · exact update_of_ne hab _ _
    have hvc : v c ≤ update v b (v b ⊔ x) c := by
      by_cases hcb : c = b
      · subst hcb
        rw [update_self]
        exact le_sup_left
      · rw [update_of_ne hcb]
    rw [hva]
    by_cases hp : pending a c
    · rcases hrest a c hac hp with hp' | ⟨rfl, hle⟩
      · exact absurd hp' hn
      · rw [update_self]
        exact hle
    · exact (h.settled a c hac hp).trans hvc

end Relax

end Propagation
