import Mathlib.Data.List.Nodup

/-!
# Chains of doubly linked nodes

The nodes of a program live in a heap of links, and a chain is a sequence of nodes that refer to
their neighbours in it. Following links along a chain is moving through its positions, a node can be
linked behind the last one, and that leaves the other chains of the heap alone.
-/

namespace LinkedChain

open List

structure Link where
  previousNode : Option Nat := none
  nextNode : Option Nat := none
  deriving DecidableEq

/-- The neighbours of each node of `chain` are the positions before and after it. -/
def Linked (links : List Link) (chain : List Nat) : Prop :=
  ∀ pos node : Nat, chain[pos]? = some node → links[node]? = some
      { previousNode := if pos = 0 then none else chain[pos - 1]?
        nextNode := chain[pos + 1]? }

/-- The node that is `steps` links away. Behind an end there is no node. -/
def follow (links : List Link) (link : Link → Option Nat) : Nat → Option Nat → Option Nat
  | 0, node => node
  | steps + 1, node => follow links link steps (node.bind fun ref => links[ref]?.bind link)

theorem follow_none (links : List Link) (link : Link → Option Nat) (steps : Nat) :
    follow links link steps none = none := by
  induction steps with
  | zero => rfl
  | succ steps ih => exact ih

namespace Linked

variable {links : List Link} {chain : List Nat}

variable (h : Linked links chain)
include h

theorem follow_next (steps pos : Nat) :
    follow links (·.nextNode) steps chain[pos]? = chain[pos + steps]? := by
  induction steps generalizing pos with
  | zero => rfl
  | succ steps ih =>
    rw [follow]
    cases hnode : chain[pos]? with
    | none =>
      rw [Option.bind_none, follow_none]
      have hlength := getElem?_eq_none_iff.mp hnode
      exact (getElem?_eq_none_iff.mpr (by omega)).symm
    | some node =>
      rw [Option.bind_some, h pos node hnode, Option.bind_some, ih (pos + 1)]
      congr 1
      omega

theorem follow_previous {pos : Nat} (hposition : pos < chain.length) (steps : Nat) :
    follow links (·.previousNode) steps chain[pos]? =
      if steps ≤ pos then chain[pos - steps]? else none := by
  induction steps generalizing pos with
  | zero => simp [follow]
  | succ steps ih =>
    have hnode := getElem?_eq_getElem hposition
    rw [follow, hnode, Option.bind_some, h pos _ hnode, Option.bind_some]
    by_cases hzero : pos = 0
    · rw [if_pos hzero, follow_none, if_neg (by omega)]
    · rw [if_neg hzero, ih (by omega)]
      by_cases hsteps : steps + 1 ≤ pos
      · rw [if_pos (by omega), if_pos hsteps]
        congr 1
        omega
      · rw [if_neg (by omega), if_neg hsteps]

theorem lt_length {node : Nat} (hnode : node ∈ chain) : node < links.length := by
  obtain ⟨pos, hposition⟩ := mem_iff_getElem?.mp hnode
  exact (List.getElem_of_getElem? (h pos node hposition)).1

theorem extend (more : List Link) : Linked (links ++ more) chain := by
  intro pos node hnode
  have hbound := h.lt_length (mem_of_getElem? hnode)
  rw [getElem?_append_left hbound]
  exact h pos node hnode

/-- Where a walk of `distance` positions from a node of the chain ends, backwards or forwards. -/
theorem follow_both {pos : Nat} (hposition : pos < chain.length) (distance : Int) :
    follow links (·.nextNode) distance.toNat
        (follow links (·.previousNode) (-distance).toNat chain[pos]?) =
      if 0 ≤ pos + distance then chain[(pos + distance).toNat]? else none := by
  rcases Int.le_total 0 distance with hforward | hback
  · rw [show (-distance).toNat = 0 by omega, follow, h.follow_next, if_pos (by omega)]
    congr 1
    omega
  · rw [show distance.toNat = 0 by omega, follow, h.follow_previous hposition]
    by_cases hin : (-distance).toNat ≤ pos
    · rw [if_pos hin, if_pos (by omega)]
      congr 1
      omega
    · rw [if_neg hin, if_neg (by omega)]

end Linked

theorem linked_new (links : List Link) : Linked (links ++ [Link.mk none none]) [links.length] := by
  intro pos node hnode
  cases pos with
  | zero =>
    cases hnode
    simp
  | succ pos => cases hnode

/-- A new node, linked behind `last`. -/
def linkBehind (links : List Link) (last : Nat) : List Link :=
  let node := links.length
  let linked := (links ++ [Link.mk none none]).modify node fun link => { link with previousNode := some last }
  linked.modify last fun link => { link with nextNode := some node }

@[simp]
theorem length_linkBehind (links : List Link) (last : Nat) :
    (linkBehind links last).length = links.length + 1 := by
  simp [linkBehind]

variable {links : List Link} {last : Nat}

theorem getElem?_linkBehind (hlast : last < links.length) (node : Nat) :
    (linkBehind links last)[node]? = if node = links.length then some (Link.mk (some last) none)
      else if node = last then links[node]?.map fun link => { link with nextNode := some links.length }
      else links[node]? := by
  unfold linkBehind
  rw [getElem?_modify, getElem?_modify, getElem?_append]
  rcases Nat.lt_trichotomy node links.length with hold | rfl | hbehind
  · rw [if_pos hold, if_neg (by omega)]
    by_cases heq : node = last
    · simp [heq, show links.length ≠ last by omega]
    · simp [heq, Ne.symm heq, show links.length ≠ node by omega]
  · simp [show last ≠ links.length by omega]
  · have hnew : [Link.mk none none][node - links.length]? = none :=
      getElem?_eq_none_iff.mpr (by simp only [length_singleton]; omega)
    rw [if_neg (by omega), hnew, if_neg (by omega), if_neg (by omega),
      getElem?_eq_none_iff.mpr (show links.length ≤ node by omega)]
    rfl

theorem Linked.frame {chain : List Nat} (h : Linked links chain)
    (hlast : last < links.length) (hmem : last ∉ chain) : Linked (linkBehind links last) chain := by
  intro pos node hnode
  have hin := mem_of_getElem? hnode
  have hbound := h.lt_length hin
  have hne : node ≠ last := by
    rintro rfl
    exact hmem hin
  rw [getElem?_linkBehind hlast, if_neg (by omega), if_neg hne]
  exact h pos node hnode

/-- The new node is the end of the chain that `last` has been the end of. -/
theorem Linked.concat {chain : List Nat}
    (h : Linked links (chain ++ [last])) (hnodup : (chain ++ [last]).Nodup) :
    Linked (linkBehind links last) (chain ++ [last] ++ [links.length]) := by
  have hlast := h.lt_length (mem_append_right chain (mem_singleton_self last))
  have hat : (chain ++ [last])[chain.length]? = some last := by simp
  have hkeep : ∀ k ≤ chain.length,
      (chain ++ [last] ++ [links.length])[k]? = (chain ++ [last])[k]? := by
    intro k hk
    apply getElem?_append_left
    simp only [length_append, length_singleton]
    omega
  intro pos node hnode
  rw [getElem?_linkBehind hlast]
  have hlength : pos < (chain ++ [last] ++ [links.length]).length :=
    (List.getElem_of_getElem? hnode).1
  simp only [length_append, length_singleton] at hlength
  by_cases hnew : pos = chain.length + 1
  · subst hnew
    have hsome : some node = some links.length := by
      rw [← hnode]
      simp
    rw [if_pos (Option.some.inj hsome)]
    simp
  · -- the old nodes keep the node before them, and the last one gets a node behind it
    have hold : (chain ++ [last])[pos]? = some node := by
      rw [← hnode, hkeep pos (by omega)]
    have hbound := h.lt_length (mem_of_getElem? hold)
    rw [if_neg (by omega), hkeep (pos - 1) (by omega), h pos node hold]
    by_cases hend : pos = chain.length
    · subst hend
      rw [if_pos (Option.some.inj (hold.symm.trans hat))]
      simp
    · have hne : node ≠ last := by
        rintro rfl
        exact hend ((List.getElem?_inj (List.getElem_of_getElem? hold).1 hnodup).mp (hold.trans hat.symm))
      rw [if_neg hne, hkeep (pos + 1) (by omega)]

end LinkedChain
