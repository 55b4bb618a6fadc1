import Mathlib.Logic.Function.Basic

/-!
# Links made one by one, with a bounded search for cycles

Every node may have one link. The links that are wanted are made one after another, and a link that
closes a cycle of at most `bound` links is taken back. What is left has no cycle at all exactly if no
cycle that is wanted is longer than the bound.
-/

namespace GuardedLinks

open Function Option

variable {κ : Type*}

/-- The node that is a number of links away. -/
def follow (links : κ → Option κ) : Nat → κ → Option κ
  | 0, node => some node
  | steps + 1, node => (links node).bind (follow links steps)

/-- The links of a node lead back to it. -/
def Returns (links : κ → Option κ) (node : κ) : Prop :=
  ∃ steps, 0 < steps ∧ follow links steps node = some node

/-- They do so in at most `bound` steps. -/
def ReturnsWithin (links : κ → Option κ) (bound : Nat) (node : κ) : Prop :=
  ∃ steps, 0 < steps ∧ steps ≤ bound ∧ follow links steps node = some node

variable {links links' : κ → Option κ} {bound : Nat} {node other : κ}

theorem follow_add (links : κ → Option κ) (first second : Nat) (node : κ) :
    follow links (first + second) node = (follow links first node).bind (follow links second) := by
  induction first generalizing node with
  | zero => rw [Nat.zero_add]; rfl
  | succ first ih =>
    rw [Nat.succ_add, follow, follow, bind_assoc]
    exact congrArg _ (funext ih)

theorem follow_mono (hsub : ∀ a b, links a = some b → links' a = some b) {steps : Nat}
    (h : follow links steps node = some other) : follow links' steps node = some other := by
  induction steps generalizing node with
  | zero => exact h
  | succ steps ih =>
    obtain ⟨next, hnext, hrest⟩ := bind_eq_some_iff.mp h
    exact bind_eq_some_iff.mpr ⟨next, hsub _ _ hnext, ih hrest⟩

/-- Other links that agree on all nodes of the way lead to the same node. -/
theorem follow_congr {steps : Nat}
    (h : ∀ pre < steps, ∀ a, follow links pre node = some a → links' a = links a) :
    follow links' steps node = follow links steps node := by
  induction steps generalizing node with
  | zero => rfl
  | succ steps ih =>
    rw [follow, follow, h 0 (Nat.succ_pos _) node rfl]
    cases hnext : links node with
    | none => rfl
    | some next =>
      refine ih fun pre hbefore a ha => h (pre + 1) (by omega) a ?_
      rw [follow, hnext]
      exact ha

/-- The nodes of a cycle all return in the same number of steps. -/
theorem follow_self_of_follow {steps distance : Nat} (hself : follow links steps node = some node)
    (hway : follow links distance node = some other) : follow links steps other = some other := by
  have hshift := follow_add links steps distance node
  rw [hself, bind_some, Nat.add_comm, follow_add, hway] at hshift
  exact hshift

theorem follow_mul {steps : Nat} (h : follow links steps node = some node) (rounds : Nat) :
    follow links (rounds * steps) node = some node := by
  induction rounds with
  | zero => rw [Nat.zero_mul]; rfl
  | succ rounds ih => rw [Nat.succ_mul, follow_add, ih, bind_some, h]

/-- A node that returns has links for any distance, and is reached from there. -/
theorem Returns.exists_follow (h : Returns links node) (distance : Nat) :
    ∃ other back, follow links distance node = some other ∧
      follow links back other = some node := by
  obtain ⟨steps, hpos, hself⟩ := h
  -- going around often enough passes the other node
  have hle : distance ≤ distance * steps := Nat.le_mul_of_pos_right _ hpos
  have hround := follow_mul hself distance
  rw [← Nat.add_sub_cancel' hle, follow_add] at hround
  obtain ⟨other, hway, hback⟩ := bind_eq_some_iff.mp hround
  exact ⟨other, _, hway, hback⟩

/-! ## Making the links -/

/-- Links have been made or taken back for the nodes in `done`, and for no others. -/
structure Guarded (wanted links : κ → Option κ) (bound : Nat) (done : κ → Prop) : Prop where
  sub : ∀ a b, links a = some b → done a ∧ wanted a = some b
  kept : ∀ a, done a → links a = wanted a ∨ links a = none ∧ ReturnsWithin wanted bound a
  short : ∀ a, ¬ReturnsWithin links bound a

namespace Guarded

variable {wanted : κ → Option κ} {done : κ → Prop}

theorem start (wanted : κ → Option κ) (bound : Nat) :
    Guarded wanted (fun _ => none) bound (fun _ => False) := by
  refine ⟨fun a b h => absurd h (by simp), fun a h => h.elim, ?_⟩
  rintro a ⟨steps, hpos, -, hfollow⟩
  obtain ⟨steps, rfl⟩ : ∃ less, steps = less + 1 := ⟨steps - 1, by omega⟩
  cases hfollow

theorem congr {done' : κ → Prop} (h : Guarded wanted links bound done)
    (hdone : ∀ a, done' a ↔ done a) : Guarded wanted links bound done' := by
  obtain rfl : done' = done := funext fun a => propext (hdone a)
  exact h

theorem none_of_not_done (h : Guarded wanted links bound done) (hnode : ¬done node) :
    links node = none := by
  cases hlink : links node with
  | none => rfl
  | some other => exact absurd (h.sub node other hlink).1 hnode

/-- A node without a wanted link, or whose link is taken back. -/
theorem skip (h : Guarded wanted links bound done) (hnode : ¬done node)
    (hwanted : wanted node = none ∨ ReturnsWithin wanted bound node) :
    Guarded wanted links bound (fun a => done a ∨ a = node) := by
  have hnone := h.none_of_not_done hnode
  refine ⟨fun a b hlink => ⟨.inl (h.sub a b hlink).1, (h.sub a b hlink).2⟩, ?_, h.short⟩
  rintro a (ha | rfl)
  · exact h.kept a ha
  · rcases hwanted with hwanted | hreturns
    · exact .inl (hnone.trans hwanted.symm)
    · exact .inr ⟨hnone, hreturns⟩

variable [DecidableEq κ]

/-- A link to a node that has none closes no cycle. -/
theorem not_returnsWithin_update (hne : other ≠ node) (hnone : links other = none) :
    ¬ReturnsWithin (update links node (some other)) bound node := by
  rintro ⟨steps, hpos, -, hfollow⟩
  match steps, hpos with
  | 1, _ =>
    rw [follow, update_self] at hfollow
    exact hne (some_inj.mp hfollow)
  | steps + 2, _ =>
    rw [follow, update_self, bind_some, follow, update_of_ne hne, hnone]
      at hfollow
    cases hfollow

/-- The link of a node is made before the search for a cycle. -/
theorem sub_update (h : Guarded wanted links bound done) (hwanted : wanted node = some other) :
    ∀ a b, update links node (some other) a = some b → wanted a = some b := by
  intro a b hlink
  by_cases ha : a = node
  · subst ha
    rw [update_self] at hlink
    exact hwanted.trans hlink
  · rw [update_of_ne ha] at hlink
    exact (h.sub a b hlink).2

/-- A link that closes a short cycle is taken back. -/
theorem refuse (h : Guarded wanted links bound done) (hnode : ¬done node)
    (hwanted : wanted node = some other)
    (hcycle : ReturnsWithin (update links node (some other)) bound node) :
    Guarded wanted links bound (fun a => done a ∨ a = node) := by
  obtain ⟨steps, hpos, hbound, hfollow⟩ := hcycle
  exact h.skip hnode (.inr ⟨steps, hpos, hbound, follow_mono (h.sub_update hwanted) hfollow⟩)

/-- A link that closes no short cycle stays. -/
theorem link (h : Guarded wanted links bound done) (hwanted : wanted node = some other)
    (hfree : ¬ReturnsWithin (update links node (some other)) bound node) :
    Guarded wanted (update links node (some other)) bound
      (fun a => done a ∨ a = node) := by
  refine ⟨fun a b hlink => ⟨?_, h.sub_update hwanted a b hlink⟩, ?_, ?_⟩
  · by_cases ha : a = node
    · exact .inr ha
    · rw [update_of_ne ha] at hlink
      exact .inl (h.sub a b hlink).1
  · intro a ha
    by_cases heq : a = node
    · subst heq
      rw [update_self]
      exact .inl hwanted.symm
    · rw [update_of_ne heq]
      exact h.kept a (ha.resolve_right heq)
  · rintro a ⟨steps, hpos, hbound, hfollow⟩
    by_cases hvisit : ∃ pre < steps, follow (update links node (some other)) pre a = some node
    · -- a cycle through the new link is a cycle of its node
      obtain ⟨pre, -, hbefore⟩ := hvisit
      exact hfree ⟨steps, hpos, hbound, follow_self_of_follow hfollow hbefore⟩
    · -- any other cycle was there before
      refine h.short a ⟨steps, hpos, hbound, ?_⟩
      rw [← hfollow]
      refine follow_congr fun pre hbefore b hb => ?_
      have hne : b ≠ node := by
        rintro rfl
        exact hvisit ⟨pre, hbefore, hb⟩
      rw [update_of_ne hne]

omit [DecidableEq κ] in
/-- When all is done, there is no cycle exactly if no wanted cycle is longer than the bound. -/
theorem acyclic_iff (h : Guarded wanted links bound done) (hdone : ∀ a, wanted a ≠ none → done a) :
    (∀ a, ¬Returns links a) ↔ ∀ a, Returns wanted a → ReturnsWithin wanted bound a := by
  constructor
  · intro hacyclic a hreturns
    by_contra hlong
    -- no node of the cycle returns within the bound, so all its links are there
    have hsame : ∀ distance b, follow wanted distance a = some b → links b = wanted b := by
      intro distance b hway
      obtain ⟨_, back, hway', hback⟩ := hreturns.exists_follow distance
      rw [hway, some_inj] at hway'
      subst hway'
      by_cases hwanted : wanted b = none
      · cases hlink : links b with
        | none => exact hwanted.symm
        | some c => exact (h.sub b c hlink).2.symm
      · refine (h.kept b (hdone b hwanted)).resolve_right ?_
        rintro ⟨-, steps, hpos, hbound, hself⟩
        exact hlong ⟨steps, hpos, hbound, follow_self_of_follow hself hback⟩
    obtain ⟨steps, hpos, hfollow⟩ := hreturns
    refine hacyclic a ⟨steps, hpos, ?_⟩
    rw [← hfollow]
    exact follow_congr fun pre _ b hb => hsame pre b hb
  · intro hshort a hreturns
    have hsub : ∀ a b, links a = some b → wanted a = some b := fun a b hlink => (h.sub a b hlink).2
    obtain ⟨steps, hpos, hfollow⟩ := hreturns
    obtain ⟨steps', hpos', hbound, hfollow'⟩ := hshort a ⟨steps, hpos, follow_mono hsub hfollow⟩
    -- the links never end on this way, so the short cycle is one of theirs
    obtain ⟨other, -, hother, -⟩ := Returns.exists_follow ⟨steps, hpos, hfollow⟩ steps'
    have hsame := (follow_mono hsub hother).symm.trans hfollow'
    exact h.short a ⟨steps', hpos', hbound, hother.trans hsame⟩

end Guarded

end GuardedLinks
