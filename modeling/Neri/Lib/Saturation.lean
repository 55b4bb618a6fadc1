import Mathlib.Data.List.Nodup
import Mathlib.Data.List.Perm.Subperm

/-!
# Saturation by repeated passes

A list of facts grows by passes over a list of nodes: a node gets its value as soon as a rule gives it
one from the facts so far, and the passes go on until one of them adds nothing. If further facts do not
change what the rule has given, the facts at the end are those that can be derived by the rule at all.
-/

namespace Saturation

open List

variable {α β : Type}

/-- The facts that the rule gives from facts that it gives. -/
inductive Derived (rule : List (α × β) → α → Option β) (nodes : List α) : α → β → Prop
  | intro {facts : List (α × β)} {node : α} {value : β} :
      (∀ entry ∈ facts, Derived rule nodes entry.1 entry.2) → node ∈ nodes →
      rule facts node = some value → Derived rule nodes node value

/-- What the rule gives from some facts it gives from more facts, as long as nodes have one value. -/
def Stable (rule : List (α × β) → α → Option β) : Prop :=
  ∀ facts facts' node value, facts ⊆ facts' → (facts'.map Prod.fst).Nodup →
    rule facts node = some value → rule facts' node = some value

variable {rule : List (α × β) → α → Option β} {nodes : List α} {facts : List (α × β)}

/-- What holds of the facts whenever a node is visited. -/
structure Sound (rule : List (α × β) → α → Option β) (nodes : List α) (facts : List (α × β)) :
    Prop where
  nodup : (facts.map Prod.fst).Nodup
  known : ∀ entry ∈ facts, entry.1 ∈ nodes
  derived : ∀ entry ∈ facts, Derived rule nodes entry.1 entry.2
  supported : ∀ entry ∈ facts, rule facts entry.1 = some entry.2

theorem Sound.nil : Sound rule nodes [] :=
  ⟨nodup_nil, by simp, by simp, by simp⟩

theorem Sound.length_le (h : Sound rule nodes facts) : facts.length ≤ nodes.length := by
  have hsubset : facts.map Prod.fst ⊆ nodes := by
    intro node hnode
    obtain ⟨entry, hentry, rfl⟩ := mem_map.mp hnode
    exact h.known entry hentry
  have hle := (subperm_of_subset h.nodup hsubset).length_le
  rwa [length_map] at hle

variable [DecidableEq α]

/-- Visits a node. A node that has a value keeps it. -/
def visit (rule : List (α × β) → α → Option β) (facts : List (α × β)) (node : α) : List (α × β) :=
  if node ∈ facts.map Prod.fst then facts
  else match rule facts node with
    | some value => facts ++ [(node, value)]
    | none => facts

def pass (rule : List (α × β) → α → Option β) (nodes : List α) (facts : List (α × β)) :
    List (α × β) := nodes.foldl (visit rule) facts

/-- Passes over the nodes until one adds nothing; `none` if the fuel does not last until then. -/
def saturate (rule : List (α × β) → α → Option β) (nodes : List α) :
    Nat → List (α × β) → Option (List (α × β))
  | 0, _ => none
  | fuel + 1, facts =>
    if (pass rule nodes facts).length = facts.length then some facts
    else saturate rule nodes fuel (pass rule nodes facts)

theorem Sound.visit (hstable : Stable rule) (h : Sound rule nodes facts) {node : α}
    (hnode : node ∈ nodes) : Sound rule nodes (visit rule facts node) := by
  unfold Saturation.visit
  split
  · exact h
  · rename_i hnew
    split
    · rename_i value hvalue
      have hnodup : ((facts ++ [(node, value)]).map Prod.fst).Nodup := by
        rw [map_append]
        exact nodup_append_comm.mp (nodup_cons.mpr ⟨hnew, h.nodup⟩)
      refine ⟨hnodup, ?_, ?_, fun entry hentry => ?_⟩
      · exact forall_mem_append.mpr ⟨h.known, forall_mem_singleton.mpr hnode⟩
      · exact forall_mem_append.mpr
          ⟨h.derived, forall_mem_singleton.mpr (.intro h.derived hnode hvalue)⟩
      · refine hstable facts _ _ _ (subset_append_left ..) hnodup ?_
        rcases mem_append.mp hentry with hmem | hmem
        · exact h.supported entry hmem
        · obtain rfl := mem_singleton.mp hmem
          exact hvalue
    · exact h

theorem Sound.foldl (hstable : Stable rule) : ∀ {visited : List α} {facts : List (α × β)},
    Sound rule nodes facts → (∀ node ∈ visited, node ∈ nodes) →
    Sound rule nodes (visited.foldl (Saturation.visit rule) facts) := by
  intro visited
  induction visited with
  | nil => exact fun h _ => h
  | cons node rest ih =>
    intro facts h hmem
    exact ih (h.visit hstable (hmem node mem_cons_self)) fun other hother =>
      hmem other (mem_cons_of_mem _ hother)

theorem length_le_visit (rule : List (α × β) → α → Option β) (facts : List (α × β)) (node : α) :
    facts.length ≤ (visit rule facts node).length := by
  unfold visit
  split
  · exact Nat.le_refl _
  · split
    · simp
    · exact Nat.le_refl _

theorem length_le_foldl (rule : List (α × β) → α → Option β) : ∀ (visited : List α)
    (facts : List (α × β)), facts.length ≤ (visited.foldl (visit rule) facts).length := by
  intro visited
  induction visited with
  | nil => exact fun _ => Nat.le_refl _
  | cons node rest ih => exact fun facts => Nat.le_trans (length_le_visit rule facts node) (ih _)

/-- A pass that adds nothing finds every node with a value or without one from the rule. -/
theorem settled_of_length_eq : ∀ {visited : List α} {facts : List (α × β)},
    (visited.foldl (visit rule) facts).length = facts.length →
    ∀ node ∈ visited, node ∈ facts.map Prod.fst ∨ rule facts node = none := by
  intro visited
  induction visited with
  | nil => intro facts _ node hnode; cases hnode
  | cons first rest ih =>
    intro facts hlen node hnode
    have hrest := length_le_foldl rule rest (visit rule facts first)
    have hfirst := length_le_visit rule facts first
    have hsame : (visit rule facts first).length = facts.length := by
      rw [foldl_cons] at hlen
      omega
    have hkept : visit rule facts first = facts ∧
        (first ∈ facts.map Prod.fst ∨ rule facts first = none) := by
      unfold visit at hsame ⊢
      split at hsame
      · rename_i hknown
        exact ⟨if_pos hknown, .inl hknown⟩
      · rename_i hnew
        rw [if_neg hnew]
        split at hsame
        · simp at hsame
        · rename_i hnone
          exact ⟨rfl, .inr hnone⟩
    rcases mem_cons.mp hnode with rfl | hmem
    · exact hkept.2
    · rw [foldl_cons, hkept.1] at hlen
      exact ih hlen node hmem

/-- The passes come to an end: every pass but the last adds a fact, and no node gets two. -/
theorem Sound.saturate (hstable : Stable rule) : ∀ {fuel : Nat} {facts : List (α × β)},
    Sound rule nodes facts → nodes.length < facts.length + fuel →
    ∃ settled, saturate rule nodes fuel facts = some settled ∧ Sound rule nodes settled ∧
      ∀ node ∈ nodes, node ∈ settled.map Prod.fst ∨ rule settled node = none := by
  intro fuel
  induction fuel with
  | zero =>
    intro facts h hfuel
    have hle := h.length_le
    omega
  | succ fuel ih =>
    intro facts h hfuel
    unfold Saturation.saturate
    split
    · rename_i hlen
      exact ⟨facts, rfl, h, settled_of_length_eq hlen⟩
    · rename_i hlen
      have hgrown := length_le_foldl rule nodes facts
      refine ih (h.foldl hstable fun _ hnode => hnode) ?_
      have hstrict : facts.length < (pass rule nodes facts).length :=
        Nat.lt_of_le_of_ne hgrown (Ne.symm hlen)
      show nodes.length < (pass rule nodes facts).length + fuel
      omega

/-- The passes end with the facts that can be derived. -/
theorem saturate_spec (nodes : List α) (hstable : Stable rule) : ∃ settled,
    saturate rule nodes (nodes.length + 1) [] = some settled ∧ (settled.map Prod.fst).Nodup ∧
      ∀ node value, (node, value) ∈ settled ↔ Derived rule nodes node value := by
  have hfuel : nodes.length < ([] : List (α × β)).length + (nodes.length + 1) := by simp
  obtain ⟨settled, heq, hsound, hsettled⟩ := Sound.nil.saturate hstable hfuel
  refine ⟨settled, heq, hsound.nodup, fun node value =>
    ⟨fun hmem => hsound.derived _ hmem, fun hderived => ?_⟩⟩
  induction hderived with
  | @intro premises node value _ hnode hrule ih =>
    have hgiven := hstable _ _ node value ih hsound.nodup hrule
    rcases hsettled node hnode with hmem | hnone
    · obtain ⟨entry, hentry, rfl⟩ := mem_map.mp hmem
      have hvalue := (hsound.supported entry hentry).symm.trans hgiven
      obtain rfl : entry.2 = value := Option.some.inj hvalue
      exact hentry
    · rw [hgiven] at hnone
      cases hnone

end Saturation
