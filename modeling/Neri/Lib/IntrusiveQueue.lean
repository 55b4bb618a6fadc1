import Mathlib.Data.List.Nodup

/-!
# Intrusive queues

The nodes of a queue carry the links themselves, so a node can be taken out of the middle, and one
heap of links holds several queues. A queue that holds a list of nodes holds the list with one more
node at its end after `append`, and without a node after `unlink`; a queue with other nodes is left
alone.
-/

namespace IntrusiveQueue

open List Function

variable {κ : Type*}

structure Link (κ : Type*) where
  previous : Option κ := none
  next : Option κ := none

/-- The two ends of a queue. -/
structure Queue (κ : Type*) where
  head : Option κ := none
  tail : Option κ := none

def append [DecidableEq κ] (links : κ → Link κ) (queue : Queue κ) (node : κ) :
    (κ → Link κ) × Queue κ :=
  let links := update links node { previous := queue.tail, next := none }
  match queue.tail with
  | some last =>
    (update links last { links last with next := some node }, { queue with tail := some node })
  | none => (links, { head := some node, tail := some node })

def unlink [DecidableEq κ] (links : κ → Link κ) (queue : Queue κ) (node : κ) :
    (κ → Link κ) × Queue κ :=
  let link := links node
  let before := match link.previous with
    | some previous =>
      (update links previous { links previous with next := link.next }, queue)
    | none => (links, { queue with head := link.next })
  let after := match link.next with
    | some next =>
      (update before.1 next { before.1 next with previous := link.previous }, before.2)
    | none => (before.1, { before.2 with tail := link.previous })
  (update after.1 node {}, after.2)

/-! ## Segments -/

/-- The nodes are linked in their order, between `before` and `after`. -/
def Segment (links : κ → Link κ) : Option κ → List κ → Option κ → Prop
  | _, [], _ => True
  | before, node :: nodes, after =>
    links node = { previous := before, next := nodes.head?.or after } ∧
      Segment links (some node) nodes after

variable {links links' : κ → Link κ} {queue : Queue κ} {nodes front back : List κ} {node : κ}
  {before after : Option κ}

theorem Segment.congr (h : Segment links before nodes after)
    (heq : ∀ node ∈ nodes, links' node = links node) : Segment links' before nodes after := by
  induction nodes generalizing before with
  | nil => trivial
  | cons node nodes ih =>
    refine ⟨?_, ih h.2 fun other hother => heq other (mem_cons_of_mem _ hother)⟩
    rw [heq node mem_cons_self]
    exact h.1

theorem segment_append : Segment links before (front ++ back) after ↔
      Segment links before front (back.head?.or after) ∧
        Segment links (front.getLast?.or before) back after := by
  induction front generalizing before with
  | nil => simp [Segment]
  | cons node front ih =>
    simp only [cons_append, Segment, ih, and_assoc]
    have hhead : ((front ++ back).head?).or after = front.head?.or (back.head?.or after) := by
      cases front <;> simp
    have hlast : (front.getLast?).or (some node) = ((node :: front).getLast?).or before := by
      cases front with
      | nil => simp
      | cons other front => simp [getLast?_cons]
    rw [hhead, hlast]

theorem segment_singleton :
    Segment links before [node] after ↔ links node = { previous := before, next := after } := by
  simp [Segment]

/-- Behind the last node another node may follow once that node refers to it. -/
theorem Segment.update_last [DecidableEq κ] {last : κ}
    (h : Segment links before (front ++ [last]) after) (hlast : last ∉ front) (after' : Option κ) :
    Segment (update links last { links last with next := after' }) before
      (front ++ [last]) after' := by
  rw [segment_append, segment_singleton] at h ⊢
  refine ⟨h.1.congr fun node hnode => ?_, ?_⟩
  · exact update_of_ne (ne_of_mem_of_not_mem hnode hlast) _ _
  · rw [update_self, h.2]

/-- In front of the first node another node may stand once that node refers to it. -/
theorem Segment.update_first [DecidableEq κ] {first : κ}
    (h : Segment links before (first :: back) after) (hfirst : first ∉ back) (before' : Option κ) :
    Segment (update links first { links first with previous := before' }) before'
      (first :: back) after := by
  refine ⟨?_, h.2.congr fun node hnode => ?_⟩
  · rw [update_self, h.1]
  · exact update_of_ne (ne_of_mem_of_not_mem hnode hfirst) _ _

/-! ## Queues -/

structure Holds (links : κ → Link κ) (queue : Queue κ) (nodes : List κ) : Prop where
  head : queue.head = nodes.head?
  tail : queue.tail = nodes.getLast?
  nodup : nodes.Nodup
  segment : Segment links none nodes none

namespace Holds

theorem empty (links : κ → Link κ) : Holds links {} [] := ⟨rfl, rfl, nodup_nil, trivial⟩

/-- The queue depends on the links of its own nodes only. -/
theorem congr (h : Holds links queue nodes) (heq : ∀ node ∈ nodes, links' node = links node) :
    Holds links' queue nodes :=
  ⟨h.head, h.tail, h.nodup, h.segment.congr heq⟩

theorem neighbours (h : Holds links queue nodes) (hnode : node ∈ nodes) :
    (∀ other, (links node).previous = some other → other ∈ nodes) ∧
      ∀ other, (links node).next = some other → other ∈ nodes := by
  obtain ⟨front, back, rfl⟩ := append_of_mem hnode
  obtain ⟨-, hlink, -⟩ := segment_append.mp h.segment
  rw [hlink]
  simp only [Option.or_none]
  refine ⟨fun other hother => ?_, fun other hother => ?_⟩
  · exact mem_append_left _ (mem_of_getLast? hother)
  · exact mem_append_right _ (mem_cons_of_mem _ (mem_of_mem_head? hother))

variable [DecidableEq κ]

variable (h : Holds links queue nodes)
include h

theorem append (hnode : node ∉ nodes) :
    Holds (IntrusiveQueue.append links queue node).1 (IntrusiveQueue.append links queue node).2
      (nodes ++ [node]) := by
  have hnodup : (nodes ++ [node]).Nodup := by
    rw [nodup_append]
    refine ⟨h.nodup, nodup_singleton _, ?_⟩
    rintro a ha b hb rfl
    exact hnode (mem_singleton.mp hb ▸ ha)
  have hother : Segment (update links node { previous := queue.tail, next := none }) none
      nodes none :=
    h.segment.congr fun other hmem =>
      update_of_ne (ne_of_mem_of_not_mem hmem hnode) _ _
  rcases eq_nil_or_concat nodes with rfl | ⟨front, last, rfl⟩
  · have htail : queue.tail = none := h.tail
    simp only [IntrusiveQueue.append, htail]
    exact ⟨rfl, rfl, hnodup, by simp [Segment]⟩
  · have htail : queue.tail = some last := by rw [h.tail]; simp
    have hhead := h.head
    simp only [concat_eq_append] at hhead hnode hother hnodup ⊢
    have hlast : last ∉ front := by
      have hdisjoint := (nodup_append.mp (nodup_append.mp hnodup).1).2.2
      exact fun hmem => hdisjoint last hmem last (by simp) rfl
    have hne : node ≠ last := fun heq => hnode (by simp [heq])
    simp only [IntrusiveQueue.append, htail] at hother ⊢
    refine ⟨?_, by simp, hnodup, ?_⟩
    · rw [hhead]
      cases front <;> rfl
    · rw [segment_append, segment_singleton]
      refine ⟨hother.update_last hlast _, ?_⟩
      rw [update_of_ne hne]
      simp

theorem unlink (hnode : node ∈ nodes) :
    Holds (IntrusiveQueue.unlink links queue node).1 (IntrusiveQueue.unlink links queue node).2
      (nodes.erase node) := by
  obtain ⟨front, back, rfl⟩ := append_of_mem hnode
  have hnodup := h.nodup
  rw [nodup_middle, nodup_cons, mem_append, not_or] at hnodup
  obtain ⟨⟨hfront, hback⟩, hrest⟩ := hnodup
  obtain ⟨hfrontNodup, hbackNodup, hdisjoint⟩ := nodup_append.mp hrest
  rw [erase_append_right _ hfront, erase_cons_head]
  obtain ⟨hbefore, hlink, hafter⟩ := segment_append.mp h.segment
  have hhead := h.head
  have htail := h.tail
  -- each neighbour of the node is there or not; where it is, it alone of its part is written
  rcases eq_nil_or_concat front with rfl | ⟨front, last, rfl⟩ <;>
    rcases back with _ | ⟨first, back⟩
  · simp only [IntrusiveQueue.unlink, hlink]
    exact ⟨rfl, rfl, hrest, trivial⟩
  · have hfirst := (nodup_cons.mp hbackNodup).1
    simp only [IntrusiveQueue.unlink, hlink, nil_append]
    refine ⟨rfl, ?_, hrest, ?_⟩
    · rw [htail]
      simp [getLast?_cons_cons]
    · refine (hafter.update_first hfirst none).congr fun other hother => ?_
      exact update_of_ne (ne_of_mem_of_not_mem hother hback) _ _
  · simp only [concat_eq_append] at *
    have hlast : last ∉ front := fun hmem =>
      (nodup_append.mp hfrontNodup).2.2 last hmem last (by simp) rfl
    simp only [getLast?_concat, head?_nil, Option.or_none] at hlink
    simp only [IntrusiveQueue.unlink, hlink, append_nil]
    refine ⟨?_, by simp, by simpa using hfrontNodup, ?_⟩
    · rw [hhead]
      cases front <;> rfl
    · refine (hbefore.update_last hlast none).congr fun other hother => ?_
      exact update_of_ne (ne_of_mem_of_not_mem hother hfront) _ _
  · simp only [concat_eq_append] at *
    have hlast : last ∉ front := fun hmem =>
      (nodup_append.mp hfrontNodup).2.2 last hmem last (by simp) rfl
    have hfirst := (nodup_cons.mp hbackNodup).1
    have hlastBack : last ∉ first :: back := fun hmem => hdisjoint last (by simp) last hmem rfl
    have hfirstFront : first ∉ front ++ [last] := fun hmem =>
      hdisjoint first hmem first mem_cons_self rfl
    simp only [getLast?_concat, Option.some_or, head?_cons] at hlink
    simp only [IntrusiveQueue.unlink, hlink]
    refine ⟨?_, ?_, hrest, ?_⟩
    · rw [hhead]
      cases front <;> rfl
    · rw [htail]
      simp [getLast?_append, getLast?_cons]
    · rw [segment_append]
      simp only [getLast?_concat, Option.some_or, head?_cons]
      constructor
      · refine (hbefore.update_last hlast (some first)).congr fun other hother => ?_
        rw [update_of_ne (ne_of_mem_of_not_mem hother hfront),
          update_of_ne (ne_of_mem_of_not_mem hother hfirstFront)]
      · refine (hafter.update_first hfirst (some last)).congr fun other hother => ?_
        rw [update_of_ne (ne_of_mem_of_not_mem hother hback)]
        by_cases heq : other = first
        · subst heq
          simp [update_of_ne (ne_of_mem_of_not_mem hother hlastBack)]
        · rw [update_of_ne heq, update_of_ne heq,
            update_of_ne (ne_of_mem_of_not_mem hother hlastBack)]

/-- Another queue does not see a node that is put at the end. -/
theorem append_frame {other : κ} (hother : other ∉ nodes)
    (hne : other ≠ node) : (IntrusiveQueue.append links queue node).1 other = links other := by
  cases htail : queue.tail with
  | none =>
    simp only [IntrusiveQueue.append, htail]
    exact update_of_ne hne _ _
  | some last =>
    have hlast : last ∈ nodes := mem_of_getLast? (h.tail.symm.trans htail)
    simp only [IntrusiveQueue.append, htail]
    rw [update_of_ne (ne_of_mem_of_not_mem hlast hother).symm, update_of_ne hne]

/-- Another queue does not see a node that is taken out. -/
theorem unlink_frame (hnode : node ∈ nodes) {other : κ}
    (hother : other ∉ nodes) : (IntrusiveQueue.unlink links queue node).1 other = links other := by
  obtain ⟨hprevious, hnext⟩ := h.neighbours hnode
  have hne {neighbour : κ} (hmem : neighbour ∈ nodes) : other ≠ neighbour :=
    (ne_of_mem_of_not_mem hmem hother).symm
  cases hp : (links node).previous <;> cases hn : (links node).next <;>
    simp only [IntrusiveQueue.unlink, hp, hn]
  · rw [update_of_ne (hne hnode)]
  · rw [update_of_ne (hne hnode), update_of_ne (hne (hnext _ hn))]
  · rw [update_of_ne (hne hnode), update_of_ne (hne (hprevious _ hp))]
  · rw [update_of_ne (hne hnode), update_of_ne (hne (hnext _ hn)),
      update_of_ne (hne (hprevious _ hp))]

end Holds

/-! ## Walking a queue -/

/-- The nodes from one on, in at most `bound` steps. -/
def walk (links : κ → Link κ) : (bound : Nat) → Option κ → List κ
  | 0, _ => []
  | _ + 1, none => []
  | bound + 1, some node => node :: walk links bound (links node).next

theorem Segment.walk_eq (h : Segment links before nodes none) {bound : Nat}
    (hbound : nodes.length ≤ bound) : walk links bound nodes.head? = nodes := by
  induction nodes generalizing before bound with
  | nil => cases bound <;> rfl
  | cons node nodes ih =>
    obtain ⟨bound, rfl⟩ : ∃ less, bound = less + 1 := ⟨bound - 1, by simp at hbound; omega⟩
    rw [head?_cons, walk, h.1, Option.or_none, ih h.2 (by simpa using hbound)]

/-- A walk from the head visits the nodes in their order. -/
theorem Holds.walk_eq (h : Holds links queue nodes) {bound : Nat} (hbound : nodes.length ≤ bound) :
    walk links bound queue.head = nodes := by
  rw [h.head, h.segment.walk_eq hbound]

end IntrusiveQueue
