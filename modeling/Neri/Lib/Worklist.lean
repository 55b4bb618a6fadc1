import Mathlib.Data.List.Nodup
import Mathlib.Data.List.Perm.Subperm

/-!
# Worklists

A queue that only grows: an item is added at the end unless it is there already, and a cursor goes over
the items and adds those that each of them leads to. Once the cursor has passed the whole queue, the
queue holds what can be reached from the items it started with.
-/

namespace Worklist

open Relation List

variable {α : Type}

/-- Adds an item at the end, unless it is there. -/
def enqueue [DecidableEq α] (queue : List α) (item : α) : List α :=
  if item ∈ queue then queue else queue ++ [item]

/-- Adds items, one after another. -/
def enqueueAll [DecidableEq α] (queue items : List α) : List α := items.foldl enqueue queue

/-- What holds before the item at the cursor is taken. -/
structure Inv (edge : α → α → Prop) (root : α → Prop) (queue : List α) (cursor : Nat) : Prop where
  nodup : queue.Nodup
  hasRoots : ∀ item, root item → item ∈ queue
  reached : ∀ item ∈ queue, ∃ start, root start ∧ ReflTransGen edge start item
  closed : ∀ place < cursor, ∀ item, queue[place]? = some item →
    ∀ next, edge item next → next ∈ queue

section Enqueue

variable [DecidableEq α]

theorem enqueue_eq_append (queue : List α) (item : α) :
    ∃ added, enqueue queue item = queue ++ added := by
  unfold enqueue
  split
  · exact ⟨[], (append_nil _).symm⟩
  · exact ⟨[item], rfl⟩

theorem enqueueAll_eq_append (items : List α) :
    ∀ queue : List α, ∃ added, enqueueAll queue items = queue ++ added := by
  induction items with
  | nil => exact fun queue => ⟨[], (append_nil _).symm⟩
  | cons item rest ih =>
    intro queue
    obtain ⟨first, hfirst⟩ := enqueue_eq_append queue item
    obtain ⟨others, hothers⟩ := ih (enqueue queue item)
    exact ⟨first ++ others, by rw [← append_assoc, ← hfirst, ← hothers]; rfl⟩

theorem mem_enqueue {queue : List α} {item other : α} :
    other ∈ enqueue queue item ↔ other ∈ queue ∨ other = item := by
  unfold enqueue
  split
  · rename_i hmem
    exact ⟨.inl, fun h => h.elim id fun heq => heq ▸ hmem⟩
  · simp

theorem mem_enqueueAll {items : List α} : ∀ {queue : List α} {other : α},
    other ∈ enqueueAll queue items ↔ other ∈ queue ∨ other ∈ items := by
  induction items with
  | nil => simp [enqueueAll]
  | cons item rest ih =>
    intro queue other
    rw [show enqueueAll queue (item :: rest) = enqueueAll (enqueue queue item) rest from rfl, ih,
      mem_enqueue, mem_cons, or_assoc]

theorem nodup_enqueue {queue : List α} (h : queue.Nodup) (item : α) : (enqueue queue item).Nodup := by
  unfold enqueue
  split
  · exact h
  · rename_i hnew
    exact nodup_append_comm.mp (nodup_cons.mpr ⟨hnew, h⟩)

theorem nodup_enqueueAll (items : List α) :
    ∀ {queue : List α}, queue.Nodup → (enqueueAll queue items).Nodup := by
  induction items with
  | nil => exact fun h => h
  | cons item rest ih => exact fun h => ih (nodup_enqueue h item)

end Enqueue

variable {edge : α → α → Prop} {root : α → Prop} {queue : List α} {cur : Nat}

theorem Inv.start (hnodup : queue.Nodup) (hroots : ∀ item, item ∈ queue ↔ root item) :
    Inv edge root queue 0 where
  nodup := hnodup
  hasRoots := fun item hroot => (hroots item).mpr hroot
  reached := fun item hmem => ⟨item, (hroots item).mp hmem, .refl⟩
  closed := fun _ hplace => absurd hplace (Nat.not_lt_zero _)

theorem Inv.step [DecidableEq α] (h : Inv edge root queue cur) {item : α} {nexts : List α}
    (hitem : queue[cur]? = some item) (hnexts : ∀ next, next ∈ nexts ↔ edge item next) :
    Inv edge root (enqueueAll queue nexts) (cur + 1) where
  nodup := nodup_enqueueAll nexts h.nodup
  hasRoots := fun other hroot => mem_enqueueAll.mpr (.inl (h.hasRoots other hroot))
  reached := by
    intro other hother
    rcases mem_enqueueAll.mp hother with hmem | hmem
    · exact h.reached other hmem
    · obtain ⟨start, hstart, hreach⟩ := h.reached item (mem_of_getElem? hitem)
      exact ⟨start, hstart, hreach.tail ((hnexts other).mp hmem)⟩
  closed := by
    obtain ⟨added, hadded⟩ := enqueueAll_eq_append nexts queue
    have hlength : cur < queue.length := (List.getElem_of_getElem? hitem).1
    intro place hplace other hother next hedge
    rw [hadded, getElem?_append_left (by omega)] at hother
    rw [mem_enqueueAll]
    by_cases hlast : place = cur
    · subst hlast
      rw [hitem] at hother
      exact .inr ((hnexts next).mpr (Option.some.inj hother ▸ hedge))
    · exact .inl (h.closed place (by omega) other hother next hedge)

theorem Inv.mem_iff (h : Inv edge root queue cur) (hpassed : queue.length ≤ cur) (item : α) :
    item ∈ queue ↔ ∃ start, root start ∧ ReflTransGen edge start item := by
  refine ⟨h.reached item, ?_⟩
  rintro ⟨start, hstart, hreach⟩
  induction hreach with
  | refl => exact h.hasRoots start hstart
  | tail _ hedge ih =>
    obtain ⟨place, hplace⟩ := getElem?_of_mem ih
    have hlt : place < cur := by
      have := (List.getElem_of_getElem? hplace).1
      omega
    exact h.closed place hlt _ hplace _ hedge

theorem Inv.length_le (h : Inv edge root queue cur) (items : List α)
    (hroots : ∀ item, root item → item ∈ items)
    (hedges : ∀ item next, edge item next → next ∈ items) : queue.length ≤ items.length := by
  refine (subperm_of_subset h.nodup fun item hitem => ?_).length_le
  obtain ⟨start, hstart, hreach⟩ := h.reached item hitem
  rcases hreach.cases_tail with heq | ⟨between, -, hedge⟩
  · exact heq ▸ hroots start hstart
  · exact hedges between item hedge

end Worklist
