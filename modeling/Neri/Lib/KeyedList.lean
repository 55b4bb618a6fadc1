import Mathlib.Algebra.BigOperators.Group.List.Basic
import Mathlib.Algebra.Order.Ring.Nat
import Mathlib.Data.List.Nodup

/-!
# Records found by a key

A table is a list of records with distinct keys. A record is found by its key, written back over the
record with the same key, and removed by its key.
-/

namespace KeyedList

open List

variable {α κ : Type*} [DecidableEq κ] {key : α → κ} {items : List α} {item old : α} {k : κ}

def lookup (key : α → κ) (k : κ) (items : List α) : Option α := items.find? (key · = k)

/-- Writes a record over the one with its key. -/
def replace (key : α → κ) (item : α) (items : List α) : List α :=
  items.map fun other => if key other = key item then item else other

def remove (key : α → κ) (k : κ) (items : List α) : List α := items.filter (key · ≠ k)

omit [DecidableEq κ] in
theorem eq_of_key_eq (hnodup : (items.map key).Nodup) (hitem : item ∈ items) (hold : old ∈ items)
    (hkey : key item = key old) : item = old :=
  inj_on_of_nodup_map hnodup hitem hold hkey

theorem lookup_eq_some_iff (hnodup : (items.map key).Nodup) :
    lookup key k items = some item ↔ item ∈ items ∧ key item = k := by
  constructor
  · intro h
    exact ⟨mem_of_find?_eq_some h, by simpa using find?_some h⟩
  · rintro ⟨hmem, rfl⟩
    cases hfound : lookup key (key item) items with
    | none => exact absurd (find?_eq_none.mp hfound item hmem) (by simp)
    | some other =>
      have hother : key other = key item := by simpa using find?_some hfound
      rw [eq_of_key_eq hnodup (mem_of_find?_eq_some hfound) hmem hother]

theorem lookup_eq_none_iff : lookup key k items = none ↔ k ∉ items.map key := by
  simp [lookup, find?_eq_none]

@[simp] theorem map_key_replace (items : List α) (item : α) :
    (replace key item items).map key = items.map key := by
  rw [replace, map_map]
  refine map_congr_left fun other _ => ?_
  by_cases hkey : key other = key item <;> simp [hkey]

theorem mem_replace (hold : old ∈ items) (hkey : key item = key old) {other : α} :
    other ∈ replace key item items ↔ other = item ∨ other ∈ items ∧ key other ≠ key item := by
  rw [replace, mem_map]
  constructor
  · rintro ⟨r, hrecord, rfl⟩
    by_cases h : key r = key item
    · exact .inl (if_pos h)
    · rw [if_neg h]
      exact .inr ⟨hrecord, h⟩
  · rintro (rfl | ⟨hmem, hne⟩)
    · exact ⟨old, hold, if_pos hkey.symm⟩
    · exact ⟨other, hmem, if_neg hne⟩

/-- A part of the records that the new record shares with the old one is kept as a whole. -/
theorem map_replace {β : Type*} (hnodup : (items.map key).Nodup) (hold : old ∈ items)
    (hkey : key item = key old) {part : α → β} (hpart : part item = part old) :
    (replace key item items).map part = items.map part := by
  rw [replace, map_map]
  refine map_congr_left fun other hother => ?_
  by_cases h : key other = key item
  · rw [eq_of_key_eq hnodup hother hold (h.trans hkey)]
    simp [hkey, hpart]
  · simp [h]

theorem lookup_replace (hnodup : (items.map key).Nodup) (hold : old ∈ items)
    (hkey : key item = key old) : lookup key k (replace key item items) =
      if k = key item then some item else lookup key k items := by
  have hnodup' : ((replace key item items).map key).Nodup := by rwa [map_key_replace]
  by_cases hk : k = key item
  · rw [if_pos hk, lookup_eq_some_iff hnodup']
    exact ⟨(mem_replace hold hkey).mpr (.inl rfl), hk.symm⟩
  · rw [if_neg hk]
    refine Option.ext fun r => ?_
    rw [lookup_eq_some_iff hnodup', lookup_eq_some_iff hnodup, mem_replace hold hkey]
    constructor
    · rintro ⟨rfl | hrecord, rfl⟩
      · exact absurd rfl hk
      · exact ⟨hrecord.1, rfl⟩
    · rintro ⟨hrecord, rfl⟩
      exact ⟨.inr ⟨hrecord, hk⟩, rfl⟩

theorem lookup_append (hitem : k ∉ items.map key) :
    lookup key k (items ++ [item]) = if k = key item then some item else none := by
  rw [lookup, find?_append, ← lookup, lookup_eq_none_iff.mpr hitem]
  by_cases hk : k = key item <;> simp [hk, eq_comm]

theorem lookup_append_of_ne (hne : k ≠ key item) :
    lookup key k (items ++ [item]) = lookup key k items := by
  simp [lookup, hne.symm]

theorem mem_remove {other : α} : other ∈ remove key k items ↔ other ∈ items ∧ key other ≠ k := by
  simp [remove]

theorem nodup_remove (hnodup : (items.map key).Nodup) : ((remove key k items).map key).Nodup :=
  hnodup.sublist (filter_sublist.map key)

theorem lookup_remove (hnodup : (items.map key).Nodup) {j : κ} :
    lookup key j (remove key k items) = if j = k then none else lookup key j items := by
  by_cases hk : j = k
  · rw [if_pos hk, lookup_eq_none_iff]
    simp [remove, hk]
  · rw [if_neg hk]
    refine Option.ext fun r => ?_
    rw [lookup_eq_some_iff (nodup_remove hnodup), lookup_eq_some_iff hnodup, mem_remove]
    constructor
    · rintro ⟨⟨hmem, -⟩, rfl⟩
      exact ⟨hmem, rfl⟩
    · rintro ⟨hmem, rfl⟩
      exact ⟨⟨hmem, hk⟩, rfl⟩

/-- The total over the table is that over the rest and the record. -/
theorem sum_remove (hnodup : (items.map key).Nodup) (hitem : item ∈ items) (part : α → Nat) :
    (items.map part).sum = part item + ((remove key (key item) items).map part).sum := by
  induction items with
  | nil => exact absurd hitem not_mem_nil
  | cons first items ih =>
    rw [map_cons, nodup_cons] at hnodup
    rcases mem_cons.mp hitem with rfl | hmem
    · have hrest : remove key (key item) items = items :=
        filter_eq_self.mpr fun other hother => by
          simpa using fun h : key other = key item =>
            hnodup.1 (h ▸ mem_map_of_mem hother)
      rw [map_cons, sum_cons, remove, filter_cons_of_neg (by simp), ← remove, hrest]
    · have hne : key first ≠ key item := fun h => hnodup.1 (h ▸ mem_map_of_mem hmem)
      rw [map_cons, sum_cons, ih hnodup.2 hmem, remove, remove,
        filter_cons_of_pos (by simpa using hne), map_cons, sum_cons]
      omega

end KeyedList
