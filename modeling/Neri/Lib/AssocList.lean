import Mathlib.Data.List.Nodup

/-!
# Association lists with distinct keys

A map that is only ever extended by keys it does not hold yet is a list of pairs with distinct
keys. Looking a key up from the front is then the same as membership.
-/

namespace AssocList

open List

variable {κ ν : Type*} [BEq κ] [LawfulBEq κ] {entries : List (κ × ν)} {key : κ} {value : ν}

theorem not_mem_keys_of_lookup_eq_none (h : entries.lookup key = none) :
    key ∉ entries.map (·.1) := by
  rintro hmem
  obtain ⟨entry, hentry, rfl⟩ := mem_map.mp hmem
  have hne := lookup_eq_none_iff.mp h entry hentry
  simp at hne

theorem lookup_append_singleton (entries : List (κ × ν)) (key : κ) (value : ν) (other : κ) :
    (entries ++ [(key, value)]).lookup other =
      (entries.lookup other).or (if other == key then some value else none) := by
  rw [lookup_append]
  congr 1
  split <;> simp_all

theorem mem_of_lookup (h : entries.lookup key = some value) : (key, value) ∈ entries := by
  obtain ⟨front, back, rfl, -⟩ := lookup_eq_some_iff.mp h
  simp

theorem nodup_keys_append (hnodup : (entries.map (·.1)).Nodup)
    (h : entries.lookup key = none) : ((entries ++ [(key, value)]).map (·.1)).Nodup := by
  rw [map_append, nodup_append]
  refine ⟨hnodup, nodup_singleton _, ?_⟩
  rintro a ha b hb rfl
  simp only [map_cons, map_nil, mem_singleton] at hb
  exact not_mem_keys_of_lookup_eq_none h (hb ▸ ha)

theorem lookup_eq_some_iff (hnodup : (entries.map (·.1)).Nodup) :
    entries.lookup key = some value ↔ (key, value) ∈ entries := by
  induction entries with
  | nil => simp
  | cons entry entries ih =>
    obtain ⟨k, v⟩ := entry
    rw [map_cons, nodup_cons] at hnodup
    rw [lookup_cons]
    by_cases hk : key = k
    · subst hk
      have hout : ∀ u, (key, u) ∉ entries :=
        fun u hmem => hnodup.1 (mem_map.mpr ⟨(key, u), hmem, rfl⟩)
      simp [hout, eq_comm]
    · have hb : (key == k) = false := beq_eq_false_iff_ne.mpr hk
      simp [hb, hk, ih hnodup.2]

/-- Adds an entry, unless there is one with its key. -/
def add (entries : List (κ × ν)) (key : κ) (value : ν) : List (κ × ν) :=
  match entries.lookup key with
  | some _ => entries
  | none => entries ++ [(key, value)]

/-- After additions in a row, the first value of each key is there. -/
theorem lookup_foldl_add (keyOf : ν → κ) (key : κ) (values : List ν) : ∀ entries : List (κ × ν),
    (values.foldl (fun entries value => add entries (keyOf value) value) entries).lookup key =
      (entries.lookup key).or (values.find? (keyOf · == key)) := by
  induction values with
  | nil => simp
  | cons value rest ih =>
    intro entries
    rw [foldl_cons, ih, find?_cons, add]
    by_cases hkey : keyOf value = key
    · cases hlookup : entries.lookup (keyOf value) with
      | some found => simp [← hkey, hlookup]
      | none => simp [← hkey, hlookup, lookup_append_singleton]
    · have hbeq := beq_eq_false_iff_ne.mpr hkey
      cases entries.lookup (keyOf value) with
      | some found => simp [hbeq]
      | none => simp [hbeq, lookup_append_singleton, Ne.symm hkey]

theorem foldl_add_of_nodup (keyOf : ν → κ) (values : List ν) : ∀ entries : List (κ × ν),
    (entries.map (·.1) ++ values.map keyOf).Nodup →
    values.foldl (fun entries value => add entries (keyOf value) value) entries =
      entries ++ values.map fun value => (keyOf value, value) := by
  induction values with
  | nil => simp
  | cons value rest ih =>
    intro entries hnodup
    have hnone : entries.lookup (keyOf value) = none := by
      rw [lookup_eq_none_iff]
      intro entry hentry
      refine bne_iff_ne.mpr fun heq => ?_
      exact disjoint_of_nodup_append hnodup (mem_map_of_mem hentry) (heq ▸ mem_cons_self)
    have hrest := ih (entries ++ [(keyOf value, value)]) (by rwa [map_append, append_assoc])
    rw [append_assoc] at hrest
    rw [foldl_cons, add, hnone]
    exact hrest

end AssocList
