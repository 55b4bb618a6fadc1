import Mathlib.Data.List.Nodup

/-!
# Grouping by keys

Items are put into groups one after another: an item joins the group of its key, and where there is none
yet it starts one. Every key then has one group, and a group holds the items of its key in their order.
-/

namespace Grouping

open List

variable {ι κ σ β : Type} [DecidableEq κ]

/-- How items make groups. -/
structure Scheme (ι κ σ : Type) where
  itemKey : ι → κ
  groupKey : σ → κ
  start : ι → σ
  join : ι → σ → σ

namespace Scheme

variable (scheme : Scheme ι κ σ)

def insert (groups : List σ) (item : ι) : List σ :=
  if scheme.itemKey item ∈ groups.map scheme.groupKey then
    groups.map fun group =>
      if scheme.groupKey group = scheme.itemKey item then scheme.join item group else group
  else groups ++ [scheme.join item (scheme.start item)]

/-- What the groups of a key hold. -/
def contentsOf (contents : σ → List β) (groups : List σ) (key : κ) : List β :=
  (groups.filter (scheme.groupKey · = key)).flatMap contents

/-- A new group has the key of its item, and joining a group does not change its key. -/
structure Lawful : Prop where
  start : ∀ item, scheme.groupKey (scheme.start item) = scheme.itemKey item
  join : ∀ item group, scheme.groupKey (scheme.join item group) = scheme.groupKey group

variable {scheme} (hlawful : scheme.Lawful)

include hlawful

theorem map_groupKey_insert (groups : List σ) (item : ι) :
    (scheme.insert groups item).map scheme.groupKey =
      if scheme.itemKey item ∈ groups.map scheme.groupKey then groups.map scheme.groupKey
      else groups.map scheme.groupKey ++ [scheme.itemKey item] := by
  unfold insert
  split
  · rw [map_map]
    refine map_congr_left fun group _ => ?_
    rw [Function.comp_apply]
    split
    · exact hlawful.join item group
    · rfl
  · rw [map_append, map_cons, map_nil, hlawful.join, hlawful.start]

theorem nodup_insert {groups : List σ} (h : (groups.map scheme.groupKey).Nodup) (item : ι) :
    ((scheme.insert groups item).map scheme.groupKey).Nodup := by
  rw [map_groupKey_insert hlawful]
  split
  · exact h
  · rename_i hnew
    exact nodup_append_comm.mp (nodup_cons.mpr ⟨hnew, h⟩)

theorem nodup_foldl (items : List ι) : ∀ {groups : List σ}, (groups.map scheme.groupKey).Nodup →
    ((items.foldl scheme.insert groups).map scheme.groupKey).Nodup := by
  induction items with
  | nil => exact fun h => h
  | cons item rest ih => exact fun h => ih (nodup_insert hlawful h item)

theorem mem_keys_foldl (items : List ι) : ∀ {groups : List σ} {key : κ},
    key ∈ (items.foldl scheme.insert groups).map scheme.groupKey ↔
      key ∈ groups.map scheme.groupKey ∨ key ∈ items.map scheme.itemKey := by
  induction items with
  | nil => simp
  | cons item rest ih =>
    intro groups key
    rw [foldl_cons, ih, map_groupKey_insert hlawful, map_cons, mem_cons, ← or_assoc]
    refine or_congr_left ?_
    split
    · rename_i hold
      exact ⟨.inl, fun h => h.elim id fun heq => heq ▸ hold⟩
    · rw [mem_append, mem_singleton]

omit hlawful in
theorem contentsOf_groupKey (contents : σ → List β) {groups : List σ}
    (hnodup : (groups.map scheme.groupKey).Nodup) {group : σ} (hgroup : group ∈ groups) :
    scheme.contentsOf contents groups (scheme.groupKey group) = contents group := by
  unfold contentsOf
  induction groups with
  | nil => cases hgroup
  | cons first rest ih =>
    rw [map_cons, nodup_cons] at hnodup
    rcases mem_cons.mp hgroup with rfl | hmem
    · have hrest : rest.filter (scheme.groupKey · = scheme.groupKey group) = [] := by
        rw [filter_eq_nil_iff]
        intro other hother hkey
        exact hnodup.1 (mem_map.mpr ⟨other, hother, of_decide_eq_true hkey⟩)
      simp [hrest]
    · have hne : scheme.groupKey first ≠ scheme.groupKey group := fun heq =>
        hnodup.1 (heq ▸ mem_map_of_mem hmem)
      simpa [hne] using ih hnodup.2 hmem

variable {contents : σ → List β} {given : ι → List β}

theorem contentsOf_insert
    (hjoin : ∀ item group, contents (scheme.join item group) = contents group ++ given item)
    (hstart : ∀ item, contents (scheme.start item) = []) {groups : List σ}
    (hnodup : (groups.map scheme.groupKey).Nodup) (item : ι) (key : κ) :
    scheme.contentsOf contents (scheme.insert groups item) key =
      scheme.contentsOf contents groups key ++
        if scheme.itemKey item = key then given item else [] := by
  unfold insert contentsOf
  split
  · rename_i hmem
    induction groups with
    | nil => cases hmem
    | cons first rest ih =>
      rw [map_cons, nodup_cons] at hnodup
      by_cases hfirst : scheme.groupKey first = scheme.itemKey item
      · -- Only the first group changes.
        have hrest : (rest.map fun group =>
            if scheme.groupKey group = scheme.itemKey item then scheme.join item group else group) =
              rest := by
          conv_rhs => rw [← map_id rest]
          refine map_congr_left fun group hgroup => if_neg fun heq => ?_
          exact hnodup.1 (hfirst ▸ heq ▸ mem_map_of_mem hgroup)
        rw [map_cons, hrest]
        by_cases hkey : scheme.itemKey item = key
        · have hnone : rest.filter (scheme.groupKey · = key) = [] := by
            rw [filter_eq_nil_iff]
            intro other hother heq
            exact hnodup.1 (mem_map.mpr
              ⟨other, hother, (of_decide_eq_true heq).trans (hkey.symm.trans hfirst.symm)⟩)
          simp [hlawful.join, hfirst, hkey, hnone, hjoin]
        · simp [hlawful.join, hfirst, hkey]
      · have hrest : scheme.itemKey item ∈ rest.map scheme.groupKey := by
          rcases mem_cons.mp hmem with heq | hmem
          · exact absurd heq.symm hfirst
          · exact hmem
        have ih := ih hnodup.2 hrest
        rw [map_cons, if_neg hfirst]
        by_cases hkey : scheme.groupKey first = key
        · simp only [hkey, filter_cons, decide_true, if_true, flatMap_cons, ih, append_assoc]
        · simp only [hkey, filter_cons, decide_false, ih, Bool.false_eq_true, if_false]
  · by_cases hkey : scheme.itemKey item = key
    · simp [hlawful.join, hlawful.start, hkey, hjoin, hstart]
    · simp [hlawful.join, hlawful.start, hkey]

/-- The group of a key holds what it held before, and then what the items of the key give. -/
theorem contentsOf_foldl
    (hjoin : ∀ item group, contents (scheme.join item group) = contents group ++ given item)
    (hstart : ∀ item, contents (scheme.start item) = []) (key : κ) (items : List ι) :
    ∀ {groups : List σ}, (groups.map scheme.groupKey).Nodup →
      scheme.contentsOf contents (items.foldl scheme.insert groups) key =
        scheme.contentsOf contents groups key ++
          (items.filter (scheme.itemKey · = key)).flatMap given := by
  induction items with
  | nil => simp
  | cons item rest ih =>
    intro groups hnodup
    rw [foldl_cons, ih (nodup_insert hlawful hnodup item),
      contentsOf_insert hlawful hjoin hstart hnodup]
    by_cases hkey : scheme.itemKey item = key <;> simp [hkey]

omit hlawful in
/-- Splitting a list by the keys of its items loses nothing and repeats nothing. -/
theorem flatMap_filter_perm (key : ι → κ) : ∀ {keys : List κ} {items : List ι}, keys.Nodup →
    (∀ item ∈ items, key item ∈ keys) →
    (keys.flatMap fun k => items.filter (key · = k)).Perm items := by
  intro keys
  induction keys with
  | nil =>
    intro items _ hkeys
    cases items with
    | nil => exact .refl _
    | cons item rest => cases hkeys item mem_cons_self
  | cons first rest ih =>
    intro items hnodup hkeys
    rw [nodup_cons] at hnodup
    have hrest : (rest.flatMap fun k => items.filter (key · = k)) =
        rest.flatMap fun k => (items.filter fun item => !decide (key item = first)).filter (key · = k) := by
      refine flatMap_congr fun k hk => ?_
      rw [filter_filter]
      refine filter_congr fun item _ => ?_
      have hne : k ≠ first := fun heq => hnodup.1 (heq ▸ hk)
      by_cases hitem : key item = k
      · simp [hitem, hne]
      · simp [hitem]
    rw [flatMap_cons, hrest]
    refine (List.Perm.append_left _ (ih hnodup.2 fun item hitem => ?_)).trans
      (filter_append_perm _ _)
    obtain ⟨hmem, hne⟩ := mem_filter.mp hitem
    rcases mem_cons.mp (hkeys item hmem) with heq | hmem
    · simp [heq] at hne
    · exact hmem

end Scheme

end Grouping
