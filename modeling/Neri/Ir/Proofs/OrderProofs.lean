import Mathlib.Data.Prod.Lex
import Neri.Ir.Order
import Neri.Ir.Proofs.TextProofs

/-!
# The canonical order is a sort

`irOrderSort` returns the nodes it was given, sorted by the key that `irOrderBeforeOrEqual` compares.
For declarations with distinct keys the order it leaves is therefore strict, and the position at
which a declaration was added does not matter.
-/

namespace Neri.Ir

open List

variable {T : Type}

/-- What `irOrderBeforeOrEqual` compares. -/
def IrOrderNode.key (node : IrOrderNode T) : ℕ ×ₗ List ℕ ×ₗ ℕ :=
  toLex (node.primary, toLex (node.name.toList.map utf16Rank, node.ordinal))

theorem irOrderBeforeOrEqual_iff (left right : IrOrderNode T) :
    irOrderBeforeOrEqual left right = true ↔ left.key ≤ right.key := by
  unfold irOrderBeforeOrEqual IrOrderNode.key
  rw [Prod.Lex.toLex_le_toLex, Prod.Lex.toLex_le_toLex]
  by_cases hprimary : left.primary = right.primary
  · simp only [hprimary, ne_eq, not_true_eq_false, if_false, lt_irrefl, true_and, false_or,
      irCompareText_eq]
    rcases lt_trichotomy (left.name.toList.map utf16Rank) (right.name.toList.map utf16Rank) with
      h | h | h
    · simp [h]
    · simp [h]
    · simp [h, h.not_gt, h.ne']
  · simp [hprimary]

theorem irOrderMerge_eq (left right : List (IrOrderNode T)) :
    irOrderMerge left right = left.merge right irOrderBeforeOrEqual := by
  fun_induction irOrderMerge left right with
  | case1 right => rw [nil_merge]
  | case2 left => rw [merge_right]
  | case3 left lefts right rights h ih => rw [cons_merge_cons_pos _ _ _ h, ih]
  | case4 left lefts right rights h ih => rw [cons_merge_cons_neg _ _ _ h, ih]

theorem irOrderSort_perm (nodes : List (IrOrderNode T)) : (irOrderSort nodes).Perm nodes := by
  fun_induction irOrderSort nodes with
  | case1 => exact .refl _
  | case2 => exact .refl _
  | case3 head next rest ihLeft ihRight =>
    rw [irOrderMerge_eq]
    have happend : (irOrderSplit head (next :: rest)).1 ++ (irOrderSplit head (next :: rest)).2 =
        head :: next :: rest := irOrderSplitLoop_append [head] (next :: rest) (next :: rest)
    calc List.Perm _ _ := merge_perm_append _
      List.Perm _ _ := ihLeft.append ihRight
      _ = head :: next :: rest := happend

theorem irOrderSort_pairwise (nodes : List (IrOrderNode T)) :
    (irOrderSort nodes).Pairwise (irOrderBeforeOrEqual · ·) := by
  have htrans : ∀ a b c : IrOrderNode T, irOrderBeforeOrEqual a b = true →
      irOrderBeforeOrEqual b c = true → irOrderBeforeOrEqual a c = true := by
    intro a b c hab hbc
    rw [irOrderBeforeOrEqual_iff] at *
    exact le_trans hab hbc
  have htotal : ∀ a b : IrOrderNode T,
      (irOrderBeforeOrEqual a b || irOrderBeforeOrEqual b a) = true := by
    intro a b
    rw [Bool.or_eq_true, irOrderBeforeOrEqual_iff, irOrderBeforeOrEqual_iff]
    exact le_total _ _
  fun_induction irOrderSort nodes with
  | case1 => exact .nil
  | case2 => exact pairwise_singleton _ _
  | case3 head next rest ihLeft ihRight =>
    rw [irOrderMerge_eq]
    exact pairwise_merge htrans htotal _ _ ihLeft ihRight

section Ordered

variable (values : List T) (primary : T → Nat) (name : T → String)

theorem ordered_perm : (ordered values primary name).Perm values := by
  refine ((irOrderSort_perm _).map _).trans ?_
  rw [map_map]
  have hvalues : values.zipIdx.map Prod.fst = values := zipIdx_map_fst _ _
  exact .of_eq hvalues

/-- One value comes before another in the compiler's order. -/
def Before (left right : T) : Prop :=
  primary left < primary right ∨ primary left = primary right ∧
      (name left).toList.map utf16Rank < (name right).toList.map utf16Rank

/-- Two nodes in order, with different keys, hold values in order: the ordinals are not reached. -/
theorem before_of_key_le {left right : IrOrderNode T} (hle : left.key ≤ right.key)
    (hne : (left.primary, left.name) ≠ (right.primary, right.name)) : left.primary < right.primary ∨
      left.primary = right.primary ∧
        left.name.toList.map utf16Rank < right.name.toList.map utf16Rank := by
  unfold IrOrderNode.key at hle
  rw [Prod.Lex.toLex_le_toLex, Prod.Lex.toLex_le_toLex] at hle
  rcases hle with hlt | ⟨hprimary, hlt | ⟨hname, -⟩⟩
  · exact .inl hlt
  · exact .inr ⟨hprimary, hlt⟩
  · have hchars : left.name.toList = right.name.toList := utf16Rank_injective.list_map hname
    exact absurd (Prod.mk.injEq .. ▸ ⟨hprimary, String.toList_injective hchars⟩) hne

theorem ordered_pairwise (hdistinct : (values.map fun v => (primary v, name v)).Nodup) :
    (ordered values primary name).Pairwise (Before primary name) := by
  have hnodup : ((ordered values primary name).map fun v => (primary v, name v)).Nodup :=
    ((ordered_perm values primary name).map _).nodup_iff.mpr hdistinct
  have hdiffer := pairwise_map.mp hnodup
  unfold ordered at hdiffer ⊢
  rw [pairwise_map] at hdiffer ⊢
  have hsorted := (hdiffer.and (irOrderSort_pairwise _))
  refine hsorted.imp_of_mem ?_
  intro a b ha hb hab
  -- the nodes carry the keys of the values they were made for
  rw [(irOrderSort_perm _).mem_iff, mem_map] at ha hb
  obtain ⟨v, -, rfl⟩ := ha
  obtain ⟨w, -, rfl⟩ := hb
  exact before_of_key_le ((irOrderBeforeOrEqual_iff _ _).mp hab.2) hab.1

end Ordered

end Neri.Ir
