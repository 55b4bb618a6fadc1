import Mathlib.Data.List.Perm.Basic

/-!
# Search trees that balance themselves

A search tree whose nodes store their heights. An insertion goes down by comparing keys and rotates
on its way back where the heights differ by more than one. Rotations do not change the sequence of the
entries, so the tree stays ordered whatever the stored heights say, and a search finds exactly the
entries that were inserted.
-/

universe u v

/-- A comparison of keys by the sign of an integer. -/
structure LawfulComparison {κ : Type u} (compare : κ → κ → Int) : Prop where
  eq_zero_iff : ∀ a b, compare a b = 0 ↔ a = b
  neg_iff : ∀ a b, compare a b < 0 ↔ 0 < compare b a
  neg_trans : ∀ a b c, compare a b < 0 → compare b c < 0 → compare a c < 0

/-- A search tree with stored heights. -/
inductive AvlTree (κ : Type u) (ν : Type v) where
  | empty
  | node (key : κ) (value : ν) (height : Int) (left right : AvlTree κ ν)

namespace AvlTree

variable {κ : Type u} {ν : Type v}

/-- The stored height. -/
def height : AvlTree κ ν → Int
  | empty => 0
  | node _ _ height _ _ => height

/-- A node with the height that its sides give it. -/
def update (key : κ) (value : ν) (left right : AvlTree κ ν) : AvlTree κ ν :=
  node key value (1 + if left.height > right.height then left.height else right.height) left right

def rotateLeft : AvlTree κ ν → AvlTree κ ν
  | node key value _ left (node nextKey nextValue _ nextLeft nextRight) =>
    update nextKey nextValue (update key value left nextLeft) nextRight
  | root => root

def rotateRight : AvlTree κ ν → AvlTree κ ν
  | node key value _ (node nextKey nextValue _ nextLeft nextRight) right =>
    update nextKey nextValue nextLeft (update key value nextRight right)
  | root => root

/-- Whether the right side of a tree is the higher one. -/
def leansRight : AvlTree κ ν → Bool
  | empty => false
  | node _ _ _ left right => left.height < right.height

/-- Whether the left side of a tree is the higher one. -/
def leansLeft : AvlTree κ ν → Bool
  | empty => false
  | node _ _ _ left right => right.height < left.height

/-- A node whose sides may differ in height, balanced. -/
def balance (key : κ) (value : ν) (left right : AvlTree κ ν) : AvlTree κ ν :=
  if left.height - right.height > 1 then
    rotateRight (update key value (if left.leansRight then rotateLeft left else left) right)
  else if left.height - right.height < -1 then
    rotateLeft (update key value left (if right.leansLeft then rotateRight right else right))
  else update key value left right

variable (compare : κ → κ → Int)

def insert (newKey : κ) (newValue : ν) : AvlTree κ ν → AvlTree κ ν
  | empty => node newKey newValue 1 empty empty
  | node key value _ left right =>
    if compare newKey key < 0 then balance key value (insert newKey newValue left) right
    else balance key value left (insert newKey newValue right)

def find? (searched : κ) : AvlTree κ ν → Option ν
  | empty => none
  | node key value _ left right =>
    if compare searched key = 0 then some value
    else if compare searched key < 0 then find? searched left
    else find? searched right

/-! ## Entries from left to right -/

/-- The entries from left to right. -/
def toList : AvlTree κ ν → List (κ × ν)
  | empty => []
  | node key value _ left right => left.toList ++ (key, value) :: right.toList

@[simp] theorem toList_update (key : κ) (value : ν) (left right : AvlTree κ ν) :
    (update key value left right).toList = left.toList ++ (key, value) :: right.toList := rfl

@[simp] theorem toList_rotateLeft (tree : AvlTree κ ν) : tree.rotateLeft.toList = tree.toList := by
  unfold rotateLeft
  split <;> simp [toList]

@[simp] theorem toList_rotateRight (tree : AvlTree κ ν) :
    tree.rotateRight.toList = tree.toList := by
  unfold rotateRight
  split <;> simp [toList]

@[simp] theorem toList_balance (key : κ) (value : ν) (left right : AvlTree κ ν) :
    (balance key value left right).toList = left.toList ++ (key, value) :: right.toList := by
  unfold balance
  split_ifs <;> simp

theorem toList_insert_perm (newKey : κ) (newValue : ν) (tree : AvlTree κ ν) :
    (tree.insert compare newKey newValue).toList.Perm ((newKey, newValue) :: tree.toList) := by
  induction tree with
  | empty => exact .refl _
  | node key value height left right ihl ihr =>
    rw [insert]
    split
    · rw [toList_balance]
      exact ihl.append_right _
    · rw [toList_balance]
      exact ((ihr.cons _).append_left _).trans
        ((List.Perm.swap _ _ _).append_left _ |>.trans List.perm_middle)

/-- The keys grow from left to right. -/
def Ordered (tree : AvlTree κ ν) : Prop :=
  (tree.toList.map Prod.fst).Pairwise fun a b => compare a b < 0

variable {compare}

theorem ordered_empty : Ordered compare (empty : AvlTree κ ν) := List.Pairwise.nil

theorem ordered_node_iff {key : κ} {value : ν} {height : Int} {left right : AvlTree κ ν}
    (h : LawfulComparison compare) : Ordered compare (node key value height left right) ↔
      Ordered compare left ∧ Ordered compare right ∧
        (∀ entry ∈ left.toList, compare entry.1 key < 0) ∧
        ∀ entry ∈ right.toList, compare key entry.1 < 0 := by
  simp only [Ordered, toList, List.map_append, List.map_cons, List.pairwise_append,
    List.pairwise_cons, List.forall_mem_cons, List.forall_mem_map]
  constructor
  · rintro ⟨hleft, ⟨hkey, hright⟩, hbetween⟩
    exact ⟨hleft, hright, fun entry hentry => (hbetween entry hentry).1, hkey⟩
  · rintro ⟨hleft, hright, hpre, hafter⟩
    refine ⟨hleft, ⟨hafter, hright⟩, fun entry hentry => ⟨hpre entry hentry, ?_⟩⟩
    exact fun other hother => h.neg_trans _ _ _ (hpre entry hentry) (hafter other hother)

theorem ordered_balance_iff {key : κ} {value : ν} (height : Int) {left right : AvlTree κ ν} :
    Ordered compare (balance key value left right) ↔
      Ordered compare (node key value height left right) := by
  unfold Ordered
  rw [toList_balance, toList]

variable {newKey : κ} {tree : AvlTree κ ν}

theorem mem_toList_insert {newValue : ν} {entry : κ × ν} :
    entry ∈ (tree.insert compare newKey newValue).toList ↔
      entry = (newKey, newValue) ∨ entry ∈ tree.toList := by
  rw [(toList_insert_perm compare newKey newValue tree).mem_iff, List.mem_cons]

theorem ordered_insert (h : LawfulComparison compare) (newValue : ν)
    (hordered : Ordered compare tree)
    (hnew : ∀ entry ∈ tree.toList, entry.1 ≠ newKey) :
    Ordered compare (tree.insert compare newKey newValue) := by
  induction tree with
  | empty => exact List.pairwise_singleton _ _
  | node key value height left right ihl ihr =>
    obtain ⟨hleft, hright, hpre, hafter⟩ := (ordered_node_iff h).mp hordered
    rw [toList, List.forall_mem_append, List.forall_mem_cons] at hnew
    obtain ⟨hinleft, hkey, hinright⟩ := hnew
    rw [insert]
    split
    · rename_i hlt
      rw [ordered_balance_iff height, ordered_node_iff h]
      refine ⟨ihl hleft hinleft, hright, fun entry hentry => ?_, hafter⟩
      rcases mem_toList_insert.mp hentry with rfl | hentry
      · exact hlt
      · exact hpre entry hentry
    · rename_i hge
      have hgt : compare key newKey < 0 := by
        have hne : compare newKey key ≠ 0 :=
          fun heq => hkey ((h.eq_zero_iff newKey key).mp heq).symm
        rw [h.neg_iff]
        omega
      rw [ordered_balance_iff height, ordered_node_iff h]
      refine ⟨hleft, ihr hright hinright, hpre, fun entry hentry => ?_⟩
      rcases mem_toList_insert.mp hentry with rfl | hentry
      · exact hgt
      · exact hafter entry hentry

theorem find?_eq_some_iff (h : LawfulComparison compare)
    (hordered : Ordered compare tree) {searched : κ} {found : ν} :
    tree.find? compare searched = some found ↔ (searched, found) ∈ tree.toList := by
  induction tree with
  | empty => simp [find?, toList]
  | node key value height left right ihl ihr =>
    obtain ⟨hleft, hright, hpre, hafter⟩ := (ordered_node_iff h).mp hordered
    rw [find?, toList, List.mem_append, List.mem_cons, Prod.mk.injEq]
    -- The sides hold the smaller and the greater keys, so only one place can hold the key.
    have hnotleft : ¬ compare searched key < 0 → (searched, found) ∉ left.toList :=
      fun hge hmem => hge (hpre _ hmem)
    have hnotright : ¬ 0 < compare searched key → (searched, found) ∉ right.toList :=
      fun hle hmem => hle ((h.neg_iff key searched).mp (hafter _ hmem))
    split
    · rename_i hzero
      have heq : searched = key := (h.eq_zero_iff searched key).mp hzero
      rw [or_iff_right (hnotleft (by omega)), or_iff_left (hnotright (by omega))]
      exact ⟨fun hfound => ⟨heq, (Option.some.inj hfound).symm⟩, fun hfound => hfound.2 ▸ rfl⟩
    · rename_i hne
      have hnekey : searched ≠ key := fun heq => hne ((h.eq_zero_iff searched key).mpr heq)
      rw [or_iff_right (fun hfound : searched = key ∧ found = value => hnekey hfound.1)]
      split
      · rw [ihl hleft, or_iff_left (hnotright (by omega))]
      · rw [ihr hright, or_iff_right (hnotleft (by omega))]

/-! ## Balance -/

/-- The height of a tree, counted. -/
def levels : AvlTree κ ν → Int
  | empty => 0
  | node _ _ _ left right => 1 + max left.levels right.levels

/-- The stored heights are right, and those of two sides differ by at most one. -/
def Balanced : AvlTree κ ν → Prop
  | empty => True
  | node _ _ height left right => left.Balanced ∧ right.Balanced ∧
      height = 1 + max left.levels right.levels ∧
      left.levels ≤ right.levels + 1 ∧ right.levels ≤ left.levels + 1

section

variable {key : κ} {value : ν} {tree left right : AvlTree κ ν}

theorem levels_nonneg (tree : AvlTree κ ν) : 0 ≤ tree.levels := by
  induction tree with
  | empty => exact Int.le_refl 0
  | node key value height left right ihl ihr =>
    rw [levels]
    omega

theorem Balanced.height_eq (h : tree.Balanced) : tree.height = tree.levels := by
  cases tree with
  | empty => rfl
  | node key value height left right => exact h.2.2.1

theorem Balanced.update (hleft : left.Balanced) (hright : right.Balanced)
    (hlow : left.levels ≤ right.levels + 1) (hhigh : right.levels ≤ left.levels + 1) :
    (update key value left right).Balanced := by
  refine ⟨hleft, hright, ?_, hlow, hhigh⟩
  rw [hleft.height_eq, hright.height_eq]
  split <;> omega

/-- Sides that differ by two become balanced, and the tree is at most as high as their node. -/
theorem Balanced.balance (key : κ) (value : ν) (hleft : left.Balanced) (hright : right.Balanced)
    (hlow : left.levels ≤ right.levels + 2) (hhigh : right.levels ≤ left.levels + 2) :
    (balance key value left right).Balanced ∧
      (balance key value left right).levels ≤ 1 + max left.levels right.levels ∧
      (1 + max left.levels right.levels ≤ (balance key value left right).levels ∨
        max left.levels right.levels ≤ (balance key value left right).levels ∧
          (left.levels = right.levels + 2 ∨ right.levels = left.levels + 2)) := by
  have hl := left.levels_nonneg
  have hr := right.levels_nonneg
  unfold AvlTree.balance
  rw [hleft.height_eq, hright.height_eq]
  split_ifs with hheavy hlean hheavy hlean
  · -- left-right: the right side of the left side comes to the top
    obtain _ | ⟨k, v, h, outer, inner⟩ := left
    · cases hlean
    obtain ⟨houter, hinner, -, hspan⟩ := hleft
    rw [leansRight, decide_eq_true_iff, houter.height_eq, hinner.height_eq] at hlean
    have ho := outer.levels_nonneg
    obtain _ | ⟨k', v', h', first, second⟩ := inner
    · rw [levels] at hlean
      omega
    obtain ⟨hfirst, hsecond, -, hspan'⟩ := hinner
    simp only [levels] at *
    refine ⟨.update (houter.update hfirst ?_ ?_) (hsecond.update hright ?_ ?_) ?_ ?_, ?_⟩ <;>
      first | omega | (simp only [rotateLeft, rotateRight, AvlTree.update, levels]; omega)
  · obtain _ | ⟨k, v, h, outer, inner⟩ := left
    · rw [levels] at hheavy
      omega
    obtain ⟨houter, hinner, -, hspan⟩ := hleft
    rw [leansRight, decide_eq_true_iff, houter.height_eq, hinner.height_eq] at hlean
    simp only [levels] at *
    refine ⟨houter.update (hinner.update hright ?_ ?_) ?_ ?_, ?_⟩ <;>
      first | omega | (simp only [rotateRight, AvlTree.update, levels]; omega)
  · -- right-left: the left side of the right side comes to the top
    obtain _ | ⟨k, v, h, inner, outer⟩ := right
    · cases hlean
    obtain ⟨hinner, houter, -, hspan⟩ := hright
    rw [leansLeft, decide_eq_true_iff, houter.height_eq, hinner.height_eq] at hlean
    have ho := outer.levels_nonneg
    obtain _ | ⟨k', v', h', first, second⟩ := inner
    · rw [levels] at hlean
      omega
    obtain ⟨hfirst, hsecond, -, hspan'⟩ := hinner
    simp only [levels] at *
    refine ⟨.update (hleft.update hfirst ?_ ?_) (hsecond.update houter ?_ ?_) ?_ ?_, ?_⟩ <;>
      first | omega | (simp only [rotateLeft, rotateRight, AvlTree.update, levels]; omega)
  · obtain _ | ⟨k, v, h, inner, outer⟩ := right
    · rw [levels] at hheavy
      omega
    obtain ⟨hinner, houter, -, hspan⟩ := hright
    rw [leansLeft, decide_eq_true_iff, houter.height_eq, hinner.height_eq] at hlean
    simp only [levels] at *
    refine ⟨.update (hleft.update hinner ?_ ?_) houter ?_ ?_, ?_⟩ <;>
      first | omega | (simp only [rotateLeft, AvlTree.update, levels]; omega)
  · refine ⟨hleft.update hright (by omega) (by omega), ?_⟩
    simp only [AvlTree.update, levels]
    omega

theorem Balanced.insert {newValue : ν} (h : tree.Balanced) :
    (tree.insert compare newKey newValue).Balanced ∧
      tree.levels ≤ (tree.insert compare newKey newValue).levels ∧
      (tree.insert compare newKey newValue).levels ≤ tree.levels + 1 := by
  induction tree with
  | empty => simp [AvlTree.insert, Balanced, levels]
  | node key value height left right ihl ihr =>
    obtain ⟨hleft, hright, -, hspan⟩ := h
    rw [AvlTree.insert, levels]
    split
    · obtain ⟨hin, hgrown⟩ := ihl hleft
      have hnode := hin.balance key value hright (by omega) (by omega)
      exact ⟨hnode.1, by omega⟩
    · obtain ⟨hin, hgrown⟩ := ihr hright
      have hnode := hleft.balance key value hin (by omega) (by omega)
      exact ⟨hnode.1, by omega⟩

end

end AvlTree
