import Mathlib.Data.List.Induction

/-!
# Insertion sort in place

An array is sorted by moving one value after the other to its place among the values before it: the
larger ones move up by one place, and the value goes where they end. Values that are not ordered
either way stay in the order they came in.
-/

namespace InsertionSort

open List

variable {α : Type*}

/-- The inner loop: the values before a position that are larger move up, and `value` follows them. -/
def shift (less : α → α → Bool) (value : α) : (position : Nat) → List α → List α
  | 0, out => out.set 0 value
  | position + 1, out =>
    match out[position]? with
    | some pre =>
      if less value pre then shift less value position (out.set (position + 1) pre)
      else out.set (position + 1) value
    | none => out

def sortFrom (less : α → α → Bool) : (rounds index : Nat) → List α → List α
  | 0, _, out => out
  | rounds + 1, index, out =>
    match out[index]? with
    | some value => sortFrom less rounds (index + 1) (shift less value index out)
    | none => out

def sort (less : α → α → Bool) (values : List α) : List α := sortFrom less (values.length - 1) 1 values

section

variable {less : α → α → Bool}

/-- A value goes behind the last one before it that is not larger. -/
theorem shift_eq (less : α → α → Bool) (value stale : α) (front rest : List α) :
    ∃ low high, front = low ++ high ∧
      shift less value front.length (front ++ stale :: rest) = low ++ value :: high ++ rest ∧
      (∀ other ∈ high, less value other = true) ∧
      (∀ other ∈ low.getLast?, less value other = false) := by
  induction front using reverseRecOn generalizing stale rest with
  | nil => exact ⟨[], [], rfl, rfl, by simp, by simp⟩
  | append_singleton front last ih =>
    have hlast : (front ++ [last] ++ stale :: rest)[front.length]? = some last := by simp
    rw [length_append, length_singleton, shift, hlast]
    dsimp only
    by_cases hless : less value last = true
    · rw [if_pos hless]
      have hmoved : (front ++ [last] ++ stale :: rest).set (front.length + 1) last =
          front ++ last :: (last :: rest) := by
        simp
      obtain ⟨low, high, rfl, hshift, hhigh, hlow⟩ := ih last (last :: rest)
      refine ⟨low, high ++ [last], by rw [append_assoc], ?_, ?_, hlow⟩
      · rw [hmoved, hshift]
        simp
      · intro other hother
        rcases mem_append.mp hother with hin | hin
        · exact hhigh other hin
        · rw [mem_singleton.mp hin]
          exact hless
    · rw [if_neg hless]
      refine ⟨front ++ [last], [], by rw [append_nil], ?_, by simp, ?_⟩
      · simp
      · intro other hother
        rw [getLast?_concat] at hother
        cases hother
        exact Bool.eq_false_iff.mpr hless

/-- What the order of a sort has to be: the negation of `less` the other way round is transitive. -/
structure IsOrder (less : α → α → Bool) : Prop where
  trans : ∀ a b c, less b a = false → less c b = false → less c a = false
  asymm : ∀ a b, less a b = true → less b a = false

/-- No value comes before one that is less. -/
def Sorted (less : α → α → Bool) (values : List α) : Prop :=
  values.Pairwise fun a b => less b a = false

theorem sorted_insert (horder : IsOrder less) {value : α} {low high : List α}
    (h : Sorted less (low ++ high)) (hhigh : ∀ other ∈ high, less value other = true)
    (hlow : ∀ other ∈ low.getLast?, less value other = false) : Sorted less (low ++ value :: high) := by
  obtain ⟨hsortedLow, hsortedHigh, hacross⟩ := pairwise_append.mp h
  have hbelow : ∀ other ∈ low, less value other = false := by
    intro other hother
    cases hlast : low.getLast? with
    | none =>
      rw [getLast?_eq_none_iff.mp hlast] at hother
      cases hother
    | some last =>
      obtain ⟨pre, rfl⟩ := getLast?_eq_some_iff.mp hlast
      have hvalue := hlow last hlast
      rcases mem_append.mp hother with hin | hin
      · have hle := (pairwise_append.mp hsortedLow).2.2 other hin last (mem_singleton_self last)
        exact horder.trans other last value hle hvalue
      · rw [mem_singleton.mp hin]
        exact hvalue
  refine pairwise_append.mpr ⟨hsortedLow, ?_, ?_⟩
  · refine pairwise_cons.mpr ⟨fun other hother => ?_, hsortedHigh⟩
    exact horder.asymm value other (hhigh other hother)
  · intro a ha b hb
    rcases mem_cons.mp hb with rfl | hb
    · exact hbelow a ha
    · exact hacross a ha b hb

/-- From an index on, with what comes before it sorted. -/
theorem sortFrom_spec (horder : IsOrder less) (rounds : Nat) (front rest : List α)
    (hrounds : rest.length ≤ rounds) (hfront : Sorted less front) :
    (sortFrom less rounds front.length (front ++ rest)).Perm (front ++ rest) ∧
      Sorted less (sortFrom less rounds front.length (front ++ rest)) := by
  induction rounds generalizing front rest with
  | zero =>
    obtain rfl := length_eq_zero_iff.mp (Nat.le_zero.mp hrounds)
    rw [append_nil]
    exact ⟨List.Perm.refl _, hfront⟩
  | succ rounds ih =>
    cases rest with
    | nil =>
      rw [sortFrom, append_nil, getElem?_eq_none_iff.mpr (Nat.le_refl _)]
      exact ⟨List.Perm.refl _, hfront⟩
    | cons value rest =>
      have hat : (front ++ value :: rest)[front.length]? = some value := by simp
      obtain ⟨low, high, rfl, hshift, hhigh, hlow⟩ := shift_eq less value value front rest
      rw [sortFrom, hat]
      dsimp only
      rw [hshift]
      have hlength : (low ++ high).length + 1 = (low ++ value :: high).length := by
        simp only [length_append, length_cons]
        omega
      rw [hlength]
      rw [length_cons] at hrounds
      obtain ⟨hperm, hsorted⟩ := ih (low ++ value :: high) rest (by omega)
        (sorted_insert horder hfront hhigh hlow)
      refine ⟨hperm.trans ?_, hsorted⟩
      have hmiddle : (low ++ value :: high).Perm (low ++ high ++ [value]) := by
        rw [append_assoc]
        exact List.Perm.append_left low (perm_append_singleton value high).symm
      have happend := hmiddle.append_right rest
      rwa [append_assoc (low ++ high)] at happend

theorem sort_spec (horder : IsOrder less) (values : List α) :
    (sort less values).Perm values ∧ Sorted less (sort less values) := by
  cases values with
  | nil => exact ⟨List.Perm.refl _, List.Pairwise.nil⟩
  | cons value rest =>
    exact sortFrom_spec horder rest.length [value] rest (Nat.le_refl _) (pairwise_singleton _ _)

end

end InsertionSort
