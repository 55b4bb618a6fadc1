import Mathlib.Data.List.Lex
import Mathlib.Order.Lattice

/-!
# Lexicographic orders and the codes that preserve them

Words over an alphabet are compared lexicographically, each symbol by a rank. A code that writes each
symbol as a word over another alphabet preserves the comparison when the code words of two different
symbols part at a symbol that is ordered as their ranks are.
-/

namespace PrefixCode

open List

variable {α β γ : Type*}

/-! ## First differences -/

/-- The symbols at the first position where two words differ; none when one continues the other. -/
def firstDifference [DecidableEq α] : List α → List α → Option (α × α)
  | a :: as, b :: bs => if a = b then firstDifference as bs else some (a, b)
  | _, _ => none

section

variable [DecidableEq α] [LinearOrder β] {rank : α → β}

/-- The comparison of two words is that of the ranks at their first difference, or that of their
lengths if they have none. -/
theorem map_lt_map_iff (hrank : Function.Injective rank) (as bs : List α) :
    as.map rank < bs.map rank ↔ match firstDifference as bs with
      | some (a, b) => rank a < rank b
      | none => as.length < bs.length := by
  induction as generalizing bs with
  | nil =>
    cases bs with
    | nil => simp [firstDifference]
    | cons b bs => simp [firstDifference]
  | cons a as ih =>
    cases bs with
    | nil => simp [firstDifference]
    | cons b bs =>
      rw [map_cons, map_cons, cons_lt_cons_iff, firstDifference]
      by_cases hab : a = b
      · subst hab
        simp [ih]
      · have hne : rank a ≠ rank b := fun h => hab (hrank h)
        simp [hab, hne]

/-- Two ranks compare two words the same way exactly when they compare the symbols at the first
difference the same way. -/
theorem map_lt_map_iff_map_lt_map [LinearOrder γ] {rank' : α → γ}
    (hrank : Function.Injective rank) (hrank' : Function.Injective rank') (as bs : List α) :
    (as.map rank < bs.map rank ↔ as.map rank' < bs.map rank') ↔
      ∀ a b, firstDifference as bs = some (a, b) → (rank a < rank b ↔ rank' a < rank' b) := by
  rw [map_lt_map_iff hrank, map_lt_map_iff hrank']
  cases firstDifference as bs with
  | none => simp
  | some pair =>
    obtain ⟨a, b⟩ := pair
    constructor
    · rintro h c d hcd
      cases hcd
      exact h
    · intro h
      exact h a b rfl

end

/-! ## Codes -/

/-- The words part at a symbol that is smaller in the first. -/
def Parts [LT β] (x y : List β) : Prop :=
  ∃ p a b s t, x = p ++ a :: s ∧ y = p ++ b :: t ∧ a < b

theorem Parts.head [LT β] {a b : β} (h : a < b) (x y : List β) : Parts (a :: x) (b :: y) :=
  ⟨[], a, b, x, y, rfl, rfl, h⟩

theorem Parts.cons [LT β] {x y : List β} (h : Parts x y) (a : β) : Parts (a :: x) (a :: y) := by
  obtain ⟨p, c, d, s, t, rfl, rfl, hcd⟩ := h
  exact ⟨a :: p, c, d, s, t, rfl, rfl, hcd⟩

/-- Words part at their first symbols, or these are equal and the rest part. -/
theorem Parts.of_cons [PartialOrder β] {a b : β} {x y : List β} (hle : a ≤ b)
    (h : a = b → Parts x y) : Parts (a :: x) (b :: y) := by
  rcases hle.lt_or_eq with hlt | rfl
  · exact Parts.head hlt x y
  · exact (h rfl).cons a

section

variable [LinearOrder β] [LinearOrder γ] {rank : α → β} {code : α → List γ}

theorem Parts.append_lt_append {x y : List γ} (h : Parts x y) (s t : List γ) : x ++ s < y ++ t := by
  obtain ⟨p, a, b, s', t', rfl, rfl, hab⟩ := h
  have hlt : a :: (s' ++ s) < b :: (t' ++ t) := cons_lt_cons_iff.mpr (.inl hab)
  simp only [append_assoc, cons_append]
  exact append_left_lt hlt

variable (hrank : Function.Injective rank)
  (hparts : ∀ a b, rank a < rank b → Parts (code a) (code b)) (hne : ∀ a, code a ≠ [])

include hrank hparts hne

theorem flatMap_lt_flatMap {as bs : List α} (h : as.map rank < bs.map rank) : as.flatMap code < bs.flatMap code := by
  induction as generalizing bs with
  | nil =>
    cases bs with
    | nil => exact absurd h (lt_irrefl _)
    | cons b bs =>
      obtain ⟨c, cs, hc⟩ := exists_cons_of_ne_nil (hne b)
      rw [flatMap_cons, hc]
      simp
  | cons a as ih =>
    cases bs with
    | nil => exact absurd h (by simp)
    | cons b bs =>
      rw [map_cons, map_cons, cons_lt_cons_iff] at h
      rcases h with h | ⟨hab, h⟩
      · exact (hparts a b h).append_lt_append _ _
      · rw [hrank hab]
        exact append_left_lt (ih h)

/-- A code whose words part as their symbols are ranked compares words as the ranks do. -/
theorem flatMap_lt_flatMap_iff (as bs : List α) :
    as.flatMap code < bs.flatMap code ↔ as.map rank < bs.map rank := by
  refine ⟨fun h => ?_, flatMap_lt_flatMap hrank hparts hne⟩
  rcases lt_trichotomy (as.map rank) (bs.map rank) with hlt | heq | hgt
  · exact hlt
  · rw [map_injective_iff.mpr hrank heq] at h
    exact absurd h (lt_irrefl _)
  · exact absurd (h.trans (flatMap_lt_flatMap hrank hparts hne hgt)) (lt_irrefl _)

end

/-! ## Unique reading -/

/-- Two sequences with the same code are equal when no code word is empty and the first symbols can be
read off their codes. -/
theorem eq_of_flatMap_eq {code : α → List γ} {as bs : List α} (hne : ∀ a, code a ≠ [])
    (hread : ∀ a ∈ as, ∀ b ∈ bs, ∀ x y, code a ++ x = code b ++ y → a = b ∧ x = y)
    (h : as.flatMap code = bs.flatMap code) : as = bs := by
  induction as generalizing bs with
  | nil =>
    cases bs with
    | nil => rfl
    | cons b bs =>
      exact absurd (append_eq_nil_iff.mp h.symm).1 (hne b)
  | cons a as ih =>
    cases bs with
    | nil =>
      exact absurd (append_eq_nil_iff.mp h).1 (hne a)
    | cons b bs =>
      obtain ⟨rfl, hrest⟩ := hread a mem_cons_self b mem_cons_self _ _ h
      rw [ih (fun c hc d hd => hread c (mem_cons_of_mem _ hc) d (mem_cons_of_mem _ hd)) hrest]

end PrefixCode
