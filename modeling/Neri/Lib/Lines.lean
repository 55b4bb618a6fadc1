import Mathlib.Data.List.Nodup
import Mathlib.Logic.Relation

/-!
# Lines of a partial function

A partial function `next` sends an element to its successor: a class to its base class, a scope to
the scope around it. `Line next a l` says that from `a` it leads through the elements of `l`, nearest
first, and ends. A loop that follows `next` for a bounded number of steps sees `l.take n`.
-/

namespace Lines

open List

variable {α : Type} {next : α → Option α}

/-- From `a`, `next` leads through the elements of the list and ends there. -/
inductive Line (next : α → Option α) : α → List α → Prop
  | last {a : α} (h : next a = none) : Line next a []
  | step {a b : α} {l : List α} (h : next a = some b) (rest : Line next b l) : Line next a (b :: l)

/-- The first `n` elements that `next` leads to. -/
def up (next : α → Option α) : Nat → α → List α
  | 0, _ => []
  | n + 1, a =>
    match next a with
    | none => []
    | some b => b :: up next n b

variable {a b : α} {l : List α} {i : Nat}

theorem Line.up_eq (h : Line next a l) (n : Nat) : up next n a = l.take n := by
  induction n generalizing a l with
  | zero => rw [take_zero]; rfl
  | succ n ih =>
    cases h with
    | last h => simp [up, h]
    | step h rest => simp [up, h, ih rest]

theorem Line.unique {l' : List α} (h : Line next a l) (h' : Line next a l') : l = l' := by
  induction h generalizing l' with
  | last h =>
    cases h' with
    | last _ => rfl
    | step h₁ _ => rw [h] at h₁; cases h₁
  | step h _ ih =>
    cases h' with
    | last h₁ => rw [h] at h₁; cases h₁
    | step h₁ rest =>
      rw [h] at h₁
      cases h₁
      rw [ih rest]

theorem Line.drop (h : Line next a l) (hb : (a :: l)[i]? = some b) : Line next b (l.drop i) := by
  induction h generalizing i with
  | last h =>
    cases i with
    | zero =>
      cases hb
      exact .last h
    | succ i => simp at hb
  | @step a c l h rest ih =>
    cases i with
    | zero =>
      cases hb
      exact .step h rest
    | succ i =>
      have hline := ih hb
      rwa [drop_succ_cons]

theorem Line.nodup (h : Line next a l) : (a :: l).Nodup := by
  rw [nodup_iff_getElem?_ne_getElem?]
  intro i j hij hj heq
  obtain ⟨b, hb⟩ : ∃ b, (a :: l)[j]? = some b := ⟨_, getElem?_eq_getElem hj⟩
  have hlengths := congrArg length ((h.drop (heq.trans hb)).unique (h.drop hb))
  rw [length_drop, length_drop] at hlengths
  rw [length_cons] at hj
  omega

/-- What an element sees of the line it stands on. -/
theorem Line.up_getElem? (h : Line next a l) (hb : (a :: l)[i]? = some b) (n q : Nat) :
    (up next n b)[q]? = if q < n then (a :: l)[i + 1 + q]? else none := by
  rw [(h.drop hb).up_eq, getElem?_take, getElem?_drop]
  have hindex : i + 1 + q = (i + q) + 1 := by omega
  rw [hindex, getElem?_cons_succ]

theorem mem_up_iff (h : Line next a l) (hb : (a :: l)[i]? = some b) (n : Nat) (c : α) :
    c ∈ up next n b ↔ ∃ j, i < j ∧ j ≤ i + n ∧ (a :: l)[j]? = some c := by
  rw [mem_iff_getElem?]
  constructor
  · rintro ⟨q, hq⟩
    rw [h.up_getElem? hb] at hq
    split at hq
    · exact ⟨i + 1 + q, by omega, by omega, hq⟩
    · cases hq
  · rintro ⟨j, hij, hjn, hj⟩
    refine ⟨j - (i + 1), ?_⟩
    rw [h.up_getElem? hb, if_pos (by omega)]
    have hindex : i + 1 + (j - (i + 1)) = j := by omega
    rw [hindex, hj]

theorem Line.mem_iff_transGen (h : Line next a l) :
    b ∈ l ↔ Relation.TransGen (fun x y => next x = some y) a b := by
  induction h with
  | last h =>
    refine iff_of_false not_mem_nil ?_
    intro hreach
    obtain ⟨c, hc, -⟩ := Relation.TransGen.head'_iff.mp hreach
    rw [h] at hc
    cases hc
  | @step a c l h _ ih =>
    rw [mem_cons, ih]
    constructor
    · rintro (rfl | hreach)
      · exact .single h
      · exact .head h hreach
    · intro hreach
      obtain ⟨d, hd, hrest⟩ := Relation.TransGen.head'_iff.mp hreach
      rw [h] at hd
      cases hd
      exact Relation.reflTransGen_iff_eq_or_transGen.mp hrest

theorem Line.transGen_of_lt {c : α} (h : Line next a l) {j : Nat} (hij : i < j)
    (hb : (a :: l)[i]? = some b) (hc : (a :: l)[j]? = some c) :
    Relation.TransGen (fun x y => next x = some y) b c := by
  refine (h.drop hb).mem_iff_transGen.mp (mem_iff_getElem?.mpr ⟨j - (i + 1), ?_⟩)
  obtain ⟨k, rfl⟩ : ∃ k, j = i + k + 1 := ⟨j - (i + 1), by omega⟩
  have hindex : i + (i + k + 1 - (i + 1)) = i + k := by omega
  rw [getElem?_drop, hindex, ← hc, getElem?_cons_succ]

theorem find?_eq_some_of_unique {p : α → Bool} (ha : a ∈ l) (hp : p a = true)
    (hunique : ∀ b ∈ l, p b = true → b = a) : l.find? p = some a := by
  cases hfind : l.find? p with
  | none => exact absurd hp (find?_eq_none.mp hfind a ha)
  | some b => rw [hunique b (mem_of_find?_eq_some hfind) (find?_some hfind)]

section Scan

variable {β : Type} (select : α → Option β)

theorem findSome?_eq_some_iff_getElem? {v : β} : l.findSome? select = some v ↔
      ∃ q : Nat, l[q]?.bind select = some v ∧ ∀ p < q, l[p]?.bind select = none := by
  rw [findSome?_eq_some_iff]
  constructor
  · rintro ⟨before, a, after, rfl, ha, hnone⟩
    refine ⟨before.length, by simpa using ha, fun p hp => ?_⟩
    rw [getElem?_append_left hp, getElem?_eq_getElem hp]
    exact hnone _ (getElem_mem hp)
  · rintro ⟨q, hq, hmin⟩
    obtain ⟨a, ha, hv⟩ := Option.bind_eq_some_iff.mp hq
    obtain ⟨hlt, rfl⟩ := List.getElem_of_getElem? ha
    refine ⟨l.take q, l[q], l.drop (q + 1), by simp, hv, fun a ha => ?_⟩
    obtain ⟨p, hp, rfl⟩ := mem_take_iff_getElem.mp ha
    have hnone := hmin p (by omega)
    rwa [getElem?_eq_getElem (by omega)] at hnone

/-- A fold that keeps the selected elements ends with the last of them. -/
theorem foldl_select_cases (l : List α) (r : β) :
    (l.foldl (fun r a => (select a).getD r) r = r ∧ ∀ q : Nat, l[q]?.bind select = none) ∨
      ∃ (q : Nat) (v : β), l[q]?.bind select = some v ∧ l.foldl (fun r a => (select a).getD r) r = v ∧
        ∀ p, q < p → l[p]?.bind select = none := by
  induction l generalizing r with
  | nil => exact .inl ⟨rfl, fun q => by simp⟩
  | cons a l ih =>
    rw [foldl_cons]
    rcases ih ((select a).getD r) with ⟨hfold, hnone⟩ | ⟨q, v, hq, hfold, hnone⟩
    · cases ha : select a with
      | none =>
        rw [ha] at hfold
        refine .inl ⟨hfold, fun q => ?_⟩
        cases q with
        | zero => simpa using ha
        | succ q => simpa using hnone q
      | some v =>
        rw [ha] at hfold
        refine .inr ⟨0, v, by simpa using ha, hfold, fun p hp => ?_⟩
        cases p with
        | zero => omega
        | succ p => simpa using hnone p
    · refine .inr ⟨q + 1, v, by simpa using hq, hfold, fun p hp => ?_⟩
      cases p with
      | zero => omega
      | succ p => simpa using hnone p (by omega)

end Scan

end Lines
