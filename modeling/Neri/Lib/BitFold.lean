import Mathlib.Algebra.Order.Ring.Nat

/-!
# Sets of bits in a number

A number is a set of places. Adding the power of a place that is not in the set puts it in, taking the
power of a place in it away takes it out, and a loop that adds powers at different places adds them
all.
-/

namespace BitFold

variable {x n : Nat}

/-- Adding a bit that is not there sets it and changes no other. -/
theorem testBit_add_two_pow (h : x.testBit n = false) (i : Nat) :
    (x + 2 ^ n).testBit i = (x.testBit i || decide (i = n)) := by
  induction n generalizing x i with
  | zero =>
    rw [Nat.testBit_zero, decide_eq_false_iff_not] at h
    cases i with
    | zero =>
      simp only [Nat.testBit_zero, decide_true, Bool.or_true, decide_eq_true_iff]
      omega
    | succ i =>
      have hhalf : (x + 2 ^ 0) / 2 = x / 2 := by omega
      rw [Nat.testBit_add_one, hhalf, Nat.testBit_add_one]
      simp
  | succ n ih =>
    rw [Nat.testBit_add_one] at h
    cases i with
    | zero => simp [Nat.pow_succ]
    | succ i =>
      have hhalf : (x + 2 ^ (n + 1)) / 2 = x / 2 + 2 ^ n := by omega
      rw [Nat.testBit_add_one, hhalf, ih h, Nat.testBit_add_one]
      simp

/-- Taking a bit away that is there clears it and changes no other. -/
theorem testBit_sub_two_pow (h : x.testBit n = true) (i : Nat) :
    (x - 2 ^ n).testBit i = (x.testBit i && !decide (i = n)) := by
  have hle : 2 ^ n ≤ x := Nat.ge_two_pow_of_testBit h
  have hclear : (x - 2 ^ n).testBit n = false := by
    have hflip := Nat.testBit_two_pow_add_eq (x - 2 ^ n) n
    rw [Nat.add_sub_cancel' hle, h] at hflip
    simpa using hflip.symm
  have hback := testBit_add_two_pow hclear i
  rw [Nat.sub_add_cancel hle] at hback
  rw [hback]
  by_cases hi : i = n
  · simp [hi, hclear]
  · simp [hi]

/-- A loop that adds the powers of some of the items, whose places differ and are not there yet. -/
theorem testBit_foldl_add {α : Type*} {place : α → Nat} {adds : α → Bool} {items : List α}
    (hnodup : (items.map place).Nodup)
    (hnew : ∀ a ∈ items, adds a = true → x.testBit (place a) = false) (i : Nat) :
    (items.foldl (fun value a => if adds a then value + 2 ^ place a else value) x).testBit i =
      (x.testBit i || items.any fun a => adds a && decide (i = place a)) := by
  induction items generalizing x with
  | nil => simp
  | cons first rest ih =>
    rw [List.map_cons, List.nodup_cons] at hnodup
    rw [List.foldl_cons, List.any_cons]
    split
    · rename_i hadds
      have hbit := testBit_add_two_pow (hnew first List.mem_cons_self hadds)
      rw [ih hnodup.2 fun a ha hadd => ?_, hbit, hadds, Bool.true_and, Bool.or_assoc]
      rw [hbit, hnew a (List.mem_cons_of_mem _ ha) hadd, Bool.false_or, decide_eq_false_iff_not]
      exact fun heq => hnodup.1 (heq ▸ List.mem_map_of_mem ha)
    · rename_i hadds
      rw [Bool.not_eq_true] at hadds
      rw [ih hnodup.2 fun a ha => hnew a (List.mem_cons_of_mem _ ha), hadds, Bool.false_and,
        Bool.false_or]

end BitFold
