import Mathlib.Data.Nat.Digits.Defs

/-!
# Records of decimal fields of fixed width

A field is a number written with a fixed count of digits, followed by a byte that ends it. Such
texts are ordered byte by byte as the lists of their numbers are, since fields in one place have
the same length.
-/

namespace FixedNumeral

open List

def digit (n : Nat) : UInt8 := .ofNat (48 + n)

def decimal (n : Nat) : List UInt8 :=
  if n = 0 then [48] else ((Nat.digits 10 n).map digit).reverse

/-- The last `width` digits of a number. -/
def digits : (width n : Nat) → List UInt8
  | 0, _ => []
  | width + 1, n => digits width (n / 10) ++ [digit (n % 10)]

variable {width n m : Nat}

theorem toNat_digit (h : n < 10) : (digit n).toNat = 48 + n := by
  rw [digit, UInt8.toNat_ofNat']
  omega

@[simp] theorem length_digits : (digits width n).length = width := by
  induction width generalizing n with
  | zero => rfl
  | succ width ih => rw [digits, length_append, ih, length_singleton]

theorem digit_range (h : n < 10) : 48 ≤ digit n ∧ digit n ≤ 57 := by
  rw [UInt8.le_iff_toNat_le, UInt8.le_iff_toNat_le, toNat_digit h]
  exact ⟨Nat.le_add_right .., Nat.add_le_add_left (Nat.le_of_lt_succ h) 48⟩

theorem digits_range : ∀ byte ∈ digits width n, 48 ≤ byte ∧ byte ≤ 57 := by
  induction width generalizing n with
  | zero => simp [digits]
  | succ width ih =>
    rw [digits, forall_mem_append, forall_mem_singleton]
    exact ⟨ih, digit_range (Nat.mod_lt _ (by decide))⟩

theorem digits_zero : digits width 0 = replicate width 48 := by
  induction width with
  | zero => rfl
  | succ width ih => exact (congrArg (· ++ [48]) ih).trans replicate_succ'.symm

theorem decimal_of_lt (h : n < 10) : decimal n = [digit n] := by
  rw [decimal]
  split_ifs with hzero
  · rw [hzero]
    rfl
  · rw [Nat.digits_of_lt 10 n hzero h, map_singleton, reverse_singleton]

theorem decimal_of_le (h : 10 ≤ n) : decimal n = decimal (n / 10) ++ [digit (n % 10)] := by
  rw [decimal, decimal, if_neg (by omega), if_neg (by omega), Nat.digits_def' (by decide) (by omega),
    map_cons, reverse_cons]

/-- A number that is filled up with zeros to the width. -/
theorem replicate_append_decimal (hwidth : 0 < width) (h : n < 10 ^ width) :
    replicate (width - (decimal n).length) 48 ++ decimal n = digits width n := by
  induction width generalizing n with
  | zero => omega
  | succ width ih =>
    rcases Nat.lt_or_ge n 10 with hlt | hge
    · rw [decimal_of_lt hlt, digits, Nat.div_eq_of_lt hlt, Nat.mod_eq_of_lt hlt, digits_zero]
      rfl
    · have hdiv : n / 10 < 10 ^ width := by
        omega
      have hpos : 0 < width := by
        rcases Nat.eq_zero_or_pos width with rfl | hpos
        · omega
        · exact hpos
      rw [digits, ← ih hpos hdiv, decimal_of_le hge, length_append, length_singleton,
        Nat.add_sub_add_right, append_assoc]

theorem digits_decimal (n : Nat) :
    digits (decimal n).length n = decimal n ∧ n < 10 ^ (decimal n).length ∧ decimal n ≠ [] := by
  induction n using Nat.strongRecOn with
  | ind n ih =>
    rcases Nat.lt_or_ge n 10 with hlt | hge
    · rw [decimal_of_lt hlt, length_singleton, digits, Nat.mod_eq_of_lt hlt]
      exact ⟨rfl, hlt, cons_ne_nil _ _⟩
    · obtain ⟨hdigits, hn, -⟩ := ih (n / 10) (by omega)
      rw [decimal_of_le hge, length_append, length_singleton, digits, hdigits]
      exact ⟨rfl, by omega, by simp⟩

theorem decimal_range : ∀ byte ∈ decimal n, 48 ≤ byte ∧ byte ≤ 57 := by
  rw [← (digits_decimal n).1]
  exact digits_range

theorem decimal_ascii : ∀ byte ∈ decimal n, byte.toNat ≤ 127 := by
  intro byte hbyte
  have hle := UInt8.le_iff_toNat_le.mp (decimal_range byte hbyte).2
  exact hle.trans (by decide)

theorem append_lt_append_iff {α : Type} [LT α] [Std.Irrefl (fun a b : α => a < b)]
    {xs ys xs' ys' : List α} (h : xs.length = ys.length) :
    xs ++ xs' < ys ++ ys' ↔ xs < ys ∨ xs = ys ∧ xs' < ys' := by
  induction xs generalizing ys with
  | nil =>
    obtain rfl := length_eq_zero_iff.mp h.symm
    simp
  | cons x xs ih =>
    obtain ⟨y, ys, rfl⟩ := exists_cons_of_length_eq_add_one h.symm
    rw [cons_append, cons_append, cons_lt_cons_iff, cons_lt_cons_iff,
      ih (Nat.succ.inj h), cons.injEq]
    tauto

theorem digit_lt_iff (hn : n < 10) (hm : m < 10) : digit n < digit m ↔ n < m := by
  rw [UInt8.lt_iff_toNat_lt, toNat_digit hn, toNat_digit hm]
  omega

theorem digits_inj (hn : n < 10 ^ width) (hm : m < 10 ^ width) :
    digits width n = digits width m ↔ n = m := by
  refine ⟨fun h => ?_, fun h => by rw [h]⟩
  induction width generalizing n m with
  | zero => omega
  | succ width ih =>
    obtain ⟨hrest, hlast⟩ := append_inj' h rfl
    have hdiv := ih (by omega) (by omega) hrest
    have hmod := congrArg UInt8.toNat (cons.inj hlast).1
    rw [toNat_digit (Nat.mod_lt _ (by decide)), toNat_digit (Nat.mod_lt _ (by decide))] at hmod
    omega

theorem digits_lt_iff (hn : n < 10 ^ width) (hm : m < 10 ^ width) :
    digits width n < digits width m ↔ n < m := by
  induction width generalizing n m with
  | zero => simp [digits, Nat.lt_one_iff.mp hn, Nat.lt_one_iff.mp hm]
  | succ width ih =>
    rw [digits, digits, append_lt_append_iff (by simp), cons_lt_cons_iff,
      digit_lt_iff (Nat.mod_lt _ (by decide)) (Nat.mod_lt _ (by decide)),
      ih (by omega) (by omega), digits_inj (by omega) (by omega)]
    simp only [not_lt_nil, and_false, or_false]
    omega

/-! ## Records -/

/-- The text of a record: for each field the digits of its number and the byte behind it. -/
def text : (layout : List (Nat × UInt8)) → (values : List Nat) → List UInt8
  | (width, mark) :: layout, value :: values => digits width value ++ mark :: text layout values
  | _, _ => []

/-- The numbers have at most as many digits as their fields. -/
def Fits (layout : List (Nat × UInt8)) (values : List Nat) : Prop :=
  List.Forall₂ (fun field value => value < 10 ^ field.1) layout values

theorem text_lt_iff {layout : List (Nat × UInt8)} {values values' : List Nat}
    (h : Fits layout values) (h' : Fits layout values') :
    text layout values < text layout values' ↔ values < values' := by
  induction h generalizing values' with
  | nil =>
    cases h'
    simp
  | @cons field value layout values hvalue _ ih =>
    obtain - | ⟨hvalue', h'⟩ := h'
    rw [text, text, append_lt_append_iff (by simp), digits_lt_iff hvalue hvalue',
      digits_inj hvalue hvalue', cons_lt_cons_iff, cons_lt_cons_iff, ih h']
    simp [UInt8.lt_irrefl]

end FixedNumeral
