import Mathlib.Algebra.Order.Ring.Nat

/-!
# Layouts of aggregates

How the members of a record are placed in memory: each at the next multiple of its alignment, or all
of them at the start where they are overlaid, and the whole padded to a multiple of the greatest
alignment. Rounding up is done by a division or, for a power of two, by clearing the low bits of a
machine word; both give the same number.
-/

namespace AggregateLayout

/-! ## Rounding up -/

/-- The least multiple of `alignment` that is not below `value`. -/
def alignUp (value alignment : Nat) : Nat :=
  (value + alignment - 1) / alignment * alignment

theorem le_alignUp {value alignment : Nat} (h : 0 < alignment) :
    value ≤ alignUp value alignment := by
  have hdiv := Nat.div_add_mod (value + alignment - 1) alignment
  have hmod := Nat.mod_lt (value + alignment - 1) h
  unfold alignUp
  rw [Nat.mul_comm]
  omega

theorem alignUp_lt {value alignment : Nat} (h : 0 < alignment) :
    alignUp value alignment < value + alignment := by
  have hle : alignUp value alignment ≤ value + alignment - 1 := Nat.div_mul_le_self _ _
  omega

/-- Clearing the low `k` bits of a word rounds it down to a multiple of `2 ^ k`. -/
theorem toNat_and_not_mask {w k : Nat} (x : BitVec w) :
    (x &&& ~~~(BitVec.ofNat w (2 ^ k - 1))).toNat = x.toNat / 2 ^ k * 2 ^ k := by
  have hshift : x &&& ~~~(BitVec.ofNat w (2 ^ k - 1)) = x >>> k <<< k := by
    apply BitVec.eq_of_getLsbD_eq
    intro i hi
    rw [BitVec.getLsbD_and, BitVec.getLsbD_not, BitVec.getLsbD_ofNat]
    by_cases hik : i < k
    · simp [hi, hik]
    · have hsum : k + (i - k) = i := by omega
      simp [hi, hik, hsum]
  have hle : x.toNat / 2 ^ k * 2 ^ k ≤ x.toNat := Nat.div_mul_le_self _ _
  rw [hshift, BitVec.toNat_shiftLeft, BitVec.toNat_ushiftRight, Nat.shiftRight_eq_div_pow,
    Nat.shiftLeft_eq]
  exact Nat.mod_eq_of_lt (lt_of_le_of_lt hle x.isLt)

/-! ## Layouts -/

/-- The place a value takes, and where the members of an aggregate start. -/
structure Layout where
  size : Nat
  alignment : Nat
  offsets : List Nat
  deriving DecidableEq, Repr

namespace Layout

def empty : Layout := { size := 0, alignment := 1, offsets := [] }

/-- Where a member is placed behind those that are there. -/
def nextOffset (overlaid : Bool) (whole : Layout) (alignment : Nat) : Nat :=
  if overlaid then 0 else alignUp whole.size alignment

/-- One more member. -/
def place (overlaid : Bool) (whole member : Layout) : Layout :=
  { size := max whole.size (whole.nextOffset overlaid member.alignment + member.size)
    alignment := max whole.alignment member.alignment
    offsets := whole.offsets ++ [whole.nextOffset overlaid member.alignment] }

/-- The padding behind the last member. -/
def close (whole : Layout) : Layout :=
  { whole with size := alignUp whole.size whole.alignment }

def placeAll (overlaid : Bool) (members : List Layout) : Layout :=
  members.foldl (place overlaid) empty

theorem placeAll_append (overlaid : Bool) (ms : List Layout) (member : Layout) :
    placeAll overlaid (ms ++ [member]) = place overlaid (placeAll overlaid ms) member := by
  simp [placeAll]

theorem size_le_close {whole : Layout} (h : 0 < whole.alignment) : whole.size ≤ whole.close.size :=
  le_alignUp h

theorem size_le_foldl_place (overlaid : Bool) (ms : List Layout) (whole : Layout) :
    whole.size ≤ (ms.foldl (place overlaid) whole).size := by
  induction ms generalizing whole with
  | nil => exact Nat.le_refl _
  | cons member ms ih => exact (le_max_left _ _).trans (ih (place overlaid whole member))

theorem size_le_placeAll_append (overlaid : Bool) (ms others : List Layout) :
    (placeAll overlaid ms).size ≤ (placeAll overlaid (ms ++ others)).size := by
  rw [placeAll, placeAll, List.foldl_append]
  exact size_le_foldl_place overlaid others _

/-- The greatest alignment is that of a member or of the empty aggregate. -/
theorem foldl_place_alignment {P : Nat → Prop} (overlaid : Bool) (ms : List Layout)
    (whole : Layout) (h : P whole.alignment) (hmembers : ∀ m ∈ ms, P m.alignment) :
    P (ms.foldl (place overlaid) whole).alignment := by
  induction ms generalizing whole with
  | nil => exact h
  | cons member ms ih =>
    apply ih
    · rcases max_choice whole.alignment member.alignment with hmax | hmax
      · rw [show (place overlaid whole member).alignment = whole.alignment from hmax]
        exact h
      · rw [show (place overlaid whole member).alignment = member.alignment from hmax]
        exact hmembers member List.mem_cons_self
    · intro m hm
      exact hmembers m (List.mem_cons_of_mem _ hm)

end Layout

end AggregateLayout
