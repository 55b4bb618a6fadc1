import Mathlib.Data.List.Basic
import Neri.Lib.BitFold

/-!
# Effect sets

The eight effects of the ABI catalog and the bit sets built from them (`compiler/abi/effects.hk`).
The source keeps the bits in one private integer that starts at zero and is only changed through
`create`, so its value always stays below 256; here that bound is a field of the set.
-/

namespace Neri.Abi

/-- The effects of the ABI catalog, in the order of their bits. -/
inductive Effect where
  | read
  | write
  | mayPanic
  | managedAllocate
  | nativeAllocate
  | safepoint
  | usesUnsafe
  | noReturn
  deriving DecidableEq, Repr

namespace Effect

def bit : Effect → Nat
  | read => 1
  | write => 2
  | mayPanic => 4
  | managedAllocate => 8
  | nativeAllocate => 16
  | safepoint => 32
  | usesUnsafe => 64
  | noReturn => 128

/-- The values that `effect` takes in the loop of `mergedWith`. -/
def all : List Effect :=
  [read, write, mayPanic, managedAllocate, nativeAllocate, safepoint, usesUnsafe, noReturn]

theorem mem_all (e : Effect) : e ∈ all := by
  cases e <;> decide

/-- The place of the bit of an effect. -/
def index (e : Effect) : Nat := e.ctorIdx

theorem bit_eq (e : Effect) : e.bit = 2 ^ e.index := by
  cases e <;> rfl

theorem map_index_all : all.map index = List.range 8 := rfl

theorem index_lt (e : Effect) : e.index < 8 :=
  List.mem_range.mp (map_index_all ▸ List.mem_map_of_mem (mem_all e))

theorem index_inj {e f : Effect} : e.index = f.index ↔ e = f := by
  cases e <;> cases f <;> decide

end Effect

/-- Whether the bit of `effect` is set in `value`, as `has` computes it. -/
def hasBit (value effect : Nat) : Bool :=
  let bucket := value / effect
  bucket - (bucket / 2) * 2 == 1

/-- A set of effects: the integer that the source keeps, with the range it never leaves. -/
structure EffectSet where
  /-- The bits of the effects in the set. -/
  value : Nat
  /-- Only the eight bits of the catalog are ever set. -/
  bound : value < 256
  deriving DecidableEq, Repr

namespace EffectSet

/-- The set that `new EffectSet()` gives. -/
def empty : EffectSet := ⟨0, by decide⟩

/-- `has`: division moves the bit to the front, and the remainder of two reads it. -/
def has (s : EffectSet) (effect : Effect) : Bool := hasBit s.value effect.bit

variable (s : EffectSet)

theorem has_iff (e : Effect) : s.has e = true ↔ s.value / e.bit % 2 = 1 := by
  simp only [has, hasBit, beq_iff_eq]
  omega

theorem has_eq_testBit (e : Effect) : s.has e = s.value.testBit e.index := by
  rw [Bool.eq_iff_iff, has_iff, e.bit_eq, Nat.testBit_eq_decide_div_mod_eq, decide_eq_true_iff]

/-- `with`: the set with one more effect. -/
def withEffect (s : EffectSet) (effect : Effect) : EffectSet :=
  if h : s.has effect then s
  else ⟨s.value + effect.bit, by
    have hb := s.bound
    rw [has_iff] at h
    cases effect <;> simp only [Effect.bit] at h ⊢ <;> omega⟩

/-- `without`: the set with one effect less. -/
def withoutEffect (s : EffectSet) (effect : Effect) : EffectSet :=
  if s.has effect then ⟨s.value - effect.bit, by have := s.bound; omega⟩
  else s

def withSafepoint (s : EffectSet) : EffectSet := s.withEffect .safepoint

def withUnsafe (s : EffectSet) : EffectSet := s.withEffect .usesUnsafe

def withoutUnsafe (s : EffectSet) : EffectSet := s.withoutEffect .usesUnsafe

def withoutNoReturn (s : EffectSet) : EffectSet := s.withoutEffect .noReturn

/-- The loop of `mergedWith` over the effects of `other` that `s` misses. -/
def mergedValue (s other : EffectSet) : Nat :=
  Effect.all.foldl (fun value effect =>
    if other.has effect && !s.has effect then value + effect.bit else value) s.value

/-- `sameAs` compares the bits. -/
def sameAs (s other : EffectSet) : Bool := s.value == other.value

@[simp]
theorem sameAs_iff (s other : EffectSet) : s.sameAs other = true ↔ s = other := by
  cases s; cases other; simp [sameAs]

/-! ## The bits of a set -/

theorem testBit_of_le {i : Nat} (h : 8 ≤ i) : s.value.testBit i = false :=
  Nat.testBit_lt_two_pow (Nat.lt_of_lt_of_le s.bound (Nat.pow_le_pow_right Nat.two_pos h))

theorem ext_has {s u : EffectSet} (h : ∀ e, s.has e = u.has e) : s = u := by
  have hvalue : s.value = u.value := by
    refine Nat.eq_of_testBit_eq fun i => ?_
    rcases Nat.lt_or_ge i 8 with hlt | hge
    · rw [← List.mem_range, ← Effect.map_index_all] at hlt
      obtain ⟨e, -, rfl⟩ := List.mem_map.mp hlt
      rw [← has_eq_testBit, ← has_eq_testBit, h]
    · rw [s.testBit_of_le hge, u.testBit_of_le hge]
  cases s; cases u; simp_all

theorem has_withEffect (e f : Effect) : (s.withEffect e).has f = (s.has f || decide (f = e)) := by
  unfold withEffect
  split
  · rename_i h
    by_cases hfe : f = e
    · subst hfe; simp [h]
    · simp [hfe]
  · rename_i h
    rw [Bool.not_eq_true, has_eq_testBit] at h
    rw [has_eq_testBit, has_eq_testBit]
    show (s.value + e.bit).testBit f.index = _
    rw [e.bit_eq, BitFold.testBit_add_two_pow h]
    simp only [Effect.index_inj]

theorem has_withoutEffect (e f : Effect) :
    (s.withoutEffect e).has f = (s.has f && !decide (f = e)) := by
  unfold withoutEffect
  split
  · rename_i h
    rw [has_eq_testBit] at h
    rw [has_eq_testBit, has_eq_testBit]
    show (s.value - e.bit).testBit f.index = _
    rw [e.bit_eq, BitFold.testBit_sub_two_pow h]
    simp only [Effect.index_inj]
  · rename_i h
    by_cases hfe : f = e
    · subst hfe; simp [h]
    · simp [hfe]

/-! ## Merging -/

variable (other : EffectSet)

theorem testBit_mergedValue (i : Nat) : (s.mergedValue other).testBit i = (s.value.testBit i ||
      Effect.all.any fun e => (other.has e && !s.has e) && decide (i = e.index)) := by
  rw [← BitFold.testBit_foldl_add (Effect.map_index_all ▸ List.nodup_range) fun e _ hadd => ?_]
  · simp only [mergedValue, Effect.bit_eq]
  · rw [← has_eq_testBit]
    simp_all

theorem mergedValue_lt : s.mergedValue other < 256 := by
  show s.mergedValue other < 2 ^ 8
  refine Nat.lt_pow_two_of_testBit _ fun i hi => ?_
  rw [testBit_mergedValue, s.testBit_of_le hi, Bool.false_or, List.any_eq_false]
  intro e _
  have := e.index_lt
  simp [show i ≠ e.index by omega]

/-- `mergedWith`: the union of two sets. -/
def mergedWith (s other : EffectSet) : EffectSet :=
  if s.mergedValue other == s.value then s
  else ⟨s.mergedValue other, mergedValue_lt s other⟩

theorem value_mergedWith : (s.mergedWith other).value = s.mergedValue other := by
  unfold mergedWith
  split
  · rename_i h
    exact (beq_iff_eq.1 h).symm
  · rfl

theorem has_mergedWith (e : Effect) : (s.mergedWith other).has e = (s.has e || other.has e) := by
  have hany : (Effect.all.any fun f => (other.has f && !s.has f) && decide (e.index = f.index)) =
      (other.has e && !s.has e) := by
    rw [Bool.eq_iff_iff, List.any_eq_true]
    simp [Effect.index_inj, Effect.mem_all]
  rw [has_eq_testBit, value_mergedWith, testBit_mergedValue, hany, ← has_eq_testBit]
  cases s.has e <;> simp

/-! ## Effect sets are ordered by inclusion -/

instance : LE EffectSet := ⟨fun s u => ∀ e, s.has e = true → u.has e = true⟩

instance : SemilatticeSup EffectSet where
  le_refl := fun _ _ h => h
  le_trans := fun _ _ _ h1 h2 e h => h2 e (h1 e h)
  le_antisymm := fun _ _ h1 h2 => ext_has fun e => Bool.eq_iff_iff.2 ⟨h1 e, h2 e⟩
  sup := mergedWith
  le_sup_left := fun s u e h => by rw [has_mergedWith, h]; rfl
  le_sup_right := fun s u e h => by rw [has_mergedWith, h]; exact Bool.or_true _
  sup_le := fun s u w h1 h2 e h => by
    rw [has_mergedWith, Bool.or_eq_true] at h
    exact h.elim (h1 e) (h2 e)

theorem mergedWith_eq_sup (s u : EffectSet) : s.mergedWith u = s ⊔ u := rfl

/-- The number of effects that a set still misses. -/
def missing (s : EffectSet) : Nat := (Effect.all.filter fun e => !s.has e).length

theorem missing_sublist {s u : EffectSet} (h : s ≤ u) :
    (Effect.all.filter fun e => !u.has e).Sublist (Effect.all.filter fun e => !s.has e) := by
  apply List.monotone_filter_right
  intro e he
  simp only [Bool.not_eq_true'] at he ⊢
  by_contra hs
  rw [h e (by simpa using hs)] at he
  cases he

theorem missing_mono {s u : EffectSet} (h : s ≤ u) : u.missing ≤ s.missing :=
  (missing_sublist h).length_le

theorem missing_lt {s u : EffectSet} (h : s ≤ u) (hne : u ≠ s) : u.missing < s.missing := by
  obtain ⟨e, hu, hs⟩ : ∃ e, u.has e = true ∧ s.has e ≠ true := by
    by_contra hall
    push Not at hall
    exact hne (le_antisymm hall h)
  refine lt_of_le_of_ne (missing_mono h) fun hlen => ?_
  have heq := (missing_sublist h).eq_of_length hlen
  have hmem : e ∈ Effect.all.filter fun e => !s.has e := by
    simp [List.mem_filter, Effect.mem_all, hs]
  rw [← heq, List.mem_filter, hu] at hmem
  simp at hmem

end EffectSet

end Neri.Abi
