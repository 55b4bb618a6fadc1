import Neri.Lib.BoundedLoop
import Neri.Stdlib.Text

/-!
# Byte buffers (`byte_buffer.hk`)

A buffer has a storage of bytes, of which it has used the first ones, and never grows past its limit.
When an append needs more than the storage holds, the storage doubles until it suffices, up to the
limit. An append that returns `false` leaves the buffer as it was; here it has no result.
-/

namespace Neri.Stdlib

structure ByteBuffer where
  bytes : List UInt8
  used : Nat
  maximum : Nat
  used_le : used ≤ bytes.length
  capacity_le : bytes.length ≤ maximum

namespace ByteBuffer

def create (limit : Int) (initialCapacity : Int := 16) : Option ByteBuffer :=
  if h : limit < 0 ∨ limit > 134217728 ∨ initialCapacity < 0 then none
  else
    let capacity := if initialCapacity > limit then limit else initialCapacity
    some {
      bytes := List.replicate capacity.toNat 0
      used := 0
      maximum := limit.toNat
      used_le := Nat.zero_le _
      capacity_le := by
        rw [List.length_replicate]
        show (if initialCapacity > limit then limit else initialCapacity).toNat ≤ limit.toNat
        split <;> omega }

def snapshot (buffer : ByteBuffer) : List UInt8 := buffer.bytes.take buffer.used

def text (buffer : ByteBuffer) : Option Text := Text.fromBytes buffer.snapshot

/-- The loop of `reserve` that finds the new capacity. -/
def growth (required maximum : Nat) (h : required ≤ maximum) :
    BoundedLoop { capacity : Nat // 0 < capacity } Nat where
  body capacity :=
    if hless : capacity.val < required then
      .inl (if capacity.val > maximum / 2 then ⟨maximum, by omega⟩
        else ⟨capacity.val * 2, by have := capacity.property; omega⟩)
    else .inr capacity.val
  measure capacity := required - capacity.val
  decreases := by
    rintro ⟨capacity, hpos⟩ next hbody
    dsimp only at hbody ⊢
    split at hbody
    · obtain rfl := Sum.inl.inj hbody
      split <;> (dsimp only; omega)
    · cases hbody

theorem growth_run {required maximum : Nat} (h : required ≤ maximum)
    {capacity : { capacity : Nat // 0 < capacity }} (hcapacity : capacity.val ≤ maximum) :
    required ≤ (growth required maximum h).run capacity ∧
      capacity.val ≤ (growth required maximum h).run capacity ∧
      (growth required maximum h).run capacity ≤ maximum := by
  refine BoundedLoop.run_invariant
    (fun current => capacity.val ≤ current.val ∧ current.val ≤ maximum)
    (fun result => required ≤ result ∧ capacity.val ≤ result ∧ result ≤ maximum)
    ?_ ?_ ⟨Nat.le_refl _, hcapacity⟩
  · rintro ⟨current, hpos⟩ next hinv hbody
    dsimp only [growth] at hbody
    split at hbody
    · obtain rfl := Sum.inl.inj hbody
      dsimp only at hinv
      split <;> (dsimp only; omega)
    · cases hbody
  · rintro ⟨current, hpos⟩ result hinv hbody
    dsimp only [growth] at hbody
    split at hbody
    · cases hbody
    · obtain rfl := Sum.inr.inj hbody
      dsimp only at hinv
      omega

def startCapacity (buffer : ByteBuffer) : { capacity : Nat // 0 < capacity } :=
  if h : buffer.bytes.length = 0 then ⟨1, by omega⟩ else ⟨buffer.bytes.length, by omega⟩

theorem startCapacity_cases (buffer : ByteBuffer) :
    buffer.bytes.length = 0 ∧ buffer.startCapacity.val = 1 ∨
      buffer.startCapacity.val = buffer.bytes.length := by
  unfold startCapacity
  split
  · rename_i h
    exact .inl ⟨h, rfl⟩
  · exact .inr rfl

/-- The storage that `reserve` goes on with. -/
def grown (buffer : ByteBuffer) (required : Nat) (h : required ≤ buffer.maximum) : List UInt8 :=
  if required ≤ buffer.bytes.length then buffer.bytes
  else
    let capacity := (growth required buffer.maximum h).run buffer.startCapacity
    buffer.bytes ++ List.replicate (capacity - buffer.bytes.length) 0

theorem length_grown (buffer : ByteBuffer) (required : Nat) (h : required ≤ buffer.maximum) :
    required ≤ (buffer.grown required h).length ∧
      (buffer.grown required h).length ≤ buffer.maximum := by
  have hcapacity := buffer.capacity_le
  have hstart := buffer.startCapacity_cases
  unfold grown
  split
  · omega
  · have hgrowth := growth_run h (show buffer.startCapacity.val ≤ buffer.maximum by omega)
    rw [List.length_append, List.length_replicate]
    omega

def reserve (buffer : ByteBuffer) (additional : Nat) : Option ByteBuffer :=
  if h : additional > buffer.maximum - buffer.used then none
  else
    have hrequired : buffer.used + additional ≤ buffer.maximum := by
      have := buffer.used_le
      have := buffer.capacity_le
      omega
    some {
      bytes := buffer.grown (buffer.used + additional) hrequired
      used := buffer.used
      maximum := buffer.maximum
      used_le := by
        have := (buffer.length_grown (buffer.used + additional) hrequired).1
        omega
      capacity_le := (buffer.length_grown (buffer.used + additional) hrequired).2 }

/-- Values that are copied behind the used bytes. -/
def copyIn (buffer : ByteBuffer) (values : List UInt8)
    (h : buffer.used + values.length ≤ buffer.bytes.length) : ByteBuffer where
  bytes := buffer.bytes.take buffer.used ++ values ++
    buffer.bytes.drop (buffer.used + values.length)
  used := buffer.used + values.length
  maximum := buffer.maximum
  used_le := by
    have := buffer.used_le
    simp only [List.length_append, List.length_take, List.length_drop]
    omega
  capacity_le := by
    have := buffer.capacity_le
    simp only [List.length_append, List.length_take, List.length_drop]
    omega

/-- What every append does: it reserves the room and copies the values. -/
def store (buffer : ByteBuffer) (values : List UInt8) : Option ByteBuffer :=
  (buffer.reserve values.length).bind fun reserved =>
    if h : reserved.used + values.length ≤ reserved.bytes.length then some (reserved.copyIn values h)
    else none

def append (buffer : ByteBuffer) (value : UInt8) : Option ByteBuffer := buffer.store [value]

def appendSlice (buffer : ByteBuffer) (values : List UInt8) (offset count : Nat) :
    Option ByteBuffer :=
  if offset > values.length || count > values.length - offset then none
  else buffer.store ((values.drop offset).take count)

def appendBytes (buffer : ByteBuffer) (values : List UInt8) : Option ByteBuffer :=
  buffer.appendSlice values 0 values.length

def appendText (buffer : ByteBuffer) (value : Text) : Option ByteBuffer := buffer.store value.bytes

end ByteBuffer

end Neri.Stdlib
