import Neri.Stdlib.ByteBuffer

/-!
# What a byte buffer holds

To its users a buffer is the sequence of the bytes that were appended, with a limit on its length:
the storage and its growth do not show.
-/

namespace Neri.Stdlib.ByteBuffer

variable {b : ByteBuffer} {values : List UInt8}

theorem length_snapshot (b : ByteBuffer) : b.snapshot.length = b.used := by
  have := b.used_le
  rw [snapshot, List.length_take]
  omega

theorem used_le_maximum (b : ByteBuffer) : b.used ≤ b.maximum :=
  Nat.le_trans b.used_le b.capacity_le

theorem create_eq_none_iff {limit initialCapacity : Int} : create limit initialCapacity = none ↔
      limit < 0 ∨ limit > 134217728 ∨ initialCapacity < 0 := by
  unfold create
  split
  · rename_i h
    exact ⟨fun _ => h, fun _ => rfl⟩
  · rename_i h
    exact ⟨fun hnone => absurd hnone (by simp), fun hlimit => absurd hlimit h⟩

theorem create_eq_some {limit initialCapacity : Int} (h : create limit initialCapacity = some b) :
    b.snapshot = [] ∧ (b.maximum : Int) = limit := by
  unfold create at h
  split at h
  · cases h
  · cases h
    exact ⟨rfl, Int.toNat_of_nonneg (by omega)⟩

theorem grown_take (b : ByteBuffer) (required : Nat) (h : required ≤ b.maximum) :
    (b.grown required h).take b.used = b.snapshot := by
  unfold grown
  split
  · rfl
  · exact List.take_append_of_le_length b.used_le

theorem reserve_of_le {additional : Nat} (h : b.used + additional ≤ b.maximum) :
    ∃ reserved, b.reserve additional = some reserved ∧
      reserved.snapshot = b.snapshot ∧ reserved.used = b.used ∧
      reserved.maximum = b.maximum ∧ b.used + additional ≤ reserved.bytes.length := by
  unfold reserve
  rw [dif_neg (by omega)]
  refine ⟨_, rfl, ?_, rfl, rfl, (length_grown _ _ _).1⟩
  exact grown_take b (b.used + additional) h

theorem snapshot_copyIn (b : ByteBuffer) (values : List UInt8)
    (h : b.used + values.length ≤ b.bytes.length) :
    (b.copyIn values h).snapshot = b.snapshot ++ values := by
  have hlength : (b.bytes.take b.used ++ values).length = b.used + values.length := by
    rw [List.length_append, List.length_take]
    omega
  show ((b.bytes.take b.used ++ values) ++ _).take (b.used + values.length) = _
  rw [← hlength, List.take_left]
  rfl

theorem store_of_lt (h : b.maximum < b.used + values.length) : b.store values = none := by
  have hmaximum := b.used_le_maximum
  rw [store, reserve, dif_pos (by omega)]
  rfl

theorem store_of_le (h : b.used + values.length ≤ b.maximum) :
    ∃ stored, b.store values = some stored ∧ stored.snapshot = b.snapshot ++ values ∧
      stored.maximum = b.maximum := by
  obtain ⟨reserved, hreserve, hsnapshot, hused, hmaximum, hroom⟩ := reserve_of_le h
  rw [store, hreserve, Option.bind_some, dif_pos (by omega)]
  exact ⟨_, rfl, by rw [snapshot_copyIn, hsnapshot], hmaximum⟩

theorem store_eq_some {stored : ByteBuffer} (h : b.store values = some stored) :
    stored.snapshot = b.snapshot ++ values ∧ stored.maximum = b.maximum := by
  by_cases hfits : b.used + values.length ≤ b.maximum
  · obtain ⟨stored', hstore, hstored⟩ := store_of_le hfits
    obtain rfl := Option.some.inj (h.symm.trans hstore)
    exact hstored
  · rw [store_of_lt (by omega)] at h
    cases h

theorem appendBytes_eq (b : ByteBuffer) (values : List UInt8) :
    b.appendBytes values = b.store values := by
  unfold appendBytes appendSlice
  simp

end Neri.Stdlib.ByteBuffer
