import Mathlib.Algebra.Order.Group.Nat
import Mathlib.Data.Nat.Find

/-!
# Slots and overrides along a line with bounded lookup

Positions on a line declare a name, or do not. A declaration may be hidden from the positions below
it. Two lookups go up the line from a position, for at most `bound` steps: one takes the nearest
declaration that is not hidden, which the position then overrides, and one takes the farthest
declaration as the slot of the position. The two agree exactly when no declaration hides within reach
of another, and reach is transitive.
-/

namespace BoundedSlots

variable {i j s t : Nat}

/-- One name on a line of positions. -/
structure Declarations where
  /-- The number of steps that a lookup goes. -/
  bound : Nat
  declared : Nat → Prop
  hidden : Nat → Prop
  /-- Behind the top nothing is declared. -/
  top : Nat
  lt_top : ∀ i, declared i → i < top

namespace Declarations

variable (d : Declarations)

/-- `j` lies above `i` and the lookups of `i` see it. -/
def InReach (i j : Nat) : Prop := i < j ∧ j ≤ i + d.bound

/-- `i` overrides `j`: the nearest declaration in reach that is not hidden. -/
def Overrides (i j : Nat) : Prop :=
  d.declared i ∧ d.declared j ∧ ¬d.hidden j ∧ d.InReach i j ∧
    ∀ k, i < k → k < j → d.declared k → d.hidden k

/-- `s` is the slot of `i`: the farthest declaration in reach, or `i` itself. -/
def Slot (i s : Nat) : Prop :=
  (s = i ∨ d.InReach i s) ∧ d.declared s ∧ ∀ k, d.InReach i k → d.declared k → k ≤ s

/-- What an overriding declaration shares with the one it overrides: it is not hidden itself. -/
def Accepted : Prop := ∀ i j, d.Overrides i j → ¬d.hidden i

/-- The slots tell apart what the overrides tell apart. -/
def SlotsAgree : Prop :=
  ∀ i j s t, i < j → d.declared i → d.declared j → d.Slot i s → d.Slot j t →
    (s = t ↔ Relation.TransGen d.Overrides i j)

/-- No declaration is hidden from a declaration that reaches it. -/
def NoneHidden : Prop := ∀ i j, d.declared i → d.declared j → d.InReach i j → ¬d.hidden j

/-- What is reached through a declaration in between is reached. -/
def ReachTransitive : Prop :=
  ∀ i j k, d.declared i → d.declared j → d.declared k → d.InReach i j → d.InReach j k →
    d.InReach i k

variable {d}

theorem exists_slot (hi : d.declared i) : ∃ s, d.Slot i s := by
  classical
  -- among the positions up to `i + bound`, the last one that declares the name
  have hlast : ∀ n, ∃ s, (s = i ∨ i < s ∧ s ≤ i + n) ∧ d.declared s ∧
      ∀ k, i < k → k ≤ i + n → d.declared k → k ≤ s := by
    intro n
    induction n with
    | zero => exact ⟨i, .inl rfl, hi, fun k h₁ h₂ _ => by omega⟩
    | succ n ih =>
      obtain ⟨s, hs, hdecl, hmax⟩ := ih
      by_cases hnext : d.declared (i + (n + 1))
      · exact ⟨i + (n + 1), .inr ⟨by omega, le_rfl⟩, hnext, fun k _ h _ => h⟩
      · refine ⟨s, by omega, hdecl, fun k h₁ h₂ hk => ?_⟩
        have hne : k ≠ i + (n + 1) := fun h => hnext (h ▸ hk)
        exact hmax k h₁ (by omega) hk
  obtain ⟨s, hs, hdecl, hmax⟩ := hlast d.bound
  exact ⟨s, hs, hdecl, fun k hk => hmax k hk.1 hk.2⟩

/-- A visible declaration in reach is overridden, or one before it is. -/
theorem exists_overrides (hi : d.declared i) (hj : d.declared j)
    (hvisible : ¬d.hidden j) (hreach : d.InReach i j) : ∃ q, q ≤ j ∧ d.Overrides i q := by
  classical
  have hex : ∃ q, d.declared q ∧ ¬d.hidden q ∧ i < q := ⟨j, hj, hvisible, hreach.1⟩
  obtain ⟨hdecl, hvis, hlt⟩ := Nat.find_spec hex
  have hle : Nat.find hex ≤ j := Nat.find_min' hex ⟨hj, hvisible, hreach.1⟩
  refine ⟨Nat.find hex, hle, hi, hdecl, hvis, ⟨hlt, hle.trans hreach.2⟩, ?_⟩
  intro k hik hk hdk
  by_contra hvk
  exact Nat.find_min hex hk ⟨hdk, hvk, hik⟩

theorem Slot.range (hs : d.Slot i s) : i ≤ s ∧ s ≤ i + d.bound := by
  rcases hs.1 with rfl | hreach
  · omega
  · exact ⟨hreach.1.le, hreach.2⟩

theorem Slot.farthest (hs : d.Slot i s) {k : Nat} (hk : d.declared k)
    (hrange : i ≤ k ∧ k ≤ i + d.bound) : k ≤ s := by
  rcases hrange.1.lt_or_eq with hlt | rfl
  · exact hs.2.2 k ⟨hlt, hrange.2⟩ hk
  · exact hs.range.1

theorem Slot.unique (hs : d.Slot i s) (ht : d.Slot i t) : s = t :=
  le_antisymm (ht.farthest hs.2.1 hs.range) (hs.farthest ht.2.1 ht.range)

/-- What overrides something, through any number of steps, is not hidden; nor is what is
overridden. -/
theorem not_hidden_of_transGen (haccepted : d.Accepted)
    (h : Relation.TransGen d.Overrides i j) : ¬d.hidden i ∧ ¬d.hidden j := by
  induction h with
  | single h => exact ⟨haccepted _ _ h, h.2.2.1⟩
  | tail _ h ih => exact ⟨ih.1, h.2.2.1⟩

/-- Where reach is transitive and nothing is hidden, overriding is reaching. -/
theorem transGen_overrides_iff (hhidden : d.NoneHidden) (htrans : d.ReachTransitive)
    (hi : d.declared i) (hj : d.declared j) :
    Relation.TransGen d.Overrides i j ↔ d.InReach i j := by
  constructor
  · intro h
    induction h with
    | single h => exact h.2.2.2.1
    | tail _ h ih => exact htrans _ _ _ hi h.1 h.2.1 (ih h.1) h.2.2.2.1
  · intro hreach
    induction hn : j - i using Nat.strong_induction_on generalizing i with
    | _ n ih =>
      obtain ⟨q, hle, hover⟩ := exists_overrides hi hj (hhidden i j hi hj hreach) hreach
      have hq := hover.2.2.2.1
      rcases hle.lt_or_eq with hlt | rfl
      · have hb := hreach.2
        have hqreach : d.InReach q j := ⟨hlt, by have := hq.1; omega⟩
        exact .head hover (ih (j - q) (by have := hq.1; omega) hover.2.1 hqreach rfl)
      · exact .single hover

/-- Where reach is transitive, sharing a slot is reaching. -/
theorem slot_eq_iff (htrans : d.ReachTransitive) (hij : i < j)
    (hi : d.declared i) (hj : d.declared j) (hs : d.Slot i s) (ht : d.Slot j t) :
    s = t ↔ d.InReach i j := by
  have hsr := hs.range
  have htr := ht.range
  constructor
  · rintro rfl
    exact ⟨hij, by omega⟩
  · intro hreach
    have hit : t ≤ i + d.bound := by
      rcases ht.1 with rfl | hjt
      · exact hreach.2
      · exact (htrans i j t hi hj ht.2.1 hreach hjt).2
    have hts : t ≤ s := hs.farthest ht.2.1 ⟨by omega, hit⟩
    exact le_antisymm (ht.farthest hs.2.1 ⟨by omega, by omega⟩) hts

/-- If slots and overrides agree, a declaration has the slot of every declaration it reaches. -/
theorem slot_eq_of_inReach (haccepted : d.Accepted) (hagree : d.SlotsAgree)
    (hi : d.declared i) (hj : d.declared j) (hreach : d.InReach i j) (hs : d.Slot i s)
    (ht : d.Slot j t) : s = t := by
  -- the higher positions first: above `i` the statement is known
  induction hn : d.top - i using Nat.strong_induction_on generalizing i j s t with
  | _ n ih =>
    rcases ht.1 with rfl | hjt
    · -- nothing is declared above `j` in its reach, so `j` is the farthest that `i` sees
      have hle := hs.2.2 t hreach hj
      have hsr := hs.range
      have hlt := hreach.1
      exact le_antisymm (ht.farthest hs.2.1 ⟨hle, by omega⟩) hle
    · -- `j` overrides something, so it is visible and `i` overrides it or something before it
      obtain ⟨u, hu⟩ := exists_slot ht.2.1
      have hgt := hreach.1
      have htu := ih (d.top - j) (by have := d.lt_top j hj; omega) hj ht.2.1 hjt ht hu rfl
      have hover := (hagree j t t u hjt.1 hj ht.2.1 ht hu).mp htu
      have hvisible := (not_hidden_of_transGen haccepted hover).1
      obtain ⟨q, hqj, hiq⟩ := exists_overrides hi hj hvisible hreach
      obtain ⟨v, hv⟩ := exists_slot hiq.2.1
      have hiqlt := hiq.2.2.2.1.1
      have hsv : s = v := (hagree i q s v hiqlt hi hiq.2.1 hs hv).mpr (.single hiq)
      rcases hqj.lt_or_eq with hlt | rfl
      · have hqreach : d.InReach q j := ⟨hlt, by have := hreach.2; omega⟩
        have := ih (d.top - q) (by have := d.lt_top q hiq.2.1; omega) hiq.2.1 hj hqreach hv ht rfl
        exact hsv.trans this
      · exact hsv.trans (hv.unique ht)

theorem slotsAgree_iff (haccepted : d.Accepted) :
    d.SlotsAgree ↔ d.NoneHidden ∧ d.ReachTransitive := by
  constructor
  · intro hagree
    have hslots := fun i j s t hi hj hreach hs ht =>
      slot_eq_of_inReach haccepted hagree (i := i) (j := j) (s := s) (t := t) hi hj hreach hs ht
    refine ⟨?_, ?_⟩
    · intro i j hi hj hreach
      obtain ⟨s, hs⟩ := exists_slot hi
      obtain ⟨t, ht⟩ := exists_slot hj
      have hst := hslots i j s t hi hj hreach hs ht
      have hover := (hagree i j s t hreach.1 hi hj hs ht).mp hst
      exact (not_hidden_of_transGen haccepted hover).2
    · intro i j k hi hj hk hij hjk
      obtain ⟨s, hs⟩ := exists_slot hi
      obtain ⟨t, ht⟩ := exists_slot hj
      have hst : s = t := hslots i j s t hi hj hij hs ht
      have hkt := ht.2.2 k hjk hk
      have hsr := hs.range
      exact ⟨hij.1.trans hjk.1, by omega⟩
  · rintro ⟨hhidden, htrans⟩ i j s t hij hi hj hs ht
    rw [slot_eq_iff htrans hij hi hj hs ht, transGen_overrides_iff hhidden htrans hi hj]

end Declarations

end BoundedSlots
