import Mathlib.Data.List.Induction
import Mathlib.Data.List.Lex
import Neri.Lib.AssocList
import Neri.Stdlib.Json.Grammar

/-!
# Objects, their index and the trees they denote

The search tree of an object holds the keys of its entries, so `put` refuses exactly the keys that
are there. What a reference denotes depends only on the values that are reachable from it.
-/

namespace Neri.Stdlib.Json

open List

variable {v changed : Value} {key : Text} {c ref : Ref} {tree tree' : Tree} {heap : Heap}

/-! ## The comparison of keys -/

theorem compareBytes_swap (left right : List UInt8) :
    compareBytes right left = -compareBytes left right := by
  induction left generalizing right with
  | nil => cases right <;> simp [compareBytes]
  | cons a left ih =>
    cases right with
    | nil => simp [compareBytes]
    | cons b right =>
      rw [compareBytes, compareBytes, ih]
      split_ifs <;> first | rfl | omega | exact absurd (Eq.symm ‹_›) ‹_›

theorem compareBytes_neg_iff (left right : List UInt8) :
    compareBytes left right < 0 ↔ left.map UInt8.toNat < right.map UInt8.toNat := by
  induction left generalizing right with
  | nil => cases right <;> simp [compareBytes] <;> omega
  | cons a left ih =>
    cases right with
    | nil => simp [compareBytes]; omega
    | cons b right =>
      rw [compareBytes, map_cons, map_cons, cons_lt_cons_iff]
      split_ifs with hab
      · simp [hab, ih]
      · have hne : a.toNat ≠ b.toNat := fun h => hab (UInt8.toNat_inj.mp h)
        omega

theorem lawful_compare : LawfulComparison compare where
  eq_zero_iff left right := by
    have hlow := compareBytes_neg_iff left.bytes right.bytes
    have hhigh := compareBytes_neg_iff right.bytes left.bytes
    rw [compareBytes_swap left.bytes] at hhigh
    rw [compare]
    constructor
    · intro h
      have hle := not_lt.mp (mt hhigh.mpr (by omega))
      have hge := not_lt.mp (mt hlow.mpr (by omega))
      exact Text.ext (Utf8.map_toNat_injective (le_antisymm hle hge))
    · rintro rfl
      have hirrefl := mt hlow.mp (lt_irrefl _)
      have hirrefl' := mt hhigh.mp (lt_irrefl _)
      omega
  neg_iff left right := by
    rw [compare, compare, compareBytes_swap left.bytes right.bytes]
    omega
  neg_trans first second third := by
    simp only [compare, compareBytes_neg_iff]
    exact lt_trans

/-! ## The index of an object -/

/-- The keys of the entries, with their values. -/
def Value.pairs (value : Value) : List (Text × Ref) :=
  value.entries.filterMap fun e => e.key.map (·, e.value)

/-- The index of a value holds the keys of its entries. -/
structure Value.Indexed (value : Value) : Prop where
  ordered : value.index.Ordered compare
  balanced : value.index.Balanced
  perm : value.index.toList.Perm value.pairs

theorem Value.indexed_init (tag : String) (content : Text) : (Value.init tag content).Indexed :=
  ⟨AvlTree.ordered_empty, trivial, .nil⟩

theorem Value.Indexed.get_eq_some_iff (h : v.Indexed) (hobject : v.tag = "object") :
    v.get key = some ref ↔ (key, ref) ∈ v.pairs := by
  rw [Value.get, if_neg (not_not.mpr hobject), AvlTree.find?_eq_some_iff lawful_compare h.ordered,
    h.perm.mem_iff]

theorem Value.exists_mem_pairs_iff :
    (∃ ref, (key, ref) ∈ v.pairs) ↔ ∃ e ∈ v.entries, e.key = some key := by
  simp [Value.pairs]

theorem Value.Indexed.get_isSome_iff (h : v.Indexed) (hobject : v.tag = "object") :
    (v.get key).isSome ↔ ∃ e ∈ v.entries, e.key = some key := by
  rw [Option.isSome_iff_exists, ← exists_mem_pairs_iff]
  exact exists_congr fun ref => h.get_eq_some_iff hobject

theorem Value.add_eq_some_iff : v.add c = some changed ↔
      v.tag = "array" ∧ v.entries.length < 1000000 ∧ changed = v.append none c := by
  rw [Value.add]
  simp [and_assoc, eq_comm (a := changed)]

theorem Value.Indexed.put_eq_some_iff (h : v.Indexed) : v.put key c = some changed ↔
      v.tag = "object" ∧ v.entries.length < 1000000 ∧ (∀ e ∈ v.entries, e.key ≠ some key) ∧
        changed = { v.append (some key) c with index := v.index.insert compare key c } := by
  rw [Value.put]
  by_cases htag : v.tag = "object"
  · have hget : (v.get key).isSome ↔ ∃ e ∈ v.entries, e.key = some key :=
      h.get_isSome_iff htag
    simp [htag, hget, and_assoc, eq_comm (a := changed)]
  · simp [htag]

theorem Value.Indexed.add (h : v.Indexed) (hadd : v.add c = some changed) : changed.Indexed := by
  obtain ⟨-, -, rfl⟩ := Value.add_eq_some_iff.mp hadd
  exact ⟨h.ordered, h.balanced, by simpa [Value.pairs, Value.append] using h.perm⟩

theorem Value.Indexed.put (h : v.Indexed)
    (hput : v.put key c = some changed) : changed.Indexed := by
  obtain ⟨-, -, hnew, rfl⟩ := h.put_eq_some_iff.mp hput
  refine ⟨AvlTree.ordered_insert lawful_compare c h.ordered ?_, h.balanced.insert.1, ?_⟩
  · rintro ⟨old, ref⟩ hold rfl
    obtain ⟨e, he, hkey⟩ := exists_mem_pairs_iff.mp ⟨ref, h.perm.mem_iff.mp hold⟩
    exact hnew e he hkey
  · refine (AvlTree.toList_insert_perm compare key c _).trans ((h.perm.cons _).trans ?_)
    simpa [Value.pairs, Value.append] using (perm_append_singleton _ _).symm

/-! ## Sequences of puts -/

/-- The calls of `put` that an object keeps: the first with a key, while there is room. -/
def keptPuts (puts : List (Text × Ref)) : List (Text × Ref) :=
  puts.foldl (fun kept put =>
    if kept.length < 1000000 ∧ kept.lookup put.1 = none then kept ++ [put] else kept) []

/-- The object has the entries, in this order, and its index holds the same ones. -/
structure Value.Keeps (value : Value) (kept : List (Text × Ref)) : Prop where
  tag : value.tag = "object"
  entries : value.entries = kept.map fun (key, c) => ⟨some key, c⟩
  nodup : (kept.map (·.1)).Nodup
  indexed : value.Indexed

section

variable {kept : List (Text × Ref)}

theorem Value.Keeps.get_eq (h : v.Keeps kept) (key : Text) : v.get key = kept.lookup key := by
  refine Option.ext fun ref => ?_
  rw [AssocList.lookup_eq_some_iff h.nodup, h.indexed.get_eq_some_iff h.tag, Value.pairs, h.entries]
  simp

theorem Value.Keeps.put (h : v.Keeps kept) (key : Text) (c : Ref) :
    if kept.length < 1000000 ∧ kept.lookup key = none then
      ∃ changed, v.put key c = some changed ∧ changed.Keeps (kept ++ [(key, c)])
    else v.put key c = none := by
  have hlen : v.entries.length = kept.length := by rw [h.entries, length_map]
  have hfresh : (∀ e ∈ v.entries, e.key ≠ some key) ↔ kept.lookup key = none := by
    rw [h.entries, forall_mem_map, lookup_eq_none_iff]
    simp [eq_comm (a := key)]
  split_ifs with hroom
  · have hput : v.put key c = some _ := h.indexed.put_eq_some_iff.mpr
      ⟨h.tag, hlen ▸ hroom.1, hfresh.mpr hroom.2, rfl⟩
    refine ⟨_, hput, h.tag, ?_, AssocList.nodup_keys_append h.nodup hroom.2, h.indexed.put hput⟩
    simp [Value.append, h.entries]
  · refine Option.eq_none_iff_forall_ne_some.mpr fun changed hput => hroom ?_
    obtain ⟨-, hlt, hnew, -⟩ := h.indexed.put_eq_some_iff.mp hput
    exact ⟨hlen ▸ hlt, hfresh.mp hnew⟩

theorem Value.keeps_putAll (puts : List (Text × Ref)) :
    (Value.object.putAll puts).Keeps (keptPuts puts) := by
  refine foldl_rel (r := Value.Keeps) ⟨rfl, rfl, .nil, Value.indexed_init _ _⟩ ?_
  rintro ⟨key, c⟩ - v kept h
  have hput := h.put key c
  dsimp only
  split_ifs at hput ⊢
  · obtain ⟨changed, hchanged, hkeeps⟩ := hput
    rwa [hchanged]
  · rwa [hput]

theorem keptPuts_append (puts : List (Text × Ref)) (put : Text × Ref) : keptPuts (puts ++ [put]) =
    if (keptPuts puts).length < 1000000 ∧ (keptPuts puts).lookup put.1 = none then
      keptPuts puts ++ [put] else keptPuts puts := by
  rw [keptPuts, foldl_append]
  rfl

/-- Of each key the first put is kept, and none is left out while there is room. -/
theorem keptPuts_lookup (puts : List (Text × Ref)) (key : Text) :
    ((keptPuts puts).length < 1000000 → (keptPuts puts).lookup key = puts.lookup key) ∧
      ∀ ref, (keptPuts puts).lookup key = some ref → puts.lookup key = some ref := by
  induction puts using reverseRecOn with
  | nil => simp [keptPuts]
  | append_singleton puts put ih =>
    obtain ⟨hroomy, hfirst⟩ := ih
    rw [keptPuts_append, lookup_append]
    split_ifs with hroom
    · rw [lookup_append, hroomy hroom.1]
      exact ⟨fun _ => rfl, fun ref h => h⟩
    · refine ⟨fun hlen => ?_, fun ref h => by rw [hfirst ref h, Option.some_or]⟩
      rw [← hroomy hlen]
      by_cases hkey : key = put.1
      · cases hfound : (keptPuts puts).lookup key with
        | none => exact absurd ⟨hlen, hkey ▸ hfound⟩ hroom
        | some ref => rfl
      · rw [lookup_cons, beq_eq_false_iff_ne.mpr hkey, lookup_nil, Option.or_none]

end

/-- The index of an object after any calls of `put`, and what the object gives back. -/
theorem object_index (puts : List (Text × Ref)) :
    let v := Value.object.putAll puts
    (v.index.toList.map (·.1)).Pairwise
        (fun a b => a.bytes.map UInt8.toNat < b.bytes.map UInt8.toNat) ∧
      v.index.Balanced ∧
      (∀ key, v.get key = (keptPuts puts).lookup key) ∧
      (∀ key ref, v.get key = some ref → puts.lookup key = some ref) ∧
      (v.entries.length < 1000000 → ∀ key, v.get key = puts.lookup key) ∧
      (∀ key ∈ puts.map (·.1), ∀ c (heap : Heap) target, heap[target]? = some v →
        heap.put target key c = (false, heap)) ∧
      ∀ (σ : Type) (visit : σ → Option Text → Ref → σ) (start : σ), v.each visit start =
        (keptPuts puts).foldl (fun state put => visit state (some put.1) put.2) start := by
  have h := Value.keeps_putAll puts
  have hlookup := keptPuts_lookup puts
  refine ⟨?_, h.indexed.balanced, h.get_eq, fun key => ?_, fun hlen key => ?_, ?_, fun _ _ _ => ?_⟩
  · exact h.indexed.ordered.imp fun hlt => (compareBytes_neg_iff _ _).mp hlt
  · rw [h.get_eq]
    exact (hlookup key).2
  · rw [h.entries, length_map] at hlen
    rw [h.get_eq, (hlookup key).1 hlen]
  · intro key hkey c heap target hv
    have hput := h.put key c
    rw [if_neg] at hput
    · rw [Heap.put, Heap.update, hv, Option.bind_some, hput]
    · rintro ⟨hlen, hnone⟩
      rw [(hlookup key).1 hlen] at hnone
      exact AssocList.not_mem_keys_of_lookup_eq_none hnone hkey
  · rw [Value.each, h.entries, foldl_map]

/-- A text of `n` letters, for a key. -/
def letters (n : Nat) : Text × Ref := (Text.ofScalars (replicate n 'a'), n)

theorem lookup_letters (n : Nat) : ((range n).map letters).lookup (letters n).1 = none := by
  rw [lookup_eq_none_iff, forall_mem_map]
  intro i hi
  refine bne_iff_ne.mpr fun heq => ?_
  have hlen := congrArg length (Text.ofScalars_injective heq)
  rw [length_replicate, length_replicate] at hlen
  exact absurd (hlen ▸ hi) not_mem_range_self

theorem keptPuts_letters (n : Nat) (h : n ≤ 1000000) :
    keptPuts ((range n).map letters) = (range n).map letters := by
  induction n with
  | zero => rfl
  | succ n ih =>
    rw [range_succ, map_append, map_singleton, keptPuts_append, ih (by omega),
      if_pos ⟨by rw [length_map, length_range]; omega, lookup_letters n⟩]

/-- An object with a million entries is full: one more key is put and not found. -/
theorem object_full :
    let puts := (range 1000001).map letters
    letters 1000000 ∈ puts ∧ (Value.object.putAll puts).get (letters 1000000).1 = none := by
  refine ⟨mem_map_of_mem (mem_range.mpr (by decide)), ?_⟩
  rw [(Value.keeps_putAll _).get_eq, range_succ, map_append, map_singleton,
    keptPuts_append, keptPuts_letters _ (Nat.le_refl _), if_neg fun hroom => ?_, lookup_letters]
  simp at hroom

/-! ## What references denote -/

theorem Value.Shows.imp {c child' : Ref → Tree → Prop}
    (h : v.Shows c tree) (himp : ∀ ref tree, c ref tree → child' ref tree) :
    v.Shows child' tree := by
  cases tree with
  | null => exact h
  | boolean b => exact h
  | string chars => exact h
  | number lexeme => exact h
  | array items =>
    exact ⟨h.1, h.2.imp fun e item he => ⟨he.1, himp _ _ he.2⟩⟩
  | object members =>
    exact ⟨h.1, h.2.imp fun e member he => ⟨he.1, himp _ _ he.2⟩⟩

theorem Heap.DenotesFrom.mono {heap' : Heap} {low low' : Ref} {levels levels' : Nat} (h : heap.DenotesFrom low levels ref tree) (hlow : low' ≤ low)
    (hlevels : levels ≤ levels')
    (hheap : ∀ ref v, low ≤ ref → heap[ref]? = some v → heap'[ref]? = some v) :
    heap'.DenotesFrom low' levels' ref tree := by
  induction levels generalizing levels' ref tree with
  | zero => exact h.elim
  | succ levels ih =>
    obtain ⟨levels', rfl⟩ := Nat.exists_eq_succ_of_ne_zero (show levels' ≠ 0 by omega)
    obtain ⟨href, v, hv, hshows⟩ := h
    refine ⟨Nat.le_trans hlow href, v, hheap ref v href hv, hshows.imp ?_⟩
    exact fun ref tree hchild => ih hchild (by omega)

def Tree.tag : Tree → String
  | .null => "null"
  | .boolean _ => "boolean"
  | .string _ => "string"
  | .number _ => "number"
  | .array _ => "array"
  | .object _ => "object"

theorem Value.Shows.tag {c : Ref → Tree → Prop} (h : v.Shows c tree) : v.tag = tree.tag := by
  cases tree with
  | null => exact h
  | _ => exact h.1

/-- A value shows one tree when each of its children does. -/
theorem Value.Shows.unique {c : Ref → Tree → Prop}
    (hchild : ∀ ref tree tree', c ref tree → c ref tree' → tree = tree')
    (h : v.Shows c tree) (h' : v.Shows c tree') : tree = tree' := by
  have htag : tree.tag = tree'.tag := h.tag.symm.trans h'.tag
  cases tree <;> cases tree' <;> first | (simp [Tree.tag] at htag; done) | skip
  case null.null => rfl
  case boolean.boolean b b' =>
    have hcontent := h.2.symm.trans h'.2
    cases b <;> cases b' <;> first | rfl | exact absurd hcontent (by decide)
  case string.string => rw [Text.ofScalars_injective (h.2.symm.trans h'.2)]
  case number.number => rw [Text.ofScalars_injective (h.2.symm.trans h'.2)]
  case array.array =>
    refine congrArg Tree.array (right_unique_forall₂' ?_ h.2 h'.2)
    rintro e item item' ⟨-, hitem⟩ ⟨-, hitem'⟩
    exact hchild _ _ _ hitem hitem'
  case object.object =>
    refine congrArg Tree.object (right_unique_forall₂' ?_ h.2 h'.2)
    rintro e ⟨key, v⟩ ⟨key', value'⟩ ⟨hkey, hv⟩ ⟨hkey', hvalue'⟩
    have hkeys := Text.ofScalars_injective (Option.some.inj (hkey.symm.trans hkey'))
    exact Prod.ext hkeys (hchild _ _ _ hv hvalue')

theorem Heap.DenotesFrom.unique {low : Ref} {levels : Nat} (h : heap.DenotesFrom low levels ref tree)
    (h' : heap.DenotesFrom low levels ref tree') : tree = tree' := by
  induction levels generalizing ref tree tree' with
  | zero => exact h.elim
  | succ levels ih =>
    obtain ⟨-, v, hv, hshows⟩ := h
    obtain ⟨-, value', hvalue', hshows'⟩ := h'
    obtain rfl := Option.some.inj (hv.symm.trans hvalue')
    refine hshows.unique ?_ hshows'
    exact fun _ _ _ hchild hchild' => ih hchild hchild'

theorem Heap.Denotes.unique
    (h : heap.Denotes ref tree) (h' : heap.Denotes ref tree') : tree = tree' := by
  obtain ⟨levels, h⟩ := h
  obtain ⟨levels', h'⟩ := h'
  have hraise : ∀ {first tree}, heap.DenotesFrom 0 first ref tree → first ≤ max levels levels' →
      heap.DenotesFrom 0 (max levels levels') ref tree := fun hdenotes hle =>
    hdenotes.mono (Nat.le_refl _) hle fun _ _ _ hv => hv
  exact (hraise h (Nat.le_max_left _ _)).unique (hraise h' (Nat.le_max_right _ _))

end Neri.Stdlib.Json
