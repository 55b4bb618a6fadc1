import Neri.Semantic.CFunctionTypes
import Neri.Semantic.Proofs.ReadonlyProofs

/-!
# The components of a C function type are read back

The reader stands in front of the components that are still to be read, and behind them is the last
byte of the text.
-/

namespace Neri.Semantic

open FixedNumeral Neri.Stdlib List

/-- The bytes of components, each behind its length. -/
def componentBytes (components : List Text) : List UInt8 :=
  components.flatMap fun comp => decimal comp.byteLength ++ 58 :: comp.bytes

theorem componentBytes_cons (comp : Text) (comps : List Text) : componentBytes (comp :: comps) =
      decimal comp.byteLength ++ 58 :: (comp.bytes ++ componentBytes comps) := by
  rw [componentBytes, flatMap_cons, append_assoc]
  rfl

theorem bytes_appendComponents (res : Text) (comps : List Text) :
    (appendComponents res comps).bytes = res.bytes ++ componentBytes comps := by
  induction comps generalizing res with
  | nil => exact (append_nil _).symm
  | cons comp comps ih =>
    rw [appendComponents, ih, componentBytes_cons]
    simp only [Text.bytes_append, append_assoc]
    rfl

theorem bytes_semanticCFunctionType (comps : List Text) :
    (semanticCFunctionType comps).bytes = (Text.ofString "cabi|").bytes ++
      (decimal comps.length ++ 124 :: (componentBytes comps ++ [124])) := by
  rw [semanticCFunctionType, Text.bytes_append, bytes_appendComponents]
  simp only [Text.bytes_append, append_assoc]
  rfl

/-! ## Numbers -/

theorem readNumber_digits {length width n cur : Nat} {mark : UInt8}
    (hmark : mark < 48 ∨ mark > 57) (hn : n < 10 ^ width) (h : n ≤ length) (rest : List UInt8) :
    readNumber length mark (digits width n ++ rest) 0 cur =
      readNumber length mark rest n (cur + width) := by
  induction width generalizing n rest with
  | zero =>
    obtain rfl := Nat.lt_one_iff.mp hn
    rfl
  | succ width ih =>
    have hmod := Nat.mod_lt n (show 0 < 10 by decide)
    obtain ⟨hlow, hhigh⟩ := digit_range hmod
    have hne : digit (n % 10) ≠ mark := by
      rintro rfl
      rcases hmark with hlt | hgt
      · exact absurd hlow (UInt8.not_le.mpr hlt)
      · exact absurd hhigh (UInt8.not_le.mpr hgt)
    have hgood : ¬(digit (n % 10) < 48 ∨ digit (n % 10) > 57 ∨ n / 10 > length) :=
      not_or.mpr ⟨UInt8.not_lt.mpr hlow, not_or.mpr ⟨UInt8.not_lt.mpr hhigh, by omega⟩⟩
    have hvalue : n / 10 * 10 + (48 + n % 10 - 48) = n := by omega
    rw [digits, append_assoc, ih (by omega) (by omega), singleton_append, readNumber,
      if_neg hne, if_neg hgood, toNat_digit hmod, hvalue, Nat.add_assoc]

/-- A number in front of the byte that ends it. -/
theorem readNumber_decimal {length n cur : Nat} {mark : UInt8} (hmark : mark < 48 ∨ mark > 57)
    (hn : n ≤ length) (rest : List UInt8) :
    readNumber length mark (decimal n ++ mark :: rest) 0 cur =
      some (n, cur + (decimal n).length) := by
  obtain ⟨hdigits, hlt, -⟩ := digits_decimal n
  have hread : readNumber length mark _ 0 cur = _ := readNumber_digits hmark hlt hn (mark :: rest)
  rw [hdigits] at hread
  rw [hread, readNumber, if_pos rfl]

/-! ## Components -/

theorem readComponents_eq {typeName : Text} {comps res : List Text} {cur : Nat}
    (hne : ∀ comp ∈ comps, comp.bytes ≠ [])
    (h : typeName.bytes.drop cur = componentBytes comps ++ [124]) :
    readComponents typeName comps.length cur res = some (res ++ comps) := by
  induction comps generalizing cur res with
  | nil =>
    have hlength : typeName.byteLength - cur = 1 := by
      rw [Text.byteLength, ← length_drop, h]
      rfl
    rw [length_nil, readComponents, if_neg (by omega), append_nil]
  | cons comp comps ih =>
    obtain ⟨hcomponent, hrest⟩ := forall_mem_cons.mp hne
    have hpos : 0 < comp.byteLength := length_pos_iff.mpr hcomponent
    rw [componentBytes_cons, append_assoc, cons_append, append_assoc] at h
    have hlength : typeName.byteLength - cur = (decimal comp.byteLength).length +
        (comp.byteLength + (componentBytes comps).length + 1) + 1 := by
      rw [Text.byteLength, ← length_drop, h]
      simp only [length_append, length_cons, length_nil, Text.byteLength]
      omega
    -- the cursor behind the length, in front of the component
    obtain ⟨start, hstart⟩ : ∃ start, start = cur + (decimal comp.byteLength).length + 1 :=
      ⟨_, rfl⟩
    have hdrop : typeName.bytes.drop start = comp.bytes ++ (componentBytes comps ++ [124]) := by
      rw [hstart, ← drop_drop, ← drop_drop, h, drop_left]
      rfl
    have hdrop' : typeName.bytes.drop (start + comp.byteLength) =
        componentBytes comps ++ [124] := by
      rw [← drop_drop, hdrop, Text.byteLength, drop_left]
    rw [length_cons, readComponents, if_pos (by omega), h,
      readNumber_decimal (by decide) (by omega)]
    dsimp only
    rw [← hstart, if_neg (by omega), Text.slice_of_drop (by omega) hdrop]
    refine (ih hrest hdrop').trans ?_
    rw [append_assoc, singleton_append]

theorem length_le_componentBytes (comps : List Text) :
    comps.length ≤ (componentBytes comps).length := by
  induction comps with
  | nil => exact Nat.le_refl 0
  | cons comp comps ih =>
    rw [componentBytes_cons]
    simp only [length_append, length_cons]
    omega

theorem semanticIsCFunction_type (comps : List Text) :
    semanticIsCFunction (semanticCFunctionType comps) = true := by
  have hbytes := bytes_semanticCFunctionType comps
  refine Bool.and_eq_true_iff.mpr ⟨?_, semanticEndsWith_append _ _⟩
  rw [bootstrapStartsWith, if_neg (by rw [Text.byteLength, Text.byteLength, hbytes]; simp),
    all_eq_true]
  intro index hindex
  rw [beq_iff_eq, Text.byteAt, hbytes]
  exact getElem?_append_left (mem_range.mp hindex)

/-- The components of a C function type are read back from its name, so that different lists have
different names. -/
theorem semanticCFunctionComponents_type :
    (∀ comps : List Text, comps ≠ [] → (∀ comp ∈ comps, comp.bytes ≠ []) →
      semanticCFunctionComponents (semanticCFunctionType comps) = some comps) ∧
    ∀ comps components' : List Text, comps ≠ [] → components' ≠ [] →
      (∀ comp ∈ comps, comp.bytes ≠ []) →
      (∀ comp ∈ components', comp.bytes ≠ []) →
      semanticCFunctionType comps = semanticCFunctionType components' →
      comps = components' := by
  have hread : ∀ comps : List Text, comps ≠ [] → (∀ comp ∈ comps, comp.bytes ≠ []) →
      semanticCFunctionComponents (semanticCFunctionType comps) = some comps := by
    intro comps hne hall
    have hbytes := bytes_semanticCFunctionType comps
    have hcount := length_le_componentBytes comps
    have hpos := length_pos_iff.mpr hne
    obtain ⟨name, hname⟩ : ∃ name, name = semanticCFunctionType comps := ⟨_, rfl⟩
    have hfive : (Text.ofString "cabi|").bytes.length = 5 := by decide
    have hdrop : name.bytes.drop 5 =
        decimal comps.length ++ 124 :: (componentBytes comps ++ [124]) := by
      rw [hname, hbytes, drop_left' hfive]
    have hdrop' : name.bytes.drop (5 + (decimal comps.length).length + 1) =
        componentBytes comps ++ [124] := by
      rw [← drop_drop, ← drop_drop, hdrop, drop_left]
      rfl
    have hle : comps.length ≤ name.byteLength := by
      have hlength := congrArg length hdrop'
      rw [length_drop, length_append] at hlength
      rw [Text.byteLength]
      omega
    have hread := @readComponents_eq name comps [] _ hall hdrop'
    rw [← hname, semanticCFunctionComponents, if_neg (by rw [hname, semanticIsCFunction_type]; simp),
      hdrop, readNumber_decimal (by decide) hle]
    dsimp only
    rw [if_neg (by omega)]
    exact hread
  refine ⟨hread, fun comps components' hne hne' hall hall' heq => ?_⟩
  have hsome := hread comps hne hall
  rw [heq, hread components' hne' hall'] at hsome
  exact (Option.some.inj hsome).symm

theorem semanticCFunctionComponents_type_pair :
    semanticCFunctionComponents (semanticCFunctionType ["Int", "*é"]) =
      some [Text.ofString "Int", Text.ofString "*é"] :=
  semanticCFunctionComponents_type.1 _ (by simp) (by decide)

end Neri.Semantic
