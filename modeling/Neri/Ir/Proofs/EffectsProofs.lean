import Mathlib.Data.List.NodupEquivFin
import Neri.Ir.Effects
import Neri.Lib.Propagation

/-!
# Effect inference computes the least closed assignment

The draining loop is an instance of the worklist of `Neri.Lib.Propagation`: the nodes are the
functions of the module, an edge leads from a callee to each of its callers, and the transfer drops
the effect of not returning. The safepoint of a function with a callee belongs to the base.
-/

namespace Neri.Ir

open Neri.Abi Propagation List Function

/-! ## The edge loop -/

section EdgeLoop

variable {m : IrModule}

/-- The calls that a list of functions makes, by their names. -/
def callsOf (parallel : Bool) (fs : List (FunctionId m)) : List (FunctionId m × String) :=
  fs.flatMap fun f => (effectCallees parallel (m.functions.get f)).map fun name => (f, name)

theorem foldl_addEffectEdge_spec (calls : List (FunctionId m × String))
    (g : EffectGraph m.functions.length) :
    let r := calls.foldl (fun g call => addEffectEdge m call.1 g call.2) g
    (∀ callee x, x ∈ r.effectCallers callee ↔ x ∈ g.effectCallers callee ∨
      ∃ call ∈ calls, x = call.1 ∧ irEffectFunction m call.2 = some callee) ∧
    (∀ x e, (r.effects x).has e = true ↔ (g.effects x).has e = true ∨ (e = .safepoint ∧
        ∃ callee, ∃ call ∈ calls, x = call.1 ∧ irEffectFunction m call.2 = some callee)) := by
  induction calls generalizing g with
  | nil => simp
  | cons call calls ih =>
    obtain ⟨hcallers, heffects⟩ := ih (addEffectEdge m call.1 g call.2)
    refine ⟨fun callee x => ?_, fun x e => ?_⟩
    · rw [foldl_cons, hcallers, addEffectEdge]
      cases hres : irEffectFunction m call.2 with
      | none => simp [hres]
      | some c =>
        by_cases hc : callee = c
        · subst hc
          simp [hres]
          tauto
        · have hc' : ¬ c = callee := fun h => hc h.symm
          simp [hres, update_of_ne hc, hc']
    · rw [foldl_cons, heffects, addEffectEdge]
      cases hres : irEffectFunction m call.2 with
      | none => simp [hres]
      | some c =>
        by_cases hx : x = call.1
        · subst hx
          simp [hres, EffectSet.withSafepoint, EffectSet.has_withEffect]
          tauto
        · simp [hres, hx]

variable {parallel : Bool}

theorem effectGraph_eq : effectGraph m parallel =
    (callsOf parallel (finRange m.functions.length)).foldl
      (fun g call => addEffectEdge m call.1 g call.2)
      { effects := fun f => directEffects parallel (m.functions.get f)
        effectCallers := fun _ => [] } := by
  rw [callsOf, foldl_flatMap]
  simp only [foldl_map]
  rfl

theorem mem_effectCallers_effectGraph (callee caller : FunctionId m) :
    caller ∈ (effectGraph m parallel).effectCallers callee ↔
      EffectEdge m parallel callee caller := by
  rw [effectGraph_eq, (foldl_addEffectEdge_spec _ _).1]
  simp [callsOf, EffectEdge]

theorem has_effects_effectGraph (f : FunctionId m) (e : Effect) :
    ((effectGraph m parallel).effects f).has e = true ↔
      (directEffects parallel (m.functions.get f)).has e = true ∨
        (e = .safepoint ∧ ∃ callee, EffectEdge m parallel callee f) := by
  rw [effectGraph_eq, (foldl_addEffectEdge_spec _ _).2]
  simp [callsOf, EffectEdge]

/-- The demands of the pass are those of the propagation that starts from the edge loop's
effects. -/
theorem closed_iff_effectClosed (E : FunctionId m → EffectSet) :
    Closed (effectGraph m parallel).effects (EffectEdge m parallel) EffectSet.withoutNoReturn E ↔
      EffectClosed m parallel E := by
  constructor
  · intro h
    refine ⟨fun f e he => ?_, fun callee caller hedge e he => ?_⟩
    · exact h.base_le f e ((has_effects_effectGraph f e).mpr (.inl he))
    · rw [EffectSet.withSafepoint, EffectSet.has_withEffect] at he
      rcases Bool.or_eq_true_iff.mp he with he | he
      · exact h.edge_le callee caller hedge e he
      · have hsafe : e = .safepoint := by simpa using he
        exact h.base_le caller e ((has_effects_effectGraph caller e).mpr
          (.inr ⟨hsafe, callee, hedge⟩))
  · intro h
    refine ⟨fun f e he => ?_, fun callee caller hedge e he => ?_⟩
    · rcases (has_effects_effectGraph f e).mp he with he | ⟨hsafe, callee, hedge⟩
      · exact h.direct f e he
      · refine h.call callee f hedge e ?_
        rw [EffectSet.withSafepoint, EffectSet.has_withEffect, hsafe]
        simp
    · refine h.call callee caller hedge e ?_
      rw [EffectSet.withSafepoint, EffectSet.has_withEffect, he]
      rfl

end EdgeLoop

/-! ## The draining loop -/

namespace EffectQueue

variable {n : Nat}

/-- The flag of a function says that it waits in the queue. -/
def FlagsOk (s : EffectQueue n) : Prop := ∀ f, s.effectQueued f = true → f ∈ s.queue

theorem visitCaller_spec (p : EffectSet) {s : EffectQueue n} (hflags : s.FlagsOk) (caller : Fin n) :
    (s.visitCaller p caller).effects = update s.effects caller (s.effects caller ⊔ p) ∧
      (∀ f ∈ s.queue, f ∈ (s.visitCaller p caller).queue) ∧ (s.visitCaller p caller).FlagsOk ∧
      (s.effects caller ⊔ p = s.effects caller ∨ caller ∈ (s.visitCaller p caller).queue) := by
  simp only [visitCaller, EffectSet.mergedWith_eq_sup, EffectSet.sameAs_iff]
  by_cases hsame : s.effects caller ⊔ p = s.effects caller
  · rw [if_pos hsame]
    exact ⟨by rw [hsame, update_eq_self], fun _ h => h, hflags, .inl hsame⟩
  · rw [if_neg hsame]
    by_cases hq : s.effectQueued caller = true
    · rw [if_pos hq]
      exact ⟨rfl, fun _ h => h, hflags, .inr (hflags caller hq)⟩
    · rw [if_neg hq]
      refine ⟨rfl, fun _ h => mem_append_left _ h, fun f hf => ?_, .inr (by simp)⟩
      by_cases hfc : f = caller
      · subst hfc
        simp
      · have hf' : s.effectQueued f = true := by simpa [update_of_ne hfc] using hf
        exact mem_append_left _ (hflags f hf')

variable {base : Fin n → EffectSet} {edge : Fin n → Fin n → Prop}

/-- The invariant of the edge loop of `current`, with the callers in `rest` still to be visited and
`p` the effects being propagated. A recursive function can gain effects while its own callers are
visited; it is then back in the queue. -/
structure VisitInv (base : Fin n → EffectSet) (edge : Fin n → Fin n → Prop) (current : Fin n)
    (p : EffectSet) (rest : List (Fin n)) (s : EffectQueue n) : Prop where
  inv : Inv base edge EffectSet.withoutNoReturn
    (fun a b => a ∈ s.queue ∨ (a = current ∧ b ∈ rest)) s.effects
  flags : s.FlagsOk
  source : (s.effects current).withoutNoReturn = p ∨ current ∈ s.queue

theorem VisitInv.visitCaller {cur caller : Fin n} {p : EffectSet} {rest : List (Fin n)}
    {s : EffectQueue n} (h : VisitInv base edge cur p (caller :: rest) s)
    (hp : ∀ w, Closed base edge EffectSet.withoutNoReturn w → p ≤ w caller) :
    VisitInv base edge cur p rest (s.visitCaller p caller) := by
  obtain ⟨heff, hmono, hflags, hraised⟩ := visitCaller_spec p h.flags caller
  refine ⟨?_, hflags, ?_⟩
  · rw [heff]
    refine h.inv.raise caller p hp (fun c _ => hraised.imp_right .inl) ?_
    rintro a c _ (hqueue | ⟨rfl, hc⟩)
    · exact .inl (.inl (hmono a hqueue))
    · rcases mem_cons.mp hc with rfl | hc
      · rcases h.source with hsrc | hsrc
        · exact .inr ⟨rfl, hsrc.le.trans le_sup_right⟩
        · exact .inl (.inl (hmono a hsrc))
      · exact .inl (.inr ⟨rfl, hc⟩)
  · by_cases hc : cur = caller
    · subst hc
      rcases hraised with hkeep | hqueue
      · rw [heff, hkeep, update_eq_self]
        exact h.source.imp_right (hmono cur)
      · exact .inr hqueue
    · rw [heff, update_of_ne hc]
      exact h.source.imp_right (hmono cur)

theorem VisitInv.foldl {cur : Fin n} {p : EffectSet} {rest : List (Fin n)}
    (hp : ∀ caller ∈ rest, ∀ w, Closed base edge EffectSet.withoutNoReturn w → p ≤ w caller) :
    ∀ {s : EffectQueue n}, VisitInv base edge cur p rest s →
      VisitInv base edge cur p [] (rest.foldl (EffectQueue.visitCaller p) s) := by
  induction rest with
  | nil => exact fun h => h
  | cons caller rest ih =>
    intro s h
    exact ih (fun c hc => hp c (mem_cons_of_mem _ hc))
      (h.visitCaller (hp caller mem_cons_self))

theorem withoutNoReturn_mono {s u : EffectSet} (h : s ≤ u) :
    s.withoutNoReturn ≤ u.withoutNoReturn := by
  intro e he
  rw [EffectSet.withoutNoReturn, EffectSet.has_withoutEffect] at he ⊢
  rw [Bool.and_eq_true] at he ⊢
  exact ⟨h e he.1, he.2⟩

theorem drain_isLeast {callers : Fin n → List (Fin n)}
    (hcallers : ∀ a b, b ∈ callers a ↔ edge a b) (s : EffectQueue n)
    (hinv : Inv base edge EffectSet.withoutNoReturn (fun a _ => a ∈ s.queue) s.effects)
    (hflags : s.FlagsOk) :
    IsLeast {w | Closed base edge EffectSet.withoutNoReturn w} (drain callers s) := by
  fun_induction drain callers s with
  | case1 s hq =>
    exact hinv.isLeast (fun a b _ h => by simp [hq] at h)
  | case2 s cur rest hq propagated ih =>
    have hstart : VisitInv base edge cur propagated (callers cur)
        (s.dequeue cur rest) := by
      refine ⟨hinv.weaken (fun a b hab hmem => ?_), fun f hf => ?_, .inl rfl⟩
      · rcases mem_cons.mp (hq ▸ hmem) with rfl | hmem
        · exact .inr ⟨rfl, (hcallers a b).mpr hab⟩
        · exact .inl hmem
      · have hne : f ≠ cur := by
          rintro rfl
          simp [dequeue] at hf
        have hf' : s.effectQueued f = true := by simpa [dequeue, update_of_ne hne] using hf
        exact (mem_cons.mp (hq ▸ hflags f hf')).resolve_left hne
    have hdone := hstart.foldl (fun caller hcaller w hw =>
      (withoutNoReturn_mono (hinv.below w hw cur)).trans
        (hw.edge_le cur caller ((hcallers cur caller).mp hcaller)))
    refine ih (hdone.inv.weaken (fun a b _ hp => ?_)) hdone.flags
    exact hp.resolve_right (fun h => not_mem_nil h.2)

end EffectQueue

theorem inferredEffects_isLeast (m : IrModule) (parallel : Bool) :
    IsLeast {E | EffectClosed m parallel E} (inferredEffects m parallel) := by
  have h : IsLeast {w | Closed (effectGraph m parallel).effects (EffectEdge m parallel)
      EffectSet.withoutNoReturn w} (inferredEffects m parallel) :=
    EffectQueue.drain_isLeast mem_effectCallers_effectGraph _
      (Inv.init.weaken (fun a _ _ _ => mem_finRange a)) (fun f _ => mem_finRange f)
  simpa only [closed_iff_effectClosed] using h

/-! ## The order of the functions -/

section Reorder

variable {m m' : IrModule} {parallel : Bool}

section

variable (σ : FunctionId m ≃ FunctionId m') (hfun : ∀ f, m'.functions.get (σ f) = m.functions.get f)
  (hres : ∀ name, irEffectFunction m' name = (irEffectFunction m name).map σ)

include hfun hres

/-- The demands do not depend on the positions of the functions, only on which functions there are
and what their names resolve to. -/
theorem EffectClosed.reorder {E : FunctionId m' → EffectSet} (h : EffectClosed m' parallel E) :
    EffectClosed m parallel (E ∘ σ) := by
  refine ⟨fun f => ?_, fun callee caller hedge => ?_⟩
  · rw [← hfun f]
    exact h.direct (σ f)
  · obtain ⟨name, hname, hcallee⟩ := hedge
    refine h.call (σ callee) (σ caller) ⟨name, ?_, ?_⟩
    · rw [hfun caller]
      exact hname
    · rw [hres, hcallee]
      rfl

theorem inferredEffects_reorder (f : FunctionId m) :
    inferredEffects m' parallel (σ f) = inferredEffects m parallel f := by
  have hfun' : ∀ f, m.functions.get (σ.symm f) = m'.functions.get f := by
    intro f
    rw [← hfun]
    simp
  have hres' : ∀ name, irEffectFunction m name = (irEffectFunction m' name).map σ.symm := by
    intro name
    rw [hres, Option.map_map]
    simp
  obtain ⟨hclosed, hleast⟩ := inferredEffects_isLeast m parallel
  obtain ⟨hclosed', hleast'⟩ := inferredEffects_isLeast m' parallel
  apply le_antisymm
  · have h := hleast' (EffectClosed.reorder σ.symm hfun' hres' hclosed) (σ f)
    simpa using h
  · exact hleast (EffectClosed.reorder σ hfun hres hclosed') f

end

/-- Where no two functions share a name, a name resolves to the function that bears it. -/
theorem irEffectFunction_eq_some_iff (hnames : (m.functions.map (·.symbol.name)).Nodup)
    (name : String) (f : FunctionId m) :
    irEffectFunction m name = some f ↔ (m.functions.get f).symbol.name = name := by
  rw [irEffectFunction, findFinIdx?_eq_some_iff]
  constructor
  · rintro ⟨h, -⟩
    simpa using h
  · intro h
    refine ⟨by simpa using h, fun j hj hname => ?_⟩
    have hne := pairwise_iff_getElem.mp hnames j f (by simp) (by simp) hj
    simp only [getElem_map] at hne
    exact hne ((beq_iff_eq.mp hname).trans h.symm)

/-- Two listings of the same functions, matched position by position. -/
def matching (hnodup : m.functions.Nodup) (hperm : m'.functions.Perm m.functions) :
    FunctionId m ≃ FunctionId m' :=
  (hnodup.getEquiv m.functions).trans
    ((Equiv.subtypeEquivRight fun _ => hperm.mem_iff.symm).trans
      ((hperm.nodup_iff.mpr hnodup).getEquiv m'.functions).symm)

theorem functions_matching (hnodup : m.functions.Nodup) (hperm : m'.functions.Perm m.functions)
    (f : FunctionId m) : m'.functions.get (matching hnodup hperm f) = m.functions.get f := by
  have h := ((hperm.nodup_iff.mpr hnodup).getEquiv m'.functions).apply_symm_apply
    ((Equiv.subtypeEquivRight fun _ => hperm.mem_iff.symm) (hnodup.getEquiv m.functions f))
  exact congrArg Subtype.val h

/-- Listing functions with distinct names in another order permutes the result. -/
theorem irPropagateEffects_perm (hnames : (m.functions.map (·.symbol.name)).Nodup)
    (hperm : m'.functions.Perm m.functions) :
    (irPropagateEffects m' parallel).functions.Perm (irPropagateEffects m parallel).functions := by
  have hnodup : m.functions.Nodup := hnames.of_map
  set σ := matching hnodup hperm
  have hfun : ∀ f, m'.functions.get (σ f) = m.functions.get f := functions_matching hnodup hperm
  have hnames' : (m'.functions.map (·.symbol.name)).Nodup :=
    (hperm.map _).nodup_iff.mpr hnames
  have hres : ∀ name, irEffectFunction m' name = (irEffectFunction m name).map σ := by
    intro name
    apply Option.ext
    intro f
    rw [irEffectFunction_eq_some_iff hnames', Option.map_eq_some_iff]
    constructor
    · intro h
      refine ⟨σ.symm f, ?_, σ.apply_symm_apply f⟩
      rw [irEffectFunction_eq_some_iff hnames, ← hfun]
      simpa using h
    · rintro ⟨g, hg, rfl⟩
      rw [hfun]
      exact (irEffectFunction_eq_some_iff hnames name g).mp hg
  have hpos : ((finRange m.functions.length).map σ).Perm
      (finRange m'.functions.length) := by
    refine (perm_ext_iff_of_nodup ((nodup_finRange _).map σ.injective)
      (nodup_finRange _)).mpr (fun f => ⟨fun _ => mem_finRange f, fun _ => ?_⟩)
    exact mem_map.mpr ⟨σ.symm f, mem_finRange _, σ.apply_symm_apply f⟩
  have hmap := (hpos.map fun f =>
    { m'.functions.get f with effects := inferredEffects m' parallel f }).symm
  rw [map_map] at hmap
  simp only [irPropagateEffects, ofFn_eq_map]
  refine hmap.trans (List.Perm.of_eq (map_congr_left fun f _ => ?_))
  simp only [comp_apply]
  rw [inferredEffects_reorder σ hfun hres, hfun]

end Reorder

/-- `irPropagateEffects` leaves on every function of any module, and changes nothing else of it,
the least assignment that contains the direct effects and is closed under the resolved calls. The
same functions listed in another order get the same effects: whenever the names resolve to the same
functions, which they do when no two functions share a name. -/
theorem irPropagateEffects_least_closed (m : IrModule) (parallel : Bool) :
    (irPropagateEffects m parallel).functions = ofFn (fun f : FunctionId m =>
          { m.functions[f] with effects := inferredEffects m parallel f }) ∧
      IsLeast {E | EffectClosed m parallel E} (inferredEffects m parallel) ∧
      (∀ (m' : IrModule) (σ : FunctionId m ≃ FunctionId m'),
        (∀ f, m'.functions[σ f] = m.functions[f]) →
        (∀ name, irEffectFunction m' name = (irEffectFunction m name).map σ) →
        ∀ f, inferredEffects m' parallel (σ f) = inferredEffects m parallel f) ∧
      (∀ m' : IrModule, (m.functions.map (·.symbol.name)).Nodup → m'.functions.Perm m.functions →
        (irPropagateEffects m' parallel).functions.Perm
          (irPropagateEffects m parallel).functions) := by
  refine ⟨rfl, inferredEffects_isLeast m parallel, ?_, ?_⟩
  · exact fun m' σ hfun hres f => inferredEffects_reorder σ hfun hres f
  · exact fun m' hnames hperm => irPropagateEffects_perm hnames hperm

/-- A function of the given name that calls the given names, itself with no effect but `local`. -/
def calling (name : String) (effects : EffectSet) (callees : List String) : IrFunction where
  symbol := { moduleName := "main", kind := .function, name := name }
  resultType := .scalar .void
  kind := .function
  localEffects := effects
  location := irNoLocation
  callees := callees

/-- Two functions that call each other, one of them also itself, twice, and an unknown name. -/
def pingPong : IrModule where
  functions := [calling "ping" (EffectSet.empty.withEffect .write) ["pong", "missing"],
    calling "pong" (EffectSet.empty.withEffect .noReturn) ["ping", "pong", "pong"]]

theorem irPropagateEffects_least_closed_pingPong :
    (irPropagateEffects { pingPong with functions := pingPong.functions.reverse } true).functions.Perm
      (irPropagateEffects pingPong true).functions :=
  (irPropagateEffects_least_closed pingPong true).2.2.2
    { pingPong with functions := pingPong.functions.reverse } (by decide)
    (reverse_perm pingPong.functions)

end Neri.Ir
