import Mathlib.Algebra.Order.BigOperators.Group.Finset
import Neri.Codegen.Proofs.FunctionVerifierProofs
import Neri.Lib.Dominance

/-!
# `verify_dominance` decides dominance

The dominator sets start at all blocks, except at the entry, and only shrink: a round replaces the
set of a block by the block and what dominates all its predecessors. Each round that changes something
removes a block from a set, so the rounds end within the square of the number of blocks, and the sets
they end with are the dominators.
-/

namespace Neri.Codegen

open Dominance ExceptFold List

variable {f : Function} {ctx : FunctionContext}
variable {a b d v : Nat} {doms : Dominators} {point : Point}

def blockIds (f : Function) : Finset Nat := (f.blocks.map (·.id)).toFinset

variable {id : Nat}

theorem mem_blockIds : id ∈ blockIds f ↔ id ∈ f.blocks.map (·.id) :=
  mem_toFinset

theorem FlowEdge.source_mem (h : FlowEdge f a b) : a ∈ blockIds f := by
  obtain ⟨block, hblock, rfl, -⟩ := h
  exact mem_blockIds.mpr (mem_map_of_mem hblock)

/-! ## Reachability -/

/-- There is a path from the entry to the block. -/
def Reachable (f : Function) (id : Nat) : Prop :=
  ∃ ps, Path (FlowEdge f) f.entryBlock ps id

theorem mem_successors (hd : Describes f ctx) : b ∈ ctx.successors a ↔ FlowEdge f a b := by
  simp [FunctionContext.successors, hd.edges, mem_flowEdges]

theorem mem_predecessors (hd : Describes f ctx) : a ∈ ctx.predecessors b ↔ FlowEdge f a b := by
  simp [FunctionContext.predecessors, hd.edges, mem_flowEdges]

theorem reachable_of_mem_discover (hd : Describes f ctx) (seen pending : List Nat)
    (hseen : ∀ id ∈ seen, Reachable f id) (hpending : ∀ id ∈ pending, Reachable f id) :
    ∀ id ∈ discover ctx seen pending, Reachable f id := by
  fun_induction discover ctx seen pending with
  | case1 seen => exact hseen
  | case2 seen current rest hmem ih =>
    exact ih hseen fun id hid => hpending id (mem_cons_of_mem _ hid)
  | case3 seen current rest hmem ih =>
    have hcurrent := hpending current mem_cons_self
    refine ih (fun id hid => ?_) (fun id hid => ?_)
    · rcases mem_append.mp hid with h | h
      · exact hseen id h
      · exact mem_singleton.mp h ▸ hcurrent
    · rcases mem_append.mp hid with h | h
      · exact hpending id (mem_cons_of_mem _ h)
      · obtain ⟨ps, hps⟩ := hcurrent
        exact ⟨current :: ps, hps.step ((mem_successors hd).mp (mem_of_mem_filter h))⟩

theorem reachable_of_canonical (hd : Describes f ctx)
    (hcfg : verifyCanonicalCfg f ctx = .ok ()) (hid : id ∈ blockIds f) :
    Reachable f id := by
  simp only [verifyCanonicalCfg, bind_eq_ok, failIf_eq_ok, bne_eq_false_iff_eq] at hcfg
  obtain ⟨-, -, horder⟩ := hcfg
  refine reachable_of_mem_discover hd [] [f.entryBlock] (by simp) ?_ id
    (horder ▸ mem_blockIds.mp hid)
  intro id hid
  exact ⟨[], mem_singleton.mp hid ▸ Path.entry⟩

/-- All blocks are reached, so all but the entry have a predecessor. -/
theorem predecessors_ne_nil (hd : Describes f ctx) (hreach : Reachable f id)
    (hne : id ≠ f.entryBlock) : ctx.predecessors id ≠ [] := by
  obtain ⟨ps, hps⟩ := hreach
  cases hps with
  | entry => exact absurd rfl hne
  | step _ hedge =>
    exact ne_nil_of_mem ((mem_predecessors hd).mpr hedge)

theorem mem_blockIds_of_dominates (hb : b ∈ blockIds f) (hreach : Reachable f b)
    (h : Dominates (FlowEdge f) f.entryBlock d b) : d ∈ blockIds f := by
  obtain ⟨ps, hps⟩ := hreach
  have hnodes : ∀ x ∈ ps, x ∈ blockIds f := by
    clear h hb
    induction hps with
    | entry => simp
    | step _ hedge ih =>
      intro x hx
      rcases mem_cons.mp hx with rfl | hx
      · exact hedge.source_mem
      · exact ih x hx
  rcases h ps hps with rfl | hmem
  · exact hb
  · exact hnodes d hmem

/-! ## One step of a round -/

/-- What dominates all predecessors of a block, and the block. -/
def newDominators (context : FunctionContext) (dominators : Dominators) (id : Nat) : Finset Nat :=
  match context.predecessors id with
  | [] => {id}
  | first :: rest =>
    insert id (rest.foldl (fun set predecessor => set ∩ dominators predecessor) (dominators first))

theorem mem_foldl_inter (ids : List Nat) (set : Finset Nat) :
    d ∈ ids.foldl (fun set predecessor => set ∩ doms predecessor) set ↔
      d ∈ set ∧ ∀ id ∈ ids, d ∈ doms id := by
  induction ids generalizing set with
  | nil => simp
  | cons id ids ih =>
    rw [foldl_cons, ih, Finset.mem_inter, forall_mem_cons, and_assoc]

theorem mem_newDominators (hne : ctx.predecessors id ≠ []) :
    d ∈ newDominators ctx doms id ↔ d = id ∨ ∀ p ∈ ctx.predecessors id, d ∈ doms p := by
  rw [newDominators]
  split
  · contradiction
  · rename_i first rest hpred
    rw [hpred, Finset.mem_insert, mem_foldl_inter, forall_mem_cons]

/-- The sets after a step of a round, which replaces the set of its block. -/
def stepped (context : FunctionContext) (dominators : Dominators) (id : Nat) : Dominators :=
  Function.update dominators id (newDominators context dominators id)

theorem visitDominators_eq {changed : Bool}
    (he : id ≠ f.entryBlock) (hne : ctx.predecessors id ≠ []) :
    visitDominators f ctx (doms, changed) id =
      .ok (if newDominators ctx doms id = doms id then (doms, changed)
        else (stepped ctx doms id, true)) := by
  rw [visitDominators, if_neg he, stepped, newDominators]
  cases hpred : ctx.predecessors id with
  | nil => contradiction
  | cons first rest =>
    simp only [intersectPredecessors, bind, Except.bind]
    split <;> rfl

/-! ## The invariant of the rounds -/

/-- The entry is dominated by itself only, no dominator is lost, and replacing the set of a block
can only shrink it. -/
structure RoundInv (f : Function) (context : FunctionContext) (dominators : Dominators) : Prop where
  entry : dominators f.entryBlock = {f.entryBlock}
  complete : ∀ b ∈ blockIds f, ∀ d, Dominates (FlowEdge f) f.entryBlock d b → d ∈ dominators b
  shrinking : ∀ b ∈ blockIds f, b ≠ f.entryBlock → newDominators context dominators b ⊆ dominators b

/-- The number of entries left in all sets. -/
def totalDominators (f : Function) (dominators : Dominators) : Nat :=
  ∑ b ∈ blockIds f, (dominators b).card

theorem RoundInv.stepped_subset (h : RoundInv f ctx doms)
    (hid : id ∈ blockIds f) (he : id ≠ f.entryBlock) (b : Nat) :
    stepped ctx doms id b ⊆ doms b := by
  by_cases hb : b = id
  · subst hb
    rw [stepped, Function.update_self]
    exact h.shrinking b hid he
  · rw [stepped, Function.update_of_ne hb]

theorem totalDominators_stepped_lt (h : RoundInv f ctx doms)
    (hid : id ∈ blockIds f) (he : id ≠ f.entryBlock)
    (hchange : newDominators ctx doms id ≠ doms id) :
    totalDominators f (stepped ctx doms id) < totalDominators f doms := by
  refine Finset.sum_lt_sum (fun b _ => Finset.card_le_card (h.stepped_subset hid he b))
    ⟨id, hid, ?_⟩
  rw [stepped, Function.update_self]
  exact Finset.card_lt_card (lt_of_le_of_ne (h.shrinking id hid he) hchange)

theorem totalDominators_initial_le (hd : Describes f ctx) : totalDominators f
    (fun id => if id = f.entryBlock then {id} else blockIds f) ≤
      f.blocks.length * f.blocks.length := by
  have hcard : (blockIds f).card = f.blocks.length := by
    rw [blockIds, toFinset_card_of_nodup hd.ids_nodup, length_map]
  have hbound : ∀ b ∈ blockIds f,
      (if b = f.entryBlock then ({b} : Finset Nat) else blockIds f).card ≤ f.blocks.length := by
    intro b hb
    split
    · rw [← hcard]
      exact Finset.card_pos.mpr ⟨b, hb⟩
    · exact hcard.le
  calc totalDominators f _ ≤ ∑ _b ∈ blockIds f, f.blocks.length := Finset.sum_le_sum hbound
    _ = f.blocks.length * f.blocks.length := by
      rw [Finset.sum_const_nat (fun _ _ => rfl), hcard]

section

variable (hd : Describes f ctx) (hreach : ∀ id ∈ blockIds f, Reachable f id)

include hd hreach

theorem RoundInv.initial : RoundInv f ctx
    (fun id => if id = f.entryBlock then {id} else blockIds f) where
  entry := if_pos rfl
  complete := by
    intro b hb d hdom
    by_cases he : b = f.entryBlock
    · rw [if_pos he, Finset.mem_singleton]
      subst he
      exact (hdom [] Path.entry).resolve_right not_mem_nil
    · rw [if_neg he]
      exact mem_blockIds_of_dominates hb (hreach b hb) hdom
  shrinking := by
    intro b hb he d hmem
    have hne := predecessors_ne_nil hd (hreach b hb) he
    simp only [if_neg he]
    rcases (mem_newDominators hne).mp hmem with rfl | hall
    · exact hb
    · obtain ⟨p, hp⟩ := exists_mem_of_ne_nil _ hne
      have hpd := hall p hp
      split at hpd
      · rename_i hpe
        rw [Finset.mem_singleton.mp hpd, hpe]
        exact mem_blockIds.mpr hd.entry_mem
      · exact hpd

theorem RoundInv.step (h : RoundInv f ctx doms)
    (hid : id ∈ blockIds f) (he : id ≠ f.entryBlock) : RoundInv f ctx (stepped ctx doms id) := by
  have hne := predecessors_ne_nil hd (hreach id hid) he
  refine ⟨?_, fun b hb d hdom => ?_, fun b hb hbe => ?_⟩
  · rw [stepped, Function.update_of_ne (Ne.symm he)]
    exact h.entry
  · by_cases hbid : b = id
    · subst hbid
      rw [stepped, Function.update_self, mem_newDominators hne]
      by_cases hdb : d = b
      · exact .inl hdb
      · right
        intro p hp
        have hedge := (mem_predecessors hd).mp hp
        exact h.complete p hedge.source_mem d (hdom.of_edge hedge hdb)
    · rw [stepped, Function.update_of_ne hbid]
      exact h.complete b hb d hdom
  · -- the sets it is computed from have shrunk, so the new set has
    have hmono : newDominators ctx (stepped ctx doms id) b ⊆ newDominators ctx doms b := by
      intro d hmem
      have hbne := predecessors_ne_nil hd (hreach b hb) hbe
      rw [mem_newDominators hbne] at hmem ⊢
      exact hmem.imp_right fun hall p hp => h.stepped_subset hid he p (hall p hp)
    by_cases hbid : b = id
    · subst hbid
      rw [stepped, Function.update_self]
      exact hmono
    · rw [stepped, Function.update_of_ne hbid]
      exact hmono.trans (h.shrinking b hb hbe)

/-- A round keeps the invariant. It either changes nothing, and then all its blocks satisfy the
dominator equation, or it says so and leaves fewer entries. -/
theorem foldlM_visitDominators (ids : List Nat) (hids : ∀ id ∈ ids, id ∈ blockIds f) :
    ∀ (doms : Dominators) (changed : Bool), RoundInv f ctx doms →
      ∃ next changed', ids.foldlM (visitDominators f ctx) (doms, changed) =
          .ok (next, changed') ∧ RoundInv f ctx next ∧
        ((next = doms ∧ changed' = changed ∧ ∀ id ∈ ids, id ≠ f.entryBlock →
            newDominators ctx doms id = doms id) ∨
          (changed' = true ∧ totalDominators f next < totalDominators f doms)) := by
  induction ids with
  | nil => exact fun doms changed h => ⟨doms, changed, rfl, h, .inl ⟨rfl, rfl, by simp⟩⟩
  | cons id ids ih =>
    intro doms changed h
    have ih := ih fun x hx => hids x (mem_cons_of_mem _ hx)
    have hid := hids id mem_cons_self
    rw [foldlM_cons]
    obtain ⟨next, changed', hrun, hinv, hres⟩ := ih doms changed h
    by_cases he : id = f.entryBlock
    · rw [visitDominators, if_pos he]
      refine ⟨next, changed', hrun, hinv, hres.imp_left fun ⟨h₁, h₂, h₃⟩ => ⟨h₁, h₂, ?_⟩⟩
      exact forall_mem_cons.mpr ⟨fun hne => absurd he hne, h₃⟩
    · rw [visitDominators_eq he (predecessors_ne_nil hd (hreach id hid) he)]
      by_cases hsame : newDominators ctx doms id = doms id
      · rw [if_pos hsame]
        refine ⟨next, changed', hrun, hinv, hres.imp_left fun ⟨h₁, h₂, h₃⟩ => ⟨h₁, h₂, ?_⟩⟩
        exact forall_mem_cons.mpr ⟨fun _ => hsame, h₃⟩
      · rw [if_neg hsame]
        have hlt := totalDominators_stepped_lt h hid he hsame
        obtain ⟨next, changed', hrun, hinv, hres⟩ := ih _ true (h.step hd hreach hid he)
        refine ⟨next, changed', hrun, hinv, .inr ?_⟩
        rcases hres with ⟨rfl, rfl, -⟩ | ⟨hc, hlt'⟩
        · exact ⟨rfl, hlt⟩
        · exact ⟨hc, hlt'.trans hlt⟩

/-- With more rounds left than entries, the rounds end with a solution of the equations. -/
theorem dominatorRounds_converge (all : List Nat) (hall : ∀ id, id ∈ all ↔ id ∈ blockIds f) :
    ∀ (remaining : Nat) (doms : Dominators), RoundInv f ctx doms →
      totalDominators f doms < remaining →
      ∃ result, dominatorRounds f ctx all remaining doms = .ok result ∧
        RoundInv f ctx result ∧ ∀ id ∈ blockIds f, id ≠ f.entryBlock →
          newDominators ctx result id = result id := by
  intro remaining
  induction remaining with
  | zero => exact fun _ _ h => absurd h (Nat.not_lt_zero _)
  | succ remaining ih =>
    intro doms hinv hlt
    obtain ⟨next, changed, hrun, hnext, hres⟩ :=
      foldlM_visitDominators hd hreach all (fun id hid => (hall id).mp hid) doms false hinv
    rw [dominatorRounds, hrun]
    rcases hres with ⟨rfl, rfl, hfix⟩ | ⟨rfl, hless⟩
    · exact ⟨next, rfl, hnext, fun id hid hne => hfix id ((hall id).mpr hid) hne⟩
    · exact ih next hnext (by omega)

/-- A solution of the equations that lost no dominator lists the dominators. -/
theorem RoundInv.mem_iff_dominates (h : RoundInv f ctx doms)
    (hfix : ∀ id ∈ blockIds f, id ≠ f.entryBlock →
      newDominators ctx doms id = doms id) (hb : b ∈ blockIds f) :
    d ∈ doms b ↔ Dominates (FlowEdge f) f.entryBlock d b := by
  refine ⟨fun hmem => ?_, h.complete b hb d⟩
  refine dominates_of_mem (fun b => (doms b : Set Nat)) ?_ ?_ hmem
  · rw [h.entry, Finset.coe_singleton]
  · intro a b hedge d hmem
    obtain ⟨hb, hne⟩ := hd.target_mem a b hedge
    have hb := mem_blockIds.mpr hb
    rw [Finset.mem_coe, ← hfix b hb hne,
      mem_newDominators (predecessors_ne_nil hd (hreach b hb) hne)] at hmem
    exact hmem.imp_right fun hall => hall a ((mem_predecessors hd).mpr hedge)

end

/-! ## Walks and paths -/

/-- A walk follows a path of blocks, and has gone through all points of the earlier blocks and the
points of its last block before its end. -/
theorem Walk.exists_path (hnodup : (f.blocks.map (·.id)).Nodup) {pre : List Point} (h : Walk f pre point) :
    ∃ ps, Path (FlowEdge f) f.entryBlock ps point.1 ∧ ∀ block ∈ f.blocks, ∀ pos : Int, -1 ≤ pos →
        ((block.id ∈ ps ∧ pos ≤ block.instructions.length) ∨
          (block.id = point.1 ∧ pos < point.2)) → (block.id, pos) ∈ pre := by
  induction h with
  | entry =>
    refine ⟨[], Path.entry, fun block _ pos hpos h => ?_⟩
    rcases h with ⟨h, -⟩ | ⟨-, h⟩
    · exact absurd h not_mem_nil
    · exact absurd h (not_lt.mpr hpos)
  | @next pre block pos hblock _ _ ih =>
    obtain ⟨ps, hps, hmem⟩ := ih
    refine ⟨ps, hps, fun c hc j hj h => ?_⟩
    by_cases heq : (c.id, j) = (block.id, pos)
    · exact heq ▸ mem_cons_self
    · refine mem_cons_of_mem _ (hmem c hc j hj (h.imp_right fun ⟨hid, hlt⟩ => ⟨hid, ?_⟩))
      have : j ≠ pos := fun hjp => heq (Prod.ext hid hjp)
      show j < pos
      omega
  | @jump pre block edge hblock _ hedge ih =>
    obtain ⟨ps, hps, hmem⟩ := ih
    refine ⟨block.id :: ps, hps.step ⟨block, hblock, rfl, edge, hedge, rfl⟩, fun c hc j hj h => ?_⟩
    rcases h with ⟨hid, hle⟩ | ⟨-, hlt⟩
    · by_cases hcb : c.id = block.id
      · have := inj_on_of_nodup_map hnodup hc hblock hcb
        subst this
        rcases hle.lt_or_eq with hlt | rfl
        · exact mem_cons_of_mem _ (hmem c hc j hj (.inr ⟨rfl, hlt⟩))
        · exact mem_cons_self
      · exact mem_cons_of_mem _
          (hmem c hc j hj (.inl ⟨(mem_cons.mp hid).resolve_left hcb, hle⟩))
    · exact absurd hlt (not_lt.mpr hj)

/-- A walk that enters a block can go on to any position of it. -/
theorem Walk.advance {pre : List Point} {block : Block} (hblock : block ∈ f.blocks)
    (h : Walk f pre (block.id, -1)) : ∀ n : Nat, n ≤ block.instructions.length + 1 →
      ∃ before', Walk f before' (block.id, (n : Int) - 1) ∧
        ∀ p ∈ before', p ∈ pre ∨ (p.1 = block.id ∧ p.2 < (n : Int) - 1) := by
  intro n
  induction n with
  | zero => exact fun _ => ⟨pre, h, fun p hp => .inl hp⟩
  | succ n ih =>
    intro hn
    obtain ⟨before', hwalk, hmem⟩ := ih (by omega)
    have hnext := Walk.next hblock hwalk (by omega)
    rw [show (n : Int) - 1 + 1 = ((n + 1 : Nat) : Int) - 1 by omega] at hnext
    refine ⟨_, hnext, fun p hp => ?_⟩
    rcases mem_cons.mp hp with rfl | hp
    · exact .inr ⟨rfl, show (n : Int) - 1 < _ by omega⟩
    · exact (hmem p hp).imp_right fun ⟨hid, hlt⟩ => ⟨hid, by omega⟩

/-- Every path of blocks is followed by a walk that enters its last block. -/
theorem exists_walk_of_path {ps : List Nat} (h : Path (FlowEdge f) f.entryBlock ps b) :
    ∃ pre, Walk f pre (b, -1) ∧ ∀ p ∈ pre, p.1 ∈ ps := by
  induction h with
  | entry => exact ⟨[], Walk.entry, by simp⟩
  | step _ hedge ih =>
    obtain ⟨pre, hwalk, hmem⟩ := ih
    obtain ⟨block, hblock, rfl, edge, hedge, rfl⟩ := hedge
    obtain ⟨before', hwalk', hmem'⟩ :=
      hwalk.advance hblock (block.instructions.length + 1) le_rfl
    rw [show ((block.instructions.length + 1 : Nat) : Int) - 1 = block.instructions.length by
      omega] at hwalk'
    refine ⟨_, hwalk'.jump hblock hedge, fun p hp => ?_⟩
    rcases mem_cons.mp hp with rfl | hp
    · exact mem_cons_self
    · rcases hmem' p hp with hp | ⟨hid, -⟩
      · exact mem_cons_of_mem _ (hmem p hp)
      · exact hid ▸ mem_cons_self

/-! ## The check of the uses -/

theorem DefinedAt.in_block (hd : Describes f ctx) (h : DefinedAt f v point) :
    ∃ block ∈ f.blocks, block.id = point.1 ∧ -1 ≤ point.2 ∧
      point.2 ≤ block.instructions.length := by
  rcases h with ⟨root, -, -, rfl⟩ | ⟨block, hblock, ⟨p, -, -, rfl⟩ | ⟨i, index, hi, r, -, -, rfl⟩⟩
  · obtain ⟨block, hblock, hid⟩ := mem_map.mp hd.entry_mem
    exact ⟨block, hblock, hid, le_rfl, show (-1 : Int) ≤ _ by omega⟩
  · exact ⟨block, hblock, rfl, le_rfl, show (-1 : Int) ≤ _ by omega⟩
  · have hlt : index < block.instructions.length := by
      simpa using (mem_zipIdx hi).2.1
    exact ⟨block, hblock, rfl, show (-1 : Int) ≤ index by omega, show (index : Int) ≤ _ by omega⟩

theorem UsedAt.in_block (h : UsedAt f v point) :
    ∃ block ∈ f.blocks, block.id = point.1 ∧ 0 ≤ point.2 ∧ point.2 ≤ block.instructions.length := by
  obtain ⟨block, hblock, ⟨i, index, hi, -, rfl⟩ | ⟨-, rfl⟩⟩ := h
  · have hlt : index < block.instructions.length := by
      simpa using (mem_zipIdx hi).2.1
    exact ⟨block, hblock, rfl, show (0 : Int) ≤ index by omega, show (index : Int) ≤ _ by omega⟩
  · exact ⟨block, hblock, rfl, show (0 : Int) ≤ _ by omega, le_rfl⟩

theorem DefinedAt.unique (hd : Describes f ctx) {p q : Point}
    (hp : DefinedAt f v p) (hq : DefinedAt f v q) : p = q := by
  obtain ⟨d, hdmem, rfl⟩ := (hd.definitions v p).mpr hp
  obtain ⟨e, hemem, rfl⟩ := (hd.definitions v q).mpr hq
  rw [← AssocList.lookup_eq_some_iff hd.definitions_nodup] at hdmem hemem
  cases hdmem.symm.trans hemem
  rfl

/-- A definition that is earlier in the block of its use, or in a dominating block, is what every
walk to the use goes through; and nothing else is. -/
theorem walks_meet_definition_iff (hd : Describes f ctx)
    (hreach : ∀ id ∈ blockIds f, Reachable f id) {defn use : Point}
    (hdef : DefinedAt f v defn) (huse : UsedAt f v use) :
    (∀ pre, Walk f pre use → ∃ d ∈ pre, DefinedAt f v d) ↔ if defn.1 = use.1 then defn.2 < use.2
      else Dominates (FlowEdge f) f.entryBlock defn.1 use.1 := by
  obtain ⟨defBlock, hdefBlock, hdefId, hdefLow, hdefHigh⟩ := hdef.in_block hd
  obtain ⟨useBlock, huseBlock, huseId, huseLow, huseHigh⟩ := huse.in_block
  have hmeet : ∀ pre : List Point, (∃ d ∈ pre, DefinedAt f v d) ↔ defn ∈ pre :=
    fun pre => ⟨fun ⟨d, hmem, hd'⟩ => hdef.unique hd hd' ▸ hmem, fun hmem => ⟨_, hmem, hdef⟩⟩
  -- a walk along a path meets only points of the path before the use
  have hwalk : ∀ ps, Path (FlowEdge f) f.entryBlock ps use.1 →
      ∃ pre, Walk f pre use ∧ ∀ p ∈ pre, p.1 ∈ ps ∨ (p.1 = use.1 ∧ p.2 < use.2) := by
    intro ps hps
    obtain ⟨pre, hpre, hmem⟩ := exists_walk_of_path hps
    rw [← huseId] at hpre
    obtain ⟨before', hbefore', hmem'⟩ :=
      hpre.advance huseBlock (use.2 + 1).toNat (by omega)
    rw [show ((use.2 + 1).toNat : Int) - 1 = use.2 by omega, huseId] at hbefore'
    refine ⟨before', hbefore', fun p hp => ?_⟩
    rcases hmem' p hp with hp | ⟨hid, hlt⟩
    · exact .inl (hmem p hp)
    · exact .inr ⟨hid.trans huseId, by omega⟩
  simp only [hmeet]
  split
  · rename_i hsame
    constructor
    · intro hall
      obtain ⟨ps, hps⟩ := hreach use.1
        (mem_blockIds.mpr (huseId ▸ mem_map_of_mem huseBlock))
      obtain ⟨qs, hqs, hfirst⟩ := hps.exists_first
      obtain ⟨pre, hpre, hmem⟩ := hwalk qs hqs
      rcases hmem defn (hall pre hpre) with h | ⟨-, h⟩
      · exact absurd (hsame ▸ h) hfirst
      · exact h
    · intro hlt pre hpre
      obtain ⟨ps, -, hmem⟩ := hpre.exists_path hd.ids_nodup
      have := hmem defBlock hdefBlock defn.2 hdefLow (.inr ⟨hdefId.trans hsame, hlt⟩)
      rwa [hdefId] at this
  · rename_i hdiff
    constructor
    · intro hall ps hps
      obtain ⟨pre, hpre, hmem⟩ := hwalk ps hps
      rcases hmem defn (hall pre hpre) with h | ⟨h, -⟩
      · exact .inr h
      · exact absurd h hdiff
    · intro hdom pre hpre
      obtain ⟨ps, hps, hmem⟩ := hpre.exists_path hd.ids_nodup
      have hin := (hdom ps hps).resolve_left hdiff
      have := hmem defBlock hdefBlock defn.2 hdefLow (.inl ⟨hdefId ▸ hin, hdefHigh⟩)
      rwa [hdefId] at this

theorem verifyUse_eq_ok_iff (hd : Describes f ctx) (hreach : ∀ id ∈ blockIds f, Reachable f id)
    (hdom : ∀ b ∈ blockIds f, ∀ d, d ∈ doms b ↔
      Dominates (FlowEdge f) f.entryBlock d b) {use : UseSite} (huse : use ∈ ctx.uses) :
    verifyUse ctx doms use = .ok () ↔ ∀ pre, Walk f pre (use.block, use.instruction) →
        ∃ d ∈ pre, DefinedAt f use.value d := by
  have hused := (hd.uses use).mp huse
  obtain ⟨useBlock, huseBlock, huseId, huseLow, -⟩ := hused.in_block
  obtain ⟨defn, hlookup⟩ := Option.ne_none_iff_exists'.mp (hd.use_defined use huse)
  have hdef : DefinedAt f use.value (defn.block, defn.instruction) :=
    (hd.definitions _ _).mp
      ⟨defn, (AssocList.lookup_eq_some_iff hd.definitions_nodup).mp hlookup, rfl⟩
  obtain ⟨-, -, -, hlow, -⟩ := hdef.in_block hd
  rw [walks_meet_definition_iff hd hreach hdef hused, verifyUse, hlookup]
  simp only at hlow huseLow huseId ⊢
  split
  · rw [failIf_eq_ok, Bool.and_eq_false_iff, decide_eq_false_iff_not, decide_eq_false_iff_not]
    omega
  · rw [failIf_eq_ok, decide_eq_false_iff_not, not_not]
    exact hdom use.block (mem_blockIds.mpr (huseId ▸ mem_map_of_mem huseBlock)) _

theorem verifyUse_error_code {use : UseSite} {e : ReaderError}
    (h : verifyUse ctx doms use = .error e) : e.code = .invalidSsa := by
  simp only [verifyUse, failIf, fail] at h
  split at h
  · cases h
    rfl
  · split at h <;> split at h <;> cases h <;> rfl

/-- For a function that passed the block, use and control-flow checks, the rounds of
`verify_dominance` converge within their budget, and it accepts exactly when every walk to a use of
a value goes through the definition of the value before. -/
theorem verifyDominance_decides (module_ : CodegenModule) (verifyInstruction : InstructionCheck)
    (hblocks : verifyBlocksAndUses module_ verifyInstruction f = .ok ctx)
    (hcfg : verifyCanonicalCfg f ctx = .ok ()) :
    (verifyDominance f ctx = .ok () ↔ DefinitionsDominateUses f) ∧ verifyDominance f ctx ≠ .error
        { code := .invalidControlFlow
          message := "Dominance computation exceeded its bounded iteration budget." } ∧
      ∃ doms, dominatorRounds f ctx ((ctx.blocks.map (·.1)).toFinset.sort (· ≤ ·))
        (ctx.blocks.length * ctx.blocks.length + 1)
        (fun id => if id = f.entryBlock then {id} else (ctx.blocks.map (·.1)).toFinset) =
          .ok doms := by
  have hd := verifyBlocksAndUses_describes hblocks
  have hreach : ∀ id ∈ blockIds f, Reachable f id := fun id hid =>
    reachable_of_canonical hd hcfg hid
  have hids : (ctx.blocks.map (·.1)).toFinset = blockIds f := by
    rw [hd.blocks, map_map]
    rfl
  have hlength : ctx.blocks.length = f.blocks.length := by
    rw [hd.blocks, length_map]
  obtain ⟨doms, hrounds, hinv, hfix⟩ :=
    dominatorRounds_converge hd hreach ((blockIds f).sort (· ≤ ·))
      (fun id => Finset.mem_sort _) (f.blocks.length * f.blocks.length + 1) _
      (RoundInv.initial hd hreach) (Nat.lt_succ_of_le (totalDominators_initial_le hd))
  have hdom : ∀ b ∈ blockIds f, ∀ d, d ∈ doms b ↔ Dominates (FlowEdge f) f.entryBlock d b :=
    fun b hb d => hinv.mem_iff_dominates hd hreach hfix hb
  have hverify : verifyDominance f ctx = ctx.uses.forM (verifyUse ctx doms) := by
    simp only [verifyDominance, hids, hlength, hrounds]
    rfl
  refine ⟨?_, ?_, doms, by rw [hids, hlength]; exact hrounds⟩
  · rw [hverify, forM_eq_ok]
    constructor
    · intro hall v use huse
      have hmem : (⟨v, use.1, use.2⟩ : UseSite) ∈ ctx.uses := (hd.uses _).mpr huse
      exact (verifyUse_eq_ok_iff hd hreach hdom hmem).mp (hall _ hmem)
    · intro hall use huse
      exact (verifyUse_eq_ok_iff hd hreach hdom huse).mpr
        (hall use.value _ ((hd.uses use).mp huse))
  · intro herror
    rw [hverify] at herror
    obtain ⟨use, -, huse⟩ := exists_of_forM_eq_error herror
    exact absurd (verifyUse_error_code huse) (by decide)

/-- A loop that tests a value defined before it: `b0: v0 = constant; br b1`,
`b1: br v0 b1 b2`, `b2: return v0`. -/
def spinLoop : Function where
  id := { moduleName := "main", kind := .function, semanticName := "spin" }
  resultType := { tag := .bool }
  blocks :=
    [{ id := 0
       instructions := [{ opcode := .constant, results := [⟨0, { tag := .bool }⟩] }]
       ending := { tag := .branch, edges := [⟨1, []⟩] } },
     { id := 1
       ending :=
         { tag := .conditionalBranch
           condition := some 0
           edges := [⟨1, []⟩, ⟨2, []⟩] } },
     { id := 2
       ending := { tag := .returns, returnValue := some 0 } }]

/-- The context that the block and use checks build for the loop. -/
def spinLoopContext : FunctionContext where
  blocks := spinLoop.blocks.map fun block => (block.id, block)
  edges := [(0, 1), (1, 1), (1, 2)]
  definitions := [(0, ⟨{ tag := .bool }, 0, 0⟩)]
  uses := [⟨0, 1, 0⟩, ⟨0, 2, 0⟩]

theorem spinLoop_canonical : verifyCanonicalCfg spinLoop spinLoopContext = .ok () := by
  have hwalk : discover spinLoopContext [] [0] = [0, 1, 2] := by
    simp [discover, FunctionContext.successors, spinLoopContext]
  have he : spinLoop.entryBlock = 0 := rfl
  rw [verifyCanonicalCfg, he, hwalk]
  rfl

theorem verifyDominance_decides_spinLoop :
    verifyDominance spinLoop spinLoopContext = .ok () ↔ DefinitionsDominateUses spinLoop :=
  (verifyDominance_decides {} (fun _ _ => .ok 0) (by rfl) spinLoop_canonical).1

end Neri.Codegen
