import Mathlib.Data.Set.Finite.List
import Mathlib.Order.WellFoundedSet
import Neri.Codegen.AllocationRegions
import Neri.Codegen.ProgramPoints
import Neri.Lib.AssocList

/-!
# The loop search

The search takes a block away when no edge of the others leads to it any more. A count is that of the
edges from blocks that are left, parallel ones each for itself. What is taken away is on no cycle; of
the blocks that are left in the end, each has an edge from another of them.
-/

namespace Neri.Codegen

open Relation List

variable {f : Function} {taken rest : List Block} {left ready : List Nat}
  {incoming counted : List (Nat × Nat)} {state : List (Nat × Nat) × List Nat}

def Function.ids (f : Function) : List Nat := f.blocks.map (·.id)

def Block.targets (block : Block) : List Nat := block.ending.edges.map (·.target)

/-- The edges of a function lead to its blocks. -/
def Function.EdgesClosed (f : Function) : Prop :=
  ∀ block ∈ f.blocks, ∀ edge ∈ block.ending.edges, ∃ tgt ∈ f.blocks, tgt.id = edge.target

theorem Function.EdgesClosed.mem_ids (h : f.EdgesClosed) {block : Block} (hblock : block ∈ f.blocks)
    {tgt : Nat} (htarget : tgt ∈ block.targets) : tgt ∈ f.ids := by
  obtain ⟨edge, hedge, rfl⟩ := mem_map.mp htarget
  exact mem_map.mpr (h block hblock edge hedge)

/-! ## The counts -/

abbrev InOrder (incoming : List (Nat × Nat)) : Prop := (incoming.map Prod.fst).Pairwise (· < ·)

/-- The keys are entered, and the targets are counted once more each. -/
structure Counted (incoming : List (Nat × Nat)) (keys targets : List Nat)
    (counted : List (Nat × Nat)) : Prop where
  sorted : InOrder counted
  isSome_iff : ∀ id, (counted.lookup id).isSome ↔ (incoming.lookup id).isSome ∨ id ∈ keys
  getD_eq : ∀ id, (counted.lookup id).getD 0 = (incoming.lookup id).getD 0 + targets.count id

theorem forall_mem_addCount (property : Nat → Prop) {id : Nat} (hid : property id) (amount : Nat)
    (hkeys : ∀ e ∈ incoming, property e.1) : ∀ e ∈ addCount id amount incoming, property e.1 := by
  induction incoming with
  | nil => simpa [addCount] using hid
  | cons first rest ih =>
    obtain ⟨hkey, hrest⟩ := forall_mem_cons.mp hkeys
    unfold addCount
    split
    · exact forall_mem_cons.mpr ⟨hkey, hrest⟩
    · split
      · exact forall_mem_cons.mpr ⟨hid, hkeys⟩
      · exact forall_mem_cons.mpr ⟨hkey, ih hrest⟩

theorem sorted_addCount (id amount : Nat) (h : InOrder incoming) :
    InOrder (addCount id amount incoming) := by
  induction incoming with
  | nil => simp [addCount, InOrder]
  | cons e rest ih =>
    obtain ⟨hkey, hrest⟩ := pairwise_cons.mp h
    unfold addCount
    split_ifs with heq hlt
    · exact h
    · exact pairwise_cons.mpr ⟨forall_mem_cons.mpr ⟨hlt, fun k hk => hlt.trans (hkey k hk)⟩, h⟩
    · refine pairwise_cons.mpr ⟨forall_mem_map.mpr ?_, ih hrest⟩
      exact forall_mem_addCount (e.1 < ·) (by omega) amount (forall_mem_map.mp hkey)

theorem lookup_cons_eq_ite (key count other : Nat) (rest : List (Nat × Nat)) :
    ((key, count) :: rest).lookup other = if other = key then some count else rest.lookup other := by
  by_cases hother : other = key
  · rw [if_pos hother, hother, lookup_cons_self]
  · rw [lookup_cons, beq_false_of_ne hother, if_neg hother]

theorem lookup_addCount (id amount : Nat) (h : InOrder incoming)
    (other : Nat) : (addCount id amount incoming).lookup other =
      if other = id then some ((incoming.lookup id).getD 0 + amount) else incoming.lookup other := by
  induction incoming with
  | nil => simp [addCount]
  | cons e rest ih =>
    obtain ⟨key, count⟩ := e
    obtain ⟨hkey, hrest⟩ := pairwise_cons.mp h
    rcases Nat.lt_trichotomy id key with hlt | rfl | hgt
    · have hnone : ((key, count) :: rest).lookup id = none := by
        rw [lookup_cons_eq_ite, if_neg hlt.ne, lookup_eq_none_iff]
        exact fun e hentry => bne_iff_ne.mpr (hlt.trans (hkey _ (mem_map_of_mem hentry))).ne
      rw [addCount, if_neg hlt.ne, if_pos hlt, lookup_cons_eq_ite, hnone, Option.getD_none, Nat.zero_add]
    · simp only [addCount, lookup_cons_eq_ite, if_true, Option.getD_some]
      split <;> rfl
    · simp only [addCount, lookup_cons_eq_ite, if_neg hgt.ne', if_neg hgt.not_gt, ih hrest]
      by_cases hother : other = id
      · rw [if_pos hother, if_pos hother, hother, if_neg hgt.ne']
      · rw [if_neg hother, if_neg hother]

theorem counted_addCount (id amount : Nat) (h : InOrder incoming) :
    Counted incoming [id] (replicate amount id) (addCount id amount incoming) := by
  refine ⟨sorted_addCount id amount h, fun other => ?_, fun other => ?_⟩
  · rw [lookup_addCount id amount h]
    by_cases hother : other = id <;> simp [hother]
  · rw [lookup_addCount id amount h, count_replicate]
    by_cases hother : other = id <;> simp [hother, Ne.symm]

theorem Counted.foldl {α : Type} {step : List (Nat × Nat) → α → List (Nat × Nat)}
    {keys targets : α → List Nat} (hstep : ∀ incoming x,
      InOrder incoming → Counted incoming (keys x) (targets x) (step incoming x))
    (xs : List α) (h : InOrder incoming) :
    Counted incoming (xs.flatMap keys) (xs.flatMap targets) (xs.foldl step incoming) := by
  induction xs generalizing incoming with
  | nil => exact ⟨h, by simp, by simp⟩
  | cons x xs ih =>
    have hfirst := hstep incoming x h
    have hrest := ih hfirst.sorted
    refine ⟨hrest.sorted, fun id => ?_, fun id => ?_⟩
    · rw [foldl_cons, hrest.isSome_iff, hfirst.isSome_iff, flatMap_cons, mem_append, or_assoc]
    · rw [foldl_cons, hrest.getD_eq, hfirst.getD_eq, flatMap_cons, count_append, Nat.add_assoc]

theorem counted_incomingEdges (f : Function) :
    Counted [] (f.blocks.flatMap fun block => block.id :: block.targets)
      (f.blocks.flatMap Block.targets) (incomingEdges f) := by
  refine Counted.foldl (fun incoming block h => ?_) f.blocks .nil
  have hid := counted_addCount block.id 0 h
  have hedges := Counted.foldl (fun incoming (edge : Edge) => counted_addCount edge.target 1)
    block.ending.edges hid.sorted
  have htargets : block.targets = block.ending.edges.flatMap fun edge => [edge.target] :=
    map_eq_flatMap
  refine ⟨hedges.sorted, fun id => ?_, fun id => ?_⟩
  · rw [hedges.isSome_iff, hid.isSome_iff, or_assoc, htargets, mem_singleton, mem_cons]
  · rw [hedges.getD_eq, hid.getD_eq, htargets]
    rfl

/-! ## The search -/

/-- The blocks that are taken or ready are those to which no target leads that is left. -/
structure Draining (f : Function) (taken : List Block) (left : List Nat)
    (state : List (Nat × Nat) × List Nat) : Prop where
  counts : ∀ id ∈ f.ids, state.1.lookup id = some (left.count id)
  nodup : (taken.map (·.id) ++ state.2).Nodup
  mem_iff : ∀ id, id ∈ taken.map (·.id) ++ state.2 ↔ id ∈ f.ids ∧ id ∉ left

theorem draining_start (h : f.EdgesClosed) : Draining f [] (f.blocks.flatMap Block.targets)
    (incomingEdges f, ((incomingEdges f).filter (·.2 = 0)).map Prod.fst) := by
  obtain ⟨hsorted, hkeys, hcounts⟩ := counted_incomingEdges f
  have hlookup : ∀ id n, (incomingEdges f).lookup id = some n ↔
      id ∈ f.ids ∧ n = (f.blocks.flatMap Block.targets).count id := by
    intro id n
    have hids : ((incomingEdges f).lookup id).isSome ↔ id ∈ f.ids := by
      rw [hkeys id, mem_flatMap]
      constructor
      · rintro (hnil | ⟨block, hblock, hid⟩)
        · cases hnil
        · rcases mem_cons.mp hid with rfl | htarget
          · exact mem_map_of_mem hblock
          · exact h.mem_ids hblock htarget
      · intro hid
        obtain ⟨block, hblock, rfl⟩ := mem_map.mp hid
        exact .inr ⟨block, hblock, mem_cons_self⟩
    have hcount := hcounts id
    rw [← hids]
    cases hfound : (incomingEdges f).lookup id with
    | none => simp
    | some m =>
      rw [hfound, lookup_nil, Option.getD_some, Option.getD_none, Nat.zero_add] at hcount
      rw [← hcount, Option.some_inj, and_iff_right Option.isSome_some, eq_comm]
  have hnodup : ((incomingEdges f).map Prod.fst).Nodup := hsorted.imp Nat.ne_of_lt
  refine ⟨fun id hid => (hlookup id _).mpr ⟨hid, rfl⟩, hnodup.sublist (filter_sublist.map _),
    fun id => ?_⟩
  rw [← count_eq_zero, eq_comm, ← hlookup, AssocList.lookup_eq_some_iff hnodup]
  simp

theorem lookup_release (tgt id : Nat) (incoming : List (Nat × Nat)) :
    (incoming.map fun e => if e.1 = tgt then (e.1, e.2 - 1) else e).lookup id =
      (incoming.lookup id).map fun count => if id = tgt then count - 1 else count := by
  induction incoming with
  | nil => rfl
  | cons e rest ih =>
    obtain ⟨key, count⟩ := e
    by_cases hid : id = key
    · subst hid
      by_cases htarget : id = tgt <;> simp [htarget]
    · rw [map_cons, lookup_cons_eq_ite key count, if_neg hid, ← ih]
      split <;> exact (lookup_cons_eq_ite ..).trans (if_neg hid)

theorem Draining.release {edge : Edge} (h : Draining f taken (edge.target :: left) state)
    (hin : edge.target ∈ f.ids) : Draining f taken left (releaseEdge state edge) := by
  have hout : edge.target ∉ taken.map (·.id) ++ state.2 := fun hmem =>
    ((h.mem_iff _).mp hmem).2 mem_cons_self
  have hone : state.1.lookup edge.target = some 1 ↔ edge.target ∉ left := by
    rw [h.counts _ hin, count_cons_self, Option.some_inj, Nat.add_eq_right, count_eq_zero]
  refine ⟨fun id hid => ?_, ?_, fun id => ?_⟩
  · rw [releaseEdge, lookup_release, h.counts id hid, Option.map_some, count_cons]
    by_cases htarget : id = edge.target <;> simp [htarget, Ne.symm]
  · simp only [releaseEdge, hone]
    split
    · rw [← append_assoc]
      exact (perm_append_singleton _ _).nodup_iff.mpr (nodup_cons.mpr ⟨hout, h.nodup⟩)
    · exact h.nodup
  · have hmem := h.mem_iff id
    simp only [releaseEdge, hone]
    by_cases hid : id = edge.target
    · subst hid
      split <;> simp_all
    · split <;> simp_all

theorem Draining.releases {edges : List Edge}
    (h : Draining f taken (edges.map (·.target) ++ left) state)
    (hin : ∀ edge ∈ edges, edge.target ∈ f.ids) :
    Draining f taken left (edges.foldl releaseEdge state) := by
  induction edges generalizing state with
  | nil => exact h
  | cons edge edges ih =>
    obtain ⟨hfirst, hrest⟩ := forall_mem_cons.mp hin
    exact ih (h.release hfirst) hrest

/-- What the search has taken away lies behind no cycle. -/
structure Searched (f : Function) (taken rest : List Block) : Prop where
  perm : (taken ++ rest).Perm f.blocks
  acc : ∀ block ∈ taken, Acc (FlowEdge f) block.id

section Take

variable {block : Block} {front back : List Block}

theorem Draining.take (h : Draining f taken ((front ++ block :: back).flatMap Block.targets)
      (incoming, block.id :: ready)) : Draining f (taken ++ [block])
    (block.targets ++ (front ++ back).flatMap Block.targets) (incoming, ready) := by
  have hperm : ((front ++ block :: back).flatMap Block.targets).Perm
      (block.targets ++ (front ++ back).flatMap Block.targets) :=
    perm_middle.flatMap_right Block.targets
  refine ⟨fun id hid => ?_, by simpa using h.nodup, fun id => ?_⟩
  · exact (h.counts id hid).trans (congrArg some (hperm.count_eq id))
  · rw [map_append, append_assoc, ← hperm.mem_iff]
    exact h.mem_iff id

theorem Searched.take (h : Searched f taken (front ++ block :: back))
    (hout : block.id ∉ (front ++ block :: back).flatMap Block.targets) :
    Searched f (taken ++ [block]) (front ++ back) := by
  refine ⟨?_, fun other hother => ?_⟩
  · have hperm : (block :: (front ++ back)).Perm (front ++ block :: back) := perm_middle.symm
    rw [append_assoc]
    exact (hperm.append_left taken).trans h.perm
  · rcases mem_append.mp hother with hother | hother
    · exact h.acc other hother
    · obtain rfl := mem_singleton.mp hother
      refine ⟨_, fun source hsource => ?_⟩
      obtain ⟨pre, hbefore, rfl, edge, hedge, heq⟩ := hsource
      refine h.acc pre ((mem_append.mp (h.perm.mem_iff.mpr hbefore)).resolve_right fun hmem => ?_)
      exact hout (mem_flatMap.mpr ⟨pre, hmem, mem_map.mpr ⟨edge, hedge, heq⟩⟩)

end Take

theorem emplaceBlock_eq : emplaceBlock = fun map block => AssocList.add map block.id block := by
  funext map block
  unfold emplaceBlock AssocList.add
  cases map.lookup block.id <;> rfl

theorem lookup_foldl_emplaceBlock (blocks : List Block) (id : Nat) :
    (blocks.foldl emplaceBlock []).lookup id = blocks.find? (·.id == id) := by
  rw [emplaceBlock_eq]
  exact AssocList.lookup_foldl_add Block.id id blocks []

/-- The turns end with nothing ready. There are enough of them, since what has been taken or is ready
are different blocks. -/
theorem drainReady_spec (hclosed : f.EdgesClosed) (fuel : Nat)
    (h : Draining f taken (rest.flatMap Block.targets) (incoming, ready)) (hs : Searched f taken rest)
    (hfuel : ∀ ids : List Nat, ids.Nodup → ids ⊆ f.ids → ids.length ≤ fuel + taken.length) :
    ∃ taken' rest' counts, Searched f taken' rest' ∧
      Draining f taken' (rest'.flatMap Block.targets) (counts, []) ∧
      drainReady (f.blocks.foldl emplaceBlock []) fuel incoming ready taken.length =
        some taken'.length := by
  induction fuel generalizing taken rest incoming ready with
  | zero =>
    cases ready with
    | nil => exact ⟨taken, rest, incoming, hs, h, rfl⟩
    | cons id ready =>
      have hle := hfuel _ h.nodup fun id hid => ((h.mem_iff id).mp hid).1
      simp at hle
  | succ fuel ih =>
    cases ready with
    | nil => exact ⟨taken, rest, incoming, hs, h, rfl⟩
    | cons id ready =>
      obtain ⟨hid, hout⟩ := (h.mem_iff id).mp (mem_append_right _ mem_cons_self)
      obtain ⟨block, hfind⟩ : ∃ block, f.blocks.find? (·.id == id) = some block := by
        obtain ⟨block, hblock, rfl⟩ := mem_map.mp hid
        exact Option.isSome_iff_exists.mp (find?_isSome.mpr ⟨block, hblock, beq_self_eq_true _⟩)
      obtain rfl : block.id = id := by simpa using find?_some hfind
      have hblock := mem_of_find?_eq_some hfind
      have hrest : block ∈ rest := by
        refine (mem_append.mp (hs.perm.mem_iff.mpr hblock)).resolve_left fun htaken => ?_
        exact disjoint_of_nodup_append h.nodup (mem_map_of_mem htaken) mem_cons_self
      obtain ⟨front, back, rfl⟩ := append_of_mem hrest
      simp only [drainReady, lookup_foldl_emplaceBlock, hfind, Option.bind_eq_bind, Option.bind_some]
      rw [← length_singleton, ← length_append]
      refine ih (h.take.releases fun edge hedge => ?_) (hs.take hout) fun ids hids hsub => ?_
      · exact mem_map.mpr (hclosed block hblock edge hedge)
      · rw [length_append, length_singleton, Nat.add_comm _ 1, ← Nat.add_assoc]
        exact hfuel ids hids hsub

theorem hasLoop_spec (hclosed : f.EdgesClosed) : ∃ taken rest counts, Searched f taken rest ∧
    Draining f taken (rest.flatMap Block.targets) (counts, []) ∧
    hasLoop f = some (taken.length != (f.blocks.foldl emplaceBlock []).length) := by
  have hstart := draining_start hclosed
  obtain ⟨taken, rest, counts, hs, h, hdrain⟩ := drainReady_spec hclosed (incomingEdges f).length
    hstart ⟨.refl _, by simp⟩ fun ids hids hsub => by
      have hkeys : ids ⊆ (incomingEdges f).map Prod.fst := fun id hid =>
        mem_map_of_mem (AssocList.mem_of_lookup (hstart.counts id (hsub hid)))
      exact (hids.subperm hkeys).length_le.trans_eq (length_map _)
  refine ⟨taken, rest, counts, hs, h, ?_⟩
  rw [hasLoop]
  exact congrArg (Option.bind · _) hdrain

theorem hasLoop_isSome (hclosed : f.EdgesClosed) : (hasLoop f).isSome := by
  obtain ⟨taken, rest, counts, -, -, heq⟩ := hasLoop_spec hclosed
  rw [heq]
  rfl

/-! ## Cycles -/

theorem not_transGen_self_of_acc {α : Type} {r : α → α → Prop} {a : α} (h : Acc r a) :
    ¬TransGen r a a := by
  replace h := h.transGen
  induction h with
  | intro a _ ih => exact fun hcycle => ih a hcycle hcycle

/-- With nothing ready, every block that is left has an edge from one that is left. -/
theorem exists_before (hids : f.ids.Nodup) (hs : Searched f taken rest)
    (h : Draining f taken (rest.flatMap Block.targets) (incoming, [])) {id : Nat}
    (hid : id ∈ rest.map (·.id)) : ∃ pre ∈ rest.map (·.id), FlowEdge f pre id := by
  have hperm := hs.perm.map (·.id)
  rw [map_append] at hperm
  have hout : id ∉ taken.map (·.id) := fun htaken =>
    disjoint_of_nodup_append (hperm.nodup_iff.mpr hids) htaken hid
  have hleft : id ∈ rest.flatMap Block.targets := by
    by_contra hleft
    exact hout (append_nil (taken.map (·.id)) ▸
      (h.mem_iff id).mpr ⟨hperm.mem_iff.mp (mem_append_right _ hid), hleft⟩)
  obtain ⟨pre, hbefore, htarget⟩ := mem_flatMap.mp hleft
  exact ⟨pre.id, mem_map_of_mem hbefore, pre, hs.perm.mem_iff.mp (mem_append_right _ hbefore),
    rfl, mem_map.mp htarget⟩

/-- Where the edges lead to blocks and no two blocks have one identity, `has_loop` tells whether there
is a cycle of edges. -/
theorem hasLoop_decides (hclosed : f.EdgesClosed) (hids : f.ids.Nodup) :
    ∃ looping, hasLoop f = some looping ∧ (looping = true ↔ ∃ id, TransGen (FlowEdge f) id id) := by
  obtain ⟨taken, rest, counts, hs, h, heq⟩ := hasLoop_spec hclosed
  refine ⟨_, heq, ?_⟩
  rw [emplaceBlock_eq, AssocList.foldl_add_of_nodup Block.id f.blocks [] hids, nil_append, length_map,
    ← hs.perm.length_eq, length_append, bne_iff_ne, ne_eq, Nat.left_eq_add, length_eq_zero_iff]
  constructor
  · intro hrest
    by_contra hacyclic
    have hstrict : IsStrictOrder Nat (TransGen (FlowEdge f)) :=
      { irrefl := fun id hcycle => hacyclic ⟨id, hcycle⟩, trans := fun _ _ _ => .trans }
    obtain ⟨block, hblock⟩ := exists_mem_of_ne_nil rest hrest
    have hfinite : Set.WellFoundedOn {id | id ∈ rest.map (·.id)} (TransGen (FlowEdge f)) :=
      (rest.map (·.id)).finite_toSet.wellFoundedOn
    refine hfinite.induction (P := fun _ => False) (mem_map_of_mem hblock) fun id hid hleast => ?_
    obtain ⟨pre, hbefore, hedge⟩ := exists_before hids hs h hid
    exact hleast pre hbefore (.single hedge)
  · rintro ⟨id, hcycle⟩ rfl
    obtain ⟨next, ⟨block, hblock, rfl, -⟩, -⟩ := TransGen.head'_iff.mp hcycle
    have htaken : block ∈ taken := append_nil taken ▸ hs.perm.mem_iff.mpr hblock
    exact not_transGen_self_of_acc (hs.acc block htaken) hcycle

/-- A function of empty blocks with these identities and targets. -/
def branching (blocks : List (Nat × List Nat)) : Function where
  id := ⟨"m", .function, "f"⟩
  resultType := { tag := .void }
  blocks := blocks.map fun block =>
    { id := block.1, ending := { tag := .branch, edges := block.2.map (⟨·, []⟩) } }

theorem hasLoop_decides_parallel : ∃ looping,
    hasLoop (branching [(0, [1, 1]), (1, [0]), (2, [])]) = some looping ∧ (looping = true ↔
      ∃ id, TransGen (FlowEdge (branching [(0, [1, 1]), (1, [0]), (2, [])])) id id) := by
  exact hasLoop_decides (by unfold Function.EdgesClosed; decide) (by decide)

/-- The edge of a second block with the identity 0 is counted and never released. -/
theorem hasLoop_sharedIdentity : (branching [(0, []), (0, [1]), (1, [])]).EdgesClosed ∧
      hasLoop (branching [(0, []), (0, [1]), (1, [])]) = some true ∧
      ¬∃ id, TransGen (FlowEdge (branching [(0, []), (0, [1]), (1, [])])) id id := by
  refine ⟨by unfold Function.EdgesClosed; decide, by decide, fun ⟨id, hcycle⟩ => ?_⟩
  have hlt : ∀ {source tgt},
      FlowEdge (branching [(0, []), (0, [1]), (1, [])]) source tgt → source < tgt := by
    rintro source tgt ⟨block, hblock, rfl, edge, hedge, rfl⟩
    simp only [branching, map_cons, map_nil, mem_cons, not_mem_nil, or_false] at hblock
    rcases hblock with rfl | rfl | rfl <;> simp_all
  exact not_transGen_self_of_acc ((Subrelation.wf hlt wellFounded_lt).apply id) hcycle

end Neri.Codegen
