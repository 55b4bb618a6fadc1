import Neri.Codegen.FunctionVerifier
import Neri.Codegen.ProgramPoints
import Neri.Lib.AssocList
import Neri.Lib.ExceptFold

/-!
# What the context of a verified function holds

Once `verify_blocks_and_uses` has returned, its context lists the blocks, the definitions, the uses
and the edges of the function, each value has one definition, each use has one, and each edge leads
to a block other than the entry.
-/

namespace Neri.Codegen

open ExceptFold List

variable {code : ReaderErrorKind} {message : String} {block : Block} {instr : Int}
  {ctx context' : FunctionContext} {use : UseSite} {src tgt : Nat}

@[simp]
theorem failIf_eq_ok {bad : Bool} {u : Unit} : failIf bad code message = .ok u ↔ bad = false := by
  cases bad <;> simp [failIf, fail]

@[simp]
theorem fail_eq_ok {α : Type} {a : α} : fail code message = .ok a ↔ False := by
  simp [fail]

/-! ## Definitions -/

def parameterDefinitions (block : Block) (parameter : BlockParameter) : List (Nat × Definition) :=
  [(parameter.id, ⟨parameter.valueType, block.id, -1⟩)]

/-- The entries that the results of an instruction add. -/
def instructionDefinitions (block : Block) (instruction : Instruction × Nat) :
    List (Nat × Definition) :=
  instruction.1.results.flatMap fun result =>
    [(result.id, ⟨result.valueType, block.id, instruction.2⟩)]

def blockDefinitions (block : Block) : List (Nat × Definition) :=
  block.parameters.flatMap (parameterDefinitions block) ++
    block.instructions.zipIdx.flatMap (instructionDefinitions block)

/-- The entry that the unsafe root adds. -/
def rootDefinitions (f : Function) : List (Nat × Definition) :=
  f.unsafeRoot.toList.map fun root => (root.id, ⟨root.valueType, f.entryBlock, -1⟩)

/-- `after` is `before` with the entries added, and defines no value twice if `before` does not. -/
structure Emplaced (before after entries : List (Nat × Definition)) : Prop where
  eq : after = before ++ entries
  nodup : (before.map (·.1)).Nodup → (after.map (·.1)).Nodup

theorem Emplaced.refl (definitions : List (Nat × Definition)) :
    Emplaced definitions definitions [] :=
  ⟨(append_nil _).symm, id⟩

theorem Emplaced.trans {a b c xs ys : List (Nat × Definition)} (h₁ : Emplaced a b xs)
    (h₂ : Emplaced b c ys) : Emplaced a c (xs ++ ys) :=
  ⟨by rw [h₂.eq, h₁.eq, append_assoc], h₂.nodup ∘ h₁.nodup⟩

variable {definitions definitions' : List (Nat × Definition)}

theorem emplaceDefinition_emplaced {id : Nat}
    {value : Definition}
    (h : emplaceDefinition definitions id value code message = .ok definitions') :
    Emplaced definitions definitions' [(id, value)] := by
  rw [emplaceDefinition] at h
  split at h
  · simp at h
  · rename_i hlookup
    cases h
    exact ⟨rfl, fun hnodup => AssocList.nodup_keys_append hnodup hlookup⟩

section

variable {mod : CodegenModule}

theorem registerBlock_emplaced
    (h : registerBlock mod definitions block = .ok definitions') :
    Emplaced definitions definitions' (blockDefinitions block) := by
  rw [registerBlock, bind_eq_ok] at h
  obtain ⟨middle, hparameters, hinstructions⟩ := h
  refine Emplaced.trans (foldlM_extends Emplaced.refl Emplaced.trans ?_ hparameters)
    (foldlM_extends Emplaced.refl Emplaced.trans ?_ hinstructions)
  · intro s parameter s' hp
    simp only [registerParameter, bind_eq_ok] at hp
    obtain ⟨-, -, -, -, hp⟩ := hp
    exact emplaceDefinition_emplaced hp
  · intro s instr s' hi
    simp only [registerInstruction, bind_eq_ok] at hi
    obtain ⟨-, -, hi⟩ := hi
    refine foldlM_extends Emplaced.refl Emplaced.trans ?_ hi
    intro t result t' hr
    simp only [registerResult, bind_eq_ok] at hr
    obtain ⟨-, -, hr⟩ := hr
    exact emplaceDefinition_emplaced hr

theorem registerDefinitions_emplaced {f : Function}
    (h : registerDefinitions mod f = .ok definitions) :
    Emplaced [] definitions (rootDefinitions f ++ f.blocks.flatMap blockDefinitions) := by
  rw [registerDefinitions, bind_eq_ok] at h
  obtain ⟨roots, hroots, hblocks⟩ := h
  refine Emplaced.trans ?_ (foldlM_extends Emplaced.refl Emplaced.trans
    (fun _ _ _ hb => registerBlock_emplaced hb) hblocks)
  rw [registerRoot] at hroots
  rw [rootDefinitions]
  cases hroot : f.unsafeRoot with
  | none =>
    rw [hroot] at hroots
    cases hroots
    exact Emplaced.refl []
  | some root =>
    rw [hroot] at hroots
    simp only [bind_eq_ok] at hroots
    obtain ⟨-, -, hroots⟩ := hroots
    exact emplaceDefinition_emplaced hroots

theorem mem_definitions_iff {f : Function}
    (h : registerDefinitions mod f = .ok definitions) (value : Nat) (point : Point) :
    (∃ defn, (value, defn) ∈ definitions ∧
      (defn.block, defn.instruction) = point) ↔ DefinedAt f value point := by
  rw [(registerDefinitions_emplaced h).eq, nil_append]
  simp only [mem_append, mem_flatMap, rootDefinitions, blockDefinitions,
    parameterDefinitions, instructionDefinitions, mem_map, Option.mem_toList, DefinedAt]
  constructor
  · rintro ⟨defn, ⟨root, hroot, heq⟩ | ⟨block, hblock, ⟨p, hp, heq⟩ | ⟨i, hi, r, hr, heq⟩⟩, rfl⟩
    · cases heq
      exact .inl ⟨root, hroot, rfl, rfl⟩
    · cases mem_singleton.mp heq
      exact .inr ⟨block, hblock, .inl ⟨p, hp, rfl, rfl⟩⟩
    · cases mem_singleton.mp heq
      exact .inr ⟨block, hblock, .inr ⟨i.1, i.2, hi, r, hr, rfl, rfl⟩⟩
  · rintro (⟨root, hroot, rfl, rfl⟩ |
      ⟨block, hblock, ⟨p, hp, rfl, rfl⟩ | ⟨i, index, hi, r, hr, rfl, rfl⟩⟩)
    · exact ⟨_, .inl ⟨root, hroot, rfl⟩, rfl⟩
    · exact ⟨_, .inr ⟨block, hblock, .inl ⟨p, hp, mem_singleton.mpr rfl⟩⟩, rfl⟩
    · exact ⟨_, .inr ⟨block, hblock, .inr ⟨(i, index), hi, r, hr, mem_singleton.mpr rfl⟩⟩, rfl⟩

end

/-! ## Uses and edges -/

/-- What the walk over the blocks registers. -/
inductive Registration where
  | use (site : UseSite)
  | edge (source target : Nat)

def Registration.use? : Registration → Option UseSite
  | .use site => some site
  | .edge _ _ => none

def Registration.edge? : Registration → Option (Nat × Nat)
  | .use _ => none
  | .edge src tgt => some (src, tgt)

/-- A registered use has a definition; a registered edge leads to a block other than the entry. -/
def Registration.Valid (f : Function) (context : FunctionContext) : Registration → Prop
  | .use site => context.definitions.lookup site.value ≠ none
  | .edge _ tgt => context.blocks.lookup tgt ≠ none ∧ tgt ≠ f.entryBlock

/-- `after` is `before` with these uses and edges registered. -/
structure Registered (f : Function) (before after : FunctionContext) (entries : List Registration) :
    Prop where
  blocks : after.blocks = before.blocks
  definitions : after.definitions = before.definitions
  uses : after.uses = before.uses ++ entries.filterMap Registration.use?
  edges : after.edges = before.edges ++ entries.filterMap Registration.edge?
  valid : ∀ e ∈ entries, e.Valid f before

section

variable {f : Function}

theorem Registered.refl (ctx : FunctionContext) : Registered f ctx ctx [] :=
  ⟨rfl, rfl, (append_nil _).symm, (append_nil _).symm, fun _ h => by simp at h⟩

theorem Registered.trans {a b c : FunctionContext} {xs ys : List Registration}
    (h₁ : Registered f a b xs) (h₂ : Registered f b c ys) : Registered f a c (xs ++ ys) where
  blocks := h₂.blocks.trans h₁.blocks
  definitions := h₂.definitions.trans h₁.definitions
  uses := by rw [h₂.uses, h₁.uses, filterMap_append, append_assoc]
  edges := by rw [h₂.edges, h₁.edges, filterMap_append, append_assoc]
  valid := by
    intro e he
    rcases mem_append.mp he with h | h
    · exact h₁.valid e h
    · have hvalid := h₂.valid e h
      cases e with
      | use site => rwa [Registration.Valid, h₁.definitions] at hvalid
      | edge src tgt => rwa [Registration.Valid, h₁.blocks] at hvalid

theorem Registered.withEffects {a b : FunctionContext} {xs : List Registration} (effects : Nat)
    (h : Registered f a b xs) : Registered f a { b with requiredEffects := effects } xs :=
  ⟨h.blocks, h.definitions, h.uses, h.edges, h.valid⟩

theorem registerUse_registered {block value : Nat}
    (h : registerUse block instr ctx value = .ok context') :
    Registered f ctx context' [.use ⟨value, block, instr⟩] := by
  rw [registerUse] at h
  split at h
  · simp at h
  · rename_i defn hlookup
    cases h
    refine ⟨rfl, rfl, rfl, (append_nil _).symm, fun e he => ?_⟩
    rw [mem_singleton.mp he, Registration.Valid, hlookup]
    simp

/-- The uses of a list of values at one place. -/
def usesAt (block : Nat) (instruction : Int) (values : List Nat) : List Registration :=
  values.map fun value => .use ⟨value, block, instruction⟩

def edgeRegistrations (block : Block) (instruction : Int) (value : Edge) : List Registration :=
  usesAt block.id instruction value.arguments ++ [.edge block.id value.target]

theorem verifyEdge_registered {value : Edge}
    (h : verifyEdge f block instr ctx value = .ok context') :
    Registered f ctx context' (edgeRegistrations block instr value) := by
  rw [verifyEdge] at h
  split at h
  · simp at h
  · rename_i tgt htarget
    simp only [bind_eq_ok, failIf_eq_ok, beq_eq_false_iff_ne, bne_eq_false_iff_eq] at h
    obtain ⟨-, he, -, hlength, middle, harguments, hpush⟩ := h
    have hmiddle : Registered f ctx middle
        (usesAt block.id instr value.arguments) := by
      have := foldlM_extends (R := Registered f)
        (g := fun argument : Nat × BlockParameter =>
          [Registration.use ⟨argument.1, block.id, instr⟩])
        Registered.refl Registered.trans ?_ harguments
      · have hfst : (value.arguments.zip tgt.parameters).map Prod.fst = value.arguments :=
          map_fst_zip hlength.le
        rw [← map_eq_flatMap] at this
        rw [usesAt, ← hfst, map_map]
        exact this
      · intro s argument s' hs
        simp only [verifyArgument, bind_eq_ok] at hs
        obtain ⟨t, ht, -, -, -, -, hs⟩ := hs
        cases hs
        exact registerUse_registered ht
    cases hpush
    refine hmiddle.trans ⟨rfl, rfl, (append_nil _).symm, rfl, fun e hentry' => ?_⟩
    rw [mem_singleton.mp hentry', Registration.Valid, hmiddle.blocks, htarget]
    exact ⟨by simp, he⟩

/-- What a terminator registers: its condition, its edges and its return value. -/
def terminatorRegistrations (block : Block) : List Registration :=
  usesAt block.id block.instructions.length block.ending.condition.toList ++
    block.ending.edges.flatMap (edgeRegistrations block block.instructions.length) ++
    usesAt block.id block.instructions.length block.ending.returnValue.toList

theorem foldlM_verifyEdge_registered {edges : List Edge}
    (h : edges.foldlM (verifyEdge f block instr) ctx = .ok context') :
    Registered f ctx context' (edges.flatMap (edgeRegistrations block instr)) :=
  foldlM_extends Registered.refl Registered.trans (fun _ _ _ hs => verifyEdge_registered hs) h

variable {mod : CodegenModule} {verifyInstruction : InstructionCheck}

theorem verifyTerminator_registered (h : verifyTerminator mod f block ctx = .ok context') :
    Registered f ctx context' (terminatorRegistrations block) := by
  simp only [verifyTerminator, bind_eq_ok] at h
  obtain ⟨-, -, h⟩ := h
  rw [terminatorRegistrations]
  split at h
  · simp only [bind_eq_ok, failIf_eq_ok, Bool.or_eq_false_iff, Option.isSome_eq_false_iff,
      Option.isNone_iff_eq_none] at h
    obtain ⟨-, ⟨⟨-, hcond⟩, hreturn⟩, hedges⟩ := h
    rw [hcond, hreturn]
    simpa [usesAt] using foldlM_verifyEdge_registered hedges
  · split at h
    · simp at h
    · rename_i condition hcond
      simp only [bind_eq_ok, failIf_eq_ok, Bool.or_eq_false_iff, Option.isSome_eq_false_iff,
        Option.isNone_iff_eq_none] at h
      obtain ⟨-, ⟨-, hreturn⟩, middle, huse, -, -, -, -, hedges⟩ := h
      rw [hcond, hreturn]
      have := (registerUse_registered (f := f) huse).trans (foldlM_verifyEdge_registered hedges)
      simpa [usesAt] using this
  · simp only [bind_eq_ok, failIf_eq_ok, Bool.or_eq_false_iff, Option.isSome_eq_false_iff,
      Option.isNone_iff_eq_none, Bool.not_eq_false', List.isEmpty_iff] at h
    obtain ⟨-, ⟨hedges, hcond⟩, h⟩ := h
    rw [hcond, hedges]
    split at h
    · simp only [bind_eq_ok, failIf_eq_ok, Option.isSome_eq_false_iff,
        Option.isNone_iff_eq_none] at h
      obtain ⟨-, hreturn, h⟩ := h
      cases h
      rw [hreturn]
      exact Registered.refl ctx
    · split at h
      · simp at h
      · rename_i value hreturn
        simp only [bind_eq_ok] at h
        obtain ⟨middle, huse, -, -, -, -, h⟩ := h
        cases h
        rw [hreturn]
        exact registerUse_registered huse
  · simp only [bind_eq_ok, failIf_eq_ok, Bool.or_eq_false_iff, Option.isSome_eq_false_iff,
      Option.isNone_iff_eq_none, Bool.not_eq_false', List.isEmpty_iff] at h
    obtain ⟨-, ⟨⟨⟨⟨⟨hedges, hcond⟩, hreturn⟩, -⟩, -⟩, -⟩, h⟩ := h
    cases h
    rw [hcond, hedges, hreturn]
    exact (Registered.refl ctx).withEffects _

/-- What a block registers: the operands of its instructions, then its terminator. -/
def blockRegistrations (block : Block) : List Registration :=
  block.instructions.zipIdx.flatMap (fun instr =>
    usesAt block.id instr.2 instr.1.operands) ++ terminatorRegistrations block

theorem verifyBlock_registered (h : verifyBlock mod verifyInstruction f ctx block = .ok context') :
    Registered f ctx context' (blockRegistrations block) := by
  simp only [verifyBlock, bind_eq_ok] at h
  obtain ⟨middle, hinstructions, hterminator⟩ := h
  refine (foldlM_extends Registered.refl Registered.trans ?_ hinstructions).trans
    (verifyTerminator_registered hterminator)
  intro s instr s' hs
  simp only [verifyBlockInstruction, bind_eq_ok] at hs
  obtain ⟨t, hoperands, effects, -, -, -, hs⟩ := hs
  cases hs
  have := foldlM_extends (R := Registered f)
    (g := fun value => [Registration.use ⟨value, block.id, instr.2⟩])
    Registered.refl Registered.trans (fun _ _ _ h => registerUse_registered h) hoperands
  refine Registered.withEffects _ ?_
  rwa [← map_eq_flatMap] at this

end

/-! ## The whole function -/

/-- Emplacing blocks keeps one for each identity: none is lost only if all identities differ. -/
theorem foldl_emplaceBlock (blocks : List Block) : ∀ map : List (Nat × Block),
    (blocks.foldl emplaceBlock map).length ≤ map.length + blocks.length ∧
      ((blocks.foldl emplaceBlock map).length = map.length + blocks.length → (map.map (·.1)).Nodup →
        blocks.foldl emplaceBlock map = map ++ blocks.map (fun block => (block.id, block)) ∧
          ((blocks.foldl emplaceBlock map).map (·.1)).Nodup) := by
  induction blocks with
  | nil => exact fun map => ⟨le_rfl, fun _ hnodup => ⟨(append_nil _).symm, hnodup⟩⟩
  | cons block blocks ih =>
    intro map
    rw [foldl_cons, emplaceBlock]
    cases hlookup : map.lookup block.id with
    | some found =>
      simp only
      obtain ⟨hle, -⟩ := ih map
      refine ⟨hle.trans (by simp), fun heq => ?_⟩
      rw [length_cons] at heq
      exact absurd heq (by omega)
    | none =>
      obtain ⟨hle, heq⟩ := ih (map ++ [(block.id, block)])
      rw [length_append, length_singleton] at hle heq
      refine ⟨hle.trans (by simp; omega), fun hlength hnodup => ?_⟩
      obtain ⟨hresult, hkeys⟩ := heq (by rw [hlength, length_cons]; omega)
        (AssocList.nodup_keys_append hnodup hlookup)
      exact ⟨by rw [hresult]; simp, hkeys⟩

/-- The edges of the terminators, in the order of the blocks. -/
def flowEdges (f : Function) : List (Nat × Nat) :=
  f.blocks.flatMap fun block => block.ending.edges.map fun edge => (block.id, edge.target)

/-- The context has the blocks of the function and their edges. -/
structure Records (f : Function) (context : FunctionContext) : Prop where
  blocks : context.blocks = f.blocks.map (fun block => (block.id, block))
  edges : context.edges = flowEdges f

/-- The context of a function that passed the block and use checks describes the function. -/
structure Describes (f : Function) (context : FunctionContext) : Prop extends
    Records f context where
  ids_nodup : (f.blocks.map (·.id)).Nodup
  entry_mem : f.entryBlock ∈ f.blocks.map (·.id)
  definitions_nodup : (context.definitions.map (·.1)).Nodup
  definitions : ∀ value point, (∃ defn, (value, defn) ∈ context.definitions ∧
    (defn.block, defn.instruction) = point) ↔ DefinedAt f value point
  uses : ∀ use : UseSite, use ∈ context.uses ↔ UsedAt f use.value (use.block, use.instruction)
  use_defined : ∀ use ∈ context.uses, context.definitions.lookup use.value ≠ none
  target_mem : ∀ src tgt, FlowEdge f src tgt → tgt ∈ f.blocks.map (·.id) ∧ tgt ≠ f.entryBlock

theorem mem_use_usesAt {block : Nat} {values : List Nat} :
    Registration.use use ∈ usesAt block instr values ↔
      use.value ∈ values ∧ (use.block, use.instruction) = (block, instr) := by
  obtain ⟨value, useBlock, useInstruction⟩ := use
  simp only [usesAt, mem_map, Registration.use.injEq, UseSite.mk.injEq, Prod.mk.injEq]
  constructor
  · rintro ⟨v, hv, rfl, rfl, rfl⟩
    exact ⟨hv, rfl, rfl⟩
  · rintro ⟨hv, rfl, rfl⟩
    exact ⟨value, hv, rfl, rfl, rfl⟩

variable {f : Function}

theorem mem_use_blockRegistrations : Registration.use use ∈ f.blocks.flatMap blockRegistrations ↔
      UsedAt f use.value (use.block, use.instruction) := by
  simp only [mem_flatMap, UsedAt, blockRegistrations, mem_append,
    terminatorRegistrations, edgeRegistrations, mem_use_usesAt, Terminator.operands,
    mem_singleton, reduceCtorEq, or_false]
  refine exists_congr fun block => and_congr_right fun _ => or_congr ?_ ?_
  · constructor
    · rintro ⟨⟨instr, index⟩, hmem, hvalue, hpoint⟩
      exact ⟨instr, index, hmem, hvalue, hpoint⟩
    · rintro ⟨instr, index, hmem, hvalue, hpoint⟩
      exact ⟨(instr, index), hmem, hvalue, hpoint⟩
  · constructor
    · rintro ((⟨hvalue, hpoint⟩ | ⟨edge, hedge, hvalue, hpoint⟩) | ⟨hvalue, hpoint⟩)
      · exact ⟨.inl (.inl hvalue), hpoint⟩
      · exact ⟨.inl (.inr ⟨edge, hedge, hvalue⟩), hpoint⟩
      · exact ⟨.inr hvalue, hpoint⟩
    · rintro ⟨(hvalue | ⟨edge, hedge, hvalue⟩) | hvalue, hpoint⟩
      · exact .inl (.inl ⟨hvalue, hpoint⟩)
      · exact .inl (.inr ⟨edge, hedge, hvalue, hpoint⟩)
      · exact .inr ⟨hvalue, hpoint⟩

theorem mem_flowEdges : (src, tgt) ∈ flowEdges f ↔ FlowEdge f src tgt := by
  simp [flowEdges, FlowEdge, ← exists_and_left, and_left_comm]

theorem filterMap_edge?_usesAt {block : Nat} {values : List Nat} :
    (usesAt block instr values).filterMap Registration.edge? = [] := by
  simp [usesAt, Registration.edge?]

theorem filterMap_edge?_blockRegistrations (f : Function) :
    (f.blocks.flatMap blockRegistrations).filterMap Registration.edge? = flowEdges f := by
  simp only [flowEdges, filterMap_flatMap, blockRegistrations, terminatorRegistrations,
    edgeRegistrations, filterMap_append, filterMap_edge?_usesAt, nil_append, append_nil,
    flatMap_eq_nil_iff.mpr fun _ _ => rfl, map_eq_flatMap]
  rfl

theorem mem_filterMap_use? {entries : List Registration} :
    use ∈ entries.filterMap Registration.use? ↔ Registration.use use ∈ entries := by
  rw [mem_filterMap]
  constructor
  · rintro ⟨e, he, heq⟩
    cases e with
    | use site => cases heq; exact he
    | edge src tgt => cases heq
  · exact fun h => ⟨_, h, rfl⟩

theorem verifyBlocksAndUses_describes {mod : CodegenModule}
    {verifyInstruction : InstructionCheck}
    (h : verifyBlocksAndUses mod verifyInstruction f = .ok ctx) : Describes f ctx := by
  simp only [verifyBlocksAndUses, bind_eq_ok, failIf_eq_ok, bne_eq_false_iff_eq] at h
  obtain ⟨-, hlength, h⟩ := h
  obtain ⟨hblocks, hkeys⟩ := (foldl_emplaceBlock f.blocks []).2 (by simpa using hlength)
    nodup_nil
  rw [nil_append] at hblocks
  split at h
  · simp at h
  · rename_i e he
    simp only [bind_eq_ok, failIf_eq_ok, bne_eq_false_iff_eq] at h
    obtain ⟨-, hfirst, definitions, hdefinitions, -, -, -, -, h⟩ := h
    have hregistered := foldlM_extends Registered.refl Registered.trans
      (fun _ _ _ hs => verifyBlock_registered hs) h
    have hdefs := registerDefinitions_emplaced hdefinitions
    have huses : ∀ use, use ∈ ctx.uses ↔
        Registration.use use ∈ f.blocks.flatMap blockRegistrations := by
      intro use
      rw [hregistered.uses, nil_append, mem_filterMap_use?]
    refine ⟨⟨hregistered.blocks.trans hblocks, ?_⟩, ?_, ?_, ?_, ?_, ?_, ?_, ?_⟩
    · rw [hregistered.edges, nil_append, filterMap_edge?_blockRegistrations]
    · rw [hblocks, map_map] at hkeys
      exact hkeys
    · obtain ⟨first, hfirst, hid⟩ := Option.map_eq_some_iff.mp hfirst
      exact hid ▸ mem_map_of_mem (mem_of_mem_head? hfirst)
    · rw [hregistered.definitions]
      exact hdefs.nodup nodup_nil
    · intro value point
      rw [hregistered.definitions]
      exact mem_definitions_iff hdefinitions value point
    · exact fun use => (huses use).trans mem_use_blockRegistrations
    · intro use huse
      rw [hregistered.definitions]
      exact hregistered.valid _ ((huses use).mp huse)
    · intro src tgt hedge
      rw [← mem_flowEdges, ← filterMap_edge?_blockRegistrations, mem_filterMap] at hedge
      obtain ⟨e, he, heq⟩ := hedge
      cases e with
      | use site => cases heq
      | edge source' target' =>
      cases heq
      obtain ⟨hlookup, hne⟩ := hregistered.valid _ he
      refine ⟨?_, hne⟩
      by_contra hmem
      refine hlookup (lookup_eq_none_iff.mpr fun e he => ?_)
      rw [hblocks] at he
      obtain ⟨block, hblock, rfl⟩ := mem_map.mp he
      by_contra heq
      rw [bne_iff_ne, not_not] at heq
      exact hmem (heq ▸ mem_map_of_mem hblock)

end Neri.Codegen
