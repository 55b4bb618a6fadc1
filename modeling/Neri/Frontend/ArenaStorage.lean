import Neri.Lib.LinkedChain

/-!
# Arenas (`arena_storage.hk`, `arena_checkpoint_index.hk`, `arena_index.hk`)

An arena keeps syntax or bound nodes in a doubly linked chain behind a sentinel, remembers the node
of the last read, and keeps every 128th node in a tree of checkpoints. An arena may have a parent: it
goes on from the nodes that the parent had when the arena was made. `SyntaxArena` and `BoundArena`
create each node that they link. Nodes and arenas are mutable objects: they are references into
`Arenas`, which has the links of all nodes and the fields of all arenas. What else a node carries is
left out.
-/

namespace Neri.Frontend

open LinkedChain

/-! ## Checkpoints -/

/-- `ArenaCheckpointNode`, or the null reference. -/
inductive ArenaCheckpointNode (α : Type) where
  | null
  | node (value : α) (left right : ArenaCheckpointNode α)

namespace ArenaCheckpointNode

variable {α : Type}

def orCreated (child : ArenaCheckpointNode α) (value : α) : ArenaCheckpointNode α :=
  match child with
  | .null => .node value .null .null
  | child => child

/-- `addAt`. It is called on nodes only. -/
def addAt (tree : ArenaCheckpointNode α) (start span index : Nat) (value : α) :
    ArenaCheckpointNode α :=
  match tree with
  | .null => .null
  | .node kept left right =>
    if span ≤ 1 then .node value left right
    else
      let half := span / 2
      if index < start + half then
        .node kept (addAt (left.orCreated value) start half index value) right
      else
        .node kept left (addAt (right.orCreated value) (start + half) half index value)
termination_by span

/-- `getAt`. Where a child is missing the value of the node stands in for it. -/
def getAt (tree : ArenaCheckpointNode α) (missing : α) (start span index : Nat) : α :=
  match tree with
  | .null => missing
  | .node value left right =>
    if span ≤ 1 then value
    else
      let half := span / 2
      if index < start + half then left.getAt value start half index
      else right.getAt value (start + half) half index

end ArenaCheckpointNode

structure ArenaCheckpointIndex (α : Type) where
  fallback : α
  root : ArenaCheckpointNode α := .null
  capacity : Nat := 1
  size : Nat := 0

namespace ArenaCheckpointIndex

variable {α : Type}

def add (checkpoints : ArenaCheckpointIndex α) (value : α) : ArenaCheckpointIndex α :=
  match checkpoints.root with
  | .null => { checkpoints with root := .node value .null .null, size := 1 }
  | current =>
    let expanded :=
      if checkpoints.size = checkpoints.capacity then
        { checkpoints with root := .node value current .null, capacity := checkpoints.capacity * 2 }
      else checkpoints
    { expanded with
      root := expanded.root.addAt 0 expanded.capacity checkpoints.size value
      size := checkpoints.size + 1 }

def get (checkpoints : ArenaCheckpointIndex α) (index : Int) : α :=
  if index < 0 || index ≥ checkpoints.size then checkpoints.fallback
  else checkpoints.root.getAt checkpoints.fallback 0 checkpoints.capacity index.toNat

end ArenaCheckpointIndex

/-! ## Storages -/

/-- A reference to a node. -/
abbrev Node := Nat

abbrev ArenaRef := Nat

def arenaCheckpointBlockSize : Nat := 128

/-- The fields of `ArenaStorage`. -/
structure ArenaStorage where
  parent : Option ArenaRef
  baseCount : Nat
  first : Node
  last : Node
  cached : Option Node
  cachedIndex : Int := -1
  size : Nat := 0
  checkpoints : ArenaCheckpointIndex Node

namespace ArenaStorage

/-- `init` and `initializeStorage`. -/
def init (parent : Option ArenaRef) (baseCount : Nat) (sentinel : Node) : ArenaStorage :=
  { parent, baseCount, first := sentinel, last := sentinel, cached := some sentinel,
    checkpoints := { fallback := sentinel } }

def count (storage : ArenaStorage) : Nat := storage.baseCount + storage.size

/-- What `appendNode` does to the fields, for a node that is linked behind the last one. -/
def appendNode (storage : ArenaStorage) (node : Node) : ArenaStorage :=
  { storage with
    last := node
    checkpoints :=
      if (storage.size / arenaCheckpointBlockSize) * arenaCheckpointBlockSize = storage.size then
        storage.checkpoints.add node
      else storage.checkpoints
    size := storage.size + 1 }

/-- The index where the block of an index starts. -/
def checkpointIndex (localIndex : Int) : Int :=
  (localIndex / arenaCheckpointBlockSize) * arenaCheckpointBlockSize

/-- Whether `nodeAt` starts from a checkpoint and not from the node of the last read. -/
def startsAtCheckpoint (storage : ArenaStorage) (localIndex : Int) : Bool :=
  match storage.cached with
  | none => true
  | some _ =>
    let cursor := storage.cachedIndex
    let distance := if localIndex < cursor then cursor - localIndex else localIndex - cursor
    distance > 1 && distance > localIndex - checkpointIndex localIndex

/-- `nodeAt`, for an index that the arena itself holds. Each loop follows one link per round until
the cursor stands on the index. -/
def nodeAt (storage : ArenaStorage) (links : List Link) (localIndex : Int) : Node × ArenaStorage :=
  let start :=
    if storage.startsAtCheckpoint localIndex then
      (some (storage.checkpoints.get (localIndex / arenaCheckpointBlockSize)),
        checkpointIndex localIndex)
    else (storage.cached, storage.cachedIndex)
  let back := follow links (·.previousNode) (start.2 - localIndex).toNat start.1
  let node := follow links (·.nextNode) (localIndex - start.2).toNat back
  (node.getD storage.first, { storage with cached := node, cachedIndex := localIndex })

end ArenaStorage

/-! ## All arenas -/

/-- The links of all nodes and the fields of all arenas. -/
structure Arenas where
  links : List Link := []
  storages : List ArenaStorage := []

namespace Arenas

/-- `count` of an arena. -/
def count (arenas : Arenas) (arena : ArenaRef) : Nat :=
  (arenas.storages[arena]?.map (·.count)).getD 0

/-- A new arena, with a new node as its sentinel. -/
def create (arenas : Arenas) (parent : Option ArenaRef) : Arenas :=
  let baseCount := match parent with
    | some parent => arenas.count parent
    | none => 0
  { links := arenas.links ++ [Link.mk none none]
    storages := arenas.storages ++ [.init parent baseCount arenas.links.length] }

def append (arenas : Arenas) (arena : ArenaRef) : Option (Node × Arenas) :=
  arenas.storages[arena]?.map fun storage =>
    let node := arenas.links.length
    (node,
      { links := linkBehind arenas.links storage.last
        storages := arenas.storages.set arena (storage.appendNode node) })

/-- `nodeAt`, through at most `levels` parents. -/
def nodeAtFrom (arenas : Arenas) : (levels : Nat) → ArenaRef → Int → Option (Node × Arenas)
  | 0, _, _ => none
  | levels + 1, arena, index =>
    arenas.storages[arena]?.bind fun storage =>
      if index < storage.baseCount then
        match storage.parent with
        | some parent => arenas.nodeAtFrom levels parent index
        | none => some (storage.first, arenas)
      else
        let (node, read) := storage.nodeAt arenas.links (index - storage.baseCount)
        some (node, { arenas with storages := arenas.storages.set arena read })

/-- `nodeAt`. A parent is older than its arena, so there are fewer parents than arenas. -/
def nodeAt (arenas : Arenas) (arena : ArenaRef) (index : Int) : Option (Node × Arenas) :=
  arenas.nodeAtFrom arenas.storages.length arena index

/-- The arena that holds an index itself, among an arena and its parents. -/
def holderFrom (arenas : Arenas) : (levels : Nat) → ArenaRef → Int → Option ArenaRef
  | 0, _, _ => none
  | levels + 1, arena, index =>
    arenas.storages[arena]?.bind fun storage =>
      if index < storage.baseCount then
        storage.parent.bind fun parent => arenas.holderFrom levels parent index
      else some arena

def holder (arenas : Arenas) (arena : ArenaRef) (index : Int) : Option ArenaRef :=
  arenas.holderFrom arenas.storages.length arena index

end Arenas

/-! ## Runs -/

/-- The states that a program can bring its arenas to, with the nodes that each arena has: those of
its parent at the time it was made, and those that were appended since. Reads are made where `allowed`
lets them. -/
inductive Arenas.Run (allowed : Arenas → ArenaRef → Int → Prop) : Arenas → List (List Node) → Prop
  | empty : Run allowed {} []
  | root {arenas : Arenas} {nodes : List (List Node)} :
    Run allowed arenas nodes → Run allowed (arenas.create none) (nodes ++ [[]])
  | child {arenas : Arenas} {nodes : List (List Node)} {parent : ArenaRef} {inherited : List Node} :
    Run allowed arenas nodes → nodes[parent]? = some inherited →
    Run allowed (arenas.create (some parent)) (nodes ++ [inherited])
  | append {arenas next : Arenas} {nodes : List (List Node)} {arena : ArenaRef} {appended : List Node}
    {node : Node} :
    Run allowed arenas nodes → nodes[arena]? = some appended → arenas.append arena = some (node, next) →
    Run allowed next (nodes.set arena (appended ++ [node]))
  | read {arenas next : Arenas} {nodes : List (List Node)} {arena : ArenaRef} {index : Int}
    {node : Node} :
    Run allowed arenas nodes → allowed arenas arena index →
    arenas.nodeAt arena index = some (node, next) → Run allowed next nodes

/-- The node of the last read is the one that `cachedIndex` tells, among the nodes of the arena. The
sentinel comes before the first of them. -/
def ArenaStorage.Coherent (storage : ArenaStorage) (nodes : List Node) : Prop :=
  storage.cached =
    if storage.cachedIndex < 0 then some storage.first
    else nodes[(storage.baseCount + storage.cachedIndex).toNat]?

instance (storage : ArenaStorage) (nodes : List Node) : Decidable (storage.Coherent nodes) :=
  inferInstanceAs (Decidable (_ = _))

/-- A read that starts from a checkpoint, or from the node that `cachedIndex` tells. -/
def Arenas.StartsRight (arenas : Arenas) (nodes : List (List Node)) (arena : ArenaRef) (index : Int) :
    Prop :=
  ∃ holder storage held, arenas.holder arena index = some holder ∧
    arenas.storages[holder]? = some storage ∧ nodes[holder]? = some held ∧
    (storage.startsAtCheckpoint (index - storage.baseCount) = true ∨ storage.Coherent held)

/-- A read that is not behind the last block that the holder of the index has begun. -/
def Arenas.InBegunBlock (arenas : Arenas) (arena : ArenaRef) (index : Int) : Prop :=
  ∀ holder storage, arenas.holder arena index = some holder →
    arenas.storages[holder]? = some storage →
    (index - storage.baseCount) / arenaCheckpointBlockSize < storage.checkpoints.size

end Neri.Frontend
