import Mathlib.Algebra.Order.Ring.Nat
import Neri.Frontend.ArenaStorage

/-!
# Reads of arenas

A checkpoint tree gives back what was added to it. A read walks along the chain of an arena from a
checkpoint or from the node of the last read, so it gives the node that was appended exactly when the
walk starts right. A checkpoint that is not there yet is replaced by the sentinel: a read behind the
last block that was begun leaves a node in the cache that does not belong to its index.
-/

namespace Neri.Frontend

open LinkedChain List Option

/-! ## Checkpoints -/

namespace ArenaCheckpointNode

variable {α : Type}

/-- A tree of a level has the values in order, in as many places of its span as there are. -/
inductive Covers : Nat → ArenaCheckpointNode α → List α → Prop
  | leaf (value : α) (left right : ArenaCheckpointNode α) : Covers 0 (.node value left right) [value]
  | left {level : Nat} {left : ArenaCheckpointNode α} {values : List α} (value : α) :
    Covers level left values → Covers (level + 1) (.node value left .null) values
  | both {level : Nat} {left right : ArenaCheckpointNode α} {lefts rights : List α} (value : α) :
    Covers level left lefts → lefts.length = 2 ^ level → Covers level right rights →
    Covers (level + 1) (.node value left right) (lefts ++ rights)

variable {level : Nat} {tree : ArenaCheckpointNode α} {values : List α}

theorem Covers.length_le (h : Covers level tree values) : values.length ≤ 2 ^ level := by
  induction h with
  | leaf => simp
  | left v _ ih =>
    omega
  | both v _ hlefts _ _ ihright =>
    rw [length_append]
    omega

theorem Covers.isNode (h : Covers level tree values) :
    ∃ v left right, tree = .node v left right := by
  cases h <;> exact ⟨_, _, _, rfl⟩

theorem Covers.orCreated (h : Covers level tree values) (v : α) : tree.orCreated v = tree := by
  cases h <;> rfl

theorem addAt_halves (kept v : α) (left right : ArenaCheckpointNode α) (level start i : Nat) :
    (node kept left right).addAt start (2 ^ (level + 1)) i v = if i < start + 2 ^ level then
        node kept ((left.orCreated v).addAt start (2 ^ level) i v) right else
        node kept left ((right.orCreated v).addAt (start + 2 ^ level) (2 ^ level) i v) := by
  have hspan := Nat.one_le_two_pow (n := level)
  rw [addAt, Nat.pow_succ, if_neg (by omega), Nat.mul_div_cancel _ (by omega)]

theorem Covers.getAt (h : Covers level tree values) (missing : α) (start : Nat) {i : Nat}
    {v : α} (hv : values[i]? = some v) : tree.getAt missing start (2 ^ level) (start + i) = v := by
  induction h generalizing missing start i with
  | leaf kept left right =>
    have hzero : i = 0 := by
      have := (List.getElem_of_getElem? hv).1
      simpa using this
    subst hzero
    cases hv
    simp [ArenaCheckpointNode.getAt]
  | @left level left values kept hleft ih =>
    have hi := (List.getElem_of_getElem? hv).1
    have hlen := hleft.length_le
    rw [ArenaCheckpointNode.getAt, Nat.pow_succ, if_neg (by omega), Nat.mul_div_cancel _ (by omega),
      if_pos (by omega)]
    exact ih kept start hv
  | @both level left right lefts rights kept hleft hlefts hright ihleft ihright =>
    have hspan := Nat.one_le_two_pow (n := level)
    rw [ArenaCheckpointNode.getAt, Nat.pow_succ, if_neg (by omega), Nat.mul_div_cancel _ (by omega)]
    by_cases hi : i < 2 ^ level
    · rw [if_pos (by omega)]
      rw [getElem?_append_left (by omega)] at hv
      exact ihleft kept start hv
    · rw [if_neg (by omega)]
      rw [getElem?_append_right (by omega), hlefts] at hv
      have hfound := ihright kept (start + 2 ^ level) hv
      rwa [show start + 2 ^ level + (i - 2 ^ level) = start + i by omega] at hfound

theorem covers_addAt_new (level start : Nat) (v : α) :
    Covers level ((node v .null .null).addAt start (2 ^ level) start v) [v] := by
  induction level with
  | zero =>
    rw [addAt]
    exact .leaf v _ _
  | succ level ih =>
    have hspan := Nat.one_le_two_pow (n := level)
    rw [addAt_halves, if_pos (by omega)]
    exact .left v ih

theorem Covers.addAt (h : Covers level tree values) (start : Nat) (v : α)
    (hplace : values.length < 2 ^ level) :
    Covers level (tree.addAt start (2 ^ level) (start + values.length) v) (values ++ [v]) := by
  induction h generalizing start with
  | leaf => simp at hplace
  | @left level left values kept hleft ih =>
    rw [addAt_halves]
    by_cases hfull : values.length < 2 ^ level
    · rw [if_pos (by omega), hleft.orCreated]
      exact .left kept (ih start hfull)
    · have hlen : values.length = 2 ^ level := by
        have := hleft.length_le
        omega
      rw [if_neg (by omega), hlen]
      exact .both kept hleft hlen (covers_addAt_new level (start + 2 ^ level) v)
  | @both level left right lefts rights kept hleft hlefts hright ihleft ihright =>
    rw [length_append] at hplace
    rw [addAt_halves, length_append, if_neg (by omega), hright.orCreated, hlefts,
      ← Nat.add_assoc, append_assoc]
    exact .both kept hleft hlefts (ihright (start + 2 ^ level) (by omega))

end ArenaCheckpointNode

namespace ArenaCheckpointIndex

variable {α : Type}

/-- An index that holds the values that were added, in order. -/
structure Holds (checkpoints : ArenaCheckpointIndex α) (values : List α) : Prop where
  size : checkpoints.size = values.length
  root : values = [] ∧ checkpoints.root = .null ∧ checkpoints.capacity = 1 ∨
    ∃ level, checkpoints.capacity = 2 ^ level ∧ checkpoints.root.Covers level values

theorem Holds.new (fallback : α) : Holds { fallback } ([] : List α) :=
  ⟨rfl, .inl ⟨rfl, rfl, rfl⟩⟩

theorem fallback_add (checkpoints : ArenaCheckpointIndex α) (v : α) :
    (checkpoints.add v).fallback = checkpoints.fallback := by
  unfold add
  split
  · rfl
  · split <;> rfl

variable {checkpoints : ArenaCheckpointIndex α}

theorem Holds.add {values : List α}
    (h : checkpoints.Holds values) (v : α) : (checkpoints.add v).Holds (values ++ [v]) := by
  obtain ⟨hsize, ⟨rfl, hroot, hcapacity⟩ | ⟨level, hcapacity, hcovers⟩⟩ := h
  · unfold ArenaCheckpointIndex.add
    rw [hroot]
    exact ⟨rfl, .inr ⟨0, hcapacity, .leaf v _ _⟩⟩
  · obtain ⟨kept, left, right, hroot⟩ := hcovers.isNode
    unfold ArenaCheckpointIndex.add
    rw [hroot]
    dsimp only
    refine ⟨by simp [hsize], .inr ?_⟩
    by_cases hfull : checkpoints.size = checkpoints.capacity
    · -- a new root above the old one makes place
      rw [if_pos hfull]
      refine ⟨level + 1, by rw [hcapacity, Nat.pow_succ], ?_⟩
      have hplace : values.length < 2 ^ (level + 1) := by
        have := Nat.one_le_two_pow (n := level)
        omega
      rw [hroot] at hcovers
      have hadded := (ArenaCheckpointNode.Covers.left v hcovers).addAt 0 v hplace
      rwa [Nat.zero_add, Nat.pow_succ, ← hcapacity, ← hsize] at hadded
    · rw [if_neg hfull]
      refine ⟨level, hcapacity, ?_⟩
      have hplace : values.length < 2 ^ level := by
        have := hcovers.length_le
        omega
      have hadded := hcovers.addAt 0 v hplace
      rwa [Nat.zero_add, ← hcapacity, ← hsize] at hadded

theorem Holds.get {values : List α}
    (h : checkpoints.Holds values) {i : Int} (hi : 0 ≤ i) :
    checkpoints.get i = values[i.toNat]?.getD checkpoints.fallback := by
  have hsize := h.size
  unfold ArenaCheckpointIndex.get
  cases hv : values[i.toNat]? with
  | none =>
    have hlen := getElem?_eq_none_iff.mp hv
    rw [if_pos (by simp only [Bool.or_eq_true, decide_eq_true_eq]; omega)]
    rfl
  | some v =>
    have hlen := (List.getElem_of_getElem? hv).1
    rw [if_neg (by simp only [Bool.or_eq_true, decide_eq_true_eq]; omega)]
    obtain ⟨rfl, -⟩ | ⟨level, hcapacity, hcovers⟩ := h.root
    · cases hv
    · have hfound := hcovers.getAt checkpoints.fallback 0 hv
      rwa [Nat.zero_add, ← hcapacity] at hfound

end ArenaCheckpointIndex

/-! ## Storages -/

namespace ArenaStorage

/-- The nodes that an arena links itself, with the sentinel in front. -/
def chain (storage : ArenaStorage) (nodes : List Node) : List Node :=
  storage.first :: nodes.drop storage.baseCount

/-- An arena with the nodes `nodes`: those of the parent come first, and the others are linked. -/
structure Keeps (storage : ArenaStorage) (links : List Link) (nodes : List Node) : Prop where
  linked : Linked links (storage.chain nodes)
  nodup : (storage.chain nodes).Nodup
  last : (storage.chain nodes).getLast? = some storage.last
  count : nodes.length = storage.baseCount + storage.size
  fallback : storage.checkpoints.fallback = storage.first
  marks : ∃ marks, storage.checkpoints.Holds marks ∧ marks.length = (storage.size + 127) / 128 ∧
    ∀ block < marks.length, marks[block]? = nodes[storage.baseCount + block * 128]?
  cached : ∀ node, storage.cached = some node → node ∈ storage.chain nodes
  cachedIndex : -1 ≤ storage.cachedIndex

variable {st : ArenaStorage} {links : List Link} {nodes : List Node}

theorem getElem?_chain (i : Nat) : (st.chain nodes)[i + 1]? = nodes[st.baseCount + i]? := by
  rw [chain, getElem?_cons_succ, getElem?_drop]

theorem coherent_iff (hi : -1 ≤ st.cachedIndex) : st.Coherent nodes ↔
      st.cached = (st.chain nodes)[(st.cachedIndex + 1).toNat]? := by
  unfold Coherent
  by_cases hfirst : st.cachedIndex < 0
  · rw [if_pos hfirst, show (st.cachedIndex + 1).toNat = 0 by omega]
    rfl
  · rw [if_neg hfirst, show (st.cachedIndex + 1).toNat = st.cachedIndex.toNat + 1 by omega,
      getElem?_chain, show (st.baseCount + st.cachedIndex).toNat =
        st.baseCount + st.cachedIndex.toNat by omega]

/-- The node where a read starts, at some position of the chain, and the index that it is taken to
have. -/
def Starts (storage : ArenaStorage) (nodes : List Node) (localIndex : Int) (position : Nat)
    (cursor : Int) : Prop :=
  position < (storage.chain nodes).length ∧ (if storage.startsAtCheckpoint localIndex then
      (some (storage.checkpoints.get (localIndex / arenaCheckpointBlockSize)),
        checkpointIndex localIndex)
    else (storage.cached, storage.cachedIndex)) = ((storage.chain nodes)[position]?, cursor)

variable {lidx : Int}

/-- A read starts at a node of the chain. It starts right when that node has the index that it is
taken to have, and it always does when the checkpoint of the block is there. -/
theorem Keeps.starts (h : st.Keeps links nodes) (hi : 0 ≤ lidx) :
    ∃ pos cur, st.Starts nodes lidx pos cur ∧ (lidx / 128 < st.checkpoints.size →
        (st.startsAtCheckpoint lidx = true ∨ st.Coherent nodes ↔ cur + 1 = pos)) := by
  cases hstart : st.startsAtCheckpoint lidx with
  | true =>
    obtain ⟨marks, hmarks, -, hblocks⟩ := h.marks
    have hget := hmarks.get (show 0 ≤ lidx / (arenaCheckpointBlockSize : Int) from
      Int.ediv_nonneg hi (by decide))
    have hsize := hmarks.size
    cases hmark : marks[(lidx / (arenaCheckpointBlockSize : Int)).toNat]? with
    | none =>
      refine ⟨0, checkpointIndex lidx, ⟨by simp [chain], ?_⟩, fun hblock => ?_⟩
      · rw [if_pos hstart, hget, hmark, h.fallback]
        rfl
      · have hlen := getElem?_eq_none_iff.mp hmark
        rw [show (arenaCheckpointBlockSize : Int) = 128 from rfl] at hlen
        omega
    | some mark =>
      have hlen := (List.getElem_of_getElem? hmark).1
      have hchain := hblocks _ hlen
      rw [← getElem?_chain, hmark] at hchain
      refine ⟨_, checkpointIndex lidx, ⟨(List.getElem_of_getElem? hchain.symm).1, ?_⟩, fun _ => ?_⟩
      · rw [if_pos hstart, hget, hmark, getD_some, hchain]
      · rw [checkpointIndex, show (arenaCheckpointBlockSize : Int) = 128 from rfl]
        simp only [true_or, true_iff]
        omega
  | false =>
    have hcached : ∃ node, st.cached = some node := by
      cases hnode : st.cached with
      | none => simp [startsAtCheckpoint, hnode] at hstart
      | some node => exact ⟨node, rfl⟩
    obtain ⟨node, hnode⟩ := hcached
    obtain ⟨pos, hposition⟩ := mem_iff_getElem?.mp (h.cached node hnode)
    have hlen := (List.getElem_of_getElem? hposition).1
    refine ⟨pos, st.cachedIndex, ⟨hlen, ?_⟩, fun _ => ?_⟩
    · rw [hstart, hnode, hposition]
      rfl
    · have hcursor := h.cachedIndex
      rw [coherent_iff hcursor, hnode, ← hposition, getElem?_inj hlen h.nodup]
      simp only [Bool.false_eq_true, false_or]
      omega

/-- Where a read ends. -/
def landing (storage : ArenaStorage) (nodes : List Node) (position : Int) : Option Node :=
  if 0 ≤ position then (storage.chain nodes)[position.toNat]? else none

theorem Keeps.nodeAt (h : st.Keeps links nodes) {cur : Int} {pos : Nat}
    (hstarts : st.Starts nodes lidx pos cur) : st.nodeAt links lidx =
      ((st.landing nodes (pos + (lidx - cur))).getD st.first, { st with
          cached := st.landing nodes (pos + (lidx - cur))
          cachedIndex := lidx }) := by
  have hwalk := h.linked.follow_both hstarts.1 (lidx - cur)
  rw [show -(lidx - cur) = cur - lidx by omega] at hwalk
  unfold ArenaStorage.nodeAt
  dsimp only
  rw [hstarts.2]
  rw [hwalk]
  rfl

theorem landing_mem {pos : Int} {node : Node} (h : st.landing nodes pos = some node) :
    node ∈ st.chain nodes := by
  unfold landing at h
  split at h
  · exact mem_of_getElem? h
  · cases h

/-- A read gives the node where it ends, and the sentinel if it has run off the chain. -/
theorem getElem?_landing (st : ArenaStorage) (nodes : List Node) (pos : Int) :
    ∃ place : Nat, (st.chain nodes)[place]? = some ((st.landing nodes pos).getD st.first) ∧
      (place = 0 ∨ (place : Int) = pos) := by
  cases hland : st.landing nodes pos with
  | none => exact ⟨0, rfl, .inl rfl⟩
  | some node =>
    unfold landing at hland
    split at hland
    · exact ⟨pos.toNat, hland, .inr (by omega)⟩
    · cases hland

/-- A read in a block that was begun gives the appended node exactly when it starts right. -/
theorem Keeps.nodeAt_iff (h : st.Keeps links nodes) {lidx : Nat} (hsize : lidx < st.size) :
    nodes[st.baseCount + lidx]? = some (st.nodeAt links lidx).1 ↔
      st.startsAtCheckpoint lidx = true ∨ st.Coherent nodes := by
  have hcount := h.count
  obtain ⟨marks, hmarks, hlen, -⟩ := h.marks
  have hblock : (lidx : Int) / 128 < st.checkpoints.size := by
    have := hmarks.size
    omega
  obtain ⟨pos, cur, hstarts, hright⟩ := h.starts (Int.natCast_nonneg lidx)
  rw [hright hblock, h.nodeAt hstarts, ← getElem?_chain]
  have hin : lidx + 1 < (st.chain nodes).length := by
    simp only [chain, length_cons, length_drop]
    omega
  constructor
  · intro hfound
    obtain ⟨place, hplace, hposition⟩ :=
      getElem?_landing st nodes (pos + (lidx - cur))
    have := (getElem?_inj hin h.nodup).mp (hfound.trans hplace.symm)
    omega
  · intro heq
    rw [show (pos : Int) + (lidx - cur) = (lidx + 1 : Nat) by omega, landing,
      if_pos (by omega), Int.toNat_natCast, getElem?_eq_getElem hin]
    rfl

theorem Keeps.read (h : st.Keeps links nodes) (hi : 0 ≤ lidx) :
    (st.nodeAt links lidx).2.Keeps links nodes := by
  obtain ⟨pos, cur, hstarts, -⟩ := h.starts hi
  rw [h.nodeAt hstarts]
  exact { h with
    cached := fun node hnode => landing_mem hnode
    cachedIndex := by
      show -1 ≤ lidx
      omega }

/-- The cache is empty or right. -/
def Trusted (storage : ArenaStorage) (nodes : List Node) : Prop :=
  storage.cached = none ∨ storage.Coherent nodes

theorem Trusted.startsRight (h : st.Trusted nodes) (lidx : Int) :
    st.startsAtCheckpoint lidx = true ∨ st.Coherent nodes := by
  rcases h with hnone | hcoherent
  · left
    simp [startsAtCheckpoint, hnone]
  · exact .inr hcoherent

variable (h : st.Keeps links nodes)
include h

theorem Keeps.trusted_read (htrusted : st.Trusted nodes) (hi : 0 ≤ lidx)
    (hblock : lidx / arenaCheckpointBlockSize < st.checkpoints.size) :
    (st.nodeAt links lidx).2.Trusted nodes := by
  obtain ⟨pos, cur, hstarts, hright⟩ := h.starts hi
  have heq := (hright hblock).mp (htrusted.startsRight lidx)
  rw [h.nodeAt hstarts]
  right
  rw [coherent_iff (show -1 ≤ lidx by omega)]
  show landing st nodes _ = (st.chain nodes)[(lidx + 1).toNat]?
  rw [show (pos : Int) + (lidx - cur) = lidx + 1 by omega, landing, if_pos (by omega)]

theorem Keeps.chain_append (node : Node) :
    (st.appendNode node).chain (nodes ++ [node]) = st.chain nodes ++ [node] := by
  have hcount := h.count
  show st.first :: (nodes ++ [node]).drop st.baseCount = _
  rw [drop_append_of_le_length (by omega)]
  rfl

/-- Every 128th node becomes a checkpoint. -/
theorem Keeps.marks_append (node : Node) : ∃ marks, (st.appendNode node).checkpoints.Holds marks ∧
      marks.length = (st.size + 1 + 127) / 128 ∧
      ∀ block < marks.length, marks[block]? = (nodes ++ [node])[st.baseCount + block * 128]? := by
  have hcount := h.count
  obtain ⟨marks, hmarks, hlen, hblocks⟩ := h.marks
  have hold : ∀ block < marks.length,
      marks[block]? = (nodes ++ [node])[st.baseCount + block * 128]? := by
    intro block hblock
    rw [hblocks block hblock, getElem?_append_left (by omega)]
  unfold appendNode
  by_cases hmark : st.size / arenaCheckpointBlockSize * arenaCheckpointBlockSize = st.size
  · rw [if_pos hmark]
    rw [arenaCheckpointBlockSize] at hmark
    refine ⟨marks ++ [node], hmarks.add node, ?_, fun block hblock => ?_⟩
    · rw [length_append, length_singleton]
      omega
    · rw [length_append, length_singleton] at hblock
      by_cases hlast : block = marks.length
      · rw [getElem?_append_right (by omega), getElem?_append_right (by omega)]
        congr 1
        omega
      · rw [getElem?_append_left (by omega)]
        exact hold block (by omega)
  · rw [if_neg hmark]
    rw [arenaCheckpointBlockSize] at hmark
    exact ⟨marks, hmarks, by omega, hold⟩

theorem Keeps.append : (st.appendNode links.length).Keeps (linkBehind links st.last)
      (nodes ++ [links.length]) := by
  have hcount := h.count
  have hchain := h.chain_append links.length
  obtain ⟨before, hbefore⟩ := getLast?_eq_some_iff.mp h.last
  have hlinked := h.linked
  have hnodup := h.nodup
  rw [hbefore] at hlinked hnodup
  have hnew : links.length ∉ st.chain nodes := by
    intro hmem
    have := h.linked.lt_length hmem
    omega
  exact {
    linked := by
      rw [hchain, hbefore]
      exact hlinked.concat hnodup
    nodup := by
      rw [hchain]
      exact nodup_append.mpr ⟨h.nodup, nodup_singleton _, fun a ha b hb heq =>
        hnew (by rw [mem_singleton] at hb; rw [← hb, ← heq]; exact ha)⟩
    last := by
      rw [hchain, getLast?_append]
      rfl
    count := by
      show (nodes ++ [links.length]).length = st.baseCount + (st.size + 1)
      rw [length_append, length_singleton]
      omega
    fallback := by
      show (appendNode st links.length).checkpoints.fallback = st.first
      unfold appendNode
      split
      · rw [ArenaCheckpointIndex.fallback_add, h.fallback]
      · exact h.fallback
    marks := h.marks_append links.length
    cached := fun node hnode => by
      rw [hchain]
      exact mem_append_left _ (h.cached node hnode)
    cachedIndex := h.cachedIndex }

omit h

theorem Trusted.append (h : st.Trusted nodes) (node : Node) :
    (st.appendNode node).Trusted (nodes ++ [node]) := by
  rcases h with hnone | hcoherent
  · exact .inl hnone
  · cases hcached : st.cached with
    | none => exact .inl hcached
    | some found =>
      right
      unfold Coherent at hcoherent ⊢
      show st.cached = if st.cachedIndex < 0 then some st.first
        else (nodes ++ [node])[(st.baseCount + st.cachedIndex).toNat]?
      by_cases hfirst : st.cachedIndex < 0
      · rw [if_pos hfirst] at hcoherent ⊢
        exact hcoherent
      · rw [if_neg hfirst] at hcoherent ⊢
        have hlen := (List.getElem_of_getElem? (hcoherent.symm.trans hcached)).1
        rw [getElem?_append_left hlen]
        exact hcoherent

end ArenaStorage

/-! ## All arenas -/

namespace Arenas

def At (arenas : Arenas) (nodes : List (List Node)) (arena : ArenaRef) (storage : ArenaStorage)
    (held : List Node) : Prop :=
  arenas.storages[arena]? = some storage ∧ nodes[arena]? = some held

/-- The first nodes of an arena are the first nodes of its parent. -/
def Inherits (nodes : List (List Node)) (arena : ArenaRef) (storage : ArenaStorage)
    (held : List Node) : Prop :=
  storage.parent = none ∧ storage.baseCount = 0 ∨
    ∃ (parent : Nat) (older : List Node), storage.parent = some parent ∧ parent < arena ∧
      nodes[parent]? = some older ∧ held.take storage.baseCount <+: older

/-- What holds of the arenas of a program at any time. -/
structure Laid (arenas : Arenas) (nodes : List (List Node)) : Prop where
  length : nodes.length = arenas.storages.length
  keeps : ∀ {arena : Nat} {st held}, arenas.At nodes arena st held → st.Keeps arenas.links held
  inherits : ∀ {arena : Nat} {st held}, arenas.At nodes arena st held → Inherits nodes arena st held
  /-- No node is linked in two arenas. -/
  apart : ∀ {a b : Nat} {st storage' held held'} {node : Nat}, arenas.At nodes a st held →
    arenas.At nodes b storage' held' → node ∈ st.chain held → node ∈ storage'.chain held' → a = b

variable {arenas : Arenas} {nodes : List (List Node)} {arena : Nat} {st : ArenaStorage}
  {held : List Node}

theorem Inherits.mono {nodes' : List (List Node)} (h : Inherits nodes arena st held)
    (hgrow : ∀ {parent : Nat} {older}, nodes[parent]? = some older →
      ∃ older', nodes'[parent]? = some older' ∧ older <+: older') :
    Inherits nodes' arena st held := by
  rcases h with hroot | ⟨parent, older, hparent, hlt, hnodes, hpre⟩
  · exact .inl hroot
  · obtain ⟨older', hnodes', hmore⟩ := hgrow hnodes
    exact .inr ⟨parent, older', hparent, hlt, hnodes', hpre.trans hmore⟩

theorem Laid.lt_length (h : arenas.Laid nodes) (hat : arenas.At nodes arena st held) {node : Nat}
    (hmem : node ∈ st.chain held) : node < arenas.links.length :=
  (h.keeps hat).linked.lt_length hmem

theorem Laid.at_of_nodes (h : arenas.Laid nodes) (hheld : nodes[arena]? = some held) :
    ∃ st, arenas.At nodes arena st held := by
  have hlen := (List.getElem_of_getElem? hheld).1
  rw [h.length] at hlen
  exact ⟨_, getElem?_eq_getElem hlen, hheld⟩

theorem Laid.count (h : arenas.Laid nodes) (hheld : nodes[arena]? = some held) :
    arenas.count arena = held.length := by
  obtain ⟨st, hat⟩ := h.at_of_nodes hheld
  rw [(h.keeps hat).count, Arenas.count, hat.1]
  rfl

/-! ### New arenas -/

theorem At.of_concat {links : List Link} {created : ArenaStorage} {inherited : List Node}
    (hlen : nodes.length = arenas.storages.length)
    (h : At { links, storages := arenas.storages ++ [created] } (nodes ++ [inherited]) arena st held) :
    arenas.At nodes arena st held ∨ arena = nodes.length ∧ st = created ∧ held = inherited := by
  obtain ⟨hstorage, hheld⟩ := h
  have hbound := (List.getElem_of_getElem? hheld).1
  rw [length_append, length_singleton] at hbound
  by_cases hold : arena < nodes.length
  · left
    rw [getElem?_append_left (by omega)] at hstorage hheld
    exact ⟨hstorage, hheld⟩
  · right
    have harena : arena = nodes.length := by omega
    rw [harena, getElem?_concat_length] at hheld
    rw [harena, hlen, getElem?_concat_length] at hstorage
    exact ⟨harena, (some.inj hstorage).symm, (some.inj hheld).symm⟩

theorem keeps_init (links : List Link) (parent : Option ArenaRef) (inherited : List Node) :
    (ArenaStorage.init parent inherited.length links.length).Keeps (links ++ [Link.mk none none])
      inherited := by
  have hchain : (ArenaStorage.init parent inherited.length links.length).chain inherited =
      [links.length] := by
    simp [ArenaStorage.chain, ArenaStorage.init]
  exact {
    linked := by
      rw [hchain]
      exact linked_new links
    nodup := by
      rw [hchain]
      exact nodup_singleton _
    last := by
      rw [hchain]
      rfl
    count := rfl
    fallback := rfl
    marks := ⟨[], .new _, by simp [ArenaStorage.init], fun block hblock => absurd hblock (Nat.not_lt_zero block)⟩
    cached := fun node hnode => by
      rw [hchain]
      cases hnode
      exact mem_singleton_self _
    cachedIndex := Int.le_refl _ }

/-- A new arena, whose nodes are those of the parent if there is one. -/
theorem Laid.create (h : arenas.Laid nodes) {parent : Option ArenaRef} {inherited : List Node}
    (hparent : parent = none ∧ inherited = [] ∨
      ∃ older, parent = some older ∧ nodes[older]? = some inherited) :
    (arenas.create parent).Laid (nodes ++ [inherited]) := by
  have hbase : arenas.create parent =
      { links := arenas.links ++ [Link.mk none none]
        storages := arenas.storages ++ [.init parent inherited.length arenas.links.length] } := by
    unfold Arenas.create
    rcases hparent with ⟨rfl, rfl⟩ | ⟨older, rfl, holder⟩
    · rfl
    · dsimp only
      rw [h.count holder]
  have hsentinel : ∀ {node : Nat}, node ∈ (ArenaStorage.init parent inherited.length
      arenas.links.length).chain inherited → node = arenas.links.length := by
    intro node hmem
    simpa [ArenaStorage.chain, ArenaStorage.init] using hmem
  rw [hbase]
  refine ⟨by simp [h.length], ?_, ?_, ?_⟩
  · intro arena st held hat
    rcases hat.of_concat h.length with hold | ⟨rfl, rfl, rfl⟩
    · have hkeeps := h.keeps hold
      exact { hkeeps with linked := hkeeps.linked.extend _ }
    · exact keeps_init arenas.links parent held
  · intro arena st held hat
    have hkeep : ∀ {parent : Nat} {older : List Node}, nodes[parent]? = some older →
        (nodes ++ [inherited])[parent]? = some older := by
      intro parent older hnodes
      rw [List.getElem?_append_left (List.getElem_of_getElem? hnodes).1]
      exact hnodes
    rcases hat.of_concat h.length with hold | ⟨rfl, rfl, rfl⟩
    · exact (h.inherits hold).mono fun hnodes => ⟨_, hkeep hnodes, prefix_refl _⟩
    · rcases hparent with ⟨rfl, rfl⟩ | ⟨older, rfl, holder⟩
      · exact .inl ⟨rfl, rfl⟩
      · exact .inr ⟨older, held, rfl, (List.getElem_of_getElem? holder).1, hkeep holder,
          take_prefix _ _⟩
  · intro a b st storage' held held' node hat hat' hmem hmem'
    rcases hat.of_concat h.length with hold | ⟨rfl, rfl, rfl⟩ <;>
      rcases hat'.of_concat h.length with hold' | ⟨rfl, rfl, rfl⟩
    · exact h.apart hold hold' hmem hmem'
    · have := h.lt_length hold hmem
      have := hsentinel hmem'
      omega
    · have := h.lt_length hold' hmem'
      have := hsentinel hmem
      omega
    · rfl

/-! ### Changes of one arena -/

theorem At.of_set {links : List Link} {storage' : ArenaStorage} {held' : List Node} {other : Nat}
    {found : ArenaStorage} {list : List Node} (hat : arenas.At nodes arena st held)
    (h : At { links, storages := arenas.storages.set arena storage' } (nodes.set arena held') other
      found list) :
    other = arena ∧ found = storage' ∧ list = held' ∨
      other ≠ arena ∧ arenas.At nodes other found list := by
  obtain ⟨hfound, hlist⟩ := h
  by_cases heq : other = arena
  · left
    subst heq
    rw [List.getElem?_set_self (List.getElem_of_getElem? hat.1).1] at hfound
    rw [List.getElem?_set_self (List.getElem_of_getElem? hat.2).1] at hlist
    exact ⟨rfl, (some.inj hfound).symm, (some.inj hlist).symm⟩
  · right
    rw [getElem?_set_ne (Ne.symm heq)] at hfound hlist
    exact ⟨heq, hfound, hlist⟩

theorem Laid.append (h : arenas.Laid nodes) (hat : arenas.At nodes arena st held) :
    Laid { links := linkBehind arenas.links st.last
           storages := arenas.storages.set arena (st.appendNode arenas.links.length) }
      (nodes.set arena (held ++ [arenas.links.length])) := by
  have hkeeps := h.keeps hat
  have hlast : st.last ∈ st.chain held := mem_of_getLast? hkeeps.last
  have hcount := hkeeps.count
  have hchain := hkeeps.chain_append arenas.links.length
  refine ⟨by simp [h.length], ?_, ?_, ?_⟩
  · intro other found list hother
    rcases hat.of_set hother with ⟨rfl, rfl, rfl⟩ | ⟨hne, hold⟩
    · exact hkeeps.append
    · have hfound := h.keeps hold
      refine { hfound with linked := hfound.linked.frame (hkeeps.linked.lt_length hlast) ?_ }
      intro hmem
      exact hne (h.apart hold hat hmem hlast)
  · intro other found list hother
    have hgrow : ∀ {parent : Nat} {older}, nodes[parent]? = some older → ∃ older',
        (nodes.set arena (held ++ [arenas.links.length]))[parent]? = some older' ∧ older <+: older' := by
      intro parent older hnodes
      by_cases heq : arena = parent
      · subst heq
        obtain rfl := some.inj (hnodes.symm.trans hat.2)
        exact ⟨_, List.getElem?_set_self (List.getElem_of_getElem? hat.2).1, prefix_append _ _⟩
      · exact ⟨older, by rw [getElem?_set_ne heq, hnodes], prefix_refl older⟩
    rcases hat.of_set hother with ⟨rfl, rfl, rfl⟩ | ⟨-, hold⟩
    · have htake : (held ++ [arenas.links.length]).take st.baseCount =
          held.take st.baseCount := take_append_of_le_length (by omega)
      have hparent := (h.inherits hat).mono hgrow
      unfold Inherits at hparent ⊢
      rwa [← htake] at hparent
    · exact (h.inherits hold).mono hgrow
  · intro a b found found' list list' node hfound hfound' hmem hmem'
    rcases hat.of_set hfound with ⟨rfl, rfl, rfl⟩ | ⟨hne, hold⟩ <;>
      rcases hat.of_set hfound' with ⟨rfl, rfl, rfl⟩ | ⟨hne', hold'⟩
    · rfl
    · rw [hchain] at hmem
      rcases mem_append.mp hmem with hmem | hnew
      · exact h.apart hat hold' hmem hmem'
      · have := h.lt_length hold' hmem'
        have hnode : (node : Nat) = arenas.links.length := mem_singleton.mp hnew
        omega
    · rw [hchain] at hmem'
      rcases mem_append.mp hmem' with hmem' | hnew
      · exact h.apart hold hat hmem hmem'
      · have := h.lt_length hold hmem
        have hnode : (node : Nat) = arenas.links.length := mem_singleton.mp hnew
        omega
    · exact h.apart hold hold' hmem hmem'

theorem At.set_nodes (hat : arenas.At nodes arena st held) : nodes.set arena held = nodes := by
  obtain ⟨hlen, rfl⟩ := List.getElem_of_getElem? hat.2
  exact set_getElem_self hlen

theorem Laid.read (h : arenas.Laid nodes) (hat : arenas.At nodes arena st held) {lidx : Int}
    (hi : 0 ≤ lidx) : Laid { arenas with
      storages := arenas.storages.set arena (st.nodeAt arenas.links lidx).2 } nodes := by
  have hkeeps := h.keeps hat
  -- a read changes the cache only
  have hsame : ∀ {other found list}, At { arenas with
        storages := arenas.storages.set arena (st.nodeAt arenas.links lidx).2 }
      nodes other found list →
      ∃ old, arenas.At nodes other old list ∧ found.Keeps arenas.links list ∧
        found.parent = old.parent ∧ found.baseCount = old.baseCount ∧ found.first = old.first := by
    intro other found list hother
    rw [← hat.set_nodes] at hother
    rcases hat.of_set hother with ⟨rfl, rfl, rfl⟩ | ⟨-, hold⟩
    · exact ⟨st, hat, hkeeps.read hi, rfl, rfl, rfl⟩
    · exact ⟨found, hold, h.keeps hold, rfl, rfl, rfl⟩
  refine ⟨by simp [h.length], ?_, ?_, ?_⟩
  · intro other found list hother
    exact (hsame hother).choose_spec.2.1
  · intro other found list hother
    obtain ⟨old, hold, -, hparent, hbase, -⟩ := hsame hother
    rw [Inherits, hparent, hbase]
    exact h.inherits hold
  · intro a b found found' list list' node hfound hfound' hmem hmem'
    obtain ⟨old, hold, -, -, hbase, hfirst⟩ := hsame hfound
    obtain ⟨old', hold', -, -, hbase', hfirst'⟩ := hsame hfound'
    rw [ArenaStorage.chain, hbase, hfirst] at hmem
    rw [ArenaStorage.chain, hbase', hfirst'] at hmem'
    exact h.apart hold hold' hmem hmem'

/-! ### Reads -/

/-- A read is a read of the arena that holds the index. Where no arena holds it, nothing changes. -/
theorem nodeAtFrom_spec (arenas : Arenas) (levels : Nat) (arena : ArenaRef) (i : Int) :
    match arenas.holderFrom levels arena i with
    | some holder => ∃ st, arenas.storages[holder]? = some st ∧ st.baseCount ≤ i ∧
        arenas.nodeAtFrom levels arena i = some ((st.nodeAt arenas.links (i - st.baseCount)).1,
            { arenas with
              storages := arenas.storages.set holder
                (st.nodeAt arenas.links (i - st.baseCount)).2 })
    | none => ∀ node next, arenas.nodeAtFrom levels arena i = some (node, next) →
        next = arenas := by
  induction levels generalizing arena with
  | zero =>
    intro node next hread
    cases hread
  | succ levels ih =>
    unfold holderFrom nodeAtFrom
    cases hstorage : arenas.storages[arena]? with
    | none =>
      intro node next hread
      cases hread
    | some st =>
      rw [bind_some, bind_some]
      by_cases hbase : i < st.baseCount
      · rw [if_pos hbase, if_pos hbase]
        cases st.parent with
        | none => exact fun node next hread => (congrArg Prod.snd (some.inj hread)).symm
        | some parent => exact ih parent
      · rw [if_neg hbase, if_neg hbase]
        exact ⟨st, hstorage, by omega, rfl⟩

/-- An index that an arena has is held by the arena or by one of its parents, with the same node. -/
theorem Laid.exists_holder (h : arenas.Laid nodes) {levels i : Nat} (hlevels : arena < levels)
    (hheld : nodes[arena]? = some held) (hi : i < held.length) :
    ∃ holder st list, arenas.holderFrom levels arena i = some holder ∧
      arenas.At nodes holder st list ∧ st.baseCount ≤ i ∧ i < list.length ∧
      list[i]? = held[i]? := by
  induction levels generalizing arena held with
  | zero => omega
  | succ levels ih =>
    obtain ⟨st, hat⟩ := h.at_of_nodes hheld
    unfold holderFrom
    rw [hat.1, bind_some]
    by_cases hbase : (i : Int) < st.baseCount
    · rw [if_pos hbase]
      rcases h.inherits hat with ⟨-, hzero⟩ | ⟨parent, older, hparent, hlt, holder, hpre⟩
      · omega
      · have hshared : older[i]? = held[i]? := by
          obtain ⟨more, hmore⟩ := hpre
          rw [← hmore, getElem?_append_left (by rw [length_take]; omega),
            getElem?_take_of_lt (by omega)]
        have holderIndex : i < older.length := by
          rw [getElem?_eq_getElem hi] at hshared
          exact (List.getElem_of_getElem? hshared).1
        obtain ⟨holder, storage', list, hfound, hat', hle, hlen, heq⟩ :=
          ih (by omega) holder holderIndex
        rw [hparent]
        exact ⟨holder, storage', list, hfound, hat', hle, hlen, heq.trans hshared⟩
    · rw [if_neg hbase]
      exact ⟨arena, st, held, rfl, hat, by omega, hi, rfl⟩

/-! ### Runs -/

theorem Laid.empty : Laid {} [] := by
  refine ⟨rfl, ?_, ?_, ?_⟩
  · intro arena st held hat
    cases hat.2
  · intro arena st held hat
    cases hat.2
  · intro a b st storage' held held' node hat
    cases hat.2

/-- What a read leaves: the arenas as they were, or with the cache of the holder set. -/
theorem Laid.of_nodeAt (h : arenas.Laid nodes) {i : Int} {node : Node} {next : Arenas}
    (hread : arenas.nodeAt arena i = some (node, next)) :
    next = arenas ∨ ∃ holder st held, arenas.holder arena i = some holder ∧
      arenas.At nodes holder st held ∧ st.baseCount ≤ i ∧ next = { arenas with
        storages := arenas.storages.set holder (st.nodeAt arenas.links (i - st.baseCount)).2 } := by
  have hspec := nodeAtFrom_spec arenas arenas.storages.length arena i
  cases hholder : arenas.holderFrom arenas.storages.length arena i with
  | none =>
    rw [hholder] at hspec
    exact .inl (hspec node next hread)
  | some holder =>
    rw [hholder] at hspec
    obtain ⟨st, hstorage, hbase, hnode⟩ := hspec
    have hnext := congrArg Prod.snd (some.inj (hnode.symm.trans hread))
    have hlen : holder < nodes.length := by
      rw [h.length]
      exact (List.getElem_of_getElem? hstorage).1
    exact .inr ⟨holder, st, nodes[holder], hholder,
      ⟨hstorage, getElem?_eq_getElem hlen⟩, hbase, hnext.symm⟩

theorem Laid.of_append (h : arenas.Laid nodes) (hheld : nodes[arena]? = some held) {node : Node}
    {next : Arenas} (happend : arenas.append arena = some (node, next)) :
    ∃ st, arenas.At nodes arena st held ∧ node = arenas.links.length ∧
      next = { links := linkBehind arenas.links st.last
               storages := arenas.storages.set arena (st.appendNode arenas.links.length) } := by
  obtain ⟨st, hat⟩ := h.at_of_nodes hheld
  unfold Arenas.append at happend
  rw [hat.1] at happend
  have heq := some.inj happend
  exact ⟨st, hat, (congrArg Prod.fst heq).symm, (congrArg Prod.snd heq).symm⟩

variable {allowed : Arenas → ArenaRef → Int → Prop}

theorem Run.laid (h : Run allowed arenas nodes) : arenas.Laid nodes := by
  induction h with
  | empty => exact .empty
  | root _ ih => exact ih.create (.inl ⟨rfl, rfl⟩)
  | child _ hparent ih => exact ih.create (.inr ⟨_, rfl, hparent⟩)
  | append _ hheld happend ih =>
    obtain ⟨st, hat, rfl, rfl⟩ := ih.of_append hheld happend
    exact ih.append hat
  | read _ _ hread ih =>
    rcases ih.of_nodeAt hread with rfl | ⟨holder, st, held, -, hat, hbase, rfl⟩
    · exact ih
    · exact ih.read hat (by omega)

/-- Without a read behind the begun blocks the caches stay right. -/
theorem Run.trusted (h : Run InBegunBlock arenas nodes) :
    ∀ arena st held, arenas.At nodes arena st held → st.Trusted held := by
  induction h with
  | empty =>
    intro arena st held hat
    cases hat.2
  | root hrun ih | child hrun hparent ih =>
    intro arena st held hat
    rcases hat.of_concat hrun.laid.length with hold | ⟨-, rfl, -⟩
    · exact ih arena st held hold
    · exact .inr rfl
  | @append arenas next nodes target appended node hrun hheld happend ih =>
    obtain ⟨changed, hchanged, rfl, rfl⟩ := hrun.laid.of_append hheld happend
    intro arena st held hat
    rcases hchanged.of_set hat with ⟨-, rfl, rfl⟩ | ⟨-, hold⟩
    · exact (ih target changed appended hchanged).append _
    · exact ih arena st held hold
  | @read arenas next nodes target i node hrun hallowed hread ih =>
    rcases hrun.laid.of_nodeAt hread with rfl | ⟨holder, changed, list, hholder, hchanged, hbase, rfl⟩
    · exact ih
    · intro arena st held hat
      rw [← hchanged.set_nodes] at hat
      rcases hchanged.of_set hat with ⟨-, rfl, rfl⟩ | ⟨-, hold⟩
      · exact (hrun.laid.keeps hchanged).trusted_read
          (ih holder changed held hchanged) (by omega) (hallowed holder changed hholder hchanged.1)
      · exact ih arena st held hold

/-- A read of an index that an arena has gives the node that was appended there exactly when it starts
right, and it does so if no read before went behind the blocks that were begun. -/
theorem nodeAt_iff_startsRight (arenas : Arenas) (nodes : List (List Node))
    (hrun : Run (fun _ _ _ => True) arenas nodes) (arena : ArenaRef) (held : List Node)
    (hheld : nodes[arena]? = some held) (index : Int) (hnonneg : 0 ≤ index)
    (hcount : index < arenas.count arena) :
    (∃ node next, arenas.nodeAt arena index = some (node, next) ∧
      (held[index.toNat]? = some node ↔ arenas.StartsRight nodes arena index)) ∧
    (Run InBegunBlock arenas nodes → arenas.StartsRight nodes arena index) := by
  have hlaid := hrun.laid
  rw [hlaid.count hheld] at hcount
  have hlevels : arena < arenas.storages.length := by
    rw [← hlaid.length]
    exact (List.getElem_of_getElem? hheld).1
  obtain ⟨position, rfl⟩ := Int.eq_ofNat_of_zero_le hnonneg
  obtain ⟨holder, st, list, hholder, hat, hbase, hlen, hshared⟩ :=
    hlaid.exists_holder hlevels hheld (show position < held.length by omega)
  have hkeeps := hlaid.keeps hat
  have hstarts : arenas.StartsRight nodes arena position ↔
      st.startsAtCheckpoint (position - st.baseCount) = true ∨ st.Coherent list := by
    constructor
    · rintro ⟨holder', storage', list', hholder', hstorage', hlist', hright⟩
      obtain rfl := some.inj (hholder.symm.trans hholder')
      obtain rfl := some.inj (hat.1.symm.trans hstorage')
      obtain rfl := some.inj (hat.2.symm.trans hlist')
      exact hright
    · exact fun hright => ⟨holder, st, list, hholder, hat.1, hat.2, hright⟩
  rw [hstarts]
  constructor
  · have hspec := nodeAtFrom_spec arenas arenas.storages.length arena position
    rw [hholder] at hspec
    obtain ⟨storage', hstorage', -, hnode⟩ := hspec
    obtain rfl := some.inj (hat.1.symm.trans hstorage')
    refine ⟨_, _, hnode, ?_⟩
    have hlocal : (position : Int) - st.baseCount = (position - st.baseCount : Nat) := by omega
    have hsize : position - st.baseCount < st.size := by
      have hcount := hkeeps.count
      omega
    have hiff := hkeeps.nodeAt_iff hsize
    rw [show st.baseCount + (position - st.baseCount) = position by omega, hshared] at hiff
    rw [hlocal]
    exact hiff
  · intro htrusted
    exact (htrusted.trusted holder st list hat).startsRight _

/-- One arena with `count` nodes. -/
def filled : Nat → Arenas
  | 0 => ({} : Arenas).create none
  | count + 1 => (((filled count).append 0).map (·.2)).getD {}

theorem run_filled (allowed : Arenas → ArenaRef → Int → Prop) (count : Nat) :
    Run allowed (filled count) [range' 1 count] ∧ (filled count).links.length = count + 1 := by
  induction count with
  | zero => exact ⟨.root .empty, rfl⟩
  | succ count ih =>
    obtain ⟨hrun, hlen⟩ := ih
    obtain ⟨st, hat⟩ : ∃ st, (filled count).At _ 0 st (range' 1 count) :=
      hrun.laid.at_of_nodes rfl
    have happend : (filled count).append 0 = some (count + 1, filled (count + 1)) := by
      rw [filled, Arenas.append, hat.1, map_some, map_some, getD_some, hlen]
    have hnext := hrun.append rfl happend
    rw [Nat.add_comm count 1, ← range'_1_concat] at hnext
    rw [Nat.add_comm 1 count] at hnext
    refine ⟨hnext, ?_⟩
    rw [filled, Arenas.append, hat.1, map_some, map_some, getD_some, length_linkBehind, hlen]

/-- One arena with `count` nodes, after a read of an index. -/
def readFilled (count : Nat) (index : Int) : Arenas :=
  (((filled count).nodeAt 0 index).map (·.2)).getD {}

theorem run_readFilled {count : Nat} {index : Int}
    (hallowed : allowed (filled count) 0 index)
    (hread : ((filled count).nodeAt 0 index).isSome = true) :
    Run allowed (readFilled count index) [range' 1 count] := by
  obtain ⟨⟨node, next⟩, hnext⟩ := isSome_iff_exists.mp hread
  have hafter := (run_filled allowed count).1.read hallowed hnext
  rwa [show next = readFilled count index by rw [readFilled, hnext]; rfl] at hafter

/-- An arena that has begun a second block and was read in it, and a child with a node of its own. -/
def extended : Arenas := ((((readFilled 130 129).create (some 0)).append 1).map (·.2)).getD {}

theorem run_extended
    (hallowed : allowed (filled 130) 0 129) :
    Run allowed extended [range' 1 130, range' 1 130 ++ [132]] := by
  have hparent := run_readFilled hallowed (by decide +kernel)
  have hchild : Run allowed ((readFilled 130 129).create (some 0)) _ := hparent.child rfl
  have hnode : (((readFilled 130 129).create (some 0)).append 1).map (·.1) = some 132 := by
    decide +kernel
  obtain ⟨⟨node, next⟩, hnext, rfl⟩ := map_eq_some_iff.mp hnode
  rw [show extended = next by rw [extended, hnext]; rfl]
  exact hchild.append rfl hnext

theorem nodeAt_extended : ∃ node next, extended.nodeAt 1 128 = some (node, next) ∧
    (range' 1 130 ++ [132])[128]? = some node := by
  have hbegun : InBegunBlock (filled 130) 0 129 := by
    intro holder storage hholder hstorage
    have hall : (((filled 130).holder 0 129).bind ((filled 130).storages[·]?)).all (fun storage =>
        decide ((129 - (storage.baseCount : Int)) / arenaCheckpointBlockSize <
          storage.checkpoints.size)) = true := by
      decide +kernel
    rw [hholder, bind_some, hstorage, all_some, decide_eq_true_eq] at hall
    exact hall
  obtain ⟨⟨node, next, hread, hiff⟩, hstarts⟩ := nodeAt_iff_startsRight extended _
    (run_extended trivial) 1 _ rfl 128 (by decide) (by decide +kernel)
  exact ⟨node, next, hread, hiff.mpr (hstarts (run_extended hbegun))⟩

/-- After a read behind the one full block of an arena, the next read of its last node runs off the
chain and gives the sentinel. -/
theorem nodeAt_readBehind : Run (fun _ _ _ => True) (readFilled 128 128) [range' 1 128] ∧
      (readFilled 128 128).count 0 = 128 ∧ (range' 1 128)[127]? = some 128 ∧
      ((readFilled 128 128).nodeAt 0 127).map (·.1) = some 0 :=
  ⟨run_readFilled trivial (by decide +kernel), by decide +kernel, by decide +kernel,
    by decide +kernel⟩

end Arenas

end Neri.Frontend
