import Mathlib.Algebra.Order.Ring.Nat
import Neri.Stdlib.Json.Proofs.TokenProofs
import Neri.Stdlib.Json.Proofs.ValueProofs

/-!
# Containers

Arrays and objects are read by the same loop: a child, and a comma or the closing bracket. Both are
sequences of children, with keys in an object and without in an array. Each round reads one child and
enters it into the container, which was allocated before everything that its children refer to.
-/

namespace Neri.Stdlib.Json

open Utf8 List

variable {heap' : Heap} {low ref target : Ref} {v : Value} {space : List Char}

/-! ## Children -/

/-- A child of a container, with its key in an object. -/
abbrev Child := Option (List Char) × Tree

/-- A child with the whitespace around its parts. -/
inductive IsChild : Bool → List Char → Child → Prop
  | item {before text after : List Char} {item : Tree} :
    IsWhitespace before → IsValue text item → IsWhitespace after →
    IsChild false (before ++ text ++ after) (none, item)
  | member {before keyText mid before' text after key : List Char} {value : Tree} :
    IsWhitespace before → IsString keyText key → IsWhitespace mid →
    IsWhitespace before' → IsValue text value → IsWhitespace after →
    IsChild true (before ++ keyText ++ mid ++ ':' :: (before' ++ text ++ after)) (some key, value)

inductive IsChildren (object : Bool) : List Char → List Child → Prop
  | last {text : List Char} {child : Child} : IsChild object text child →
    IsChildren object text [child]
  | more {text rest : List Char} {child : Child} {children : List Child} :
    IsChild object text child → IsChildren object rest children →
    IsChildren object (text ++ ',' :: rest) (child :: children)

def Tree.container : Bool → List Child → Tree
  | false, cs => .array (cs.map Prod.snd)
  | true, cs => .object (cs.map fun child => (child.1.getD [], child.2))

def opening (object : Bool) : Char := if object then '{' else '['

def closing (object : Bool) : Char := if object then '}' else ']'

variable {object : Bool} {text : List Char} {child : Child} {cs : List Child} {tree : Tree}

theorem isChildren_of_isItems : ∀ {text : List Char} {items : List Tree}, IsItems text items →
    IsChildren false text (items.map fun item => (none, item))
  | _, _, .last hpre hv hafter => .last (.item hpre hv hafter)
  | _, _, .more hpre hv hafter hrest =>
    .more (.item hpre hv hafter) (isChildren_of_isItems hrest)

theorem isChildren_of_isMembers : ∀ {text : List Char} {ms : List (List Char × Tree)},
    IsMembers text ms → IsChildren true text (ms.map fun member => (some member.1, member.2))
  | _, _, .last hpre hkey hmid hbefore' hv hafter =>
    .last (.member hpre hkey hmid hbefore' hv hafter)
  | _, _, .more hpre hkey hmid hbefore' hv hafter hrest => by
    have := IsChildren.more (.member hpre hkey hmid hbefore' hv hafter)
      (isChildren_of_isMembers hrest)
    simpa using this

theorem isItems_of_isChildren (h : IsChildren false text cs) : IsItems text (cs.map Prod.snd) := by
  induction h with
  | last hchild =>
    cases hchild with
    | item hpre hv hafter => exact .last hpre hv hafter
  | more hchild _ ih =>
    cases hchild with
    | item hpre hv hafter => exact .more hpre hv hafter ih

theorem isMembers_of_isChildren (h : IsChildren true text cs) :
    IsMembers text (cs.map fun child => (child.1.getD [], child.2)) := by
  induction h with
  | last hchild =>
    cases hchild with
    | member hpre hkey hmid hbefore' hv hafter =>
      exact .last hpre hkey hmid hbefore' hv hafter
  | more hchild _ ih =>
    cases hchild with
    | member hpre hkey hmid hbefore' hv hafter =>
      have := IsMembers.more hpre hkey hmid hbefore' hv hafter ih
      simpa using this

theorem IsChild.keyed (h : IsChild object text child) : child.1.isSome = object := by
  cases h <;> rfl

theorem IsChildren.keyed (h : IsChildren object text cs) :
    ∀ child ∈ cs, child.1.isSome = object := by
  induction h with
  | last hchild => simpa using hchild.keyed
  | more hchild _ ih => exact forall_mem_cons.mpr ⟨hchild.keyed, ih⟩

/-- The body of a container: whitespace or children. -/
def IsBody (object : Bool) (text : List Char) (children : List Child) : Prop :=
  children = [] ∧ IsWhitespace text ∨ IsChildren object text children

theorem IsBody.keyed (h : IsBody object text cs) : ∀ child ∈ cs, child.1.isSome = object := by
  rcases h with ⟨rfl, -⟩ | h
  · simp
  · exact h.keyed

theorem IsBody.isValue (h : IsBody object text cs) :
    IsValue (opening object :: text ++ [closing object]) (.container object cs) := by
  cases object with
  | false =>
    rcases h with ⟨rfl, hspace⟩ | h
    · exact .emptyArray hspace
    · exact .array (isItems_of_isChildren h)
  | true =>
    rcases h with ⟨rfl, hspace⟩ | h
    · exact .emptyObject hspace
    · exact .object (isMembers_of_isChildren h)

/-- A value is a token, a string or a container. -/
theorem IsValue.split (h : IsValue text tree) :
    IsToken text tree ∨ (∃ chars, tree = .string chars ∧ IsString text chars) ∨
      ∃ object body cs, text = opening object :: body ++ [closing object] ∧
        tree = .container object cs ∧ IsBody object body cs := by
  cases h with
  | null => exact .inl .null
  | true => exact .inl .true
  | false => exact .inl .false
  | number hnumber => exact .inl (.number hnumber)
  | string hstring => exact .inr (.inl ⟨_, rfl, hstring⟩)
  | emptyArray hspace => exact .inr (.inr ⟨Bool.false, _, [], rfl, rfl, .inl ⟨rfl, hspace⟩⟩)
  | emptyObject hspace => exact .inr (.inr ⟨Bool.true, _, [], rfl, rfl, .inl ⟨rfl, hspace⟩⟩)
  | array hitems =>
    exact .inr (.inr ⟨Bool.false, _, _, rfl, by simp [Tree.container, Function.comp_def],
      .inr (isChildren_of_isItems hitems)⟩)
  | object hmembers =>
    exact .inr (.inr ⟨Bool.true, _, _, rfl, by simp [Tree.container, Function.comp_def],
      .inr (isChildren_of_isMembers hmembers)⟩)

/-- A value starts with a character that is neither whitespace nor a separator. -/
theorem IsValue.head (h : IsValue text tree) :
    ∃ first rest, text = first :: rest ∧ IsTokenChar first := by
  rcases h.split with h | ⟨chars, rfl, body, rfl, -⟩ | ⟨object, body, cs, rfl, -⟩
  · obtain ⟨first, rest, rfl, -⟩ := h.head
    exact ⟨first, rest, rfl, h.tokenChars first mem_cons_self⟩
  · exact ⟨'"', _, rfl, by decide⟩
  · exact ⟨opening object, _, rfl, by cases object <;> decide⟩

/-! ## What a container counts -/

theorem Tree.members_eq_items (ms : List (List Char × Tree)) :
    Tree.nodesOfMembers ms = Tree.nodesOfItems (ms.map Prod.snd) ∧
      Tree.depthOfMembers ms = Tree.depthOfItems (ms.map Prod.snd) ∧
      (Tree.DistinctKeysOfMembers ms ↔ Tree.DistinctKeysOfItems (ms.map Prod.snd)) := by
  induction ms with
  | nil => exact ⟨rfl, rfl, Iff.rfl⟩
  | cons member ms ih =>
    obtain ⟨hnodes, hdepth, hkeys⟩ := ih
    exact ⟨congrArg (_ + ·) hnodes, congrArg (max _) hdepth, and_congr_right fun _ => hkeys⟩

theorem Tree.nodesOfItems_eq (items : List Tree) :
    Tree.nodesOfItems items = (items.map Tree.nodes).sum := by
  induction items with
  | nil => simp [Tree.nodesOfItems]
  | cons item items ih => simp [Tree.nodesOfItems, ih]

def nodesOf (children : List Child) : Nat := (children.map fun child => child.2.nodes).sum

theorem Tree.nodes_container (object : Bool) (cs : List Child) :
    (Tree.container object cs).nodes = nodesOf cs + 1 := by
  cases object with
  | false =>
    rw [Tree.container, Tree.nodes, Tree.nodesOfItems_eq, map_map]
    rfl
  | true =>
    rw [Tree.container, Tree.nodes, (Tree.members_eq_items _).1, Tree.nodesOfItems_eq, map_map,
      map_map]
    rfl

theorem Tree.nodes_pos (tree : Tree) : 0 < tree.nodes := by
  cases tree <;> simp [Tree.nodes]

theorem Tree.depthOfItems_lt_iff (items : List Tree) (levels : Nat) :
    Tree.depthOfItems items < levels + 1 ↔ ∀ item ∈ items, item.depth < levels := by
  induction items with
  | nil => simp [Tree.depthOfItems]
  | cons item items ih =>
    rw [Tree.depthOfItems, forall_mem_cons, ← ih]
    omega

theorem Tree.depth_container_lt_iff (object : Bool) (cs : List Child) (levels : Nat) :
    (Tree.container object cs).depth < levels + 1 ↔ ∀ child ∈ cs, child.2.depth < levels := by
  cases object with
  | false =>
    rw [Tree.container, Tree.depth, Tree.depthOfItems_lt_iff, forall_mem_map]
  | true =>
    rw [Tree.container, Tree.depth, (Tree.members_eq_items _).2.1, Tree.depthOfItems_lt_iff,
      map_map, forall_mem_map]
    rfl

theorem Tree.distinctKeysOfItems_iff (items : List Tree) :
    Tree.DistinctKeysOfItems items ↔ ∀ item ∈ items, item.DistinctKeys := by
  induction items with
  | nil => simp [Tree.DistinctKeysOfItems]
  | cons item items ih => rw [Tree.DistinctKeysOfItems, forall_mem_cons, ih]

/-- The keys of children. -/
def keysOf (children : List Child) : List (List Char) := children.filterMap Prod.fst

theorem keysOf_of_keyed_false (h : ∀ child ∈ cs, child.1.isSome = false) : keysOf cs = [] := by
  rw [keysOf, filterMap_eq_nil_iff]
  intro child hchild
  simpa using h child hchild

theorem keysOf_of_keyed_true (h : ∀ child ∈ cs, child.1.isSome = true) :
    keysOf cs = cs.map fun child => child.1.getD [] := by
  induction cs with
  | nil => rfl
  | cons child cs ih =>
    obtain ⟨hchild, hrest⟩ := forall_mem_cons.mp h
    obtain ⟨key, hkey⟩ := Option.isSome_iff_exists.mp hchild
    rw [keysOf, filterMap_cons_some hkey, map_cons, hkey, ← ih hrest]
    rfl

theorem Tree.distinctKeys_container_iff (hkeyed : ∀ child ∈ cs, child.1.isSome = object) :
    (Tree.container object cs).DistinctKeys ↔
      (keysOf cs).Nodup ∧ ∀ child ∈ cs, child.2.DistinctKeys := by
  cases object with
  | false =>
    rw [Tree.container, Tree.DistinctKeys, Tree.distinctKeysOfItems_iff,
      keysOf_of_keyed_false hkeyed, forall_mem_map]
    exact (and_iff_right nodup_nil).symm
  | true =>
    rw [Tree.container, Tree.DistinctKeys, (Tree.members_eq_items _).2.2,
      Tree.distinctKeysOfItems_iff, keysOf_of_keyed_true hkeyed, map_map, map_map,
      forall_mem_map]
    exact Iff.rfl

/-! ## Filling a container -/

def containerTag (object : Bool) : String := if object then "object" else "array"

/-- An entry holds a child, with values that were allocated from `low` on. -/
structure Entry.Holds (heap : Heap) (low : Ref) (levels : Nat) (object : Bool) (entry : Entry)
    (child : Child) : Prop where
  key : entry.key = child.1.map Text.ofScalars
  keyed : child.1.isSome = object
  denotes : heap.DenotesFrom low levels entry.value child.2

/-- The container that was allocated on top of a heap holds the children. -/
structure Filling (base heap : Heap) (object : Bool) (levels : Nat) (children : List Child) :
    Prop where
  kept : base <+: heap
  holds : ∃ v, heap[base.length]? = some v ∧ v.tag = containerTag object ∧ v.Indexed ∧
    List.Forall₂ (Entry.Holds heap (base.length + 1) levels object) v.entries children

variable {base heap : Heap} {levels : Nat}

theorem Entry.Holds.imp {e : Entry} (h : Entry.Holds heap low levels object e child)
    (hheap : ∀ ref v, low ≤ ref → heap[ref]? = some v → heap'[ref]? = some v) :
    Entry.Holds heap' low levels object e child :=
  ⟨h.key, h.keyed, h.denotes.mono (Nat.le_refl _) (Nat.le_refl _) hheap⟩

theorem filling_allocate (base : Heap) (object : Bool) (levels : Nat) :
    Filling base (base ++ [if object then Value.object else Value.array]) object levels [] where
  kept := List.prefix_append _ _
  holds := by
    refine ⟨if object then Value.object else Value.array, by simp, ?_, ?_, ?_⟩
    · cases object <;> rfl
    · cases object <;> exact Value.indexed_init _ _
    · cases object <;> exact .nil

theorem Filling.length_lt (h : Filling base heap object levels cs) : base.length < heap.length := by
  obtain ⟨v, hv, -⟩ := h.holds
  exact (List.getElem_of_getElem? hv).1

theorem getElem?_of_kept (h : heap <+: heap')
    (hv : heap[ref]? = some v) : heap'[ref]? = some v := by
  obtain ⟨new, rfl⟩ := h
  rw [List.getElem?_append_left (List.getElem_of_getElem? hv).1, hv]

/-- New values on top of the heap change nothing. -/
theorem Filling.extend (h : Filling base heap object levels cs)
    (hheap : heap <+: heap') : Filling base heap' object levels cs := by
  obtain ⟨v, hv, htag, hindexed, hentries⟩ := h.holds
  refine ⟨h.kept.trans hheap, v, getElem?_of_kept hheap hv, htag, hindexed, ?_⟩
  exact hentries.imp fun e child he =>
    he.imp fun ref v _ hv => getElem?_of_kept hheap hv

theorem mem_keysOf_iff {entries : List Entry}
    (h : List.Forall₂ (Entry.Holds heap low levels object) entries cs) (key : List Char) :
    (∃ e ∈ entries, e.key = some (Text.ofScalars key)) ↔ key ∈ keysOf cs := by
  induction h with
  | nil => simp [keysOf]
  | @cons e child entries cs he _ ih =>
    have hkey : e.key = some (Text.ofScalars key) ↔ child.1 = some key := by
      rw [he.key]
      simp [Text.ofScalars_injective.eq_iff]
    have hmem : key ∈ keysOf (child :: cs) ↔ child.1 = some key ∨ key ∈ keysOf cs := by
      simp [keysOf, mem_filterMap]
    rw [hmem, ← ih, ← hkey]
    simp

theorem Filling.get_isSome_iff (h : Filling base heap true levels cs) (key : List Char) :
    (heap.get base.length (Text.ofScalars key)).isSome ↔ key ∈ keysOf cs := by
  obtain ⟨v, hv, htag, hindexed, hentries⟩ := h.holds
  rw [Heap.get, hv, Option.bind_some, hindexed.get_isSome_iff htag]
  exact mem_keysOf_iff hentries key

theorem kept_set (h : base <+: heap) (v : Value) : base <+: heap.set base.length v := by
  obtain ⟨new, rfl⟩ := h
  rw [set_append_right _ _ (Nat.le_refl _)]
  exact List.prefix_append _ _

/-- An update that appends an entry to the container leaves its other children alone. -/
theorem Filling.update (h : Filling base heap object levels cs) {changed : Value}
    (hv : heap[base.length]? = some v) (htag : changed.tag = containerTag object)
    (hindexed : changed.Indexed)
    (hentries : changed.entries = v.entries ++ [⟨child.1.map Text.ofScalars, ref⟩])
    (hkeyed : child.1.isSome = object)
    (hchild : heap.DenotesFrom (base.length + 1) levels ref child.2) :
    Filling base (heap.set base.length changed) object levels (cs ++ [child]) := by
  obtain ⟨old, hold, -, -, hholds⟩ := h.holds
  obtain rfl := Option.some.inj (hv.symm.trans hold)
  have hkeep : ∀ ref v, base.length + 1 ≤ ref → heap[ref]? = some v →
      (heap.set base.length changed)[ref]? = some v := by
    intro ref v hlow hv
    rwa [getElem?_set_ne (by omega)]
  refine ⟨kept_set h.kept changed, changed, getElem?_set_self h.length_lt, htag, hindexed, ?_⟩
  rw [hentries]
  refine rel_append (hholds.imp fun e child he => he.imp hkeep) (.cons ?_ .nil)
  exact ⟨rfl, hkeyed, hchild.mono (Nat.le_refl _) (Nat.le_refl _) hkeep⟩

theorem Filling.insert (h : Filling base heap object levels cs) (child : Child)
    (hkeyed : child.1.isSome = object) (hnew : ∀ key, child.1 = some key → key ∉ keysOf cs)
    (hcount : cs.length < 1000000)
    (hchild : heap.DenotesFrom (base.length + 1) levels ref child.2) :
    ∃ heap', heap.insert base.length (child.1.map Text.ofScalars) ref = (true, heap') ∧
      Filling base heap' object levels (cs ++ [child]) := by
  obtain ⟨v, hv, htag, hindexed, hholds⟩ := h.holds
  have hlength : v.entries.length < 1000000 := by rwa [hholds.length_eq]
  cases object with
  | false =>
    have hnone : child.1 = none := by simpa using hkeyed
    have hadd : v.add ref = some (v.append none ref) :=
      Value.add_eq_some_iff.mpr ⟨htag, hlength, rfl⟩
    have htag' : (v.append none ref).tag = containerTag false := htag
    refine ⟨_, ?_, h.update hv htag' (hindexed.add hadd) ?_ hkeyed hchild⟩
    · rw [hnone]
      show heap.update base.length (·.add ref) = _
      rw [Heap.update, hv, Option.bind_some, hadd]
    · rw [hnone]
      rfl
  | true =>
    obtain ⟨key, hsome⟩ := Option.isSome_iff_exists.mp hkeyed
    have hfresh : ∀ e ∈ v.entries, e.key ≠ some (Text.ofScalars key) :=
      fun e he heq => hnew key hsome ((mem_keysOf_iff hholds key).mp ⟨e, he, heq⟩)
    obtain ⟨changed, hput⟩ : ∃ changed, v.put (Text.ofScalars key) ref = some changed :=
      ⟨_, hindexed.put_eq_some_iff.mpr ⟨htag, hlength, hfresh, rfl⟩⟩
    obtain ⟨-, -, -, hchanged⟩ := hindexed.put_eq_some_iff.mp hput
    refine ⟨_, ?_, h.update hv ?_ (hindexed.put hput) ?_ hkeyed hchild⟩
    · rw [hsome]
      show heap.update base.length (·.put (Text.ofScalars key) ref) = _
      rw [Heap.update, hv, Option.bind_some, hput]
    · rw [hchanged]
      exact htag
    · rw [hchanged, hsome]
      rfl

theorem shows_container (htag : v.tag = containerTag object)
    (h : List.Forall₂ (Entry.Holds heap low levels object) v.entries cs) :
    v.Shows (heap.DenotesFrom low levels) (.container object cs) := by
  cases object with
  | false =>
    refine ⟨htag, List.forall₂_map_right_iff.mpr (h.imp fun e child he => ?_)⟩
    have hnone : child.1 = none := by simpa using he.keyed
    exact ⟨by rw [he.key, hnone]; rfl, he.denotes⟩
  | true =>
    refine ⟨htag, List.forall₂_map_right_iff.mpr (h.imp fun e child he => ?_)⟩
    obtain ⟨key, hsome⟩ := Option.isSome_iff_exists.mp he.keyed
    exact ⟨by rw [he.key, hsome]; rfl, he.denotes⟩

theorem Filling.denotes (h : Filling base heap object levels cs) :
    heap.DenotesFrom base.length (levels + 1) base.length (.container object cs) := by
  obtain ⟨v, hv, htag, -, hholds⟩ := h.holds
  refine ⟨Nat.le_refl _, v, hv, shows_container htag (hholds.imp fun e child he => ?_)⟩
  exact ⟨he.key, he.keyed, he.denotes.mono (Nat.le_succ _) (Nat.le_refl _) fun _ _ _ hv => hv⟩

/-! ## The parser between values -/

namespace Parser

/-- A parser that can go on. -/
structure Ready (parser : Parser) : Prop where
  problem : parser.problem = none
  length : parser.input.byteLength ≤ 134217728
  nodes : 0 ≤ parser.nodes
  nodeLimit : parser.nodeLimit ≤ 1000000

/-- The parser behind a text, with the values that it has counted and allocated. -/
def past (parser : Parser) (text : List Char) (nodes : Nat) (heap : Heap) : Parser :=
  { parser with
    position := parser.position + (encode text).length, nodes := parser.nodes + nodes, heap }

variable {p : Parser} {pre after rest : List Char}

theorem Ready.past (h : p.Ready) (text : List Char) (nodes : Nat) (heap : Heap) :
    (p.past text nodes heap).Ready :=
  ⟨h.problem, h.length, Int.add_nonneg h.nodes (Int.natCast_nonneg _), h.nodeLimit⟩

theorem At.past (h : p.At pre (text ++ rest)) (nodes : Nat) (heap : Heap) :
    (p.past text nodes heap).At (pre ++ text) rest := At.advance h

theorem past_past (p : Parser) (text text' : List Char) (nodes nodes' : Nat)
    (heap heap' : Heap) : (p.past text nodes heap).past text' nodes' heap' =
      p.past (text ++ text') (nodes + nodes') heap' := by
  unfold Parser.past
  simp only [encode_append, length_append, Nat.add_assoc, Int.add_assoc, Int.natCast_add]

theorem advance_eq_past (p : Parser) (text : List Char) :
    p.advance (encode text).length = p.past text 0 p.heap := by
  unfold Parser.past Parser.advance
  simp

theorem advance_ascii_eq_past (p : Parser) {c : Char} (hc : c.toNat < 128) :
    p.advance = p.past [c] 0 p.heap := by
  rw [← advance_eq_past, encode_cons_ascii hc]
  rfl

/-- A tree within what the parser may still read. -/
structure Fits (parser : Parser) (levels : Nat) (tree : Tree) : Prop where
  distinctKeys : tree.DistinctKeys
  depth : tree.depth < levels
  nodes : parser.nodes + tree.nodes ≤ parser.nodeLimit

/-- A reader that reads the values of the grammar within the limits, and nothing else. -/
structure Reads (reader : Reader) (levels : Nat) : Prop where
  complete : ∀ {parser : Parser} {before space text rest : List Char} {tree : Tree},
    parser.Ready → parser.At before (space ++ text ++ rest) → IsWhitespace space →
    IsValue text tree → Delimited tree rest → parser.Fits levels tree →
    ∃ ref heap, reader.read parser = (ref, parser.past (space ++ text) tree.nodes heap) ∧
      parser.heap <+: heap ∧ heap.DenotesFrom parser.heap.length levels ref tree
  sound : ∀ {parser : Parser} {before after : List Char},
    parser.Ready → parser.At before after → (reader.read parser).2.problem = none →
    ∃ space text rest tree, after = space ++ text ++ rest ∧ IsWhitespace space ∧
      IsValue text tree ∧ Delimited tree rest ∧ parser.Fits levels tree

/-- What stands behind a child. -/
def Separated (object : Bool) (rest : List Char) : Prop :=
  ∃ tail, rest = ',' :: tail ∨ rest = closing object :: tail

theorem not_isTokenChar_closing (object : Bool) : ¬ IsTokenChar (closing object) := by
  cases object <;> decide

theorem Separated.notHead_space (h : Separated object rest) : NotHead IsSpace rest := by
  obtain ⟨tail, rfl | rfl⟩ := h
  · exact notHead_cons (by decide) _
  · exact notHead_cons (by cases object <;> decide) _

/-- Behind the whitespace that follows it, a child ends. -/
theorem Separated.delimited (h : Separated object rest) (hspace : IsWhitespace space)
    (tree : Tree) : Delimited tree (space ++ rest) := by
  refine delimited_of_notHead ?_ tree
  cases space with
  | nil =>
    obtain ⟨tail, rfl | rfl⟩ := h
    · exact notHead_cons (by decide) _
    · exact notHead_cons (not_isTokenChar_closing object) _
  | cons d space => exact notHead_cons (fun htoken => htoken.1 (hspace d mem_cons_self)) _

variable {reader : Reader} {closes : Char}

theorem closing_toNat_lt (object : Bool) : (closing object).toNat < 128 := by
  cases object <;> decide

theorem closeRound_closing (h : p.At pre (closing object :: rest)) :
    closeRound (closing object).toNat p = .inr (p.past [closing object] 0 p.heap) := by
  rw [closeRound, if_pos (h.byte_ascii (closing_toNat_lt object)),
    advance_ascii_eq_past p (closing_toNat_lt object)]

theorem closeRound_comma (h : p.At pre (',' :: rest)) :
    closeRound (closing object).toNat p = .inl (p.past [','] 0 p.heap) := by
  have hb : p.byte = 44 := h.byte_ascii (by decide)
  rw [closeRound, hb, if_neg (by cases object <;> decide), if_neg (by decide),
    advance_ascii_eq_past p (show ','.toNat < 128 by decide)]

/-- The parser with which a round goes on or leaves. -/
def outcome : Parser ⊕ Parser → Parser := Sum.elim id id

theorem separated_of_closeRound (h : p.At pre after)
    (hok : (outcome (closeRound (closing object).toNat p)).problem = none) :
    Separated object after := by
  unfold closeRound at hok
  split at hok
  · rename_i hb
    obtain ⟨rest, rfl⟩ := (h.byte_eq_iff (closing object) (closing_toNat_lt object)).mp hb
    exact ⟨rest, .inr rfl⟩
  · split at hok
    · exact absurd hok problem_fail
    · rename_i hb
      obtain ⟨rest, rfl⟩ := (h.byte_eq_iff ',' (by decide)).mp (not_not.mp hb)
      exact ⟨rest, .inl rfl⟩

/-- The parser inside a container, behind some of its children. -/
structure Inside (base : Heap) (parser : Parser) (object : Bool) (levels : Nat)
    (children : List Child) : Prop where
  ready : parser.Ready
  filling : Filling base parser.heap object levels children
  count : (children.length : Int) < parser.nodes
  keys : (keysOf children).Nodup

theorem Inside.past (h : Inside base p object levels cs) (text : List Char) :
    Inside base (p.past text 0 p.heap) object levels cs :=
  ⟨h.ready.past _ _ _, h.filling, by simpa [Parser.past] using h.count, h.keys⟩

theorem Fits.past (h : p.Fits levels tree) (text : List Char) (heap : Heap) :
    (p.past text 0 heap).Fits levels tree :=
  ⟨h.distinctKeys, h.depth, by simpa [Parser.past] using h.nodes⟩

theorem Fits.of_past {heap : Heap} (h : (p.past text 0 heap).Fits levels tree) :
    p.Fits levels tree :=
  ⟨h.distinctKeys, h.depth, by simpa [Parser.past] using h.nodes⟩

/-- A child whose key none of the others has. -/
def NewKey (key : Option (List Char)) (children : List Child) : Prop :=
  ∀ chars, key = some chars → chars ∉ keysOf children

theorem nodup_keysOf_append (h : (keysOf cs).Nodup) (hnew : NewKey child.1 cs) :
    (keysOf (cs ++ [child])).Nodup := by
  have happend : keysOf (cs ++ [child]) = keysOf cs ++ keysOf [child] :=
    filterMap_append
  rw [happend]
  cases hkey : child.1 with
  | none =>
    rw [show keysOf [child] = [] by simp [keysOf, hkey], append_nil]
    exact h
  | some key =>
    rw [show keysOf [child] = [key] by simp [keysOf, hkey]]
    refine nodup_append.mpr ⟨h, nodup_singleton key, ?_⟩
    rintro other hother other' hother' rfl
    rw [mem_singleton.mp hother'] at hother
    exact hnew key hkey hother

theorem newKey_of_nodup {new : List Child} (h : (keysOf (cs ++ child :: new)).Nodup) :
    NewKey child.1 cs := by
  intro key hkey hmem
  rw [keysOf, filterMap_append, filterMap_cons_some hkey] at h
  exact (nodup_append.mp h).2.2 key hmem key mem_cons_self rfl

/-! ## A round -/

theorem insert_of_true {key : Option Text} {child : Ref} {heap : Heap}
    (h : p.heap.insert target key child = (true, heap)) :
    p.insert target key child = { p with heap } := by
  unfold Parser.insert
  rw [h]
  rfl

theorem childRound_eq (close : Int) (key : Option (List Char))
    (hreads : Reads reader levels) (hinside : Inside base p object levels cs)
    (h : p.At pre (space ++ text ++ rest)) (hspace : IsWhitespace space)
    (hv : IsValue text tree) (hrest : Delimited tree rest) (hfits : p.Fits levels tree)
    (hkeyed : key.isSome = object) (hnew : NewKey key cs) :
    ∃ heap, childRound reader base.length close (key.map Text.ofScalars) p =
        closeRound close (p.past (space ++ text) tree.nodes heap).spaces ∧
      Inside base (p.past (space ++ text) tree.nodes heap) object levels (cs ++ [(key, tree)]) := by
  obtain ⟨ref, heap, hread, hheap, hdenotes⟩ :=
    hreads.complete hinside.ready h hspace hv hrest hfits
  have hlength := hinside.filling.length_lt
  have hlimit := hinside.ready.nodeLimit
  have hcount := hinside.count
  have hnodes := hfits.nodes
  have hpositive := tree.nodes_pos
  obtain ⟨heap', hinsert, hfilling⟩ := (hinside.filling.extend hheap).insert (key, tree) hkeyed hnew
    (by omega) (hdenotes.mono hlength (Nat.le_refl _) fun _ _ _ hv => hv)
  refine ⟨heap', ?_, hinside.ready.past _ _ _, hfilling, ?_, nodup_keysOf_append hinside.keys hnew⟩
  · have hproblem : (p.past (space ++ text) tree.nodes heap).problem = none :=
      hinside.ready.problem
    have hentered : (p.past (space ++ text) tree.nodes heap).insert base.length
        (key.map Text.ofScalars) ref = p.past (space ++ text) tree.nodes heap' :=
      insert_of_true hinsert
    unfold childRound
    rw [hread]
    dsimp only
    rw [if_neg (not_not.mpr hproblem), hentered]
  · show ((cs ++ [(key, tree)]).length : Int) < p.nodes + tree.nodes
    rw [length_append, length_singleton]
    omega

theorem spaces_eq_past (h : p.At pre (space ++ rest))
    (hspace : IsWhitespace space) (hrest : NotHead IsSpace rest) :
    p.spaces = p.past space 0 p.heap := by
  rw [spaces_run h hspace hrest, advance_eq_past]

theorem past_past_zero (p : Parser) (text text' : List Char) (nodes : Nat) (heap : Heap) :
    (p.past text nodes heap).past text' 0 heap = p.past (text ++ text') nodes heap :=
  past_past p text text' nodes 0 heap heap

theorem past_zero_past (p : Parser) (text text' : List Char) (nodes : Nat) (heap heap' : Heap) :
    (p.past text 0 heap).past text' nodes heap' = p.past (text ++ text') nodes heap' := by
  rw [past_past, Nat.zero_add]

/-- The child of a round with the whitespace behind it. -/
theorem childRound_close {after : List Char} (close : Int) (key : Option (List Char))
    (hreads : Reads reader levels) (hinside : Inside base p object levels cs)
    (h : p.At pre (space ++ text ++ after ++ rest)) (hspace : IsWhitespace space)
    (hv : IsValue text tree) (hafter : IsWhitespace after) (hrest : Separated object rest)
    (hfits : p.Fits levels tree) (hkeyed : key.isSome = object) (hnew : NewKey key cs) :
    ∃ heap, childRound reader base.length close (key.map Text.ofScalars) p =
        closeRound close (p.past (space ++ text ++ after) tree.nodes heap) ∧
      Inside base (p.past (space ++ text ++ after) tree.nodes heap) object levels
        (cs ++ [(key, tree)]) := by
  rw [append_assoc] at h
  obtain ⟨heap, hround, hnext⟩ := childRound_eq close key hreads hinside h hspace hv
    (hrest.delimited hafter tree) hfits hkeyed hnew
  refine ⟨heap, ?_, ?_⟩
  · rw [hround, spaces_eq_past (h.past tree.nodes heap) hafter hrest.notHead_space]
    exact congrArg (closeRound close) (past_past_zero _ _ _ _ _)
  · rw [← past_past_zero]
    exact hnext.past after

theorem memberKey_eq {keyText mid key : List Char} (hinside : Inside base p true levels cs)
    (h : p.At pre (keyText ++ mid ++ ':' :: rest)) (hkey : IsString keyText key)
    (hmid : IsWhitespace mid) (hnew : key ∉ keysOf cs) : memberKey base.length p =
      (some (Text.ofScalars key), p.past (keyText ++ mid ++ [':']) 0 p.heap) := by
  rw [append_assoc] at h
  have hb : p.byte = 34 := by
    obtain ⟨body, rfl, -⟩ := hkey
    exact At.byte_ascii (c := '"') h (by decide)
  have hafter := h.past 0 p.heap
  have hcolon := hafter.past 0 p.heap
  have hspaces : (p.past keyText 0 p.heap).spaces =
      (p.past keyText 0 p.heap).past mid 0 p.heap := by
    rw [spaces_run hafter hmid (notHead_cons (by decide) _), advance_eq_past]
    rfl
  have hbyte' : ((p.past keyText 0 p.heap).past mid 0 p.heap).byte = 58 :=
    hcolon.byte_ascii (by decide)
  have hget : ¬ (p.heap.get base.length (Text.ofScalars key)).isSome = true :=
    fun hsome => hnew ((hinside.filling.get_isSome_iff key).mp hsome)
  unfold memberKey
  rw [if_neg (not_not.mpr hb),
    string_of_isString hinside.ready.length hinside.ready.problem h hkey, advance_eq_past]
  dsimp only
  rw [hspaces, if_neg (not_not.mpr hbyte'),
    advance_ascii_eq_past _ (show ':'.toNat < 128 by decide), past_past, past_past,
    ← append_assoc]
  exact if_neg hget

theorem memberKey_none {next : Parser}
    (h : memberKey target p = (none, next)) : next.problem ≠ none := by
  unfold memberKey at h
  dsimp only at h
  repeat' split at h
  all_goals
    first
    | exact (Prod.mk.inj h).2 ▸ problem_fail
    | cases (Prod.mk.inj h).1

theorem isString_of_memberKey {key : Text} {next : Parser}
    (hinside : Inside base p true levels cs) (h : p.At pre after)
    (hmember : memberKey base.length p = (some key, next)) (hok : next.problem = none) :
    ∃ keyText mid rest chars, after = keyText ++ mid ++ ':' :: rest ∧
      IsString keyText chars ∧ IsWhitespace mid ∧ chars ∉ keysOf cs := by
  unfold memberKey at hmember
  split at hmember
  · cases (Prod.mk.inj hmember).1
  · rename_i hquote
    obtain ⟨after, rfl⟩ := (h.byte_eq_iff '"' (by decide)).mp (not_not.mp hquote)
    dsimp only at hmember
    split at hmember
    · cases (Prod.mk.inj hmember).1
    · rename_i hcolon
      split at hmember
      · cases (Prod.mk.inj hmember).1
      · rename_i hget
        have hstring : p.string.2.problem = none := by
          rw [← (Prod.mk.inj hmember).2] at hok
          exact hok
        obtain ⟨keyText, rest, chars, heq, hkey⟩ :=
          isString_of_string hinside.ready.length hinside.ready.problem h hstring
        obtain ⟨mid, rest, rfl, hmid, hrest⟩ := exists_run IsSpace rest
        rw [heq] at h
        rw [string_of_isString hinside.ready.length hinside.ready.problem h hkey] at hcolon hget
        have hafter := h.advance
        rw [spaces_run hafter hmid hrest] at hcolon
        obtain ⟨rest, rfl⟩ :=
          (hafter.advance.byte_eq_iff ':' (by decide)).mp (not_not.mp hcolon)
        refine ⟨keyText, mid, rest, chars, by rw [heq, append_assoc], hkey, hmid, ?_⟩
        exact fun hmem => hget ((hinside.filling.get_isSome_iff chars).mpr hmem)

theorem notHead_space_of_isValue (h : IsValue text tree) (rest : List Char) :
    NotHead IsSpace (text ++ rest) := by
  obtain ⟨first, tail, rfl, hfirst⟩ := h.head
  exact notHead_cons hfirst.1 _

theorem containerRound_eq (hreads : Reads reader levels)
    (hinside : Inside base p object levels cs) (hchild : IsChild object text child)
    (h : p.At pre (text ++ rest)) (hrest : Separated object rest)
    (hfits : p.Fits levels child.2) (hnew : NewKey child.1 cs) :
    ∃ heap, containerRound reader base.length object p =
        closeRound (closing object).toNat (p.past text child.2.nodes heap) ∧
      Inside base (p.past text child.2.nodes heap) object levels (cs ++ [child]) := by
  unfold containerRound
  rw [if_neg (not_not.mpr hinside.ready.problem)]
  dsimp only
  cases hchild with
  | @item space text after item hspace hv hafter =>
    have hspaceAt : p.At pre (space ++ ([] ++ text ++ after ++ rest)) := by simpa using h
    have hvalueAt := hspaceAt.past 0 p.heap
    rw [spaces_eq_past hspaceAt hspace (by simpa using notHead_space_of_isValue hv _)]
    obtain ⟨heap, hround, hnext⟩ := childRound_close 93 none hreads (hinside.past space) hvalueAt
      (by simp [IsWhitespace]) hv hafter hrest (hfits.past space _) rfl hnew
    rw [past_zero_past, ← append_assoc] at hround hnext
    exact ⟨heap, hround, hnext⟩
  | @member space keyText mid space' text after key v hspace hkey hmid hspace' hv hafter =>
    have hspaceAt : p.At pre (space ++ (keyText ++ mid ++ ':' :: (space' ++ text ++ after ++ rest))) := by
      simpa using h
    have hkeyAt := hspaceAt.past 0 p.heap
    have hkeyHead : NotHead IsSpace (keyText ++ mid ++ ':' :: (space' ++ text ++ after ++ rest)) := by
      obtain ⟨body, rfl, -⟩ := hkey
      exact notHead_cons (by decide) _
    have hnewKey : key ∉ keysOf cs := hnew key rfl
    rw [spaces_eq_past hspaceAt hspace hkeyHead,
      memberKey_eq (hinside.past space) hkeyAt hkey hmid hnewKey]
    have hcolonAt : (p.past space 0 p.heap).At (pre ++ space)
        (keyText ++ mid ++ [':'] ++ (space' ++ text ++ after ++ rest)) := by simpa using hkeyAt
    obtain ⟨heap, hround, hnext⟩ := childRound_close 125 (some key) hreads
      ((hinside.past space).past (keyText ++ mid ++ [':'])) (hcolonAt.past 0 p.heap)
      hspace' hv hafter hrest ((hfits.past space _).past _ _) rfl hnew
    have hpast : ((p.past space 0 p.heap).past (keyText ++ mid ++ [':']) 0
        p.heap).past (space' ++ text ++ after) v.nodes heap =
        p.past (space ++ keyText ++ mid ++ ':' :: (space' ++ text ++ after)) v.nodes
          heap := by
      rw [past_zero_past, past_zero_past]
      simp
    exact ⟨heap, hround.trans (congrArg (closeRound 125) hpast), by rw [← hpast]; exact hnext⟩

/-! ### What a round has read -/

theorem problem_of_childRound {close : Int} {key : Option Text}
    (h : (outcome (childRound reader target close key p)).problem = none) :
    (reader.read p).2.problem = none := by
  unfold childRound at h
  dsimp only at h
  split at h
  · exact h
  · rename_i hread
    exact not_not.mp hread

theorem isValue_of_childRound (key : Option (List Char)) (hreads : Reads reader levels)
    (hinside : Inside base p object levels cs) (h : p.At pre after)
    (hkeyed : key.isSome = object) (hnew : NewKey key cs)
    (hok : (outcome (childRound reader base.length (closing object).toNat
      (key.map Text.ofScalars) p)).problem = none) :
    ∃ space text space' rest tree, after = space ++ text ++ space' ++ rest ∧ IsWhitespace space ∧
      IsValue text tree ∧ IsWhitespace space' ∧ Separated object rest ∧ p.Fits levels tree := by
  obtain ⟨space, text, rest, tree, rfl, hspace, hv, hrest, hfits⟩ :=
    hreads.sound hinside.ready h (problem_of_childRound hok)
  obtain ⟨heap, hround, hnext⟩ := childRound_eq (closing object).toNat key hreads hinside h hspace
    hv hrest hfits hkeyed hnew
  obtain ⟨space', rest, rfl, hspace', hrest'⟩ := exists_run IsSpace rest
  have hafter := h.past tree.nodes heap
  rw [hround, spaces_eq_past hafter hspace' hrest'] at hok
  exact ⟨space, text, space', rest, tree, by simp, hspace, hv, hspace',
    separated_of_closeRound (hafter.past 0 heap) hok, hfits⟩

theorem problem_of_outcome {first : Parser} {result : Parser ⊕ Parser}
    (h : ContainerFollows first result) (hok : (outcome result).problem = none) :
    first.problem = none := by
  cases result with
  | inl next => exact h.1.problem hok
  | inr next => exact Follows.problem h hok

theorem isChild_of_containerRound (hreads : Reads reader levels)
    (hinside : Inside base p object levels cs) (h : p.At pre after)
    (hok : (outcome (containerRound reader base.length object p)).problem = none) :
    ∃ text rest child, after = text ++ rest ∧ IsChild object text child ∧ Separated object rest ∧
      p.Fits levels child.2 ∧ NewKey child.1 cs := by
  obtain ⟨space, after, rfl, hspace, hhead⟩ := exists_run IsSpace after
  have hafter := h.past 0 p.heap
  unfold containerRound at hok
  rw [if_neg (not_not.mpr hinside.ready.problem)] at hok
  dsimp only at hok
  rw [spaces_eq_past h hspace hhead] at hok
  cases object with
  | false =>
    have hnew : NewKey none cs := fun _ hkey => by cases hkey
    obtain ⟨space', text, space'', rest, tree, rfl, hspace', hv, hspace'', hrest, hfits⟩ :=
      isValue_of_childRound none hreads (hinside.past space) hafter rfl hnew hok
    refine ⟨space ++ space' ++ text ++ space'', rest, (none, tree), by simp, ?_, hrest,
      hfits.of_past, hnew⟩
    exact .item (forall_mem_append.mpr ⟨hspace, hspace'⟩) hv hspace''
  | true =>
    cases hmember : memberKey base.length (p.past space 0 p.heap) with
    | mk key next =>
      rw [hmember] at hok
      cases key with
      | none => exact absurd hok (memberKey_none hmember)
      | some key =>
        have hnext : next.problem = none :=
          problem_of_outcome (childRound_follows reader base.length 125 (some key) next) hok
        obtain ⟨keyText, mid, rest, chars, rfl, hkey, hmid, hnew⟩ :=
          isString_of_memberKey (hinside.past space) hafter hmember hnext
        have heq := hmember.symm.trans (memberKey_eq (hinside.past space) hafter hkey hmid hnew)
        obtain ⟨hkeyEq, rfl⟩ := Prod.mk.inj heq
        cases hkeyEq
        have hnewKey : NewKey (some chars) cs := by
          rintro other hother
          cases hother
          exact hnew
        have hcolonAt : (p.past space 0 p.heap).At (pre ++ space)
            (keyText ++ mid ++ [':'] ++ rest) := by simpa using hafter
        obtain ⟨space', text, space'', rest, tree, rfl, hspace', hv, hspace'', hrest, hfits⟩ :=
          isValue_of_childRound (some chars) hreads
            ((hinside.past space).past (keyText ++ mid ++ [':']))
            (hcolonAt.past 0 p.heap) rfl hnewKey hok
        refine ⟨space ++ keyText ++ mid ++ ':' :: (space' ++ text ++ space''), rest,
          (some chars, tree), by simp, ?_, hrest, hfits.of_past.of_past, hnewKey⟩
        exact .member hspace hkey hmid hspace' hv hspace''

/-! ## The loop -/

/-- Children within what the parser may still read, behind those it has read. -/
structure FitsAll (parser : Parser) (levels : Nat) (old new : List Child) : Prop where
  distinctKeys : ∀ child ∈ new, child.2.DistinctKeys
  depth : ∀ child ∈ new, child.2.depth < levels
  keys : (keysOf (old ++ new)).Nodup
  nodes : parser.nodes + nodesOf new ≤ parser.nodeLimit

variable {new : List Child}

/-- The first child fits, and behind it the others do. -/
theorem fitsAll_cons_iff (text : List Char) (heap : Heap) : p.FitsAll levels cs (child :: new) ↔
      p.Fits levels child.2 ∧ NewKey child.1 cs ∧
        (p.past text child.2.nodes heap).FitsAll levels (cs ++ [child]) new := by
  have hkeys : cs ++ child :: new = cs ++ [child] ++ new := by simp
  have hnodes : nodesOf (child :: new) = child.2.nodes + nodesOf new := rfl
  constructor
  · intro h
    have hlimit := h.nodes
    obtain ⟨hdistinct, hdistincts⟩ := forall_mem_cons.mp h.distinctKeys
    obtain ⟨hdepth, hdepths⟩ := forall_mem_cons.mp h.depth
    refine ⟨⟨hdistinct, hdepth, by omega⟩, newKey_of_nodup h.keys, hdistincts, hdepths,
      hkeys ▸ h.keys, ?_⟩
    show p.nodes + child.2.nodes + nodesOf new ≤ p.nodeLimit
    omega
  · rintro ⟨hfits, -, h⟩
    have hlimit : p.nodes + child.2.nodes + nodesOf new ≤ p.nodeLimit := h.nodes
    exact ⟨forall_mem_cons.mpr ⟨hfits.distinctKeys, h.distinctKeys⟩,
      forall_mem_cons.mpr ⟨hfits.depth, h.depth⟩, hkeys ▸ h.keys, by omega⟩

/-- The loop reads the children of the grammar up to the closing bracket. -/
theorem containerLoop_of_isChildren (hreads : Reads reader levels)
    (hchildren : IsChildren object text new) (hinside : Inside base p object levels cs)
    (h : p.At pre (text ++ closing object :: rest)) (hfits : p.FitsAll levels cs new) :
    ∃ heap, (containerLoop reader base.length object).run p =
        p.past (text ++ [closing object]) (nodesOf new) heap ∧
      Filling base heap object levels (cs ++ new) := by
  induction hchildren generalizing p pre cs with
  | @last text child hchild =>
    obtain ⟨hchildFits, hnew, -⟩ := (fitsAll_cons_iff text p.heap).mp hfits
    obtain ⟨heap, hround, hnext⟩ :=
      containerRound_eq hreads hinside hchild h ⟨rest, .inr rfl⟩ hchildFits hnew
    rw [closeRound_closing (h.past _ heap)] at hround
    refine ⟨heap, ?_, hnext.filling⟩
    rw [BoundedLoop.run_of_inr hround]
    exact past_past_zero _ _ _ _ _
  | @more text after child new hchild _ ih =>
    obtain ⟨hchildFits, hnew, -⟩ := (fitsAll_cons_iff text p.heap).mp hfits
    rw [append_assoc] at h
    obtain ⟨heap, hround, hnext⟩ :=
      containerRound_eq hreads hinside hchild h ⟨_, .inl rfl⟩ hchildFits hnew
    have hcomma : (p.past text child.2.nodes heap).At (pre ++ text)
        ([','] ++ (after ++ closing object :: rest)) := h.past _ heap
    rw [closeRound_comma hcomma] at hround
    have hrestFits := ((fitsAll_cons_iff (text ++ [',']) heap).mp hfits).2.2
    rw [← past_past_zero] at hrestFits
    obtain ⟨heap', hrun, hfilling⟩ := ih (hnext.past [',']) (hcomma.past 0 heap) hrestFits
    refine ⟨heap', ?_, ?_⟩
    · rw [BoundedLoop.run_of_inl hround]
      refine hrun.trans ?_
      rw [past_past, past_past]
      simp [nodesOf]
    · rw [append_assoc] at hfilling
      exact hfilling

theorem containerLoop_of_problem (h : p.problem ≠ none) :
    (containerLoop reader target object).run p = p := by
  refine BoundedLoop.run_of_inr ?_
  show containerRound reader target object p = _
  rw [containerRound, if_pos h]

/-- The loop leaves without a problem only behind children of the grammar. -/
theorem isChildren_of_containerLoop (hreads : Reads reader levels)
    (hinside : Inside base p object levels cs) (h : p.At pre after)
    (hok : ((containerLoop reader base.length object).run p).problem = none) :
    ∃ text rest new, after = text ++ closing object :: rest ∧ IsChildren object text new ∧
      p.FitsAll levels cs new := by
  induction hlength : after.length using Nat.strongRecOn
    generalizing p pre after cs with
  | _ length ih =>
    have hround : (outcome (containerRound reader base.length object p)).problem = none := by
      cases hbody : containerRound reader base.length object p with
      | inr result => rwa [BoundedLoop.run_of_inr hbody] at hok
      | inl next =>
        by_contra hproblem
        have hnext : next.problem ≠ none := hproblem
        rw [BoundedLoop.run_of_inl hbody, containerLoop_of_problem hnext] at hok
        exact hnext hok
    obtain ⟨text, rest, child, rfl, hchild, hrest, hfits, hnew⟩ :=
      isChild_of_containerRound hreads hinside h hround
    obtain ⟨heap, hbody, hnext⟩ := containerRound_eq hreads hinside hchild h hrest hfits hnew
    obtain ⟨tail, rfl | rfl⟩ := hrest
    · have hcomma : (p.past text child.2.nodes heap).At (pre ++ text) ([','] ++ tail) :=
        h.past _ heap
      rw [closeRound_comma hcomma] at hbody
      rw [BoundedLoop.run_of_inl hbody] at hok
      rw [length_append, length_cons] at hlength
      obtain ⟨text', rest, new, rfl, hchildren, hrestFits⟩ :=
        ih tail.length (by omega) (hnext.past [',']) (hcomma.past 0 heap) hok rfl
      refine ⟨text ++ ',' :: text', rest, child :: new, by simp, .more hchild hchildren, ?_⟩
      rw [fitsAll_cons_iff (text ++ [',']) heap, ← past_past_zero]
      exact ⟨hfits, hnew, hrestFits⟩
    · refine ⟨text, tail, [child], rfl, .last hchild, (fitsAll_cons_iff text heap).mpr ⟨hfits, hnew, ?_⟩⟩
      exact ⟨by simp, by simp, by simpa using hnext.keys, by simpa [nodesOf, Parser.past] using hfits.nodes⟩

end Parser

end Neri.Stdlib.Json
