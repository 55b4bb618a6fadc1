import Neri.Stdlib.Json.Proofs.ContainerProofs

/-!
# `parse` reads the JSON texts within the limits

By induction on the levels that the depth limit leaves, `read` accepts the values of the grammar that
are within the limits, and gives references that denote them.
-/

namespace Neri.Stdlib.Json

open Utf8 List

namespace Parser

variable {p : Parser} {pre after text rest : List Char} {tree : Tree} {reader : Reader}
  {object : Bool} {levels : Nat} {cs : List Child}

/-! ## Containers -/

/-- Whitespace in front of a child makes no difference to the loop. -/
theorem containerLoop_spaces (target : Ref) (h : p.problem = none) :
    (containerLoop reader target object).run p.spaces =
      (containerLoop reader target object).run p := by
  have hspaces : p.spaces.problem = none := h
  have hround : (containerLoop reader target object).body p.spaces =
      (containerLoop reader target object).body p := by
    show containerRound reader target object p.spaces = containerRound reader target object p
    rw [containerRound, containerRound, if_neg (not_not.mpr hspaces), if_neg (not_not.mpr h),
      spaces_spaces]
  rw [BoundedLoop.run_eq, hround, ← BoundedLoop.run_eq]

theorem IsChild.head {child : Child} (h : IsChild object text child) :
    ∃ space first rest, text = space ++ first :: rest ∧ IsWhitespace space ∧ IsTokenChar first := by
  cases h with
  | item hspace hv _ =>
    obtain ⟨first, rest, rfl, hfirst⟩ := hv.head
    exact ⟨_, first, _, append_assoc _ _ _, hspace, hfirst⟩
  | @member space _ middle space' text after _ _ hspace hkey _ _ _ _ =>
    obtain ⟨body, rfl, -⟩ := hkey
    exact ⟨space, '"', body ++ '"' :: (middle ++ ':' :: (space' ++ text ++ after)), by simp, hspace,
      by decide⟩

theorem IsChildren.head (h : IsChildren object text cs) :
    ∃ space first rest, text = space ++ first :: rest ∧ IsWhitespace space ∧ IsTokenChar first := by
  cases h with
  | last hchild => exact IsChild.head hchild
  | more hchild _ =>
    obtain ⟨space, first, rest, rfl, hspace, hfirst⟩ := IsChild.head hchild
    exact ⟨space, first, _, append_assoc _ _ _, hspace, hfirst⟩

/-- The parser behind the opening bracket of a container that it has allocated. -/
def opened (parser : Parser) (object : Bool) : Parser :=
  parser.past [opening object] 0 (parser.heap ++ [if object then Value.object else Value.array])

theorem inside_opened (hready : p.Ready) (hnodes : 0 < p.nodes) (object : Bool)
    (levels : Nat) : Inside p.heap (p.opened object) object levels [] :=
  ⟨hready.past _ _ _, filling_allocate _ _ _, by simpa [opened, Parser.past] using hnodes, nodup_nil⟩

theorem opening_toNat_lt (object : Bool) : (opening object).toNat < 128 := by
  cases object <;> decide

theorem container_eq (reader : Reader) (object : Bool) (p : Parser) : container reader object p =
      (p.heap.length, if (p.opened object).spaces.byte = (closing object).toNat then
          (p.opened object).spaces.advance
        else (containerLoop reader p.heap.length object).run (p.opened object).spaces) := by
  have hclosing : (if object then 125 else 93 : Int) = (closing object).toNat := by
    cases object <;> rfl
  have hadvance : ({ p with heap := p.heap ++
      [if object then Value.object else Value.array] } : Parser).advance = p.opened object :=
    advance_ascii_eq_past _ (opening_toNat_lt object)
  unfold container containerEntries
  rw [hclosing]
  show (p.heap.length, _) = _
  rw [← hadvance]

theorem container_of_isBody (hreads : Reads reader levels) (hready : p.Ready)
    (hnodes : 0 < p.nodes) (h : p.At pre (opening object :: text ++ [closing object] ++ rest))
    (hbody : IsBody object text cs) (hfits : p.FitsAll levels [] cs) :
    ∃ heap, container reader object p = (p.heap.length,
        p.past (opening object :: text ++ [closing object]) (nodesOf cs) heap) ∧
      Filling p.heap heap object levels cs := by
  have hinside := inside_opened hready hnodes object levels
  have hinner : p.At pre ([opening object] ++ (text ++ closing object :: rest)) := by
    simpa using h
  have hafter : (p.opened object).At _ _ := hinner.past 0 _
  rw [container_eq]
  rcases hbody with ⟨rfl, hspace⟩ | hchildren
  · have hseparated : Separated object (closing object :: rest) := ⟨rest, .inr rfl⟩
    rw [spaces_eq_past hafter hspace hseparated.notHead_space,
      if_pos ((hafter.past 0 _).byte_ascii (closing_toNat_lt object)),
      advance_ascii_eq_past _ (closing_toNat_lt object), past_past, opened, past_past]
    exact ⟨_, rfl, hinside.filling⟩
  · obtain ⟨space, first, tail, htext, hspace, hfirst⟩ := IsChildren.head hchildren
    have hne : (p.opened object).spaces.byte ≠ (closing object).toNat := by
      have hsplit := hafter
      rw [htext, append_assoc] at hsplit
      have hhead : NotHead IsSpace (first :: tail ++ closing object :: rest) :=
        notHead_cons hfirst.1 _
      rw [spaces_eq_past hsplit hspace hhead, ne_eq,
        (hsplit.past 0 _).byte_eq_iff _ (closing_toNat_lt object)]
      rintro ⟨rest', heq⟩
      obtain rfl := (cons.inj heq).1
      exact not_isTokenChar_closing object hfirst
    rw [if_neg hne, containerLoop_spaces _ hinside.ready.problem]
    obtain ⟨heap, hrun, hfilling⟩ := containerLoop_of_isChildren hreads hchildren hinside hafter
      ⟨hfits.distinctKeys, hfits.depth, hfits.keys, by simpa [opened, Parser.past] using hfits.nodes⟩
    rw [opened, past_zero_past] at hrun
    exact ⟨heap, by rw [opened, hrun]; simp, hfilling⟩

theorem isBody_of_container (hreads : Reads reader levels) (hready : p.Ready)
    (hnodes : 0 < p.nodes) (hlimit : p.nodes ≤ p.nodeLimit) (h : p.At pre (opening object :: after))
    (hok : (container reader object p).2.problem = none) :
    ∃ text rest cs, after = text ++ closing object :: rest ∧ IsBody object text cs ∧
      p.FitsAll levels [] cs := by
  have hinside := inside_opened hready hnodes object levels
  have hinner : p.At pre ([opening object] ++ after) := h
  have hafter : (p.opened object).At _ _ := hinner.past 0 _
  rw [container_eq] at hok
  obtain ⟨space, rest, rfl, hspace, hrest⟩ := exists_run IsSpace after
  by_cases hb : (p.opened object).spaces.byte = (closing object).toNat
  · rw [spaces_eq_past hafter hspace hrest] at hb
    obtain ⟨rest, rfl⟩ :=
      ((hafter.past 0 _).byte_eq_iff (closing object) (closing_toNat_lt object)).mp hb
    exact ⟨space, rest, [], rfl, .inl ⟨rfl, hspace⟩, by simp, by simp, nodup_nil,
      by simpa [nodesOf] using hlimit⟩
  · rw [if_neg hb, containerLoop_spaces _ hinside.ready.problem] at hok
    obtain ⟨text, rest, cs, heq, hchildren, hfits⟩ :=
      isChildren_of_containerLoop hreads hinside hafter hok
    exact ⟨text, rest, cs, heq, .inr hchildren, hfits.distinctKeys, hfits.depth, hfits.keys,
      by simpa [opened, Parser.past] using hfits.nodes⟩

/-! ## Values -/

def counted (parser : Parser) : Parser := { parser with nodes := parser.nodes + 1 }

theorem counted_eq_past (p : Parser) : p.counted = p.past [] 1 p.heap := rfl

theorem counted_past (p : Parser) (text : List Char) (nodes : Nat) (heap : Heap) :
    p.counted.past text nodes heap = p.past text (nodes + 1) heap := by
  rw [counted_eq_past, past_past, nil_append, Nat.add_comm]

theorem Ready.counted (h : p.Ready) : p.counted.Ready := h.past [] 1 p.heap

theorem counted_pos (h : p.Ready) : 0 < p.counted.nodes :=
  Int.lt_add_one_of_le h.nodes

theorem denotes_allocate (heap : Heap) (levels : Nat) {value : Value}
    (h : ∀ child, value.Shows child tree) :
    (heap ++ [value]).DenotesFrom heap.length (levels + 1) heap.length tree :=
  ⟨Nat.le_refl _, value, by simp, h _⟩

theorem readValue_of_isValue (hreads : Reads reader levels) (hready : p.Ready)
    (h : p.At pre (text ++ rest)) (hv : IsValue text tree) (hrest : Delimited tree rest)
    (hfits : p.Fits (levels + 1) tree) :
    ∃ ref heap, readValue reader p.counted = (ref, p.past text tree.nodes heap) ∧
      p.heap <+: heap ∧ heap.DenotesFrom p.heap.length (levels + 1) ref tree := by
  have hcounted : p.counted.At pre (text ++ rest) := h
  unfold readValue
  rcases hv.split with htoken | ⟨chars, rfl, hstring⟩ |
    ⟨object, body, cs, rfl, rfl, hbody⟩
  · obtain ⟨first, tail, htext, hquote, hbrace, hbracket⟩ := htoken.head
    have hne : ∀ c : Char, c.toNat < 128 → first ≠ c → p.counted.byte ≠ c.toNat := by
      intro c hc hfirst hb
      obtain ⟨rest', heq⟩ := (hcounted.byte_eq_iff c hc).mp hb
      rw [htext] at heq
      exact hfirst (cons.inj heq).1
    have h34 : p.counted.byte ≠ 34 := hne '"' (by decide) hquote
    have h123 : p.counted.byte ≠ 123 := hne '{' (by decide) hbrace
    have h91 : p.counted.byte ≠ 91 := hne '[' (by decide) hbracket
    obtain ⟨value, hread, hshows⟩ :=
      readToken_of_isToken hcounted htoken (htoken.delimited_iff.mp hrest)
    rw [if_neg h34, if_neg (by simp [h123, h91]), hread, advance_eq_past, counted_past, htoken.nodes]
    exact ⟨_, _, rfl, List.prefix_append _ _, denotes_allocate _ _ hshows⟩
  · have hb : p.counted.byte = 34 := by
      obtain ⟨body, rfl, -⟩ := hstring
      exact At.byte_ascii (c := '"') hcounted (by decide)
    rw [if_pos hb, string_of_isString hready.counted.length hready.counted.problem hcounted hstring,
      advance_eq_past, counted_past]
    exact ⟨_, _, rfl, prefix_append _ _, denotes_allocate _ _ fun _ => ⟨rfl, rfl⟩⟩
  · have hb : p.counted.byte = (opening object).toNat :=
      At.byte_ascii (c := opening object) hcounted (opening_toNat_lt object)
    have hnodes := hfits.nodes
    rw [Tree.nodes_container] at hnodes ⊢
    obtain ⟨hkeys, hdistinct⟩ :=
      (Tree.distinctKeys_container_iff hbody.keyed).mp hfits.distinctKeys
    have hall : p.counted.FitsAll levels [] cs := by
      refine ⟨hdistinct, (Tree.depth_container_lt_iff object cs levels).mp hfits.depth, hkeys, ?_⟩
      show p.nodes + 1 + nodesOf cs ≤ p.nodeLimit
      omega
    obtain ⟨heap, hcontainer, hfilling⟩ :=
      container_of_isBody hreads hready.counted (counted_pos hready) hcounted hbody hall
    have hobject : decide (p.counted.byte = 123) = object := by
      rw [hb]
      cases object <;> rfl
    rw [if_neg (by rw [hb]; cases object <;> decide),
      if_pos (by rw [hb]; cases object <;> decide), hobject, hcontainer, counted_past]
    exact ⟨_, heap, rfl, hfilling.kept, hfilling.denotes⟩

theorem depth_string (chars : List Char) : (Tree.string chars).depth = 0 := by simp [Tree.depth]

theorem IsToken.fits {tree : Tree} (h : IsToken text tree) :
    tree.DistinctKeys ∧ tree.depth = 0 := by
  cases h <;> simp [Tree.DistinctKeys, Tree.depth]

theorem isValue_of_readValue (hreads : Reads reader levels) (hready : p.Ready)
    (hlimit : p.nodes < p.nodeLimit) (h : p.At pre after)
    (hok : (readValue reader p.counted).2.problem = none) :
    ∃ text rest tree, after = text ++ rest ∧ IsValue text tree ∧ Delimited tree rest ∧
      p.Fits (levels + 1) tree := by
  have hcounted : p.counted.At pre after := h
  have hcountedLimit : p.counted.nodes ≤ p.counted.nodeLimit := hlimit
  unfold readValue at hok
  dsimp only at hok
  split at hok
  · rename_i hb
    obtain ⟨after, rfl⟩ := (hcounted.byte_eq_iff '"' (by decide)).mp hb
    obtain ⟨text, rest, chars, heq, hstring⟩ :=
      isString_of_string hready.counted.length hready.counted.problem hcounted hok
    refine ⟨text, rest, .string chars, heq, .string hstring, trivial, ?_, ?_, ?_⟩
    · simp [Tree.DistinctKeys]
    · exact Nat.succ_pos _
    · simp only [Tree.nodes]
      omega
  · split at hok
    · rename_i hopening
      obtain ⟨object, hobject, hb⟩ : ∃ object, decide (p.counted.byte = 123) = object ∧
          p.counted.byte = (opening object).toNat := by
        rcases (by simpa using hopening : _ ∨ _) with hbrace | hbracket
        · exact ⟨true, by simp [hbrace], hbrace⟩
        · exact ⟨false, by simp [hbracket], hbracket⟩
      rw [hobject] at hok
      obtain ⟨after, rfl⟩ := (hcounted.byte_eq_iff _ (opening_toNat_lt object)).mp hb
      obtain ⟨text, rest, cs, rfl, hbody, hfits⟩ :=
        isBody_of_container hreads hready.counted (counted_pos hready) hcountedLimit hcounted hok
      have hnodes : p.nodes + 1 + nodesOf cs ≤ p.nodeLimit := hfits.nodes
      refine ⟨opening object :: text ++ [closing object], rest, .container object cs, by simp,
        hbody.isValue, by cases object <;> trivial, ?_, ?_, ?_⟩
      · exact (Tree.distinctKeys_container_iff hbody.keyed).mpr ⟨hfits.keys, hfits.distinctKeys⟩
      · exact (Tree.depth_container_lt_iff object cs levels).mpr hfits.depth
      · rw [Tree.nodes_container]
        omega
    · obtain ⟨text, rest, tree, rfl, htoken, hrest⟩ := isToken_of_readToken hcounted hok
      obtain ⟨hdistinct, hdepth⟩ := IsToken.fits htoken
      refine ⟨text, rest, tree, rfl, htoken.isValue, htoken.delimited_iff.mpr hrest, hdistinct, ?_, ?_⟩
      · omega
      · rw [htoken.nodes]
        omega

/-- `read` reads the values of the grammar within the limits, and nothing else. -/
theorem reads_reader (levels : Nat) : Reads (Parser.reader levels) levels := by
  induction levels with
  | zero =>
    refine ⟨fun _ _ _ _ _ hfits => absurd hfits.depth (Nat.not_lt_zero _), fun _ _ hok => ?_⟩
    exact absurd hok problem_fail
  | succ levels ih =>
    constructor
    · intro p pre space text rest tree hready h hspace hv hrest hfits
      have hpositive := tree.nodes_pos
      have hnodes := hfits.nodes
      rw [append_assoc] at h
      have hspaces := spaces_eq_past h hspace (notHead_space_of_isValue hv rest)
      obtain ⟨ref, heap, hread, hheap, hdenotes⟩ := readValue_of_isValue ih (hready.past space 0 _)
        (h.past 0 p.heap) hv hrest (hfits.past space _)
      refine ⟨ref, heap, ?_, hheap, hdenotes⟩
      show (if p.spaces.nodes ≥ p.spaces.nodeLimit then _
        else readValue (Parser.reader levels) p.spaces.counted) = _
      have hlimit : ¬ p.spaces.nodes ≥ p.spaces.nodeLimit := by
        show ¬ p.nodes ≥ p.nodeLimit
        omega
      rw [if_neg hlimit, hspaces, hread, past_zero_past]
    · intro p pre after hready h hok
      obtain ⟨space, after, rfl, hspace, hhead⟩ := exists_run IsSpace after
      have hspaces := spaces_eq_past h hspace hhead
      change (if p.spaces.nodes ≥ p.spaces.nodeLimit then _
        else readValue (Parser.reader levels) p.spaces.counted).2.problem = none at hok
      split at hok
      · exact absurd hok problem_fail
      · rename_i hlimit
        have hlimit' : p.spaces.nodes < p.spaces.nodeLimit := by omega
        rw [hspaces] at hok hlimit'
        obtain ⟨text, rest, tree, rfl, hv, hrest, hfits⟩ := isValue_of_readValue ih
          (hready.past space 0 _) hlimit' (h.past 0 p.heap) hok
        exact ⟨space, text, rest, tree, (append_assoc _ _ _).symm, hspace, hv, hrest, hfits.of_past⟩

/-! ## `parse` -/

theorem parse_eq (p : Parser) (depthLimit : Int) : p.parse depthLimit =
    let read := (Parser.reader (depthLimit + 1).toNat).read p
    let final := if read.2.spaces.position ≠ read.2.spaces.input.byteLength then
      read.2.spaces.fail "invalid_json" else read.2.spaces
    (match final.problem with
      | some problem => .error problem
      | none => .ok read.1, final.heap) := by
  unfold Parser.parse
  dsimp only
  split <;> rename_i h <;> rw [h]

end Parser

section Limits

variable {heap : Heap} {input : Text} {options : Options}

/-- The parser with which `parse` starts. -/
def startParser (heap : Heap) (input : Text) (options : Options) : Parser :=
  { input, nodeLimit := options.maxNodes, heap }

theorem ready_start (heap : Heap) (hvalid : validOptions options = true)
    (hlen : (input.byteLength : Int) ≤ options.maxInputBytes) :
    (startParser heap input options).Ready := by
  simp only [validOptions, Bool.and_eq_true, decide_eq_true_eq] at hvalid
  refine ⟨rfl, ?_, Int.le_refl _, ?_⟩
  · show input.byteLength ≤ 134217728
    omega
  · show options.maxNodes ≤ 1000000
    omega

theorem at_start (heap : Heap) (input : Text) (options : Options) :
    (startParser heap input options).At [] input.scalars := input.splitsAt_zero

theorem parse_of_isJsonWithin {tree : Tree} (heap : Heap) (hvalid : validOptions options = true)
    (hlen : (input.byteLength : Int) ≤ options.maxInputBytes)
    (htext : IsJsonWithin options input.scalars tree) :
    ∃ ref heap', (startParser heap input options).parse options.maxDepth = (.ok ref, heap') ∧
      heap <+: heap' ∧ heap'.Denotes ref tree := by
  obtain ⟨pre, body, after, heq, hbefore, hbody, hafter⟩ := htext.isJsonText
  have hready := ready_start heap hvalid hlen
  have hstart := at_start heap input options
  rw [heq] at hstart
  have hdepth := htext.depth
  have hfits : (startParser heap input options).Fits (options.maxDepth + 1).toNat tree := by
    refine ⟨htext.distinctKeys, by omega, ?_⟩
    show (0 : Int) + tree.nodes ≤ options.maxNodes
    have := htext.nodes
    omega
  obtain ⟨ref, heap', hread, hheap, hdenotes⟩ := (Parser.reads_reader _).complete hready hstart
    hbefore hbody (delimited_of_notHead (fun c hc htoken => htoken.1 (hafter c (mem_of_mem_head? hc))) tree) hfits
  have hend : ((startParser heap input options).past (pre ++ body) tree.nodes heap').At
      ([] ++ (pre ++ body)) (after ++ []) := by
    rw [append_nil]
    exact hstart.past tree.nodes heap'
  have hposition := Text.SplitsAt.byteLength (hend.past 0 heap')
  refine ⟨ref, heap', ?_, hheap, _, hdenotes.mono (Nat.zero_le _) (Nat.le_refl _)
    fun _ _ _ hv => hv⟩
  rw [Parser.parse_eq, hread]
  dsimp only
  rw [Parser.spaces_eq_past hend hafter (notHead_nil _)]
  have hcomplete : ¬ (((startParser heap input options).past (pre ++ body) tree.nodes heap').past
      after 0 heap').position ≠ input.byteLength := not_not.mpr hposition.symm
  exact congrArg (fun final : Parser => ((match final.problem with
    | some problem => Except.error problem
    | none => Except.ok ref : Except Failure Ref), final.heap)) (if_neg hcomplete)

theorem isJsonWithin_of_parse {ref : Ref} (hvalid : validOptions options = true)
    (hlen : (input.byteLength : Int) ≤ options.maxInputBytes)
    (hok : ((startParser heap input options).parse options.maxDepth).1 = .ok ref) :
    ∃ tree, IsJsonWithin options input.scalars tree := by
  have hready := ready_start heap hvalid hlen
  have hstart := at_start heap input options
  rw [Parser.parse_eq] at hok
  dsimp only at hok
  split at hok
  · cases hok
  · rename_i hfinal
    split at hfinal
    · exact absurd hfinal Parser.problem_fail
    · rename_i hposition
      obtain ⟨pre, body, after, tree, heq, hbefore, hbody, hafter, hfits⟩ :=
        (Parser.reads_reader _).sound hready hstart hfinal
      rw [heq] at hstart
      obtain ⟨ref', heap', hread, -, -⟩ :=
        (Parser.reads_reader _).complete hready hstart hbefore hbody hafter hfits
      obtain ⟨space, rest, rfl, hspace, hrest⟩ := exists_run IsSpace after
      have hend := hstart.past tree.nodes heap'
      rw [hread] at hposition
      rw [Parser.spaces_eq_past hend hspace hrest] at hposition
      have hsplit := Text.SplitsAt.byteLength (hend.past 0 heap')
      have hnil : rest = [] := by
        refine encode_eq_nil_iff.mp (length_eq_zero_iff.mp ?_)
        have hend' : (((startParser heap input options).past (pre ++ body) tree.nodes heap').past
          space 0 heap').position = _ := not_not.mp hposition
        have hsplit' : _ = _ + (encode rest).length := hend'.trans hsplit
        omega
      have hdepth := hfits.depth
      have hnodes : (0 : Int) + tree.nodes ≤ options.maxNodes := hfits.nodes
      refine ⟨tree, ⟨pre, body, space, ?_, hbefore, hbody, hspace⟩, hfits.distinctKeys,
        by omega, by omega⟩
      rw [heq, hnil, append_nil]

theorem parse_eq_start (heap : Heap) {options : Option Options}
    (hvalid : validOptions (options.getD {}) = true)
    (hlen : (input.byteLength : Int) ≤ (options.getD {}).maxInputBytes) : parse heap input options =
      (startParser heap input (options.getD {})).parse (options.getD {}).maxDepth := by
  unfold parse
  rw [if_neg (by simp [hvalid]), if_neg (by omega)]
  rfl

end Limits

/-- `parse` accepts exactly the JSON texts within the limits; the values that it allocates for an
accepted text denote what the grammar does, and the values that were there stay as they are. -/
theorem parse_grammar (heap : Heap) (input : Text) (options : Option Options)
    (hvalid : validOptions (options.getD {}) = true)
    (hlength : (input.byteLength : Int) ≤ (options.getD {}).maxInputBytes) :
    ((∃ ref, (parse heap input options).1 = .ok ref) ↔
      ∃ tree, IsJsonWithin (options.getD {}) input.scalars tree) ∧
    ∀ ref, (parse heap input options).1 = .ok ref → heap <+: (parse heap input options).2 ∧
      ∀ tree, (parse heap input options).2.Denotes ref tree ↔
        IsJsonWithin (options.getD {}) input.scalars tree := by
  rw [parse_eq_start heap hvalid hlength]
  refine ⟨⟨?_, ?_⟩, ?_⟩
  · rintro ⟨ref, hok⟩
    exact isJsonWithin_of_parse hvalid hlength hok
  · rintro ⟨tree, htree⟩
    obtain ⟨ref, heap', hresult, -, -⟩ := parse_of_isJsonWithin heap hvalid hlength htree
    exact ⟨ref, by rw [hresult]⟩
  · intro ref hok
    have haccepts : ∀ tree, IsJsonWithin (options.getD {}) input.scalars tree →
        heap <+: ((startParser heap input (options.getD {})).parse (options.getD {}).maxDepth).2 ∧
        ((startParser heap input (options.getD {})).parse (options.getD {}).maxDepth).2.Denotes ref
          tree := by
      intro tree htree
      obtain ⟨ref', heap', hresult, hheap, hdenotes⟩ :=
        parse_of_isJsonWithin heap hvalid hlength htree
      rw [hresult] at hok ⊢
      obtain rfl := Except.ok.inj hok
      exact ⟨hheap, hdenotes⟩
    obtain ⟨tree, htree⟩ := isJsonWithin_of_parse hvalid hlength hok
    refine ⟨(haccepts tree htree).1, fun tree' => ⟨fun hdenotes => ?_, fun h => (haccepts tree' h).2⟩⟩
    rw [hdenotes.unique (haccepts tree htree).2]
    exact htree

/-- An array with an object, with a number and an escape in it. -/
def sampleText : Text := "[true, \x7b\"a\": -1.5e2\x7d, \"\\u0041\"]"

theorem parse_grammar_sampleText :
    ∃ ref tree, (parse [] sampleText).1 = .ok ref ∧ IsJsonWithin {} sampleText.scalars tree ∧
      (parse [] sampleText).2.Denotes ref tree := by
  obtain ⟨haccepts, hv⟩ := parse_grammar [] sampleText none (by decide) (by decide +kernel)
  have hsome : (parse [] sampleText).1.toOption = some 0 := by decide +kernel
  cases hok : (parse [] sampleText).1 with
  | error failure =>
    rw [hok] at hsome
    cases hsome
  | ok ref =>
    obtain ⟨tree, htree⟩ := haccepts.mp ⟨ref, hok⟩
    exact ⟨ref, tree, rfl, htree, ((hv ref hok).2 tree).mpr htree⟩

end Neri.Stdlib.Json
