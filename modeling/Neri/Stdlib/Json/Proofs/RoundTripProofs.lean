import Neri.Lib.ExceptFold
import Neri.Stdlib.Json.Proofs.ParserProofs
import Neri.Stdlib.Json.Proofs.WriterProofs

/-!
# `parse` gives back what `stringify` has written

In every heap that a program can build, the entries of a container have keys exactly in an object,
and an object has no key twice. So a value is written as a value of the grammar, and `parse` accepts
it under the same limits, as long as the writer knows the kinds of all values that it reaches.
-/

namespace Neri.Stdlib.Json

open Utf8 List

variable {size : Nat} {v : Value} {c : Ref → Writer → Writer} {tree : Tree}
  {text : List Char} {ref low : Ref} {entries : List Entry} {cs : List Child}

/-! ## Built heaps -/

/-- What holds of every value that a program has built, in a heap of some size. -/
structure Value.Formed (size : Nat) (value : Value) : Prop where
  indexed : value.Indexed
  array : value.tag = "array" → ∀ e ∈ value.entries, e.key.isSome = false
  object : value.tag = "object" → (∀ e ∈ value.entries, e.key.isSome = true) ∧
    (value.entries.map Entry.key).Nodup
  plain : value.tag ≠ "array" → value.tag ≠ "object" → value.entries = []
  bounded : ∀ e ∈ value.entries, e.value < size

theorem Value.Formed.mono {size' : Nat} (h : v.Formed size)
    (hsize : size ≤ size') : v.Formed size' :=
  ⟨h.indexed, h.array, h.object, h.plain, fun e he => Nat.lt_of_lt_of_le (h.bounded e he) hsize⟩

theorem Value.formed_init (size : Nat) (tag : String) (content : Text) :
    (Value.init tag content).Formed size :=
  ⟨indexed_init tag content, by simp [Value.init], by simp [Value.init], fun _ _ => rfl,
    by simp [Value.init]⟩

theorem Value.Formed.add {changed : Value} {c : Ref} (h : v.Formed size)
    (hc : c < size) (hadd : v.add c = some changed) : changed.Formed size := by
  have hindexed := h.indexed.add hadd
  obtain ⟨htag, -, rfl⟩ := Value.add_eq_some_iff.mp hadd
  refine ⟨hindexed, fun _ => ?_, fun hobject => ?_, fun harray => absurd htag harray, ?_⟩
  · show ∀ e ∈ v.entries ++ [⟨none, c⟩], e.key.isSome = false
    rw [forall_mem_append]
    exact ⟨h.array htag, by simp⟩
  · exact absurd (htag.symm.trans hobject) (by decide)
  · show ∀ e ∈ v.entries ++ [⟨none, c⟩], e.value < size
    rw [forall_mem_append]
    exact ⟨h.bounded, by simpa using hc⟩

theorem Value.Formed.put {changed : Value} {key : Text} {c : Ref}
    (h : v.Formed size) (hc : c < size) (hput : v.put key c = some changed) :
    changed.Formed size := by
  have hindexed := h.indexed.put hput
  obtain ⟨htag, -, hnew, rfl⟩ := h.indexed.put_eq_some_iff.mp hput
  obtain ⟨hkeyed, hnodup⟩ := h.object htag
  refine ⟨hindexed, fun harray => ?_, fun _ => ⟨?_, ?_⟩, fun _ hobject => absurd htag hobject, ?_⟩
  · exact absurd (htag.symm.trans harray) (by decide)
  · show ∀ e ∈ v.entries ++ [⟨some key, c⟩], e.key.isSome = true
    rw [forall_mem_append]
    exact ⟨hkeyed, by simp⟩
  · show ((v.entries ++ [(⟨some key, c⟩ : Entry)]).map Entry.key).Nodup
    rw [map_append, nodup_append]
    refine ⟨hnodup, nodup_singleton _, ?_⟩
    rintro _ hold _ hsame rfl
    obtain ⟨e, he, hkey⟩ := mem_map.mp hold
    exact hnew e he (hkey.trans (mem_singleton.mp hsame))
  · show ∀ e ∈ v.entries ++ [⟨some key, c⟩], e.value < size
    rw [forall_mem_append]
    exact ⟨h.bounded, by simpa using hc⟩

theorem Heap.length_update (heap : Heap) (tgt : Ref) (change : Value → Option Value) :
    (heap.update tgt change).2.length = heap.length := by
  unfold Heap.update
  split
  · exact length_set
  · rfl

variable {heap : Heap} {change : Value → Option Value}

theorem Heap.mem_update {tgt : Ref}
    (h : v ∈ (heap.update tgt change).2) : v ∈ heap ∨ ∃ old ∈ heap, change old = some v := by
  unfold Heap.update at h
  split at h
  · rename_i changed hchange
    obtain ⟨old, hold, hchanged⟩ := Option.bind_eq_some_iff.mp hchange
    rcases mem_or_eq_of_mem_set h with h | rfl
    · exact .inl h
    · exact .inr ⟨old, mem_of_getElem? hold, hchanged⟩
  · exact .inl h

/-- An update keeps a heap well formed when it does so for each value. -/
theorem Heap.formed_update {tgt : Ref}
    (h : ∀ v ∈ heap, v.Formed heap.length)
    (hchange : ∀ old v, old.Formed heap.length → change old = some v → v.Formed heap.length) :
    ∀ v ∈ (heap.update tgt change).2, v.Formed (heap.update tgt change).2.length := by
  intro v hv
  rw [Heap.length_update]
  rcases Heap.mem_update hv with hv | ⟨old, hold, hchanged⟩
  · exact h v hv
  · exact hchange old v (h old hold) hchanged

theorem Built.formed (h : Built heap) : ∀ v ∈ heap, v.Formed heap.length := by
  induction h with
  | empty => simp
  | @init heap tag content _ ih =>
    show ∀ v ∈ heap ++ [Value.init tag content], v.Formed (heap ++ [Value.init tag content]).length
    rw [length_append, forall_mem_append]
    refine ⟨fun v hv => (ih v hv).mono (Nat.le_add_right _ _), ?_⟩
    simpa using Value.formed_init _ tag content
  | @add heap tgt c _ _ hc ih =>
    exact Heap.formed_update ih fun old v hold hadd => hold.add hc hadd
  | @put heap tgt c key _ _ hc ih =>
    exact Heap.formed_update ih fun old v hold hput => hold.put hc hput
  | fail failure _ ih =>
    refine Heap.formed_update ih fun old v hold hfail => ?_
    cases hfail
    have hindexed := hold.indexed
    exact ⟨⟨hindexed.ordered, hindexed.balanced, hindexed.perm⟩, hold.array, hold.object, hold.plain,
      hold.bounded⟩

/-! ## What is written -/

namespace Writer

variable {heap : Heap} {levels : Nat} {w : Writer}

theorem writes_leaf {next : Writer} (hv : heap[ref]? = some v)
    (hshows : ∀ c, v.Shows c tree) (htree : IsValue text tree) (hnodes : tree.nodes = 1)
    (hdistinct : tree.DistinctKeys) (hdepth : tree.depth = 0) (hlimit : w.nodes < w.nodeLimit)
    (hwrote : Wrote w.counted next text 0) : Writes heap (levels + 1) ref w next text tree := by
  have hcounted := hwrote.counted
  refine ⟨htree, hnodes ▸ hcounted, ?_, ⟨Nat.zero_le _, v, hv, hshows _⟩, hdistinct, by omega⟩
  rw [hcounted.nodes, hcounted.nodeLimit]
  show w.nodes + 1 ≤ w.nodeLimit
  omega

theorem writes_token {next : Writer} (hv : heap[ref]? = some v) (htoken : IsToken text tree)
    (hshows : ∀ c, v.Shows c tree) (hlimit : w.nodes < w.nodeLimit)
    (hwrote : Wrote w.counted next text 0) : Writes heap (levels + 1) ref w next text tree :=
  have hfits := Parser.IsToken.fits htoken
  writes_leaf hv hshows htoken.isValue htoken.nodes hfits.1 hfits.2 hlimit hwrote

theorem writeValue_literal (htag : v.tag = "boolean" ∨ v.tag = "number") (w : Writer) :
    writeValue c v w = w.append v.content := by
  rcases htag with htag | htag <;>
    rw [writeValue, htag, if_neg (by decide), if_neg (by decide), if_pos (by decide), Value.text,
      htag, if_pos (by decide)]

variable {object : Bool}

theorem writeValue_container (htag : v.tag = containerTag object) (w : Writer) :
    writeValue c v w = (writeEntries c object true v.entries
        (w.append (Text.ofScalars [opening object]))).append (Text.ofScalars [closing object]) := by
  unfold writeValue
  rw [htag]
  cases object <;> rfl

theorem map_key_eq (h : List.Forall₂ (Entry.Holds heap low levels true) entries cs) :
    entries.map Entry.key = (keysOf cs).map fun key => some (Text.ofScalars key) := by
  induction h with
  | nil => rfl
  | @cons e c entries cs he _ ih =>
    obtain ⟨key, hsome⟩ := Option.isSome_iff_exists.mp he.keyed
    have hkeys : keysOf (c :: cs) = key :: keysOf cs :=
      filterMap_cons_some hsome
    rw [map_cons, ih, hkeys, he.key, hsome]
    rfl

theorem keyed_of_holds
    (h : List.Forall₂ (Entry.Holds heap low levels object) entries cs) :
    ∀ c ∈ cs, c.1.isSome = object := by
  induction h with
  | nil => simp
  | cons he _ ih => exact forall_mem_cons.mpr ⟨he.keyed, ih⟩

theorem nodup_keysOf (hformed : v.Formed size) (htag : v.tag = containerTag object)
    (h : List.Forall₂ (Entry.Holds heap low levels object) v.entries cs) : (keysOf cs).Nodup := by
  cases object with
  | false =>
    rw [keysOf_of_keyed_false (keyed_of_holds h)]
    exact nodup_nil
  | true =>
    have hnodup := (hformed.object htag).2
    rw [map_key_eq h] at hnodup
    exact hnodup.of_map _

theorem keyed_of_formed (hformed : v.Formed size)
    (htag : v.tag = containerTag object) : ∀ e ∈ v.entries, e.key.isSome = object := by
  cases object with
  | false => exact hformed.array htag
  | true => exact (hformed.object htag).1

theorem problem_of_writeEntries {first : Bool} (hok : (writeEntries c object first entries w).problem = none) :
    w.problem = none := by
  by_contra hproblem
  cases entries with
  | nil => exact hproblem hok
  | cons e entries =>
    rw [writeEntries, if_neg hproblem] at hok
    rw [if_neg hproblem] at hok
    exact hproblem hok

theorem wrote_body (hkeyed : ∀ e ∈ entries, e.key.isSome = object)
    (hc : ∀ e ∈ entries, WritesAt heap levels c e.value)
    (hopen : Wrote w w [] 0) (hlimit : w.nodes ≤ w.nodeLimit)
    (hok : (writeEntries c object true entries w).problem = none) :
    ∃ text cs, IsBody object text cs ∧ WroteEntries heap levels object entries w
      (writeEntries c object true entries w) text cs := by
  by_cases hempty : entries = []
  · subst hempty
    exact ⟨[], [], .inl ⟨rfl, isWhitespace_nil⟩, hopen, hlimit, .nil, by simp⟩
  · obtain ⟨text, cs, hchildren, hwrote⟩ :=
      wrote_writeEntries hempty hkeyed hc hopen hlimit hok
    exact ⟨text, cs, .inr hchildren, hwrote⟩

theorem problem_of_writeValue (hok : (writeValue c v w).problem = none) : w.problem = none := by
  unfold writeValue at hok
  repeat' split at hok
  all_goals first
    | exact hok
    | exact (wrote_append (problem_of_writeEntries (wrote_append hok).1)).1
    | exact (wrote_append hok).1
    | exact (wrote_string hok).choose_spec.2.1

section

variable (hv : heap[ref]? = some v) (hformed : v.Formed size)
  (hc : ∀ e ∈ v.entries, WritesAt heap levels c e.value) (hlimit : w.nodes < w.nodeLimit)
  (hok : (writeValue c v w.counted).problem = none)

include hv hformed hc hlimit hok

theorem writes_container (htag : v.tag = containerTag object) :
    ∃ text tree, Writes heap (levels + 1) ref w (writeValue c v w.counted) text tree := by
  rw [writeValue_container htag] at hok ⊢
  obtain ⟨hokEntries, hclose⟩ := wrote_append_ofScalars hok
  obtain ⟨-, hopen⟩ := wrote_append_ofScalars (problem_of_writeEntries hokEntries)
  obtain ⟨text, cs, hbody, hwrote⟩ := wrote_body (keyed_of_formed hformed htag) hc
    hopen.nothing (hopen.limit hlimit) hokEntries
  refine ⟨opening object :: text ++ [closing object], .container object cs, hbody.isValue, ?_,
    hclose.limit hwrote.limit, ⟨Nat.zero_le _, v, hv, shows_container htag hwrote.holds⟩, ?_,
    ?_⟩
  · have htotal := ((hopen.trans hwrote.wrote).trans hclose).counted
    rw [Nat.zero_add] at htotal
    rw [Tree.nodes_container]
    exact htotal
  · refine (Tree.distinctKeys_container_iff hbody.keyed).mpr
      ⟨nodup_keysOf hformed htag hwrote.holds, ?_⟩
    exact fun c hmem => (hwrote.fits c hmem).1
  · refine (Tree.depth_container_lt_iff object cs levels).mpr ?_
    exact fun c hmem => (hwrote.fits c hmem).2

theorem writes_writeValue (hkind : v.WellKinded) : ∃ text tree, Writes heap (levels + 1) ref w
      (writeValue c v w.counted) text tree := by
  rcases hkind with htag | htag | htag | htag | ⟨htag, hcontent⟩ | ⟨htag, hnumber⟩
  · have hwritten : ∀ w : Writer, writeValue c v w = w.append "null" := by
      intro w
      rw [writeValue, if_pos htag]
    rw [hwritten] at hok ⊢
    exact ⟨_, _, writes_token hv .null (fun _ => htag) hlimit (wrote_append_ofScalars hok).2⟩
  · have hwritten : ∀ w : Writer, writeValue c v w = w.string v.content := by
      intro w
      rw [writeValue, htag, if_neg (by decide), if_pos rfl, Value.text, htag, if_pos (by decide)]
    rw [hwritten] at hok ⊢
    obtain ⟨text, hstring, -, hwrote⟩ := wrote_string hok
    exact ⟨text, .string _, writes_leaf hv (fun _ => ⟨htag, v.content.ofScalars_scalars.symm⟩)
      (.string hstring) rfl (by simp [Tree.DistinctKeys]) (Parser.depth_string _) hlimit hwrote⟩
  · exact writes_container hv hformed hc hlimit hok (show _ = containerTag false from htag)
  · exact writes_container hv hformed hc hlimit hok (show _ = containerTag true from htag)
  · rw [writeValue_literal (.inl htag)] at hok ⊢
    rcases hcontent with hcontent | hcontent
    · rw [hcontent] at hok ⊢
      exact ⟨_, _, writes_token hv .true (fun _ => ⟨htag, hcontent⟩) hlimit
        (wrote_append_ofScalars hok).2⟩
    · rw [hcontent] at hok ⊢
      exact ⟨_, _, writes_token hv .false (fun _ => ⟨htag, hcontent⟩) hlimit
        (wrote_append_ofScalars hok).2⟩
  · rw [writeValue_literal (.inr htag)] at hok ⊢
    rw [← v.content.ofScalars_scalars, validNumber_ofScalars_iff] at hnumber
    exact ⟨_, _, writes_token hv (.number hnumber)
      (fun _ => ⟨htag, v.content.ofScalars_scalars.symm⟩) hlimit (wrote_append hok).2⟩

end

/-- The values that can be reached from a reference are of kinds that the writer knows. -/
def Known (heap : Heap) (ref : Ref) : Prop :=
  ∀ last v, heap.Reaches ref last → heap[last]? = some v → v.WellKinded

/-- What `write` does without a problem: it counts the value and writes it, on a level that is left. -/
theorem write_eq (hv : heap[ref]? = some v) (hok : (write heap levels ref w).problem = none) :
    ∃ lower, levels = lower + 1 ∧ w.nodes < w.nodeLimit ∧ write heap levels ref w =
        writeValue (write heap lower) v w.counted := by
  have hproblem : w.problem = none := by
    by_contra hproblem
    rw [write.eq_def] at hok
    dsimp only at hok
    rw [if_pos hproblem] at hok
    exact hproblem hok
  rw [write.eq_def] at hok ⊢
  dsimp only at hok ⊢
  rw [if_neg (not_not.mpr hproblem), hv] at hok ⊢
  dsimp only at hok ⊢
  cases hfailure : v.constructionFailure with
  | some failure =>
    rw [hfailure] at hok
    cases hok
  | none =>
    rw [hfailure] at hok
    cases levels with
    | zero => cases hok
    | succ lower =>
      dsimp only at hok ⊢
      by_cases hlimit : w.nodes ≥ w.nodeLimit
      · rw [if_pos hlimit] at hok
        cases hok
      · exact ⟨lower, rfl, by omega, if_neg hlimit⟩

/-- `write` writes what a reference denotes, by induction on the levels that are left. -/
theorem writesAt_write (hformed : ∀ v ∈ heap, v.Formed heap.length) (levels : Nat) (href : ref < heap.length) (hknown : Known heap ref) :
    WritesAt heap levels (write heap levels) ref := by
  induction levels generalizing ref with
  | zero =>
    intro w hok
    obtain ⟨lower, hlower, -⟩ := write_eq (getElem?_eq_getElem href) hok
    cases hlower
  | succ levels ih =>
    intro w hok
    have hv := getElem?_eq_getElem href
    have hmem := mem_of_getElem? hv
    obtain ⟨lower, hlower, hlimit, hwritten⟩ := write_eq hv hok
    obtain rfl := Nat.succ.inj hlower
    rw [hwritten] at hok ⊢
    have hcounted := problem_of_writeValue hok
    refine ⟨hcounted, fun _ => ?_⟩
    refine writes_writeValue hv (hformed _ hmem) ?_ hlimit hok (hknown ref _ (.refl ref) hv)
    intro e he
    refine ih ((hformed _ hmem).bounded e he) fun last v hreaches hlast => ?_
    exact hknown last v (.step hv he hreaches) hlast

end Writer

/-! ## The round trip -/

/-- A text that `stringify` gives for known kinds is a JSON text within the limits, for what the
value denotes. -/
theorem isJsonWithin_of_stringify {options : Option Options} {text : Text}
    (hformed : ∀ v ∈ heap, v.Formed heap.length) (href : ref < heap.length)
    (hvalid : validOptions (options.getD {}) = true) (hknown : Writer.Known heap ref)
    (hok : stringify heap ref options = .ok text) :
    (text.byteLength : Int) ≤ (options.getD {}).maxOutputBytes ∧
      ∃ tree, heap.Denotes ref tree ∧ IsJsonWithin (options.getD {}) text.scalars tree := by
  unfold stringify at hok
  rw [if_neg (by simp [hvalid])] at hok
  simp only [validOptions, Bool.and_eq_true, decide_eq_true_eq] at hvalid
  generalize options.getD {} = limits at hok hvalid ⊢
  unfold Writer.stringify at hok
  dsimp only at hok
  split at hok
  · cases hok
  · rename_i hproblem
    obtain ⟨-, hwrites⟩ :=
      Writer.writesAt_write hformed (limits.maxDepth + 1).toNat href hknown hproblem
    obtain ⟨written, tree, hwrites⟩ := hwrites (show (0 : Int) ≤ limits.maxNodes by omega)
    obtain ⟨old, new, hold, hnew, hsnapshot, hmaximum⟩ := hwrites.wrote.output
    obtain ⟨hempty, hlimit⟩ := ByteBuffer.create_eq_some hold
    rw [hnew, Option.bind_some, ByteBuffer.text, hsnapshot, hempty, nil_append,
      Text.fromBytes_encode] at hok
    obtain rfl := Except.ok.inj hok
    have hused := new.used_le_maximum
    have hlength : (encode written).length = new.used := by
      rw [← new.length_snapshot, hsnapshot, hempty, nil_append]
    have hdepth := hwrites.depth
    have hnodes := hwrites.limit
    rw [hwrites.wrote.nodes, hwrites.wrote.nodeLimit] at hnodes
    have hnodes' : (0 : Int) + tree.nodes ≤ limits.maxNodes := hnodes
    refine ⟨?_, tree, ⟨_, hwrites.denotes⟩, ?_, hwrites.distinctKeys, by omega, by omega⟩
    · show ((encode written).length : Int) ≤ limits.maxOutputBytes
      omega
    · rw [Text.scalars_ofScalars]
      exact ⟨[], written, [], by simp, Writer.isWhitespace_nil, hwrites.isValue,
        Writer.isWhitespace_nil⟩

theorem IsChildren.values {object : Bool}
    (h : IsChildren object text cs) : ∀ c ∈ cs, ∃ text, IsValue text c.2 := by
  have hsingle : ∀ {text c}, IsChild object text c → ∃ text, IsValue text c.2 := by
    intro text c hc
    cases hc with
    | item _ hv _ => exact ⟨_, hv⟩
    | member _ _ _ _ hv _ => exact ⟨_, hv⟩
  induction h with
  | last hc => simpa using hsingle hc
  | more hc _ ih => exact forall_mem_cons.mpr ⟨hsingle hc, ih⟩

/-- A value that shows what a text of the grammar denotes is of a known kind, and so are its
children. -/
theorem wellKinded_of_isValue {c : Ref → Tree → Prop} (hformed : v.Formed size) (hv : IsValue text tree)
    (hshows : v.Shows c tree) :
    v.WellKinded ∧ ∀ e ∈ v.entries, ∃ text tree, IsValue text tree ∧ c e.value tree := by
  have hleaf : ∀ {kind}, v.tag = kind → kind ≠ "array" → kind ≠ "object" →
      ∀ e ∈ v.entries, ∃ text tree, IsValue text tree ∧ c e.value tree := by
    intro kind htag harray hobject e he
    rw [hformed.plain (htag ▸ harray) (htag ▸ hobject)] at he
    cases he
  rcases hv.split with htoken | ⟨chars, rfl, hstring⟩ | ⟨object, body, cs, -, rfl, hbody⟩
  · cases htoken with
    | null => exact ⟨.inl hshows, hleaf hshows (by decide) (by decide)⟩
    | true =>
      exact ⟨.inr (.inr (.inr (.inr (.inl ⟨hshows.1, .inl hshows.2⟩)))),
        hleaf hshows.1 (by decide) (by decide)⟩
    | false =>
      exact ⟨.inr (.inr (.inr (.inr (.inl ⟨hshows.1, .inr hshows.2⟩)))),
        hleaf hshows.1 (by decide) (by decide)⟩
    | number hnumber =>
      refine ⟨.inr (.inr (.inr (.inr (.inr ⟨hshows.1, ?_⟩)))), hleaf hshows.1 (by decide) (by decide)⟩
      rw [hshows.2, validNumber_ofScalars_iff]
      exact hnumber
  · exact ⟨.inr (.inl hshows.1), hleaf hshows.1 (by decide) (by decide)⟩
  · have hvalues : ∀ c ∈ cs, ∃ text, IsValue text c.2 := by
      rcases hbody with ⟨rfl, -⟩ | hchildren
      · simp
      · exact hchildren.values
    have hentries : ∀ e ∈ v.entries, ∃ part ∈ cs, c e.value part.2 := by
      intro e he
      cases object with
      | false | true =>
        obtain ⟨_, hitem, -, hdenotes⟩ := ExceptFold.exists_right_of_forall₂ hshows.2 he
        obtain ⟨part, hpart, rfl⟩ := mem_map.mp hitem
        exact ⟨part, hpart, hdenotes⟩
    refine ⟨?_, fun e he => ?_⟩
    · cases object with
      | false => exact .inr (.inr (.inl hshows.1))
      | true => exact .inr (.inr (.inr (.inl hshows.1)))
    · obtain ⟨part, hpart, hdenotes⟩ := hentries e he
      obtain ⟨text, htext⟩ := hvalues part hpart
      exact ⟨text, part.2, htext, hdenotes⟩

/-- A reference that denotes what a text of the grammar does reaches known kinds only. -/
theorem known_of_isValue (hformed : ∀ v ∈ heap, v.Formed heap.length)
    {levels : Nat} (hv : IsValue text tree)
    (hdenotes : heap.DenotesFrom 0 levels ref tree) : Writer.Known heap ref := by
  intro last v hreaches hlast
  have hkinded : ∀ {levels ref v text tree}, IsValue text tree →
      heap.DenotesFrom 0 levels ref tree → heap[ref]? = some v → v.WellKinded ∧
        ∀ e ∈ v.entries, ∃ levels text tree, IsValue text tree ∧
          heap.DenotesFrom 0 levels e.value tree := by
    intro levels ref v text tree hv hdenotes hat
    cases levels with
    | zero => exact hdenotes.elim
    | succ levels =>
      obtain ⟨-, found, hfound, hshows⟩ := hdenotes
      obtain rfl := Option.some.inj (hfound.symm.trans hat)
      exact (wellKinded_of_isValue (hformed _ (mem_of_getElem? hat)) hv hshows).imp_right
        fun hentries e he => ⟨levels, hentries e he⟩
  induction hreaches generalizing levels text tree with
  | refl ref => exact (hkinded hv hdenotes hlast).1
  | step hfirst he _ ih =>
    obtain ⟨_, _, _, hvalue', hc⟩ := (hkinded hv hdenotes hfirst).2 _ he
    exact ih hvalue' hc hlast

/-- `parse` gives back what `stringify` has written exactly when the writer knows the kinds of all
values that it reaches, and the contents of booleans and numbers are what the factories give them. -/
theorem parse_stringify_iff (heap : Heap) (hbuilt : Built heap) (ref : Ref) (href : ref < heap.length)
    (options : Option Options) (hvalid : validOptions (options.getD {}) = true)
    (hlimits : (options.getD {}).maxOutputBytes ≤ (options.getD {}).maxInputBytes) (text : Text)
    (hok : stringify heap ref options = .ok text) :
    (∃ ref' tree, (parse heap text options).1 = .ok ref' ∧ heap.Denotes ref tree ∧
      (parse heap text options).2.Denotes ref' tree) ↔
    ∀ last v, heap.Reaches ref last → heap[last]? = some v → v.WellKinded := by
  have hformed := hbuilt.formed
  constructor
  · rintro ⟨ref', tree, hparse, ⟨levels, hdenotes⟩, hdenotes'⟩
    have hlength : (text.byteLength : Int) ≤ (options.getD {}).maxInputBytes := by
      by_contra hlong
      unfold parse at hparse
      rw [if_neg (by simp [hvalid]), if_pos (by omega)] at hparse
      cases hparse
    rw [parse_eq_start heap hvalid hlength] at hparse hdenotes'
    obtain ⟨tree', htree'⟩ := isJsonWithin_of_parse hvalid hlength hparse
    obtain ⟨ref'', heap', hresult, -, hdenotes''⟩ := parse_of_isJsonWithin heap hvalid hlength htree'
    rw [hresult] at hparse hdenotes'
    obtain rfl := Except.ok.inj hparse
    obtain rfl := hdenotes'.unique hdenotes''
    obtain ⟨_, body, _, _, _, hbody, _⟩ := htree'.isJsonText
    exact known_of_isValue hformed hbody hdenotes
  · intro hknown
    obtain ⟨hlength, tree, hdenotes, hwithin⟩ :=
      isJsonWithin_of_stringify hformed href hvalid hknown hok
    have hinput : (text.byteLength : Int) ≤ (options.getD {}).maxInputBytes := by omega
    obtain ⟨ref', heap', hresult, -, hdenotes'⟩ := parse_of_isJsonWithin heap hvalid hinput hwithin
    rw [parse_eq_start heap hvalid hinput, hresult]
    exact ⟨ref', tree, rfl, hdenotes, hdenotes'⟩

/-- An array with a number and a string in it. -/
def sampleHeap : Heap :=
  (Heap.add (Heap.add [.init "number" "-1.5", .init "string" "a\"b", .array] 2 0).2 2 1).2

theorem parse_stringify_sampleHeap :
    ∃ text, stringify sampleHeap 2 = .ok text ∧ ∃ ref' tree, (parse sampleHeap text).1 = .ok ref' ∧
      sampleHeap.Denotes 2 tree ∧ (parse sampleHeap text).2.Denotes ref' tree := by
  have hbuilt : Built sampleHeap :=
    .add (.add (.init _ _ (.init _ _ (.init _ _ .empty))) (by decide) (by decide)) (by decide) (by decide)
  have hsome : (stringify sampleHeap 2).toOption.isSome = true := by decide +kernel
  have hkinds : ∀ v ∈ sampleHeap, v.WellKinded := by
    unfold Value.WellKinded
    decide +kernel
  cases hok : stringify sampleHeap 2 with
  | error failure =>
    rw [hok] at hsome
    cases hsome
  | ok text =>
    refine ⟨text, rfl, ?_⟩
    exact (parse_stringify_iff sampleHeap hbuilt 2 (by decide) none (by decide) (by decide) text hok).mpr
      fun last v _ hlast => hkinds v (mem_of_getElem? hlast)

/-- A value of a kind that the writer passes over, as `new json::Value("invalid")` makes it. -/
def invalidHeap : Heap := (Heap.allocate [] (.init "invalid")).2

theorem parse_stringify_invalid :
    Built invalidHeap ∧ validOptions {} = true ∧ stringify invalidHeap 0 = .ok "" ∧
      ∀ ref, (parse invalidHeap "").1 ≠ .ok ref := by
  have hstringify : (stringify invalidHeap 0).toOption = some "" := by decide +kernel
  have hparse : (parse invalidHeap "").1.toOption = none := by decide +kernel
  refine ⟨.init _ _ .empty, by decide, ?_, fun ref hok => ?_⟩
  · cases hok : stringify invalidHeap 0 with
    | error failure =>
      rw [hok] at hstringify
      cases hstringify
    | ok text =>
      rw [hok] at hstringify
      exact congrArg Except.ok (Option.some.inj hstringify)
  · rw [hok] at hparse
    cases hparse

end Neri.Stdlib.Json
