import Neri.Lib.PrefixCode
import Neri.Stdlib.Changes
import Neri.Stdlib.Proofs.ByteBufferProofs

/-!
# Snapshots are faithful

A walk that succeeds writes one record for each entry, in the order of the paths when a slash comes
before every other byte. So the sequence of the records depends on the set of the records only, and
not on the order of the listings. A record can be read off its bytes, since each part of it comes
behind its length.
-/

namespace Neri.Stdlib.Changes

open Neri.Stdlib List Option

variable {name relative : Text} {v : Nat} {out final : ByteBuffer} {scanner : Scanner}

/-! ## The order of names and of paths -/

/-- The bytes of a name as numbers, in whose lexicographic order names are sorted. -/
def nameKey (name : Text) : List Nat := name.bytes.map UInt8.toNat

theorem compareBytes_neg_iff (left right : List UInt8) :
    compareBytes left right < 0 ↔ left.map UInt8.toNat < right.map UInt8.toNat := by
  induction left generalizing right with
  | nil => cases right <;> simp [compareBytes]
  | cons a left ih =>
    cases right with
    | nil => simp [compareBytes]
    | cons b right =>
      rw [compareBytes, map_cons, map_cons, cons_lt_cons_iff]
      split_ifs with hlt hgt
      · simp [hlt]
      · omega
      · rw [ih]
        have heq : a.toNat = b.toNat := by omega
        simp [heq]

theorem comesBefore_iff (v other : DirectoryEntry) :
    comesBefore v other = true ↔ nameKey v.name < nameKey other.name := by
  rw [comesBefore, decide_eq_true_eq, compareText, compareBytes_neg_iff]
  rfl

theorem isOrder_comesBefore : InsertionSort.IsOrder comesBefore where
  trans a b c hba hcb := by
    rw [← Bool.not_eq_true, comesBefore_iff, not_lt] at hba hcb ⊢
    exact hba.trans hcb
  asymm a b hab := by
    rw [← Bool.not_eq_true, comesBefore_iff, not_lt]
    exact ((comesBefore_iff a b).mp hab).le

/-- A byte of a path, with the slash before all others. -/
def rank (byte : UInt8) : Nat := if byte = 47 then 0 else byte.toNat + 1

def pathKey (bytes : List UInt8) : List Nat := bytes.map rank

/-- What can follow a name in a path. -/
def EndsName (tail : List UInt8) : Prop := tail = [] ∨ ∃ rest, tail = 47 :: rest

/-- Names decide the order of the paths that they stand in. -/
theorem pathKey_lt {left right : List UInt8} (hleft : (47 : UInt8) ∉ left) (hright : (47 : UInt8) ∉ right)
    (h : left.map UInt8.toNat < right.map UInt8.toNat) {tail tail' : List UInt8} (htail : EndsName tail) :
    pathKey (left ++ tail) < pathKey (right ++ tail') := by
  induction left generalizing right with
  | nil =>
    cases right with
    | nil => exact absurd h (lt_irrefl _)
    | cons b right =>
      rw [mem_cons, not_or] at hright
      have hb : rank b = b.toNat + 1 := if_neg (Ne.symm hright.1)
      rcases htail with rfl | ⟨rest, rfl⟩
      · simp [pathKey]
      · have hslash : rank 47 = 0 := rfl
        simp [pathKey, cons_lt_cons_iff, hb, hslash]
  | cons a left ih =>
    cases right with
    | nil => exact absurd h (by simp)
    | cons b right =>
      rw [mem_cons, not_or] at hleft hright
      have ha : rank a = a.toNat + 1 := if_neg (Ne.symm hleft.1)
      have hb : rank b = b.toNat + 1 := if_neg (Ne.symm hright.1)
      rw [map_cons, map_cons, cons_lt_cons_iff] at h
      rw [pathKey, pathKey, cons_append, cons_append, map_cons, map_cons, cons_lt_cons_iff, ha, hb]
      rcases h with hlt | ⟨heq, hrest⟩
      · exact .inl (by omega)
      · exact .inr ⟨by omega, ih hleft.2 hright.2 hrest⟩

theorem pathKey_append (bytes more : List UInt8) : pathKey (bytes ++ more) = pathKey bytes ++ pathKey more :=
  map_append

theorem pathKey_append_lt (bytes : List UInt8) {left right : List UInt8} (h : pathKey left < pathKey right) :
    pathKey (bytes ++ left) < pathKey (bytes ++ right) := by
  rw [pathKey_append, pathKey_append]
  exact append_left_lt h

theorem pathKey_lt_append (bytes : List UInt8) {more : List UInt8} (h : more ≠ []) :
    pathKey bytes < pathKey (bytes ++ more) := by
  obtain ⟨byte, more, rfl⟩ := exists_cons_of_ne_nil h
  have hlt := pathKey_append_lt bytes (show pathKey [] < pathKey (byte :: more) by simp [pathKey])
  rwa [append_nil] at hlt

/-! ## Paths -/

/-- What comes before the names of the entries in a path. -/
def base (path : Text) : List UInt8 := if path.bytes = [] then [] else path.bytes ++ [47]

theorem bytes_childPath (path name : Text) :
    (ScanState.childPath path name).bytes = base path ++ name.bytes := by
  unfold ScanState.childPath base
  split
  · simp
  · rfl

theorem base_childPath (path : Text) (hname : name.bytes ≠ []) :
    base (ScanState.childPath path name) = base path ++ name.bytes ++ [47] := by
  rw [base, bytes_childPath, if_neg]
  simp [hname]

variable {tree : FileTree} {path : Text} {e : DirectoryEntry} {r : Record}

def EntryRecorded (tree : FileTree) (path : Text) (entry : DirectoryEntry) (record : Record) : Prop :=
  let child := ScanState.childPath path entry.name
  entry.kind = .file ∧ record = ⟨child, .file, tree.content child⟩ ∨
    entry.kind = .directory ∧ (record = ⟨child, .directory, []⟩ ∨ tree.Recorded child record)

theorem recorded_iff : tree.Recorded path r ↔
    ∃ e ∈ tree.entries path, EntryRecorded tree path e r := by
  constructor
  · intro h
    cases h with
    | file he => exact ⟨_, he, .inl ⟨rfl, rfl⟩⟩
    | directory he => exact ⟨_, he, .inr ⟨rfl, .inl rfl⟩⟩
    | deeper he hrecorded => exact ⟨_, he, .inr ⟨rfl, .inr hrecorded⟩⟩
  · rintro ⟨⟨name, kind⟩, he, ⟨hkind, rfl⟩ | ⟨hkind, rfl | hrecorded⟩⟩
    · obtain rfl : kind = .file := hkind
      exact .file he
    · obtain rfl : kind = .directory := hkind
      exact .directory he
    · obtain rfl : kind = .directory := hkind
      exact .deeper he hrecorded

theorem recorded_path (h : tree.Recorded path r) : ∃ rest, r.path.bytes = base path ++ rest := by
  induction h with
  | file he => exact ⟨_, bytes_childPath ..⟩
  | directory he => exact ⟨_, bytes_childPath ..⟩
  | deeper he _ ih =>
    obtain ⟨rest, hpath⟩ := ih
    rw [base_childPath _ (tree.names _ _ he).1, append_assoc, append_assoc] at hpath
    exact ⟨_, hpath⟩

theorem entryRecorded_path (hname : e.name.bytes ≠ []) (h : EntryRecorded tree path e r) :
    ∃ tail, EndsName tail ∧ r.path.bytes = base path ++ e.name.bytes ++ tail := by
  rcases h with ⟨-, rfl⟩ | ⟨-, rfl | hrecorded⟩
  · exact ⟨[], .inl rfl, by rw [bytes_childPath, append_nil]⟩
  · exact ⟨[], .inl rfl, by rw [bytes_childPath, append_nil]⟩
  · obtain ⟨rest, hpath⟩ := recorded_path hrecorded
    rw [base_childPath path hname, append_assoc] at hpath
    exact ⟨47 :: rest, .inr ⟨_, rfl⟩, hpath⟩

/-- The path of a record comes before that of another one. -/
def Precedes (r record' : Record) : Prop :=
  pathKey r.path.bytes < pathKey record'.path.bytes

theorem pathKey_lt_of_entries {entry' : DirectoryEntry} {record' : Record}
    (he : e ∈ tree.entries path) (hentry' : entry' ∈ tree.entries path)
    (hlt : nameKey e.name < nameKey entry'.name) (h : EntryRecorded tree path e r)
    (h' : EntryRecorded tree path entry' record') : Precedes r record' := by
  obtain ⟨hname, hslash⟩ := tree.names path e he
  obtain ⟨hname', hslash'⟩ := tree.names path entry' hentry'
  obtain ⟨tail, htail, hpath⟩ := entryRecorded_path hname h
  obtain ⟨tail', -, hpath'⟩ := entryRecorded_path hname' h'
  rw [Precedes, hpath, hpath', append_assoc, append_assoc]
  exact pathKey_append_lt (base path) (pathKey_lt hslash hslash' hlt htail)

/-! ## Records -/

/-- The four bytes of a number. -/
def u32 (value : Nat) : List UInt8 :=
  [UInt8.ofNat (value % 256), UInt8.ofNat (value / 256 % 256), UInt8.ofNat (value / 65536 % 256),
    UInt8.ofNat (value / 16777216)]

theorem u32_injective {value' : Nat} (hvalue : v < 4294967296) (hvalue' : value' < 4294967296)
    (h : u32 v = u32 value') : v = value' := by
  have hmap := congrArg (map UInt8.toNat) h
  simp only [u32, map_cons, map_nil, UInt8.toNat_ofNat', cons.injEq, and_true] at hmap
  omega

def digestOf (digest : List UInt8 → List UInt8) (record : Record) : List UInt8 :=
  if record.kind = .file then digest record.content else []

def encode (digest : List UInt8 → List UInt8) (record : Record) : List UInt8 :=
  (if record.kind = .file then 1 else 2) :: (u32 record.path.byteLength ++ (record.path.bytes ++
      (u32 (digestOf digest record).length ++ digestOf digest record)))

/-- The lengths of a record fit in four bytes, and it is of a file or a directory. A directory has no
content. -/
structure Fits (digest : List UInt8 → List UInt8) (record : Record) : Prop where
  path : record.path.byteLength < 4294967296
  digest : (digestOf digest record).length < 4294967296
  kind : record.kind = .file ∨ record.kind = .directory ∧ record.content = []

variable {digest : List UInt8 → List UInt8}

/-- A record can be read off its bytes, up to its content, of which the digest is read. -/
theorem encode_append_inj {record' : Record}
    (hfits : Fits digest r) (hfits' : Fits digest record') {x y : List UInt8}
    (h : encode digest r ++ x = encode digest record' ++ y) :
    r.path = record'.path ∧ r.kind = record'.kind ∧
      digestOf digest r = digestOf digest record' ∧ x = y := by
  unfold encode at h
  rw [cons_append, cons_append, cons.injEq] at h
  simp only [append_assoc] at h
  obtain ⟨htag, h⟩ := h
  obtain ⟨hlength, h⟩ := append_inj h rfl
  have hbytes := u32_injective hfits.path hfits'.path hlength
  obtain ⟨hpath, h⟩ := append_inj h hbytes
  obtain ⟨hlength', h⟩ := append_inj h rfl
  obtain ⟨hdigest, h⟩ := append_inj h (u32_injective hfits.digest hfits'.digest hlength')
  refine ⟨Text.ext hpath, ?_, hdigest, h⟩
  rcases hfits.kind with hkind | ⟨hkind, -⟩ <;> rcases hfits'.kind with hkind' | ⟨hkind', -⟩ <;>
    simp [hkind, hkind'] at htag ⊢

/-- Appends that were all made got their values. -/
theorem appendAll_eq {chunks : List (Option (List UInt8))}
    (h : appendAll chunks out = some (true, final)) : (∀ chunk ∈ chunks, chunk.isSome) ∧
      final.snapshot = out.snapshot ++ chunks.flatMap (·.getD []) := by
  induction chunks generalizing out with
  | nil =>
    cases h
    simp
  | cons chunk chunks ih =>
    obtain ⟨values, rfl, happend⟩ := bind_eq_some_iff.mp h
    cases hstore : out.store values with
    | none => simp [tryAppend, hstore] at happend
    | some stored =>
      simp only [tryAppend, hstore, if_true] at happend
      obtain ⟨hall, hsnapshot⟩ := ih happend
      rw [(ByteBuffer.store_eq_some hstore).1, append_assoc] at hsnapshot
      exact ⟨forall_mem_cons.mpr ⟨rfl, hall⟩, hsnapshot⟩

theorem u32Bytes_eq (h : ∀ chunk ∈ u32Bytes v, chunk.isSome) :
    v < 4294967296 ∧ (u32Bytes v).flatMap (·.getD []) = u32 v := by
  have hlast := h _ (mem_of_getElem? (i := 3) rfl)
  rw [isSome_map, toByte, isSome_ite] at hlast
  have hlow : v - v / 256 * 256 = v % 256 := by omega
  have hmiddle : v / 256 - v / 65536 * 256 = v / 256 % 256 := by omega
  have hhigh : v / 65536 - v / 16777216 * 256 = v / 65536 % 256 := by omega
  refine ⟨by omega, ?_⟩
  simp [u32Bytes, u32, toByte, hlow, hmiddle, hhigh, hlast, Nat.mod_lt]

theorem appendRecord_eq
    (hcontent : r.kind = .directory → r.content = [])
    (h : appendRecord out r.kind r.path (digestOf digest r) = some (true, final)) :
    Fits digest r ∧ final.snapshot = out.snapshot ++ encode digest r := by
  unfold appendRecord at h
  split at h
  · cases h
  · rename_i hkind
    have hkind : r.kind = .file ∨ r.kind = .directory := by
      by_contra hneither
      rw [not_or] at hneither
      exact hkind (by simp [hneither.1, hneither.2])
    obtain ⟨hall, hsnapshot⟩ := appendAll_eq h
    simp only [forall_mem_append] at hall
    obtain ⟨⟨⟨⟨-, hpath⟩, -⟩, hdigest⟩, -⟩ := hall
    obtain ⟨hpathFits, hpath⟩ := u32Bytes_eq hpath
    obtain ⟨hdigestFits, hdigest⟩ := u32Bytes_eq hdigest
    refine ⟨⟨hpathFits, hdigestFits,
      hkind.imp_right fun hdirectory => ⟨hdirectory, hcontent hdirectory⟩⟩, ?_⟩
    rw [hsnapshot, encode]
    simp only [flatMap_append, hpath, hdigest]
    rcases hkind with hkind | hkind <;> simp [hkind, toByte]

/-! ## The walk -/

/-- A part of the walk has written records, in the order of their paths. -/
structure Wrote (digest : List UInt8 → List UInt8) (output final : ByteBuffer)
    (records : List Record) : Prop where
  snapshot : final.snapshot = output.snapshot ++ records.flatMap (encode digest)
  fits : ∀ r ∈ records, Fits digest r
  ordered : records.Pairwise Precedes

theorem Wrote.append {middle : ByteBuffer}
    {records records' : List Record} (h : Wrote digest out middle records)
    (h' : Wrote digest middle final records')
    (hacross : ∀ r ∈ records, ∀ record' ∈ records', Precedes r record') :
    Wrote digest out final (records ++ records') where
  snapshot := by rw [h'.snapshot, h.snapshot, append_assoc, flatMap_append]
  fits := by
    intro r hr
    rcases mem_append.mp hr with hin | hin
    · exact h.fits r hin
    · exact h'.fits r hin
  ordered := pairwise_append.mpr ⟨h.ordered, h'.ordered, hacross⟩

namespace ScanState

variable {digest : List UInt8 → List UInt8} {state next : ScanState} {host : Host}

theorem wrote_record (hcontent : r.kind = .directory → r.content = [])
    (h : state.record r.kind r.path (digestOf digest r) = some next)
    (hfail : next.failure = none) : Wrote digest state.encoded next.encoded [r] := by
  unfold ScanState.record at h
  obtain ⟨⟨appended, encoded⟩, happend, rfl⟩ := map_eq_some_iff.mp h
  cases appended with
  | false => cases hfail
  | true =>
    obtain ⟨hfits, hsnapshot⟩ := appendRecord_eq hcontent happend
    refine ⟨?_, by simpa using hfits, pairwise_singleton _ _⟩
    rw [flatMap_singleton]
    exact hsnapshot

/-- An answer of the host without failures. -/
theorem of_combinedFailure {primary closed : Option FileFailure} {detail : Text} {transferred : Int}
    {rest : Option ScanState} (h : (if primary.isSome || closed.isSome then
      some { state with failure := combinedFailure primary closed detail transferred }
      else rest) = some next) (hfail : next.failure = none) :
    primary = none ∧ closed = none ∧ rest = some next := by
  cases primary <;> cases closed
  · exact ⟨rfl, rfl, h⟩
  all_goals
    cases h
    cases hfail

/-- A step that is skipped after a failure. -/
theorem of_failure {rest : Option ScanState}
    (h : (if state.failure.isSome then some state else rest) = some next)
    (hfail : next.failure = none) : state.failure = none ∧ rest = some next := by
  cases hstate : state.failure with
  | none =>
    rw [hstate] at h
    exact ⟨rfl, h⟩
  | some failure =>
    rw [hstate] at h
    cases h
    rw [hstate] at hfail
    cases hfail

theorem wrote_visitFile {child : Text} (hserves : host.Serves tree digest)
    (h : state.visitFile host child = some next) (hfail : next.failure = none) :
    Wrote digest state.encoded next.encoded [⟨child, .file, tree.content child⟩] := by
  obtain ⟨hread, hclosed, h⟩ := of_combinedFailure h hfail
  split at h
  · cases h
    cases hfail
  rename_i bytes hbytes
  have hcontent := hserves.readBytes child _ bytes hread hclosed hbytes
  split at h
  · cases h
    cases hfail
  split at h
  · rename_i hashed hhash
    rw [hserves.sha256Outcome bytes hashed hhash, hcontent] at h
    have hwrote : Wrote digest _ next.encoded [⟨child, .file, tree.content child⟩] :=
      wrote_record (fun hkind => by cases hkind) h hfail
    exact hwrote
  · cases h
    cases hfail

/-- A walk below a path has written the records of what is below it. -/
def Walks (digest : List UInt8 → List UInt8) (tree : FileTree)
    (visit : Text → ScanState → Option ScanState) : Prop :=
  ∀ path state next, visit path state = some next → next.failure = none → state.failure = none ∧
      ∃ records, Wrote digest state.encoded next.encoded records ∧
        ∀ r, r ∈ records ↔ tree.Recorded path r

variable {visit : Text → ScanState → Option ScanState}

theorem wrote_visitEntry (hserves : host.Serves tree digest) (hwalks : Walks digest tree visit)
    (hname : e.name.bytes ≠ []) (h : state.visitEntry host visit path e = some next)
    (hfail : next.failure = none) : ∃ records, Wrote digest state.encoded next.encoded records ∧
      ∀ r, r ∈ records ↔ EntryRecorded tree path e r := by
  unfold visitEntry at h
  split at h
  · cases h
    cases hfail
  · cases hkind : e.kind with
    | directory =>
      rw [hkind] at h
      obtain ⟨middle, hr, h⟩ := bind_eq_some_iff.mp h
      obtain ⟨hmiddle, h⟩ := of_failure h hfail
      obtain ⟨-, records, hwrote, hrecords⟩ := hwalks _ _ _ h hfail
      have hself : Wrote digest _ middle.encoded [⟨childPath path e.name, .directory, []⟩] :=
        wrote_record (fun _ => rfl) hr hmiddle
      refine ⟨⟨childPath path e.name, .directory, []⟩ :: records, ?_, fun r => ?_⟩
      · refine hself.append hwrote ?_
        intro r hr record' hrecord'
        obtain rfl := mem_singleton.mp hr
        -- what is below a directory has a longer path
        obtain ⟨rest, hpath⟩ := recorded_path ((hrecords record').mp hrecord')
        rw [base_childPath path hname, append_assoc] at hpath
        rw [Precedes, hpath, bytes_childPath]
        exact pathKey_lt_append _ (by simp)
      · rw [mem_cons, hrecords, EntryRecorded, hkind]
        simp
    | file =>
      rw [hkind] at h
      have hwrote := wrote_visitFile hserves h hfail
      refine ⟨_, hwrote, fun r => ?_⟩
      rw [EntryRecorded, hkind]
      simp
    | _ =>
      rw [hkind] at h
      cases h
      cases hfail

/-- The loop over sorted entries writes the records of the entries one after the other. -/
theorem wrote_visitEntries (hserves : host.Serves tree digest) (hwalks : Walks digest tree visit)
    {entries : List DirectoryEntry} (hentries : ∀ e ∈ entries, e ∈ tree.entries path)
    (hsorted : entries.Pairwise fun e entry' => nameKey e.name < nameKey entry'.name)
    (h : visitEntries host visit path entries state = some next) (hfail : next.failure = none) :
    ∃ records, Wrote digest state.encoded next.encoded records ∧
      ∀ r, r ∈ records ↔ ∃ e ∈ entries, EntryRecorded tree path e r := by
  induction entries generalizing state with
  | nil =>
    cases h
    exact ⟨[], ⟨by simp, by simp, .nil⟩, by simp⟩
  | cons e entries ih =>
    obtain ⟨middle, he, h⟩ := bind_eq_some_iff.mp h
    obtain ⟨hin, hrest⟩ := forall_mem_cons.mp hentries
    obtain ⟨hfirst, hsorted⟩ := pairwise_cons.mp hsorted
    obtain ⟨hmiddle, h⟩ := of_failure h hfail
    obtain ⟨records, hwrote, hrecords⟩ :=
      wrote_visitEntry hserves hwalks (tree.names path e hin).1 he hmiddle
    obtain ⟨records', hwrote', hrecords'⟩ := ih hrest hsorted h
    refine ⟨records ++ records', hwrote.append hwrote' ?_, fun r => ?_⟩
    · intro r hr record' hrecord'
      obtain ⟨entry', hentry', hrecorded'⟩ := (hrecords' record').mp hrecord'
      exact pathKey_lt_of_entries hin (hrest entry' hentry') (hfirst entry' hentry')
        ((hrecords r).mp hr) hrecorded'
    · rw [mem_append, hrecords, hrecords', exists_mem_cons_iff]

theorem sortEntries_spec {input : List DirectoryEntry} (h : input.Perm (tree.entries path)) :
    (∀ e, e ∈ sortEntries input ↔ e ∈ tree.entries path) ∧
      (sortEntries input).Pairwise fun e entry' => nameKey e.name < nameKey entry'.name := by
  obtain ⟨hperm, hsorted⟩ := InsertionSort.sort_spec isOrder_comesBefore input
  have hall := hperm.trans h
  have hnodup : ((sortEntries input).map (·.name)).Nodup := (hall.map _).nodup_iff.mpr (tree.nodup path)
  refine ⟨fun e => hall.mem_iff, ?_⟩
  have hboth := hsorted.and (pairwise_map.mp hnodup)
  refine hboth.imp fun {e entry'} hentries => ?_
  have hle : ¬ nameKey entry'.name < nameKey e.name := by
    rw [← comesBefore_iff, Bool.not_eq_true]
    exact hentries.1
  exact (not_lt.mp hle).lt_of_ne fun heq => hentries.2 (Text.ext (Utf8.map_toNat_injective heq))

/-- The walk, by induction on the levels that are left. -/
theorem walks_visit (hserves : host.Serves tree digest) (levels : Nat) :
    Walks digest tree (ScanState.visit host levels) := by
  induction levels with
  | zero =>
    intro path state next h hfail
    obtain ⟨-, h⟩ := of_failure h hfail
    cases h
    cases hfail
  | succ levels ih =>
    intro path state next h hfail
    obtain ⟨hstate, h⟩ := of_failure h hfail
    obtain ⟨hlisted, hclosed, h⟩ := of_combinedFailure h hfail
    obtain ⟨hmem, hsorted⟩ := sortEntries_spec (hserves.list path _ hlisted hclosed)
    obtain ⟨records, hwrote, hrecords⟩ :=
      wrote_visitEntries hserves ih (fun e he => (hmem e).mp he) hsorted h hfail
    refine ⟨hstate, records, hwrote, fun r => ?_⟩
    rw [hrecords, recorded_iff]
    simp only [hmem]

end ScanState

/-! ## Snapshots -/

/-- Sequences that are ordered by their paths and have the same records are equal. -/
theorem eq_of_ordered {records records' : List Record}
    (h : records.Pairwise Precedes) (h' : records'.Pairwise Precedes)
    (hmem : ∀ r, r ∈ records ↔ r ∈ records') : records = records' := by
  have hnodup : ∀ {records : List Record}, records.Pairwise Precedes → records.Nodup := by
    intro records hordered
    refine hordered.imp ?_
    rintro r _ hlt rfl
    exact lt_irrefl _ hlt
  refine List.Perm.eq_of_pairwise (fun a b _ _ hlt hlt' => ?_) h h'
    ((perm_ext_iff_of_nodup (hnodup h) (hnodup h')).mpr hmem)
  exact absurd (hlt.trans hlt') (lt_irrefl _)

variable {host : Host} {encoded : List UInt8}

/-- A snapshot is the sequence of the records of what is below the path. -/
theorem Scanner.snapshot_eq (hserves : host.Serves tree digest)
    (h : scanner.snapshot host relative = some (.ok encoded)) :
    ∃ records : List Record, encoded = records.flatMap (encode digest) ∧
      (∀ r ∈ records, Fits digest r) ∧ records.Pairwise Precedes ∧
      ∀ r, r ∈ records ↔ tree.Recorded relative r := by
  unfold Scanner.snapshot at h
  split at h
  · cases h
  · cases hcreate : ByteBuffer.create 134217728 with
    | none =>
      rw [hcreate] at h
      cases h
    | some buffer =>
      rw [hcreate] at h
      obtain ⟨state, hvisit, hstate⟩ := map_eq_some_iff.mp h
      cases hfail : state.failure with
      | some failure =>
        rw [hfail] at hstate
        cases hstate
      | none =>
        rw [hfail] at hstate
        obtain rfl := Except.ok.inj hstate
        obtain ⟨-, records, hwrote, hrecords⟩ :=
          ScanState.walks_visit hserves _ relative _ state hvisit hfail
        refine ⟨records, ?_, hwrote.fits, hwrote.ordered, hrecords⟩
        rw [hwrote.snapshot, (ByteBuffer.create_eq_some hcreate).1, nil_append]

theorem Scanner.snapshot_eq_iff {scanner' : Scanner} {host' : Host} {tree tree' : FileTree}
    {relative' : Text} {encoded' : List UInt8}
    (hserves : host.Serves tree digest) (hserves' : host'.Serves tree' digest)
    (hcollision : NoCollision digest tree tree' relative relative')
    (h : scanner.snapshot host relative = some (.ok encoded))
    (h' : scanner'.snapshot host' relative' = some (.ok encoded')) :
    encoded = encoded' ↔ ∀ r, tree.Recorded relative r ↔ tree'.Recorded relative' r := by
  obtain ⟨records, rfl, hfits, hordered, hrecords⟩ := Scanner.snapshot_eq hserves h
  obtain ⟨records', rfl, hfits', hordered', hrecords'⟩ := Scanner.snapshot_eq hserves' h'
  constructor
  · intro heq
    have hsame : records = records' := by
      refine PrefixCode.eq_of_flatMap_eq (fun r => by simp [encode]) ?_ heq
      intro r hr record' hrecord' x y hbytes
      obtain ⟨hpath, hkind, hdigest, hrest⟩ :=
        encode_append_inj (hfits r hr) (hfits' record' hrecord') hbytes
      have hcontent : r.content = record'.content := by
        rcases (hfits r hr).kind with hfile | ⟨hdirectory, hempty⟩
        · rw [digestOf, digestOf, ← hkind, if_pos hfile, if_pos hfile] at hdigest
          exact hcollision r record' ((hrecords r).mp hr) ((hrecords' record').mp hrecord')
            hdigest
        · rcases (hfits' record' hrecord').kind with hfile | ⟨-, hempty'⟩
          · rw [hkind, hfile] at hdirectory
            cases hdirectory
          · rw [hempty, hempty']
      refine ⟨?_, hrest⟩
      obtain ⟨path, kind, content⟩ := r
      dsimp only at hpath hkind hcontent
      rw [hpath, hkind, hcontent]
    intro r
    rw [← hrecords, ← hrecords', hsame]
  · intro hsame
    rw [eq_of_ordered hordered hordered' fun r => by rw [hrecords, hrecords', hsame]]

/-! ## Polls -/

namespace Scanner

/-- A poll whose snapshot and hash succeed. -/
theorem poll_of_hash {cur : List UInt8}
    (hsnapshot : scanner.snapshot host relative = some (.ok encoded))
    (hhash : host.sha256Outcome encoded = .ok cur) :
    ∃ res : PollResult, scanner.poll host relative =
        some (res, { scanner with baseline := some cur }) ∧ res.failure = none ∧
      res.digest = some cur ∧
      (res.changed = true ↔ ∃ previous, scanner.baseline = some previous ∧ cur ≠ previous) := by
  unfold poll
  rw [hsnapshot, map_some]
  dsimp only
  rw [hhash]
  refine ⟨_, rfl, rfl, rfl, ?_⟩
  cases scanner.baseline with
  | none => simp
  | some previous => simp [ne_comm]

/-- What a poll does: it fails and leaves the scanner as it was, or it hashes the snapshot. -/
theorem poll_cases {next : Scanner} {res : PollResult}
    (h : scanner.poll host relative = some (res, next)) :
    (∃ failure, res.failure = some failure ∧ res.changed = false ∧ next = scanner) ∨
      ∃ encoded cur, scanner.snapshot host relative = some (.ok encoded) ∧
        host.sha256Outcome encoded = .ok cur ∧ res.failure = none ∧
        res.digest = some cur ∧ next = { scanner with baseline := some cur } ∧
        (res.changed = true ↔ ∃ previous, scanner.baseline = some previous ∧ cur ≠ previous) := by
  obtain ⟨outcome, hsnapshot, hresult⟩ := map_eq_some_iff.mp h
  cases outcome with
  | error failure =>
    obtain ⟨rfl, rfl⟩ := Prod.mk.inj hresult
    exact .inl ⟨failure, rfl, rfl, rfl⟩
  | ok encoded =>
    dsimp only at hresult
    cases hhash : host.sha256Outcome encoded with
    | error code =>
      rw [hhash] at hresult
      obtain ⟨rfl, rfl⟩ := Prod.mk.inj hresult
      exact .inl ⟨_, rfl, rfl, rfl⟩
    | ok cur =>
      obtain ⟨other, hpoll, hspec⟩ := poll_of_hash hsnapshot hhash
      obtain ⟨rfl, rfl⟩ := Prod.mk.inj (some.inj (h.symm.trans hpoll))
      exact .inr ⟨encoded, cur, hsnapshot, hhash, hspec.1, hspec.2.1, rfl, hspec.2.2⟩

/-- The baseline is the digest of the last poll that succeeded. -/
theorem Run.baseline {last : Option (List UInt8)} (h : Run scanner last) :
    scanner.baseline = last := by
  induction h with
  | new => rfl
  | limits _ _ _ _ ih => exact ih
  | succeeded _ hpoll hfail _ =>
    rcases poll_cases hpoll with ⟨failure, hfailed, -⟩ | ⟨_, cur, -, -, -, hdigest, rfl, -⟩
    · rw [hfailed] at hfail
      cases hfail
    · exact hdigest.symm
  | failed _ hpoll hfail ih =>
    rcases poll_cases hpoll with ⟨_, -, -, rfl⟩ | ⟨_, _, -, -, hnone, -⟩
    · exact ih
    · rw [hnone] at hfail
      cases hfail

/-- Snapshots are equal exactly when the same was recorded. In every run a poll whose snapshot and hash
succeed is a success, which reports a change exactly when its digest is not that of the last poll that
succeeded; there are no other successes, and a poll that fails reports no change and keeps the
baseline. -/
theorem snapshot_faithful (digest : List UInt8 → List UInt8) :
    (∀ (scanner scanner' : Scanner) (host host' : Host) (tree tree' : FileTree)
      (relative relative' : Text) (encoded encoded' : List UInt8), host.Serves tree digest →
      host'.Serves tree' digest → NoCollision digest tree tree' relative relative' →
      scanner.snapshot host relative = some (.ok encoded) →
      scanner'.snapshot host' relative' = some (.ok encoded') →
      (encoded = encoded' ↔ ∀ r, tree.Recorded relative r ↔ tree'.Recorded relative' r)) ∧
    (∀ (scanner : Scanner) (last : Option (List UInt8)) (host : Host) (relative : Text)
      (encoded cur : List UInt8), Run scanner last →
      scanner.snapshot host relative = some (.ok encoded) → host.sha256Outcome encoded = .ok cur →
      ∃ result : PollResult, scanner.poll host relative =
          some (result, { scanner with baseline := some cur }) ∧ result.failure = none ∧
        result.digest = some cur ∧
        (result.changed = true ↔ ∃ previous, last = some previous ∧ cur ≠ previous)) ∧
    (∀ (scanner next : Scanner) (last : Option (List UInt8)) (host : Host) (relative : Text)
      (result : PollResult), Run scanner last → scanner.poll host relative = some (result, next) →
      (result.failure = none → ∃ encoded cur, scanner.snapshot host relative = some (.ok encoded) ∧
        host.sha256Outcome encoded = .ok cur ∧ result.digest = some cur ∧
        (result.changed = true ↔ ∃ previous, last = some previous ∧ cur ≠ previous)) ∧
      (result.failure ≠ none → result.changed = false ∧ next.baseline = last)) := by
  refine ⟨?_, ?_, ?_⟩
  · intro scanner scanner' host host' tree tree' relative relative' encoded encoded' hserves hserves'
      hcollision h h'
    exact snapshot_eq_iff hserves hserves' hcollision h h'
  · intro scanner last host relative encoded cur hrun hsnapshot hhash
    rw [← hrun.baseline]
    exact poll_of_hash hsnapshot hhash
  · intro scanner next last host relative result hrun hpoll
    have hbaseline := hrun.baseline
    rcases poll_cases hpoll with ⟨failure, hfailed, hchanged, rfl⟩ |
      ⟨encoded, cur, hsnapshot, hhash, hnone, hdigest, -, hchanged⟩
    · refine ⟨fun hfail => ?_, fun _ => ⟨hchanged, hbaseline⟩⟩
      rw [hfailed] at hfail
      cases hfail
    · refine ⟨fun _ => ⟨encoded, cur, hsnapshot, hhash, hdigest, ?_⟩, fun hfail => ?_⟩
      · rw [hchanged, hbaseline]
      · exact absurd hnone hfail

end Scanner

/-! ### Two small trees -/

/-- A directory with one file and nothing else. -/
def oneFile (name : Text) (bytes : List UInt8) (hname : name.bytes ≠ [] ∧ (47 : UInt8) ∉ name.bytes) :
    FileTree where
  entries path := if path.bytes = [] then [⟨name, .file⟩] else []
  content _ := bytes
  names := by
    intro path e he
    split at he
    · rw [mem_singleton.mp he]
      exact hname
    · cases he
  nodup := by
    intro path
    split <;> simp

/-- A digest of 32 bytes. -/
def checksum (input : List UInt8) : List UInt8 :=
  replicate 31 0 ++ [input.foldl (fun hash byte => hash * 31 + byte) 7]

/-- A host that answers every request from a tree. -/
def honest (tree : FileTree) : Host where
  list path _ := { entries := tree.entries path }
  readBytes path _ := { bytes := some (tree.content path) }
  sha256Outcome input := .ok (checksum input)

theorem serves_honest (tree : FileTree) : (honest tree).Serves tree checksum where
  list _ _ _ _ := List.Perm.refl _
  readBytes _ _ _ _ _ h := (some.inj h).symm
  sha256Outcome _ _ h := (Except.ok.inj h).symm

theorem recorded_oneFile {bytes : List UInt8}
    (hname : name.bytes ≠ [] ∧ (47 : UInt8) ∉ name.bytes) :
    (oneFile name bytes hname).Recorded "" r ↔ r = ⟨name, .file, bytes⟩ := by
  have hentries : (oneFile name bytes hname).entries "" = [⟨name, .file⟩] := rfl
  rw [recorded_iff, hentries]
  simp only [mem_singleton, exists_eq_left, EntryRecorded, reduceCtorEq, false_and, or_false,
    true_and]
  rfl

/-- A file `a` of one byte. -/
def oneByte (byte : UInt8) : FileTree := oneFile (Text.ofScalars ['a']) [byte] (by decide)

def encodedByte (byte : UInt8) : List UInt8 :=
  ((({} : Scanner).snapshot (honest (oneByte byte)) "").bind (·.toOption)).getD []

theorem snapshot_oneByte (byte : UInt8) (baseline : Option (List UInt8))
    (h : ((({} : Scanner).snapshot (honest (oneByte byte)) "").bind
      (·.toOption)).isSome = true) : ({ baseline } : Scanner).snapshot (honest (oneByte byte))
        "" = some (.ok (encodedByte byte)) := by
  have hsame : ∀ scanner : Scanner, { scanner with baseline }.snapshot (honest (oneByte byte))
      "" = scanner.snapshot (honest (oneByte byte)) "" :=
    fun _ => rfl
  unfold encodedByte
  rw [hsame {}]
  generalize ({} : Scanner).snapshot (honest (oneByte byte)) "" = outcome at h
  rcases outcome with _ | _ | encoded
  · cases h
  · cases h
  · rfl

/-- Two files with different contents have different snapshots. A scanner that has seen the one does
not report it again, and reports the other. -/
theorem snapshot_faithful_oneByte : encodedByte 1 ≠ encodedByte 2 ∧
    ∃ first again other : PollResult, ∃ seen after after' : Scanner,
      ({} : Scanner).poll (honest (oneByte 1)) = some (first, seen) ∧ first.changed = false ∧
      seen.poll (honest (oneByte 1)) = some (again, after) ∧ again.changed = false ∧
      seen.poll (honest (oneByte 2)) = some (other, after') ∧ other.changed = true := by
  obtain ⟨hfaithful, hsucceeds, -⟩ := Scanner.snapshot_faithful checksum
  have hone := fun baseline => snapshot_oneByte 1 baseline (by decide +kernel)
  have htwo := fun baseline => snapshot_oneByte 2 baseline (by decide +kernel)
  constructor
  · intro heq
    have hcollision : NoCollision checksum (oneByte 1) (oneByte 2) "" "" := by
      intro r r' hr hr' hdigest
      rw [(recorded_oneFile _).mp hr, (recorded_oneFile _).mp hr'] at hdigest
      exact absurd hdigest (by decide)
    have hsame := (hfaithful _ _ _ _ _ _ _ _ _ _ (serves_honest _) (serves_honest _) hcollision
      (hone none) (htwo none)).mp heq
    have hrecorded := (hsame ⟨Text.ofScalars ['a'], .file, [1]⟩).mp ((recorded_oneFile _).mpr rfl)
    exact absurd (congrArg Record.content ((recorded_oneFile _).mp hrecorded)) (by decide)
  · obtain ⟨first, hfirst, hnone, hdigest, hchanged⟩ :=
      hsucceeds {} none _ _ _ _ .new (hone none) rfl
    have hrun := Scanner.Run.succeeded .new hfirst hnone
    rw [hdigest] at hrun
    obtain ⟨again, hagain, -, -, hunchanged⟩ := hsucceeds _ _ _ _ _ _ hrun (hone _) rfl
    obtain ⟨other, hother, -, -, hdiffers⟩ := hsucceeds _ _ _ _ _ _ hrun (htwo _) rfl
    refine ⟨first, again, other, _, _, _, hfirst, ?_, hagain, ?_, hother, ?_⟩
    · simpa using mt hchanged.mp
    · simpa using mt hunchanged.mp
    · exact hdiffers.mpr ⟨_, rfl, by decide +kernel⟩

end Neri.Stdlib.Changes
