import Neri.Stdlib.HttpHead

/-!
# A head does not depend on the packets

A scan in two parts is a scan of the whole, so that reads of any sizes come to what one scan of the
first 8192 bytes of the stream comes to.
-/

namespace Neri.Stdlib.Http

open List

variable {stream seen p pending : List UInt8} {b : UInt8}

/-- No byte is forbidden, and no head has ended. -/
structure Clean (p : List UInt8) : Prop where
  allowed : ∀ b ∈ p, forbiddenByte b = false
  not_ended : ∀ q, q <+: p → ¬[13, 10, 13, 10] <:+ q

/-- The status, the code of the failure and the text that a stream is to give. -/
inductive HeadOutcome (stream : List UInt8) : Int × Option String × List UInt8 → Prop where
  | found {p : List UInt8} {byte : UInt8} : Clean p → p ++ [byte] <+: stream → p.length < 8192 →
      forbiddenByte byte = false → [13, 10, 13, 10] <:+ p ++ [byte] →
      HeadOutcome stream (200, none, p ++ [byte])
  | forbidden {p : List UInt8} {byte : UInt8} : Clean p → p ++ [byte] <+: stream →
      p.length < 8192 → forbiddenByte byte = true →
      HeadOutcome stream (400, some "invalid_header_bytes", [])
  | limit {p : List UInt8} : Clean p → p <+: stream → p.length = 8192 →
      HeadOutcome stream (431, some "header_limit", [])
  | closed : Clean stream → stream.length < 8192 → HeadOutcome stream (0, some "peer_closed", [])

def Scan.outcome : Scan → Int × Option String × List UInt8
  | .forbidden => (400, some "invalid_header_bytes", [])
  | .found head => (200, none, headText head)
  | .more seen =>
    if 8192 ≤ seen.length then (431, some "header_limit", []) else (0, some "peer_closed", [])

theorem Clean.snoc (h : Clean p) (hb : forbiddenByte b = false)
    (hopen : ¬[13, 10, 13, 10] <:+ p ++ [b]) : Clean (p ++ [b]) := by
  refine ⟨forall_mem_append.mpr ⟨h.allowed, by simpa using hb⟩, fun q hq => ?_⟩
  rcases prefix_concat_iff.mp hq with rfl | hq
  · exact hopen
  · exact h.not_ended q hq

theorem headText_eq (h : ∀ b ∈ p, forbiddenByte b = false) : headText p = p := by
  refine (flatMap_congr fun b hb => ?_).trans (flatMap_singleton' p)
  have hlow : b.toNat ≤ 0x7f := by
    have hb := h b hb
    simp only [forbiddenByte, Bool.or_eq_false_iff, decide_eq_false_iff_not] at hb
    omega
  have hstrict : isStrictUtf8 [b] = true := by simp [isStrictUtf8, hlow]
  rw [Text.fromBytes, dif_pos hstrict]
  rfl

theorem scanHead_outcome (h : Clean seen) (hstream : seen ++ pending = stream.take 8192) :
    HeadOutcome stream (scanHead seen pending).outcome := by
  induction pending generalizing seen with
  | nil =>
    rw [append_nil] at hstream
    have hlen := congrArg length hstream
    rw [length_take] at hlen
    rw [scanHead, Scan.outcome]
    split
    · exact .limit h (hstream ▸ take_prefix _ _) (by omega)
    · rw [take_of_length_le (by omega)] at hstream
      exact .closed (hstream ▸ h) (by omega)
  | cons b rest ih =>
    have hprefix : seen ++ [b] <+: stream :=
      IsPrefix.trans ⟨rest, by rw [append_assoc]; exact hstream⟩ ( take_prefix 8192 stream)
    have hlen := congrArg length hstream
    rw [length_append, length_cons, length_take] at hlen
    rw [scanHead]
    split_ifs with hb hend
    · exact .forbidden h hprefix (by omega) hb
    · have hb : forbiddenByte b = false := by simpa using hb
      rw [Scan.outcome, headText_eq (forall_mem_append.mpr ⟨h.allowed, by simpa using hb⟩)]
      exact .found h hprefix (by omega) hb hend
    · exact ih (h.snoc (by simpa using hb) hend) (by rw [append_assoc]; exact hstream)

theorem scanHead_append (later : List UInt8) : scanHead seen (pending ++ later) =
    match scanHead seen pending with
    | .more seen => scanHead seen later
    | scan => scan := by
  induction pending generalizing seen with
  | nil => rfl
  | cons b rest ih =>
    rw [cons_append, scanHead, scanHead]
    split_ifs
    · rfl
    · rfl
    · exact ih

theorem scanHead_eq_more {after : List UInt8} (h : scanHead seen pending = .more after) :
    after = seen ++ pending := by
  induction pending generalizing seen with
  | nil => simpa [scanHead, eq_comm] using h
  | cons b rest ih =>
    rw [scanHead] at h
    split_ifs at h
    rw [ih h, append_assoc]
    rfl

/-- Nothing fails. -/
def ReadTurn.isQuiet : ReadTurn → Bool
  | .retry | .read _ => true
  | _ => false

def ReadTurn.isRead : ReadTurn → Bool
  | .read _ => true
  | _ => false

def Head.outcome (head : Head) : Int × Option String × List UInt8 :=
  (head.status, head.failure.map (·.code), head.text)

/-- A result is that of one scan, and without one there were too few reads: each takes a byte. -/
def ScansOnce (turns : List ReadTurn) (stream seen : List UInt8) : Prop :=
  (readHead turns stream seen).elim (seen.length + turns.countP ReadTurn.isRead < 8192)
    fun head => head.outcome = (scanHead seen (stream.take (8192 - seen.length))).outcome

theorem scansOnce_full (turns : List ReadTurn) (stream : List UInt8) (h : 8192 ≤ seen.length) :
    ScansOnce turns stream seen := by
  unfold ScansOnce readHead
  rw [if_pos h, Nat.sub_eq_zero_of_le h, take_zero, scanHead, Scan.outcome, if_pos h]
  rfl

theorem scansOnce_read (less : Nat) {turns : List ReadTurn}
    (h : ∀ stream seen, ScansOnce turns stream seen) (hroom : ¬8192 ≤ seen.length) :
    ScansOnce (.read less :: turns) stream seen := by
  unfold ScansOnce readHead
  rw [if_neg hroom]
  dsimp only
  generalize hsize : min (less + 1) (8192 - seen.length) = size
  have hchunk := length_take_le size stream
  have hstream := take_append_drop size stream
  generalize hcut : stream.take size = chunk at hchunk hstream ⊢
  generalize stream.drop size = rest at hstream
  split
  · rename_i hnil
    rcases take_eq_nil_iff.mp (hcut.trans hnil) with hzero | rfl
    · omega
    · rw [take_nil, scanHead, Scan.outcome, if_neg hroom]
      rfl
  · rename_i hsome
    have hpos := length_pos_iff.mpr hsome
    rw [← hstream, drop_left, take_append, take_of_length_le (by omega), scanHead_append]
    cases hscan : scanHead seen chunk with
    | forbidden => rfl
    | found head => rfl
    | more after =>
      have hafter := h rest after
      rw [scanHead_eq_more hscan] at hafter ⊢
      rw [ScansOnce, length_append, Nat.sub_add_eq] at hafter
      dsimp only
      cases hrest : readHead turns rest (seen ++ chunk) with
      | none =>
        rw [hrest] at hafter
        have hfew : seen.length + chunk.length + turns.countP ReadTurn.isRead < 8192 := hafter
        rw [Option.elim_none, countP_cons_of_pos (by rfl)]
        omega
      | some head => rwa [hrest] at hafter

theorem scansOnce (turns : List ReadTurn) (hquiet : ∀ turn ∈ turns, turn.isQuiet = true) :
    ∀ stream seen, ScansOnce turns stream seen := by
  induction turns with
  | nil =>
    intro stream seen
    by_cases hfull : 8192 ≤ seen.length
    · exact scansOnce_full [] stream hfull
    · unfold ScansOnce readHead
      rw [if_neg hfull]
      exact Nat.lt_of_not_le hfull
  | cons turn turns ih =>
    intro stream seen
    obtain ⟨hturn, hturns⟩ := forall_mem_cons.mp hquiet
    by_cases hfull : 8192 ≤ seen.length
    · exact scansOnce_full _ stream hfull
    · cases turn with
      | waitFailed failure => cases hturn
      | readFailed detail => cases hturn
      | retry =>
        have hrest := ih hturns stream seen
        unfold ScansOnce readHead
        rwa [if_neg hfull]
      | read less => exact scansOnce_read less (ih hturns) hfull

/-- What `readHead` gives for a stream does not depend on the sizes of the reads and on the retries
between them: it depends on the stream alone, and there is a result after enough reads. -/
theorem readHead_packets (stream : List UInt8) : ∃ outcome, HeadOutcome stream outcome ∧
    ∀ turns : List ReadTurn, (∀ turn ∈ turns, turn.isQuiet = true) →
      (∀ head, readHead turns stream = some head → head.outcome = outcome) ∧
      (8192 ≤ turns.countP ReadTurn.isRead → (readHead turns stream).isSome) := by
  refine ⟨_, scanHead_outcome ⟨by simp, fun q hq => by simp [prefix_nil.mp hq]⟩ (nil_append _),
    fun turns hquiet => ?_⟩
  have houtcome := scansOnce turns hquiet stream []
  unfold ScansOnce at houtcome
  cases hhead : readHead turns stream with
  | none =>
    rw [hhead] at houtcome
    exact ⟨nofun, fun hreads => absurd houtcome (by simpa using hreads)⟩
  | some head =>
    rw [hhead] at houtcome
    exact ⟨fun _ h => Option.some.inj h ▸ houtcome, fun _ => rfl⟩

theorem readHead_packets_twoReads : ∃ outcome, HeadOutcome [71, 13, 10, 13, 10] outcome ∧
    (∀ head, readHead [.read 1, .retry, .read 99] [71, 13, 10, 13, 10] = some head →
      head.outcome = outcome) ∧
    (readHead (replicate 8192 (.read 0)) [71, 13, 10, 13, 10]).isSome := by
  obtain ⟨outcome, houtcome, hall⟩ := readHead_packets [71, 13, 10, 13, 10]
  have hquiet : ∀ turn ∈ replicate 8192 (ReadTurn.read 0), turn.isQuiet = true := by
    intro turn hturn
    rw [eq_of_mem_replicate hturn]
    rfl
  have hreads : 8192 ≤ (replicate 8192 (ReadTurn.read 0)).countP ReadTurn.isRead := by
    rw [countP_replicate]
    exact Nat.le_refl 8192
  exact ⟨outcome, houtcome, (hall _ (by decide)).1, (hall _ hquiet).2 hreads⟩

end Neri.Stdlib.Http
