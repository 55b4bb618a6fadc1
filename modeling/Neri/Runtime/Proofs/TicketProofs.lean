import Neri.Runtime.Proofs.ReadinessProofs
import Neri.Runtime.TicketLifecycle

/-!
# The tickets of a worker pool

What a step of the pool can do to the records of its jobs is said once, as an effect. From it follow
what holds of every run: no ticket is lost or given out twice, a ticket is in one place at a time,
and a completion does not change until it is taken.
-/

namespace Neri.Runtime

open IntrusiveQueue Transitions List Option

namespace Pool

variable {p p' : Pool} {q c : List Nat} {j : Job} {i tk : Nat} {w : Worker}
variable {out : Pointer} {answer : Answer} {action : Action}

inductive Effect (p p' : Pool) : Action → Answer → Prop
  | withdraw {action : Action} {answer : Answer} : Withdraws p p' →
      PoolTrace.accepted [⟨p, action, answer, p'⟩] = [] →
      PoolTrace.taken [⟨p, action, answer, p'⟩] = [] → Effect p p' action answer
  | accept {data : Span} {out : Pointer} {memory : Bool} (j : Job) :
      j.id = p.nextJob → j.active = false → j.done = false → p'.options = p.options →
      p'.nextJob = p.nextJob + 1 → p'.jobs = p.jobs ++ [j] →
      Effect p p' (.submit data out memory) (.ticket j.id)
  | receive {i length : Nat} {out : Pointer} (j : Job) : j ∈ p.jobs → j.active = false →
      j.done = false → p'.options = p.options → p'.nextJob = p.nextJob →
      p'.jobs = KeyedList.replace Job.id { j with active := true } p.jobs →
      Effect p p' (.receive i out) (.length length)
  | reply {i : Nat} {data : Span} {memory : Bool} (j : Job) : j ∈ p.jobs → p.ActiveOn i j.id →
      j.active = true → j.done = false → p'.options = p.options → p'.nextJob = p.nextJob →
      p'.jobs = KeyedList.replace Job.id (Job.finished { j with output := data.bytes } .success)
        p.jobs →
      Effect p p' (.reply i data memory) (.status .ok)
  | take {out : Pointer} {capacity : Nat} (j : Job) : j ∈ p.jobs → j.done = true →
      p'.options = p.options → p'.nextJob = p.nextJob →
      p'.jobs = KeyedList.remove Job.id j.id p.jobs →
      Effect p p' (.take j.id out capacity) (.bytes j.output)

/-- What is proved of a step: the invariant, the effect and the level of the readiness channel. -/
structure Does (p p' : Pool) (action : Action) (answer : Answer) : Prop where
  inv : Inv p'
  effect : Effect p p' action answer
  level : Signalled p → Signalled p'

theorem refused (h : Inv p) {status : WorkerStatus}
    (hsame : ((.status status, p) : Answer × Pool) = (answer, p')) : Does p p' action answer := by
  cases hsame
  exact ⟨h, .withdraw (.refl p) rfl (by cases action <;> rfl), id⟩

/-! ## The calls of the owner -/

theorem submit_spec (h : Inv p) (hopened : p.opened = true) {data : Span} {memory : Bool}
    (heq : p.submit data out memory = (answer, p')) :
    Does p p' (.submit data out memory) answer := by
  unfold submit at heq
  dsimp only at heq
  split_ifs at heq with hinvalid hstopped hlength hfull hlast
  any_goals exact refused h heq
  cases heq
  obtain ⟨q, c, hst⟩ := h.stored
  simp only [not_or, Nat.not_le, Nat.not_lt] at hfull hstopped
  have hstore := hst.accept (data.bytes.length + p.options.maxOutputBytes) data.bytes h.nextJob
    (by omega)
  refine ⟨⟨⟨⟨_, _, hstore⟩, ?_, h.staffed.congr rfl rfl, ?_⟩, ?_, h.closed⟩, ?_, ?_⟩
  · refine ⟨fun k t hk => ?_, h.assigned.unique, fun j hj hact hdone => ?_⟩
    · obtain ⟨j, hj, hrest⟩ := h.assigned.current k t hk
      exact ⟨j, mem_append_left _ hj, hrest⟩
    · rcases mem_append.mp hj with hj | hj
      · exact h.assigned.covered j hj hact hdone
      · rw [mem_singleton.mp hj] at hact
        exact absurd hact (by simp)
  · exact Nat.le_succ_of_le h.nextJob
  · exact fun hstop => absurd hstop hstopped.1
  · exact .accept { id := p.nextJob, reservation := _, input := data.bytes } rfl rfl rfl rfl rfl rfl
  · exact fun hready => hready.accept hopened (by simpa using hstopped.1) hstopped.2

theorem poll_spec (h : Inv p) (hopened : p.opened = true)
    (heq : p.poll out = (answer, p')) : Does p p' (.poll out) answer := by
  unfold poll at heq
  split_ifs at heq with hnull
  · exact refused h heq
  · have hready : Inv p.setReadiness := ⟨h.setReadiness, h.drained, h.closed⟩
    have hsame : Withdraws p p.setReadiness := .of_jobs rfl rfl rfl
    dsimp only at heq
    split at heq <;> cases heq <;>
      exact ⟨hready, .withdraw hsame rfl rfl, fun hlevel => hlevel.setReadiness (.inl hopened)⟩

theorem take_spec (h : Inv p) (hopened : p.opened = true) {capacity : Nat}
    (heq : p.take tk out capacity = (answer, p')) : Does p p' (.take tk out capacity) answer := by
  unfold take at heq
  cases hfound : p.job? tk with
  | none =>
    rw [hfound] at heq
    exact refused h heq
  | some j =>
    rw [hfound] at heq
    dsimp only at heq
    split_ifs at heq with hdone hcapacity hnull
    any_goals exact refused h heq
    cases heq
    have hdone : j.done = true := by simpa using hdone
    obtain ⟨hj, rfl⟩ := h.mem_of_job? hfound
    obtain ⟨q, c, hst⟩ := h.stored
    have hrelease : Base (p.release j) := by
      refine ⟨⟨_, _, hst.release hj hdone⟩, ?_, h.staffed.congr rfl rfl, h.nextJob⟩
      refine ⟨fun k t hk => ?_, h.assigned.unique, fun other hother hact hdone' => ?_⟩
      · obtain ⟨other, hother, rfl, hact, hdone'⟩ := h.assigned.current k t hk
        refine ⟨other, KeyedList.mem_remove.mpr ⟨hother, fun hid => ?_⟩, rfl, hact, hdone'⟩
        exact h.not_activeOn hj (.inr hdone) k (hid ▸ hk)
      · exact h.assigned.covered other (KeyedList.mem_remove.mp hother).1 hact hdone'
    refine ⟨⟨hrelease.setReadiness, fun hstop other hother => ?_, h.closed⟩,
      .take j hj hdone rfl rfl rfl, fun hready => hready.release hopened⟩
    exact h.drained hstop other (KeyedList.mem_remove.mp hother).1

theorem cancel_spec (h : Inv p) (heq : p.cancel tk = (answer, p')) :
    Does p p' (.cancel tk) answer := by
  unfold cancel at heq
  cases hfound : p.job? tk with
  | none =>
    rw [hfound] at heq
    exact refused h heq
  | some j =>
    rw [hfound] at heq
    cases heq
    obtain ⟨hcontinues, -⟩ := cancelJob_spec h.toBase (h.mem_of_job? hfound).1
    refine ⟨⟨hcontinues.base, fun hstop => ?_, fun hall => ?_⟩,
      .withdraw hcontinues.withdraws rfl rfl, fun hready => hready.cancelJob hfound⟩
    · rw [hcontinues.stopping] at hstop
      exact (h.drained hstop).withdraws h.toBase hcontinues.base hcontinues.withdraws
    · rw [hcontinues.stopping]
      exact h.closed (hcontinues.workers ▸ hall)

/-! ## The calls of a worker -/

theorem running?_eq_some (h : p.running? i = some w) :
    p.workers[i]? = some w ∧ w.started = true ∧ w.exited = false := by
  obtain ⟨hw, hflags⟩ := filter_eq_some_iff.mp h
  exact ⟨hw, by simpa using hflags⟩

theorem activeWorker_eq_some (h : p.activeWorker i = some w) :
    p.workers[i]? = some w ∧ w.started = true ∧ w.exited = false ∧ w.heap = true := by
  obtain ⟨hw, hheap⟩ := filter_eq_some_iff.mp h
  obtain ⟨hw, hstarted, hexited⟩ := running?_eq_some hw
  exact ⟨hw, hstarted, hexited, hheap⟩

/-- A worker that fails or exits nowhere in a change is as able to work after it. -/
theorem Inv.closed_modifyWorker (h : Inv p) (change : Worker → Worker)
    (hfailed : ∀ w, (change w).failed = w.failed) (hexited : ∀ w, (change w).exited = w.exited)
    (hall : ∀ w ∈ (p.modifyWorker i change).workers, w.failed = true ∨ w.exited = true) :
    p.stopping = true := by
  refine h.closed fun w hw => ?_
  obtain ⟨k, hk⟩ := mem_iff_getElem?.mp hw
  have hk' : (p.modifyWorker i change).workers[k]? = some (if i = k then change w else w) := by
    simp [Pool.modifyWorker, getElem?_modify, hk]
  have hflags := hall _ (mem_of_getElem? hk')
  by_cases hik : i = k
  · rw [if_pos hik, hfailed, hexited] at hflags
    exact hflags
  · rwa [if_neg hik] at hflags

theorem Inv.modifyWorker (h : Inv p) (change : Worker → Worker) (hw : p.workers[i]? = some w)
    (hcurrent : (change w).current = w.current) (hsound : (change w).Sound)
    (hstarted : (change w).started = w.started) (hfailed : ∀ w, (change w).failed = w.failed)
    (hexited : ∀ w, (change w).exited = w.exited) : Inv (p.modifyWorker i change) :=
  ⟨h.toBase.modifyWorker change hw hcurrent hsound hstarted (hexited w), h.drained,
    h.closed_modifyWorker change hfailed hexited⟩

theorem start_inv (h : Inv p) (hw : p.workers[i]? = some w) (hstarted : w.started = false) :
    Inv { p.modifyWorker i (fun w => { w with started := true }) with alive := p.alive + 1 } := by
  have hsound := h.staffed.sound w (mem_of_getElem? hw)
  have hexited : w.exited = false := by
    by_contra hne
    exact absurd (hsound.started (by simpa using hne)) (by simp [hstarted])
  refine ⟨h.toBase.modifyThread hw rfl ⟨fun _ => rfl, hsound.current⟩ ?_, h.drained,
    h.closed_modifyWorker _ (fun _ => rfl) (fun _ => rfl)⟩
  simp [hstarted, hexited]

theorem ready_spec (h : Inv p) (hw : p.activeWorker i = some w)
    (heq : p.ready i w = (answer, p')) : Does p p' (.ready i) answer := by
  obtain ⟨hw, -, hexited, -⟩ := activeWorker_eq_some hw
  have hsound := h.staffed.sound w (mem_of_getElem? hw)
  unfold ready at heq
  split_ifs at heq with hinvalid hstop
  · exact refused h heq
  · exact refused h heq
  · cases heq
    refine ⟨h.modifyWorker _ hw rfl ⟨hsound.started, fun hne => ?_⟩ rfl (fun _ => rfl)
      (fun _ => rfl), .withdraw (.of_jobs rfl rfl rfl) rfl rfl,
      fun hready => hready.modifyWorker fun _ => rfl⟩
    obtain ⟨hheap, -, hfailed, hexited⟩ := hsound.current hne
    exact ⟨hheap, rfl, hfailed, hexited⟩

theorem receive_spec (h : Inv p) (hw : p.activeWorker i = some w)
    (heq : p.receive i w out = some (answer, p')) : Does p p' (.receive i out) answer := by
  obtain ⟨hw, -, hexited, hheap⟩ := activeWorker_eq_some hw
  unfold receive at heq
  split_ifs at heq with hinvalid hstop
  · exact refused h (some.inj heq)
  · exact refused h (some.inj heq)
  · obtain ⟨j, hhead, heq⟩ := map_eq_some_iff.mp heq
    cases heq
    simp only [not_or, not_not] at hinvalid
    obtain ⟨-, hready, hfailed, hcurrent⟩ := hinvalid
    obtain ⟨q, c, hst⟩ := h.stored
    obtain ⟨t, ht, hfound⟩ := bind_eq_some_iff.mp hhead
    obtain ⟨hj, rfl⟩ := h.mem_of_job? hfound
    -- the head of the queue waits
    have hqueued : j.id ∈ q := mem_of_mem_head? (hst.queued.head ▸ ht)
    obtain ⟨hact, hdone⟩ := (hst.id_mem_queued_iff hj).mp hqueued
    have hnone := h.not_activeOn hj (.inl hact)
    set p₁ := (p.unlinkQueued j.id).setJob { j with active := true } with hp₁
    have hactiveOn (k t : Nat) :
        (p₁.modifyWorker i fun w => { w with current := some j.id }).ActiveOn k t ↔
          (k = i ∧ t = j.id) ∨ p.ActiveOn k t := by
      have hw₁ : p₁.workers[i]? = some w := hw
      rw [activeOn_modifyWorker]
      by_cases hk : k = i
      · simp [hk, hw₁, ActiveOn, hw, hcurrent, eq_comm]
      · simp only [hk, if_false, false_and, false_or]
        exact activeOn_congr rfl
    refine ⟨⟨⟨⟨_, _, (hst.activate hj hact hdone).congr rfl⟩,
      ?_, ?_, h.nextJob⟩, fun hstop' => absurd hstop' hstop, ?_⟩,
      .receive j hj hact hdone rfl rfl rfl, fun hready => ?_⟩
    · refine h.assigned.replace (j := { j with active := true }) rfl hj rfl (fun k t ht => ?_)
        (.inl ⟨rfl, hdone, i, ?_, fun k hk => ?_⟩)
      · rw [hactiveOn]
        exact ⟨fun hor => hor.resolve_left fun hand => ht hand.2, .inr⟩
      · exact (hactiveOn i j.id).mpr (.inl ⟨rfl, rfl⟩)
      · rcases (hactiveOn k j.id).mp hk with hand | hk
        · exact hand.1
        · exact absurd hk (hnone k)
    · have hstaffed : Staffed p₁ := h.staffed.congr rfl rfl
      refine hstaffed.modifyWorker (w := w) hw ⟨?_, fun _ => ?_⟩ rfl rfl
      · exact (h.staffed.sound w (mem_of_getElem? hw)).started
      · exact ⟨hheap, by simpa using hready, by simpa using hfailed, hexited⟩
    · exact h.closed_modifyWorker _ (fun _ => rfl) (fun _ => rfl)
    · have hready₁ : Signalled p₁ := hready.congr (frame_setJob (p.unlinkQueued j.id) _) rfl rfl
      exact hready₁.modifyWorker fun _ => rfl

theorem reply_spec (h : Inv p) (hw : p.activeWorker i = some w) {data : Span} {memory : Bool}
    (heq : p.reply i w data memory = (answer, p')) : Does p p' (.reply i data memory) answer := by
  obtain ⟨hw, -, -, -⟩ := activeWorker_eq_some hw
  unfold reply at heq
  split at heq
  · exact refused h heq
  cases hj : w.current.bind p.job? with
  | none =>
    rw [hj] at heq
    exact refused h heq
  | some j =>
    rw [hj] at heq
    dsimp only at heq
    obtain ⟨t, hcurrent, hfound⟩ := bind_eq_some_iff.mp hj
    obtain ⟨hmem, rfl⟩ := h.mem_of_job? hfound
    have hactiveOn : p.ActiveOn i j.id := ⟨w, hw, hcurrent⟩
    obtain ⟨q, c, hst⟩ := h.stored
    obtain ⟨hact, hdone⟩ := h.flags_of_activeOn hmem hactiveOn
    split at heq
    · exact refused h heq
    split at heq
    · exact refused h heq
    split at heq
    · exact refused h heq
    have hclosed (j' : Job) (kind : CompletionKind) :
        (∀ w ∈ ((p.finish j' kind).modifyWorker i fun w => { w with current := none }).workers,
          w.failed = true ∨ w.exited = true) → p.stopping = true := by
      intro hall
      refine h.closed_modifyWorker (i := i) (fun w => { w with current := none })
        (fun _ => rfl) (fun _ => rfl) ?_
      simpa only [Pool.modifyWorker, finish_workers] using hall
    by_cases hcancelled : j.cancelled = true
    · rw [if_neg (by simp [hcancelled]), if_pos hcancelled] at heq
      cases heq
      obtain ⟨hbase, hwithdraws⟩ := h.dropCurrent hw hj
        (fun w => { w with current := none }) rfl rfl rfl .cancelled (by simp)
      refine ⟨⟨hbase, fun hstop => ?_, fun hall => ?_⟩, .withdraw hwithdraws rfl rfl,
        fun hready => (hready.finish hfound).modifyWorker fun _ => rfl⟩
      · exact (h.drained (finishes.stopping.symm.trans hstop)).withdraws h.toBase hbase hwithdraws
      · exact finishes.stopping.trans (hclosed j .cancelled hall)
    · -- without bytes nothing is copied, and the output is empty already
      have hrecord : (if (!j.cancelled) = true ∧ data.bytes.length ≠ 0 then
          { j with output := data.bytes } else j) = { j with output := data.bytes } := by
        by_cases hlength : data.bytes.length = 0
        · rw [if_neg (by simp [hlength]), length_eq_zero_iff.mp hlength,
            ← hst.output j hmem (.inl hdone)]
        · rw [if_pos ⟨by simpa using hcancelled, hlength⟩]
      rw [hrecord, if_neg hcancelled] at heq
      cases heq
      have hbase := h.finish_current (j := { j with output := data.bytes }) hw hcurrent hmem
        rfl rfl rfl (fun w => { w with current := none }) rfl rfl rfl .success
      refine ⟨⟨hbase, fun hstop => ?_, fun hall => ?_⟩,
        .reply j hmem hactiveOn hact hdone finishes.options finishes.nextJob finishes.jobs,
        fun hready => (hready.finish hfound).modifyWorker fun _ => rfl⟩
      · exact (h.drained (finishes.stopping.symm.trans hstop)).replace finishes.jobs hmem rfl rfl
      · exact finishes.stopping.trans (hclosed _ .success hall)

/-! ## Every step -/

theorem of_opened {result : Answer × Pool}
    (h : (if p.opened then some result else none) = some (answer, p')) :
    p.opened = true ∧ result = (answer, p') := by
  split_ifs at h with hopened
  exact ⟨hopened, some.inj h⟩

/-- Every step keeps the invariant and the level, and has one of the effects. -/
theorem step_does (h : Inv p)
    (hstep : p.step action = some (answer, p')) : Does p p' action answer := by
  cases action with
  | start i =>
    obtain ⟨w, hw, heq⟩ := map_eq_some_iff.mp hstep
    obtain ⟨hw, hflags⟩ := filter_eq_some_iff.mp hw
    simp only [Bool.and_eq_true, Bool.not_eq_true'] at hflags
    cases heq
    exact ⟨start_inv h hw hflags.1, .withdraw (.of_jobs rfl rfl rfl) rfl rfl,
      fun hready => hready.start hflags.2⟩
  | opened =>
    simp only [step] at hstep
    split_ifs at hstep with hall
    cases hstep
    refine ⟨⟨h.congr rfl rfl rfl, h.drained, h.closed⟩,
      .withdraw (.of_jobs rfl rfl rfl) rfl rfl, fun hready => hready.openPool h.staffed ?_⟩
    intro w hw
    have hflags := all_eq_true.mp hall w hw
    simp only [Bool.and_eq_true, Bool.not_eq_true'] at hflags
    exact ⟨hflags.1.1.1, hflags.2⟩
  | submit data out memory => exact submit_spec h (of_opened hstep).1 (of_opened hstep).2
  | poll out => exact poll_spec h (of_opened hstep).1 (of_opened hstep).2
  | take tk out capacity => exact take_spec h (of_opened hstep).1 (of_opened hstep).2
  | cancel tk => exact cancel_spec h (of_opened hstep).2
  | stop =>
    cases hstep
    exact ⟨(stop_spec h).1, .withdraw (stop_spec h).2 rfl rfl,
      fun hready => hready.stopped (frame_cancelAll _ _)⟩
  | initialized i =>
    obtain ⟨w, hw, heq⟩ := map_eq_some_iff.mp hstep
    obtain ⟨hw, -⟩ := filter_eq_some_iff.mp hw
    obtain ⟨hw, -, -⟩ := running?_eq_some hw
    have hsound := h.staffed.sound w (mem_of_getElem? hw)
    cases heq
    refine ⟨h.modifyWorker _ hw rfl ⟨hsound.started, fun hne => ?_⟩ rfl (fun _ => rfl)
      (fun _ => rfl), .withdraw (.of_jobs rfl rfl rfl) rfl rfl,
      fun hready => hready.modifyWorker fun _ => rfl⟩
    exact ⟨rfl, (hsound.current hne).2⟩
  | ready i =>
    obtain ⟨w, hw, heq⟩ := map_eq_some_iff.mp hstep
    exact ready_spec h hw heq
  | receive i out =>
    obtain ⟨w, hw, heq⟩ := bind_eq_some_iff.mp hstep
    exact receive_spec h hw heq
  | read i out capacity =>
    obtain ⟨w, hw, heq⟩ := map_eq_some_iff.mp hstep
    cases heq
    refine ⟨h, .withdraw (.refl p) ?_ rfl, id⟩
    unfold read
    split
    · rfl
    · split_ifs <;> rfl
  | reply i data memory =>
    obtain ⟨w, hw, heq⟩ := map_eq_some_iff.mp hstep
    exact reply_spec h hw heq
  | cancelled i =>
    obtain ⟨w, hw, heq⟩ := map_eq_some_iff.mp hstep
    cases heq
    exact ⟨h, .withdraw (.refl p) rfl rfl, id⟩
  | fail i detail =>
    obtain ⟨w, hw, heq⟩ := map_eq_some_iff.mp hstep
    obtain ⟨hw, -⟩ := activeWorker_eq_some hw
    unfold fail at heq
    split_ifs at heq
    · exact refused h heq
    · cases heq
      obtain ⟨hinv, hwithdraws, -⟩ := failure_spec h.toBase h.drained hw detail.bytes
      exact ⟨hinv, .withdraw hwithdraws rfl rfl, fun hready => hready.failure _⟩
  | exit i =>
    obtain ⟨w, hw, heq⟩ := map_eq_some_iff.mp hstep
    obtain ⟨hw, hstarted, hexited⟩ := running?_eq_some hw
    cases heq
    obtain ⟨hinv, hwithdraws⟩ := exit_spec h hw hstarted hexited
    exact ⟨hinv, .withdraw hwithdraws rfl rfl, fun hready => hready.exit hinv⟩

theorem step_spec (h : Inv p) (hstep : p.step action = some (answer, p')) :
    Inv p' ∧ Effect p p' action answer :=
  ⟨(step_does h hstep).inv, (step_does h hstep).effect⟩

/-! ## The pool refines the life of each ticket -/

theorem phase_of_job? (h : p.job? tk = some j) :
    p.phase tk = if j.done then .completed j.kind j.output
      else if j.active then .active else .queued := by
  unfold phase
  rw [h]

theorem phase_of_none (h : p.job? tk = none) :
    p.phase tk = if tk < p.nextJob then .taken else .fresh := by
  unfold phase
  rw [h]

theorem phase_congr (hjob : p'.job? tk = p.job? tk) (hnext : p'.nextJob = p.nextJob) :
    p'.phase tk = p.phase tk := by
  unfold phase
  rw [hjob, hnext]

/-- A record that is withdrawn waits or is active as before, or is completed without an output. -/
theorem Withdrawn.follows {j' : Job} (h : Withdrawn j j') (hj : p.job? tk = some j)
    (hj' : p'.job? tk = some j') (replied : List UInt8 → Prop) :
    Phase.Follows replied (p.phase tk) (p'.phase tk) := by
  rw [phase_of_job? hj, phase_of_job? hj']
  cases h with
  | same => exact .inl rfl
  | cancelled hdone => exact .inl rfl
  | @finished flag kind hdone hkind =>
    right
    rw [if_neg (by simp [hdone])]
    simp only [Job.finished, if_true, if_neg hkind]
    by_cases hact : j.active = true
    · rw [if_pos hact]
      exact .drop hkind
    · rw [if_neg hact]
      exact .withdraw hkind

/-- The action is a reply with these bytes to the job of the ticket. -/
def Replies (p : Pool) (action : Action) (answer : Answer) (ticket : Nat) (output : List UInt8) :
    Prop :=
  ∃ i data memory, action = .reply i data memory ∧ answer = .status .ok ∧ p.ActiveOn i ticket ∧
    data.bytes = output

theorem Effect.follows (h : Inv p) (heffect : Effect p p' action answer) (tk : Nat) :
    Phase.Follows (Replies p action answer tk) (p.phase tk) (p'.phase tk) := by
  obtain ⟨q, c, hst⟩ := h.stored
  cases heffect with
  | withdraw hwithdraws =>
    obtain ⟨change, hchange, hrel⟩ := hwithdraws.job tk
    cases hj : p.job? tk with
    | none =>
      rw [hj] at hchange
      exact .inl (phase_congr (hchange.trans hj.symm) hwithdraws.nextJob)
    | some j =>
      rw [hj] at hchange
      exact (hrel j hj).follows hj hchange _
  | accept j hid hact hdone _ hnext hjobs =>
    have hnew : j.id ∉ p.jobs.map Job.id := fun hmem => by
      obtain ⟨other, hother, hother'⟩ := mem_map.mp hmem
      exact absurd (hst.bounds other hother).2 (by omega)
    by_cases ht : tk = j.id
    · have hnone : p.job? tk = none := by
        rw [ht]
        exact KeyedList.lookup_eq_none_iff.mpr hnew
      have hsome : p'.job? tk = some j := by
        unfold job?
        rw [hjobs, ht, KeyedList.lookup_append hnew, if_pos rfl]
      right
      rw [phase_of_none hnone, phase_of_job? hsome, if_neg (by omega), if_neg (by simp [hdone]),
        if_neg (by simp [hact])]
      exact .accept
    · have hsame : p'.job? tk = p.job? tk := by
        unfold job?
        rw [hjobs, KeyedList.lookup_append_of_ne ht]
      left
      unfold phase
      rw [hsame, hnext]
      cases p.job? tk with
      | some j => rfl
      | none =>
        have hiff : tk < p.nextJob + 1 ↔ tk < p.nextJob := by omega
        simp only [hiff]
  | receive j hj hact hdone _ hnext hjobs =>
    have hjob := hst.job?_of_replace hjobs hj rfl tk
    by_cases ht : tk = j.id
    · right
      rw [if_pos ht] at hjob
      rw [phase_of_job? (ht ▸ hst.job?_id hj), phase_of_job? hjob, if_neg (by simp [hdone]),
        if_neg (by simp [hact]), if_neg (by simp [hdone])]
      exact .receive
    · rw [if_neg ht] at hjob
      exact .inl (phase_congr hjob hnext)
  | @reply i data memory j hj hactiveOn hact hdone _ hnext hjobs =>
    have hjob := hst.job?_of_replace hjobs hj rfl tk
    rw [Job.finished_id] at hjob
    by_cases ht : tk = j.id
    · right
      rw [if_pos ht] at hjob
      rw [phase_of_job? (ht ▸ hst.job?_id hj), phase_of_job? hjob, if_neg (by simp [hdone]),
        if_pos hact]
      exact .reply ⟨i, data, memory, rfl, rfl, ht ▸ hactiveOn, rfl⟩
    · rw [if_neg ht] at hjob
      exact .inl (phase_congr hjob hnext)
  | take j hj hdone _ hnext hjobs =>
    have hjob : p'.job? tk = if tk = j.id then none else p.job? tk := by
      unfold job?
      rw [hjobs, KeyedList.lookup_remove hst.nodup]
    by_cases ht : tk = j.id
    · right
      rw [if_pos ht] at hjob
      rw [phase_of_job? (ht ▸ hst.job?_id hj), if_pos hdone, phase_of_none hjob, hnext, ht,
        if_pos (hst.bounds j hj).2]
      exact .take
    · rw [if_neg ht] at hjob
      exact .inl (phase_congr hjob hnext)

theorem create_inv {options : WorkerOptions} {config : List UInt8} {channel : ReadinessChannel}
    (h : Pool.create options config channel = .ok p) : Inv p ∧ p.jobs = [] ∧ p.nextJob = 1 := by
  unfold create at h
  split_ifs at h with hlimit
  cases h
  have hnone : ∀ i t, ¬(fresh options channel).ActiveOn i t := by
    rintro i t ⟨w, hw, hcurrent⟩
    rw [(mem_replicate.mp (mem_of_getElem? hw)).2] at hcurrent
    cases hcurrent
  refine ⟨⟨⟨⟨[], [], ?_⟩, ⟨fun i t hi => absurd hi (hnone i t), fun i _ t hi => absurd hi (hnone i t),
    fun j hj => absurd hj not_mem_nil⟩, ⟨?_, ?_⟩, Nat.le_refl 1⟩,
    fun _ j hj => absurd hj not_mem_nil, ?_⟩, rfl, rfl⟩
  · exact ⟨nodup_nil, by simp [fresh], .empty _, .empty _, by simp [fresh], by simp [fresh],
      by simp [fresh], rfl, Nat.zero_le _⟩
  · intro w hw
    rw [(mem_replicate.mp hw).2]
    exact ⟨fun h => absurd h (by simp), fun h => absurd rfl h⟩
  · simp [fresh, countP_replicate]
  · intro hall
    have hworker := hall {} (mem_replicate.mpr ⟨fun h => hlimit (.inl h), rfl⟩)
    simp at hworker

/-! ## Where the tickets are -/

theorem mem_tickets_iff : tk ∈ p.tickets ↔ (p.job? tk).isSome = true := by
  rw [← ne_none_iff_isSome, ne_eq, job?, KeyedList.lookup_eq_none_iff, not_not]
  rfl

theorem Stored.tickets_eq (h : Stored p q c) : p.queuedTickets = q ∧ p.completedTickets = c :=
  ⟨h.queued.walk_eq (length_le h.queued.nodup h.mem_queued),
    h.completed.walk_eq (length_le h.completed.nodup h.mem_completed)⟩

theorem mem_completedTickets_iff (h : Inv p) :
    tk ∈ p.completedTickets ↔ ∃ j ∈ p.jobs, j.id = tk ∧ j.done = true := by
  obtain ⟨q, c, hst⟩ := h.stored
  rw [hst.tickets_eq.2, hst.mem_completed]

theorem mem_completedTickets_iff_phase (h : Inv p) :
    tk ∈ p.completedTickets ↔ (p.phase tk).isCompleted = true := by
  rw [mem_completedTickets_iff h]
  constructor
  · rintro ⟨j, hj, rfl, hdone⟩
    obtain ⟨q, c, hst⟩ := h.stored
    rw [phase_of_job? (hst.job?_id hj), if_pos hdone]
    rfl
  · intro hcompleted
    cases hfound : p.job? tk with
    | none =>
      rw [phase_of_none hfound] at hcompleted
      split_ifs at hcompleted <;> cases hcompleted
    | some j =>
      rw [phase_of_job? hfound] at hcompleted
      obtain ⟨hj, hid⟩ := h.mem_of_job? hfound
      split_ifs at hcompleted with hdone
      · exact ⟨j, hj, hid, hdone⟩
      all_goals cases hcompleted

theorem inOnePlace (h : Inv p) (hticket : tk ∈ p.tickets) : p.InOnePlace tk := by
  obtain ⟨q, c, hst⟩ := h.stored
  obtain ⟨hq, hc⟩ := hst.tickets_eq
  obtain ⟨j, hj, rfl⟩ := mem_map.mp hticket
  have hqueued := hst.id_mem_queued_iff hj
  have hcompleted := hst.id_mem_completed_iff hj
  by_cases hdone : j.done = true
  · refine .completed ?_ (h.not_activeOn hj (.inr hdone)) ?_
    · rw [hq, hqueued, hdone]
      simp
    · rw [hc]
      exact count_eq_one_of_mem hst.completed.nodup (hcompleted.mpr hdone)
  · have hdone : j.done = false := by simpa using hdone
    have hnot : j.id ∉ p.completedTickets := by
      rw [hc, hcompleted, hdone]
      exact Bool.false_ne_true
    by_cases hact : j.active = true
    · obtain ⟨i, hi⟩ := h.assigned.covered j hj hact hdone
      refine .active ?_ ⟨i, hi, fun k hk => h.assigned.unique k i j.id hk hi⟩ hnot
      rw [hq, hqueued, hact]
      simp
    · have hact : j.active = false := by simpa using hact
      refine .queued ?_ (h.not_activeOn hj (.inl hact)) hnot
      rw [hq]
      exact count_eq_one_of_mem hst.queued.nodup (hqueued.mpr ⟨hact, hdone⟩)

theorem completed_of_exited (h : Inv p) (hexited : ∀ w ∈ p.workers, w.exited = true)
    (hticket : tk ∈ p.tickets) : tk ∈ p.completedTickets := by
  obtain ⟨j, hj, rfl⟩ := mem_map.mp hticket
  rw [mem_completedTickets_iff h]
  refine ⟨j, hj, rfl, ?_⟩
  by_cases hact : j.active = true
  · by_contra hdone
    obtain ⟨i, w, hw, hcurrent⟩ := h.assigned.covered j hj hact (by simpa using hdone)
    have hmem := mem_of_getElem? hw
    have hstays := ((h.staffed.sound w hmem).current (by simp [hcurrent])).2.2.2
    exact absurd (hexited w hmem) (by simp [hstays])
  · exact h.drained (h.closed fun w hw => .inr (hexited w hw)) j hj (by simpa using hact)

theorem Effect.options (h : Effect p p' action answer) : p'.options = p.options := by
  cases h with
  | withdraw hwithdraws => exact hwithdraws.options
  | accept _ _ _ _ hoptions => exact hoptions
  | receive _ _ _ _ hoptions => exact hoptions
  | reply _ _ _ _ _ hoptions => exact hoptions
  | take _ _ _ hoptions => exact hoptions

/-! ## Runs -/

section Runs

variable {options : WorkerOptions} {config : List UInt8} {channel : ReadinessChannel}
  {start mid pool : Pool} {trace trace' : PoolTrace}

theorem run_inv (run : Run Pool.step start trace pool) (h : Inv start) : Inv pool :=
  run.invariant h fun _ _ _ _ hinv hstep => (step_spec hinv hstep).1

theorem run_options (run : Run Pool.step start trace pool) (h : Inv start) :
    pool.options = start.options := by
  have hboth : Inv pool ∧ pool.options = start.options := by
    refine run.invariant (I := fun p => Inv p ∧ p.options = start.options) ⟨h, rfl⟩ ?_
    rintro pre action answer after ⟨hinv, hoptions⟩ hstep
    obtain ⟨hinv', heffect⟩ := step_spec hinv hstep
    exact ⟨hinv', heffect.options.trans hoptions⟩
  exact hboth.2

theorem accepted_append (trace trace' : PoolTrace) :
    PoolTrace.accepted (trace ++ trace') = trace.accepted ++ trace'.accepted :=
  filterMap_append

theorem taken_append (trace trace' : PoolTrace) :
    PoolTrace.taken (trace ++ trace') = trace.taken ++ trace'.taken :=
  filterMap_append

/-- What was accepted and what was taken, told from the pool. -/
structure Accounts (trace : PoolTrace) (p : Pool) : Prop where
  acceptedNodup : trace.accepted.Nodup
  takenNodup : trace.taken.Nodup
  mem_accepted : ∀ t, t ∈ trace.accepted ↔ 1 ≤ t ∧ t < p.nextJob
  mem_taken : ∀ t, t ∈ trace.taken ↔ 1 ≤ t ∧ t < p.nextJob ∧ t ∉ p.tickets

theorem Accounts.same (h : Accounts trace p) (hacc : trace'.accepted = [])
    (htaken : trace'.taken = []) (hnext : p'.nextJob = p.nextJob)
    (htickets : ∀ t, t ∈ p'.tickets ↔ t ∈ p.tickets) : Accounts (trace ++ trace') p' := by
  constructor
  · rw [accepted_append, hacc, append_nil]
    exact h.acceptedNodup
  · rw [taken_append, htaken, append_nil]
    exact h.takenNodup
  · rw [accepted_append, hacc, append_nil, hnext]
    exact h.mem_accepted
  · rw [taken_append, htaken, append_nil, hnext]
    simp only [htickets]
    exact h.mem_taken

theorem Accounts.step (h : Accounts trace p) (hinv : Inv p) (heffect : Effect p p' action answer) :
    Accounts (trace ++ [⟨p, action, answer, p'⟩]) p' := by
  obtain ⟨q, c, hst⟩ := hinv.stored
  cases heffect with
  | withdraw hwithdraws hacc htaken =>
    refine h.same hacc htaken hwithdraws.nextJob fun t => ?_
    obtain ⟨change, hchange, -⟩ := hwithdraws.job t
    rw [mem_tickets_iff, mem_tickets_iff, hchange, isSome_map]
  | receive j hj _ _ _ hnext hjobs =>
    refine h.same rfl rfl hnext fun t => ?_
    unfold tickets
    rw [hjobs, KeyedList.map_key_replace]
  | reply j hj _ _ _ _ hnext hjobs =>
    refine h.same rfl rfl hnext fun t => ?_
    unfold tickets
    rw [hjobs, KeyedList.map_key_replace]
  | @accept data out memory j hid _ _ _ hnext hjobs =>
    have hacc : PoolTrace.accepted [⟨p, .submit data out memory, .ticket j.id, p'⟩] = [j.id] :=
      rfl
    have htaken : PoolTrace.taken [⟨p, .submit data out memory, .ticket j.id, p'⟩] = [] := rfl
    have htickets (t : Nat) : t ∈ p'.tickets ↔ t ∈ p.tickets ∨ t = j.id := by
      simp [tickets, hjobs]
    have hpos := hinv.nextJob
    constructor
    · rw [accepted_append, nodup_append]
      refine ⟨h.acceptedNodup, nodup_singleton _, ?_⟩
      rintro a ha b hb rfl
      have := ((h.mem_accepted a).mp ha).2
      rw [mem_singleton.mp hb] at this
      omega
    · rw [taken_append, htaken, append_nil]
      exact h.takenNodup
    · intro t
      rw [accepted_append, hacc, mem_append, mem_singleton, h.mem_accepted]
      omega
    · intro t
      rw [taken_append, htaken, append_nil, h.mem_taken, htickets]
      constructor
      · rintro ⟨hone, hlt, hnot⟩
        exact ⟨hone, by omega, by rintro (hmem | rfl) <;> [exact hnot hmem; omega]⟩
      · rintro ⟨hone, hlt, hnot⟩
        rw [not_or] at hnot
        exact ⟨hone, by omega, hnot.1⟩
  | @take out capacity j hj hdone _ hnext hjobs =>
    have hacc : PoolTrace.accepted [⟨p, .take j.id out capacity, .bytes j.output, p'⟩] = [] :=
      rfl
    have htaken : PoolTrace.taken [⟨p, .take j.id out capacity, .bytes j.output, p'⟩] = [j.id] := rfl
    have hheld : j.id ∈ p.tickets := mem_map_of_mem hj
    have htickets (t : Nat) : t ∈ p'.tickets ↔ t ∈ p.tickets ∧ t ≠ j.id := by
      unfold tickets
      rw [hjobs]
      constructor
      · rintro ht
        obtain ⟨other, hother, rfl⟩ := mem_map.mp ht
        obtain ⟨hother, hne⟩ := KeyedList.mem_remove.mp hother
        exact ⟨mem_map_of_mem hother, hne⟩
      · rintro ⟨ht, hne⟩
        obtain ⟨other, hother, rfl⟩ := mem_map.mp ht
        exact mem_map_of_mem (KeyedList.mem_remove.mpr ⟨hother, hne⟩)
    constructor
    · rw [accepted_append, hacc, append_nil]
      exact h.acceptedNodup
    · rw [taken_append, nodup_append]
      refine ⟨h.takenNodup, nodup_singleton _, ?_⟩
      rintro a ha b hb rfl
      rw [mem_singleton.mp hb] at ha
      exact ((h.mem_taken j.id).mp ha).2.2 hheld
    · rw [accepted_append, hacc, append_nil, hnext]
      exact h.mem_accepted
    · intro t
      rw [taken_append, htaken, mem_append, mem_singleton, h.mem_taken, htickets, hnext]
      constructor
      · rintro (⟨hone, hlt, hnot⟩ | rfl)
        · exact ⟨hone, hlt, fun hand => hnot hand.1⟩
        · obtain ⟨hone, hlt⟩ := hst.bounds j hj
          exact ⟨hone, hlt, fun hand => hand.2 rfl⟩
      · rintro ⟨hone, hlt, hnot⟩
        by_cases ht : t = j.id
        · exact .inr ht
        · exact .inl ⟨hone, hlt, fun hmem => hnot ⟨hmem, ht⟩⟩

theorem run_accounts (run : Run Pool.step start trace pool) (h : Inv start)
    (hnext : start.nextJob = 1) : Accounts trace pool := by
  induction run with
  | nil =>
    refine ⟨nodup_nil, nodup_nil, fun t => ?_, fun t => ?_⟩
    · have hnone : ¬(1 ≤ t ∧ t < start.nextJob) := by omega
      simpa [PoolTrace.accepted] using hnone
    · have hnone : ¬(1 ≤ t ∧ t < start.nextJob ∧ t ∉ start.tickets) := by omega
      exact iff_of_false not_mem_nil hnone
  | snoc run hstep ih =>
    have hinv := run_inv run h
    exact ih.step hinv (step_spec hinv hstep).2

theorem run_completed (run : Run Pool.step mid trace pool) (h : Inv mid)
    {kind : CompletionKind} {output : List UInt8} (hphase : mid.phase tk = .completed kind output) :
    pool.phase tk = .completed kind output ∨ pool.phase tk = .taken := by
  have hboth : Inv pool ∧ (pool.phase tk = .completed kind output ∨ pool.phase tk = .taken) := by
    refine run.invariant (I := fun p => Inv p ∧
      (p.phase tk = .completed kind output ∨ p.phase tk = .taken)) ⟨h, .inl hphase⟩ ?_
    rintro pre action answer after ⟨hinv, hbefore⟩ hstep
    obtain ⟨hinv', heffect⟩ := step_spec hinv hstep
    have hfollows := heffect.follows hinv tk
    refine ⟨hinv', ?_⟩
    rcases hbefore with hbefore | hbefore
    · rw [hbefore] at hfollows
      exact hfollows.completed
    · rw [hbefore] at hfollows
      exact .inr hfollows.taken
  exact hboth.2

theorem run_success (run : Run Pool.step start trace pool) (h : Inv start)
    (hstart : ∀ t, (start.phase t).isCompleted = false) {output : List UInt8}
    (hphase : pool.phase tk = .completed .success output) :
    ∃ t ∈ trace, Replies t.before t.action t.answer tk output := by
  induction run with
  | nil => exact absurd (hstart tk) (by simp [hphase, Phase.isCompleted])
  | @snoc trace pre after action answer run hstep ih =>
    have hinv := run_inv run h
    have hfollows := (step_spec hinv hstep).2.follows hinv tk
    rw [hphase] at hfollows
    rcases hfollows.success with hbefore | hreplied
    · obtain ⟨t, ht, hreplies⟩ := ih hbefore
      exact ⟨t, mem_append_left _ ht, hreplies⟩
    · exact ⟨_, mem_append_right _ mem_cons_self, hreplied⟩

theorem run_completions (run : Run Pool.step start trace pool) (h : Inv start)
    (hstart : (start.phase tk).settled = false) :
    trace.completions tk = if (pool.phase tk).settled then 1 else 0 := by
  have hkeep : ∀ pre action answer after, Inv pre →
      Pool.step pre action = some (answer, after) → Inv after :=
    fun _ _ _ _ hinv hstep => (step_spec hinv hstep).1
  rw [← run.countP_enters (P := fun p => (p.phase tk).settled) h hstart]
  · refine countP_congr fun t ht => ?_
    have hmatch := run.forall_mem (P := fun t =>
        (decide (tk ∉ t.before.completedTickets ∧ tk ∈ t.after.completedTickets) =
          (!(t.before.phase tk).settled && (t.after.phase tk).settled))) h hkeep ?_ t ht
    · rw [hmatch]
    · intro pre action answer after hinv hstep
      obtain ⟨hinv', heffect⟩ := step_spec hinv hstep
      rw [(heffect.follows hinv tk).enters_completed_iff, Bool.eq_iff_iff, decide_eq_true_iff,
        mem_completedTickets_iff_phase hinv, mem_completedTickets_iff_phase hinv']
      simp
  · intro pre action answer after hinv hstep
    obtain ⟨hinv', heffect⟩ := step_spec hinv hstep
    exact ⟨hinv', (heffect.follows hinv tk).settled⟩

/-- Tickets are conserved, whatever the owner and the workers do. -/
theorem tickets_conserved (hstart : Pool.create options config channel = .ok start)
    (run : Run Pool.step start trace pool) :
    -- what was accepted is held or was taken, and each ticket once
    (trace.accepted.Nodup ∧ trace.taken.Nodup ∧
      (∀ t, t ∈ pool.tickets ↔ t ∈ trace.accepted ∧ t ∉ trace.taken) ∧
      ∀ t ∈ trace.taken, t ∈ trace.accepted) ∧
    (∀ t ∈ pool.tickets, pool.InOnePlace t) ∧
    -- a ticket becomes completed once, before it is taken
    (∀ t ∈ trace.accepted, trace.completions t =
      if t ∈ pool.completedTickets ∨ t ∈ trace.taken then 1 else 0) ∧
    -- a completion does not change
    (∀ first mid second, trace = first ++ second → Run Pool.step start first mid →
      Run Pool.step mid second pool → ∀ j ∈ mid.jobs, j.id ∈ mid.completedTickets →
        ∀ j' ∈ pool.jobs, j'.id = j.id →
          j'.id ∈ pool.completedTickets ∧ j'.kind = j.kind ∧ j'.output = j.output) ∧
    -- a success carries the bytes of its reply, and what is taken is what the completion carries
    (∀ j ∈ pool.jobs, j.id ∈ pool.completedTickets → j.kind = .success →
      ∃ t ∈ trace, Replies t.before t.action t.answer j.id j.output) ∧
    (∀ t ∈ trace, ∀ tk out capacity content, t.action = .take tk out capacity →
      t.answer = .bytes content → tk ∈ t.before.completedTickets ∧
        ∃ j ∈ t.before.jobs, j.id = tk ∧ j.output = content) ∧
    (pool.reserved = (pool.jobs.map Job.reservation).sum ∧
      pool.reserved ≤ options.maxReservedBytes) ∧
    ((∀ w ∈ pool.workers, w.exited = true) → ∀ t ∈ pool.tickets, t ∈ pool.completedTickets) := by
  obtain ⟨hinv₀, hjobs, hnext⟩ := create_inv hstart
  have hinv := run_inv run hinv₀
  have haccounts := run_accounts run hinv₀ hnext
  obtain ⟨q, c, hst⟩ := hinv.stored
  have hfresh (t : Nat) (ht : 1 ≤ t) : start.phase t = .fresh := by
    rw [phase_of_none (by simp [job?, hjobs, KeyedList.lookup]), if_neg (by omega)]
  have hbounds (t : Nat) (ht : t ∈ pool.tickets) : 1 ≤ t ∧ t < pool.nextJob := by
    obtain ⟨j, hj, rfl⟩ := mem_map.mp ht
    exact hst.bounds j hj
  refine ⟨⟨haccounts.acceptedNodup, haccounts.takenNodup, fun t => ?_, fun t ht => ?_⟩,
    fun t ht => inOnePlace hinv ht, fun t ht => ?_, ?_, ?_, ?_, ⟨hst.reserved, ?_⟩,
    fun hexited t ht => completed_of_exited hinv hexited ht⟩
  · rw [haccounts.mem_accepted, haccounts.mem_taken]
    have := hbounds t
    tauto
  · rw [haccounts.mem_accepted]
    obtain ⟨hone, hlt, -⟩ := (haccounts.mem_taken t).mp ht
    exact ⟨hone, hlt⟩
  · have hbound := (haccounts.mem_accepted t).mp ht
    rw [run_completions run hinv₀ (by rw [hfresh t hbound.1]; rfl)]
    -- a ticket that was accepted is settled when it is completed or taken
    have hsettled : (pool.phase t).settled = true ↔
        t ∈ pool.completedTickets ∨ t ∈ trace.taken := by
      rw [mem_completedTickets_iff_phase hinv, haccounts.mem_taken, mem_tickets_iff]
      cases hj : pool.job? t with
      | none =>
        rw [phase_of_none hj]
        simp [Phase.settled, hbound]
      | some j =>
        rw [phase_of_job? hj]
        split_ifs <;> simp [Phase.settled, Phase.isCompleted]
    simp only [hsettled]
  · rintro first mid second - hfirst hsecond j hj hcompleted j' hj' hid
    have hmiddle := run_inv hfirst hinv₀
    obtain ⟨q', c', hstored'⟩ := hmiddle.stored
    rw [hstored'.tickets_eq.2, hstored'.id_mem_completed_iff hj] at hcompleted
    have hphase : mid.phase j.id = .completed j.kind j.output := by
      rw [phase_of_job? (hstored'.job?_id hj), if_pos hcompleted]
    have hnow := phase_of_job? (hst.job?_id hj')
    rw [hid] at hnow
    have hdone : j'.done = true ∧ j'.kind = j.kind ∧ j'.output = j.output := by
      rcases run_completed hsecond hmiddle hphase with hlater | hlater
      · rw [hlater] at hnow
        split_ifs at hnow with hdone
        injection hnow with hkind houtput
        exact ⟨hdone, hkind.symm, houtput.symm⟩
      · rw [hlater] at hnow
        split_ifs at hnow
    rw [hst.tickets_eq.2, hst.id_mem_completed_iff hj']
    exact hdone
  · intro j hj hcompleted hkind
    rw [hst.tickets_eq.2, hst.id_mem_completed_iff hj] at hcompleted
    refine run_success run hinv₀ (fun t => ?_) ?_
    · rw [phase_of_none (by simp [job?, hjobs, KeyedList.lookup])]
      split_ifs <;> rfl
    · rw [phase_of_job? (hst.job?_id hj), if_pos hcompleted, hkind]
  · refine run.forall_mem hinv₀ (fun _ _ _ _ h hstep => (step_spec h hstep).1) ?_
    intro pre action answer after hbefore hstep tk out capacity content haction hanswer
    subst haction hanswer
    cases (step_spec hbefore hstep).2 with
    | withdraw _ _ htaken => cases htaken
    | take j hj hdone =>
      exact ⟨(mem_completedTickets_iff hbefore).mpr ⟨j, hj, rfl, hdone⟩, j, hj, rfl, rfl⟩
  · rw [← show pool.options = options from ?_]
    · exact hst.limit
    · rw [run_options run hinv₀]
      unfold create at hstart
      split_ifs at hstart
      cases hstart
      rfl

/-- A worker replies to the first of two jobs and its thread ends, so that the second one fails. -/
theorem tickets_conserved_sample : ∃ (start : Pool) (trace : PoolTrace) (pool : Pool),
      Pool.create ⟨1, 8, 16, 16, 64⟩ [] {} = .ok start ∧
      execute Pool.step start
        [.start 0, .initialized 0, .ready 0, .opened, .submit { bytes := [1] } .valid true,
          .submit { bytes := [2] } .valid true, .receive 0 .valid,
          .reply 0 { bytes := [7, 8] } true, .take 1 .valid 2, .exit 0] = some (trace, pool) ∧
      trace.accepted = [1, 2] ∧ trace.taken = [1] ∧ pool.tickets = [2] ∧
      (∀ t ∈ pool.tickets, pool.InOnePlace t) ∧
      ((∀ w ∈ pool.workers, w.exited = true) → ∀ t ∈ pool.tickets, t ∈ pool.completedTickets) := by
  have hcreate : Pool.create ⟨1, 8, 16, 16, 64⟩ [] {} = .ok _ := rfl
  refine ⟨_, ?trace, ?pool, hcreate, ?run, ?accepted, ?taken, ?held,
    (tickets_conserved hcreate (run_of_execute ?run)).2.1,
    (tickets_conserved hcreate (run_of_execute ?run)).2.2.2.2.2.2.2⟩
  case run => rfl
  all_goals rfl

/-! ## The readiness channel -/

theorem create_signalled (h : Pool.create options config channel = .ok p) : Signalled p := by
  unfold create at h
  split_ifs at h with hlimit
  cases h
  refine ⟨⟨fun _ => rfl, fun hopened => (by cases hopened), fun hnil => hlimit (.inl ?_)⟩,
    .inr (.inl rfl)⟩
  simpa [fresh] using hnil

theorem alive_eq_zero_iff (hinv : Inv p) (hentered : Entered p) (hopened : p.opened = true) :
    p.alive = 0 ↔ ∀ w ∈ p.workers, w.exited = true := by
  rw [hinv.staffed.alive, countP_eq_zero]
  refine forall₂_congr fun w hw => ?_
  simp [hentered.started hopened w hw]

/-- The readiness channel of an opened pool tells `poll_ready`, unless it has failed: it is notified
where a completion waits, or no job is left and the pool stops or has no thread left, and where on
Windows the last notification could not be taken back yet. -/
theorem readiness_exact (hstart : Pool.create options config channel = .ok start)
    (run : Run Pool.step start trace pool) (hopened : pool.opened = true)
    (hfailed : pool.readiness.failed = false) : pool.readiness.Tells pool.pollReady ∧
      (pool.pollReady = true ↔ pool.completedTickets ≠ [] ∨
        pool.tickets = [] ∧ (pool.stopping = true ∨ ∀ w ∈ pool.workers, w.exited = true)) := by
  have hboth : Inv pool ∧ Signalled pool := by
    refine run.invariant (I := fun p => Inv p ∧ Signalled p)
      ⟨(create_inv hstart).1, create_signalled hstart⟩ ?_
    rintro pre action answer after ⟨hinv, hready⟩ hstep
    have hdoes := step_does hinv hstep
    exact ⟨hdoes.inv, hdoes.level hready⟩
  obtain ⟨hinv, hready⟩ := hboth
  constructor
  · rw [pollReady_eq_level (.inl hopened)]
    exact hready.tells.resolve_left (by simp [hfailed])
  obtain ⟨q, c, hst⟩ := hinv.stored
  have hhead : pool.completed.head.isSome = true ↔ pool.completedTickets ≠ [] := by
    rw [hst.tickets_eq.2, hst.completed.head, isSome_head?]
  rw [pollReady, Bool.or_eq_true, hhead, ← alive_eq_zero_iff hinv hready.toEntered hopened]
  simp [tickets]

/-- The one worker fails while a job waits, and the completion is taken. -/
theorem readiness_exact_sample : ∃ (start : Pool) (trace : PoolTrace) (pool : Pool),
      Pool.create ⟨1, 8, 16, 16, 64⟩ [] {} = .ok start ∧
      execute Pool.step start
        [.start 0, .initialized 0, .ready 0, .opened, .submit { bytes := [1] } .valid true,
          .receive 0 .valid, .submit { bytes := [2] } .valid true, .reply 0 { bytes := [7] } true,
          .take 1 .valid 1, .exit 0] = some (trace, pool) ∧
      pool.opened = true ∧ pool.readiness.failed = false ∧ pool.readiness.notified = true ∧
      pool.readiness.Tells pool.pollReady := by
  have hcreate : Pool.create ⟨1, 8, 16, 16, 64⟩ [] {} = .ok _ := rfl
  refine ⟨_, ?trace, ?pool, hcreate, ?run, ?opened, ?failed, ?ready,
    (readiness_exact hcreate (run_of_execute ?run) ?opened ?failed).1⟩
  case run => rfl
  all_goals rfl

/-- A channel on Windows whose byte is on its way when it is read for the first time. -/
def slowChannel : ReadinessChannel where
  windows := true
  answers call := if call = 1 then .wouldBlock else .done

/-- The channel stays notified behind the take of the only completion, where `poll_ready` is false. -/
theorem readiness_slowChannel : ∃ (start : Pool) (trace : PoolTrace) (pool : Pool),
      Pool.create ⟨1, 8, 16, 16, 64⟩ [] slowChannel = .ok start ∧
      execute Pool.step start
        [.start 0, .initialized 0, .ready 0, .opened, .submit { bytes := [1] } .valid true,
          .receive 0 .valid, .reply 0 { bytes := [7] } true, .take 1 .valid 1] =
        some (trace, pool) ∧
      pool.opened = true ∧ pool.readiness.failed = false ∧ pool.readiness.notified = true ∧
      pool.pollReady = false :=
  ⟨_, _, _, rfl, rfl, rfl, rfl, rfl, rfl⟩

end Runs

end Pool

end Neri.Runtime
