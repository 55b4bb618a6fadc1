import Neri.Runtime.Proofs.WorkerPoolProofs

/-!
# The readiness of a worker pool

The readiness channel is set at scattered points. Before the pool is opened there are no jobs, and the
level to be told is whether the pool stops, for workers that are not started yet do not count as gone.
From then on it is `poll_ready`: only a submission and the end of a thread change what `poll_ready`
looks at without an update, and neither changes the result.
-/

namespace Neri.Runtime

namespace Pool

variable {p p' : Pool} {j : Job} {i ticket : Nat} {w : Worker} {kind : CompletionKind}
  {change : Worker → Worker}

/-- `poll_ready`, where a pool that is not opened has workers. -/
def level (p : Pool) : Bool :=
  p.completed.head.isSome || (p.jobs.isEmpty && (p.stopping || (p.opened && p.alive = 0)))

/-- What is known of an opened pool and of one that is not. -/
structure Entered (p : Pool) : Prop where
  unopened : p.opened = false → p.jobs.isEmpty = true
  started : p.opened = true → ∀ w ∈ p.workers, w.started = true
  workers : p.workers ≠ []

/-- The readiness channel tells the level, unless it has failed. -/
structure Signalled (p : Pool) : Prop extends Entered p where
  tells : p.readiness.failed = true ∨ p.readiness.Tells p.level

theorem set_tells (channel : ReadinessChannel) (ready : Bool) :
    (channel.set ready).failed = true ∨ (channel.set ready).Tells ready := by
  unfold ReadinessChannel.set
  by_cases hsame : ready = channel.notified
  · rw [if_pos hsame]
    exact .inr (.inl hsame.symm)
  rw [if_neg hsame]
  cases hanswer : channel.answers channel.calls with
  | done => exact .inr (.inl rfl)
  | failed => exact .inl rfl
  | wouldBlock =>
    dsimp only
    split_ifs with hready hwindows
    · exact .inl rfl
    · obtain rfl := Bool.eq_false_iff.mpr hready
      have hnotified : channel.notified = true := by simpa using hsame
      exact .inr (.inr ⟨hnotified, rfl, hwindows, Nat.succ_pos _, hanswer⟩)
    · exact .inr (.inl rfl)

theorem pollReady_eq_level (h : p.opened = true ∨ p.stopping = true) : p.pollReady = p.level := by
  rcases h with h | h <;> simp [pollReady, level, h]

/-- What `finish` and the loops over the jobs leave as it is. -/
def frame (p : Pool) := (p.opened, p.workers, p.stopping, p.alive, p.jobs.isEmpty)

theorem Entered.congr (h : Entered p) (hframe : p'.frame = p.frame) : Entered p' := by
  simp only [frame, Prod.mk.injEq] at hframe
  obtain ⟨hopened, hworkers, -, -, hjobs⟩ := hframe
  exact ⟨hopened ▸ hjobs ▸ h.unopened, hopened ▸ hworkers ▸ h.started, hworkers ▸ h.workers⟩

theorem frame_setJob (p : Pool) (j : Job) : (p.setJob j).frame = p.frame := by
  simp [frame, setJob, KeyedList.replace]

theorem frame_finish (p : Pool) (j : Job) (kind : CompletionKind) :
    (p.finish j kind).frame = p.frame := by
  unfold finish
  split <;> exact frame_setJob (appendCompleted _ j.id) _

theorem frame_failQueued (rounds : Nat) (p : Pool) : (failQueued rounds p).frame = p.frame := by
  induction rounds generalizing p with
  | zero => rfl
  | succ rounds ih =>
    unfold failQueued
    split
    · rw [ih, frame_finish]
    · rfl

theorem frame_cancelJob (p : Pool) (j : Job) : (p.cancelJob j).frame = p.frame := by
  unfold cancelJob
  split_ifs
  · rfl
  · exact frame_setJob ..
  · exact frame_finish ..

theorem frame_cancelAll (tickets : List Nat) (p : Pool) : (p.cancelAll tickets).frame = p.frame := by
  induction tickets generalizing p with
  | nil => rfl
  | cons ticket tickets ih =>
    refine (ih _).trans ?_
    dsimp only
    cases p.job? ticket with
    | none => rfl
    | some j => exact frame_cancelJob p j

theorem Entered.setReadiness (h : Entered p) (hready : p.opened = true ∨ p.stopping = true) :
    Signalled p.setReadiness := by
  refine ⟨⟨h.unopened, h.started, h.workers⟩, ?_⟩
  rw [← pollReady_eq_level (p := p.setReadiness) hready]
  exact set_tells ..

/-- The readiness is set once the pool stops and its jobs are dealt with. -/
theorem Entered.stopped (h : Entered p) (hframe : p'.frame = { p with stopping := true }.frame) :
    Signalled p'.setReadiness := by
  have hentered : Entered { p with stopping := true } := ⟨h.unopened, h.started, h.workers⟩
  refine (hentered.congr hframe).setReadiness (.inr ?_)
  simp only [frame, Prod.mk.injEq] at hframe
  exact hframe.2.2.1

theorem Entered.opened_of_job? (h : Entered p) (hj : p.job? ticket = some j) : p.opened = true := by
  by_contra hopened
  have hnil := List.isEmpty_iff.mp (h.unopened (Bool.not_eq_true _ ▸ hopened))
  rw [job?, hnil] at hj
  cases hj

namespace Signalled

variable (h : Signalled p)
include h

theorem congr (hframe : p'.frame = p.frame) (hcompleted : p'.completed = p.completed)
    (hready : p'.readiness = p.readiness) : Signalled p' := by
  refine ⟨h.toEntered.congr hframe, ?_⟩
  simp only [frame, Prod.mk.injEq] at hframe
  obtain ⟨hopened, -, hstopping, halive, hjobs⟩ := hframe
  have hlevel : p'.level = p.level := by
    rw [level, level, hcompleted, hopened, hstopping, halive, hjobs]
  rw [hready, hlevel]
  exact h.tells

theorem finish {old : Job} (hj : p.job? ticket = some old) : Signalled (p.finish j kind) := by
  have hframe := frame_finish p j kind
  have hopened : (p.finish j kind).opened = true :=
    (congrArg Prod.fst hframe).trans (h.opened_of_job? hj)
  refine ⟨h.toEntered.congr hframe, ?_⟩
  rw [← pollReady_eq_level (.inl hopened)]
  exact set_tells ..

theorem modifyWorker (hstarted : ∀ w, (change w).started = w.started) :
    Signalled (p.modifyWorker i change) := by
  refine ⟨⟨h.unopened, fun hopened => forall_mem_modify (h.started hopened) fun w hw => ?_, ?_⟩,
    h.tells⟩
  · exact (hstarted w).trans (h.started hopened w (List.mem_of_getElem? hw))
  · exact fun hnil => h.workers (List.modify_eq_nil_iff.mp hnil)

theorem cancelJob (hj : p.job? ticket = some j) : Signalled (p.cancelJob j) := by
  unfold Pool.cancelJob
  split_ifs
  · exact h
  · exact h.congr (frame_setJob ..) rfl rfl
  · exact h.finish hj

theorem stopIfUnavailable : Signalled p.stopIfUnavailable := by
  unfold Pool.stopIfUnavailable
  split_ifs
  · exact h
  · exact h.stopped (frame_failQueued _ _)

theorem finishCurrent : Signalled (p.finishCurrent i w kind) := by
  unfold Pool.finishCurrent
  split
  · rename_i hj
    obtain ⟨ticket, -, hj⟩ := Option.bind_eq_some_iff.mp hj
    exact (h.finish hj).modifyWorker fun _ => rfl
  · exact h

theorem failure (text : List UInt8) : Signalled (p.failure i w text) := by
  refine (finishCurrent (h.modifyWorker fun w => ?_)).stopIfUnavailable
  unfold Worker.fail
  split <;> rfl

theorem leave : Signalled (p.leave i w) := by
  unfold Pool.leave
  repeat' split
  all_goals first | exact h.failure _ | exact h.finishCurrent | exact h

/-- Threads end. While a worker is left that can work, its thread is counted. -/
theorem dropThreads {alive : Nat} (hle : alive ≤ p.alive)
    (hinv : Inv { p with alive := alive }.stopIfUnavailable) :
    Signalled { p with alive := alive }.stopIfUnavailable := by
  have hentered : Entered { p with alive := alive } := ⟨h.unopened, h.started, h.workers⟩
  unfold Pool.stopIfUnavailable at hinv ⊢
  split_ifs at hinv ⊢ with hany
  · obtain ⟨w, hmem, hable⟩ := List.any_eq_true.mp hany
    rw [Bool.and_eq_true] at hable
    have hlevel : { p with alive := alive }.level = p.level := by
      cases hopened : p.opened with
      | false => simp [level, hopened]
      | true =>
        have hpos : 0 < alive := by
          rw [show alive = _ from hinv.staffed.alive, List.countP_pos_iff]
          exact ⟨w, hmem, by simp [h.started hopened w hmem, hable.2]⟩
        simp [level, Nat.ne_of_gt hpos, Nat.ne_of_gt (Nat.lt_of_lt_of_le hpos hle)]
    exact ⟨hentered, hlevel ▸ h.tells⟩
  · exact hentered.stopped (frame_failQueued _ _)

theorem exit (hinv : Inv (p.exit i w)) : Signalled (p.exit i w) := by
  have hleft : Signalled ((p.leave i w).modifyWorker i fun w => { w with exited := true }) :=
    h.leave.modifyWorker fun _ => rfl
  exact hleft.dropThreads (Nat.sub_le _ _) hinv

theorem start (hopened : p.opened = false) {alive : Nat} :
    Signalled { p.modifyWorker i change with alive := alive } := by
  refine ⟨⟨h.unopened, fun hopened' => absurd (hopened.symm.trans hopened') (by decide), ?_⟩, ?_⟩
  · exact fun hnil => h.workers (List.modify_eq_nil_iff.mp hnil)
  · simpa [level, Pool.modifyWorker, hopened] using h.tells

/-- All the threads run when the pool is opened, so that some are counted. -/
theorem openPool (hstaffed : Staffed p)
    (hall : ∀ w ∈ p.workers, w.started = true ∧ w.exited = false) :
    Signalled { p with opened := true } := by
  refine ⟨⟨fun hopened => (by cases hopened), fun _ w hw => (hall w hw).1, h.workers⟩, ?_⟩
  have hpos : 0 < p.alive := by
    obtain ⟨w, hw⟩ := List.exists_mem_of_ne_nil _ h.workers
    rw [hstaffed.alive, List.countP_pos_iff]
    exact ⟨w, hw, by simp [hall w hw]⟩
  simpa [level, Nat.ne_of_gt hpos] using h.tells

theorem accept (hopened : p.opened = true) (hstopping : p.stopping = false)
    (halive : p.alive ≠ 0) : Signalled (p.accept j) := by
  refine ⟨⟨fun hopened' => absurd (hopened.symm.trans hopened') (by decide), h.started, h.workers⟩, ?_⟩
  simpa [level, Pool.accept, appendQueued, hstopping, halive] using h.tells

theorem release (hopened : p.opened = true) : Signalled (p.release j).setReadiness :=
  Entered.setReadiness ⟨fun hopened' => absurd (hopened.symm.trans hopened') (by decide), h.started,
    h.workers⟩ (.inl hopened)

end Signalled

end Pool

end Neri.Runtime
