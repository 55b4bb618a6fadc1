import Neri.Runtime.WorkerPool

/-!
# The invariant of a worker pool

The records of the jobs say where each job is, the two queues hold the jobs that their records say
they hold, and the workers have the jobs that are active. Each operation is shown to keep this from
what it does to one record.
-/

namespace Neri.Runtime

open IntrusiveQueue List Option

variable {p' : Pool} {j' : Job} {k t : Nat} {change : Worker → Worker} {w : Worker}

/-- What holds of a worker by itself. -/
structure Worker.Sound (w : Worker) : Prop where
  started : w.exited = true → w.started = true
  current : w.current ≠ none → w.heap = true ∧ w.ready = true ∧ w.failed = false ∧ w.exited = false

@[simp] theorem Job.finished_id (j : Job) (kind : CompletionKind) : (j.finished kind).id = j.id := rfl

@[simp] theorem Worker.fail_current (w : Worker) (message : List UInt8) :
    (w.fail message).current = w.current := by
  unfold Worker.fail; split <;> rfl

@[simp] theorem Worker.fail_started (w : Worker) (message : List UInt8) :
    (w.fail message).started = w.started := by
  unfold Worker.fail; split <;> rfl

@[simp] theorem Worker.fail_exited (w : Worker) (message : List UInt8) :
    (w.fail message).exited = w.exited := by
  unfold Worker.fail; split <;> rfl

namespace Pool

variable {p : Pool} {q c : List Nat} {j old : Job} {i tk : Nat} {kind : CompletionKind}

/-! ## The records and the queues -/

/-- The queue holds `q`, the list of completions holds `c`, and both agree with the records. -/
@[mk_iff] structure Stored (p : Pool) (q c : List Nat) : Prop where
  nodup : (p.jobs.map Job.id).Nodup
  bounds : ∀ j ∈ p.jobs, 1 ≤ j.id ∧ j.id < p.nextJob
  queued : Holds p.links p.queued q
  completed : Holds p.links p.completed c
  mem_queued : ∀ t, t ∈ q ↔ ∃ j ∈ p.jobs, j.id = t ∧ j.active = false ∧ j.done = false
  mem_completed : ∀ t, t ∈ c ↔ ∃ j ∈ p.jobs, j.id = t ∧ j.done = true
  /-- Only a success has an output. -/
  output : ∀ j ∈ p.jobs, j.done = false ∨ j.kind ≠ .success → j.output = []
  reserved : p.reserved = (p.jobs.map Job.reservation).sum
  limit : p.reserved ≤ p.options.maxReservedBytes

/-- The parts of a pool that the records and the queues make up. -/
def stock (p : Pool) :=
  (p.options, p.jobs, p.links, p.queued, p.completed, p.nextJob, p.reserved)

namespace Stored

variable (h : Stored p q c)

include h

theorem congr (hsame : p'.stock = p.stock) : Stored p' q c := by
  simp only [stock, Prod.mk.injEq] at hsame
  obtain ⟨ho, hj, hl, hq, hc, hn, hr⟩ := hsame
  rw [stored_iff] at h ⊢
  rwa [ho, hj, hl, hq, hc, hn, hr]

theorem job?_eq_some_iff : p.job? tk = some j ↔ j ∈ p.jobs ∧ j.id = tk :=
  KeyedList.lookup_eq_some_iff h.nodup

theorem job?_id (hj : j ∈ p.jobs) : p.job? j.id = some j :=
  h.job?_eq_some_iff.mpr ⟨hj, rfl⟩

/-- One record is written over. -/
theorem job?_of_replace (hjobs : p'.jobs = KeyedList.replace Job.id j p.jobs) (hold : old ∈ p.jobs)
    (hid : j.id = old.id) (t : Nat) : p'.job? t = if t = j.id then some j else p.job? t := by
  unfold job?
  rw [hjobs, KeyedList.lookup_replace h.nodup hold hid]

theorem eq_of_id (hj : j ∈ p.jobs) (hj' : j' ∈ p.jobs) (hid : j.id = j'.id) : j = j' :=
  KeyedList.eq_of_key_eq h.nodup hj hj' hid

theorem id_mem_iff {place : Job → Prop} {l : List Nat}
    (hl : ∀ t, t ∈ l ↔ ∃ j ∈ p.jobs, j.id = t ∧ place j) (hj : j ∈ p.jobs) : j.id ∈ l ↔ place j := by
  rw [hl]
  constructor
  · rintro ⟨j', hj', hid, hplace⟩
    rwa [← h.eq_of_id hj' hj hid]
  · exact fun hplace => ⟨j, hj, rfl, hplace⟩

theorem id_mem_queued_iff (hj : j ∈ p.jobs) : j.id ∈ q ↔ j.active = false ∧ j.done = false :=
  h.id_mem_iff h.mem_queued hj

theorem id_mem_completed_iff (hj : j ∈ p.jobs) : j.id ∈ c ↔ j.done = true :=
  h.id_mem_iff h.mem_completed hj

theorem not_mem_completed (hq : tk ∈ q) : tk ∉ c := by
  obtain ⟨j, hj, rfl, -, hdone⟩ := (h.mem_queued tk).mp hq
  rw [h.id_mem_completed_iff hj, hdone]
  exact Bool.false_ne_true

theorem not_mem_queued (hc : tk ∈ c) : tk ∉ q :=
  fun hq => h.not_mem_completed hq hc

/-- One record is written over, and the queues follow what it says now. -/
theorem replace {links : Nat → Link Nat} {queued completed : Queue Nat} {q' c' : List Nat}
    (hold : old ∈ p.jobs) (hid : j.id = old.id) (hreservation : j.reservation = old.reservation)
    (hq : Holds links queued q') (hc : Holds links completed c')
    (hmemq : ∀ t, t ∈ q' ↔ (t = j.id ∧ j.active = false ∧ j.done = false) ∨ t ≠ j.id ∧ t ∈ q)
    (hmemc : ∀ t, t ∈ c' ↔ (t = j.id ∧ j.done = true) ∨ t ≠ j.id ∧ t ∈ c)
    (houtput : j.done = false ∨ j.kind ≠ .success → j.output = []) :
    Stored { p.setJob j with links := links, queued := queued, completed := completed } q' c' := by
  have hmem {other : Job} : other ∈ KeyedList.replace Job.id j p.jobs ↔
      other = j ∨ other ∈ p.jobs ∧ other.id ≠ j.id := KeyedList.mem_replace hold hid
  have hplaces (place : Job → Prop) (l l' : List Nat)
      (hl : ∀ t, t ∈ l ↔ ∃ j ∈ p.jobs, j.id = t ∧ place j)
      (hl' : ∀ t, t ∈ l' ↔ (t = j.id ∧ place j) ∨ t ≠ j.id ∧ t ∈ l) (t : Nat) :
      t ∈ l' ↔ ∃ other ∈ KeyedList.replace Job.id j p.jobs, other.id = t ∧ place other := by
    rw [hl']
    constructor
    · rintro (⟨rfl, hplace⟩ | ⟨hne, ht⟩)
      · exact ⟨j, hmem.mpr (.inl rfl), rfl, hplace⟩
      · obtain ⟨other, hother, rfl, hplace⟩ := (hl t).mp ht
        exact ⟨other, hmem.mpr (.inr ⟨hother, hne⟩), rfl, hplace⟩
    · rintro ⟨other, hother, rfl, hplace⟩
      rcases hmem.mp hother with rfl | ⟨hother, hne⟩
      · exact .inl ⟨rfl, hplace⟩
      · exact .inr ⟨hne, (hl _).mpr ⟨other, hother, rfl, hplace⟩⟩
  refine ⟨?_, ?_, hq, hc, ?_, ?_, ?_, ?_, h.limit⟩
  · rw [setJob, KeyedList.map_key_replace]
    exact h.nodup
  · intro other hother
    rcases hmem.mp hother with rfl | ⟨hother, -⟩
    · rw [hid]
      exact h.bounds old hold
    · exact h.bounds other hother
  · exact hplaces (fun j => j.active = false ∧ j.done = false) q q' h.mem_queued hmemq
  · exact hplaces (fun j => j.done = true) c c' h.mem_completed hmemc
  · intro other hother
    rcases hmem.mp hother with rfl | ⟨hother, -⟩
    · exact houtput
    · exact h.output other hother
  · rw [setJob, KeyedList.map_replace h.nodup hold hid hreservation]
    exact h.reserved

theorem setJob (hold : old ∈ p.jobs) (hid : j.id = old.id)
    (hreservation : j.reservation = old.reservation) (hact : j.active = old.active)
    (hdone : j.done = old.done) (houtput : j.done = false ∨ j.kind ≠ .success → j.output = []) :
    Stored (p.setJob j) q c := by
  refine h.replace hold hid hreservation h.queued h.completed (fun t => ?_) (fun t => ?_) houtput
  · by_cases ht : t = j.id
    · rw [ht, hid, h.id_mem_queued_iff hold]
      simp [hact, hdone]
    · simp [ht]
  · by_cases ht : t = j.id
    · rw [ht, hid, h.id_mem_completed_iff hold]
      simp [hdone]
    · simp [ht]

theorem finish (hold : old ∈ p.jobs) (hid : j.id = old.id)
    (hreservation : j.reservation = old.reservation) (hact : j.active = old.active)
    (hdone : old.done = false) (kind : CompletionKind) :
    Stored (p.finish j kind) (if j.active then q else q.erase j.id) (c ++ [j.id]) := by
  have hnotc : j.id ∉ c := by
    rw [hid, h.id_mem_completed_iff hold, hdone]
    exact Bool.false_ne_true
  have hmemc (t : Nat) : t ∈ c ++ [j.id] ↔
      (t = (j.finished kind).id ∧ (j.finished kind).done = true) ∨
        t ≠ (j.finished kind).id ∧ t ∈ c := by
    by_cases ht : t = j.id
    · simp [ht, Job.finished]
    · simp [ht, Job.finished]
  have houtput : (j.finished kind).done = false ∨ (j.finished kind).kind ≠ .success →
      (j.finished kind).output = [] := by
    rintro (hfalse | hkind)
    · exact absurd hfalse (by simp [Job.finished])
    · exact if_neg hkind
  unfold Pool.finish
  by_cases ha : j.active = true
  · rw [if_pos ha, if_pos ha]
    have hnotq : j.id ∉ q := by
      rw [hid, h.id_mem_queued_iff hold, ← hact, ha]
      simp
    have hqueued : Holds (append p.links p.completed j.id).1 p.queued q :=
      h.queued.congr fun t ht => h.completed.append_frame (h.not_mem_completed ht)
        (ne_of_mem_of_not_mem ht hnotq)
    refine (h.replace (j := j.finished kind) hold hid hreservation hqueued
      (h.completed.append hnotc) (fun t => ?_) hmemc houtput).congr rfl
    by_cases ht : t = j.id
    · simp [ht, hnotq, Job.finished]
    · simp [ht, Job.finished]
  · rw [if_neg ha, if_neg ha]
    have hinq : j.id ∈ q := by
      rw [hid, h.id_mem_queued_iff hold, ← hact]
      exact ⟨by simpa using ha, hdone⟩
    have hcompleted : Holds (unlink p.links p.queued j.id).1 p.completed c :=
      h.completed.congr fun t ht => h.queued.unlink_frame hinq (h.not_mem_queued ht)
    have hqueued : Holds (append (unlink p.links p.queued j.id).1 p.completed j.id).1
        (unlink p.links p.queued j.id).2 (q.erase j.id) := by
      refine (h.queued.unlink hinq).congr fun t ht => ?_
      obtain ⟨hne, htq⟩ := h.queued.nodup.mem_erase_iff.mp ht
      exact hcompleted.append_frame (h.not_mem_completed htq) hne
    refine (h.replace (j := j.finished kind) hold hid hreservation hqueued
      (hcompleted.append hnotc) (fun t => ?_) hmemc houtput).congr rfl
    rw [h.queued.nodup.mem_erase_iff]
    by_cases ht : t = j.id
    · simp [ht, Job.finished]
    · simp [ht, Job.finished]

theorem activate (hj : j ∈ p.jobs) (hact : j.active = false) (hdone : j.done = false) :
    Stored ((p.unlinkQueued j.id).setJob { j with active := true }) (q.erase j.id) c := by
  have hinq : j.id ∈ q := (h.id_mem_queued_iff hj).mpr ⟨hact, hdone⟩
  have hcompleted : Holds (unlink p.links p.queued j.id).1 p.completed c :=
    h.completed.congr fun t ht => h.queued.unlink_frame hinq (h.not_mem_queued ht)
  refine (h.replace (j := { j with active := true }) hj rfl rfl (h.queued.unlink hinq) hcompleted
    (fun t => ?_) (fun t => ?_) (fun _ => h.output j hj (.inl hdone))).congr rfl
  · rw [h.queued.nodup.mem_erase_iff]
    by_cases ht : t = j.id <;> simp [ht]
  · by_cases ht : t = j.id
    · simp [ht, hdone, h.id_mem_completed_iff hj]
    · simp [ht]

theorem accept (reservation : Nat) (input : List UInt8) (hnext : 1 ≤ p.nextJob)
    (hlimit : p.reserved + reservation ≤ p.options.maxReservedBytes) :
    Stored (p.accept { id := p.nextJob, reservation := reservation, input := input })
      (q ++ [p.nextJob]) c := by
  have hnew : ∀ j ∈ p.jobs, j.id ≠ p.nextJob := fun j hj => Nat.ne_of_lt (h.bounds j hj).2
  have hnotq : p.nextJob ∉ q := fun hq => by
    obtain ⟨j, hj, hid, -⟩ := (h.mem_queued _).mp hq
    exact hnew j hj hid
  have hnotc : p.nextJob ∉ c := fun hc => by
    obtain ⟨j, hj, hid, -⟩ := (h.mem_completed _).mp hc
    exact hnew j hj hid
  refine ⟨?_, ?_, h.queued.append hnotq, ?_, ?_, ?_, ?_, ?_, hlimit⟩
  · simp only [Pool.accept, appendQueued, map_append, map_cons, map_nil]
    refine nodup_append.mpr ⟨h.nodup, nodup_singleton _, ?_⟩
    rintro a ha b hb rfl
    obtain ⟨j, hj, hid⟩ := mem_map.mp ha
    exact hnew j hj (hid.trans (mem_singleton.mp hb))
  · intro j hj
    rcases mem_append.mp hj with hj | hj
    · exact ⟨(h.bounds j hj).1, Nat.lt_succ_of_lt (h.bounds j hj).2⟩
    · rw [mem_singleton.mp hj]
      exact ⟨hnext, Nat.lt_succ_self _⟩
  · exact h.completed.congr fun t ht =>
      h.queued.append_frame (h.not_mem_queued ht) (ne_of_mem_of_not_mem ht hnotc)
  · intro t
    rw [mem_append, h.mem_queued]
    simp only [Pool.accept, appendQueued, mem_append, mem_singleton, or_and_right,
      exists_or, exists_eq_left, and_self, and_true]
    exact or_congr_right eq_comm
  · intro t
    rw [h.mem_completed]
    simp [Pool.accept, appendQueued, or_and_right, exists_or]
  · intro j hj
    rcases mem_append.mp hj with hj | hj
    · exact h.output j hj
    · rw [mem_singleton.mp hj]
      exact fun _ => rfl
  · simp [Pool.accept, appendQueued, h.reserved]

theorem release (hj : j ∈ p.jobs) (hdone : j.done = true) :
    Stored (p.release j) q (c.erase j.id) := by
  have hinc : j.id ∈ c := (h.id_mem_completed_iff hj).mpr hdone
  have hsum := KeyedList.sum_remove h.nodup hj Job.reservation
  refine ⟨KeyedList.nodup_remove h.nodup, ?_, ?_, h.completed.unlink hinc, ?_, ?_, ?_, ?_, ?_⟩
  · exact fun other hother => h.bounds other (KeyedList.mem_remove.mp hother).1
  · exact h.queued.congr fun t ht => h.completed.unlink_frame hinc (h.not_mem_completed ht)
  · intro t
    rw [h.mem_queued]
    constructor
    · rintro ⟨other, hother, rfl, hact, hother'⟩
      refine ⟨other, KeyedList.mem_remove.mpr ⟨hother, fun hid => ?_⟩, rfl, hact, hother'⟩
      rw [h.eq_of_id hother hj hid, hdone] at hother'
      exact Bool.noConfusion hother'
    · rintro ⟨other, hother, hrest⟩
      exact ⟨other, (KeyedList.mem_remove.mp hother).1, hrest⟩
  · intro t
    rw [h.completed.nodup.mem_erase_iff, h.mem_completed]
    constructor
    · rintro ⟨hne, other, hother, rfl, hrest⟩
      exact ⟨other, KeyedList.mem_remove.mpr ⟨hother, hne⟩, rfl, hrest⟩
    · rintro ⟨other, hother, rfl, hrest⟩
      obtain ⟨hother, hne⟩ := KeyedList.mem_remove.mp hother
      exact ⟨hne, other, hother, rfl, hrest⟩
  · exact fun other hother => h.output other (KeyedList.mem_remove.mp hother).1
  · show p.reserved - j.reservation =
      ((KeyedList.remove Job.id j.id p.jobs).map Job.reservation).sum
    rw [h.reserved, hsum, Nat.add_sub_cancel_left]
  · exact Nat.le_trans (Nat.sub_le _ _) h.limit

end Stored

@[simp] theorem finish_jobs :
    (p.finish j kind).jobs = KeyedList.replace Job.id (j.finished kind) p.jobs := by
  unfold finish; split <;> rfl

@[simp] theorem finish_workers : (p.finish j kind).workers = p.workers := by
  unfold finish; split <;> rfl

@[simp] theorem finish_alive : (p.finish j kind).alive = p.alive := by
  unfold finish; split <;> rfl

@[simp] theorem finish_stopping : (p.finish j kind).stopping = p.stopping := by
  unfold finish; split <;> rfl

@[simp] theorem finish_options : (p.finish j kind).options = p.options := by
  unfold finish; split <;> rfl

@[simp] theorem finish_nextJob : (p.finish j kind).nextJob = p.nextJob := by
  unfold finish; split <;> rfl

/-- A job is completed, and a worker changes. -/
structure Finishes (p : Pool) (j : Job) (kind : CompletionKind) (p' : Pool) : Prop where
  jobs : p'.jobs = KeyedList.replace Job.id (j.finished kind) p.jobs
  options : p'.options = p.options
  nextJob : p'.nextJob = p.nextJob
  stopping : p'.stopping = p.stopping

theorem finishes : Finishes p j kind ((p.finish j kind).modifyWorker i change) :=
  ⟨finish_jobs, @finish_options p j kind, @finish_nextJob p j kind, @finish_stopping p j kind⟩

/-! ## The workers and their jobs -/

/-- The active jobs that are not completed are the current jobs of the workers. -/
@[mk_iff] structure Assigned (p : Pool) : Prop where
  current : ∀ i t, p.ActiveOn i t → ∃ j ∈ p.jobs, j.id = t ∧ j.active = true ∧ j.done = false
  unique : ∀ i k t, p.ActiveOn i t → p.ActiveOn k t → i = k
  covered : ∀ j ∈ p.jobs, j.active = true → j.done = false → ∃ i, p.ActiveOn i j.id

theorem Assigned.congr (h : Assigned p) (hjobs : p'.jobs = p.jobs)
    (hact : ∀ k t, p'.ActiveOn k t ↔ p.ActiveOn k t) : Assigned p' := by
  simp only [assigned_iff, hjobs, hact]
  exact ⟨h.current, h.unique, h.covered⟩

/-- One record is written over. Its worker must be the only one that has the job, if the job is
active, and no worker may have it otherwise. -/
theorem Assigned.replace (h : Assigned p)
    (hjobs : p'.jobs = KeyedList.replace Job.id j p.jobs) (hold : old ∈ p.jobs)
    (hid : j.id = old.id) (hother : ∀ k t, t ≠ j.id → (p'.ActiveOn k t ↔ p.ActiveOn k t))
    (hthis : (j.active = true ∧ j.done = false ∧ ∃! k, p'.ActiveOn k j.id) ∨
      (j.active = true → j.done = true) ∧ ∀ k, ¬p'.ActiveOn k j.id) : Assigned p' := by
  have hmem {other : Job} : other ∈ p'.jobs ↔ other = j ∨ other ∈ p.jobs ∧ other.id ≠ j.id := by
    rw [hjobs]
    exact KeyedList.mem_replace hold hid
  refine ⟨?_, ?_, ?_⟩
  · intro k t hk
    by_cases ht : t = j.id
    · subst ht
      rcases hthis with ⟨hact, hdone, -⟩ | ⟨-, hnone⟩
      · exact ⟨j, hmem.mpr (.inl rfl), rfl, hact, hdone⟩
      · exact absurd hk (hnone k)
    · obtain ⟨other, hmem', rfl, hflags⟩ := h.current k t ((hother k t ht).mp hk)
      exact ⟨other, hmem.mpr (.inr ⟨hmem', ht⟩), rfl, hflags⟩
  · intro k l t hk hl
    by_cases ht : t = j.id
    · subst ht
      rcases hthis with ⟨-, -, hone⟩ | ⟨-, hnone⟩
      · exact hone.unique hk hl
      · exact absurd hk (hnone k)
    · exact h.unique k l t ((hother k t ht).mp hk) ((hother l t ht).mp hl)
  · intro other hmem' hact hdone
    rcases hmem.mp hmem' with rfl | ⟨hmem', hne⟩
    · rcases hthis with ⟨-, -, hone⟩ | ⟨hdone', -⟩
      · exact hone.exists
      · exact absurd (hdone' hact) (by simp [hdone])
    · obtain ⟨k, hk⟩ := h.covered other hmem' hact hdone
      exact ⟨k, (hother k _ hne).mpr hk⟩

/-- The workers are sound, and those whose thread runs are counted. -/
structure Staffed (p : Pool) : Prop where
  sound : ∀ w ∈ p.workers, w.Sound
  alive : p.alive = p.workers.countP fun w => w.started && !w.exited

theorem activeOn_congr (h : p'.workers = p.workers) : p'.ActiveOn k t ↔ p.ActiveOn k t := by
  unfold ActiveOn
  rw [h]

theorem activeOn_modifyWorker : (p.modifyWorker i change).ActiveOn k t ↔
      if k = i then ∃ w, p.workers[i]? = some w ∧ (change w).current = some t
      else p.ActiveOn k t := by
  unfold ActiveOn modifyWorker
  rw [getElem?_modify]
  by_cases hk : k = i
  · subst hk
    simp only [if_true, Option.map_eq_map, Option.map_eq_some_iff]
    constructor
    · rintro ⟨w, ⟨w', hw', rfl⟩, hcurrent⟩
      exact ⟨w', hw', hcurrent⟩
    · rintro ⟨w, hw, hcurrent⟩
      exact ⟨change w, ⟨w, hw, rfl⟩, hcurrent⟩
  · have hik : i ≠ k := Ne.symm hk
    simp [hk, hik]

theorem activeOn_modifyWorker_of_current
    (hw : p.workers[i]? = some w) (hcurrent : (change w).current = w.current) :
    (p.modifyWorker i change).ActiveOn k t ↔ p.ActiveOn k t := by
  rw [activeOn_modifyWorker]
  by_cases hk : k = i
  · simp [hk, ActiveOn, hw, hcurrent]
  · rw [if_neg hk]

/-! ### One worker changes -/

theorem countP_modify {α : Type} {P : α → Bool} {f : α → α} {l : List α} {i : Nat} {a : α}
    (h : l[i]? = some a) : (l.modify i f).countP P + (if P a then 1 else 0) =
      l.countP P + (if P (f a) then 1 else 0) := by
  induction l generalizing i with
  | nil => simp at h
  | cons b l ih =>
    cases i with
    | zero =>
      obtain rfl : b = a := by simpa using h
      simp only [modify_zero_cons, countP_cons]
      omega
    | succ i =>
      have := ih (by simpa using h)
      simp only [modify_succ_cons, countP_cons]
      omega

theorem forall_mem_modify {α : Type} {P : α → Prop} {change : α → α} {l : List α} {i : Nat}
    (hall : ∀ a ∈ l, P a) (hchange : ∀ a, l[i]? = some a → P (change a)) :
    ∀ a ∈ l.modify i change, P a := by
  intro a ha
  obtain ⟨k, hk⟩ := mem_iff_getElem?.mp ha
  rw [getElem?_modify] at hk
  by_cases hik : i = k
  · subst hik
    obtain ⟨b, hb, rfl⟩ : ∃ b, l[i]? = some b ∧ change b = a := by simpa using hk
    exact hchange b hb
  · simp only [if_neg hik, id_map'] at hk
    exact hall a (mem_iff_getElem?.mpr ⟨k, hk⟩)

theorem Staffed.modifyThread (h : Staffed p) (hw : p.workers[i]? = some w)
    (hsound : (change w).Sound) {alive : Nat}
    (halive : alive + (if w.started && !w.exited then 1 else 0) =
      p.alive + (if (change w).started && !(change w).exited then 1 else 0)) :
    Staffed { p.modifyWorker i change with alive := alive } := by
  refine ⟨forall_mem_modify h.sound fun w' hw' => ?_, ?_⟩
  · rw [some.inj (hw'.symm.trans hw)]
    exact hsound
  · rw [h.alive] at halive
    exact Nat.add_right_cancel (halive.trans (countP_modify hw).symm)

theorem Staffed.modifyWorker (h : Staffed p)
    (hw : p.workers[i]? = some w) (hsound : (change w).Sound)
    (hstarted : (change w).started = w.started) (hexited : (change w).exited = w.exited) :
    Staffed (p.modifyWorker i change) :=
  h.modifyThread hw hsound (by rw [hstarted, hexited])

theorem Staffed.congr (h : Staffed p) (hworkers : p'.workers = p.workers)
    (halive : p'.alive = p.alive) : Staffed p' :=
  ⟨hworkers ▸ h.sound, by rw [halive, hworkers, h.alive]⟩

/-! ## Jobs that end without a reply -/

/-- What a record becomes where nothing is replied: it is cancelled, or completed otherwise than by
a success. -/
inductive Withdrawn : Job → Job → Prop
  | same (j : Job) : Withdrawn j j
  | cancelled {j : Job} : j.done = false → Withdrawn j { j with cancelled := true }
  | finished {j : Job} (flag : Bool) {kind : CompletionKind} : j.done = false → kind ≠ .success →
      Withdrawn j ({ j with cancelled := flag }.finished kind)

theorem Withdrawn.trans {j₁ j₂ j₃ : Job} (h : Withdrawn j₁ j₂) (h' : Withdrawn j₂ j₃) :
    Withdrawn j₁ j₃ := by
  cases h with
  | same => exact h'
  | cancelled hdone =>
    cases h' with
    | same => exact .cancelled hdone
    | cancelled _ => exact .cancelled hdone
    | finished flag _ hkind => exact .finished flag hdone hkind
  | finished flag hdone hkind =>
    cases h' with
    | same => exact .finished flag hdone hkind
    | cancelled hdone' => exact absurd hdone' (by simp [Job.finished])
    | finished _ hdone' _ => exact absurd hdone' (by simp [Job.finished])

/-- Nothing was accepted, received, replied or taken. -/
structure Withdraws (p p' : Pool) : Prop where
  options : p'.options = p.options
  nextJob : p'.nextJob = p.nextJob
  job : ∀ t, ∃ change, p'.job? t = (p.job? t).map change ∧
    ∀ j, p.job? t = some j → Withdrawn j (change j)

namespace Withdraws

theorem of_jobs (hoptions : p'.options = p.options) (hnext : p'.nextJob = p.nextJob)
    (hjobs : p'.jobs = p.jobs) : Withdraws p p' := by
  refine ⟨hoptions, hnext, fun t => ⟨id, ?_, fun j _ => .same j⟩⟩
  unfold job?
  rw [hjobs, Option.map_id_fun, id]

theorem refl (p : Pool) : Withdraws p p := of_jobs rfl rfl rfl

theorem trans {p₁ p₂ p₃ : Pool} (h : Withdraws p₁ p₂) (h' : Withdraws p₂ p₃) : Withdraws p₁ p₃ := by
  refine ⟨h'.options.trans h.options, h'.nextJob.trans h.nextJob, fun t => ?_⟩
  obtain ⟨change, hchange, hj⟩ := h.job t
  obtain ⟨change', hchange', hj'⟩ := h'.job t
  refine ⟨change' ∘ change, ?_, fun j hfound => (hj j hfound).trans (hj' _ ?_)⟩
  · rw [hchange', hchange, Option.map_map]
  · rw [hchange, hfound, map_some]

/-- One record is withdrawn. -/
theorem replace {old : Job} (h : Stored p q c) (hold : old ∈ p.jobs)
    (hjobs : p'.jobs = KeyedList.replace Job.id j p.jobs) (hid : j.id = old.id)
    (hoptions : p'.options = p.options) (hnext : p'.nextJob = p.nextJob)
    (hj : Withdrawn old j) : Withdraws p p' := by
  refine ⟨hoptions, hnext, fun t => ?_⟩
  rw [h.job?_of_replace hjobs hold hid]
  by_cases ht : t = j.id
  · rw [if_pos ht, ht, hid, h.job?_id hold]
    refine ⟨fun _ => j, rfl, fun other hother => ?_⟩
    rwa [← some.inj hother]
  · rw [if_neg ht]
    exact (refl p).job t

/-- A record that is withdrawn is active as before, and completed if it was. -/
theorem of_job? (h : Withdraws p p') (hj' : p'.job? tk = some j') :
    ∃ j, p.job? tk = some j ∧ Withdrawn j j' := by
  obtain ⟨change, hchange, hrel⟩ := h.job tk
  rw [hchange] at hj'
  obtain ⟨j, hj, rfl⟩ := map_eq_some_iff.mp hj'
  exact ⟨j, hj, hrel j hj⟩

end Withdraws

theorem Withdrawn.active (h : Withdrawn j j') : j'.active = j.active := by
  cases h <;> rfl

theorem Withdrawn.done (h : Withdrawn j j') (hdone : j.done = true) : j' = j := by
  cases h with
  | same => rfl
  | cancelled hdone' => exact absurd hdone' (by simp [hdone])
  | finished _ hdone' _ => exact absurd hdone' (by simp [hdone])

/-! ## The invariant -/

/-- The invariant within a call. -/
structure Base (p : Pool) : Prop where
  stored : ∃ q c, Stored p q c
  assigned : Assigned p
  staffed : Staffed p
  nextJob : 1 ≤ p.nextJob

/-- Nothing waits in the queue. -/
def Drained (p : Pool) : Prop := ∀ j ∈ p.jobs, j.active = false → j.done = true

structure Inv (p : Pool) : Prop extends Base p where
  /-- A pool that stops has nothing in its queue. -/
  drained : p.stopping = true → Drained p
  /-- A pool without a worker that can work stops. -/
  closed : (∀ w ∈ p.workers, w.failed = true ∨ w.exited = true) → p.stopping = true

namespace Base

/-- Parts of the pool that the invariant within a call does not see. -/
theorem congr (h : Base p) (hstock : p'.stock = p.stock) (hworkers : p'.workers = p.workers)
    (halive : p'.alive = p.alive) : Base p' := by
  obtain ⟨q, c, hst⟩ := h.stored
  refine ⟨⟨q, c, hst.congr hstock⟩, ?_, h.staffed.congr hworkers halive, ?_⟩
  all_goals simp only [stock, Prod.mk.injEq] at hstock
  · exact h.assigned.congr hstock.2.1 fun k t => activeOn_congr hworkers
  · rw [hstock.2.2.2.2.2.1]
    exact h.nextJob

theorem setReadiness (h : Base p) : Base p.setReadiness :=
  h.congr rfl rfl rfl

theorem mem_of_job? (h : Base p) (hj : p.job? tk = some j) : j ∈ p.jobs ∧ j.id = tk := by
  obtain ⟨q, c, hst⟩ := h.stored
  exact hst.job?_eq_some_iff.mp hj

theorem flags_of_activeOn (h : Base p) (hj : j ∈ p.jobs) (hi : p.ActiveOn i j.id) :
    j.active = true ∧ j.done = false := by
  obtain ⟨q, c, hst⟩ := h.stored
  obtain ⟨other, hother, hid, hflags⟩ := h.assigned.current i j.id hi
  rwa [hst.eq_of_id hother hj hid] at hflags

/-- No worker has a job that waits in the queue or is completed. -/
theorem not_activeOn (h : Base p) (hj : j ∈ p.jobs) (hflags : j.active = false ∨ j.done = true) :
    ∀ k, ¬p.ActiveOn k j.id := by
  intro k hk
  obtain ⟨hact, hdone⟩ := h.flags_of_activeOn hj hk
  rcases hflags with hflag | hflag
  · exact absurd hact (by simp [hflag])
  · exact absurd hflag (by simp [hdone])

theorem finish_queued (h : Base p) (hj : j ∈ p.jobs) (hact : j.active = false)
    (hdone : j.done = false) (flag : Bool) (kind : CompletionKind) (hkind : kind ≠ .success) :
    Base (p.finish { j with cancelled := flag } kind) ∧
      Withdraws p (p.finish { j with cancelled := flag } kind) := by
  obtain ⟨q, c, hst⟩ := h.stored
  constructor
  · refine ⟨⟨_, _, hst.finish (j := { j with cancelled := flag }) hj rfl rfl rfl hdone kind⟩,
      ?_, ?_, ?_⟩
    · refine h.assigned.replace finish_jobs hj rfl (fun k t _ => activeOn_congr finish_workers)
        (.inr ⟨fun _ => rfl, fun k => ?_⟩)
      rw [activeOn_congr finish_workers]
      exact h.not_activeOn hj (.inl hact) k
    · exact h.staffed.congr finish_workers finish_alive
    · rw [finish_nextJob]
      exact h.nextJob
  · exact .replace hst hj finish_jobs rfl finish_options finish_nextJob
      (.finished flag hdone hkind)

theorem finish_current (h : Base p) (hw : p.workers[i]? = some w)
    (hcurrent : w.current = some old.id) (hold : old ∈ p.jobs) (hid : j.id = old.id)
    (hreservation : j.reservation = old.reservation) (hact : j.active = old.active)
    (change : Worker → Worker) (hnone : (change w).current = none)
    (hexited : (change w).exited = w.exited) (hstarted : (change w).started = w.started)
    (kind : CompletionKind) : Base ((p.finish j kind).modifyWorker i change) := by
  obtain ⟨q, c, hst⟩ := h.stored
  have hi : p.ActiveOn i old.id := ⟨w, hw, hcurrent⟩
  have hdone := (h.flags_of_activeOn hold hi).2
  have hw' : (p.finish j kind).workers[i]? = some w := by rw [finish_workers, hw]
  refine ⟨⟨_, _, (hst.finish hold hid hreservation hact hdone kind).congr rfl⟩, ?_, ?_, ?_⟩
  · -- another worker does not have the job, and the worker does not have another job
    have hactiveOn (k t : Nat) : ((p.finish j kind).modifyWorker i change).ActiveOn k t ↔
        k ≠ i ∧ p.ActiveOn k t := by
      rw [activeOn_modifyWorker, hw']
      by_cases hk : k = i
      · simp [hk, hnone]
      · simp [hk, activeOn_congr finish_workers]
    refine h.assigned.replace finish_jobs hold hid (fun k t ht => ?_) (.inr ⟨fun _ => rfl, ?_⟩)
    · rw [hactiveOn]
      refine ⟨fun hk => hk.2, fun hk => ⟨?_, hk⟩⟩
      rintro rfl
      obtain ⟨w', hw'', hcurrent'⟩ := hk
      obtain rfl : w = w' := some.inj (hw.symm.trans hw'')
      exact ht (by
        rw [show (j.finished kind).id = old.id from hid]
        exact some.inj (hcurrent'.symm.trans hcurrent))
    · intro k hk
      rw [show (j.finished kind).id = old.id from hid, hactiveOn] at hk
      exact hk.1 (h.assigned.unique k i old.id hk.2 hi)
  · refine (h.staffed.congr finish_workers finish_alive).modifyWorker hw' ⟨?_, ?_⟩ hstarted hexited
    · rw [hexited, hstarted]
      exact (h.staffed.sound w (mem_of_getElem? hw)).started
    · exact fun hne => absurd hnone hne
  · rw [finishes.nextJob]
    exact h.nextJob

end Base

/-! ## The loops -/

/-- Within a call, jobs are withdrawn and the workers are as before. -/
structure Continues (p p' : Pool) : Prop where
  base : Base p'
  withdraws : Withdraws p p'
  workers : p'.workers = p.workers
  stopping : p'.stopping = p.stopping

namespace Continues

theorem refl (h : Base p) : Continues p p := ⟨h, .refl p, rfl, rfl⟩

theorem trans {p₁ p₂ p₃ : Pool} (h : Continues p₁ p₂) (h' : Continues p₂ p₃) : Continues p₁ p₃ :=
  ⟨h'.base, h.withdraws.trans h'.withdraws, h'.workers.trans h.workers,
    h'.stopping.trans h.stopping⟩

theorem setReadiness (h : Continues p p') : Continues p p'.setReadiness :=
  ⟨h.base.setReadiness, h.withdraws.trans (.of_jobs rfl rfl rfl), h.workers, h.stopping⟩

end Continues

theorem Drained.withdraws (hdrained : Drained p) (h : Base p) (h' : Base p')
    (hw : Withdraws p p') : Drained p' := by
  intro j' hj' hact
  obtain ⟨q, c, hst⟩ := h'.stored
  obtain ⟨j, hj, hrel⟩ := hw.of_job? (hst.job?_id hj')
  have hdone := hdrained j (h.mem_of_job? hj).1 (hrel.active ▸ hact)
  rw [hrel.done hdone]
  exact hdone

theorem Drained.replace (hdrained : Drained p)
    (hjobs : p'.jobs = KeyedList.replace Job.id j p.jobs) (hold : old ∈ p.jobs)
    (hid : j.id = old.id) (hdone : j.done = true) : Drained p' := by
  intro other hother hact
  rw [hjobs] at hother
  rcases (KeyedList.mem_replace hold hid).mp hother with rfl | ⟨hother, -⟩
  · exact hdone
  · exact hdrained other hother hact

/-- With enough rounds the queue is empty in the end. -/
theorem failQueued_spec (rounds : Nat) :
    ∀ {p : Pool} {q c : List Nat}, Base p → Stored p q c → q.length ≤ rounds →
      Continues p (failQueued rounds p) ∧ Drained (failQueued rounds p) := by
  have hempty {p : Pool} {c : List Nat} (hst : Stored p [] c) : Drained p := by
    intro j hj hact
    by_contra hdone
    have := (hst.id_mem_queued_iff hj).mpr ⟨hact, by simpa using hdone⟩
    exact not_mem_nil this
  induction rounds with
  | zero =>
    intro p q c h hst hlength
    obtain rfl : q = [] := length_eq_zero_iff.mp (Nat.le_zero.mp hlength)
    exact ⟨.refl h, hempty hst⟩
  | succ rounds ih =>
    intro p q c h hst hlength
    unfold failQueued
    cases q with
    | nil =>
      rw [hst.queued.head]
      exact ⟨.refl h, hempty hst⟩
    | cons t q =>
      obtain ⟨j, hj, rfl, hact, hdone⟩ := (hst.mem_queued t).mp mem_cons_self
      have hhead : p.queued.head.bind p.job? = some j := by
        rw [hst.queued.head]
        exact hst.job?_id hj
      rw [hhead]
      obtain ⟨hbase, hwithdraws⟩ :=
        h.finish_queued hj hact hdone j.cancelled .failed (by simp)
      have hnext := hst.finish hj rfl rfl rfl hdone .failed
      rw [if_neg (by simp [hact])] at hnext
      obtain ⟨hcontinues, hdrained⟩ := ih hbase hnext (by simpa using hlength)
      exact ⟨Continues.trans ⟨hbase, hwithdraws, finish_workers, finish_stopping⟩ hcontinues,
        hdrained⟩

theorem length_le {place : Job → Prop} {l : List Nat} (hnodup : l.Nodup)
    (hl : ∀ t, t ∈ l ↔ ∃ j ∈ p.jobs, j.id = t ∧ place j) : l.length ≤ p.jobs.length := by
  have hlength : (p.jobs.map Job.id).length = p.jobs.length := length_map _
  rw [← hlength]
  refine (subperm_of_subset hnodup fun t ht => ?_).length_le
  obtain ⟨j, hj, rfl, -⟩ := (hl t).mp ht
  exact mem_map_of_mem hj

/-- `stop_if_unavailable` gives the invariant back after a worker has failed or exited. -/
theorem stopIfUnavailable_spec (h : Base p) (hdrained : p.stopping = true → Drained p) :
    Inv p.stopIfUnavailable ∧ Withdraws p p.stopIfUnavailable ∧
      p.stopIfUnavailable.workers = p.workers := by
  unfold stopIfUnavailable
  by_cases hany : (p.workers.any fun w => !w.failed && !w.exited) = true
  · rw [if_pos hany]
    refine ⟨⟨h, hdrained, fun hall => ?_⟩, .refl p, rfl⟩
    obtain ⟨w, hw, hworks⟩ := any_eq_true.mp hany
    rcases hall w hw with hflag | hflag <;> simp [hflag] at hworks
  · rw [if_neg hany]
    have hbase : Base { p with stopping := true } :=
      h.congr rfl rfl rfl
    obtain ⟨q, c, hst⟩ := hbase.stored
    obtain ⟨hcontinues, hempty⟩ :=
      failQueued_spec p.jobs.length hbase hst
        (length_le hst.queued.nodup hst.mem_queued)
    have hset : Withdraws p { p with stopping := true } := .of_jobs rfl rfl rfl
    exact ⟨⟨hcontinues.base.setReadiness, fun _ => hempty, fun _ => hcontinues.stopping⟩,
      hset.trans hcontinues.setReadiness.withdraws, hcontinues.workers⟩

theorem cancelJob_spec (h : Base p) (hj : j ∈ p.jobs) : Continues p (p.cancelJob j) ∧
      ∀ j', (p.cancelJob j).job? j.id = some j' → j'.active = false → j'.done = true := by
  obtain ⟨q, c, hst⟩ := h.stored
  have hfound := hst.job?_id hj
  unfold cancelJob
  by_cases hdone : j.done = true
  · rw [if_pos hdone]
    refine ⟨.refl h, fun j' hj' _ => ?_⟩
    rw [← some.inj (hfound.symm.trans hj')]
    exact hdone
  · have hdone : j.done = false := by simpa using hdone
    rw [if_neg (by simp [hdone])]
    by_cases hact : j.active = true
    · rw [if_pos hact]
      have hset := hst.setJob (j := { j with cancelled := true }) hj rfl rfl rfl rfl
        fun _ => hst.output j hj (.inl hdone)
      refine ⟨⟨⟨⟨q, c, hset⟩, ?_, h.staffed.congr rfl rfl, h.nextJob⟩, ?_, rfl, rfl⟩, ?_⟩
      · refine h.assigned.replace (j := { j with cancelled := true }) rfl hj rfl
          (fun k t _ => activeOn_congr rfl) (.inl ⟨hact, hdone, ?_⟩)
        obtain ⟨k, hk⟩ := h.assigned.covered j hj hact hdone
        exact ⟨k, hk, fun l hl => h.assigned.unique l k j.id hl hk⟩
      · exact .replace (j := { j with cancelled := true }) hst hj rfl rfl rfl rfl
          (.cancelled hdone)
      · intro j' hj' hactive'
        rw [hst.job?_of_replace (j := { j with cancelled := true }) rfl hj rfl, if_pos rfl] at hj'
        rw [← some.inj hj'] at hactive'
        exact absurd (hact.symm.trans hactive') (by simp)
    · have hact : j.active = false := by simpa using hact
      rw [if_neg (by simp [hact])]
      obtain ⟨hbase, hwithdraws⟩ :=
        h.finish_queued hj hact hdone true .cancelled (by simp)
      refine ⟨⟨hbase, hwithdraws, finish_workers, finish_stopping⟩, fun j' hj' _ => ?_⟩
      rw [hst.job?_of_replace (j := Job.finished { j with cancelled := true } .cancelled)
        finish_jobs hj rfl, Job.finished_id, if_pos rfl] at hj'
      rw [← some.inj hj']
      rfl

/-- After the loop of `stop`, a job of the list is completed unless a worker has it. -/
theorem cancelAll_spec (tickets : List Nat) : ∀ {p : Pool}, Base p →
    Continues p (p.cancelAll tickets) ∧ ∀ t ∈ tickets, ∀ j,
      (p.cancelAll tickets).job? t = some j → j.active = false → j.done = true := by
  induction tickets with
  | nil => exact fun h => ⟨.refl h, by simp⟩
  | cons tk tickets ih =>
    intro p h
    show Continues p (cancelAll (((p.job? tk).map p.cancelJob).getD p) tickets) ∧ _
    have hone : Continues p (((p.job? tk).map p.cancelJob).getD p) ∧
        ∀ j, (((p.job? tk).map p.cancelJob).getD p).job? tk = some j →
          j.active = false → j.done = true := by
      cases hfound : p.job? tk with
      | none =>
        refine ⟨.refl h, fun j hj => ?_⟩
        exact absurd (hfound.symm.trans hj) (by simp)
      | some j =>
        obtain ⟨hj, rfl⟩ := h.mem_of_job? hfound
        exact cancelJob_spec h hj
    obtain ⟨hrest, hdone⟩ := ih hone.1.base
    refine ⟨hone.1.trans hrest, fun t ht j hj hact => ?_⟩
    rcases mem_cons.mp ht with rfl | ht
    · obtain ⟨old, hold, hrel⟩ := hrest.withdraws.of_job? hj
      have holdDone := hone.2 old hold (hrel.active ▸ hact)
      rw [hrel.done holdDone]
      exact holdDone
    · exact hdone t ht j hj hact

theorem stop_spec (h : Inv p) : Inv p.stop ∧ Withdraws p p.stop := by
  have hbase : Base { p with stopping := true } :=
    h.congr rfl rfl rfl
  obtain ⟨hcontinues, hdone⟩ := cancelAll_spec (p.jobs.map Job.id) hbase
  have hstop := hcontinues.setReadiness
  have hset : Withdraws p { p with stopping := true } := .of_jobs rfl rfl rfl
  refine ⟨⟨hstop.base, fun _ j hj hact => ?_, fun _ => hstop.stopping⟩, hset.trans hstop.withdraws⟩
  obtain ⟨q, c, hst⟩ := hcontinues.base.stored
  have hfound := hst.job?_id (j := j) hj
  obtain ⟨old, hold, -⟩ := hcontinues.withdraws.of_job? hfound
  obtain ⟨hmem, hid⟩ := hbase.mem_of_job? hold
  exact hdone j.id (hid ▸ mem_map_of_mem hmem) j hfound hact

/-! ## A worker that fails or exits -/

theorem finish_modifyWorker :
    (p.modifyWorker i change).finish j kind = (p.finish j kind).modifyWorker i change := by
  unfold finish
  split <;> rfl

theorem modifyWorker_modifyWorker {change' : Worker → Worker} :
    (p.modifyWorker i change).modifyWorker i change' = p.modifyWorker i (change' ∘ change) := by
  simp only [modifyWorker, modify_modify_eq]

/-- A worker changes and keeps its job, and its thread is counted as it is then. -/
theorem Base.modifyThread (h : Base p) (hw : p.workers[i]? = some w)
    (hcurrent : (change w).current = w.current) (hsound : (change w).Sound) {alive : Nat}
    (halive : alive + (if w.started && !w.exited then 1 else 0) =
      p.alive + (if (change w).started && !(change w).exited then 1 else 0)) :
    Base { p.modifyWorker i change with alive := alive } := by
  obtain ⟨q, c, hst⟩ := h.stored
  refine ⟨⟨q, c, hst.congr rfl⟩, ?_, h.staffed.modifyThread hw hsound halive, h.nextJob⟩
  exact h.assigned.congr rfl fun k t => activeOn_modifyWorker_of_current hw hcurrent

theorem Base.modifyWorker (h : Base p) (change : Worker → Worker)
    (hw : p.workers[i]? = some w) (hcurrent : (change w).current = w.current)
    (hsound : (change w).Sound) (hstarted : (change w).started = w.started)
    (hexited : (change w).exited = w.exited) : Base (p.modifyWorker i change) :=
  h.modifyThread hw hcurrent hsound (by rw [hstarted, hexited])

/-- The job of a worker is withdrawn while the worker changes. -/
theorem Base.dropCurrent (h : Base p) (hw : p.workers[i]? = some w)
    (hj : w.current.bind p.job? = some j) (change : Worker → Worker)
    (hnone : (change w).current = none) (hstarted : (change w).started = w.started)
    (hexited : (change w).exited = w.exited) (kind : CompletionKind) (hkind : kind ≠ .success) :
    Base ((p.finish j kind).modifyWorker i change) ∧
      Withdraws p ((p.finish j kind).modifyWorker i change) := by
  obtain ⟨t, hcurrent, hfound⟩ := bind_eq_some_iff.mp hj
  obtain ⟨hmem, rfl⟩ := h.mem_of_job? hfound
  obtain ⟨q, c, hst⟩ := h.stored
  have hdone := (h.flags_of_activeOn hmem ⟨w, hw, hcurrent⟩).2
  refine ⟨h.finish_current hw hcurrent hmem rfl rfl rfl change hnone hexited hstarted kind, ?_⟩
  exact .replace hst hmem finishes.jobs rfl finishes.options finishes.nextJob
    (.finished j.cancelled hdone hkind)

theorem Base.current_eq_none (h : Base p) (hw : p.workers[i]? = some w)
    (hj : w.current.bind p.job? = none) : w.current = none := by
  by_contra hne
  obtain ⟨t, ht⟩ := ne_none_iff_exists'.mp hne
  obtain ⟨j, hmem, rfl, -⟩ := h.assigned.current i t ⟨w, hw, ht⟩
  obtain ⟨q, c, hst⟩ := h.stored
  rw [ht, bind_some, hst.job?_id hmem] at hj
  cases hj

/-- The worker has no job, and its thread is as it was. -/
def Idle (p : Pool) (i : Nat) (w : Worker) : Prop := ∃ w', p.workers[i]? = some w' ∧
  w'.current = none ∧ w'.started = w.started ∧ w'.exited = w.exited

theorem failure_spec (h : Base p) (hdrained : p.stopping = true → Drained p)
    (hw : p.workers[i]? = some w) (message : List UInt8) :
    Inv (p.failure i w message) ∧ Withdraws p (p.failure i w message) ∧
      (p.failure i w message).Idle i w := by
  have hcore (p' : Pool)
      (hp' : p' = (p.modifyWorker i fun w => w.fail message).finishCurrent i w .failed) :
      Base p' ∧ Withdraws p p' ∧ p'.stopping = p.stopping ∧ p'.Idle i w := by
    have hjob : (p.modifyWorker i fun w => w.fail message).job? = p.job? := rfl
    rw [finishCurrent, hjob] at hp'
    cases hj : w.current.bind p.job? with
    | none =>
      have hcurrent := h.current_eq_none hw hj
      simp only [hj] at hp'
      subst hp'
      have hsound : (w.fail message).Sound := by
        refine ⟨?_, fun hne => absurd (w.fail_current message ▸ hcurrent) hne⟩
        rw [Worker.fail_exited, Worker.fail_started]
        exact (h.staffed.sound w (mem_of_getElem? hw)).started
      refine ⟨h.modifyWorker _ hw (w.fail_current message) hsound (w.fail_started message)
        (w.fail_exited message), .of_jobs rfl rfl rfl, rfl, w.fail message, ?_, ?_⟩
      · simp [modifyWorker, hw]
      · simp [hcurrent]
    | some j =>
      simp only [hj, finish_modifyWorker, modifyWorker_modifyWorker] at hp'
      subst hp'
      obtain ⟨hbase, hwithdraws⟩ := h.dropCurrent hw hj
        (fun w => { w.fail message with current := none })
        rfl (w.fail_started message) (w.fail_exited message) .failed (by simp)
      refine ⟨hbase, hwithdraws, finishes.stopping, { w.fail message with current := none }, ?_, ?_⟩
      · simp [modifyWorker, hw]
      · simp
  obtain ⟨hbase, hwithdraws, hstopping, hworker⟩ := hcore _ rfl
  obtain ⟨hinv, hrest, hworkers⟩ := stopIfUnavailable_spec hbase fun hstop =>
    (hdrained (hstopping ▸ hstop)).withdraws h hbase hwithdraws
  exact ⟨hinv, hwithdraws.trans hrest, by rwa [failure, Idle, hworkers]⟩

theorem leave_spec (h : Inv p) (hw : p.workers[i]? = some w) :
    Base (p.leave i w) ∧ ((p.leave i w).stopping = true → Drained (p.leave i w)) ∧
      Withdraws p (p.leave i w) ∧ (p.leave i w).Idle i w := by
  have hfailed (message : List UInt8) := and_assoc.mp
    ((failure_spec h.toBase h.drained hw message).imp_left fun hinv =>
      And.intro hinv.toBase hinv.drained)
  unfold leave
  by_cases hheap : (!w.heap) = true
  · rw [if_pos hheap]
    exact hfailed _
  rw [if_neg hheap]
  by_cases hready : (!w.ready && !p.stopping) = true
  · rw [if_pos hready]
    exact hfailed _
  rw [if_neg hready]
  cases hj : w.current.bind p.job? with
  | none =>
    by_cases hstop : (!p.stopping && !w.failed) = true
    · simp only [if_pos hstop]
      exact hfailed _
    · simp only [if_neg hstop]
      exact ⟨h.toBase, h.drained, .refl p, w, hw, h.current_eq_none hw hj, rfl, rfl⟩
  | some j =>
    by_cases hcancelled : j.cancelled = true
    · simp only [if_pos hcancelled, finishCurrent, hj]
      obtain ⟨hbase, hwithdraws⟩ := h.dropCurrent hw hj
        (fun w => { w with current := none }) rfl rfl rfl .cancelled (by simp)
      refine ⟨hbase, fun hstop => ?_, hwithdraws, { w with current := none }, ?_, rfl, rfl, rfl⟩
      · exact (h.drained (finishes.stopping.symm.trans hstop)).withdraws h.toBase hbase hwithdraws
      · simp [modifyWorker, hw]
    · simp only [if_neg hcancelled]
      exact hfailed _

theorem exit_spec (h : Inv p) (hw : p.workers[i]? = some w)
    (hstarted : w.started = true) (hexited : w.exited = false) :
    Inv (p.exit i w) ∧ Withdraws p (p.exit i w) := by
  obtain ⟨hbase, hdrained, hwithdraws, w', hw', hcurrent, hstarted', hexited'⟩ := leave_spec h hw
  have hnow : Base { (p.leave i w).modifyWorker i (fun w => { w with exited := true }) with
      alive := (p.leave i w).alive - 1 } := by
    refine hbase.modifyThread hw' rfl
      ⟨fun _ => hstarted'.trans hstarted, fun hne => absurd hcurrent hne⟩ ?_
    -- the thread was counted, and is not counted any more
    have hpos : 0 < (p.leave i w).alive := by
      rw [hbase.staffed.alive, countP_pos_iff]
      exact ⟨w', mem_of_getElem? hw', by simp [hstarted', hstarted, hexited', hexited]⟩
    simp only [hstarted', hstarted, hexited', hexited, Bool.not_false, Bool.not_true, Bool.and_true,
      Bool.and_false, if_true, Bool.false_eq_true, if_false]
    omega
  obtain ⟨hinv, hrest, -⟩ := stopIfUnavailable_spec hnow hdrained
  refine ⟨hinv, hwithdraws.trans (.trans ?_ hrest)⟩
  exact .of_jobs rfl rfl rfl

end Pool

end Neri.Runtime
