import Mesa3D.Util.QueueHistoryInv
import Mathlib.Data.List.Nodup
import Mathlib.Data.List.Perm.Subperm

/-!
# Order and completeness of the jobs of a queue

For any interleaving of clients and workers without a kill, jobs leave the ring in the order in
which they were put into it, and each is in exactly one place: in the ring, with one worker, run, or
dropped. When `util_queue_finish` returns, every job that was added before has been run or dropped:
the fence of a barrier job is signalled only after all workers have come to the barrier
(`FinishInv.signalled`), and a worker that has come there does not run an older job
(`FinishInv.arrived_late`).

No job is stuck: whatever the threads have done, they go on until all jobs have been run or dropped
(`Inv.progress`), in at most `potential` steps (`Work.potential_lt`).
-/

namespace Mesa3D.Queue.History

open State List

variable {s t : History} {F : Finish}

/-! ### The barrier -/

/-- The job with number `n` has the fence `f`, and was not run or dropped. -/
def Pending (s : History) (n f : ℕ) : Prop :=
  (∃ j, s.log[n]? = some ⟨some j, some f⟩) ∧ n ∉ s.finished ∧ n ∉ s.dropped

/-- A job with the fence was run, waits for space, or is on its way. -/
def Placed (s : History) (f : ℕ) : Prop :=
  s.queue.signalled f = true ∨ (∃ j, (j, f) ∈ s.queue.blocked) ∨ ∃ n, s.Pending n f

/-- What holds while `util_queue_finish` waits. -/
structure FinishInv (s : History) (F : Finish) : Prop where
  /-- The barrier was called behind jobs of the log. -/
  before_le : F.before ≤ s.log.length
  /-- The fences of the barrier are different. -/
  nodup : F.fences.Nodup
  /-- There is one for each worker. -/
  length : F.fences.length = s.queue.workers.length
  /-- No more jobs are added than there are fences. -/
  added_le : F.added ≤ F.fences.length
  /-- The jobs of the barrier come behind those from before it. -/
  late : ∀ f ∈ F.fences, ∀ n, s.Pending n f → F.before ≤ n
  /-- No job of the barrier is dropped. -/
  undropped : ∀ f ∈ F.fences, f ∉ s.queue.droppers ∧ f ∉ s.queue.removed
  /-- No worker arrives twice. -/
  arrived_nodup : F.arrived.Nodup
  /-- Workers arrive. -/
  arrived_lt : ∀ w ∈ F.arrived, w < s.queue.workers.length
  /-- A worker that arrived has left the jobs from before behind. -/
  arrived_late : ∀ w ∈ F.arrived, F.before ≤ s.taken ∧ ∀ n f, s.Runs w n f → F.before ≤ n
  /-- A fence of the barrier is signalled when all have arrived. -/
  signalled : ∀ f ∈ F.fences.take F.added, s.queue.signalled f = true →
    s.queue.workers.length ≤ F.arrived.length
  /-- The jobs that were added have a place. -/
  placed : ∀ f ∈ F.fences.take F.added, s.Placed f

/-- What a step that is not one of the barrier may do. -/
structure Keeps (s t : History) (F : Finish) : Prop where
  /-- The log only grows. -/
  log_le : s.log.length ≤ t.log.length
  /-- The jobs that are taken only grow. -/
  taken_le : s.taken ≤ t.taken
  /-- The workers stay. -/
  length : t.queue.workers.length = s.queue.workers.length
  /-- Jobs that become pending are new. -/
  pending : ∀ f ∈ F.fences, ∀ n, t.Pending n f → s.Pending n f ∨ s.log.length ≤ n
  /-- No job of the barrier is dropped. -/
  undropped : ∀ f ∈ F.fences, (f ∈ t.queue.droppers → f ∈ s.queue.droppers) ∧
    (f ∈ t.queue.removed → f ∈ s.queue.removed)
  /-- Jobs that start to run were not taken before. -/
  runs : ∀ w n f, t.Runs w n f → s.Runs w n f ∨ s.taken ≤ n
  /-- No fence of the barrier is signalled before all have arrived. -/
  signalled : ∀ f ∈ F.fences, t.queue.signalled f = true →
    s.queue.signalled f = true ∨ s.queue.workers.length ≤ F.arrived.length
  /-- The jobs of the barrier keep a place. -/
  placed : ∀ f ∈ F.fences, s.Placed f → t.Placed f

/-- Doing nothing keeps what the barrier needs. -/
theorem Keeps.refl (s : History) (F : Finish) : Keeps s s F :=
  ⟨le_rfl, le_rfl, rfl, fun _ _ _ hp => .inl hp, fun _ _ => ⟨id, id⟩, fun _ _ _ hr => .inl hr,
    fun _ _ hsig => .inl hsig, fun _ _ hp => hp⟩

/-- A step outside the barrier keeps the barrier's invariant. -/
theorem FinishInv.of_keeps (h : s.FinishInv F) (hk : Keeps s t F) : t.FinishInv F where
  before_le := h.before_le.trans hk.log_le
  nodup := h.nodup
  length := h.length.trans hk.length.symm
  added_le := h.added_le
  late f hf n hp := by
    rcases hk.pending f hf n hp with hp | hle
    · exact h.late f hf n hp
    · exact h.before_le.trans hle
  undropped f hf := ⟨fun hd => (h.undropped f hf).1 ((hk.undropped f hf).1 hd),
    fun hr => (h.undropped f hf).2 ((hk.undropped f hf).2 hr)⟩
  arrived_nodup := h.arrived_nodup
  arrived_lt w hw := hk.length.symm ▸ h.arrived_lt w hw
  arrived_late w hw := by
    obtain ⟨htaken, hruns⟩ := h.arrived_late w hw
    refine ⟨htaken.trans hk.taken_le, fun n f hr => ?_⟩
    rcases hk.runs w n f hr with hr | hle
    · exact hruns n f hr
    · exact htaken.trans hle
  signalled f hf hsig := by
    rw [hk.length]
    rcases hk.signalled f (mem_of_mem_take hf) hsig with hsig | hall
    · exact h.signalled f hf hsig
    · exact hall
  placed f hf := hk.placed f (mem_of_mem_take hf) (h.placed f hf)

/-- The invariants hold for all fields but `finish`. -/
theorem FinishInv.set_finish (h : s.FinishInv F) (o : Option Finish) :
    ({ s with finish := o } : History).FinishInv F :=
  { h with }

/-- The invariants of a run. -/
structure Inv (s : History) : Prop where
  /-- The ring is in step with the log. -/
  ring : s.RingInv
  /-- The workers run what was dequeued. -/
  workers : s.WorkerInv
  /-- The barrier, while there is one. -/
  finish : ∀ F, s.finish = some F → s.FinishInv F

/-- Only `util_queue_finish` goes on. -/
theorem RingInv.set_finish (hr : s.RingInv) (hw : s.WorkerInv) {o : Option Finish}
    (hF : ∀ F, o = some F → s.FinishInv F) : ({ s with finish := o } : History).Inv :=
  ⟨{ hr with }, { hw with }, fun F h => (hF F h).set_finish o⟩

/-- A number that was not given out yet is not that of a job that was run or dropped. -/
theorem Inv.fresh (h : s.Inv) : s.log.length ∉ s.finished ∧ s.log.length ∉ s.dropped := by
  constructor
  · intro hf
    have hlt := (h.ring.dequeued_lt (h.workers.finished_dequeued hf)).1
    have := h.ring.taken_le
    omega
  · intro hd
    exact (h.ring.dropped_lt _ hd).false

variable {job fence n w : ℕ}

/-- A pending job is in the ring, or a worker runs it. -/
theorem Inv.pending_outstanding (h : s.Inv) {f : ℕ} (hp : s.Pending n f) :
    (s.taken ≤ n ∧ s.queue.Queued f) ∨ ∃ w, s.Runs w n f := by
  obtain ⟨⟨j, he⟩, hfin, hdrop⟩ := hp
  have hlt : n < s.log.length := (List.getElem?_eq_some_iff.1 he).1
  by_cases hn : n < s.taken
  · rcases h.workers.accounted n (h.ring.mem_dequeued hn hdrop) with hf | ⟨w, g, hr⟩
    · exact absurd hf hfin
    · -- the fence is that of the job
      obtain ⟨j', he'⟩ := h.workers.runs_log hr
      rw [he] at he'
      cases he'
      exact .inr ⟨w, hr⟩
  · have hlen := h.ring.length_log
    have hslot := h.ring.slots (n - s.taken)
    rw [show s.taken + (n - s.taken) = n by omega, he, Option.map_some, if_neg hdrop,
      getElem?_contents, if_pos (by omega)] at hslot
    exact .inl ⟨by omega, n - s.taken, by omega, j, Option.some.inj hslot⟩

/-! ### Steps -/

section

variable (h : s.Inv)
include h

/-- Jobs are put into the ring, and the call goes on or waits. -/
theorem Inv.append {q : State} {l : List Slot} (hring : q.RingOk) (hclean : q.Clean)
    (halive : q.killThreads = s.queue.killThreads) (hl : ∀ e ∈ l, ∃ j f, e = ⟨some j, some f⟩)
    (hcontents : q.contents = s.queue.contents ++ l) (hworkers : q.workers = s.queue.workers)
    (hdroppers : q.droppers = s.queue.droppers) (hremoved : q.removed = s.queue.removed)
    (hsignalled : ∀ f, q.signalled f = true → s.queue.signalled f = true)
    (hplaced : ∀ f, s.queue.signalled f = true ∨ (∃ j, (j, f) ∈ s.queue.blocked) →
      ({ s with queue := q, log := s.log ++ l } : History).Placed f) :
    let t : History := { s with queue := q, log := s.log ++ l }
    t.RingInv ∧ t.WorkerInv ∧ ∀ F, Keeps s t F := by
  refine ⟨h.ring.append hring hclean halive hl hcontents, h.workers.append hworkers l, fun F => ?_⟩
  cases q
  subst hworkers hdroppers hremoved
  refine { Keeps.refl s F with
    log_le := by simp
    signalled := fun f _ hsig => .inl (hsignalled f hsig)
    pending := ?pending
    placed := ?placed }
  case pending =>
    rintro f - n ⟨⟨j, he⟩, hn⟩
    by_cases hlt : n < s.log.length
    · exact .inl ⟨⟨j, (getElem?_append_left hlt).symm.trans he⟩, hn⟩
    · exact .inr (not_lt.1 hlt)
  case placed =>
    rintro f - (hsig | hb | ⟨n, ⟨j, he⟩, hn⟩)
    · exact hplaced f (.inl hsig)
    · exact hplaced f (.inr hb)
    · have hlt : n < s.log.length := (List.getElem?_eq_some_iff.1 he).1
      exact .inr (.inr ⟨n, ⟨j, (getElem?_append_left hlt).trans he⟩, hn⟩)

/-- Adding a job keeps the invariant and gives its fence a place. -/
theorem Inv.addJob (job fence : ℕ) :
    let t := s.addJob job fence
    t.RingInv ∧ t.WorkerInv ∧ t.Placed fence ∧ ∀ F, Keeps s t F := by
  intro t
  have ha := h.ring.ring.added h.ring.clean h.ring.alive job fence
  -- the job is put into the ring, or the call waits for space
  obtain ⟨l, hl, hcontents, hadd, hplaced⟩ : ∃ l : List Slot,
    (∀ e ∈ l, ∃ j f, e = ⟨some j, some f⟩) ∧
      (s.queue.utilQueueAddJob job fence).contents = s.queue.contents ++ l ∧
      t = { s with queue := s.queue.utilQueueAddJob job fence, log := s.log ++ l } ∧
        t.Placed fence := by
    by_cases hwaits : s.queue.numQueued = s.queue.maxJobs ∧ s.queue.resizeIfFull = false
    · refine ⟨[],
        forall_mem_nil _, by simp [ha.contents, hwaits], by simp [t, History.addJob, hwaits], ?_⟩
      refine .inr (.inl ⟨job, ?_⟩)
      show (job, fence) ∈ (s.queue.utilQueueAddJob job fence).blocked
      rw [ha.blocked, if_pos hwaits]
      exact mem_cons_self
    · refine ⟨[⟨some job, some fence⟩], by simp, ha.contents.trans (if_neg hwaits),
        by simp only [t, History.addJob, if_neg hwaits],
        .inr (.inr ⟨s.log.length, ⟨job, ?_⟩, h.fresh⟩)⟩
      simp [t, History.addJob, hwaits]
  rw [hadd] at hplaced ⊢
  obtain ⟨hring, hworkers, hkeeps⟩ :=
    h.append ha.ring ha.clean ha.killThreads hl hcontents ha.workers ha.droppers
      ha.removed (fun f hsig => by rw [ha.signalled] at hsig; split_ifs at hsig; exact hsig)
      fun f hf => by
      by_cases heq : f = fence
      · exact heq ▸ hplaced
      rcases hf with hsig | ⟨j, hb⟩
      · exact .inl (((ha.signalled f).trans (if_neg heq)).trans hsig)
      · refine .inr (.inl ⟨j, ?_⟩)
        show (j, f) ∈ (s.queue.utilQueueAddJob job fence).blocked
        rw [ha.blocked]
        split_ifs
        · exact mem_cons_of_mem _ hb
        · exact hb
  exact ⟨hring, hworkers, hplaced, hkeeps⟩

/-- A blocked caller that is woken keeps the invariant. -/
theorem Inv.wake (hspace : s.queue.numQueued ≠ s.queue.maxJobs) :
    (s.wake job fence).Inv := by
  have hroom : s.queue.numQueued < s.queue.maxJobs := Nat.lt_of_le_of_ne h.ring.ring.num_le hspace
  have hr : ({ s.queue with blocked := s.queue.blocked.erase (job, fence) } : State).RingOk :=
    { h.ring.ring with }
  obtain ⟨hring, hworkers, hkeeps⟩ := h.append (hr.store hroom job fence).1
    (hr.clean_store h.ring.clean hroom job fence) rfl (by simp)
    (hr.contents_store hroom job fence) rfl rfl rfl
    (fun _ hsig => hsig) fun f hf => by
      rcases hf with hsig | ⟨j, hb⟩
      · exact .inl hsig
      by_cases heq : f = fence
      · exact .inr (.inr ⟨s.log.length, ⟨job, by simp [heq]⟩, h.fresh⟩)
      · exact .inr (.inl ⟨j, (mem_erase_of_ne (by simp [heq])).2 hb⟩)
  exact ⟨hring, hworkers, fun F hF => (h.finish F hF).of_keeps (hkeeps F)⟩

/-- A worker that takes a job keeps the invariant. -/
theorem Inv.take (hw : s.queue.workers[w]? = some .idle) (hnum : s.queue.numQueued ≠ 0) :
    (s.take w).Inv := by
  have hlt : w < s.queue.workers.length := (List.getElem?_eq_some_iff.1 hw).1
  refine ⟨h.ring.take hnum hlt, h.workers.take h.ring hw hnum, fun F hF => (h.finish F hF).of_keeps
    { Keeps.refl s F with taken_le := Nat.le_succ _, length := length_set, runs := ?_ }⟩
  intro v n f hr
  rcases (runs_set hlt rfl fun v hv => if_neg hv).1 hr with ⟨-, -, hn⟩ | ⟨-, hr⟩
  · -- the worker runs the job that it has taken, if any
    have hcurrent : (s.take w).current w = s.taken := if_pos rfl
    exact .inr (hcurrent.symm.trans hn).le
  · exact .inl hr

/-- The end of a job. It is one of the barrier only if all workers have come there. -/
theorem Inv.run (hw : s.queue.workers[w]? = some (.running fence)) (hs : s.current w ∈ s.started)
    (hall : ∀ F, s.finish = some F → fence ∈ F.fences → s.queue.workers.length ≤ F.arrived.length) :
    (s.run w fence).Inv := by
  have hring : (s.run w fence).RingInv := { h.ring with ring := { h.ring.ring with } }
  obtain ⟨j₀, he₀⟩ := h.workers.runs_log (n := s.current w) ⟨hw, rfl⟩
  refine ⟨hring, h.workers.run hw hs, fun F hF => (h.finish F hF).of_keeps { Keeps.refl s F with
    length := length_set, runs := ?runs, pending := ?pending, signalled :=
      ?signalled, placed := ?placed }⟩
  case runs =>
    intro v n f hr
    rcases (runs_set (t := s.run w fence) (List.getElem?_eq_some_iff.1 hw).1 rfl fun _ _ =>
      rfl).1 hr with ⟨-, hx, -⟩ | ⟨-, hr⟩
    · cases hx
    · exact .inl hr
  case pending =>
    rintro f - n ⟨he, hfin, hdrop⟩
    exact .inl ⟨he, fun hf => hfin (mem_cons_of_mem _ hf), hdrop⟩
  case signalled =>
    intro f hf hsig
    by_cases heq : f = fence
    · exact .inr (hall F hF (heq ▸ hf))
    · exact .inl ((if_neg heq).symm.trans hsig)
  case placed =>
    intro f _ hp
    by_cases heq : f = fence
    · exact .inl (if_pos heq)
    rcases hp with hsig | hb | ⟨n, ⟨j, he⟩, hfin, hdrop⟩
    · exact .inl ((if_neg heq).trans hsig)
    · exact .inr (.inl hb)
    · -- the job that was run has another fence
      refine .inr (.inr ⟨n, ⟨j, he⟩, fun hmem => ?_, hdrop⟩)
      rcases mem_cons.1 hmem with rfl | hmem
      · rw [he₀] at he
        cases he
        exact heq rfl
      · exact hfin hmem

/-- Clearing the slot of a dropped job keeps the invariant. -/
theorem Inv.dropScan (hf : fence ∈ s.queue.droppers) : (s.dropScan fence).Inv := by
  have hring := h.ring.dropScan fence
  have hother : ∀ F, s.finish = some F → fence ∉ F.fences := fun F hF hmem =>
    ((h.finish F hF).undropped fence hmem).1 hf
  rcases h.ring.dropScan_cases fence with ⟨-, heq⟩ | ⟨k, j₀, -, -, he₀, heq⟩
  · rw [heq] at hring ⊢
    exact ⟨hring, { h.workers with }, fun F hF => (h.finish F hF).of_keeps
      { Keeps.refl s F with undropped := fun _ _ => ⟨mem_of_mem_erase, id⟩ }⟩
  · rw [heq] at hring ⊢
    refine ⟨hring, { h.workers with }, fun F hF => (h.finish F hF).of_keeps
      { Keeps.refl s F with pending := ?pending, undropped := ?undropped, placed := ?placed }⟩
    case pending =>
      rintro f - n ⟨he, hfin, hdrop⟩
      exact .inl ⟨he, hfin, fun hd => hdrop (mem_cons_of_mem _ hd)⟩
    case undropped =>
      intro f hmem
      refine ⟨mem_of_mem_erase, fun hr => ?_⟩
      rcases mem_cons.1 hr with rfl | hr
      · exact absurd hmem (hother F hF)
      · exact hr
    case placed =>
      intro f hmem hp
      rcases hp with hsig | hb | ⟨n, ⟨j, he⟩, hfin, hdrop⟩
      · exact .inl hsig
      · exact .inr (.inl hb)
      · -- the job that was dropped is not one of the barrier
        refine .inr (.inr ⟨n, ⟨j, he⟩, hfin, fun hd => ?_⟩)
        rcases mem_cons.1 hd with rfl | hd
        · rw [he₀] at he
          cases he
          exact hother F hF hmem
        · exact hdrop hd

/-- Steps that change only fences that are not those of the barrier, and the lists of calls. -/
theorem Inv.of_calls {signalled : ℕ → Bool} {droppers removed : List ℕ}
    (hmono : ∀ f, s.queue.signalled f = true → signalled f = true)
    (hother : ∀ F, s.finish = some F → ∀ f ∈ F.fences, (f ∈ droppers → f ∈ s.queue.droppers) ∧
      (f ∈ removed → f ∈ s.queue.removed) ∧ (signalled f = true → s.queue.signalled f = true)) :
    ({ s with queue := { s.queue with signalled, droppers, removed } } : History).Inv := by
  refine ⟨{ h.ring with ring := { h.ring.ring with } }, { h.workers with }, fun F hF =>
    (h.finish F hF).of_keeps { Keeps.refl s F with
      undropped := fun f hf => ⟨(hother F hF f hf).1, (hother F hF f hf).2.1⟩
      signalled := fun f hf hsig => .inl ((hother F hF f hf).2.2 hsig)
      placed := fun f _ hp => hp.imp_left (hmono f) }⟩

/-- Signalling the fence of a dropped job keeps the invariant. -/
theorem Inv.dropSignal (hf : fence ∈ s.queue.removed) :
    ({ s with
      queue := { s.queue.fenceSignal fence with removed := s.queue.removed.erase fence
        } } : History).Inv := by
  refine h.of_calls (fun f hsig => ?_) fun F hF f hmem => ?_
  · show (if f = fence then true else s.queue.signalled f) = true
    rw [hsig, ite_self]
  · have hne : f ≠ fence := by
      rintro rfl
      exact ((h.finish F hF).undropped f hmem).2 hf
    exact ⟨id, mem_of_mem_erase, fun hsig => (if_neg hne).symm.trans hsig⟩

/-- Starting to drop a job that is not of the barrier keeps the invariant. -/
theorem Inv.drop (hf : fence ∉ s.barrier) :
    ({ s with queue := { s.queue with droppers := fence :: s.queue.droppers } } : History).Inv := by
  refine h.of_calls (fun f hsig => hsig) fun F hF f hmem => ?_
  refine ⟨fun hd => ?_, id, id⟩
  rcases mem_cons.1 hd with rfl | hd
  · rw [barrier, hF] at hf
    exact absurd hmem hf
  · exact hd

/-- A worker that arrives at the barrier keeps the invariant. -/
theorem Inv.arrive (hF : s.finish = some F) (hw : s.queue.workers[w]? = some (.running fence))
    (hf : fence ∈ F.fences) (hnew : w ∉ F.arrived) :
    ({ s with finish := some { F with arrived := w :: F.arrived } } : History).Inv := by
  refine h.ring.set_finish h.workers ?_
  rintro G ⟨⟩
  have hfin := h.finish F hF
  obtain ⟨hdequeued, hnot, -⟩ := h.workers.runs_dequeued w (s.current w) fence ⟨hw, rfl⟩
  have he := h.workers.runs_log (n := s.current w) ⟨hw, rfl⟩
  obtain ⟨hlt, hdrop⟩ := h.ring.dequeued_lt hdequeued
  -- the job that the worker runs was added by this call
  have hlate := hfin.late fence hf (s.current w) ⟨he, hnot, hdrop⟩
  refine { hfin with
    arrived_nodup := nodup_cons.2 ⟨hnew, hfin.arrived_nodup⟩
    arrived_lt := ?arrived_lt
    arrived_late := ?arrived_late
    signalled := fun f hmem hsig => (hfin.signalled f hmem hsig).trans (Nat.le_succ _) }
  case arrived_lt =>
    intro v hv
    rcases mem_cons.1 hv with rfl | hv
    · exact (List.getElem?_eq_some_iff.1 hw).1
    · exact hfin.arrived_lt v hv
  case arrived_late =>
    intro v hv
    rcases mem_cons.1 hv with rfl | hv
    · refine ⟨hlate.trans hlt.le, fun n f hr => ?_⟩
      rw [← hr.2]
      exact hlate
    · exact hfin.arrived_late v hv

/-- Adding the next job of the barrier keeps the invariant. -/
theorem Inv.finishAdd (hF : s.finish = some F) (hnext : F.fences[F.added]? = some fence) :
    ({ s.addJob job fence with finish := some { F with added := F.added + 1 } } : History).Inv := by
  obtain ⟨hring, hworkers, hplaced, hkeeps⟩ := h.addJob job fence
  refine hring.set_finish hworkers ?_
  rintro G ⟨⟩
  have hfin := (h.finish F hF).of_keeps (hkeeps F)
  have htake : F.fences.take (F.added + 1) = F.fences.take F.added ++ [fence] := by
    rw [take_add_one, hnext, Option.toList_some]
  have hreset : (s.addJob job fence).queue.signalled fence = false :=
    ((h.ring.ring.added h.ring.clean h.ring.alive job fence).signalled fence).trans (if_pos rfl)
  refine { hfin with
    added_le := (List.getElem?_eq_some_iff.1 hnext).1, signalled := ?signalled, placed := ?placed }
  case signalled =>
    intro f hmem hsig
    rw [htake, mem_append, mem_singleton] at hmem
    rcases hmem with hmem | rfl
    · exact hfin.signalled f hmem hsig
    · rw [hreset] at hsig
      cases hsig
  case placed =>
    intro f hmem
    rw [htake, mem_append, mem_singleton] at hmem
    rcases hmem with hmem | rfl
    · exact hfin.placed f hmem
    · exact hplaced

/-- Starting a barrier with fresh fences, one for each worker, keeps the invariant. -/
theorem Inv.finishCall {fences : List ℕ} (hnodup : fences.Nodup)
    (hlen : fences.length = s.queue.workers.length)
    (hnew : ∀ f ∈ fences, ¬ s.queue.Outstanding f ∧ f ∉ s.queue.droppers) :
    ({ s with finish := some ⟨s.log.length, fences, 0, []⟩ } : History).Inv := by
  refine h.ring.set_finish h.workers ?_
  rintro G ⟨⟩
  constructor
  case before_le => exact le_rfl
  case nodup => exact hnodup
  case length => exact hlen
  case added_le => exact Nat.zero_le _
  case late =>
    -- nobody uses the fences
    intro f hf n hp
    refine absurd ?_ (hnew f hf).1
    rcases h.pending_outstanding hp with ⟨-, hq⟩ | ⟨w, hr⟩
    · exact .queued hq
    · exact .running w hr.1
  case undropped => exact fun f hf => ⟨(hnew f hf).2, fun hr => (hnew f hf).1 (.removed hr)⟩
  case arrived_nodup => exact nodup_nil
  case arrived_lt => exact forall_mem_nil _
  case arrived_late => exact forall_mem_nil _
  case signalled => exact forall_mem_nil _
  case placed => exact forall_mem_nil _

end

/-- The queue is created with the invariant. -/
theorem inv_init {maxJobs : ℕ} (hpos : 0 < maxJobs) (numThreads : ℕ) (resizeIfFull : Bool) :
    (init maxJobs numThreads resizeIfFull).Inv where
  ring := by
    refine ⟨(State.inv_init hpos numThreads resizeIfFull).ring, fun k _ _ => ?_,
      rfl, le_rfl, fun k => ?_, ?_, rfl,
      nodup_nil, ?_⟩
    · simp [init, utilQueueInit, queued, slot, getD_eq_getElem?_getD, getElem?_replicate]
      split_ifs <;> rfl
    · simp [init, utilQueueInit, contents]
    · exact forall_mem_nil _
    · exact forall_mem_nil _
  workers := by
    have hidle : ∀ x ∈ (init maxJobs numThreads resizeIfFull).queue.workers, x = .idle :=
      fun x hx => eq_of_mem_replicate hx
    have hruns : ∀ w n f, ¬ (init maxJobs numThreads resizeIfFull).Runs w n f := by
      rintro w n f ⟨hr, -⟩
      have := hidle _ (mem_of_getElem? hr)
      cases this
    exact ⟨fun x hx => .inl (hidle x hx), fun w n f hr => absurd hr (hruns w n f),
      fun v w n f g hr => absurd hr (hruns v n f), nodup_nil, forall_mem_nil _,
        nodup_nil, forall_mem_nil _,
      forall_mem_nil _⟩
  finish F hF := by cases hF

/-- A step of the workers keeps the invariant. -/
theorem Work.inv (hst : Work s t) (h : s.Inv) : t.Inv := by
  cases hst with
  | wake job fence _ hspace => exact h.wake hspace
  | take w hw hnum => exact h.take hw hnum
  | start w fence hw hnew =>
    exact ⟨{ h.ring with }, h.workers.start hw hnew, fun F hF => { h.finish F hF with }⟩
  | run w fence hw hs hf =>
    refine h.run hw hs fun F hF hmem => absurd hmem ?_
    rwa [barrier, hF] at hf
  | arrive w fence F hF hw hs hf hnew => exact h.arrive hF hw hf hnew
  | leave w fence F hF hw hs hf ha hall =>
    refine h.run hw hs fun G hG _ => ?_
    cases hF.symm.trans hG
    exact hall
  | dropScan fence hf => exact h.dropScan hf
  | dropSignal fence hf => exact h.dropSignal hf
  | finishAdd job fence F hF hnext _ => exact h.finishAdd hF hnext
  | finishEnd F hF _ =>
    refine h.ring.set_finish h.workers ?_
    rintro G ⟨⟩

/-- A call keeps the invariant. -/
theorem Call.inv (hst : Call s t) (h : s.Inv) : t.Inv := by
  cases hst with
  | add job fence _ =>
    obtain ⟨hring, hworkers, -, hkeeps⟩ := h.addJob job fence
    exact ⟨hring, hworkers, fun F hF => (h.finish F hF).of_keeps (hkeeps F)⟩
  | drop fence _ hf => exact h.drop hf
  | finish fences _ hnodup hlen hnew => exact h.finishCall hnodup hlen hnew

/-- The queue takes the steps of `Step`, of which a call of `util_queue_finish` is made up. -/
theorem Work.steps (hst : Work s t) (h : s.Inv) : Steps s.queue t.queue := by
  cases hst with
  | wake job fence hb hspace => exact .single (.wake _ job fence hb hspace)
  | take w hw hnum => exact .single (.take _ w hw h.ring.alive hnum)
  | start => exact .refl
  | run w fence hw _ _ => exact .single (.finish _ w fence hw)
  | arrive => exact .refl
  | leave w fence F _ hw _ _ _ _ => exact .single (.finish _ w fence hw)
  | dropScan fence hf => exact .single (.dropScan _ fence hf)
  | dropSignal fence hf => exact .single (.dropSignal _ fence hf)
  | finishAdd job fence => exact .single (.add _ job fence)
  | finishEnd => exact .refl

/-- A call is a run of the queue. -/
theorem Call.steps (hst : Call s t) : Steps s.queue t.queue := by
  cases hst with
  | add job fence => exact .single (.add _ job fence)
  | drop fence hsig _ => exact .single (.drop _ fence hsig)
  | finish => exact .refl

variable {maxJobs numThreads : ℕ} {resizeIfFull : Bool}

/-- The history is one of a run of the queue. -/
theorem Reachable.inv (hpos : 0 < maxJobs) (h : Reachable maxJobs numThreads resizeIfFull s) :
    s.Inv ∧ Steps (utilQueueInit maxJobs numThreads resizeIfFull) s.queue := by
  induction h with
  | init => exact ⟨inv_init hpos numThreads resizeIfFull, .refl⟩
  | work _ hst ih => exact ⟨hst.inv ih.1, ih.2.trans (hst.steps ih.1)⟩
  | call _ hst ih => exact ⟨hst.inv ih.1, ih.2.trans hst.steps⟩

/-! ### The end of `util_queue_finish` -/

/-- All workers are at the barrier when as many have come as there are workers. -/
theorem FinishInv.mem_arrived (h : s.FinishInv F) (hall : s.queue.workers.length ≤ F.arrived.length)
    (hw : w < s.queue.workers.length) : w ∈ F.arrived := by
  have hsub : F.arrived ⊆ range s.queue.workers.length :=
    fun v hv => mem_range.2 (h.arrived_lt v hv)
  have hperm : F.arrived.Perm (range s.queue.workers.length) :=
    (h.arrived_nodup.subperm hsub).perm_of_length_le (by simpa using hall)
  exact hperm.mem_iff.2 (mem_range.2 hw)

/-- `util_queue_finish` returns only after the jobs that were added before it. -/
theorem Inv.canReturn (h : s.Inv) (hthreads : 0 < s.queue.workers.length) (hF : s.finish = some F)
    (hret : s.CanReturn F) (hn : n < F.before) : n ∈ s.finished ∨ n ∈ s.dropped := by
  have hfin := h.finish F hF
  obtain ⟨hadded, hsig⟩ := hret
  have hpos : 0 < F.fences.length := hfin.length ▸ hthreads
  have hall : s.queue.workers.length ≤ F.arrived.length := by
    have hmem := getElem_mem hpos
    refine hfin.signalled F.fences[0] ?_ (hsig _ hmem).2
    rwa [hadded, take_length]
  have htaken := (hfin.arrived_late 0 (hfin.mem_arrived hall hthreads)).1
  by_cases hd : n ∈ s.dropped
  · exact .inr hd
  rcases h.workers.accounted n (h.ring.mem_dequeued (hn.trans_le htaken) hd) with hf | ⟨w, f, hr⟩
  · exact .inl hf
  · -- a worker that still ran the job would not have come to the barrier
    have hw : w < s.queue.workers.length := (List.getElem?_eq_some_iff.1 hr.1).1
    have := (hfin.arrived_late w (hfin.mem_arrived hall hw)).2 n f hr
    omega

/-! ### Progress -/

/-- No job is on its way, and no call waits. -/
structure Idle (s : History) : Prop where
  /-- Every job is finished or dropped. -/
  jobs : ∀ n < s.log.length, n ∈ s.finished ∨ n ∈ s.dropped
  /-- No caller waits. -/
  blocked : s.queue.blocked = []
  /-- There is no barrier. -/
  finish : s.finish = none

/-- A worker that has something to do. -/
def busy : Worker → Bool
  | .idle => false
  | _ => true

/-- How many steps the threads can take at most. -/
def potential (s : History) : ℕ :=
  5 * s.queue.blocked.length + 4 * s.queue.numQueued + 2 * s.queue.workers.countP busy +
    (s.dequeued.length - s.started.length) + 2 * s.queue.droppers.length + s.queue.removed.length +
    match s.finish with
    | none => 0
    | some F => 6 * (F.fences.length - F.added) + (s.queue.workers.length - F.arrived.length) + 1

/-- A worker that runs a job is counted, and no more when it becomes idle. -/
theorem countP_set_idle {l : List Worker} {f : ℕ} (hw : l[w]? = some (.running f)) :
    (l.set w .idle).countP busy + 1 = l.countP busy := by
  obtain ⟨hlt, hget⟩ := List.getElem?_eq_some_iff.1 hw
  have hpos : 0 < l.countP busy :=
    List.countP_pos_iff.2 ⟨.running f, hget ▸ List.getElem_mem hlt, rfl⟩
  rw [List.countP_set hlt, hget]
  simp only [busy, if_true, Bool.false_eq_true, if_false]
  omega

/-- Changing one worker adds at most one busy worker. -/
theorem countP_set_le {l : List Worker} (x : Worker) (hw : w < l.length) :
    (l.set w x).countP busy ≤ l.countP busy + 1 := by
  rw [countP_set hw]
  split_ifs <;> omega

/-- Running a job lowers the potential. -/
theorem potential_run (hw : s.queue.workers[w]? = some (.running fence)) :
    (s.run w fence).potential < s.potential := by
  have hcount := countP_set_idle hw
  simp only [potential, run, fenceSignal, length_set]
  omega

/-- One more call waits, or one more job is in the ring. -/
theorem Inv.addJob_length (h : s.Inv) (job fence : ℕ) :
    5 * (s.addJob job fence).queue.blocked.length + 4 * (s.addJob job fence).queue.numQueued ≤
      5 * s.queue.blocked.length + 4 * s.queue.numQueued + 5 := by
  have ha := h.ring.ring.added h.ring.clean h.ring.alive job fence
  have hb := congrArg length ha.blocked
  have hc := congrArg length ha.contents
  show 5 * (s.queue.utilQueueAddJob job fence).blocked.length +
    4 * (s.queue.utilQueueAddJob job fence).numQueued ≤ _
  rw [length_contents] at hc
  split_ifs at hb hc
  · simp only [length_cons, length_contents] at hb hc
    omega
  · simp only [length_append, length_singleton, length_contents] at hb hc
    omega

/-- Every step of a thread that is in a call, or is a worker, brings the end nearer. -/
theorem Work.potential_lt (hst : Work s t) (h : s.Inv) : t.potential < s.potential := by
  cases hst with
  | wake job fence hb _ =>
    have hlen := length_erase_of_mem hb
    have hpos := length_pos_of_mem hb
    simp only [potential, History.wake, store]
    omega
  | take w hw hnum =>
    obtain ⟨x, hx⟩ : ∃ x, (s.take w).queue.workers = s.queue.workers.set w x := ⟨_, rfl⟩
    have hcount := countP_set_le x (List.getElem?_eq_some_iff.1 hw).1
    have hlen : (s.take w).dequeued.length ≤ s.dequeued.length + 1 := by
      show (if _ then _ else _ : List ℕ).length ≤ _
      split_ifs <;> simp
    simp only [potential, hx, length_set]
    simp only [History.take, State.take] at hlen ⊢
    omega
  | start w fence hw hnew =>
    -- the job that is started was not yet
    have ht := h.workers.start hw hnew
    have hlen := (ht.started_nodup.subperm ht.started_dequeued).length_le
    simp only [potential, length_append, length_singleton] at hlen ⊢
    omega
  | run w fence hw _ _ => exact potential_run hw
  | arrive w fence F hF hw hs hf hnew =>
    -- a worker that has not come to the barrier is missing there
    have hmissing : F.arrived.length < s.queue.workers.length := by
      by_contra hle
      exact hnew ((h.finish F hF).mem_arrived (not_lt.1 hle) (List.getElem?_eq_some_iff.1 hw).1)
    simp only [potential, hF, length_cons]
    omega
  | leave w fence F hF hw _ _ _ _ => exact potential_run hw
  | dropScan fence hf =>
    have hlen := length_erase_of_mem hf
    have hpos := length_pos_of_mem hf
    rcases h.ring.dropScan_cases fence with ⟨-, heq⟩ | ⟨k, j, -, -, -, heq⟩
    · rw [heq]
      simp only [potential]
      omega
    · rw [heq]
      simp only [potential, length_cons]
      omega
  | dropSignal fence hf =>
    have hlen := length_erase_of_mem hf
    have hpos := length_pos_of_mem hf
    simp only [potential, fenceSignal]
    omega
  | finishAdd job fence F hF hnext _ =>
    have hlt : F.added < F.fences.length := (List.getElem?_eq_some_iff.1 hnext).1
    have hadd := h.addJob_length job fence
    have ha := h.ring.ring.added h.ring.clean h.ring.alive job fence
    have hw : (s.addJob job fence).queue.workers = s.queue.workers := ha.workers
    have hd : (s.addJob job fence).queue.droppers = s.queue.droppers := ha.droppers
    have hr : (s.addJob job fence).queue.removed = s.queue.removed := ha.removed
    have hjobs : (s.addJob job fence).dequeued = s.dequeued ∧
      (s.addJob job fence).started = s.started := ⟨rfl, rfl⟩
    simp only [potential, hF, hw, hd, hr, hjobs]
    omega
  | finishEnd F hF _ =>
    simp only [potential, hF]
    omega

/-- A worker that can do nothing is idle and the ring is empty, or it waits at the barrier for
others. -/
theorem Inv.stuck_worker (h : s.Inv) (hstuck : ∀ t, ¬ Work s t) {x : Worker}
    (hw : s.queue.workers[w]? = some x) : x = .idle ∧ s.queue.numQueued = 0 ∨
      ∃ F f, s.finish = some F ∧ x = .running f ∧ f ∈ F.fences ∧ w ∈ F.arrived ∧
        F.arrived.length < s.queue.workers.length := by
  rcases h.workers.states x (mem_of_getElem? hw) with rfl | ⟨f, rfl⟩
  · refine .inl ⟨rfl, ?_⟩
    by_contra hnum
    exact hstuck _ (.take s w hw hnum)
  · -- a job that is not one of the barrier ends after it was started
    have hs : s.current w ∈ s.started := by
      by_contra hnew
      exact hstuck _ (.start s w f hw hnew)
    have hbarrier : f ∈ s.barrier := by
      by_contra hf
      exact hstuck _ (.run s w f hw hs hf)
    unfold barrier at hbarrier
    cases hF : s.finish with
    | none => rw [hF] at hbarrier; cases hbarrier
    | some F =>
      rw [hF] at hbarrier
      have harrived : w ∈ F.arrived := by
        by_contra hnew
        exact hstuck _ (.arrive s w f F hF hw hs hbarrier hnew)
      refine .inr ⟨F, f, rfl, rfl, hbarrier, harrived, ?_⟩
      by_contra hall
      exact hstuck _ (.leave s w f F hF hw hs hbarrier harrived (not_lt.1 hall))

section

variable (h : s.Inv) (hthreads : 0 < s.queue.workers.length) (hstuck : ∀ t, ¬ Work s t)
include h hthreads hstuck

/-- If no thread can do anything then some worker is idle, and the ring is empty. -/
theorem Inv.stuck_idle : ∃ w : ℕ, s.queue.workers[w]? = some .idle ∧ s.queue.numQueued = 0 := by
  by_contra hnone
  -- otherwise all workers wait at the barrier, but for others
  have hall : ∀ w < s.queue.workers.length, ∃ F, s.finish = some F ∧ w ∈ F.arrived ∧
      F.arrived.length < s.queue.workers.length := by
    intro w hw
    have hget := getElem?_eq_getElem hw
    rcases h.stuck_worker hstuck hget with ⟨hidle, hzero⟩ | ⟨F, f, hF, -, -, ha, hlt⟩
    · exact absurd ⟨w, hidle ▸ hget, hzero⟩ hnone
    · exact ⟨F, hF, ha, hlt⟩
  obtain ⟨F, hF, -, hlt⟩ := hall 0 hthreads
  have hsub : range s.queue.workers.length ⊆ F.arrived := by
    intro w hw
    obtain ⟨G, hG, ha, -⟩ := hall w (mem_range.1 hw)
    cases hF.symm.trans hG
    exact ha
  have hle := (nodup_range.subperm hsub).length_le
  rw [length_range] at hle
  omega

/-- If no thread can do anything then the ring is empty and no call waits for space. -/
theorem Inv.stuck_ring : s.queue.numQueued = 0 ∧ s.queue.blocked = [] := by
  obtain ⟨-, -, hnum⟩ := h.stuck_idle hthreads hstuck
  refine ⟨hnum, ?_⟩
  cases hb : s.queue.blocked with
  | nil => rfl
  | cons x l =>
    have hpos := h.ring.ring.pos
    refine absurd (Work.wake s x.1 x.2 ?_ ?_) (hstuck _)
    · rw [hb]
      exact mem_cons_self
    · omega

/-- If no thread can do anything then `util_queue_finish` has returned. -/
theorem Inv.stuck_finish : s.finish = none := by
  obtain ⟨hnum, hblocked⟩ := h.stuck_ring hthreads hstuck
  cases hF : s.finish with
  | none => rfl
  | some F =>
    exfalso
    have hfin := h.finish F hF
    have hfree : ∀ f, ∀ j, (j, f) ∉ s.queue.blocked := fun f j hb => by
      rw [hblocked] at hb
      cases hb
    -- the call has added all its jobs
    have hadded : F.added = F.fences.length := by
      refine le_antisymm hfin.added_le ?_
      by_contra hlt
      exact hstuck _ (.finishAdd s 0 _ F hF (getElem?_eq_getElem (not_le.1 hlt)) fun f _ => hfree f)
    have hplaced := hfin.placed
    have hsignalled := hfin.signalled
    rw [hadded, take_length] at hplaced hsignalled
    have hruns : ∀ f ∈ F.fences, s.queue.signalled f = true ∨
      ∃ w : ℕ, s.queue.workers[w]? = some (.running f) := by
      intro f hf
      rcases hplaced f hf with hsig | ⟨j, hb⟩ | ⟨n, hp⟩
      · exact .inl hsig
      · exact absurd hb (hfree f j)
      · rcases h.pending_outstanding hp with ⟨-, k, hk, -⟩ | ⟨w, hr⟩
        · omega
        · exact .inr ⟨w, hr.1⟩
    by_cases hall : s.queue.workers.length ≤ F.arrived.length
    · -- the workers have left the barrier, and so the call returns
      refine hstuck _ (.finishEnd s F hF ⟨hadded,
        fun f hf => ⟨hfree f, (hruns f hf).resolve_right ?_⟩⟩)
      rintro ⟨w, hw⟩
      rcases h.stuck_worker hstuck hw with ⟨hx, -⟩ | ⟨G, g, hG, -, -, -, hlt⟩
      · cases hx
      · cases hF.symm.trans hG
        omega
    · -- each job of the barrier is run by a worker, so there is one for each worker
      have hsub : F.fences.map Worker.running ⊆ s.queue.workers := by
        intro x hx
        obtain ⟨f, hf, rfl⟩ := mem_map.1 hx
        obtain ⟨w, hw⟩ := (hruns f hf).resolve_left fun hsig => hall (hsignalled f hf hsig)
        exact mem_of_getElem? hw
      have hnodup : (F.fences.map Worker.running).Nodup :=
        Nodup.map (fun a b hab => by injection hab) hfin.nodup
      have hperm := (hnodup.subperm hsub).perm_of_length_le (by simp [hfin.length])
      obtain ⟨w, hidle, -⟩ := h.stuck_idle hthreads hstuck
      obtain ⟨f, -, hf⟩ := mem_map.1 (hperm.mem_iff.2 (mem_of_getElem? hidle))
      cases hf

/-- When nothing can move, nothing is left to do. -/
theorem Inv.progress : s.Idle := by
  obtain ⟨hnum, hblocked⟩ := h.stuck_ring hthreads hstuck
  have hnone := h.stuck_finish hthreads hstuck
  refine ⟨fun n hn => ?_, hblocked, hnone⟩
  have hlen := h.ring.length_log
  by_cases hd : n ∈ s.dropped
  · exact .inr hd
  rcases h.workers.accounted n (h.ring.mem_dequeued (by omega) hd) with hf | ⟨w, f, hr⟩
  · exact .inl hf
  · rcases h.stuck_worker hstuck hr.1 with ⟨hx, -⟩ | ⟨F, g, hF, -⟩
    · cases hx
    · rw [hnone] at hF
      cases hF

end

/-! ### The jobs of a run -/

/-- Where a job is. -/
inductive Place
  | waiting
  | running
  | finished
  | dropped

/-- The job with number `n` is at a place. In the ring its slot is as it was added, and one worker
has it. -/
def At (s : History) (n : ℕ) : Place → Prop
  | .waiting => s.taken ≤ n ∧ s.queue.contents[n - s.taken]? = s.log[n]?
  | .running => ∃! w, ∃ f, s.Runs w n f
  | .finished => n ∈ s.finished
  | .dropped => n ∈ s.dropped

/-- Every job that was added is in exactly one place. -/
theorem Inv.exists_unique_place (h : s.Inv) (hn : n < s.log.length) : ∃! p, s.At n p := by
  have hring := h.ring
  have hslot : s.taken ≤ n → s.queue.contents[n - s.taken]? = (s.log[n]?).map
      fun e => if n ∈ s.dropped then Slot.cleared else e := fun hle => by
    have := hring.slots (n - s.taken)
    rwa [show s.taken + (n - s.taken) = n by omega] at this
  -- the lists determine the place
  have hunique : ∀ p, s.At n p → p = if n ∈ s.dropped then .dropped
    else if n ∈ s.finished then .finished
      else if n ∈ s.dequeued then .running else .waiting := by
    rintro (_ | _ | _ | _) hp
    case waiting =>
      obtain ⟨hle, heq⟩ := hp
      have hs : n ∉ s.dequeued := fun hs => by
        have := (hring.dequeued_lt hs).1
        omega
      rw [if_neg fun hd => ?_, if_neg fun hf => hs (h.workers.finished_dequeued hf), if_neg hs]
      -- a slot that was dropped is not as it was added
      obtain ⟨j, f, he⟩ := hring.entries _ (getElem_mem hn)
      rw [hslot hle, getElem?_eq_getElem hn, he, Option.map_some, if_pos hd] at heq
      cases heq
    case running =>
      obtain ⟨w, ⟨f, hr⟩, -⟩ := hp
      obtain ⟨hs, hf, -⟩ := h.workers.runs_dequeued w n f hr
      rw [if_neg (hring.dequeued_lt hs).2, if_neg hf, if_pos hs]
    case finished =>
      rw [if_neg (hring.dequeued_lt (h.workers.finished_dequeued hp)).2]
      exact (if_pos hp).symm
    case dropped => exact (if_pos hp).symm
  have hplace : ∃ p, s.At n p := by
    by_cases hd : n ∈ s.dropped
    · exact ⟨.dropped, hd⟩
    by_cases hlt : n < s.taken
    · rcases h.workers.accounted n (hring.mem_dequeued hlt hd) with hf | ⟨w, f, hr⟩
      · exact ⟨.finished, hf⟩
      · exact ⟨.running, w, ⟨f, hr⟩, fun v ⟨g, hg⟩ => h.workers.runs_unique v w n g f hg hr⟩
    · refine ⟨.waiting, not_lt.1 hlt, ?_⟩
      rw [hslot (not_lt.1 hlt)]
      simp [hd]
  obtain ⟨p, hp⟩ := hplace
  exact ⟨p, hp, fun q hq => (hunique q hq).trans (hunique p hp).symm⟩

/-- In every state of a run without a kill:
* the jobs that workers have taken out of the ring are the first ones that were added, in the order
  in which they were added, except for dropped ones, and a worker has the slot that was added under
  the number of its job;
* each job that was added is in exactly one place, and has been started and run at most once, in
  this order;
* `num_queued` is the number of slots from `read_idx` to `write_idx`, which are those of the jobs
  that were not taken yet, those of dropped ones being empty, and the other slots are empty;
* if `util_queue_finish` returns, the jobs that were added before it have been run, except for
  dropped ones;
* the threads go on only finitely long if there are no new calls, and only until all jobs have been
  run or dropped.

The ring went through a run of the steps of `u_queue.c`. -/
theorem utilQueue_jobs (hpos : 0 < maxJobs) (hthreads : 0 < numThreads)
    (h : Reachable maxJobs numThreads resizeIfFull s) :
    (s.dequeued = (range s.taken).filter (fun n => n ∉ s.dropped) ∧
        ∀ w n f, s.Runs w n f → s.log[n]? = some (s.job w) ∧ (s.job w).fence = some f) ∧
      ((∀ n < s.log.length, ∃! p, s.At n p) ∧ s.started.Nodup ∧ s.finished.Nodup ∧ s.dropped.Nodup ∧
        (∀ n ∈ s.started, n ∈ s.dequeued) ∧ ∀ n ∈ s.finished, n ∈ s.started) ∧
      (s.queue.writeIdx = (s.queue.readIdx + s.queue.numQueued) % s.queue.maxJobs ∧
        s.queue.numQueued ≤ s.queue.maxJobs ∧ s.log.length = s.taken + s.queue.numQueued ∧
        (∀ k, s.queue.contents[k]? =
          (s.log[s.taken + k]?).map fun e => if s.taken + k ∈ s.dropped then Slot.cleared else e) ∧
        s.queue.Clean) ∧
      (∀ F, s.finish = some F → s.CanReturn F → ∀ n < F.before, n ∈ s.finished ∨ n ∈ s.dropped) ∧
      (∀ t, Work s t → t.potential < s.potential) ∧ ((∀ t, ¬ Work s t) → s.Idle) ∧
      Steps (utilQueueInit maxJobs numThreads resizeIfFull) s.queue := by
  obtain ⟨hinv, hsteps⟩ := h.inv hpos
  obtain ⟨-, -, hlen⟩ := Steps.inv hpos hsteps hinv.ring.alive
  have hthreads' : 0 < s.queue.workers.length := hlen ▸ hthreads
  refine ⟨⟨hinv.ring.dequeued, fun w n f hr => ?_⟩, ⟨fun n hn => hinv.exists_unique_place hn,
    hinv.workers.started_nodup, hinv.workers.finished_nodup, hinv.ring.dropped_nodup,
    hinv.workers.started_dequeued, hinv.workers.finished_started⟩,
      ⟨hinv.ring.ring.write_eq, hinv.ring.ring.num_le,
    hinv.ring.length_log, hinv.ring.slots, hinv.ring.clean⟩, fun F hF hret n hn => ?_,
    fun t hst => hst.potential_lt hinv, hinv.progress hthreads', hsteps⟩
  · obtain ⟨-, -, j, hj, he⟩ := hinv.workers.runs_dequeued w n f hr
    exact ⟨he, by rw [hj]⟩
  · exact hinv.canReturn hthreads' hF hret hn

/-- A queue with one slot, which grows when the second job is added, and `util_queue_finish` behind
them. -/
theorem utilQueue_jobs_grown : ∃ s : History, Reachable 1 1 true s ∧ s.log.length = 2 ∧
    s.queue.maxJobs = 9 ∧ (∃ F, s.finish = some F ∧ F.before = 2) ∧ ∀ n < 2, ∃! p, s.At n p := by
  have h₁ : Reachable 1 1 true ((init 1 1 true).addJob 5 6) :=
    .call .init (.add _ 5 6 (by simp [barrier, init]))
  have h₂ : Reachable 1 1 true (((init 1 1 true).addJob 5 6).addJob 7 8) :=
    .call h₁ (.add _ 7 8 (by simp [barrier, init, addJob]))
  have h₃ := Reachable.call h₂ (.finish _ [9] rfl (by simp) rfl (by
    intro f hf
    obtain rfl := mem_singleton.1 hf
    refine ⟨fun ho => ?_, by decide⟩
    cases ho with
    | queued hq =>
      obtain ⟨k, hk, j, hj⟩ := hq
      match k, hk, hj with
      | 0, _, hj => cases hj
      | 1, _, hj => cases hj
      | k + 2, hk, _ => exact absurd hk (by simp [addJob, init, utilQueueInit, utilQueueAddJob,
          fenceReset, resize, store])
    | running w hr =>
      cases w with
      | zero => cases hr
      | succ w => cases hr
    | removed hr => cases hr
    | blocked j hb => cases hb))
  exact ⟨_, h₃, rfl, rfl, ⟨_, rfl, rfl⟩, (utilQueue_jobs Nat.one_pos Nat.one_pos h₃).2.1.1⟩

/-- Two workers take two jobs, and the second one starts first. A job is dropped, and `num_queued`
counts its slot although there is no job in the ring. -/
theorem utilQueue_order_and_count :
    (∃ s : History, Reachable 2 2 false s ∧
      s.log = [⟨some 5, some 6⟩, ⟨some 7, some 8⟩] ∧ s.started = [1, 0]) ∧
      ∃ s : History, Reachable 2 1 false s ∧ s.queue.numQueued = 1 ∧
        ∀ slot ∈ s.queue.jobs, slot.job = none := by
  have hadd : ∀ threads, Reachable 2 threads false ((init 2 threads false).addJob 5 6) :=
    fun threads =>
    .call .init (.add _ 5 6 (by simp [barrier, init]))
  constructor
  · have h₁ := Reachable.call (hadd 2) (.add _ 7 8 (by simp [barrier, init, addJob]))
    have h₂ := Reachable.work (.work h₁ (.take _ 0 rfl (by decide))) (.take _ 1 rfl (by decide))
    exact ⟨_, .work (.work h₂ (.start _ 1 8 rfl (by decide)))
      (.start _ 0 6 rfl (by decide)), rfl, rfl⟩
  · have h₁ := Reachable.call (hadd 1) (.drop _ 6 rfl (by simp [barrier, init, addJob]))
    exact ⟨_, .work h₁ (.dropScan _ 6 mem_cons_self), by decide, by decide⟩

end Mesa3D.Queue.History
