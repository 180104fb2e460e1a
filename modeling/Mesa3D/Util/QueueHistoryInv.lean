import Mesa3D.Util.QueueHistory

/-!
# Invariants of the history of the job queue

The slots of the ring are those of the jobs with the numbers from `taken` on (`RingInv`): so the
number of a job is its distance from `read_idx`, and jobs leave the ring in the order of their
numbers. Each job that has left it is run by one worker, or has been run (`WorkerInv`). While
`util_queue_finish` waits, its jobs have numbers behind those of the jobs that were added before the
call, and a worker that has come to the barrier does not run one of the latter (`FinishInv`).
-/

namespace Mesa3D.Queue

namespace State

variable {s : State}

/-- What `util_queue_add_job` does: it puts the job into the ring, or waits. -/
structure Added (s t : State) (job fence : ℕ) (waits : Prop) [Decidable waits] : Prop where
  /-- The ring is well formed. -/
  ring : t.RingOk
  /-- The free slots are clear. -/
  clean : t.Clean
  /-- The job is appended, unless the caller waits. -/
  contents : t.contents = if waits then s.contents else s.contents ++ [⟨some job, some fence⟩]
  /-- The caller waits with its job. -/
  blocked : t.blocked = if waits then (job, fence) :: s.blocked else s.blocked
  /-- The fence is reset. -/
  signalled : ∀ f, t.signalled f = if f = fence then false else s.signalled f
  /-- The workers stay. -/
  workers : t.workers = s.workers
  /-- The droppers stay. -/
  droppers : t.droppers = s.droppers
  /-- The removed fences stay. -/
  removed : t.removed = s.removed
  /-- The kill flag stays. -/
  killThreads : t.killThreads = s.killThreads

/-- What `util_queue_add_job` adds, or leaves to a blocked caller. -/
theorem RingOk.added (h : s.RingOk) (hc : s.Clean)
    (halive : s.killThreads = false) (job fence : ℕ) :
    Added s (s.utilQueueAddJob job fence) job fence
      (s.numQueued = s.maxJobs ∧ s.resizeIfFull = false) := by
  have hr : (s.fenceReset fence).RingOk := { h with }
  unfold utilQueueAddJob
  rw [if_neg (by simp [halive])]
  dsimp only
  by_cases hfull : s.numQueued = s.maxJobs
  · have hfull' : (s.fenceReset fence).numQueued = (s.fenceReset fence).maxJobs := hfull
    rw [if_pos hfull']
    cases hresize : s.resizeIfFull with
    | true =>
      have hwaits : ¬ (s.numQueued = s.maxJobs ∧ true = false) := by simp
      rw [if_pos (show (s.fenceReset fence).resizeIfFull = true from hresize)]
      obtain ⟨hr', hroom, -⟩ := hr.resize hfull'
      refine ⟨(hr'.store hroom job fence).1, hr'.clean_store
        (hr.clean_resize hfull') hroom job fence, ?_, ?_,
        fun _ => rfl, rfl, rfl, rfl, rfl⟩
      · rw [if_neg hwaits, hr'.contents_store hroom, hr.contents_resize hfull']
        rfl
      · rw [if_neg hwaits]
        rfl
    | false =>
      rw [if_neg (by simp [fenceReset, hresize])]
      have hwaits : s.numQueued = s.maxJobs ∧ false = false := ⟨hfull, rfl⟩
      exact ⟨{ h with }, hc, (if_pos hwaits).symm, (if_pos hwaits).symm, fun _ =>
        rfl, rfl, rfl, rfl, rfl⟩
  · have hroom : (s.fenceReset fence).numQueued < (s.fenceReset fence).maxJobs :=
      Nat.lt_of_le_of_ne h.num_le hfull
    have hwaits : ¬ (s.numQueued = s.maxJobs ∧ s.resizeIfFull = false) := fun hw => hfull hw.1
    rw [if_neg (show ¬ (s.fenceReset fence).numQueued = (s.fenceReset fence).maxJobs from hfull)]
    refine ⟨(hr.store hroom job fence).1, hr.clean_store hc hroom job fence, ?_, ?_,
      fun _ => rfl, rfl, rfl, rfl, rfl⟩
    · rw [if_neg hwaits, hr.contents_store hroom]
      rfl
    · rw [if_neg hwaits]
      rfl

end State

namespace History

open Option List

variable {s t : History}

/-! ### The ring -/

/-- The slots of the ring are those of the jobs from `taken` on, except for those that were
dropped. -/
structure RingInv (s : History) : Prop where
  /-- The ring is well formed. -/
  ring : s.queue.RingOk
  /-- The free slots are clear. -/
  clean : s.queue.Clean
  /-- The queue is not being destroyed. -/
  alive : s.queue.killThreads = false
  /-- No more jobs are taken than were added. -/
  taken_le : s.taken ≤ s.log.length
  /-- The ring holds the jobs that were not taken, without the dropped ones. -/
  slots : ∀ k, s.queue.contents[k]? =
    (s.log[s.taken + k]?).map fun e => if s.taken + k ∈ s.dropped then Slot.cleared else e
  /-- The log has jobs with fences. -/
  entries : ∀ e ∈ s.log, ∃ j f, e = ⟨some j, some f⟩
  /-- The jobs that were taken and not dropped are dequeued in order. -/
  dequeued : s.dequeued = (range s.taken).filter fun n => n ∉ s.dropped
  /-- No job is dropped twice. -/
  dropped_nodup : s.dropped.Nodup
  /-- Jobs that were added are dropped. -/
  dropped_lt : ∀ n ∈ s.dropped, n < s.log.length

/-- The jobs in the ring are the last ones that were added. -/
theorem RingInv.length_log (h : s.RingInv) : s.log.length = s.taken + s.queue.numQueued := by
  have hle := h.taken_le
  apply le_antisymm
  · by_contra hlt
    have hslot := h.slots s.queue.numQueued
    rw [getElem?_eq_none (by simp), getElem?_eq_getElem (by omega), map_some] at hslot
    cases hslot
  · by_contra hlt
    have hslot := h.slots (s.log.length - s.taken)
    rw [getElem?_eq_none (show s.log.length ≤ _ by omega), map_none,
      State.getElem?_contents, if_pos (by omega)] at hslot
    cases hslot

/-- Jobs are put into the ring. -/
theorem RingInv.append (h : s.RingInv) {q : State} {l : List Slot}
    (hring : q.RingOk) (hclean : q.Clean)
    (halive : q.killThreads = s.queue.killThreads) (hl : ∀ e ∈ l, ∃ j f, e = ⟨some j, some f⟩)
    (hcontents : q.contents = s.queue.contents ++ l) :
    ({ s with queue := q, log := s.log ++ l } : History).RingInv where
  ring := hring
  clean := hclean
  alive := halive.trans h.alive
  taken_le := h.taken_le.trans (by simp)
  slots k := by
    have hlen := h.length_log
    simp only [hcontents]
    by_cases hk : k < s.queue.numQueued
    · rw [getElem?_append_left (by simpa using hk), getElem?_append_left (by omega), h.slots k]
    · -- the new numbers were not dropped
      have hnew : s.taken + k ∉ s.dropped := fun hmem => by
        have := h.dropped_lt _ hmem
        omega
      rw [getElem?_append_right (by simpa using hk), getElem?_append_right (by omega),
        State.length_contents, show s.taken + k - s.log.length = k - s.queue.numQueued by omega]
      simp [hnew]
  entries e he := (mem_append.1 he).elim (h.entries e) (hl e)
  dequeued := h.dequeued
  dropped_nodup := h.dropped_nodup
  dropped_lt n hn := (h.dropped_lt n hn).trans_le (by simp)

/-- A slot of the ring is that of its job, if it was not dropped. -/
theorem RingInv.slot (h : s.RingInv) {k : ℕ} (hk : k < s.queue.numQueued) : ∃ j f,
    s.log[s.taken + k]? = some ⟨some j, some f⟩ ∧ s.queue.queued k =
      if s.taken + k ∈ s.dropped then Slot.cleared else ⟨some j, some f⟩ := by
  have hlt : s.taken + k < s.log.length := by
    rw [h.length_log]
    omega
  obtain ⟨j, f, he⟩ := h.entries _ (getElem_mem hlt)
  have hslot := h.slots k
  rw [State.getElem?_contents, if_pos hk, getElem?_eq_getElem hlt,
    he, map_some, some.injEq] at hslot
  exact ⟨j, f, by rw [getElem?_eq_getElem hlt, he], hslot⟩

/-- The slot at the read index holds the oldest job of the log that was not taken, unless
dropped. -/
theorem RingInv.head (h : s.RingInv) (hnum : s.queue.numQueued ≠ 0) : ∃ j f,
    s.log[s.taken]? = some ⟨some j, some f⟩ ∧ s.queue.slot s.queue.readIdx =
      if s.taken ∈ s.dropped then Slot.cleared else ⟨some j, some f⟩ := by
  have hslot := h.slot (Nat.pos_of_ne_zero hnum)
  rwa [h.ring.queued_zero] at hslot

/-- Taking a job keeps the ring in step with the log. -/
theorem RingInv.take (h : s.RingInv) (hnum : s.queue.numQueued ≠ 0) {w : ℕ}
    (hw : w < s.queue.workers.length) : (s.take w).RingInv where
  ring := (h.ring.take hnum hw).1
  clean := h.ring.clean_take h.clean w
  alive := h.alive
  taken_le := by
    have := h.length_log
    show s.taken + 1 ≤ s.log.length
    omega
  slots k := by
    have hslot := h.slots (k + 1)
    rw [h.ring.contents_take hnum w, getElem?_cons_succ] at hslot
    show (s.queue.take w).contents[k]? = (s.log[s.taken + 1 + k]?).map
      fun e => if s.taken + 1 + k ∈ s.dropped then Slot.cleared else e
    rw [hslot, show s.taken + (k + 1) = s.taken + 1 + k by omega]
  entries := h.entries
  dequeued := by
    obtain ⟨j, f, -, hslot⟩ := h.head hnum
    show (if (s.queue.slot s.queue.readIdx).job = none then s.dequeued
      else s.dequeued ++ [s.taken]) =
      (range (s.taken + 1)).filter fun n => n ∉ s.dropped
    rw [range_succ, filter_append, ← h.dequeued, hslot]
    by_cases hd : s.taken ∈ s.dropped <;> simp [hd, Slot.cleared]
  dropped_nodup := h.dropped_nodup
  dropped_lt := h.dropped_lt

/-- The number of the job at a distance from `read_idx`. -/
theorem numberAt_eq (h : s.queue.RingOk) {k : ℕ} (hk : k < s.queue.maxJobs) :
    s.numberAt ((s.queue.readIdx + k) % s.queue.maxJobs) = s.taken + k := by
  have hr := h.read_lt
  unfold numberAt
  congr 1
  by_cases hlt : s.queue.readIdx + k < s.queue.maxJobs
  · have hidx : (s.queue.readIdx + k) % s.queue.maxJobs =
      s.queue.readIdx + k := Nat.mod_eq_of_lt hlt
    rw [hidx, show s.queue.readIdx + k + s.queue.maxJobs - s.queue.readIdx =
      k + s.queue.maxJobs by omega,
      Nat.add_mod_right, Nat.mod_eq_of_lt hk]
  · -- the index has wrapped
    have hidx : (s.queue.readIdx + k) % s.queue.maxJobs =
      s.queue.readIdx + k - s.queue.maxJobs := by
      rw [Nat.mod_eq_sub_mod (by omega), Nat.mod_eq_of_lt (by omega)]
    rw [hidx, show s.queue.readIdx + k - s.queue.maxJobs + s.queue.maxJobs - s.queue.readIdx = k
      by omega, Nat.mod_eq_of_lt hk]

/-- What `util_queue_drop_job` does to the ring: nothing, or it clears the slot of a job with its
fence. -/
theorem RingInv.dropScan_cases (h : s.RingInv) (fence : ℕ) :
    (s.queue.findFence fence = none ∧ s.dropScan fence =
      { s with queue := { s.queue with droppers := s.queue.droppers.erase fence } }) ∨
    ∃ k j, k < s.queue.numQueued ∧ s.taken + k ∉ s.dropped ∧
      s.log[s.taken + k]? = some ⟨some j, some fence⟩ ∧ s.dropScan fence =
        { s with
          queue := { s.queue with
            jobs := s.queue.jobs.set ((s.queue.readIdx + k) % s.queue.maxJobs) Slot.cleared
            droppers := s.queue.droppers.erase fence
            removed := fence :: s.queue.removed }
          dropped := (s.taken + k) :: s.dropped } := by
  unfold dropScan State.dropScan
  cases hfind : s.queue.findFence fence with
  | none => exact .inl ⟨rfl, rfl⟩
  | some i =>
    obtain ⟨k, hk, rfl, hfence⟩ := h.ring.findFence_some hfind
    obtain ⟨j, f, he, hslot⟩ := h.slot hk
    rw [hslot] at hfence
    have hnot : s.taken + k ∉ s.dropped := by
      intro hd
      rw [if_pos hd] at hfence
      cases hfence
    rw [if_neg hnot] at hfence
    obtain rfl : f = fence := some.inj hfence
    refine .inr ⟨k, j, hk, hnot, he, ?_⟩
    simp only [numberAt_eq h.ring (hk.trans_le h.ring.num_le)]

/-- Clearing the slot of a dropped job keeps the ring in step with the log. -/
theorem RingInv.dropScan (h : s.RingInv) (fence : ℕ) : (s.dropScan fence).RingInv := by
  rcases h.dropScan_cases fence with ⟨-, heq⟩ | ⟨k, j, hk, hnot, hentry, heq⟩
  · rw [heq]
    exact { h with ring := { h.ring with } }
  · rw [heq]
    have hlen := h.length_log
    constructor
    case ring =>
      exact ⟨h.ring.pos,
        by simpa using h.ring.length, h.ring.read_lt, h.ring.num_le, h.ring.write_eq⟩
    case clean => exact h.ring.clean_clear h.clean _
    case alive => exact h.alive
    case taken_le => exact h.taken_le
    case slots =>
      intro l
      refine (congrArg (fun q => q[l]?) (h.ring.contents_clear hk)).trans ?_
      simp only [getElem?_set, State.length_contents, mem_cons]
      by_cases hkl : k = l
      · subst hkl
        rw [if_pos rfl, if_pos hk, hentry]
        simp
      · rw [if_neg hkl, h.slots l]
        congr 1
        funext e
        simp [Ne.symm hkl]
    case entries => exact h.entries
    case dequeued =>
      rw [h.dequeued]
      refine filter_congr fun n hn => ?_
      have hlt := mem_range.1 hn
      have hne : n ≠ s.taken + k := by omega
      simp [hne]
    case dropped_nodup => exact nodup_cons.2 ⟨hnot, h.dropped_nodup⟩
    case dropped_lt =>
      intro n hn
      rcases mem_cons.1 hn with rfl | hn
      · show s.taken + k < s.log.length
        omega
      · exact h.dropped_lt n hn

/-! ### The workers -/

/-- Worker `w` has the job with number `n`, whose fence is `f`. -/
def Runs (s : History) (w n f : ℕ) : Prop :=
  s.queue.workers[w]? = some (.running f) ∧ s.current w = n

/-- Each job that has left the ring is run by one worker, or has been run, after it was started. -/
structure WorkerInv (s : History) : Prop where
  /-- The workers wait or run. -/
  states : ∀ x ∈ s.queue.workers, x = .idle ∨ ∃ f, x = .running f
  /-- A worker runs a job that was dequeued and is not finished. -/
  runs_dequeued : ∀ w n f, s.Runs w n f → n ∈ s.dequeued ∧ n ∉ s.finished ∧
    ∃ j, s.job w = ⟨some j, some f⟩ ∧ s.log[n]? = some (s.job w)
  /-- No two workers run one job. -/
  runs_unique : ∀ v w n f g, s.Runs v n f → s.Runs w n g → v = w
  /-- No job is started twice. -/
  started_nodup : s.started.Nodup
  /-- A started job was dequeued. -/
  started_dequeued : ∀ n ∈ s.started, n ∈ s.dequeued
  /-- No job is finished twice. -/
  finished_nodup : s.finished.Nodup
  /-- A finished job was started. -/
  finished_started : ∀ n ∈ s.finished, n ∈ s.started
  /-- A dequeued job is finished or being run. -/
  accounted : ∀ n ∈ s.dequeued, n ∈ s.finished ∨ ∃ w f, s.Runs w n f

/-- A finished job was dequeued. -/
theorem WorkerInv.finished_dequeued (h : s.WorkerInv) {n : ℕ}
    (hn : n ∈ s.finished) : n ∈ s.dequeued :=
  h.started_dequeued n (h.finished_started n hn)

/-- The entry of the log for a job that a worker has. -/
theorem WorkerInv.runs_log (h : s.WorkerInv) {w n f : ℕ} (hr : s.Runs w n f) :
    ∃ j, s.log[n]? = some ⟨some j, some f⟩ := by
  obtain ⟨-, -, j, hj, he⟩ := h.runs_dequeued w n f hr
  exact ⟨j, hj ▸ he⟩

/-- Jobs are put into the ring. -/
theorem WorkerInv.append (h : s.WorkerInv) {q : State}
    (hworkers : q.workers = s.queue.workers) (l : List Slot) :
    ({ s with queue := q, log := s.log ++ l } : History).WorkerInv := by
  cases q
  subst hworkers
  refine { h with runs_dequeued := fun w n f hr => ?_ }
  obtain ⟨hs, hf, j, hj, he⟩ := h.runs_dequeued w n f hr
  exact ⟨hs, hf, j, hj, (getElem?_append_left (List.getElem?_eq_some_iff.1 he).1).trans he⟩

/-- A worker starts its job. -/
theorem WorkerInv.start (h : s.WorkerInv) {w fence : ℕ}
    (hw : s.queue.workers[w]? = some (.running fence))
    (hnew : s.current w ∉ s.started) :
    ({ s with started := s.started ++ [s.current w] } : History).WorkerInv :=
  { h with
    started_nodup := nodup_append.2 ⟨h.started_nodup, by simp, fun n hn m hm heq =>
      hnew (mem_singleton.1 hm ▸ heq ▸ hn)⟩
    started_dequeued := by
      simp only [mem_append, mem_singleton]
      rintro n (hn | rfl)
      · exact h.started_dequeued n hn
      · exact (h.runs_dequeued w _ fence ⟨hw, rfl⟩).1
    finished_started := fun n hn => mem_append_left _ (h.finished_started n hn) }

/-- A dequeued job was taken and not dropped. -/
theorem RingInv.dequeued_lt (h : s.RingInv) {n : ℕ} (hn : n ∈ s.dequeued) :
    n < s.taken ∧ n ∉ s.dropped := by
  rw [h.dequeued, mem_filter] at hn
  exact ⟨mem_range.1 hn.1, by simpa using hn.2⟩

/-- A job that was taken and not dropped is dequeued. -/
theorem RingInv.mem_dequeued (h : s.RingInv) {n : ℕ} (hn : n < s.taken)
    (hd : n ∉ s.dropped) : n ∈ s.dequeued := by
  rw [h.dequeued, mem_filter]
  exact ⟨mem_range.2 hn, by simpa using hd⟩

/-- Only worker `w` changes. -/
theorem runs_set {v w n f : ℕ} {x : Worker} (hw : w < s.queue.workers.length)
    (hworkers : t.queue.workers = s.queue.workers.set w x)
    (hcurrent : ∀ v ≠ w, t.current v = s.current v) :
    t.Runs v n f ↔ v = w ∧ x = .running f ∧ t.current w = n ∨ v ≠ w ∧ s.Runs v n f := by
  unfold Runs
  rw [hworkers]
  by_cases hvw : v = w
  · simp [hvw, hw]
  · simp [hvw, Ne.symm hvw, hcurrent v hvw]

/-- Only worker `w` changes: its job has been run, if it had one, and it is idle or starts another
one. -/
theorem WorkerInv.set (h : s.WorkerInv) {w : ℕ} {x : Worker} (hw : w < s.queue.workers.length)
    (hworkers : t.queue.workers = s.queue.workers.set w x)
    (hcurrent : ∀ v ≠ w, t.current v = s.current v)
    (hjob : ∀ v ≠ w, t.job v = s.job v) (hlog : t.log = s.log) (hstarted : t.started = s.started)
    (hx : x = .idle ∨ ∃ j f, x = .running f ∧ t.current w ∉ s.dequeued ∧
      t.job w = ⟨some j, some f⟩ ∧
      s.log[t.current w]? = some (t.job w))
    (hdequeued : ∀ n, n ∈ t.dequeued ↔ n ∈ s.dequeued ∨ ∃ f, t.Runs w n f)
    (hfinished : ∀ n, n ∈ t.finished ↔ n ∈ s.finished ∨ ∃ f, s.Runs w n f)
    (hnodup : t.finished.Nodup) (hrun : ∀ n f, s.Runs w n f → n ∈ t.finished →
      n ∈ s.started) : t.WorkerInv := by
  have hother : ∀ {v n f}, v ≠ w → (t.Runs v n f ↔ s.Runs v n f) := fun hvw => by
    rw [runs_set hw hworkers hcurrent]
    simp [hvw]
  have hnew : ∀ {n f}, t.Runs w n f → n ∉ s.dequeued ∧
      ∃ j, t.job w = ⟨some j, some f⟩ ∧ s.log[n]? = some (t.job w) := by
    intro n f hr
    obtain ⟨-, hxf, rfl⟩ | ⟨hne, -⟩ := (runs_set hw hworkers hcurrent).1 hr
    · obtain rfl | ⟨j, g, rfl, hn, hj⟩ := hx
      · cases hxf
      · cases hxf
        exact ⟨hn, j, hj⟩
    · exact absurd rfl hne
  constructor
  case states =>
    intro y hy
    rw [hworkers] at hy
    rcases mem_or_eq_of_mem_set hy with hy | rfl
    · exact h.states y hy
    · obtain rfl | ⟨-, f, rfl, -⟩ := hx
      · exact .inl rfl
      · exact .inr ⟨f, rfl⟩
  case runs_dequeued =>
    intro v n f hr
    rw [hlog, hdequeued, hfinished]
    by_cases hvw : v = w
    · subst hvw
      obtain ⟨hn, hj⟩ := hnew hr
      refine ⟨.inr ⟨f, hr⟩, ?_, hj⟩
      rintro (hf | ⟨g, hg⟩)
      · exact hn (h.finished_dequeued hf)
      · exact hn (h.runs_dequeued v n g hg).1
    · rw [hjob v hvw]
      have hr := (hother hvw).1 hr
      obtain ⟨hs, hf, hj⟩ := h.runs_dequeued v n f hr
      refine ⟨.inl hs, ?_, hj⟩
      rintro (hf' | ⟨g, hg⟩)
      · exact hf hf'
      · exact hvw (h.runs_unique v w n f g hr hg)
  case runs_unique =>
    intro u v n f g hu hv
    by_cases huw : u = w <;> by_cases hvw : v = w
    · rw [huw, hvw]
    · subst huw
      exact absurd (h.runs_dequeued v n g ((hother hvw).1 hv)).1 (hnew hu).1
    · subst hvw
      exact absurd (h.runs_dequeued u n f ((hother huw).1 hu)).1 (hnew hv).1
    · exact h.runs_unique u v n f g ((hother huw).1 hu) ((hother hvw).1 hv)
  case started_nodup => exact hstarted ▸ h.started_nodup
  case started_dequeued =>
    intro n hn
    rw [hstarted] at hn
    exact (hdequeued n).2 (.inl (h.started_dequeued n hn))
  case finished_nodup => exact hnodup
  case finished_started =>
    intro n hn
    rw [hstarted]
    rcases (hfinished n).1 hn with hf | ⟨f, hr⟩
    · exact h.finished_started n hf
    · exact hrun n f hr hn
  case accounted =>
    intro n hn
    rw [hfinished]
    rcases (hdequeued n).1 hn with hn | ⟨f, hr⟩
    · rcases h.accounted n hn with hf | ⟨v, f, hr⟩
      · exact .inl (.inl hf)
      · by_cases hvw : v = w
        · subst hvw
          exact .inl (.inr ⟨f, hr⟩)
        · exact .inr ⟨v, f, (hother hvw).2 hr⟩
    · exact .inr ⟨w, f, hr⟩

/-- Taking a job keeps what holds of the workers. -/
theorem WorkerInv.take (h : s.WorkerInv) (hring : s.RingInv) {w : ℕ}
    (hw : s.queue.workers[w]? = some .idle)
    (hnum : s.queue.numQueued ≠ 0) : (s.take w).WorkerInv := by
  have hlt : w < s.queue.workers.length := (List.getElem?_eq_some_iff.1 hw).1
  have hcurrent : (s.take w).current w = s.taken := if_pos rfl
  have hfinished : ∀ n, n ∈ s.finished ↔ n ∈ s.finished ∨
    ∃ f, s.Runs w n f := fun n => by simp [Runs, hw]
  obtain ⟨j, f, he, hslot⟩ := hring.head hnum
  by_cases hd : s.taken ∈ s.dropped
  · -- the job was dropped, and the worker remains idle
    rw [if_pos hd] at hslot
    refine h.set hlt (x := .idle) (by simp [History.take, State.take, hslot, Slot.cleared])
      (fun v hv => if_neg hv) (fun v hv => if_neg hv) rfl rfl (.inl rfl)
      (fun n => ?_) hfinished h.finished_nodup
      fun n f hr => absurd hr (by simp [Runs, hw])
    simp [Runs, History.take, State.take, hslot, Slot.cleared, hlt]
  · -- the worker starts a job with a new number
    rw [if_neg hd] at hslot
    have hjob : (s.take w).job w = ⟨some j, some f⟩ := (if_pos rfl).trans hslot
    refine h.set hlt (x := .running f)
      (by simp [History.take, State.take, hslot]) (fun v hv => if_neg hv)
      (fun v hv => if_neg hv) rfl rfl
      (.inr ⟨j, f, rfl, hcurrent ▸ fun hmem => (hring.dequeued_lt hmem).1.false, hjob,
        hcurrent ▸ hjob ▸ he⟩) (fun n => ?_) hfinished h.finished_nodup fun n f hr =>
          absurd hr (by simp [Runs, hw])
    simp [Runs, History.take, State.take, hslot, hlt, eq_comm]

/-- Running a job keeps what holds of the workers. -/
theorem WorkerInv.run (h : s.WorkerInv) {w fence : ℕ}
    (hw : s.queue.workers[w]? = some (.running fence))
    (hs : s.current w ∈ s.started) : (s.run w fence).WorkerInv := by
  have hlt : w < s.queue.workers.length := (List.getElem?_eq_some_iff.1 hw).1
  obtain ⟨-, hnot, -⟩ := h.runs_dequeued w (s.current w) fence ⟨hw, rfl⟩
  refine h.set hlt rfl (fun _ _ => rfl) (fun _ _ => rfl) rfl rfl (.inl rfl)
    (fun n => ?_) (fun n => ?_)
    (nodup_cons.2 ⟨hnot, h.finished_nodup⟩) fun n f hr _ => hr.2 ▸ hs
  · simp [Runs, History.run, hlt]
  · simp [Runs, History.run, hw, or_comm, eq_comm]

end History

end Mesa3D.Queue
