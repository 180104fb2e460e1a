import Mesa3D.Util.QueueContents

/-!
# The history of the job queue

The queue of `u_queue.c` in runs without a kill, with `util_queue_finish` and with the history of
its jobs. A job gets a number when it is put into the ring, in the order in which this happens. The
history has the numbers of the jobs that workers have taken out of the ring and of those that they
have started, each in the order of the events, of those that have been run, and of those that
`util_queue_drop_job` has removed. A worker starts its job after it has given up the lock, so that
two workers may start theirs in another order than they have taken them.

`util_queue_finish` adds one job for each worker, which waits at a barrier until all workers are
there. A job is one of these if its fence is one of the fences of the call, which nobody else uses:
the call has allocated them. `finish_lock` lets one call in at a time.

`Work` are the steps of the threads, and `Call` is the beginning of another call by a client.
-/

namespace Mesa3D.Queue

/-- A call of `util_queue_finish` that has the lock. -/
structure Finish where
  /-- The number of jobs that were added before. -/
  before : ℕ
  /-- The fences of its jobs. -/
  fences : List ℕ
  /-- How many jobs of the barrier the call has added, or waits to add. -/
  added : ℕ
  /-- The workers that have come to the barrier. -/
  arrived : List ℕ

/-- A queue with the history of its jobs. -/
structure History where
  /-- The queue. -/
  queue : State
  /-- The jobs that were put into the ring. -/
  log : List Slot
  /-- The number of slots that workers have taken out of the ring. -/
  taken : ℕ
  /-- The jobs that workers have taken out of the ring. -/
  dequeued : List ℕ
  /-- Those that they have started. -/
  started : List ℕ
  /-- Those that are finished. -/
  finished : List ℕ
  /-- Those that were dropped. -/
  dropped : List ℕ
  /-- The number of the job that a worker has. -/
  current : ℕ → ℕ
  /-- The local copy of its slot. -/
  job : ℕ → Slot
  /-- `finish_lock`. -/
  finish : Option Finish

namespace History

/-- A queue that was just made. -/
def init (maxJobs numThreads : ℕ) (resizeIfFull : Bool) : History where
  queue := utilQueueInit maxJobs numThreads resizeIfFull
  log := []
  taken := 0
  dequeued := []
  started := []
  finished := []
  dropped := []
  current := fun _ => 0
  job := fun _ => Slot.cleared
  finish := none

/-- The fences of the call of `util_queue_finish`. -/
def barrier (s : History) : List ℕ :=
  match s.finish with
  | none => []
  | some F => F.fences

/-- `util_queue_add_job`. It waits if the ring is full and cannot grow. -/
def addJob (s : History) (job fence : ℕ) : History :=
  { s with
    queue := s.queue.utilQueueAddJob job fence
    log :=
      if s.queue.numQueued = s.queue.maxJobs ∧ s.queue.resizeIfFull = false then s.log
      else s.log ++ [⟨some job, some fence⟩] }

/-- A call of `util_queue_add_job` that waited for space goes on. -/
def wake (s : History) (job fence : ℕ) : History :=
  { s with
    queue := ({ s.queue with blocked := s.queue.blocked.erase (job, fence) }).store job fence
    log := s.log ++ [⟨some job, some fence⟩] }

/-- A worker takes the first slot, which has a job if that was not dropped. -/
def take (s : History) (w : ℕ) : History :=
  { s with
    queue := s.queue.take w
    taken := s.taken + 1
    dequeued := if (s.queue.slot s.queue.readIdx).job = none then s.dequeued
      else s.dequeued ++ [s.taken]
    current := fun v => if v = w then s.taken else s.current v
    job := fun v => if v = w then s.queue.slot s.queue.readIdx else s.job v }

/-- A worker has run its job and signals the fence. -/
def run (s : History) (w fence : ℕ) : History :=
  { s with
    queue := { s.queue.fenceSignal fence with workers := s.queue.workers.set w .idle }
    finished := s.current w :: s.finished }

/-- The number of the job that `util_queue_drop_job` finds at an index. -/
def numberAt (s : History) (i : ℕ) : ℕ :=
  s.taken + (i + s.queue.maxJobs - s.queue.readIdx) % s.queue.maxJobs

/-- The critical section of `util_queue_drop_job`. -/
def dropScan (s : History) (fence : ℕ) : History :=
  { s with
    queue := s.queue.dropScan fence
    dropped :=
      match s.queue.findFence fence with
      | some i => s.numberAt i :: s.dropped
      | none => s.dropped }

/-- `util_queue_finish` returns when it has added its jobs and their fences are signalled. -/
def CanReturn (s : History) (F : Finish) : Prop :=
  F.added = F.fences.length ∧ ∀ f ∈ F.fences, (∀ j, (j, f) ∉ s.queue.blocked) ∧
    s.queue.signalled f = true

/-- The steps of threads that are in a call, or are workers. -/
inductive Work : History → History → Prop
  | wake (s : History) (job fence : ℕ) (hb : (job, fence) ∈ s.queue.blocked)
      (hspace : s.queue.numQueued ≠ s.queue.maxJobs) : Work s (s.wake job fence)
  | take (s : History) (w : ℕ) (hw : s.queue.workers[w]? = some .idle)
    (hnum : s.queue.numQueued ≠ 0) :
      Work s (s.take w)
  /-- A worker calls `execute` for the job that it has taken. -/
  | start (s : History) (w fence : ℕ) (hw : s.queue.workers[w]? = some (.running fence))
      (hnew : s.current w ∉ s.started) : Work s { s with started := s.started ++ [s.current w] }
  /-- The end of a job that a client has added. -/
  | run (s : History) (w fence : ℕ) (hw : s.queue.workers[w]? = some (.running fence))
      (hs : s.current w ∈ s.started) (hf : fence ∉ s.barrier) : Work s (s.run w fence)
  /-- A worker comes to the barrier. -/
  | arrive (s : History) (w fence : ℕ) (F : Finish) (hF : s.finish = some F)
      (hw : s.queue.workers[w]? = some (.running fence))
      (hs : s.current w ∈ s.started) (hf : fence ∈ F.fences)
      (hnew : w ∉ F.arrived) :
      Work s { s with finish := some { F with arrived := w :: F.arrived } }
  /-- A worker leaves the barrier when all have come. -/
  | leave (s : History) (w fence : ℕ) (F : Finish) (hF : s.finish = some F)
      (hw : s.queue.workers[w]? = some (.running fence))
      (hs : s.current w ∈ s.started) (hf : fence ∈ F.fences)
      (ha : w ∈ F.arrived)
      (hall : s.queue.workers.length ≤ F.arrived.length) : Work s (s.run w fence)
  | dropScan (s : History) (fence : ℕ) (hf : fence ∈ s.queue.droppers) : Work s (s.dropScan fence)
  | dropSignal (s : History) (fence : ℕ) (hf : fence ∈ s.queue.removed) :
      Work s { s with
        queue := { s.queue.fenceSignal fence with removed := s.queue.removed.erase fence } }
  /-- `util_queue_finish` adds its next job when the last one is in the ring. -/
  | finishAdd (s : History) (job fence : ℕ) (F : Finish) (hF : s.finish = some F)
      (hnext : F.fences[F.added]? = some fence)
      (hfree : ∀ f ∈ F.fences, ∀ j, (j, f) ∉ s.queue.blocked) :
      Work s { s.addJob job fence with finish := some { F with added := F.added + 1 } }
  | finishEnd (s : History) (F : Finish) (hF : s.finish = some F) (hret : s.CanReturn F) :
      Work s { s with finish := none }

/-- The beginnings of calls. -/
inductive Call : History → History → Prop
  | add (s : History) (job fence : ℕ) (hf : fence ∉ s.barrier) : Call s (s.addJob job fence)
  | drop (s : History) (fence : ℕ) (hsig : s.queue.signalled fence = false)
    (hf : fence ∉ s.barrier) :
      Call s { s with queue := { s.queue with droppers := fence :: s.queue.droppers } }
  /-- `util_queue_finish` gets the lock. Its fences are new: no job that is on its way has one of
  them. -/
  | finish (s : History) (fences : List ℕ) (hlock : s.finish = none) (hnodup : fences.Nodup)
      (hlen : fences.length = s.queue.workers.length)
      (hnew : ∀ f ∈ fences, ¬ s.queue.Outstanding f ∧ f ∉ s.queue.droppers) :
      Call s { s with finish := some ⟨s.log.length, fences, 0, []⟩ }

/-- The states of a queue in runs without a kill. -/
inductive Reachable (maxJobs numThreads : ℕ) (resizeIfFull : Bool) : History → Prop
  | init : Reachable maxJobs numThreads resizeIfFull (init maxJobs numThreads resizeIfFull)
  | work {s t : History} : Reachable maxJobs numThreads resizeIfFull s → Work s t →
      Reachable maxJobs numThreads resizeIfFull t
  | call {s t : History} : Reachable maxJobs numThreads resizeIfFull s → Call s t →
      Reachable maxJobs numThreads resizeIfFull t

end History

end Mesa3D.Queue
