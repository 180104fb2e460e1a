import Mesa3D.Concurrency.Ring

/-!
# The job queue

`u_queue.c`: clients add jobs to a ring buffer, worker threads take them out and run them, and each
job signals its fence when it has run. `util_queue_drop_job` takes a job out of the ring, and
`util_queue_killall_and_wait` makes the workers terminate. A worker that terminates signals the
fences of the jobs that are left in the ring.

Each critical section under `queue->lock` is one step, and so is each access of a fence outside. A
thread that waits on a condition variable takes its step when the condition holds, so that it does
not matter who wakes it. A worker is one of `Worker`; the calls of clients that have given up the
lock are kept in lists: those that wait for space (`blocked`), those that have seen an unsignalled
fence and are about to look for its job (`droppers`), and those that have removed a job and are
about to signal its fence (`removed`). `stored` is the list of the fences of all jobs that were ever
put into the ring.

Jobs and fences are pointers, here numbers, and a job is not `NULL`. The callbacks of a job are left
out.
-/

namespace Mesa3D.Queue

/-- `struct util_queue_job`: the pointers to the job and to its fence, if they are not `NULL`. -/
structure Slot where
  /-- The job. -/
  job : Option ℕ
  /-- Its fence. -/
  fence : Option ℕ
deriving DecidableEq

/-- A slot that `memset` has cleared. -/
def Slot.cleared : Slot := ⟨none, none⟩

/-- Where a worker is in `util_queue_thread_func`. -/
inductive Worker
  /-- At the head of the loop. -/
  | idle
  /-- It runs a job with the given fence. -/
  | running (fence : ℕ)
  /-- Behind the loop, in front of the lock. -/
  | draining
  | terminated
deriving DecidableEq

/-- A queue with its fences, its workers and the calls that are not finished. -/
structure State where
  /-- The ring. -/
  jobs : List Slot
  /-- `read_idx`. -/
  readIdx : ℕ
  /-- `write_idx`. -/
  writeIdx : ℕ
  /-- `num_queued`. -/
  numQueued : ℕ
  /-- `max_jobs`. -/
  maxJobs : ℕ
  /-- `UTIL_QUEUE_INIT_RESIZE_IF_FULL`. -/
  resizeIfFull : Bool
  /-- `kill_threads`. -/
  killThreads : Bool
  /-- The fences that are signalled. -/
  signalled : ℕ → Bool
  /-- The threads. -/
  workers : List Worker
  /-- The job and fence of each call of `util_queue_add_job` that waits for space. -/
  blocked : List (ℕ × ℕ)
  /-- The callers of `util_queue_drop_job` that wait for the lock, by their fence. -/
  droppers : List ℕ
  /-- Those that have removed their job and not signalled it yet. -/
  removed : List ℕ
  /-- The fences of the jobs that were stored. -/
  stored : List ℕ

/-- `util_queue_init`, with all fences signalled, as `util_queue_fence_init` leaves them. -/
def utilQueueInit (maxJobs numThreads : ℕ) (resizeIfFull : Bool) : State where
  jobs := List.replicate maxJobs Slot.cleared
  readIdx := 0
  writeIdx := 0
  numQueued := 0
  maxJobs := maxJobs
  resizeIfFull := resizeIfFull
  killThreads := false
  signalled := fun _ => true
  workers := List.replicate numThreads .idle
  blocked := []
  droppers := []
  removed := []
  stored := []

namespace State

variable (s : State)

/-- The slot with an index. -/
def slot (i : ℕ) : Slot := s.jobs.getD i Slot.cleared

/-- `util_queue_fence_signal`. -/
def fenceSignal (fence : ℕ) : State :=
  { s with signalled := fun f => if f = fence then true else s.signalled f }

/-- `util_queue_fence_reset`. -/
def fenceReset (fence : ℕ) : State :=
  { s with signalled := fun f => if f = fence then false else s.signalled f }

/-- The end of `util_queue_add_job`: the job is put into the ring. -/
def store (job fence : ℕ) : State :=
  { s with
    jobs := s.jobs.set s.writeIdx ⟨some job, some fence⟩
    writeIdx := (s.writeIdx + 1) % s.maxJobs
    numQueued := s.numQueued + 1
    stored := fence :: s.stored }

/-- The part of `util_queue_add_job` that makes a full ring larger. -/
def resize : State :=
  let copied := (Ring.walkFull s.maxJobs s.writeIdx s.readIdx).map s.slot
  { s with
    jobs := copied ++ List.replicate (s.maxJobs + 8 - copied.length) Slot.cleared
    readIdx := 0
    writeIdx := copied.length
    maxJobs := s.maxJobs + 8 }

/-- `util_queue_add_job` up to the point where it has stored the job, or waits for space. -/
def utilQueueAddJob (job fence : ℕ) : State :=
  if s.killThreads then s
  else
    let s := s.fenceReset fence
    if s.numQueued = s.maxJobs then
      if s.resizeIfFull then s.resize.store job fence
      else { s with blocked := (job, fence) :: s.blocked }
    else s.store job fence

/-- A worker takes the job at `read_idx`. A job that was dropped is a no-op. -/
def take (w : ℕ) : State :=
  let job := s.slot s.readIdx
  { s with
    jobs := s.jobs.set s.readIdx Slot.cleared
    readIdx := (s.readIdx + 1) % s.maxJobs
    numQueued := s.numQueued - 1
    workers := s.workers.set w
      (match job.job, job.fence with
        | some _, some fence => .running fence
        | _, _ => .idle) }

/-- The loop body of a worker that signals the remaining jobs before terminating. -/
def drainSlot (i : ℕ) : State :=
  match (s.slot i).job, (s.slot i).fence with
  | some _, some fence =>
    { s.fenceSignal fence with jobs := s.jobs.set i { s.slot i with job := none } }
  | _, _ => s

/-- The last critical section of a worker. -/
def drain (w : ℕ) : State :=
  let t := (Ring.walk s.maxJobs s.writeIdx s.maxJobs s.readIdx).foldl drainSlot s
  { t with
    readIdx := s.writeIdx
    numQueued := 0
    workers := s.workers.set w .terminated }

/-- The index at which `util_queue_drop_job` finds the fence. -/
def findFence (fence : ℕ) : Option ℕ :=
  (Ring.walk s.maxJobs s.writeIdx s.maxJobs s.readIdx).find? fun i =>
    (s.slot i).fence == some fence

/-- The critical section of `util_queue_drop_job`. If the job is not found, the call only waits for
the fence. -/
def dropScan (fence : ℕ) : State :=
  match s.findFence fence with
  | some i =>
    { s with
      jobs := s.jobs.set i Slot.cleared
      droppers := s.droppers.erase fence
      removed := fence :: s.removed }
  | none => { s with droppers := s.droppers.erase fence }

end State

/-- The steps of the threads. -/
inductive Step : State → State → Prop
  /-- A client calls `util_queue_add_job`. -/
  | add (s : State) (job fence : ℕ) : Step s (s.utilQueueAddJob job fence)
  /-- A call that waited for space goes on. -/
  | wake (s : State) (job fence : ℕ) (hb : (job, fence) ∈ s.blocked)
      (hspace : s.numQueued ≠ s.maxJobs) :
      Step s (({ s with blocked := s.blocked.erase (job, fence) }).store job fence)
  /-- A worker takes a job. -/
  | take (s : State) (w : ℕ) (hw : s.workers[w]? = some .idle) (hkill : s.killThreads = false)
      (hqueued : s.numQueued ≠ 0) : Step s (s.take w)
  /-- A worker has run its job and signals the fence. -/
  | finish (s : State) (w fence : ℕ) (hw : s.workers[w]? = some (.running fence)) :
      Step s { s.fenceSignal fence with workers := s.workers.set w .idle }
  /-- A worker sees that it has to terminate. -/
  | leave (s : State) (w : ℕ) (hw : s.workers[w]? = some .idle) (hkill : s.killThreads = true) :
      Step s { s with workers := s.workers.set w .draining }
  /-- A worker signals the remaining jobs and terminates. -/
  | drain (s : State) (w : ℕ) (hw : s.workers[w]? = some .draining) : Step s (s.drain w)
  /-- A client calls `util_queue_drop_job` on a fence that is not signalled. -/
  | drop (s : State) (fence : ℕ) (hf : s.signalled fence = false) :
      Step s { s with droppers := fence :: s.droppers }
  /-- The call looks for the job. -/
  | dropScan (s : State) (fence : ℕ) (hf : fence ∈ s.droppers) : Step s (s.dropScan fence)
  /-- The call signals the fence of the job that it has removed. -/
  | dropSignal (s : State) (fence : ℕ) (hf : fence ∈ s.removed) :
      Step s { s.fenceSignal fence with removed := s.removed.erase fence }
  /-- A client calls `util_queue_killall_and_wait`. -/
  | kill (s : State) : Step s { s with killThreads := true }

/-- One or more steps, or none. -/
abbrev Steps : State → State → Prop := Relation.ReflTransGen Step

end Mesa3D.Queue
