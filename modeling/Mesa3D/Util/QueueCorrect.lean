import Mesa3D.Util.Queue
import Mathlib.Data.List.GetD

/-!
# The job queue at its end

Each fence of a stored job is signalled, or the job is somewhere on its way: in the ring, run by a
worker, taken out by a call that is about to signal the fence, or added again by a call that waits
for space (`Outstanding`). Every step keeps this (`Inv`), except for the last critical section of a
worker: its loop runs from `read_idx` to `write_idx` and visits nothing if the ring is full, because
the two are then the same.

`fencesSignalled_of_room` shows that the loop is enough if the ring is not full when the workers are
told to terminate and nobody waits for space. `full_ring_unsignalled` is the run in which it is not.
-/

namespace Mesa3D.Queue

open List

variable {s t : State} {f : ℕ}

variable {i fence w v : ℕ} {l : List Worker} {x : Worker}

namespace State

/-! ### The ring -/

/-- The indices of the ring fit together. -/
structure RingOk (s : State) : Prop where
  /-- There is a slot. -/
  pos : 0 < s.maxJobs
  /-- The array has the size of the ring. -/
  length : s.jobs.length = s.maxJobs
  /-- The read index is a slot. -/
  read_lt : s.readIdx < s.maxJobs
  /-- No more jobs are queued than there are slots. -/
  num_le : s.numQueued ≤ s.maxJobs
  /-- The write index is behind the queued jobs. -/
  write_eq : s.writeIdx = (s.readIdx + s.numQueued) % s.maxJobs

/-- The slot at a distance from `read_idx`. -/
def queued (s : State) (k : ℕ) : Slot := s.slot ((s.readIdx + k) % s.maxJobs)

/-- A job with the fence is in the ring. -/
def Queued (s : State) (f : ℕ) : Prop := ∃ k < s.numQueued, ∃ j, s.queued k = ⟨some j, some f⟩

/-- The write index is inside the ring. -/
theorem RingOk.write_lt (h : s.RingOk) : s.writeIdx < s.maxJobs := by
  rw [h.write_eq]
  exact Nat.mod_lt _ h.pos

/-- Storing in one slot leaves the others. -/
theorem slot_set_ne (s : State) {k : ℕ} (x : Slot) (h : i ≠ k) :
    (s.jobs.set i x).getD k Slot.cleared = s.slot k := by
  simp [slot, getD_eq_getElem?_getD, getElem?_set_ne h]

/-- The slot that is stored to. -/
theorem slot_set_self (s : State) (x : Slot) (h : i < s.jobs.length) :
    (s.jobs.set i x).getD i Slot.cleared = x := by
  simp [getD_eq_getElem?_getD, h]

/-! On `State.contents`, storing a job appends, a larger ring has the same list, and taking a job
removes the head. -/

/-- The slots between `read_idx` and `write_idx`. -/
def contents (s : State) : List Slot := (range s.numQueued).map s.queued

/-- There are as many queued jobs as the counter says. -/
@[simp]
theorem length_contents (s : State) : s.contents.length = s.numQueued := by simp [contents]

/-- The queued jobs in order, by their distance from the read index. -/
theorem getElem?_contents (s : State) (k : ℕ) :
    s.contents[k]? = if k < s.numQueued then some (s.queued k) else none := by
  unfold contents
  rw [getElem?_map]
  split_ifs with h
  · rw [getElem?_range h, Option.map_some]
  · rw [getElem?_eq_none (by simpa using h), Option.map_none]

/-- A fence is queued when some job of the contents has it. -/
theorem queued_iff : s.Queued f ↔ ∃ j, ⟨some j, some f⟩ ∈ s.contents := by
  simp only [Queued, contents, mem_map, mem_range]
  constructor
  · rintro ⟨k, hk, j, hj⟩
    exact ⟨j, k, hk, hj⟩
  · rintro ⟨j, k, hk, hj⟩
    exact ⟨k, hk, j, hj⟩

/-- Two distances below the size of the ring lead to different slots. -/
theorem slot_ne {k l : ℕ} (hk : k < s.maxJobs) (hl : l < s.maxJobs) (hne : k ≠ l) :
    (s.readIdx + k) % s.maxJobs ≠ (s.readIdx + l) % s.maxJobs :=
  fun heq => hne (Ring.add_mod_inj hk hl heq)

section

variable (h : s.RingOk)
include h

/-- The oldest job is at the read index. -/
theorem RingOk.queued_zero : s.queued 0 = s.slot s.readIdx := by
  rw [queued, Nat.add_zero, Nat.mod_eq_of_lt h.read_lt]

/-- The slots after a job was stored. -/
theorem RingOk.queued_store (hroom : s.numQueued < s.maxJobs)
    (job fence k : ℕ) (hk : k < s.maxJobs) :
    (s.store job fence).queued k =
      if k = s.numQueued then ⟨some job, some fence⟩ else s.queued k := by
  simp only [queued, store, slot]
  split_ifs with heq
  · rw [heq, ← h.write_eq]
    exact s.slot_set_self _ (by rw [h.length]; exact h.write_lt)
  · refine s.slot_set_ne _ ?_
    rw [h.write_eq]
    exact slot_ne hroom hk (Ne.symm heq)

/-- Storing a job appends it to the contents. -/
theorem RingOk.contents_store (hroom : s.numQueued < s.maxJobs) (job fence : ℕ) :
    (s.store job fence).contents = s.contents ++ [⟨some job, some fence⟩] := by
  have hnew := h.queued_store hroom job fence s.numQueued hroom
  rw [if_pos rfl] at hnew
  have hold : ∀ k ∈ range s.numQueued, (s.store job fence).queued k = s.queued k := by
    intro k hk
    have hlt := mem_range.1 hk
    rw [h.queued_store hroom job fence k (by omega), if_neg (by omega)]
  have hnum : (s.store job fence).numQueued = s.numQueued + 1 := rfl
  rw [contents, hnum, range_succ, map_append, map_congr_left hold, map_singleton, hnew]
  rfl

/-- On a full ring the walk from read to write index visits every slot in order. -/
theorem RingOk.walkFull_eq (hfull : s.numQueued = s.maxJobs) :
    Ring.walkFull s.maxJobs s.writeIdx s.readIdx = Ring.slots s.maxJobs s.readIdx s.maxJobs := by
  obtain ⟨n, hn⟩ : ∃ n, s.maxJobs = n + 1 := ⟨s.maxJobs - 1, by have := h.pos; omega⟩
  have hwrite : s.writeIdx = (s.readIdx + (n + 1)) % s.maxJobs := by rw [h.write_eq, hfull, hn]
  rw [hwrite, Ring.walkFull_eq h.read_lt (by omega), ← hn]

/-- The slots of a ring that was made larger. -/
theorem RingOk.queued_resize (hfull : s.numQueued = s.maxJobs) (k : ℕ) (hk : k < s.maxJobs + 8) :
    s.resize.queued k = if k < s.maxJobs then s.queued k else Slot.cleared := by
  simp only [queued, resize, slot, Nat.zero_add]
  rw [Nat.mod_eq_of_lt hk, h.walkFull_eq hfull]
  split_ifs with hlt
  · rw [getD_append _ _ _ _ (by rw [length_map]; simpa [Ring.slots] using hlt)]
    simp [Ring.slots, getD_eq_getElem?_getD, slot, hlt]
  · rw [getD_append_right _ _ _ _ (by simp [Ring.slots]; omega)]
    simp [getD_eq_getElem?_getD, getElem?_replicate]
    split_ifs <;> rfl

/-- Growing the ring keeps the contents. -/
theorem RingOk.contents_resize (hfull : s.numQueued = s.maxJobs) :
    s.resize.contents = s.contents := by
  refine map_congr_left fun k hk => ?_
  have hlt : k < s.numQueued := mem_range.1 hk
  rw [h.queued_resize hfull k (by omega), if_pos (by omega)]

/-- The slots after a worker has taken the first one. -/
theorem RingOk.queued_take (w k : ℕ) (hk : k + 1 < s.maxJobs) :
    (s.take w).queued k = s.queued (k + 1) := by
  have hshift : ((s.readIdx + 1) % s.maxJobs + k) % s.maxJobs =
    (s.readIdx + (k + 1)) % s.maxJobs := by
    rw [Nat.mod_add_mod]
    congr 1
    omega
  simp only [queued, take, slot, hshift]
  refine s.slot_set_ne _ ?_
  have hne := slot_ne h.pos hk (Nat.succ_ne_zero k).symm
  rwa [Nat.add_zero, Nat.mod_eq_of_lt h.read_lt] at hne

/-- Taking a job removes the first of the contents. -/
theorem RingOk.contents_take (hnum : s.numQueued ≠ 0) (w : ℕ) :
    s.contents = s.slot s.readIdx :: (s.take w).contents := by
  obtain ⟨n, hn⟩ := Nat.exists_eq_succ_of_ne_zero hnum
  have hle := h.num_le
  have hnum' : (s.take w).numQueued = n := by simp [take, hn]
  have hold : ∀ k ∈ range n, (s.take w).queued k = s.queued (k + 1) := fun k hk =>
    h.queued_take w k (by have := mem_range.1 hk; omega)
  rw [contents, contents, hnum', map_congr_left hold, hn, Nat.succ_eq_add_one, range_succ_eq_map,
    map_cons, h.queued_zero, map_map]
  rfl

/-- Storing a job in a ring with room keeps the jobs that are there, and adds this one. -/
theorem RingOk.store (hroom : s.numQueued < s.maxJobs) (job fence : ℕ) :
    (s.store job fence).RingOk ∧ (∀ f, s.Queued f → (s.store job fence).Queued f) ∧
      (s.store job fence).Queued fence := by
  simp only [queued_iff, h.contents_store hroom]
  refine ⟨⟨h.pos, ?_, h.read_lt, hroom, ?_⟩, ?_, job, by simp⟩
  · simp [State.store, h.length]
  · simp only [State.store, h.write_eq, Nat.mod_add_mod]
    congr 1
  · rintro f ⟨j, hj⟩
    exact ⟨j, mem_append_left _ hj⟩

/-- A full ring that is made larger has the same jobs. -/
theorem RingOk.resize (hfull : s.numQueued = s.maxJobs) :
    s.resize.RingOk ∧ s.resize.numQueued < s.resize.maxJobs ∧
      ∀ f, s.Queued f → s.resize.Queued f := by
  have hlen : ((Ring.walkFull s.maxJobs s.writeIdx s.readIdx).map s.slot).length = s.maxJobs := by
    simp [h.walkFull_eq hfull, Ring.slots]
  simp only [queued_iff, h.contents_resize hfull]
  refine ⟨⟨?_, ?_, ?_, ?_, ?_⟩, ?_, fun f hf => hf⟩
  · simp [State.resize]
  · simp only [State.resize, length_append, length_replicate, hlen]
    omega
  · simp [State.resize]
  · simp only [State.resize]
    omega
  · simp only [State.resize, hlen, Nat.zero_add, hfull]
    rw [Nat.mod_eq_of_lt (by omega)]
  · simp only [State.resize]
    omega

/-- A worker takes the first job of the ring. -/
theorem RingOk.take (hnum : s.numQueued ≠ 0) {w : ℕ} (hw : w < s.workers.length) :
    (s.take w).RingOk ∧
      ∀ f, s.Queued f → (s.take w).Queued f ∨ (s.take w).workers[w]? = some (.running f) := by
  have hle := h.num_le
  refine ⟨⟨h.pos, ?_, Nat.mod_lt _ h.pos, ?_, ?_⟩, fun f hf => ?_⟩
  · simp [State.take, h.length]
  · simp only [State.take]
    omega
  · simp only [State.take, Nat.mod_add_mod, h.write_eq]
    congr 1
    omega
  · rw [queued_iff, h.contents_take hnum w] at hf
    obtain ⟨j, hj⟩ := hf
    rcases mem_cons.1 hj with hslot | hj
    · right
      simp [State.take, ← hslot, hw]
    · exact .inl (queued_iff.2 ⟨j, hj⟩)

end

/-! ### The last critical section of a worker -/

/-- What the loop has done after some slots: it has changed nothing but these slots and the fences,
and the fences of the jobs in these slots are signalled. -/
structure Drained (s t : State) (is : List ℕ) : Prop where
  /-- Only slots and fences change. -/
  same : t = { s with jobs := t.jobs, signalled := t.signalled }
  /-- The array keeps its size. -/
  length : t.jobs.length = s.jobs.length
  /-- Other slots stay. -/
  kept : ∀ i ∉ is, t.slot i = s.slot i
  /-- Signalled fences stay so. -/
  signalled : ∀ f, s.signalled f = true → t.signalled f = true
  /-- The fences of the slots are signalled. -/
  visited : ∀ i ∈ is, ∀ j f, s.slot i = ⟨some j, some f⟩ → t.signalled f = true

/-- Draining one slot signals its fence and clears it. -/
theorem drainSlot_drained (s : State) (i : ℕ) : Drained s (s.drainSlot i) [i] := by
  unfold drainSlot
  split
  · next j fence hj hf =>
    refine ⟨rfl, by simp, fun i' hi' => ?_, fun f hsig => ?_, fun i' hi' j' f hs => ?_⟩
    · exact s.slot_set_ne _ fun h => hi' (by simp [h])
    · simp [fenceSignal, hsig]
    · obtain rfl : i' = i := by simpa using hi'
      rw [hs] at hf
      obtain rfl : f = fence := Option.some.inj hf
      simp [fenceSignal]
  · next hno =>
    refine ⟨rfl, rfl, fun _ _ => rfl, fun f hsig => hsig, fun i' hi' j' f hs => ?_⟩
    obtain rfl : i' = i := by simpa using hi'
    exact (hno j' f (by rw [hs]) (by rw [hs])).elim

/-- Draining one slot more. -/
theorem Drained.concat {u : State} {is : List ℕ} (h : Drained s t is) (h' : Drained t u [i]) :
    Drained s u (is ++ [i]) where
  same := by
    have h1 := h'.same
    rw [h.same] at h1
    exact h1
  length := h'.length.trans h.length
  kept i' hi' := by
    simp only [mem_append, not_or] at hi'
    rw [h'.kept i' hi'.2, h.kept i' hi'.1]
  signalled f hf := h'.signalled f (h.signalled f hf)
  visited i' hi' j f hs := by
    by_cases hold : i' ∈ is
    · exact h'.signalled f (h.visited i' hold j f hs)
    · have hnew : i' ∈ [i] := (mem_append.1 hi').resolve_left hold
      exact h'.visited i' hnew j f (by rw [h.kept i' hold, hs])

/-- The loop over the slots drains each of them. -/
theorem foldl_drained (s : State) (is : List ℕ) : Drained s (is.foldl drainSlot s) is := by
  induction is using reverseRecOn with
  | nil => exact ⟨rfl, rfl, fun _ _ => rfl, fun _ h => h, by simp⟩
  | append_singleton is i ih =>
    rw [foldl_append]
    exact ih.concat (drainSlot_drained _ i)

/-- There is room in the ring, or all jobs in it were dropped. -/
def Room (s : State) : Prop := s.numQueued < s.maxJobs ∨ ∀ k < s.numQueued, (s.queued k).job = none

/-- The last critical section of a worker signals the fences of all jobs in the ring, if there is
room. -/
theorem RingOk.drain (h : s.RingOk) (hroom : s.Room) (w : ℕ) :
    (s.drain w).RingOk ∧ (∀ f, s.Queued f → (s.drain w).signalled f = true) ∧
      ∀ f, s.signalled f = true → (s.drain w).signalled f = true := by
  have hd := foldl_drained s (Ring.walk s.maxJobs s.writeIdx s.maxJobs s.readIdx)
  unfold State.drain
  generalize (Ring.walk s.maxJobs s.writeIdx s.maxJobs s.readIdx).foldl drainSlot s = t at hd
  have hmax : t.maxJobs = s.maxJobs := by rw [hd.same]
  have hwrite : t.writeIdx = s.writeIdx := by rw [hd.same]
  refine ⟨⟨?_, ?_, ?_, Nat.zero_le _, ?_⟩, ?_, hd.signalled⟩
  · exact hmax ▸ h.pos
  · exact hd.length.trans (h.length.trans hmax.symm)
  · exact hmax ▸ h.write_lt
  · show t.writeIdx = (s.writeIdx + 0) % t.maxJobs
    rw [hwrite, hmax, Nat.add_zero, Nat.mod_eq_of_lt h.write_lt]
  · rintro f ⟨k, hk, j, hj⟩
    rcases hroom with hlt | hdead
    · refine hd.visited _ ?_ j f hj
      rw [h.write_eq, Ring.walk_eq h.read_lt hlt h.num_le]
      exact Ring.mem_slots.2 ⟨k, hk, rfl⟩
    · have := hdead k hk
      rw [hj] at this
      cases this

/-! ### The invariant -/

/-- A job with the fence is on its way. -/
inductive Outstanding (s : State) (f : ℕ) : Prop
  | queued (h : s.Queued f)
  | running (w : ℕ) (h : s.workers[w]? = some (.running f))
  | removed (h : f ∈ s.removed)
  | blocked (j : ℕ) (h : (j, f) ∈ s.blocked)

/-- A job stays on its way through a step that keeps the places of jobs outside the ring. -/
theorem Outstanding.step (h : s.Outstanding f) (hqueued : s.Queued f → t.Outstanding f)
    (hrunning : ∀ w : ℕ, s.workers[w]? = some (.running f) → t.workers[w]? = some (.running f) := by
      exact fun _ h => h)
    (hremoved : f ∈ s.removed → f ∈ t.removed := by exact fun h => h)
    (hblocked : ∀ j, (j, f) ∈ s.blocked → (j, f) ∈ t.blocked := by exact fun _ h => h) :
    t.Outstanding f := by
  cases h with
  | queued h => exact hqueued h
  | running w h => exact .running w (hrunning w h)
  | removed h => exact .removed (hremoved h)
  | blocked j h => exact .blocked j (hblocked j h)

/-- The fence of each job that was stored is signalled, or a job with it is on its way. -/
structure Inv (s : State) : Prop where
  /-- The ring is well formed. -/
  ring : s.RingOk
  /-- Every fence that was stored is signalled or has its job outstanding. -/
  accounted : ∀ f ∈ s.stored, s.signalled f = true ∨ s.Outstanding f

/-- The queue is created with the invariant. -/
theorem inv_init {maxJobs : ℕ} (hpos : 0 < maxJobs) (numThreads : ℕ) (resizeIfFull : Bool) :
    (utilQueueInit maxJobs numThreads resizeIfFull).Inv where
  ring := ⟨hpos, by simp [utilQueueInit], hpos, Nat.zero_le _, by simp [utilQueueInit]⟩
  accounted := by simp [utilQueueInit]

/-- Storing a job accounts for its fence, and keeps the others accounted for. -/
theorem RingOk.inv_store (h : s.RingOk) (hroom : s.numQueued < s.maxJobs) {job : ℕ}
    (hacc : ∀ f ∈ s.stored, f ≠ fence → s.signalled f = true ∨ s.Outstanding f) :
    (s.store job fence).Inv := by
  obtain ⟨hr, hkeep, hnew⟩ := h.store hroom job fence
  refine ⟨hr, fun f hf => ?_⟩
  by_cases heq : f = fence
  · subst heq
    exact .inr (.queued hnew)
  · have hf' : f ∈ s.stored := (mem_cons.1 hf).resolve_left heq
    exact (hacc f hf' heq).imp_right fun ho => ho.step fun hq => .queued (hkeep f hq)

/-- Adding a job, to a slot or to the blocked callers, keeps the invariant. -/
theorem Inv.add (h : s.Inv) (job fence : ℕ) : (s.utilQueueAddJob job fence).Inv := by
  have hr : (s.fenceReset fence).RingOk := { h.ring with }
  have hsig : ∀ {f}, f ≠ fence → s.signalled f = true → (s.fenceReset fence).signalled f = true :=
    fun hne hs => by simp [fenceReset, hne, hs]
  unfold utilQueueAddJob
  dsimp only
  split_ifs with hkill hfull hresize
  · exact h
  · -- the fence is reset, and the ring is made larger
    obtain ⟨hr', hroom, hkeep⟩ := hr.resize hfull
    refine hr'.inv_store hroom fun f hf hne => (h.accounted f hf).imp (hsig hne) fun ho => ?_
    exact ho.step fun hq => .queued (hkeep f hq)
  · refine ⟨{ h.ring with }, fun f hf => ?_⟩
    by_cases heq : f = fence
    · subst heq
      exact .inr (.blocked job mem_cons_self)
    · refine (h.accounted f hf).imp (hsig heq) fun ho => ?_
      exact ho.step (fun h => .queued h) (fun _ h => h) (fun h => h) fun j => mem_cons_of_mem _
  · refine hr.inv_store (Nat.lt_of_le_of_ne h.ring.num_le hfull) fun f hf hne => ?_
    exact (h.accounted f hf).imp (hsig hne) fun ho => ho.step fun h => .queued h

/-- A blocked caller that is woken stores its job and keeps the invariant. -/
theorem Inv.wake (h : s.Inv) {job : ℕ} (hspace : s.numQueued ≠ s.maxJobs) :
    (({ s with blocked := s.blocked.erase (job, fence) }).store job fence).Inv := by
  have hring : ({ s with blocked := s.blocked.erase (job, fence) } : State).RingOk :=
    { h.ring with }
  refine hring.inv_store (Nat.lt_of_le_of_ne h.ring.num_le hspace)
    fun f hf hne => (h.accounted f hf).imp_right fun ho => ?_
  refine ho.step (fun h => .queued h) (fun _ h => h) (fun h => h) fun j hb => ?_
  exact (mem_erase_of_ne (by simp [hne])).2 hb

/-- Another worker goes on with its job when one that does not run it changes. -/
theorem running_set {y : Worker} (hw : l[w]? = some x) (hx : x ≠ .running f)
    (hv : l[v]? = some (.running f)) : (l.set w y)[v]? = some (.running f) := by
  have hne : w ≠ v := by
    rintro rfl
    rw [hw] at hv
    exact hx (Option.some.inj hv)
  rwa [getElem?_set_ne hne]

/-- A worker that takes a job keeps the invariant. -/
theorem Inv.take (h : s.Inv) {w : ℕ} (hw : s.workers[w]? = some .idle) (hnum : s.numQueued ≠ 0) :
    (s.take w).Inv := by
  have hlt : w < s.workers.length := (List.getElem?_eq_some_iff.1 hw).1
  obtain ⟨hr, hq'⟩ := h.ring.take hnum hlt
  refine ⟨hr, fun f hf => (h.accounted f hf).imp_right fun ho => ?_⟩
  refine ho.step (fun hq => ?_) fun v hv => running_set hw (by simp) hv
  rcases hq' f hq with hq | hrun
  · exact .queued hq
  · exact .running w hrun

/-- A worker that finishes its job keeps the invariant. -/
theorem Inv.finish (h : s.Inv) (hw : s.workers[w]? = some (.running fence)) :
    ({ s.fenceSignal fence with workers := s.workers.set w .idle } : State).Inv := by
  refine ⟨{ h.ring with }, fun f hf => ?_⟩
  by_cases heq : f = fence
  · exact .inl (by simp [fenceSignal, heq])
  refine (h.accounted f hf).imp (fun hsig => by simp [fenceSignal, hsig]) fun ho => ?_
  refine ho.step (fun h => .queued h) fun v hv => running_set hw ?_ hv
  simpa using fun h => heq h.symm

/-- A worker that leaves its loop keeps the invariant. -/
theorem Inv.leave (h : s.Inv) (hw : s.workers[w]? = some .idle) :
    ({ s with workers := s.workers.set w .draining } : State).Inv := by
  refine ⟨{ h.ring with }, fun f hf => (h.accounted f hf).imp_right fun ho => ?_⟩
  exact ho.step (fun h => .queued h) fun v hv => running_set hw (by simp) hv

/-- What draining the ring does not touch. -/
theorem drain_frame (s : State) (w : ℕ) : (s.drain w).stored = s.stored ∧
    (s.drain w).blocked = s.blocked ∧ (s.drain w).removed = s.removed ∧
    (s.drain w).killThreads = s.killThreads ∧ (s.drain w).maxJobs = s.maxJobs := by
  have hd := (foldl_drained s (Ring.walk s.maxJobs s.writeIdx s.maxJobs s.readIdx)).same
  unfold drain
  generalize (Ring.walk s.maxJobs s.writeIdx s.maxJobs s.readIdx).foldl drainSlot s = t at hd
  rw [hd]
  exact ⟨rfl, rfl, rfl, rfl, rfl⟩

/-- Draining the ring keeps the invariant. -/
theorem Inv.drain (h : s.Inv) (hroom : s.Room) {w : ℕ} (hw : s.workers[w]? = some .draining) :
    (s.drain w).Inv := by
  obtain ⟨hr, hsignalled, hkeep⟩ := h.ring.drain hroom w
  obtain ⟨hst, hb, hrm, -, -⟩ := s.drain_frame w
  refine ⟨hr, fun f hf => ?_⟩
  rw [hst] at hf
  rcases h.accounted f hf with hsig | hq | ⟨v, hv⟩ | hrem | ⟨j, hblk⟩
  · exact .inl (hkeep f hsig)
  · exact .inl (hsignalled f hq)
  · exact .inr (.running v (running_set hw (by simp) hv))
  · exact .inr (.removed (by rwa [hrm]))
  · exact .inr (.blocked j (by rwa [hb]))

/-- The slots after one was cleared. -/
theorem RingOk.queued_clear (h : s.RingOk) (i k : ℕ) :
    ({ s with jobs := s.jobs.set i Slot.cleared } : State).queued k =
      if i = (s.readIdx + k) % s.maxJobs then Slot.cleared else s.queued k := by
  split_ifs with heq
  · subst heq
    exact s.slot_set_self _ (by rw [h.length]; exact Nat.mod_lt _ h.pos)
  · exact s.slot_set_ne _ heq

/-- The slot found for a fence holds it. -/
theorem findFence_eq_some (h : s.findFence fence = some i) : (s.slot i).fence = some fence := by
  simpa using find?_some h

/-- Clearing the slot of a dropped job keeps the invariant. -/
theorem Inv.dropScan (h : s.Inv) (fence : ℕ) : (s.dropScan fence).Inv := by
  unfold State.dropScan
  split
  · next i hi =>
    refine ⟨⟨h.ring.1, by simp [h.ring.length], h.ring.3, h.ring.4, h.ring.5⟩, fun f hf => ?_⟩
    refine (h.accounted f hf).imp_right fun ho =>
      ho.step (fun hq => ?_) (fun _ h => h) (mem_cons_of_mem _)
    obtain ⟨k, hk, j, hj⟩ := hq
    by_cases heq : i = (s.readIdx + k) % s.maxJobs
    · have hfence := findFence_eq_some hi
      rw [heq, ← queued, hj] at hfence
      obtain rfl : f = fence := Option.some.inj hfence
      exact .removed mem_cons_self
    · exact .queued ⟨k, hk, j, ((h.ring.queued_clear i k).trans (if_neg heq)).trans hj⟩
  · refine ⟨{ h.ring with }, fun f hf => ?_⟩
    exact (h.accounted f hf).imp_right fun ho => ho.step fun h => .queued h

/-- Signalling the fence of a dropped job keeps the invariant. -/
theorem Inv.dropSignal (h : s.Inv) (fence : ℕ) :
    ({ s.fenceSignal fence with removed := s.removed.erase fence } : State).Inv := by
  refine ⟨{ h.ring with }, fun f hf => ?_⟩
  by_cases heq : f = fence
  · exact .inl (by simp [fenceSignal, heq])
  refine (h.accounted f hf).imp (fun hsig => by simp [fenceSignal, hsig]) fun ho => ?_
  exact ho.step (fun h => .queued h) (fun _ h => h) (mem_erase_of_ne heq).2

end State

open State

/-- Every step accounts for all fences, if workers terminate only while there is room. -/
theorem Step.inv (hst : Step s t) (h : s.Inv)
    (hroom : ∀ w : ℕ, s.workers[w]? = some .draining → s.Room) : t.Inv := by
  cases hst with
  | add job fence => exact h.add job fence
  | wake job fence hb hspace => exact h.wake hspace
  | take w hw hkill hqueued => exact h.take hw hqueued
  | finish w fence hw => exact h.finish hw
  | leave w hw hkill => exact h.leave hw
  | drain w hw => exact h.drain (hroom w hw) hw
  | dropScan fence hf => exact h.dropScan fence
  | dropSignal fence hf => exact h.dropSignal fence
  | drop | kill =>
    -- neither the ring, the fences, the workers nor the calls that have a job change
    refine ⟨{ h.ring with }, fun f hf => ?_⟩
    exact (h.accounted f hf).imp_right fun ho => ho.step fun h => .queued h

/-! ### Up to the call that makes the workers terminate -/

/-- Adding a job leaves the workers and the kill flag. -/
theorem killThreads_add (s : State) (job fence : ℕ) :
    (s.utilQueueAddJob job fence).killThreads = s.killThreads ∧
      (s.utilQueueAddJob job fence).workers = s.workers := by
  unfold utilQueueAddJob
  dsimp only
  split_ifs <;> exact ⟨rfl, rfl⟩

/-- Clearing the slot of a dropped job leaves the workers and the kill flag. -/
theorem killThreads_dropScan (s : State) (fence : ℕ) :
    (s.dropScan fence).killThreads = s.killThreads ∧ (s.dropScan fence).workers = s.workers := by
  unfold dropScan
  split <;> exact ⟨rfl, rfl⟩

/-- Nothing takes back the call that makes the workers terminate. -/
theorem Step.killThreads_mono (hst : Step s t) (hk : s.killThreads = true) :
    t.killThreads = true := by
  cases hst with
  | add job fence => rw [(killThreads_add s job fence).1, hk]
  | dropScan fence hf => rw [(killThreads_dropScan s fence).1, hk]
  | drain w hw => rw [(s.drain_frame w).2.2.2.1, hk]
  | kill => rfl
  | _ => exact hk

/-- No step adds or removes a worker. -/
theorem Step.length_workers (hst : Step s t) : t.workers.length = s.workers.length := by
  cases hst with
  | add job fence => rw [(killThreads_add s job fence).2]
  | dropScan fence hf => rw [(killThreads_dropScan s fence).2]
  | kill | drop fence hf | dropSignal fence hf | wake job fence hb hspace => rfl
  | _ => exact length_set ..

/-- No worker has left its loop. -/
def Working (s : State) : Prop :=
  ∀ w : ℕ, s.workers[w]? ≠ some .draining ∧ s.workers[w]? ≠ some .terminated

/-- A worker that changes is the only one. -/
theorem getElem?_set_ne_of {y : Worker} (hxy : x ≠ y) (hl : l[v]? ≠ some y) :
    (l.set w x)[v]? ≠ some y := by
  rw [getElem?_set]
  split_ifs <;> simp_all

/-- While the queue is not killed, no step makes a worker leave. -/
theorem Step.working (hst : Step s t) (h : Working s) (hk : t.killThreads = false) : Working t := by
  intro v
  obtain ⟨hd, ht⟩ := h v
  cases hst with
  | add job fence => rw [(killThreads_add s job fence).2]; exact ⟨hd, ht⟩
  | dropScan fence hf => rw [(killThreads_dropScan s fence).2]; exact ⟨hd, ht⟩
  | take w hw hkill hqueued =>
    obtain ⟨x, hx, hdraining, hterminated⟩ : ∃ x, (s.take w).workers = s.workers.set w x ∧
        x ≠ .draining ∧ x ≠ .terminated := by
      refine ⟨_, rfl, ?_, ?_⟩ <;> split <;> simp
    rw [hx]
    exact ⟨getElem?_set_ne_of hdraining hd, getElem?_set_ne_of hterminated ht⟩
  | finish w fence hw =>
    exact ⟨getElem?_set_ne_of (by simp) hd, getElem?_set_ne_of (by simp) ht⟩
  | leave w hw hkill =>
    have : s.killThreads = false := hk
    rw [hkill] at this
    cases this
  | drain w hw => exact absurd hw (h w).1
  | kill | drop fence hf | dropSignal fence hf | wake job fence hb hspace => exact ⟨hd, ht⟩

/-- As long as the workers are not told to terminate, all fences are accounted for. -/
theorem Steps.inv {maxJobs numThreads : ℕ} {resizeIfFull : Bool} (hpos : 0 < maxJobs)
    (h : Steps (utilQueueInit maxJobs numThreads resizeIfFull) s) (hk : s.killThreads = false) :
    s.Inv ∧ Working s ∧ s.workers.length = numThreads := by
  induction h with
  | refl =>
    refine ⟨inv_init hpos _ _, fun w => ?_, by simp [utilQueueInit]⟩
    simp only [utilQueueInit, getElem?_replicate]
    split_ifs <;> simp
  | @tail a b hsteps hst ih =>
    have hka : a.killThreads = false := by
      cases hc : a.killThreads with
      | false => rfl
      | true => rw [hst.killThreads_mono hc] at hk; cases hk
    obtain ⟨hinv, hwork, hlen⟩ := ih hka
    refine ⟨hst.inv hinv fun w hw => absurd hw (hwork w).1, hst.working hwork hk, ?_⟩
    rw [hst.length_workers, hlen]

/-! ### From that call on -/

/-- What holds while the workers terminate, if there was room in the ring and nobody waited for
space. -/
structure Ending (s : State) : Prop where
  /-- The threads are to end. -/
  killed : s.killThreads = true
  /-- The invariant holds. -/
  inv : s.Inv
  /-- No caller waits. -/
  unblocked : s.blocked = []
  /-- The ring was not full. -/
  room : s.Room
  /-- A thread ends when the ring is empty. -/
  emptied : ∀ w : ℕ, s.workers[w]? = some .terminated → s.numQueued = 0

/-- Clearing the slot of a dropped job keeps the room, the counter and the blocked callers. -/
theorem room_dropScan (h : s.RingOk) (hroom : s.Room) (fence : ℕ) : (s.dropScan fence).Room ∧
    (s.dropScan fence).numQueued = s.numQueued ∧ (s.dropScan fence).blocked = s.blocked := by
  unfold dropScan
  split
  · next i hi =>
    refine ⟨hroom.imp_right fun hdead k hk => ?_, rfl, rfl⟩
    refine (congrArg Slot.job (h.queued_clear i k)).trans ?_
    split_ifs
    · rfl
    · exact hdead k hk
  · exact ⟨hroom, rfl, rfl⟩

/-- A worker that changes to a state other than terminated. -/
theorem terminated_of_set (hx : x ≠ .terminated) (h : (l.set w x)[v]? = some .terminated) :
    l[v]? = some .terminated := by
  by_contra hl
  exact getElem?_set_ne_of hx hl h

/-- A step of a queue that is being destroyed keeps it so. -/
theorem Step.ending (hst : Step s t) (h : Ending s) : Ending t := by
  have hinv := hst.inv h.inv fun _ _ => h.room
  have hkill := hst.killThreads_mono h.killed
  cases hst with
  | add job fence =>
    rw [show s.utilQueueAddJob job fence = s by simp [utilQueueAddJob, h.killed]]
    exact h
  | wake job fence hb hspace => rw [h.unblocked] at hb; cases hb
  | take w hw hk hqueued => rw [h.killed] at hk; cases hk
  | finish w fence hw | leave w hw hk =>
    exact ⟨hkill, hinv, h.unblocked, h.room, fun v hv =>
      h.emptied v (terminated_of_set (by simp) hv)⟩
  | drain w hw =>
    obtain ⟨-, hb, -, -, hmax⟩ := s.drain_frame w
    refine ⟨hkill, hinv, by rw [hb, h.unblocked], .inl ?_, fun _ _ => rfl⟩
    rw [hmax]
    exact h.inv.ring.pos
  | dropScan fence hf =>
    obtain ⟨hroom, hnum, hb⟩ := room_dropScan h.inv.ring h.room fence
    refine ⟨hkill, hinv, by rw [hb, h.unblocked], hroom, fun w hw => ?_⟩
    rw [hnum]
    rw [(killThreads_dropScan s fence).2] at hw
    exact h.emptied w hw
  | drop | dropSignal | kill => exact ⟨hkill, hinv, h.unblocked, h.room, h.emptied⟩

/-- A run of a queue that is being destroyed keeps it so. -/
theorem Steps.ending (h : Steps s t) (hs : Ending s) :
    Ending t ∧ t.workers.length = s.workers.length := by
  induction h with
  | refl => exact ⟨hs, rfl⟩
  | tail _ hst ih => exact ⟨hst.ending ih.1, hst.length_workers.trans ih.2⟩

/-- Once every worker has terminated, the fence of every job that was ever stored is signalled, or
the call that dropped the job is about to signal it, if there was room in the ring (or all jobs in
it were dropped) and nobody waited for space when the workers were told to terminate. -/
theorem fencesSignalled_of_room {maxJobs numThreads : ℕ} {resizeIfFull : Bool} (hpos : 0 < maxJobs)
    (hthreads : 0 < numThreads) (hbefore : Steps (utilQueueInit maxJobs numThreads resizeIfFull) s)
    (hk : s.killThreads = false) (hroom : s.Room) (hblocked : s.blocked = [])
    (hafter : Steps { s with killThreads := true } t) (hterm : ∀ w ∈ t.workers, w = .terminated) :
    ∀ f ∈ t.stored, t.signalled f = true ∨ f ∈ t.removed := by
  obtain ⟨hinv, hwork, hlen⟩ := Steps.inv hpos hbefore hk
  have hstart : Ending { s with killThreads := true } :=
    ⟨rfl, (Step.kill s).inv hinv fun w hw => absurd hw (hwork w).1, hblocked, hroom,
      fun w hw => absurd hw (hwork w).2⟩
  obtain ⟨hend, hlen'⟩ := hafter.ending hstart
  have hworkers : 0 < t.workers.length := by
    rw [hlen']
    show 0 < s.workers.length
    omega
  have hfirst : t.workers[0]? = some .terminated := by
    rw [getElem?_eq_getElem hworkers, hterm _ (getElem_mem hworkers)]
  have hempty := hend.emptied 0 hfirst
  intro f hf
  refine (hend.inv.accounted f hf).imp_right fun ho => ?_
  cases ho with
  | queued h =>
    obtain ⟨k, hk, -⟩ := h
    omega
  | running w h => exact absurd (hterm _ (mem_of_getElem? h)) (by simp)
  | removed h => exact h
  | blocked j h => rw [hend.unblocked] at h; cases h

/-- The run of one worker that is told to terminate and does, from a state in which it is idle. -/
theorem steps_terminate (s : State) (hw : s.workers = [.idle]) (hk : s.killThreads = true) :
    Steps s (({ s with workers := [.draining] } : State).drain 0) := by
  have hleave := Step.leave s 0 (by rw [hw]; rfl) hk
  rw [hw] at hleave
  exact (Relation.ReflTransGen.single hleave).tail (Step.drain _ 0 rfl)

/-- A ring with two slots, one of them taken: the worker that terminates signals the fence. -/
theorem fencesSignalled_one_of_two : ∃ t : State, t.stored = [7] ∧ t.removed = [] ∧
    ∀ f ∈ t.stored, t.signalled f = true ∨ f ∈ t.removed := by
  refine ⟨_, rfl, rfl, fencesSignalled_of_room (s := (utilQueueInit 2 1 false).utilQueueAddJob 3 7)
    (by decide) Nat.one_pos (Relation.ReflTransGen.single (Step.add _ 3 7)) rfl
    (.inl (by decide)) rfl (steps_terminate _ rfl rfl) (by decide)⟩

/-- A ring with one slot, which is taken: the worker that terminates does not signal the fence. -/
theorem full_ring_unsignalled : ∃ t : State, Steps (utilQueueInit 1 1 false) t ∧
    (∀ w ∈ t.workers, w = .terminated) ∧ t.removed = [] ∧ t.blocked = [] ∧
      ∃ f ∈ t.stored, t.signalled f = false := by
  have hadd := Step.add (utilQueueInit 1 1 false) 3 7
  have hkill := Step.kill ((utilQueueInit 1 1 false).utilQueueAddJob 3 7)
  exact ⟨_, ((Relation.ReflTransGen.single hadd).tail hkill).trans (steps_terminate _ rfl rfl),
    by decide, rfl, rfl, 7, mem_cons_self, rfl⟩

end Mesa3D.Queue
