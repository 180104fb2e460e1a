import Mesa3D.Util.QueueCorrect

/-!
# What is in the ring

Dropping a job clears an element of `State.contents`, and the slots behind them are cleared
(`State.Clean`).
-/

namespace Mesa3D.Queue.State

variable {s : State} {f : ℕ}

/-- The slots behind those between `read_idx` and `write_idx` are cleared. -/
def Clean (s : State) : Prop := ∀ k, s.numQueued ≤ k → k < s.maxJobs → s.queued k = Slot.cleared

/-- Storing a job leaves the slots outside the contents clear. -/
theorem RingOk.clean_store (h : s.RingOk) (hc : s.Clean)
    (hroom : s.numQueued < s.maxJobs) (job fence : ℕ) :
    (s.store job fence).Clean := by
  intro k hk hm
  have hk' : s.numQueued + 1 ≤ k := hk
  rw [h.queued_store hroom job fence k hm, if_neg (by omega)]
  exact hc k (by omega) hm

/-- Growing a full ring leaves the new slots clear. -/
theorem RingOk.clean_resize (h : s.RingOk) (hfull : s.numQueued = s.maxJobs) : s.resize.Clean := by
  intro k hk hm
  have hk' : s.numQueued ≤ k := hk
  rw [h.queued_resize hfull k hm, if_neg (by omega)]

/-- Taking a job clears its slot. -/
theorem RingOk.clean_take (h : s.RingOk) (hc : s.Clean) (w : ℕ) :
    (s.take w).Clean := by
  intro k hk hm
  have hk' : s.numQueued - 1 ≤ k := hk
  have hm' : k < s.maxJobs := hm
  by_cases hlast : k + 1 < s.maxJobs
  · rw [h.queued_take w k hlast]
    exact hc (k + 1) (by omega) hlast
  · -- the last slot is the one that was taken
    have hidx : ((s.readIdx + 1) % s.maxJobs + k) % s.maxJobs = s.readIdx := by
      have hk1 : s.readIdx + 1 + k = s.readIdx + s.maxJobs := by omega
      rw [Nat.mod_add_mod, hk1, Nat.add_mod_right, Nat.mod_eq_of_lt h.read_lt]
    simp only [State.queued, State.take, State.slot, hidx]
    exact s.slot_set_self _ (by rw [h.length]; exact h.read_lt)

/-- Clearing a slot at a distance from `read_idx`. -/
theorem RingOk.contents_clear (h : s.RingOk) {k : ℕ} (hk : k < s.numQueued) :
    ({ s with jobs := s.jobs.set ((s.readIdx + k) % s.maxJobs) Slot.cleared } : State).contents =
      s.contents.set k Slot.cleared := by
  have hle := h.num_le
  refine List.ext_getElem? fun l => ?_
  rw [List.getElem?_set, getElem?_contents, getElem?_contents, length_contents, h.queued_clear]
  by_cases hkl : k = l
  · subst hkl
    rw [if_pos rfl, if_pos rfl]
  · rw [if_neg hkl]
    by_cases hl : l < s.numQueued
    · rw [if_neg (slot_ne (by omega) (by omega) hkl)]
    · rw [if_neg hl, if_neg hl]

/-- Clearing a slot keeps the others as they are. -/
theorem RingOk.clean_clear (h : s.RingOk) (hc : s.Clean) (i : ℕ) :
    ({ s with jobs := s.jobs.set i Slot.cleared } : State).Clean := by
  intro k hk hm
  rw [h.queued_clear]
  split_ifs
  · rfl
  · exact hc k hk hm

/-- The fence that `util_queue_drop_job` finds belongs to a slot between `read_idx` and
`write_idx`. -/
theorem RingOk.findFence_some (h : s.RingOk) {i : ℕ} (hi : s.findFence f = some i) :
    ∃ k < s.numQueued, i = (s.readIdx + k) % s.maxJobs ∧ (s.queued k).fence = some f := by
  unfold findFence at hi
  have hmem := List.mem_of_find?_eq_some hi
  have hfence := List.find?_some hi
  rcases Nat.lt_or_eq_of_le h.num_le with hlt | hfull
  · rw [h.write_eq, Ring.walk_eq h.read_lt hlt h.num_le] at hmem
    obtain ⟨k, hk, rfl⟩ := Ring.mem_slots.1 hmem
    exact ⟨k, hk, rfl, by simpa [queued] using hfence⟩
  · -- a full ring is taken for an empty one
    have hstop : s.writeIdx = (s.readIdx + 0) % s.maxJobs := by
      rw [h.write_eq, hfull, Nat.add_mod_right, Nat.add_zero]
    rw [hstop, Ring.walk_eq h.read_lt h.pos (Nat.zero_le _)] at hmem
    simp [Ring.slots] at hmem

end Mesa3D.Queue.State
