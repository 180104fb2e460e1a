import Mesa3D.Util.RegisterAllocate

/-!
# Conflicts are symmetric

The conflicts of a register are stored in a bitset of its own, and in a list that is a part of it:
`ra_make_reg_conflicts_transitive` adds to the bitset only. All functions that set up conflicts keep
the bitsets symmetric.
-/

namespace Mesa3D.Ra

variable {regs : Regs} {r r1 r2 b c : ℕ}

namespace Regs

/-- Whether two registers conflict, by the bitset of the first. -/
def Conflict (regs : Regs) (r1 r2 : ℕ) : Prop := (regs.regs r1).conflicts r2 = true

/-- What holds of the conflicts of every register set. -/
structure Ok (regs : Regs) : Prop where
  /-- Conflicts are symmetric. -/
  symm : ∀ {r1 r2}, regs.Conflict r1 r2 → regs.Conflict r2 r1
  /-- They are between registers of the set. -/
  lt : ∀ {r1 r2}, regs.Conflict r1 r2 → r1 < regs.count → r2 < regs.count
  /-- The lists hold conflicts. -/
  list : ∀ {r1 r2 l}, (regs.regs r1).conflictList = some l → r2 ∈ l → regs.Conflict r1 r2

/-- What the registers are after one is set. -/
@[simp] theorem setReg_regs (regs : Regs) (r r1 : ℕ) (reg : Reg) :
    (regs.setReg r reg).regs r1 = if r1 = r then reg else regs.regs r1 := by
  simp [setReg, Function.update_apply]

/-- The conflicts with one added in one direction. -/
theorem conflict_raAddConflictList {x y : ℕ} :
    (regs.raAddConflictList r1 r2).Conflict x y ↔ regs.Conflict x y ∨ x = r1 ∧ y = r2 := by
  unfold Conflict raAddConflictList
  by_cases hx : x = r1 <;> by_cases hy : y = r2 <;> simp [hx, hy]

/-- The conflict lists with one conflict added. -/
theorem list_raAddConflictList {x y : ℕ} {l : List ℕ}
    (h : ((regs.raAddConflictList r1 r2).regs x).conflictList = some l) (hy : y ∈ l) :
    (∃ l', (regs.regs x).conflictList = some l' ∧ y ∈ l') ∨ x = r1 ∧ y = r2 := by
  by_cases hx : x = r1
  · simp only [raAddConflictList, setReg_regs, if_pos hx, Option.map_eq_some_iff] at h
    obtain ⟨l', hl', rfl⟩ := h
    rcases List.mem_append.1 hy with hy | hy
    · exact .inl ⟨l', hx ▸ hl', hy⟩
    · exact .inr ⟨hx, by simpa using hy⟩
  · simp only [raAddConflictList, setReg_regs, if_neg hx] at h
    exact .inl ⟨l, h, hy⟩

/-- `ra_add_reg_conflict` adds the conflict in both directions. -/
theorem conflict_raAddRegConflict (h : regs.Ok) {x y : ℕ} :
    (regs.raAddRegConflict r1 r2).Conflict x y ↔
      regs.Conflict x y ∨ x = r1 ∧ y = r2 ∨ x = r2 ∧ y = r1 := by
  unfold raAddRegConflict
  split_ifs with hc
  · refine ⟨.inl, ?_⟩
    rintro (hxy | ⟨rfl, rfl⟩ | ⟨rfl, rfl⟩)
    · exact hxy
    · exact hc
    · exact h.symm hc
  · rw [conflict_raAddConflictList, conflict_raAddConflictList, or_assoc]

/-- A conflict leaves the number of registers. -/
@[simp] theorem raAddRegConflict_count : (regs.raAddRegConflict r1 r2).count = regs.count := by
  unfold raAddRegConflict
  split_ifs <;> rfl

/-- A conflict between registers of the set keeps it well formed. -/
theorem Ok.addRegConflict (h : regs.Ok) (h1 : r1 < regs.count) (h2 : r2 < regs.count) :
    (regs.raAddRegConflict r1 r2).Ok where
  symm {x y} hxy := by
    rw [conflict_raAddRegConflict h] at hxy ⊢
    rcases hxy with hxy | ⟨rfl, rfl⟩ | ⟨rfl, rfl⟩
    · exact .inl (h.symm hxy)
    · exact .inr (.inr ⟨rfl, rfl⟩)
    · exact .inr (.inl ⟨rfl, rfl⟩)
  lt {x y} hxy hx := by
    rw [raAddRegConflict_count] at hx ⊢
    rcases (conflict_raAddRegConflict h).1 hxy with hxy | ⟨rfl, rfl⟩ | ⟨rfl, rfl⟩
    · exact h.lt hxy hx
    · exact h2
    · exact h1
  list {x y l} hl hy := by
    rw [conflict_raAddRegConflict h]
    unfold raAddRegConflict at hl
    split_ifs at hl with hc
    · exact .inl (h.list hl hy)
    · rcases list_raAddConflictList hl hy with ⟨l', hl', hy'⟩ | hxy
      · rcases list_raAddConflictList hl' hy' with ⟨l', hl', hy'⟩ | hxy
        · exact .inl (h.list hl' hy')
        · exact .inr (.inl hxy)
      · exact .inr (.inr hxy)

/-- What adding a conflict keeps, `ra_add_transitive_reg_conflict` keeps. -/
theorem Ok.addTransitive_rec {P : Regs → Prop} {regs' : Regs} (h : regs.Ok) (hP : P regs)
    (hadd : ∀ {regs r1 r2}, P regs → r1 < regs.count → r2 < regs.count →
      P (regs.raAddRegConflict r1 r2))
    (hb : b < regs.count) (hr : r < regs.count)
    (hregs' : regs.raAddTransitiveRegConflict b r = some regs') :
    P regs' := by
  rw [raAddTransitiveRegConflict, Option.map_eq_some_iff] at hregs'
  obtain ⟨list, hlist, rfl⟩ := hregs'
  have hok := h.addRegConflict hr hb
  refine (List.foldlRecOn (motive := fun regs' => regs'.count = regs.count ∧ P regs') list _
    ⟨raAddRegConflict_count, hadd hP hr hb⟩ ?_).2
  rintro regs' ⟨hcount, hP⟩ c hc
  have hlt : c < regs.count := by simpa using hok.lt (hok.list hlist hc) (by simpa)
  exact ⟨raAddRegConflict_count.trans hcount, hadd hP (hcount ▸ hr) (hcount ▸ hlt)⟩

/-- The loop of `ra_add_transitive_reg_conflict` does not change the list that it walks. -/
theorem conflictList_walk (h : regs.Ok) (hb : regs.Conflict r b) {list : List ℕ}
    (hl : ∀ c ∈ list, regs.Conflict b c) (hr : r < regs.count) :
    ((list.foldl (fun regs c => regs.raAddRegConflict r c) regs).regs b).conflictList =
      (regs.regs b).conflictList := by
  have hlt := h.lt hb hr
  induction list generalizing regs with
  | nil => rfl
  | cons c list ih =>
    have hc := hl c (by simp)
    have hmono : ∀ {x y}, regs.Conflict x y → (regs.raAddRegConflict r c).Conflict x y :=
      fun hxy => (conflict_raAddRegConflict h).2 (.inl hxy)
    rw [List.foldl_cons, ih (h.addRegConflict hr (h.lt hc hlt)) (hmono hb)
      (fun c' hc' => hmono (hl c' (by simp [hc']))) (by simpa) (by simpa)]
    unfold raAddRegConflict
    split_ifs with hcon
    · rfl
    · -- the pair is new, so none of its registers is `b`
      have hbc : b ≠ c := by
        rintro rfl
        exact hcon hb
      have hbr : b ≠ r := by
        rintro rfl
        exact hcon hc
      simp [raAddConflictList, hbc, hbr]

/-- One round of `ra_make_reg_conflicts_transitive`. -/
theorem conflict_mergeConflicts {x y : ℕ} :
    (mergeConflicts r regs c).Conflict x y ↔
      regs.Conflict x y ∨ x = c ∧ regs.Conflict r x ∧ regs.Conflict r y := by
  unfold mergeConflicts Conflict
  split_ifs with hc
  · by_cases hx : x = c <;> simp [hx, hc]
  · refine ⟨.inl, ?_⟩
    rintro (hxy | ⟨rfl, hx, -⟩)
    · exact hxy
    · exact absurd hx hc

/-- Making conflicts transitive leaves the number of registers and the lists. -/
theorem raMakeRegConflictsTransitive_frame :
    (regs.raMakeRegConflictsTransitive r).count = regs.count ∧
    ∀ x, ((regs.raMakeRegConflictsTransitive r).regs x).conflictList =
      (regs.regs x).conflictList := by
  refine List.foldlRecOn (motive := fun regs' : Regs => regs'.count = regs.count ∧
    ∀ x, (regs'.regs x).conflictList = (regs.regs x).conflictList) _ _ ⟨rfl,
      fun _ => rfl⟩ fun regs' h c _ => ?_
  unfold mergeConflicts
  split_ifs with hc
  · refine ⟨h.1, fun x => ?_⟩
    by_cases hx : x = c <;> simp [hx, h.2]
  · exact h

/-- The registers of the list that conflict with `r` get all conflicts of `r`. -/
theorem conflict_foldl_mergeConflicts (list : List ℕ) (regs : Regs) (r : ℕ) {x y : ℕ} :
    (list.foldl (mergeConflicts r) regs).Conflict x y ↔
      regs.Conflict x y ∨ x ∈ list ∧ regs.Conflict r x ∧ regs.Conflict r y := by
  induction list generalizing regs with
  | nil => simp
  | cons c list ih =>
    -- the bitset of `r` itself stays as it is
    have hself : ∀ {y}, (mergeConflicts r regs c).Conflict r y ↔ regs.Conflict r y := by
      intro y
      rw [conflict_mergeConflicts]
      exact ⟨fun h => h.elim id fun h => h.2.2, .inl⟩
    rw [List.foldl_cons, ih, conflict_mergeConflicts, hself, hself, List.mem_cons, or_assoc,
      ← or_and_right]

/-- Making conflicts transitive keeps the set well formed. -/
theorem Ok.makeTransitive (h : regs.Ok) (hr : r < regs.count) :
    (regs.raMakeRegConflictsTransitive r).Ok := by
  obtain ⟨hcount, hlist⟩ := @raMakeRegConflictsTransitive_frame regs r
  have hiff : ∀ {x y}, (regs.raMakeRegConflictsTransitive r).Conflict x y ↔
      regs.Conflict x y ∨ regs.Conflict r x ∧ regs.Conflict r y := by
    intro x y
    unfold raMakeRegConflictsTransitive
    rw [conflict_foldl_mergeConflicts, List.mem_range]
    exact or_congr_right ⟨fun hx => hx.2, fun hx => ⟨h.lt hx.1 hr, hx⟩⟩
  refine ⟨fun {x y} hxy => ?_, fun {x y} hxy hx => ?_, fun {x y l} hl hy => ?_⟩
  · rw [hiff] at hxy ⊢
    exact hxy.imp h.symm And.symm
  · rw [hcount] at hx ⊢
    rcases hiff.1 hxy with hxy | hxy
    · exact h.lt hxy hx
    · exact h.lt hxy.2 hr
  · rw [hlist] at hl
    exact hiff.2 (.inl (h.list hl hy))

/-- `ra_set_finalize` keeps the set well formed. -/
theorem Ok.finalize {regs' : Regs} {q : Option (ℕ → ℕ → BitVec 32)} (h : regs.Ok)
    (hf : regs.raSetFinalize q = some regs') : regs'.Ok := by
  cases q with
  | some q =>
    cases hf
    exact ⟨h.symm, h.lt, fun hl => by cases hl⟩
  | none =>
    simp only [raSetFinalize] at hf
    split_ifs at hf
    cases hf
    exact ⟨h.symm, h.lt, fun hl => by cases hl⟩

end Regs

/-- All functions that set up registers keep the conflicts symmetric. -/
theorem RegSet.ok (h : RegSet regs) : regs.Ok := by
  induction h with
  | alloc count lists =>
    have hiff : ∀ {x y}, (raAllocRegSet count lists).Conflict x y ↔ y = x := by
      simp [Regs.Conflict, raAllocRegSet]
    refine ⟨fun hxy => hiff.2 (hiff.1 hxy).symm, fun hxy hx => hiff.1 hxy ▸ hx, fun hl hy => ?_⟩
    cases lists
    · cases hl
    · cases hl
      exact hiff.2 (by simpa using hy)
  | roundRobin _ ih | allocClass _ ih | addReg _ _ _ ih => exact ⟨ih.symm, ih.lt, ih.list⟩
  | addConflict _ h1 h2 ih => exact ih.addRegConflict h1 h2
  | addTransitive _ hb hr hadd ih => exact ih.addTransitive_rec ih Regs.Ok.addRegConflict hb hr hadd
  | makeTransitive _ hr ih => exact ih.makeTransitive hr
  | finalize _ hf ih => exact ih.finalize hf

end Mesa3D.Ra
