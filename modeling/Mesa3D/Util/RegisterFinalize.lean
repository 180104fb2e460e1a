import Mesa3D.Util.RegisterSet
import Mathlib.Order.Lattice.Nat

/-!
# The q values of a register set

`ra_set_finalize` counts conflicts in the conflict lists, and the allocation uses the bitsets.
`ra_make_reg_conflicts_transitive` adds to the bitsets only, and `ra_class_add_reg` counts a
register again that the class already has. Without these two, the lists have the elements of the
bitsets (`Exact`).
-/

namespace Mesa3D.Ra

open List

variable {regs : Regs} {r r1 r2 : ℕ}

/-- The register sets with conflict lists, if `ra_make_reg_conflicts_transitive` finds all conflicts
that it sets, and a class does not get a register twice. -/
inductive Listed : Regs → Prop
  | alloc (count : ℕ) : Listed (raAllocRegSet count true)
  | addConflict {regs : Regs} {r1 r2 : ℕ} : Listed regs → r1 < regs.count → r2 < regs.count →
      Listed (regs.raAddRegConflict r1 r2)
  | addTransitive {regs regs' : Regs} {b r : ℕ} : Listed regs → b < regs.count → r < regs.count →
      regs.raAddTransitiveRegConflict b r = some regs' → Listed regs'
  | makeTransitive {regs : Regs} {r : ℕ} : Listed regs → r < regs.count →
      (∀ x y, regs.Conflict r x → regs.Conflict r y → regs.Conflict x y) →
      Listed (regs.raMakeRegConflictsTransitive r)
  | allocClass {regs : Regs} : Listed regs → Listed regs.raAllocRegClass
  | addReg {regs : Regs} {c r : ℕ} : Listed regs → c < regs.classCount → r < regs.count →
      (regs.classes c).regs r = false → Listed (regs.raClassAddReg c r)

/-- A set with conflict lists is a register set. -/
theorem Listed.regSet (h : Listed regs) : RegSet regs := by
  induction h with
  | alloc count => exact .alloc count true
  | addConflict _ h1 h2 ih => exact .addConflict ih h1 h2
  | addTransitive _ hb hr hadd ih => exact .addTransitive ih hb hr hadd
  | makeTransitive _ hr _ ih => exact .makeTransitive ih hr
  | allocClass _ ih => exact .allocClass ih
  | addReg _ hc hr _ ih => exact .addReg ih hc hr

namespace Regs

/-- The registers of a class. -/
def members (regs : Regs) (c : ℕ) : Finset ℕ :=
  {r ∈ Finset.range regs.count | (regs.classes c).regs r}

/-- The registers of a class that conflict with a register, by its bitset. -/
def blocked (regs : Regs) (b r : ℕ) : Finset ℕ := {rb ∈ regs.members b | (regs.regs r).conflicts rb}

/-- The lists have the elements of the bitsets. -/
def HasLists (regs : Regs) : Prop :=
  ∀ r, ∃ l, (regs.regs r).conflictList = some l ∧ l.Nodup ∧ ∀ y, y ∈ l ↔ regs.Conflict r y

/-- A conflict that is new is added to the lists. -/
theorem HasLists.add (h : regs.HasLists) (hc : ¬regs.Conflict r1 r2) :
    (regs.raAddConflictList r1 r2).HasLists := by
  intro x
  obtain ⟨l, hl, hnodup, hmem⟩ := h x
  simp only [conflict_raAddConflictList]
  by_cases hx : x = r1
  · subst hx
    refine ⟨l ++ [r2], by simp [raAddConflictList, hl], ?_, by simp [hmem]⟩
    exact hnodup.append (nodup_singleton r2) (by simpa [hmem] using hc)
  · exact ⟨l, by simp [raAddConflictList, hx, hl], hnodup, by simp [hmem, hx]⟩

/-- What `ra_set_finalize` needs: complete lists, and classes that count their registers. -/
structure Exact (regs : Regs) : Prop extends regs.Ok where
  /-- A register conflicts with itself. -/
  self : ∀ r, regs.Conflict r r
  /-- The lists have the conflicts. -/
  lists : regs.HasLists
  /-- `p` counts the registers of a class. -/
  p : ∀ c, (regs.classes c).p = BitVec.ofNat 32 (regs.members c).card

/-- A conflict keeps the lists exact. -/
theorem Exact.addRegConflict (h : regs.Exact) (h1 : r1 < regs.count) (h2 : r2 < regs.count) :
    (regs.raAddRegConflict r1 r2).Exact := by
  refine ⟨h.toOk.addRegConflict h1 h2, fun x => (conflict_raAddRegConflict h.toOk).2
    (.inl (h.self x)), ?_, ?_⟩ <;>
    unfold raAddRegConflict <;> split_ifs with hc
  · exact h.lists
  · refine (h.lists.add hc).add ?_
    rw [conflict_raAddConflictList, not_or]
    refine ⟨fun hr => hc (h.symm hr), ?_⟩
    rintro ⟨rfl, -⟩
    exact hc (h.self r2)
  · exact h.p
  · exact h.p

/-- `ra_make_reg_conflicts_transitive` does nothing if all conflicts are there. -/
theorem raMakeRegConflictsTransitive_eq
    (h : ∀ x y, regs.Conflict r x → regs.Conflict r y → regs.Conflict x y) :
    regs.raMakeRegConflictsTransitive r = regs := by
  refine foldlRecOn (motive := (· = regs)) _ _ rfl ?_
  rintro regs rfl c -
  unfold mergeConflicts
  split_ifs with hc
  · have hor : (fun j => (regs.regs c).conflicts j || (regs.regs r).conflicts j) =
      (regs.regs c).conflicts :=
      funext fun j => Bool.or_eq_left_iff_imp.2 (h c j hc)
    rw [hor, setReg, Function.update_eq_self]
  · rfl

/-- The loops of `ra_set_finalize` for two classes. -/
theorem Exact.maxConflicts_eq (h : regs.Exact) (b c : ℕ) :
    regs.maxConflicts b c = some ((regs.members c).sup fun r => (regs.blocked b r).card) := by
  have hcount : ∀ r < regs.count, ∃ l, (regs.regs r).conflictList = some l ∧
      l.countP (regs.classes b).regs = (regs.blocked b r).card := by
    intro r hr
    obtain ⟨l, hl, hnodup, hmem⟩ := h.lists r
    refine ⟨l, hl, ?_⟩
    rw [countP_eq_length_filter, ← toFinset_card_of_nodup (hnodup.filter _)]
    congr 1
    ext y
    simp only [mem_toFinset, mem_filter, hmem, blocked, members,
      Finset.mem_filter, Finset.mem_range]
    exact ⟨fun hy => ⟨⟨h.lt hy.1 hr, hy.2⟩, hy.1⟩, fun hy => ⟨hy.2, hy.1.2⟩⟩
  have hfold : ∀ n ≤ regs.count, (range n).foldlM (fun max rc =>
      if (regs.classes c).regs rc then
        (regs.regs rc).conflictList.map fun list => Max.max max (list.countP (regs.classes b).regs)
      else some max) 0 =
      some (({r ∈ Finset.range n | (regs.classes c).regs r} : Finset ℕ).sup fun r =>
        (regs.blocked b r).card) := by
    intro n hn
    induction n with
    | zero => rfl
    | succ n ih =>
      obtain ⟨l, hl, hlen⟩ := hcount n hn
      rw [range_succ, foldlM_append, ih (Nat.le_of_succ_le hn),
        Finset.range_add_one, Finset.filter_insert]
      by_cases hc : (regs.classes c).regs n = true
      · simp [hc, hl, hlen, max_comm]
      · simp [hc]
  exact hfold regs.count le_rfl

end Regs

/-- The lists are exact in every set that has them. -/
theorem Listed.exact (h : Listed regs) : regs.Exact := by
  induction h with
  | alloc count =>
    refine ⟨(RegSet.alloc count true).ok, fun r => ?_, fun r =>
      ⟨[r], rfl, nodup_singleton r, fun y => ?_⟩, ?_⟩
    · simp [Regs.Conflict, raAllocRegSet]
    · simp [Regs.Conflict, raAllocRegSet]
    · simp [Regs.members, raAllocRegSet]
  | addConflict _ h1 h2 ih => exact ih.addRegConflict h1 h2
  | addTransitive _ hb hr hadd ih =>
    exact ih.addTransitive_rec ih Regs.Exact.addRegConflict hb hr hadd
  | makeTransitive _ _ htrans ih =>
    rw [Regs.raMakeRegConflictsTransitive_eq htrans]
    exact ih
  | @allocClass regs _ ih =>
    refine ⟨⟨ih.symm, ih.lt, ih.list⟩, ih.self, ih.lists, fun c => ?_⟩
    by_cases hc : c = regs.classCount
    · simp [Regs.members, Regs.raAllocRegClass, hc]
    · simpa [Regs.members, Regs.raAllocRegClass, hc] using ih.p c
  | @addReg regs c r _ _ hr hnew ih =>
    refine ⟨⟨ih.symm, ih.lt, ih.list⟩, ih.self, ih.lists, fun c' => ?_⟩
    by_cases hc : c' = c
    · subst hc
      have hmembers : (regs.raClassAddReg c' r).members c' = insert r (regs.members c') := by
        ext y
        by_cases hy : y = r <;> simp [Regs.members, Regs.raClassAddReg, hy, hr]
      rw [hmembers, Finset.card_insert_of_notMem (by simp [Regs.members, hnew]),
        BitVec.ofNat_add, ← ih.p c']
      simp [Regs.raClassAddReg]
    · simpa [Regs.members, Regs.raClassAddReg, hc] using ih.p c'

/-- `ra_set_finalize` without given values: `q` is the largest number of registers of the one class
that conflict with a register of the other, by the bitsets, and `p` is the number of registers of
the class. -/
theorem raSetFinalize_exact (h : Listed regs) : ∃ regs', regs.raSetFinalize none = some regs' ∧ ∀ b,
    (∀ c, (regs'.classes b).q c = BitVec.ofNat 32
      ((regs.members c).sup fun r => (regs.blocked b r).card)) ∧
      (regs'.classes b).p = BitVec.ofNat 32 (regs.members b).card := by
  refine ⟨_, if_pos fun b _ c _ => ?_, fun b => ⟨fun c => ?_, h.exact.p b⟩⟩
  · rw [h.exact.maxConflicts_eq]
    rfl
  · simp only [h.exact.maxConflicts_eq, Option.getD_some]

/-- Two registers that conflict, in one class. -/
theorem raSetFinalize_exact_two : ∃ regs',
    ((((raAllocRegSet 2 true).raAddRegConflict 0 1).raAllocRegClass.raClassAddReg 0
      0).raClassAddReg 0 1).raSetFinalize
      none = some regs' ∧ (regs'.classes 0).q 0 = 2 ∧ (regs'.classes 0).p = 2 := by
  obtain ⟨regs', heq, hall⟩ :=
    raSetFinalize_exact (.addReg (.addReg (.allocClass (.addConflict (.alloc 2)
    (show 0 < 2 by decide) (show 1 < 2 by decide))) (c := 0) (r := 0) (by decide)
      (by decide) rfl) (c := 0) (r := 1)
    (by decide) (by decide) rfl)
  exact ⟨regs', heq, ((hall 0).1 0).trans (by decide), (hall 0).2.trans (by decide)⟩

/-- Two registers that conflict with a third one, whose conflicts are made transitive, are not
counted, and a register that is added to a class twice is counted twice. -/
theorem raSetFinalize_transitive :
    let regs := ((((((raAllocRegSet 3 true).raAddRegConflict 0 1).raAddRegConflict 0 2)
      |>.raMakeRegConflictsTransitive 0).raAllocRegClass.raClassAddReg 0 1).raClassAddReg 0 2)
      |>.raClassAddReg 0 2
    (regs.raSetFinalize none).map (fun regs => ((regs.classes 0).q 0, (regs.classes 0).p)) =
        some (1, 3) ∧
      (regs.members 0).sup (fun r => (regs.blocked 0 r).card) = 2 ∧ (regs.members 0).card = 2 := by
  decide

end Mesa3D.Ra
