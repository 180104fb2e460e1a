import Mesa3D.Util.RegisterAllocateCorrect
import Mesa3D.Util.RegisterFinalize

/-!
# A node without a register

A register set in which one register conflicts with all others, and an interference graph in which
one node interferes with all others, which are forced to that register. With `2^16 + 1` registers
and `2^16 - 1` forced nodes, the `q_total` of the first node is `~0`, and `ra_allocate` returns true
without a register for it.
-/

namespace Mesa3D.Ra

open Mesa3D.Ra.Regs Mesa3D.Ra.Graph BitVec List

/-! ### The registers -/

/-- Registers of which the first conflicts with the next `m`. -/
def starConflicts (N m : ℕ) : Regs :=
  (range m).foldl (fun regs r => regs.raAddRegConflict 0 (r + 1)) (raAllocRegSet N true)

/-- One conflict more. -/
theorem starConflicts_succ (N m : ℕ) :
    starConflicts N (m + 1) = (starConflicts N m).raAddRegConflict 0 (m + 1) := by
  simp [starConflicts, range_succ]

/-- The register 0 conflicts with each that was added. -/
theorem starConflicts_spec {N m : ℕ} (hm : m < N) : Listed (starConflicts N m) ∧
    (starConflicts N m).count = N ∧ (starConflicts N m).classCount = 0 ∧
    ∀ y ≤ m, (starConflicts N m).Conflict 0 y := by
  induction m with
  | zero => exact ⟨.alloc N, rfl, rfl, fun y hy => decide_eq_true (Nat.le_zero.1 hy)⟩
  | succ m ih =>
    obtain ⟨hlisted, hcount, hclasses, hconf⟩ := ih (by omega)
    rw [starConflicts_succ]
    refine ⟨.addConflict hlisted (by omega) (by omega),
      raAddRegConflict_count.trans hcount, ?_, fun y hy => ?_⟩
    · unfold raAddRegConflict
      split_ifs <;> exact hclasses
    · rw [conflict_raAddRegConflict hlisted.exact.toOk]
      rcases Nat.le_succ_iff.1 hy with hy | rfl
      · exact .inl (hconf y hy)
      · exact .inr (.inl ⟨rfl, rfl⟩)

/-- The registers with one class for the first `m` of them. -/
def starClass (N m : ℕ) : Regs :=
  (range m).foldl (fun regs r => regs.raClassAddReg 0 r) (starConflicts N (N - 1)).raAllocRegClass

/-- One register more in the class. -/
theorem starClass_succ (N m : ℕ) : starClass N (m + 1) = (starClass N m).raClassAddReg 0 m := by
  simp [starClass, range_succ]

/-- The class has the registers that were added, and the conflicts stay. -/
theorem starClass_spec {N m : ℕ} (hm : m ≤ N) (hN : 0 < N) : Listed (starClass N m) ∧
    (starClass N m).count = N ∧ (starClass N m).classCount = 1 ∧
    (starClass N m).regs = (starConflicts N (N - 1)).regs ∧
    ∀ r, ((starClass N m).classes 0).regs r = decide (r < m) := by
  induction m with
  | zero =>
    obtain ⟨hlisted, hcount, hclasses, -⟩ := starConflicts_spec (Nat.sub_lt hN Nat.one_pos)
    refine ⟨.allocClass hlisted, hcount, congrArg (· + 1) hclasses, rfl, fun r => ?_⟩
    simp [starClass, raAllocRegClass, hclasses]
  | succ m ih =>
    obtain ⟨hlisted, hcount, hclasses, hregs, hmem⟩ := ih (by omega)
    rw [starClass_succ]
    refine ⟨.addReg hlisted (by omega) (by omega) (by simp [hmem]),
      hcount, hclasses, hregs, fun r => ?_⟩
    by_cases hr : r = m
    · simp [raClassAddReg, hr]
    · have : r < m + 1 ↔ r < m := by omega
      simp [raClassAddReg, hr, hmem, this]

/-- A register of the class can conflict with all of them. -/
theorem maxConflicts_starClass {N : ℕ} (hN : 0 < N) :
    (starClass N N).maxConflicts 0 0 = some N := by
  obtain ⟨hlisted, hcount, -, hregs, hmem⟩ := starClass_spec le_rfl hN
  have hconf := (starConflicts_spec (Nat.sub_lt hN Nat.one_pos)).2.2.2
  have hmembers : (starClass N N).members 0 = Finset.range N := by
    ext r
    simp [members, hcount, hmem]
  have hfirst : (starClass N N).blocked 0 0 = Finset.range N := by
    rw [blocked, hmembers, Finset.filter_eq_self, hregs]
    exact fun r hr => hconf r (Nat.le_sub_one_of_lt (Finset.mem_range.1 hr))
  rw [hlisted.exact.maxConflicts_eq, Option.some.injEq]
  refine le_antisymm (Finset.sup_le fun r _ => ?_) ?_
  · refine (Finset.card_le_card (Finset.filter_subset _ _)).trans ?_
    rw [hmembers, Finset.card_range]
  · have hle := Finset.le_sup (f := fun r => ((starClass N N).blocked 0 r).card)
      (hmembers ▸ Finset.mem_range.2 hN)
    rwa [hfirst, Finset.card_range] at hle

/-- The finished register set. -/
theorem starRegs {N : ℕ} (hN : 2 ≤ N) : ∃ regs, RegSet regs ∧ regs.count = N ∧
    (regs.classes 0).q 0 = BitVec.ofNat 32 N := by
  have hpos : 0 < N := by omega
  obtain ⟨hlisted, hcount, hclasses, -⟩ := starClass_spec le_rfl hpos
  have hmax := maxConflicts_starClass hpos
  have hsome : ∀ b < (starClass N N).classCount, ∀ c < (starClass N N).classCount,
      ((starClass N N).maxConflicts b c).isSome := by
    intro b hb c hc
    obtain rfl : b = 0 := by omega
    obtain rfl : c = 0 := by omega
    rw [hmax]
    rfl
  refine ⟨_, .finalize (q := none) hlisted.regSet (if_pos hsome), hcount, ?_⟩
  simp only [hmax, Option.getD_some]

/-! ### The graph -/

/-- Nodes of which the first interferes with the next `m`. -/
def starEdges (regs : Regs) (count m : ℕ) : Graph :=
  (range m).foldl (fun g i => g.raAddNodeInterference 0 (i + 1))
    (raAllocInterferenceGraph regs count)

/-- One interference more. -/
theorem starEdges_succ (regs : Regs) (count m : ℕ) :
    starEdges regs count (m + 1) = (starEdges regs count m).raAddNodeInterference 0 (m + 1) := by
  simp [starEdges, range_succ]

/-- The interferences, and the total of the first node. -/
structure StarGraph (rs : Regs) (N m : ℕ) (g : Graph) : Prop where
  /-- The registers. -/
  regs : g.regs = rs
  /-- The number of nodes. -/
  count : g.count = N
  /-- Nothing is stacked. -/
  stack : g.stack = []
  /-- No node has a register. -/
  reg : ∀ n, (g.nodes n).reg = none
  /-- There is one class. -/
  cls : ∀ n, (g.nodes n).cls = 0
  /-- The neighbours of the node 0. -/
  first : (g.nodes 0).adjacencyList = (range m).map (· + 1)
  /-- Every interference is with the node 0. -/
  others : ∀ {n k}, g.Adj n k → n = 0 ∨ k = 0
  /-- The total of the node 0. -/
  qTotal : (g.nodes 0).qTotal = BitVec.ofNat 32 m * (rs.classes 0).q 0

/-- The node 0 interferes with each that was added. -/
theorem starGraph_starEdges (regs : Regs) (count m : ℕ) :
    StarGraph regs count m (starEdges regs count m) := by
  induction m with
  | zero =>
    refine ⟨rfl, rfl, rfl, fun _ => rfl, fun _ => rfl, rfl, fun h => absurd h not_mem_nil, ?_⟩
    exact (zero_mul _).symm
  | succ m ih =>
    have hframe := raAddNodeInterference_frame (starEdges regs count m) 0 (m + 1)
    have heq : starEdges regs count (m + 1) = ((starEdges regs count m).raAddNodeAdjacency 0
        (m + 1)).raAddNodeAdjacency (m + 1) 0 := by
      rw [starEdges_succ, raAddNodeInterference, if_pos]
      rw [ih.first]
      exact ⟨by omega, by simp⟩
    refine ⟨heq ▸ ih.regs, heq ▸ ih.count, heq ▸ ih.stack, fun n => ?_, fun n => ?_, ?_,
      fun {n k} hnk => ?_, ?_⟩
    · rw [starEdges_succ, (hframe n).1, ih.reg]
    · rw [starEdges_succ, (hframe n).2, ih.cls]
    · rw [heq]
      simp [raAddNodeAdjacency, ih.first, range_succ]
    · by_cases hn : n = 0
      · exact .inl hn
      · rw [heq, Adj] at hnk
        simp only [raAddNodeAdjacency, setNode_nodes, if_neg hn,
          Nat.add_one_ne_zero, if_false] at hnk
        split_ifs at hnk with hnm
        · rcases mem_append.1 hnk with hnk | hnk
          · exact ih.others (hnm ▸ hnk)
          · exact .inr (by simpa using hnk)
        · exact ih.others hnk
    · rw [heq]
      simp only [raAddNodeAdjacency, setNode_nodes, if_neg (Nat.add_one_ne_zero m).symm, if_true, q,
        ih.cls, ih.regs, ih.qTotal]
      rw [BitVec.ofNat_add, add_mul, BitVec.one_mul]

/-- The nodes after the first are forced to the first register. -/
def starForced (regs : Regs) (count k m : ℕ) : Graph :=
  (range m).foldl (fun g i => g.raSetNodeReg (i + 1) 0) (starEdges regs count k)

/-- One forced node more. -/
theorem starForced_succ (regs : Regs) (count k m : ℕ) :
    starForced regs count k (m + 1) = (starForced regs count k m).raSetNodeReg (m + 1) 0 := by
  simp [starForced, range_succ]

/-- Only these nodes are changed. -/
theorem starForced_eq (regs : Regs) (count k m : ℕ) : starForced regs count k m =
    { starEdges regs count k with nodes := fun n =>
      if 0 < n ∧ n ≤ m then
        { (starEdges regs count k).nodes n with reg := some 0, inStack := false }
      else (starEdges regs count k).nodes n } := by
  induction m with
  | zero =>
    have hnone : ∀ n, ¬(0 < n ∧ n ≤ 0) := by omega
    simp only [starForced, range_zero, foldl_nil, if_neg (hnone _)]
  | succ m ih =>
    rw [starForced_succ, ih, raSetNodeReg, setNode, Graph.mk.injEq]
    refine ⟨rfl, funext fun n => ?_, rfl, rfl, rfl⟩
    have hle : 0 < n ∧ n ≤ m + 1 ↔ n = m + 1 ∨ 0 < n ∧ n ≤ m := by omega
    by_cases hn : n = m + 1
    · simp [hn]
    · simp [hn, hle]

/-- The star is built through the calls. -/
theorem built_starForced {regs : Regs} {N k : ℕ} (hregs : 0 < regs.count) (hk : k < N) :
    Built (starForced regs N k k) := by
  have hedges : ∀ m ≤ k, Built (starEdges regs N m) := by
    intro m hm
    induction m with
    | zero => exact .alloc regs N
    | succ m ih =>
      have hcount := (starGraph_starEdges regs N m).count
      rw [starEdges_succ]
      exact .addInterference (ih (by omega)) (by omega) (by omega)
  suffices h : ∀ m ≤ k, Built (starForced regs N k m) from h k le_rfl
  intro m hm
  induction m with
  | zero => exact hedges k le_rfl
  | succ m ih =>
    have hstar := starGraph_starEdges regs N k
    have heq := starForced_eq regs N k m
    rw [starForced_succ]
    refine .setReg (ih (by omega)) ?_ ?_ <;> rw [heq]
    · exact (show m + 1 < N by omega).trans_eq hstar.count.symm
    · exact hregs.trans_eq (congrArg Regs.count hstar.regs.symm)

/-! ### The allocation -/

/-- If there is no node to take off, nothing is allocated. -/
theorem raAllocate_of_done {g : Graph} (hstack : g.stack = [])
    (hin : ∀ n, (g.nodes n).inStack = false)
    (hdone : ∀ i < g.count, g.Done i) {σ : Type} (callback : Option (SelectReg σ)) (data : σ) :
    g.raAllocate callback data =
      some (true, { g with stackOptimisticStart := allOnes 32 }) := by
  have hnode : ∀ i, g.Done i → scanNode ⟨g, false, none, allOnes 32⟩ i =
      some ⟨g, false, none, allOnes 32⟩ := by
    intro i hi
    unfold scanNode
    dsimp only
    rcases hi with hi | hi | hi
    · rw [hin] at hi
      cases hi
    · rw [if_pos]
      rw [Bool.or_eq_true]
      exact .inr (Option.isSome_iff_ne_none.2 hi)
    · have hpq : ¬g.pqTest i = true := fun hc => ne_allOnes_of_lt (of_decide_eq_true hc) hi
      have hlt : ¬(g.nodes i).qTotal < allOnes 32 := fun hc => ne_allOnes_of_lt hc hi
      rw [if_neg hpq, if_neg hlt, ite_self]
  have hfold : ∀ list : List ℕ, (∀ i ∈ list, g.Done i) →
      list.foldlM scanNode ⟨g, false, none, allOnes 32⟩ = some ⟨g, false, none, allOnes 32⟩ := by
    intro list hlist
    induction list with
    | nil => rfl
    | cons i list ih =>
      rw [foldlM_cons, hnode i (hlist i mem_cons_self)]
      exact ih fun j hj => hlist j (mem_cons_of_mem _ hj)
  have hscan : g.scan = some ⟨g, false, none, allOnes 32⟩ :=
    hfold _ fun i hi => hdone i (by simpa using hi)
  rw [raAllocate, raSimplify, raSimplifyLoop, hscan]
  simp only [Option.bind_some, Bool.false_eq_true, if_false, raSelect, hstack, raSelectLoop]

/-- A node of a class of `N` registers that interferes with `k` nodes, which do not interfere with
each other and are forced to a register that conflicts with all. If `k * N` is `~0`, `ra_allocate`
returns true, and the node has no register. -/
theorem star_without_reg {N k : ℕ} (hN : 2 ≤ N)
    (hk : BitVec.ofNat 32 k * BitVec.ofNat 32 N = BitVec.allOnes 32) :
    ∃ g : Graph, RegSet g.regs ∧ Built g ∧ g.ForcedApart ∧ g.regs.count = N ∧ g.count = k + 1 ∧
      (g.nodes 0).reg = none ∧
      ∃ g', g.raAllocate (σ := Unit) none () = some (true, g') ∧ (g'.nodes 0).reg = none := by
  obtain ⟨regs, hregs, hcount, hq⟩ := starRegs hN
  have hedges := starGraph_starEdges regs (k + 1) k
  have hbuilt : Built (starForced regs (k + 1) k k) := built_starForced (by omega) (by omega)
  rw [starForced_eq] at hbuilt
  refine ⟨_, by simpa only [hedges.regs], hbuilt, ?_, by simpa only [hedges.regs],
    hedges.count, hedges.reg 0, _,
    raAllocate_of_done (by exact hedges.stack) hbuilt.ok.inStack (fun i hi => ?_) _ _, hedges.reg 0⟩
  · -- one of two interfering nodes is the first, which is not forced
    intro n m r1 r2 hnm h1 h2
    have hnm : (starEdges regs (k + 1) k).Adj n m := by
      simp only [Adj] at hnm
      split_ifs at hnm <;> exact hnm
    rcases hedges.others hnm with rfl | rfl
    · cases (hedges.reg 0).symm.trans h1
    · cases (hedges.reg 0).symm.trans h2
  · rcases Nat.eq_zero_or_pos i with rfl | hpos
    · exact .inr (.inr (hedges.qTotal.trans (by rw [hq, hk])))
    · refine .inr (.inl ?_)
      simp only [if_pos (And.intro hpos (Nat.le_of_lt_succ (hedges.count ▸ hi)))]
      exact Option.some_ne_none 0

/-- With `2^16 + 1` registers and `2^16 - 1` forced nodes, `ra_allocate` returns true and there is a
node without a register. -/
theorem stuck_node_without_reg : ∃ g g' : Graph, RegSet g.regs ∧ Built g ∧ g.ForcedApart ∧
    g.regs.count = 65537 ∧ g.count = 65536 ∧
    g.raAllocate (σ := Unit) none () = some (true, g') ∧ ¬Sound g g' := by
  obtain ⟨g, hregs, hg, hforced, hN, hcount, -, g', heq, hnone⟩ :=
    star_without_reg (N := 65537) (k := 65535) (by omega) (by decide)
  refine ⟨g, g', hregs, hg, hforced, hN, hcount, heq, fun hs => ?_⟩
  obtain ⟨r, hr⟩ := hs.allocated 0 (by omega)
  rw [hnone] at hr
  cases hr

end Mesa3D.Ra
