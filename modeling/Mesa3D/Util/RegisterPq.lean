import Mesa3D.Util.RegisterAllocateCorrect
import Mesa3D.Util.RegisterFinalize
import Mathlib.Algebra.Order.BigOperators.Group.Finset

/-!
# Nodes that pass the test of `pq_test` get a register

If `ra_simplify` pushes all nodes by `pq_test`, the neighbours of a node that have a register when
it is popped block less registers than its class has. This needs totals that do not wrap, and
classes that do not count a register twice.
-/

namespace Mesa3D.Ra

open List BitVec

variable {σ : Type} {g g' t : Graph} {n : ℕ} {callback : Option (SelectReg σ)}

/-- `q` is not less than the number of registers of the one class that conflict with a register of
the other. -/
def Regs.CorrectQ (regs : Regs) : Prop :=
  ∀ b c r, (regs.classes c).regs r = true → (regs.blocked b r).card ≤ ((regs.classes b).q c).toNat

/-- The graphs whose classes are set before the interferences. -/
inductive ClassesFirst : Graph → Prop
  | alloc (regs : Regs) (count : ℕ) : ClassesFirst (raAllocInterferenceGraph regs count)
  | setClass {g : Graph} {n cls : ℕ} : ClassesFirst g → n < g.count → cls < g.regs.classCount →
      (∀ m, (g.nodes m).adjacencyList = []) → ClassesFirst (g.raSetNodeClass n cls)
  | addInterference {g : Graph} {n1 n2 : ℕ} : ClassesFirst g → n1 < g.count → n2 < g.count →
      ClassesFirst (g.raAddNodeInterference n1 n2)
  | setReg {g : Graph} {n reg : ℕ} : ClassesFirst g → n < g.count → reg < g.regs.count →
      ClassesFirst (g.raSetNodeReg n reg)

/-- A graph whose classes were set first was built. -/
theorem ClassesFirst.built (h : ClassesFirst g) : Built g := by
  induction h with
  | alloc regs count => exact .alloc regs count
  | setClass _ hn hcls _ ih => exact .setClass ih hn hcls
  | addInterference _ h1 h2 ih => exact .addInterference ih h1 h2
  | setReg _ hn hreg ih => exact .setReg ih hn hreg

namespace Graph

/-- `q_total` is the sum over all neighbours. -/
def Summed (g : Graph) : Prop := ∀ n, (g.nodes n).qTotal =
    BitVec.ofNat 32 (g.taken (fun _ => true) n)

/-- Setting a node that keeps its class keeps `q`. -/
theorem q_setNode {node : Node} (hcls : node.cls = (g.nodes n).cls) :
    (g.setNode n node).q = g.q := by
  have hall : ∀ m, ((g.setNode n node).nodes m).cls = (g.nodes m).cls := by
    intro m
    by_cases hm : m = n <;> simp [hm, hcls]
  funext n m
  rw [q, hall, hall]
  rfl

/-- An adjacency adds its `q` to the total. -/
theorem Summed.addAdjacency (h : g.Summed) (n1 n2 : ℕ) : (g.raAddNodeAdjacency n1 n2).Summed := by
  intro n
  have := h n
  rw [taken, raAddNodeAdjacency, q_setNode]
  · by_cases hn : n = n1 <;> simp_all [taken, BitVec.ofNat_add]
  · rfl

end Graph

/-- With the classes set first, the totals are the sums over the neighbours. -/
theorem ClassesFirst.summed (h : ClassesFirst g) : g.Summed := by
  induction h with
  | alloc => exact fun _ => rfl
  | @setClass g n cls _ _ _ hnone ih =>
    intro m
    have := ih m
    by_cases hm : m = n <;> simp_all [Graph.raSetNodeClass, Graph.taken]
  | addInterference _ _ _ ih =>
    unfold Graph.raAddNodeInterference
    split_ifs
    · exact (ih.addAdjacency _ _).addAdjacency _ _
    · exact ih
  | @setReg g n reg _ _ _ ih =>
    intro m
    have := ih m
    rw [Graph.taken, Graph.raSetNodeReg, Graph.q_setNode]
    · by_cases hm : m = n <;> simp_all [Graph.taken]
    · rfl

namespace Graph

/-! ### Selection -/

/-- The nodes on the stack are not forced, and each passed the test when those below it were on the
stack. -/
def PqStack (g : Graph) : List ℕ → Prop
  | [] => True
  | n :: stack => n < g.count ∧ (g.nodes n).reg = none ∧
      g.taken (· ∉ stack) n < (g.regs.classes (g.nodes n).cls).p.toNat ∧ g.PqStack stack

/-- If the totals do not wrap, `pq_test` compares the sum over the neighbours that are not on the
stack. -/
theorem PqPushed.pqStack (hg : g.Summed)
    (hsum : ∀ n < g.count, (g.nodes n).reg = none →
      g.taken (fun _ => true) n < 2 ^ 32) {stack : List ℕ}
    (hunforced : ∀ n ∈ stack, n < g.count ∧ (g.nodes n).reg = none)
    (h : g.PqPushed stack) : g.PqStack stack := by
  induction stack with
  | nil => trivial
  | cons n stack ih =>
    obtain ⟨⟨hn, hreg⟩, hrest⟩ := forall_mem_cons.1 hunforced
    obtain ⟨hlt, h⟩ := h
    have hadd : g.taken (· ∈ stack) n + g.taken (· ∉ stack) n = g.taken (fun _ => true) n := by
      have hsplit := sum_map_filter_add_sum_map_filter_not (· ∈ stack) (fun m => (g.q n m).toNat)
      simpa [taken] using hsplit (g.nodes n).adjacencyList
    rw [hg n, toNat_ofNat, Nat.mod_eq_of_lt (hsum n hn hreg)] at hlt
    exact ⟨hn, hreg, by omega, ih hrest h⟩

/-- The other nodes have a register of their class, and those on the stack passed the test. -/
def PqPopping (g : Graph) (stack : List ℕ) (g' : Graph) : Prop :=
  Popping (fun n r => (g.regs.classes (g.nodes n).cls).regs r = true) g g' stack ∧ g.PqStack stack

/-- The registers of the neighbours block less registers than the class of the node has. -/
theorem PqPopping.exists_free (hg : g.Ok) (hregs : g.regs.Ok) (hq : g.regs.CorrectQ)
    (hp : ∀ n < g.count, (g.nodes n).reg = none →
      (g.regs.classes (g.nodes n).cls).p.toNat ≤ (g.regs.members (g.nodes n).cls).card)
        {stack : List ℕ}
    (h : g.PqPopping (n :: stack) g') : ∃ r < g.regs.count, (g'.unstack n).Free n r := by
  obtain ⟨h, hn, hreg, hlt, -⟩ := h
  let off := ((g.nodes n).adjacencyList.filter fun m => decide (m ∉ stack)).toFinset
  let taken := off.biUnion fun m => (g'.nodes m).reg.elim ∅ (g.regs.blocked (g.nodes n).cls)
  have hne : ∀ {m}, g.Adj n m → m ≠ n := fun hm heq => hg.irrefl n (heq ▸ hm)
  have hmem : ∀ {m}, m ∈ off ↔ g.Adj n m ∧ m ∉ stack := by simp [off, Adj]
  have hcard : taken.card < (g.regs.members (g.nodes n).cls).card := by
    refine lt_of_le_of_lt (Finset.card_biUnion_le.trans ?_) (lt_of_lt_of_le hlt (hp n hn hreg))
    rw [Graph.taken, ← sum_toFinset _ ((hg.nodup n).filter _)]
    refine Finset.sum_le_sum fun m hm => ?_
    obtain ⟨hm, hst⟩ := hmem.1 hm
    obtain ⟨r, hr, heq⟩ := h.allocated m (hg.lt (hg.symm hm)) (by simp [hne hm, hst])
    rw [heq]
    exact hq _ _ r hr
  obtain ⟨r, hr, hfree⟩ := Finset.exists_mem_notMem_of_card_lt_card hcard
  have hr' := Finset.mem_filter.1 hr
  refine ⟨r, Finset.mem_range.1 hr'.1, by simpa [unstack, setNode, h.regs, h.cls] using hr'.2,
    fun m hm hin r2 hr2 hc => hfree ?_⟩
  rw [unstack, setNode_nodes, if_pos rfl, h.adjacencyList] at hm
  rw [unstack, setNode_nodes, if_neg (hne hm)] at hin hr2
  rw [unstack, setNode, h.regs] at hc
  refine Finset.mem_biUnion.2 ⟨m, hmem.2 ⟨hm, fun hst => ?_⟩, ?_⟩
  · rw [(h.mem_stack m).1 (mem_cons_of_mem _ hst)] at hin
    cases hin
  · rw [hr2]
    exact Finset.mem_filter.2 ⟨hr, hregs.symm hc⟩

/-- For correct `q` values, classes set before the interferences and forced registers of the classes
of their nodes: if `ra_simplify` pushes all nodes by `pq_test`, `ra_select` succeeds, whatever
registers it chooses. -/
theorem raSelect_of_pqTest (hregs : RegSet g.regs) (hq : g.regs.CorrectQ) (hg : ClassesFirst g)
    (hforced : ∀ {n r}, (g.nodes n).reg = some r → (g.regs.classes (g.nodes n).cls).regs r = true)
    (hp : ∀ n < g.count, (g.nodes n).reg = none →
      (g.regs.classes (g.nodes n).cls).p.toNat ≤ (g.regs.members (g.nodes n).cls).card)
    (hsum : ∀ n < g.count, (g.nodes n).reg = none → g.taken (fun _ => true) n < 2 ^ 32)
    (hcount : g.regs.count ≤ 2 ^ 31) (hlt : g.count < 2 ^ 32) (hsimp : g.raSimplify = some t)
    (hall : ∀ n < g.count, (g.nodes n).reg = none → n ∈ t.stack)
    (hstart : t.stackOptimisticStart = allOnes 32)
    (hcb : ∀ f ∈ callback, SelectReg.Member f) (data : σ) :
    ∃ t', t.raSelect callback data = some (true, t') := by
  have hok := hg.built.ok
  obtain ⟨g', start, rfl, h, -⟩ := (raSimplify_spec hok).result t hsimp
  have hpq := (h.pushed hlt hstart).pqStack hg.summed hsum fun _ => h.unforced
  have hothers : ∀ n < g.count, n ∉ g'.stack →
      ∃ r, (g.regs.classes (g.nodes n).cls).regs r = true ∧ (g'.nodes n).reg = some r := by
    intro n hn hst
    obtain ⟨r, hr⟩ := Option.ne_none_iff_exists'.1 fun hreg => hst (hall n hn hreg)
    exact ⟨r, hforced hr, (h.same.reg n).trans hr⟩
  obtain ⟨ok, t, heq, -, htrue⟩ := raSelectLoop_rec (P := g.PqPopping) hok hregs.ok hcb And.left
    (fun h hfree =>
      ⟨h.1.pop (by simpa [unstack, setNode, h.1.regs, h.1.cls] using hfree.1), h.2.2.2.2⟩)
    g'.stack { g' with stackOptimisticStart := start } 0 data ⟨⟨h.same.regs, h.same.adjacencyList,
      h.same.cls, h.nodup, h.mem_stack, hothers⟩, hpq⟩
  rw [htrue (fun _ => ⟨Nat.zero_le _, hcount⟩) (PqPopping.exists_free hok hregs.ok hq hp)] at heq
  exact ⟨t, heq⟩

end Graph

/-- A register set of two registers, with a class to which `a` and `b` are added. -/
def pairRegs (a b : ℕ) : Regs :=
  ((((raAllocRegSet 2 false).raAllocRegClass.raClassAddReg 0 a).raClassAddReg 0 b).raSetFinalize
    (some fun _ _ => 1)).get rfl

/-- Two interfering nodes. -/
def pairNodes (a b : ℕ) : Graph :=
  (raAllocInterferenceGraph (pairRegs a b) 2).raAddNodeInterference 0 1

/-- The two registers are a register set. -/
theorem regSet_pairRegs {a b : ℕ} (ha : a < 2) (hb : b < 2) : RegSet (pairRegs a b) :=
  .finalize (.addReg (.addReg (.allocClass (.alloc 2 false)) (show 0 < 1 by decide) ha)
    (show 0 < 1 by decide) hb)
    (q := some fun _ _ => 1) rfl

/-- One register never conflicts with two of these. -/
theorem correctQ_pairRegs (a b : ℕ) : (pairRegs a b).CorrectQ := by
  intro c _ r _
  refine Finset.card_le_one.2 fun x hx y hy => ?_
  exact (of_decide_eq_true (Finset.mem_filter.1 hx).2).trans
    (of_decide_eq_true (Finset.mem_filter.1 hy).2).symm

/-- The two nodes have their class from the start. -/
theorem classesFirst_pairNodes (a b : ℕ) : ClassesFirst (pairNodes a b) :=
  .addInterference (.alloc _ 2) (show 0 < 2 by decide) (show 1 < 2 by decide)

/-- A class with both registers. -/
theorem raSelect_of_pqTest_pair : ∃ t t', (pairNodes 0 1).raSimplify = some t ∧
    t.raSelect (σ := Unit) none () = some (true, t') := by
  have hsimp : ∃ t, (pairNodes 0 1).raSimplify = some t ∧ (∀ n < 2, n ∈ t.stack) ∧
      t.stackOptimisticStart = allOnes 32 :=
        ⟨_, (Option.some_get (by decide)).symm, by decide, by decide⟩
  obtain ⟨t, hsimp, hall, hstart⟩ := hsimp
  have hreg : ∀ n, ((pairNodes 0 1).nodes n).reg = none :=
    fun n => (Graph.raAddNodeInterference_frame _ 0 1 n).1
  obtain ⟨t', hsel⟩ := Graph.raSelect_of_pqTest (regSet_pairRegs (a := 0) (b := 1)
    (by decide) (by decide))
    (correctQ_pairRegs 0 1) (classesFirst_pairNodes 0 1)
    (fun {n r} h => by rw [hreg] at h; cases h) (by decide)
    (by decide) (by decide) (by decide) hsimp (fun n hn _ => hall n hn) hstart
    (show ∀ f ∈ none, _ by simp) ()
  exact ⟨t, t', hsimp, hsel⟩

/-- A class with one register that is added twice: `p` is two, and both nodes pass the test. -/
theorem raSelect_register_twice : RegSet (pairRegs 0 0) ∧ (pairRegs 0 0).CorrectQ ∧
    ClassesFirst (pairNodes 0 0) ∧
    ∃ t, (pairNodes 0 0).raSimplify = some t ∧ (∀ n < 2, n ∈ t.stack) ∧
      t.stackOptimisticStart = allOnes 32 ∧
        (t.raSelect (σ := Unit) none ()).map Prod.fst = some false :=
  ⟨regSet_pairRegs (by decide) (by decide), correctQ_pairRegs 0 0, classesFirst_pairNodes 0 0, _,
    (Option.some_get (by decide)).symm, by decide, by decide, by decide⟩

end Mesa3D.Ra
