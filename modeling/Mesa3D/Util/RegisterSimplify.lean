import Mesa3D.Util.RegisterAllocate
import Mathlib.Data.List.Range
import Mathlib.Algebra.BigOperators.Group.List.Basic
import Mathlib.Algebra.Order.BigOperators.Group.List
import Mathlib.Algebra.Order.Group.Nat

/-!
# What `ra_simplify` leaves behind

`ra_simplify` only takes nodes off whose `q_total` is not `~0` (`Eligible`), and it goes on until no
such node is left (`raSimplifyLoop_spec`), if the assertion of `decrement_q` does not fail. So the
`q_total` of a node that is not on the stack is the initial one without the neighbours on the stack,
and does not wrap (`Simplified`).
-/

namespace Mesa3D.Ra

open List

/-! ### Calls that may not return -/

/-- What a call returns satisfies `Q`, and if `T` holds it returns. -/
structure Gives {α : Type} (T : Prop) (x : Option α) (Q : α → Prop) : Prop where
  /-- What holds of a result. -/
  result : ∀ a, x = some a → Q a
  /-- When there is a result. -/
  returns : T → x.isSome

namespace Gives

variable {α β : Type} {T : Prop} {x : Option α} {Q : α → Prop} {R : β → Prop} {a : α}

/-- A value is returned. -/
theorem pure (h : Q a) : Gives T (some a) Q := ⟨fun _ hb => Option.some.inj hb ▸ h, fun _ => rfl⟩

/-- Two calls after each other. -/
theorem bind {f : α → Option β} (h : Gives T x Q) (hf : ∀ a, Q a → Gives T (f a) R) :
    Gives T (x.bind f) R := by
  refine ⟨fun b hb => ?_, fun ht => ?_⟩
  · obtain ⟨a, ha, hb⟩ := Option.bind_eq_some_iff.1 hb
    exact (hf a (h.result a ha)).result b hb
  · obtain ⟨a, rfl⟩ := Option.isSome_iff_exists.1 (h.returns ht)
    exact (hf a (h.result a rfl)).returns ht

/-- A weaker result. -/
theorem mono {Q' : α → Prop} (h : Gives T x Q) (hQ : ∀ a, Q a → Q' a) : Gives T x Q' :=
  ⟨fun a ha => hQ a (h.result a ha), h.returns⟩

/-- A call whose result is changed. -/
theorem map {f : α → β} (h : Gives T x Q) (hf : ∀ a, Q a → R (f a)) : Gives T (x.map f) R := by
  rw [Option.map_eq_bind]
  exact h.bind fun a ha => .pure (hf a ha)

end Gives

variable {g g' : Graph} {n m i : ℕ} {T : Prop}

/-! ### Graphs -/

namespace Graph

/-- Whether two nodes interfere. -/
def Adj (g : Graph) (n m : ℕ) : Prop := m ∈ (g.nodes n).adjacencyList

/-- What holds of every graph that a driver builds. -/
structure Ok (g : Graph) : Prop where
  /-- Interference is symmetric. -/
  symm : ∀ {n m}, g.Adj n m → g.Adj m n
  /-- No node interferes with itself. -/
  irrefl : ∀ n, ¬g.Adj n n
  /-- No neighbour is listed twice. -/
  nodup : ∀ n, (g.nodes n).adjacencyList.Nodup
  /-- Neighbours are nodes. -/
  lt : ∀ {n m}, g.Adj n m → n < g.count
  /-- Nothing is on the stack. -/
  stack : g.stack = []
  /-- No node is marked as stacked. -/
  inStack : ∀ n, (g.nodes n).inStack = false

/-- What the nodes are after one is set. -/
@[simp] theorem setNode_nodes (g : Graph) (n m : ℕ) (node : Node) :
    (g.setNode n node).nodes m = if m = n then node else g.nodes m := by
  simp [setNode, Function.update_apply]

/-- Adding an interference keeps the classes and registers. -/
theorem raAddNodeInterference_frame (g : Graph) (n1 n2 n : ℕ) :
    ((g.raAddNodeInterference n1 n2).nodes n).reg = (g.nodes n).reg ∧
    ((g.raAddNodeInterference n1 n2).nodes n).cls = (g.nodes n).cls := by
  unfold raAddNodeInterference
  split_ifs
  · simp only [raAddNodeAdjacency, setNode_nodes]
    by_cases h1 : n = n1 <;> by_cases h2 : n = n2 <;> by_cases h3 : n2 = n1 <;> simp_all
  · exact ⟨rfl, rfl⟩

/-- Setting a node that keeps its neighbours, before simplification. -/
theorem Ok.setNode (h : g.Ok) {node : Node} (hadj : node.adjacencyList = (g.nodes i).adjacencyList)
    (hin : node.inStack = false) : (g.setNode i node).Ok := by
  have hlist : ∀ n, ((g.setNode i node).nodes n).adjacencyList = (g.nodes n).adjacencyList := by
    intro n
    by_cases hn : n = i <;> simp [hn, hadj]
  have hiff : ∀ {n m}, (g.setNode i node).Adj n m ↔ g.Adj n m := by
    intro n m
    rw [Adj, hlist, Adj]
  refine ⟨fun hnm => hiff.2 (h.symm (hiff.1 hnm)), fun n hn => h.irrefl n (hiff.1 hn), fun n => ?_,
    fun hnm => h.lt (hiff.1 hnm), h.stack, fun n => ?_⟩
  · rw [hlist]
    exact h.nodup n
  · by_cases hn : n = i <;> simp [hn, hin, h.inStack]

/-- Adding an interference keeps the graph well formed. -/
theorem Ok.addInterference (h : g.Ok) {n1 n2 : ℕ} (h1 : n1 < g.count) (h2 : n2 < g.count) :
    (g.raAddNodeInterference n1 n2).Ok := by
  unfold raAddNodeInterference
  split_ifs with hc
  · obtain ⟨hne, hnot⟩ := hc
    have hnot' : n1 ∉ (g.nodes n2).adjacencyList := fun hmem => hnot (h.symm hmem)
    set g' := (g.raAddNodeAdjacency n1 n2).raAddNodeAdjacency n2 n1 with hg'
    have hlist : ∀ n, (g'.nodes n).adjacencyList =
        if n = n1 then (g.nodes n).adjacencyList ++ [n2]
        else if n = n2 then (g.nodes n).adjacencyList ++ [n1] else (g.nodes n).adjacencyList := by
      intro n
      by_cases hn1 : n = n1
      · subst hn1
        simp [hg', raAddNodeAdjacency, hne]
      · by_cases hn2 : n = n2 <;> simp [hg', raAddNodeAdjacency, hn1, hn2, hne.symm]
    have hiff : ∀ {n m}, g'.Adj n m ↔ g.Adj n m ∨ n = n1 ∧ m = n2 ∨ n = n2 ∧ m = n1 := by
      intro n m
      rw [Adj, hlist, Adj]
      split_ifs with hn1 hn2 <;> simp_all
    refine ⟨fun {n m} hnm => ?_, fun n hn => ?_, fun n => ?_, fun {n m} hnm => ?_, h.stack,
      fun n => ?_⟩
    · rw [hiff] at hnm ⊢
      rcases hnm with hnm | ⟨rfl, rfl⟩ | ⟨rfl, rfl⟩
      · exact .inl (h.symm hnm)
      · exact .inr (.inr ⟨rfl, rfl⟩)
      · exact .inr (.inl ⟨rfl, rfl⟩)
    · rcases hiff.1 hn with hn | ⟨rfl, rfl⟩ | ⟨rfl, rfl⟩
      · exact h.irrefl n hn
      · exact hne rfl
      · exact hne rfl
    · rw [hlist]
      split_ifs with hn1 hn2
      · exact (h.nodup n).append (nodup_singleton n2) (by simpa [hn1] using hnot)
      · exact (h.nodup n).append (nodup_singleton n1) (by simpa [hn2] using hnot')
      · exact h.nodup n
    · rcases hiff.1 hnm with hnm | ⟨rfl, rfl⟩ | ⟨rfl, rfl⟩
      · exact h.lt hnm
      · exact h1
      · exact h2
    · simp only [hg', raAddNodeAdjacency, setNode_nodes]
      split_ifs <;> simp [h.inStack]
  · exact h

end Graph

/-- A graph that was built through the calls is well formed. -/
theorem Built.ok (h : Built g) : g.Ok := by
  induction h with
  | alloc regs count =>
    exact ⟨fun h => absurd h not_mem_nil, fun _ => not_mem_nil, fun _ => nodup_nil,
      fun h => absurd h not_mem_nil, rfl, fun _ => rfl⟩
  | setClass _ _ _ ih => exact ih.setNode rfl (ih.inStack _)
  | addInterference _ h1 h2 ih => exact ih.addInterference h1 h2
  | setReg _ _ _ ih => exact ih.setNode rfl rfl

/-! ### Taking a node off -/

namespace Graph

/-- What `ra_simplify` leaves alone. -/
structure Same (g g' : Graph) : Prop where
  /-- The registers. -/
  regs : g'.regs = g.regs
  /-- The number of nodes. -/
  count : g'.count = g.count
  /-- The neighbours. -/
  adjacencyList : ∀ n, (g'.nodes n).adjacencyList = (g.nodes n).adjacencyList
  /-- The classes. -/
  cls : ∀ n, (g'.nodes n).cls = (g.nodes n).cls
  /-- The registers that are given or forced. -/
  reg : ∀ n, (g'.nodes n).reg = (g.nodes n).reg

/-- A graph is the same as itself. -/
theorem Same.refl (g : Graph) : Same g g := ⟨rfl, rfl, fun _ => rfl, fun _ => rfl, fun _ => rfl⟩

/-- Being the same is transitive. -/
theorem Same.trans {g'' : Graph} (h : Same g g') (h' : Same g' g'') : Same g g'' :=
  ⟨h'.regs.trans h.regs, h'.count.trans h.count, fun n =>
    (h'.adjacencyList n).trans (h.adjacencyList n),
    fun n => (h'.cls n).trans (h.cls n), fun n => (h'.reg n).trans (h.reg n)⟩

/-- Setting a node that keeps neighbours, class and register. -/
theorem same_setNode {node : Node} (hadj : node.adjacencyList = (g.nodes i).adjacencyList)
    (hcls : node.cls = (g.nodes i).cls) (hreg : node.reg = (g.nodes i).reg) :
    Same g (g.setNode i node) := by
  refine ⟨rfl, rfl, fun n => ?_, fun n => ?_, fun n => ?_⟩ <;> rw [setNode_nodes] <;>
    split_ifs with hn <;> simp [hn, hadj, hcls, hreg]

/-- The same graph has the same `q`. -/
theorem Same.q (h : Same g g') (n m : ℕ) : g'.q n m = g.q n m := by
  unfold Graph.q
  rw [h.regs, h.cls, h.cls]

/-- `decrement_q` for the neighbours in the list. -/
structure Decremented (g g' : Graph) (i : ℕ) (list : List ℕ) : Prop where
  /-- The graph is the same. -/
  same : Same g g'
  /-- The stack is the same. -/
  stack : g'.stack = g.stack
  /-- The same nodes are stacked. -/
  inStack : ∀ n, (g'.nodes n).inStack = (g.nodes n).inStack
  /-- The totals of the neighbours that are left fall by their `q`. -/
  qTotal : ∀ n, (g.nodes n).inStack = false → (g'.nodes n).qTotal.toNat +
    (if n ∈ list then (g.q n i).toNat else 0) = (g.nodes n).qTotal.toNat

/-- One round of the loop. -/
theorem gives_decrementNeighbor (g : Graph) (i c : ℕ)
    (hT : T → (g.nodes c).inStack = false → g.q c i ≤ (g.nodes c).qTotal) :
    Gives T (decrementNeighbor i g c) (Decremented g · i [c]) := by
  unfold decrementNeighbor
  split_ifs with hin hle
  · refine .pure ⟨.refl g, rfl, fun _ => rfl, fun n hn => ?_⟩
    have hnc : n ≠ c := by
      rintro rfl
      rw [hn] at hin
      cases hin
    simp [hnc]
  · refine .pure ⟨same_setNode rfl rfl rfl, rfl, fun n => ?_, fun n _ => ?_⟩ <;>
      rw [setNode_nodes] <;> by_cases hn : n = c
    · simp [hn]
    · simp [hn]
    · subst hn
      simp only [if_true, mem_singleton]
      rw [BitVec.toNat_sub_of_le hle, Nat.sub_add_cancel (BitVec.le_def.1 hle)]
    · simp [hn]
  · exact ⟨fun _ h => (by cases h), fun ht => absurd (hT ht (by simpa using hin)) hle⟩

/-- The loop of `decrement_q`. -/
theorem gives_decrementQ (list : List ℕ) (g : Graph) (i : ℕ) (hnodup : list.Nodup)
    (hT : T → ∀ n ∈ list, (g.nodes n).inStack = false → g.q n i ≤ (g.nodes n).qTotal) :
    Gives T (list.foldlM (decrementNeighbor i) g) (Decremented g · i list) := by
  induction list generalizing g with
  | nil => exact .pure ⟨.refl g, rfl, fun _ => rfl, fun n _ => by simp⟩
  | cons c list ih =>
    obtain ⟨hc, hnodup⟩ := nodup_cons.1 hnodup
    rw [foldlM_cons]
    refine (gives_decrementNeighbor g i c fun ht => hT ht c mem_cons_self).bind fun g1 h1 => ?_
    have hkeep : ∀ n, n ≠ c → (g.nodes n).inStack = false →
      (g1.nodes n).qTotal = (g.nodes n).qTotal :=
      fun n hn hin => BitVec.eq_of_toNat_eq (by simpa [hn] using h1.qTotal n hin)
    have hrest := ih g1 hnodup fun ht n hn hin => by
      have hnc : n ≠ c := fun heq => hc (heq ▸ hn)
      rw [h1.inStack] at hin
      rw [h1.same.q, hkeep n hnc hin]
      exact hT ht n (mem_cons_of_mem _ hn) hin
    refine ⟨fun g2 h2 => ?_, hrest.returns⟩
    have h2 := hrest.result g2 h2
    refine ⟨h1.same.trans h2.same, h2.stack.trans h1.stack, fun n =>
      (h2.inStack n).trans (h1.inStack n),
      fun n hin => ?_⟩
    have e1 := h1.qTotal n hin
    have e2 := h2.qTotal n ((h1.inStack n).trans hin)
    rw [h1.same.q] at e2
    by_cases hn : n = c
    · subst hn
      simp only [hc, if_false, mem_cons, true_or, if_true] at e1 e2 ⊢
      omega
    · simp only [hn, if_false, mem_cons, not_mem_nil, false_or] at e1 e2 ⊢
      omega

/-- What is taken from the `q_total` of a node for the neighbours that satisfy `p`. -/
def taken (g : Graph) (p : ℕ → Bool) (n : ℕ) : ℕ :=
  (((g.nodes n).adjacencyList.filter p).map fun m => (g.q n m).toNat).sum

/-- The assertion of `decrement_q` holds whatever nodes are taken off. -/
def NoBorrow (g : Graph) : Prop :=
  ∀ n < g.count, g.taken (fun m => (g.nodes m).reg = none) n ≤ (g.nodes n).qTotal.toNat

/-- A graph from which the nodes on the stack are taken off. -/
structure Simplified (g g' : Graph) : Prop where
  /-- The graph is the same. -/
  same : Same g g'
  /-- No node is stacked twice. -/
  nodup : g'.stack.Nodup
  /-- The marks agree with the stack. -/
  mem_stack : ∀ n, n ∈ g'.stack ↔ (g'.nodes n).inStack = true
  /-- Stacked nodes have no register forced on them. -/
  unforced : ∀ {n}, n ∈ g'.stack → n < g.count ∧ (g.nodes n).reg = none
  /-- The totals are those without the stacked neighbours. -/
  qTotal : ∀ {n}, n ∉ g'.stack →
    (g'.nodes n).qTotal.toNat + g.taken (· ∈ g'.stack) n = (g.nodes n).qTotal.toNat

/-- A sum over the neighbours on the stack, with one node more on it. -/
theorem sum_filter_mem_cons {list st : List ℕ} (f : ℕ → ℕ) (hi : i ∉ st) (hnodup : list.Nodup) :
    ((list.filter (· ∈ i :: st)).map f).sum =
      ((list.filter (· ∈ st)).map f).sum + if i ∈ list then f i else 0 := by
  induction list with
  | nil => rfl
  | cons c list ih =>
    obtain ⟨hc, hnodup⟩ := nodup_cons.1 hnodup
    have ih := ih hnodup
    by_cases hci : c = i
    · subst hci
      rw [if_neg hc] at ih
      rw [filter_cons_of_pos (by simp), filter_cons_of_neg (by simpa using hi),
        if_pos mem_cons_self, map_cons,
        sum_cons, ih]
      omega
    · have hmem : i ∈ c :: list ↔ i ∈ list := by simp [Ne.symm hci]
      simp only [hmem]
      by_cases hst : c ∈ st
      · rw [filter_cons_of_pos (by simp [hst]), filter_cons_of_pos
          (by simpa using hst), map_cons, map_cons,
          sum_cons, sum_cons, ih, Nat.add_assoc]
      · rw [filter_cons_of_neg (by simp [hst, hci]), filter_cons_of_neg (by simpa using hst), ih]

/-- More is taken for more neighbours. -/
theorem taken_mono (g : Graph) (n : ℕ) {p p' : ℕ → Bool}
    (h : ∀ m, p m = true → p' m = true) : g.taken p n ≤ g.taken p' n :=
  ((monotone_filter_right _ fun m hm => h m hm).map _).sum_le_sum fun _ _ => Nat.zero_le _

/-- A node that `ra_simplify` can take off. -/
structure Eligible (g : Graph) (i : ℕ) : Prop where
  /-- It is a node. -/
  lt : i < g.count
  /-- It is not stacked. -/
  inStack : (g.nodes i).inStack = false
  /-- It has no register. -/
  reg : (g.nodes i).reg = none
  /-- Its total is not the largest number. -/
  qTotal : (g.nodes i).qTotal ≠ BitVec.allOnes 32

/-- A node is taken off, unless the assertion fails. -/
theorem Simplified.push (hg : g.Ok) (h : Simplified g g') (hi : g'.Eligible i) :
    Gives g.NoBorrow (g'.push i) fun t => Simplified g t ∧ t.stack = i :: g'.stack := by
  have his : i ∉ g'.stack := fun hmem => by
    rw [h.mem_stack, hi.inStack] at hmem
    cases hmem
  have hunforced : i < g.count ∧ (g.nodes i).reg = none :=
    ⟨h.same.count ▸ hi.lt, (h.same.reg i).symm.trans hi.reg⟩
  have hcons : ∀ n, g.taken (· ∈ i :: g'.stack) n =
      g.taken (· ∈ g'.stack) n + if i ∈ (g.nodes n).adjacencyList then (g.q n i).toNat else 0 :=
    fun n => sum_filter_mem_cons _ his (hg.nodup n)
  have hst : ∀ n, n ∉ g'.stack ↔ (g'.nodes n).inStack = false := fun n => by simp [h.mem_stack]
  have hnodup : (g'.nodes i).adjacencyList.Nodup := h.same.adjacencyList i ▸ hg.nodup i
  refine (gives_decrementQ _ g' i hnodup fun hnb n hn hin => ?_).map fun t ht => ?_
  · -- what has been taken off before is part of the sum of `NoBorrow`
    rw [h.same.adjacencyList] at hn
    have hadj : i ∈ (g.nodes n).adjacencyList := hg.symm hn
    have hle : g.taken (· ∈ i :: g'.stack) n ≤ g.taken (fun m => (g.nodes m).reg = none) n := by
      refine g.taken_mono n fun m hm => decide_eq_true ?_
      rcases mem_cons.1 (of_decide_eq_true hm) with rfl | hm
      · exact hunforced.2
      · exact (h.unforced hm).2
    have hnb := hnb n (hg.lt hadj)
    have hq := h.qTotal ((hst n).2 hin)
    rw [hcons, if_pos hadj] at hle
    rw [h.same.q, BitVec.le_def]
    omega
  · have hpush : Same t (t.setNode i { t.nodes i with inStack := true }) := same_setNode rfl rfl rfl
    have hsame := (h.same.trans ht.same).trans hpush
    refine ⟨⟨⟨hsame.regs, hsame.count, hsame.adjacencyList, hsame.cls, hsame.reg⟩, ?_, fun n => ?_,
      fun {n} hn => ?_, fun {n} hn => ?_⟩, congrArg _ ht.stack⟩
    · simpa [ht.stack] using And.intro his h.nodup
    · by_cases hn : n = i <;> simp [hn, ht.stack, h.mem_stack, ht.inStack]
    · rcases mem_cons.1 (ht.stack ▸ hn) with rfl | hn
      · exact hunforced
      · exact h.unforced hn
    · rw [ht.stack, mem_cons, not_or] at hn
      have hq := h.qTotal hn.2
      have hq' := ht.qTotal n ((hst n).1 hn.2)
      have hadj : n ∈ (g'.nodes i).adjacencyList ↔ i ∈ (g.nodes n).adjacencyList := by
        rw [h.same.adjacencyList]
        exact ⟨hg.symm, hg.symm⟩
      simp only [hadj, h.same.q] at hq'
      simp only [setNode_nodes, if_neg hn.1, ht.stack, hcons]
      omega

/-! ### The loops of `ra_simplify` -/

/-- A node that `ra_simplify` does not take off. -/
def Done (g : Graph) (i : ℕ) : Prop :=
  (g.nodes i).inStack = true ∨ (g.nodes i).reg ≠ none ∨ (g.nodes i).qTotal = BitVec.allOnes 32

section Loops

-- `P` holds of the graph after any number of nodes are taken off that pass the test
variable {P : Graph → Prop} {N : ℕ} (hcount : ∀ {g}, P g → g.count = N)
  (hpush : ∀ {g i}, P g → g.Eligible i → g.pqTest i = true →
    Gives T (g.push i) fun t => P t ∧ t.stack = i :: g.stack)

/-- The inner loop after the nodes of `V`, from the graph `g` on. -/
structure ScanOk (P : Graph → Prop) (g : Graph) (V : List ℕ) (s : Scan) : Prop where
  /-- What is to hold of the graph. -/
  holds : P s.graph
  /-- With progress the stack has grown. -/
  progress : s.progress = true → g.stack.length < s.graph.stack.length
  /-- Without progress nothing has changed. -/
  same : s.progress = false → s.graph = g
  /-- The best candidate is eligible. -/
  best : ∀ {b}, s.best = some b → s.progress = false → g.Eligible b
  /-- Without a candidate the lowest total is the largest number. -/
  lowest : s.best = none → s.lowest = BitVec.allOnes 32
  /-- Without progress and candidate the nodes that were visited are done. -/
  done : s.best = none → s.progress = false → ∀ i ∈ V, g.Done i

/-- What is below a number is not the largest. -/
theorem ne_allOnes_of_lt {x y : BitVec 32} (h : x < y) : x ≠ BitVec.allOnes 32 := by
  rintro rfl
  rw [BitVec.lt_def, BitVec.toNat_allOnes] at h
  omega

/-- A node with a small enough total that is neither skipped nor stacked is eligible. -/
theorem eligible_of_lt (hi : i < g.count)
    (hskip : ¬((g.nodes i).inStack || (g.nodes i).reg.isSome) = true)
    {x : BitVec 32} (hq : (g.nodes i).qTotal < x) : g.Eligible i := by
  simp only [Bool.or_eq_true, not_or, Bool.not_eq_true, Option.isSome_eq_false_iff,
    Option.isNone_iff_eq_none] at hskip
  exact ⟨hi, hskip.1, hskip.2, ne_allOnes_of_lt hq⟩

include hcount hpush

/-- One round of the inner loop. -/
theorem ScanOk.scanNode {V : List ℕ} {s : Scan} (h : ScanOk P g V s) (hi : i < N) :
    Gives T (scanNode s i) (ScanOk P g (V ++ [i])) := by
  unfold Ra.scanNode
  dsimp only
  have hdone : (s.best = none → s.progress = false → g.Done i) →
    s.best = none → s.progress = false →
      ∀ j ∈ V ++ [i], g.Done j := by
    intro hi hb hp j hj
    rcases mem_append.1 hj with hj | hj
    · exact h.done hb hp j hj
    · exact mem_singleton.1 hj ▸ hi hb hp
  split_ifs with hskip hpq hq
  · -- on the stack, or forced
    refine .pure ⟨h.holds, h.progress, h.same, h.best, h.lowest, hdone fun _ hp => ?_⟩
    rw [h.same hp] at hskip
    rcases Bool.or_eq_true_iff.1 hskip with hskip | hskip
    · exact .inl hskip
    · exact .inr (.inl (by rw [← Option.isSome_iff_ne_none]; exact hskip))
  · -- trivially colourable
    have hel := eligible_of_lt (by rwa [hcount h.holds]) hskip (of_decide_eq_true hpq)
    refine (hpush h.holds hel hpq).map fun t ht =>
      ⟨ht.1, fun _ => ?_, by simp, by simp, h.lowest, by simp⟩
    rw [ht.2, length_cons]
    cases hp : s.progress with
    | true => exact (h.progress hp).trans (Nat.lt_succ_self _)
    | false => exact h.same hp ▸ Nat.lt_succ_self _
  · -- a better candidate
    refine .pure ⟨h.holds, h.progress, h.same, fun {b} hb hp => ?_, by simp, by simp⟩
    cases hb
    rw [← h.same hp]
    exact eligible_of_lt (by rwa [hcount h.holds]) hskip hq
  · -- no better candidate
    refine .pure ⟨h.holds, h.progress, h.same, h.best, h.lowest, hdone fun hb hp => .inr (.inr ?_)⟩
    rw [h.lowest hb, h.same hp, BitVec.lt_allOnes_iff, not_not] at hq
    exact hq

/-- The inner loop. -/
theorem ScanOk.foldlM {V list : List ℕ} {s : Scan} (h : ScanOk P g V s) (hlt : ∀ i ∈ list, i < N) :
    Gives T (list.foldlM Ra.scanNode s) (ScanOk P g (V ++ list)) := by
  induction list generalizing V s with
  | nil =>
    rw [append_nil]
    exact .pure h
  | cons i list ih =>
    rw [foldlM_cons]
    refine (h.scanNode hcount hpush (hlt i (by simp))).bind fun s' hs' => ?_
    have hrest := ih hs' fun j hj => hlt j (by simp [hj])
    rwa [append_assoc] at hrest

/-- The inner loop over all nodes. -/
theorem scanOk_scan (hg : P g) : Gives T g.scan (ScanOk P g (range g.count).reverse) := by
  have hinit : ScanOk P g [] ⟨g, false, none, BitVec.allOnes 32⟩ := by
    refine ⟨hg, fun h => ?_, fun _ => rfl, fun h => ?_, fun _ => rfl, fun _ _ _ h => ?_⟩ <;> cases h
  have hlt : ∀ i ∈ (range g.count).reverse, i < N := fun i hi => by
    rw [← hcount hg]
    simpa using hi
  exact hinit.foldlM hcount hpush hlt

end Loops

/-- `ra_simplify` ends when no eligible node is left. What holds may depend on the start. -/
theorem raSimplifyLoop_spec {N : ℕ} {P : BitVec 32 → Graph → Prop}
    (hcount : ∀ {start g}, P start g → g.count = N)
    (hlen : ∀ {start g}, P start g → g.stack.length ≤ N)
    (hpush : ∀ {start g i}, P start g → g.Eligible i → g.pqTest i = true →
      Gives T (g.push i) fun t => P start t ∧ t.stack = i :: g.stack)
    (hbest : ∀ {start g i}, P start g → g.Eligible i → Gives T (g.push i) fun t =>
      P (if start = BitVec.allOnes 32 then BitVec.ofNat 32 g.stack.length else start) t ∧
        t.stack = i :: g.stack)
    (fuel : ℕ) (g : Graph) (start : BitVec 32) (hg : P start g)
    (hfuel : N < fuel + g.stack.length) :
    Gives T (raSimplifyLoop fuel g start) fun t => ∃ g' start',
      t = { g' with stackOptimisticStart := start' } ∧ P start' g' ∧ ∀ i < N, g'.Done i := by
  induction fuel generalizing g start with
  | zero =>
    have := hlen hg
    omega
  | succ fuel ih =>
    refine (scanOk_scan hcount hpush hg).bind fun s hs => ?_
    cases hp : s.progress with
    | true =>
      have hlt := hs.progress hp
      rw [if_pos rfl]
      exact ih _ _ hs.holds (by omega)
    | false =>
      rw [if_neg Bool.false_ne_true]
      have hsame := hs.same hp
      cases hb : s.best with
      | some b =>
        have hP := hs.holds
        rw [hsame] at hP
        dsimp only
        rw [hsame]
        refine (hbest hP (hs.best hb hp)).bind fun t ht => ih _ _ ht.1 ?_
        rw [ht.2, length_cons]
        omega
      | none =>
        refine .pure ⟨s.graph, start, rfl, hs.holds, fun i hi => ?_⟩
        rw [hsame]
        refine hs.done hb hp i ?_
        rw [hcount hg]
        simpa using hi

/-! ### What is on the stack -/

/-- A set of nodes without a register whose `q_total`s are `~0`, and from which nothing is taken for
the other such nodes. -/
def Stuck (g : Graph) (S : Finset ℕ) : Prop :=
  ∀ n ∈ S, n < g.count ∧ (g.nodes n).reg = none ∧ (g.nodes n).qTotal = BitVec.allOnes 32 ∧
    ∀ m, g.Adj n m → (g.nodes m).reg = none → m ∉ S → g.q n m = 0

/-- No set of nodes is stuck. -/
def NoStuck (g : Graph) : Prop := ∀ S : Finset ℕ, S.Nonempty → ¬g.Stuck S

/-- The nodes of the stack passed `pq_test` when those below them were on it. -/
def PqPushed (g : Graph) : List ℕ → Prop
  | [] => True
  | n :: stack => (g.nodes n).qTotal.toNat <
      (g.regs.classes (g.nodes n).cls).p.toNat + g.taken (· ∈ stack) n ∧ g.PqPushed stack

/-- Nothing is taken when no neighbour counts. -/
theorem taken_eq_zero_iff {p : ℕ → Bool} :
    g.taken p n = 0 ↔ ∀ m, g.Adj n m → p m = true → g.q n m = 0 := by
  simp only [taken, Adj, sum_eq_zero_iff, mem_map, mem_filter, forall_exists_index, and_imp]
  refine ⟨fun h m hm hp => BitVec.eq_of_toNat_eq (h _ m hm hp rfl), ?_⟩
  rintro h _ m hm hp rfl
  rw [h m hm hp]
  rfl

/-- Before the first round nothing was simplified. -/
theorem Ok.simplified (h : g.Ok) : Simplified g g where
  same := .refl g
  nodup := h.stack ▸ nodup_nil
  mem_stack n := by simp [h.stack, h.inStack]
  unforced hn := by simp [h.stack] at hn
  qTotal {n} _ := by simp [h.stack, taken]

/-- The stack holds no more nodes than there are. -/
theorem Simplified.length_le (h : Simplified g g') : g'.stack.length ≤ g.count := by
  have hsub : g'.stack ⊆ range g.count := fun n hn => mem_range.2 (h.unforced hn).1
  simpa using (h.nodup.subperm hsub).length_le

/-- A stuck node is not taken off as long as no other one of the set is. -/
theorem Stuck.not_eligible {S : Finset ℕ} (hS : g.Stuck S) (h : Simplified g g')
    (havoid : ∀ m ∈ S, m ∉ g'.stack) (hn : n ∈ S) : ¬g'.Eligible n := by
  obtain ⟨-, -, hfull, hzero⟩ := hS n hn
  have hst : g.taken (· ∈ g'.stack) n = 0 := taken_eq_zero_iff.2 fun m hm hmem =>
    have hmem : m ∈ g'.stack := of_decide_eq_true hmem
    hzero m hm (h.unforced hmem).2 fun hmS => havoid m hmS hmem
  have hq := h.qTotal (havoid n hn)
  rw [hst, hfull] at hq
  exact fun hel => hel.qTotal (BitVec.eq_of_toNat_eq hq)

/-- The nodes that `ra_simplify` does not take off are stuck. -/
theorem Simplified.stuck (hg : g.Ok) (h : Simplified g g') (hdone : ∀ i < g.count, g'.Done i) :
    g.Stuck ((Finset.range g.count).filter fun n => (g.nodes n).reg = none ∧ n ∉ g'.stack) := by
  intro n hn
  obtain ⟨hlt, hreg, hst⟩ := by simpa using hn
  have hq : (g'.nodes n).qTotal = BitVec.allOnes 32 := by
    rcases hdone n hlt with hd | hd | hd
    · exact absurd ((h.mem_stack n).2 hd) hst
    · exact absurd ((h.same.reg n).trans hreg) hd
    · exact hd
  -- nothing was taken from the total, as no total is greater
  have htotal := h.qTotal hst
  have hmax := (g.nodes n).qTotal.isLt
  rw [hq, BitVec.toNat_allOnes] at htotal
  have hzero : g.taken (· ∈ g'.stack) n = 0 := by omega
  refine ⟨hlt, hreg, BitVec.eq_of_toNat_eq (by rw [BitVec.toNat_allOnes]; omega),
    fun m hm hmreg hmS => ?_⟩
  refine taken_eq_zero_iff.1 hzero m hm (decide_eq_true ?_)
  simpa [hg.lt (hg.symm hm), hmreg] using hmS

/-- What holds while `ra_simplify` takes nodes off: no stuck node is taken off, and without a start
all nodes on the stack passed the test. -/
structure Simplifying (g : Graph) (start : BitVec 32) (g' : Graph) :
    Prop extends Simplified g g' where
  /-- No node of a stuck set is pushed. -/
  avoids : ∀ S, g.Stuck S → ∀ m ∈ S, m ∉ g'.stack
  /-- While nothing is pushed optimistically, every node passed the test. -/
  pushed : g.count < 2 ^ 32 → start = BitVec.allOnes 32 → g.PqPushed g'.stack

/-- Pushing an eligible node keeps what holds in the loop. -/
theorem Simplifying.push {start start' : BitVec 32} (hg : g.Ok) (h : g.Simplifying start g')
    (hi : g'.Eligible i) (hstart : g.count < 2 ^ 32 → start' = BitVec.allOnes 32 →
      start = BitVec.allOnes 32 ∧ g'.pqTest i = true) :
    Gives g.NoBorrow (g'.push i) fun t => g.Simplifying start' t ∧ t.stack = i :: g'.stack := by
  refine (h.toSimplified.push hg hi).mono fun t ht =>
    ⟨⟨ht.1, fun S hS m hm hst => ?_, fun hlt hs => ?_⟩, ht.2⟩
  · rcases mem_cons.1 (ht.2 ▸ hst) with rfl | hst
    · exact hS.not_eligible h.toSimplified (h.avoids S hS) hm hi
    · exact h.avoids S hS m hm hst
  · obtain ⟨hs, hpq⟩ := hstart hlt hs
    have hst : i ∉ g'.stack := by
      rw [h.mem_stack, hi.inStack]
      exact Bool.false_ne_true
    have hq := h.qTotal hst
    have hpq : (g'.nodes i).qTotal < (g'.regs.classes (g'.nodes i).cls).p := of_decide_eq_true hpq
    rw [h.same.regs, h.same.cls, BitVec.lt_def] at hpq
    rw [ht.2]
    exact ⟨by omega, h.pushed hlt hs⟩

/-- What `ra_simplify` returns. It returns if the assertion of `decrement_q` holds. -/
theorem raSimplify_spec (hg : g.Ok) : Gives g.NoBorrow g.raSimplify fun t => ∃ g' start,
    t = { g' with stackOptimisticStart := start } ∧ g.Simplifying start g' ∧
      ∀ i < g.count, g'.Done i := by
  have hinit : g.Simplifying (BitVec.allOnes 32) g :=
    ⟨hg.simplified,
      fun _ _ m _ hm => by simp [hg.stack] at hm, fun _ _ => by rw [hg.stack]; trivial⟩
  refine raSimplifyLoop_spec (P := g.Simplifying) (fun h => h.same.count) (fun h => h.length_le)
    (fun h hi hpq => h.push hg hi fun _ hs => ⟨hs, hpq⟩)
    (fun {start g' i} h hi => ?_) _ g _ hinit (by omega)
  -- the start is the length of the stack now, which is less than the number of nodes
  have hlen : g'.stack.length < g.count := by
    have hst : i ∉ g'.stack := by
      rw [h.mem_stack, hi.inStack]
      exact Bool.false_ne_true
    have hsub : i :: g'.stack ⊆ range g.count := cons_subset.2
      ⟨mem_range.2 (h.same.count ▸ hi.lt), fun n hn => mem_range.2 (h.unforced hn).1⟩
    have hle := ((nodup_cons.2 ⟨hst, h.nodup⟩).subperm hsub).length_le
    rw [length_cons, length_range] at hle
    exact hle
  refine h.push hg hi fun hlt hs => ?_
  by_cases hall : start = BitVec.allOnes 32
  · rw [if_pos hall] at hs
    have hs := congrArg BitVec.toNat hs
    rw [BitVec.toNat_ofNat, BitVec.toNat_allOnes] at hs
    omega
  · rw [if_neg hall] at hs
    exact absurd hs hall

end Graph

end Mesa3D.Ra
