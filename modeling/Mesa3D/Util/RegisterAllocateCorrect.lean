import Mesa3D.Util.RegisterSet
import Mesa3D.Util.RegisterSimplify

/-!
# Register allocation is sound, up to stuck nodes

`ra_simplify` does not take nodes off whose `q_total` is `~0`, as it starts with that value for the
lowest total. Such nodes do not get on the stack, and `ra_select` returns without a register for
them. This is the only way in which an allocation that succeeds can be wrong: if `ra_allocate`
returns true, each node has a register, and interfering nodes have registers that do not conflict,
exactly if no set of nodes is `Stuck`.
-/

namespace Mesa3D.Ra

open List Option

variable {σ : Type} {g g' : Graph} {n m r : ℕ}

/-- A `select_reg_callback` returns a member of the set that it is given. -/
def SelectReg.Member (f : SelectReg σ) : Prop :=
  ∀ (g : Graph) (regs : ℕ → Bool) (data : σ), (∃ r < g.regs.count, regs r = true) →
    regs (f g regs data).1 = true

namespace Graph

/-! ### Choosing a register -/

/-- The register does not conflict with those of the neighbours in the list that are not on the
stack. -/
def Apart (g : Graph) (r : ℕ) (list : List ℕ) : Prop :=
  ∀ m ∈ list, (g.nodes m).inStack = false → ∀ r2, (g.nodes m).reg = some r2 → ¬g.regs.Conflict r r2

/-- The neighbours in the list that are not on the stack have registers. -/
def Settled (g : Graph) (list : List ℕ) : Prop :=
  ∀ m ∈ list, (g.nodes m).inStack = false → ∃ r, (g.nodes m).reg = some r

variable {list : List ℕ} {callback : Option (SelectReg σ)} {t : Graph}

/-- The neighbours behind the first are settled. -/
theorem Settled.of_cons (h : g.Settled (m :: list)) : g.Settled list :=
  fun k hk => h k (mem_cons_of_mem _ hk)

/-- `ra_any_neighbors_conflict` says whether the register is apart from the neighbours'. -/
theorem raAnyNeighborsConflict_spec (hs : g.Settled list) (r : ℕ) :
    ∃ b, g.raAnyNeighborsConflict r list = some b ∧ (b = false ↔ g.Apart r list) := by
  induction list with
  | nil => exact ⟨false, rfl, iff_of_true rfl (forall_mem_nil _)⟩
  | cons m list ih =>
    obtain ⟨b, hb, hap⟩ := ih hs.of_cons
    unfold raAnyNeighborsConflict
    by_cases hm : (g.nodes m).inStack = true
    · rw [if_pos hm]
      exact ⟨b, hb, hap.trans (by simp [Apart, hm])⟩
    · rw [if_neg hm]
      obtain ⟨r2, hr2⟩ := hs m (by simp) (by simpa using hm)
      simp only [hr2]
      split_ifs with hc
      · exact ⟨true, rfl, by simp [Apart, hm, hr2, Regs.Conflict, hc]⟩
      · exact ⟨b, hb, hap.trans (by simp [Apart, hm, hr2, Regs.Conflict, hc])⟩

/-- The loop that removes conflicts leaves the registers apart from the neighbours'. -/
theorem removeConflicts_spec (hsymm : ∀ {r1 r2}, g.regs.Conflict r1 r2 → g.regs.Conflict r2 r1)
    (hs : g.Settled list) (regs : ℕ → Bool) :
    ∃ avail, g.removeConflicts regs list = some avail ∧
      ∀ r, avail r = true ↔ regs r = true ∧ g.Apart r list := by
  induction list generalizing regs with
  | nil => exact ⟨regs, rfl, fun r => by simp [Apart]⟩
  | cons m list ih =>
    unfold removeConflicts
    by_cases hm : (g.nodes m).inStack = true
    · rw [if_pos hm]
      obtain ⟨avail, heq, hav⟩ := ih hs.of_cons regs
      exact ⟨avail, heq, fun r => (hav r).trans (by simp [Apart, hm])⟩
    · rw [if_neg hm]
      obtain ⟨r2, hr2⟩ := hs m (by simp) (by simpa using hm)
      simp only [hr2]
      obtain ⟨avail, heq, hav⟩ := ih hs.of_cons fun j => regs j && !(g.regs.regs r2).conflicts j
      refine ⟨avail, heq, fun r => (hav r).trans ?_⟩
      have hconflict : (g.regs.regs r2).conflicts r = false ↔ ¬g.regs.Conflict r r2 := by
        rw [← Bool.not_eq_true]
        exact not_congr ⟨hsymm, hsymm⟩
      simp [Apart, hm, hr2, hconflict, and_assoc]

/-- The register is in the class of the node, and does not conflict with those of its neighbours. -/
def Free (g : Graph) (n r : ℕ) : Prop :=
  (g.regs.classes (g.nodes n).cls).regs r = true ∧ g.Apart r (g.nodes n).adjacencyList

/-- The search returns a free register, or there is none among those it tried. -/
theorem searchReg_spec (hs : g.Settled (g.nodes n).adjacencyList) (start : ℕ) (list : List ℕ) :
    ∃ x, g.searchReg n start list = some x ∧
      (∀ r, x = some r → g.Free n r ∧ ∃ ri ∈ list, r = (start + ri) % 2^32 % g.regs.count) ∧
      (x = none → ∀ ri ∈ list, ¬g.Free n ((start + ri) % 2^32 % g.regs.count)) := by
  induction list with
  | nil => exact ⟨none, rfl, (fun r hr => by cases hr), fun _ => forall_mem_nil _⟩
  | cons ri list ih =>
    obtain ⟨x, hx, hr, hnone⟩ := ih
    unfold searchReg
    dsimp only
    rw [hx]
    by_cases hfree : g.Free n ((start + ri) % 2^32 % g.regs.count)
    · obtain ⟨b, hb, hap⟩ := raAnyNeighborsConflict_spec hs ((start + ri) % 2^32 % g.regs.count)
      rw [if_pos hfree.1, hb, hap.2 hfree.2]
      refine ⟨_, rfl, fun r hr => ?_, fun h => by cases h⟩
      cases hr
      exact ⟨hfree, ri, mem_cons_self, rfl⟩
    · refine ⟨x, ?_, fun r h => (hr r h).imp_right
        (.imp fun k hk => ⟨mem_cons_of_mem _ hk.1, hk.2⟩),
        fun h => forall_mem_cons.2 ⟨hfree, hnone h⟩⟩
      split_ifs with hc
      · obtain ⟨b, hb, hap⟩ := raAnyNeighborsConflict_spec hs ((start + ri) % 2^32 % g.regs.count)
        cases b with
        | true => rw [hb]
        | false => exact absurd ⟨hc, hap.1 rfl⟩ hfree
      · rfl

/-- The search goes through all registers. -/
theorem exists_search {start count r : ℕ} (hstart : start ≤ count)
    (hcount : count ≤ 2^31) (hr : r < count) :
    ∃ ri < count, (start + ri) % 2^32 % count = r := by
  by_cases hle : start ≤ r
  · refine ⟨r - start, by omega, ?_⟩
    rw [Nat.add_sub_cancel' hle, Nat.mod_eq_of_lt (show r < 2^32 by omega), Nat.mod_eq_of_lt hr]
  · refine ⟨r + count - start, by omega, ?_⟩
    rw [Nat.add_sub_cancel' (by omega), Nat.mod_eq_of_lt (show r + count <
      2^32 by omega), Nat.add_mod_right,
      Nat.mod_eq_of_lt hr]

/-- A register that `ra_select` chooses is free, and it chooses one if there is one. -/
theorem chooseReg_spec (hregs : g.regs.Ok) (hcb : ∀ f ∈ callback, SelectReg.Member f)
    (hs : g.Settled (g.nodes n).adjacencyList) (start : ℕ) (data : σ) :
    ∃ x, g.chooseReg callback n start data = some x ∧
      (∀ r data', x = some (r, data') → g.Free n r ∧ (callback = none → r < g.regs.count)) ∧
      (x = none → (callback = none → start ≤ g.regs.count ∧ g.regs.count ≤ 2^31) →
        ∀ r < g.regs.count, ¬g.Free n r) := by
  cases callback with
  | none =>
    obtain ⟨x, hx, hr, hnone⟩ := searchReg_spec hs start (range g.regs.count)
    refine ⟨x.map fun r =>
      (r, data), by rw [chooseReg, hx]; rfl, fun r data' heq => ?_, fun h hstart r hlt => ?_⟩
    · obtain ⟨r', rfl, ⟨⟩⟩ := Option.map_eq_some_iff.1 heq
      obtain ⟨hfree, ri, hri, heq⟩ := hr r rfl
      exact ⟨hfree, fun _ => heq ▸ Nat.mod_lt _ (Nat.zero_lt_of_lt (mem_range.1 hri))⟩
    · obtain ⟨ri, hri, rfl⟩ := exists_search (hstart rfl).1 (hstart rfl).2 hlt
      exact hnone (Option.map_eq_none_iff.1 h) ri (mem_range.2 hri)
  | some f =>
    obtain ⟨avail, hav, hmem⟩ := removeConflicts_spec hregs.symm hs
      (g.regs.classes (g.nodes n).cls).regs
    refine ⟨_,
      by rw [chooseReg, raComputeAvailableRegs, hav]; rfl, fun r data' heq => ⟨?_, by simp⟩,
      fun h _ r hlt hfree => ?_⟩
    · dsimp only at heq
      split_ifs at heq with hany
      obtain ⟨r', hr', hr''⟩ := any_eq_true.1 hany
      have hsel := hcb f rfl g avail data ⟨r', mem_range.1 hr', hr''⟩
      rw [some.inj heq] at hsel
      exact (hmem r).1 hsel
    · dsimp only at h
      rw [if_pos (any_eq_true.2 ⟨r, mem_range.2 hlt, (hmem r).2 hfree⟩)] at h
      cases h

/-! ### Selection -/

/-- The node is not on the stack any more. -/
def unstack (g : Graph) (n : ℕ) : Graph := g.setNode n { g.nodes n with inStack := false }

/-- The node is popped, and has a register. -/
def popped (g : Graph) (n r : ℕ) (stack : List ℕ) : Graph :=
  { (g.unstack n).setNode n { (g.unstack n).nodes n with reg := some r } with stack := stack }

/-- What the nodes are after one got its register. -/
theorem popped_nodes (g : Graph) (n r : ℕ) (stack : List ℕ) (m : ℕ) : (g.popped n r stack).nodes m =
    if m = n then { g.nodes n with inStack := false, reg := some r } else g.nodes m := by
  simp only [popped, unstack, setNode_nodes]
  split_ifs <;> rfl

/-- `ra_select`, with the nodes of the list still on the stack: the others have a register. -/
structure Popping (R : ℕ → ℕ → Prop) (g g' : Graph) (stack : List ℕ) : Prop where
  /-- The registers stay. -/
  regs : g'.regs = g.regs
  /-- The neighbours stay. -/
  adjacencyList : ∀ n, (g'.nodes n).adjacencyList = (g.nodes n).adjacencyList
  /-- The classes stay. -/
  cls : ∀ n, (g'.nodes n).cls = (g.nodes n).cls
  /-- No node is stacked twice. -/
  nodup : stack.Nodup
  /-- The marks agree with the stack. -/
  mem_stack : ∀ n, n ∈ stack ↔ (g'.nodes n).inStack = true
  /-- The nodes that were taken off have their registers. -/
  allocated : ∀ n < g.count, n ∉ stack → ∃ r, R n r ∧ (g'.nodes n).reg = some r

section Popping

variable {R : ℕ → ℕ → Prop} {stack : List ℕ}

/-- A node is popped and gets a register. -/
theorem Popping.pop (h : Popping R g g' (n :: stack)) (hr : R n r) :
    Popping R g (g'.popped n r stack) stack := by
  obtain ⟨hn, hnodup⟩ := nodup_cons.1 h.nodup
  refine ⟨h.regs, fun m => ?_, fun m => ?_, hnodup, fun m => ?_, fun m hm hst => ?_⟩ <;>
    rw [popped_nodes] <;> by_cases hmn : m = n
  iterate 4 · simp [hmn, h.adjacencyList, h.cls]
  · simp [hmn, hn]
  · simp [hmn, ← h.mem_stack]
  · exact ⟨r, hmn ▸ hr, by simp [hmn]⟩
  · rw [if_neg hmn]
    exact h.allocated m hm (by simp [hmn, hst])

/-- The neighbours of a node that is popped have registers, or are on the stack. -/
theorem Popping.settled (h : Popping R g g' stack) (hg : g.Ok) (n : ℕ) :
    (g'.unstack n).Settled ((g'.unstack n).nodes n).adjacencyList := by
  intro m hm hin
  rw [unstack, setNode_nodes, if_pos rfl, h.adjacencyList] at hm
  have hmn : m ≠ n := fun heq => hg.irrefl n (heq ▸ hm)
  rw [unstack, setNode_nodes, if_neg hmn] at hin ⊢
  refine (h.allocated m (hg.lt (hg.symm hm)) fun hst => ?_).imp fun _ h => h.2
  rw [h.mem_stack, hin] at hst
  cases hst

end Popping

/-- The loop of `ra_select` returns, for what holds of the stack and graph before each round. It
returns true if each node has a free register when it is popped. -/
theorem raSelectLoop_rec {R : ℕ → ℕ → Prop} {P : List ℕ → Graph →
    Prop} (hg : g.Ok) (hregs : g.regs.Ok)
    (hcb : ∀ f ∈ callback, SelectReg.Member f) (hP : ∀ {stack g'},
      P stack g' → Popping R g g' stack)
    (hpop : ∀ {n stack g' r}, P (n :: stack) g' → (g'.unstack n).Free n r →
      P stack (g'.popped n r stack))
    (stack : List ℕ) (g' : Graph) (start : ℕ) (data : σ) (h : P stack g') :
    ∃ ok t, raSelectLoop callback stack g' start data = some (ok, t) ∧ (ok = true → P [] t) ∧
      ((callback = none → start ≤ g.regs.count ∧ g.regs.count ≤ 2^31) →
        (∀ {n stack g'}, P (n :: stack) g' →
        ∃ r < g.regs.count, (g'.unstack n).Free n r) → ok = true) := by
  induction stack generalizing g' start data with
  | nil => exact ⟨true, g', rfl, fun _ => h, fun _ _ => rfl⟩
  | cons n stack ih =>
    have htregs : (g'.unstack n).regs = g.regs := (hP h).regs
    obtain ⟨x, hx, hr, hnone⟩ :=
      chooseReg_spec (htregs ▸ hregs) hcb ((hP h).settled hg n) start data
    rw [htregs] at hr hnone
    unfold raSelectLoop
    dsimp only
    rw [← unstack, hx]
    cases x with
    | none =>
      refine ⟨false, _, rfl, (fun hf => by cases hf), fun hstart hfree => ?_⟩
      obtain ⟨r, hlt, hr⟩ := hfree h
      exact absurd hr (hnone rfl hstart r hlt)
    | some rd =>
      obtain ⟨r, data'⟩ := rd
      obtain ⟨hfree, hlt⟩ := hr r data' rfl
      obtain ⟨ok, t, heq, hok, htrue⟩ := ih _ (if (g'.unstack n).regs.roundRobin &&
        BitVec.ofNat 32 stack.length - 1 ≤ (g'.unstack n).stackOptimisticStart then r + 1
          else start) data' (hpop h hfree)
      refine ⟨ok, t, heq, hok, fun hstart => htrue fun hc => ⟨?_, (hstart hc).2⟩⟩
      split_ifs
      · exact hlt hc
      · exact (hstart hc).1

/-- What a successful allocation has to be: each node has a register, a forced one its own and
another one a register of its class, and interfering nodes have registers that do not conflict. -/
structure Sound (g g' : Graph) : Prop where
  /-- Every node has a register. -/
  allocated : ∀ n < g.count, ∃ r, (g'.nodes n).reg = some r
  /-- Forced registers are kept. -/
  forced : ∀ {n r}, (g.nodes n).reg = some r → (g'.nodes n).reg = some r
  /-- A register is one of the node's class. -/
  member : ∀ n < g.count, ∀ r, (g.nodes n).reg = none → (g'.nodes n).reg = some r →
    (g.regs.classes (g.nodes n).cls).regs r = true
  /-- Registers of neighbours do not conflict. -/
  apart : ∀ {n m r1 r2}, g.Adj n m → (g'.nodes n).reg = some r1 → (g'.nodes m).reg = some r2 →
    ¬g.regs.Conflict r1 r2

/-- The forced registers of interfering nodes do not conflict. -/
def ForcedApart (g : Graph) : Prop :=
  ∀ {n m r1 r2}, g.Adj n m → (g.nodes n).reg = some r1 → (g.nodes m).reg = some r2 →
    ¬g.regs.Conflict r1 r2

/-- `ra_select`, with the nodes of the list still on the stack, and what it does with forced
nodes. -/
structure Selecting (g g' : Graph) (stack : List ℕ) : Prop extends Popping (fun n r =>
    (g.nodes n).reg = none → (g.regs.classes (g.nodes n).cls).regs r = true) g g' stack where
  /-- Stacked nodes have no register. -/
  unforced : ∀ {n}, n ∈ stack → (g.nodes n).reg = none ∧ (g'.nodes n).reg = none
  /-- Forced registers are kept. -/
  forced : ∀ {n r}, (g.nodes n).reg = some r → (g'.nodes n).reg = some r
  /-- Registers of neighbours do not conflict. -/
  apart : ∀ {n m r1 r2}, g.Adj n m → (g'.nodes n).reg = some r1 → (g'.nodes m).reg = some r2 →
    ¬g.regs.Conflict r1 r2

/-- When the stack is empty the selection is sound. -/
theorem Selecting.sound (h : Selecting g g' []) : Sound g g' := by
  refine ⟨fun n hn => (h.allocated n hn not_mem_nil).imp fun _ hr => hr.2,
    h.forced, fun n hn r hnone hr => ?_,
    h.apart⟩
  obtain ⟨r', hmem, hr'⟩ := h.allocated n hn not_mem_nil
  obtain rfl := some.inj (hr.symm.trans hr')
  exact hmem hnone

/-- Giving a node a free register keeps what holds in the loop. -/
theorem Selecting.pop {stack : List ℕ} (hg : g.Ok) (hregs : g.regs.Ok)
    (h : Selecting g g' (n :: stack))
    (hfree : (g'.unstack n).Free n r) : Selecting g (g'.popped n r stack) stack := by
  have hp := h.toPopping.pop (r := r) fun _ => by
    simpa [unstack, setNode, h.regs, h.cls] using hfree.1
  have hself : ((g'.popped n r stack).nodes n).reg = some r := by rw [popped_nodes, if_pos rfl]
  have hother : ∀ {m}, m ≠ n → (g'.popped n r stack).nodes m = g'.nodes m :=
    fun hm => by rw [popped_nodes, if_neg hm]
  have hun := h.unforced (n := n) (by simp)
  have hap : ∀ m, g.Adj n m → ∀ r2, (g'.nodes m).reg = some r2 → ¬g.regs.Conflict r r2 := by
    intro m hm r2 hr2
    have hmn : m ≠ n := fun heq => hg.irrefl n (heq ▸ hm)
    -- a node that is still on the stack has no register
    have hin : (g'.nodes m).inStack = false := by
      by_contra hin
      have := h.unforced ((h.mem_stack m).2 (by simpa using hin))
      rw [hr2] at this
      cases this.2
    have := hfree.2 m (by simpa [unstack, h.adjacencyList, Adj] using hm)
      (by simpa [unstack, hmn] using hin) r2
      (by simpa [unstack, hmn] using hr2)
    rwa [unstack, setNode, h.regs] at this
  refine ⟨hp, fun {m} hm => ?_, fun {m r'} hm => ?_, fun {a b r1 r2} hab h1 h2 => ?_⟩
  · have hmn : m ≠ n := fun heq => (nodup_cons.1 h.nodup).1 (heq ▸ hm)
    rw [hother hmn]
    exact h.unforced (mem_cons_of_mem _ hm)
  · have hmn : m ≠ n := by
      rintro rfl
      rw [hun.1] at hm
      cases hm
    rw [hother hmn]
    exact h.forced hm
  · by_cases ha : a = n
    · subst ha
      have hb : b ≠ a := fun heq => hg.irrefl a (heq ▸ hab)
      obtain rfl := some.inj (hself.symm.trans h1)
      rw [hother hb] at h2
      exact hap b hab r2 h2
    · rw [hother ha] at h1
      by_cases hb : b = n
      · subst hb
        obtain rfl := some.inj (hself.symm.trans h2)
        exact fun hc => hap a (hg.symm hab) r1 h1 (hregs.symm hc)
      · rw [hother hb] at h2
        exact h.apart hab h1 h2

/-- After `ra_simplify`, all nodes that have no register are on the stack. -/
theorem Simplified.selecting (h : Simplified g g') (hforced : g.ForcedApart)
    (hall : ∀ n < g.count, (g.nodes n).reg = none → n ∈ g'.stack) (start : BitVec 32) :
    Selecting g { g' with stackOptimisticStart := start } g'.stack where
  regs := h.same.regs
  adjacencyList := h.same.adjacencyList
  cls := h.same.cls
  nodup := h.nodup
  mem_stack := h.mem_stack
  unforced hn := ⟨(h.unforced hn).2, (h.same.reg _).trans (h.unforced hn).2⟩
  allocated n hn hst := by
    obtain ⟨r, hr⟩ := ne_none_iff_exists'.1 fun hreg => hst (hall n hn hreg)
    exact ⟨r, fun hnone => by simp [hnone] at hr, (h.same.reg n).trans hr⟩
  forced {n r} hn := (h.same.reg n).trans hn
  apart {n m r1 r2} hnm h1 h2 := by
    rw [h.same.reg] at h1 h2
    exact hforced hnm h1 h2

/-- `ra_select` only changes the registers of nodes on the stack. -/
theorem raSelectLoop_reg {stack : List ℕ} {start : ℕ} {data : σ} {ok : Bool}
    (h : raSelectLoop callback stack g' start data = some (ok, t)) (hn : n ∉ stack) :
    (t.nodes n).reg = (g'.nodes n).reg := by
  induction stack generalizing g' start data with
  | nil =>
    obtain ⟨-, rfl⟩ := Prod.mk.inj (some.inj h)
    rfl
  | cons m stack ih =>
    rw [mem_cons, not_or] at hn
    obtain ⟨hnm, hn⟩ := hn
    unfold raSelectLoop at h
    dsimp only at h
    split at h
    · cases h
    · obtain ⟨-, rfl⟩ := Prod.mk.inj (some.inj h)
      rw [setNode_nodes, if_neg hnm]
    · rw [ih h hn]
      simp [hnm]

/-! ### Allocation -/

/-- Register allocation, for any register set, interference graph and forced registers that do not
conflict: if `ra_allocate` returns true, the allocation is sound exactly if no nodes are stuck. It
returns if no nodes are stuck and the assertion of `decrement_q` holds. -/
theorem raAllocate_sound_iff_noStuck (g : Graph) (hregs : RegSet g.regs) (hg : Built g)
    (hforced : g.ForcedApart) (callback : Option (SelectReg σ))
    (hcb : ∀ f ∈ callback, SelectReg.Member f) (data : σ) :
    (∀ g', g.raAllocate callback data = some (true, g') → (Sound g g' ↔ g.NoStuck)) ∧
    (g.NoStuck → g.NoBorrow → ∃ ok g', g.raAllocate callback data = some (ok, g')) := by
  have hspec := raSimplify_spec hg.ok
  -- what `ra_select` does after `ra_simplify`, if no nodes are stuck
  have hselect : g.NoStuck → ∀ t, g.raSimplify = some t →
    ∃ ok t', raSelectLoop callback t.stack t 0 data =
      some (ok, t') ∧ (ok = true → Sound g t') := by
    intro hstuck t ht
    obtain ⟨g', start, rfl, h, hdone⟩ := hspec.result t ht
    have hall : ∀ n < g.count, (g.nodes n).reg = none → n ∈ g'.stack := by
      intro n hn hreg
      by_contra hst
      refine hstuck _ ⟨n, ?_⟩ (h.stuck hg.ok hdone)
      simp [hn, hreg, hst]
    obtain ⟨ok, t', hsel, hok, -⟩ := raSelectLoop_rec hg.ok hregs.ok hcb Selecting.toPopping
      (Selecting.pop hg.ok hregs.ok) _ _ 0 data (h.selecting hforced hall start)
    exact ⟨ok, t', hsel, fun hok' => (hok hok').sound⟩
  refine ⟨fun t' h => ?_, fun hstuck hnb => ?_⟩
  · unfold raAllocate at h
    split at h
    case h_1 => cases h
    case h_2 t ht =>
      refine ⟨fun hsound => ?_, fun hstuck => ?_⟩
      · -- a stuck node is not on the stack, and does not get a register
        rintro S ⟨n, hn⟩ hS
        obtain ⟨g', start, rfl, hsimp, -⟩ := hspec.result t ht
        obtain ⟨r, hr⟩ := hsound.allocated n (hS n hn).1
        have hreg := raSelectLoop_reg h (hsimp.avoids S hS n hn)
        rw [hr, hsimp.same.reg, (hS n hn).2.1] at hreg
        cases hreg
      · obtain ⟨ok, t'', hsel, hok⟩ := hselect hstuck t ht
        cases h.symm.trans hsel
        exact hok rfl
  · obtain ⟨t, ht⟩ := isSome_iff_exists.1 (hspec.returns hnb)
    obtain ⟨ok, t', hsel, -⟩ := hselect hstuck t ht
    exact ⟨ok, t', by rw [raAllocate, ht]; exact hsel⟩

end Graph

/-- A class of two registers. -/
def twoRegs : Regs :=
  ((((raAllocRegSet 2 true).raAllocRegClass.raClassAddReg 0 0).raClassAddReg 0 1).raSetFinalize
    none).get (by decide)

/-- Two interfering nodes, the second of which is forced to the first register. -/
def twoNodes : Graph :=
  ((raAllocInterferenceGraph twoRegs 2).raAddNodeInterference 0 1).raSetNodeReg 1 0

open Mesa3D.Ra.Graph in
/-- The node that is not forced gets the second register. -/
theorem raAllocate_sound_twoNodes :
    ∃ g', twoNodes.raAllocate (σ := Unit) none () = some (true, g') ∧
      (g'.nodes 0).reg = some 1 ∧ Sound twoNodes g' := by
  have hregs : RegSet twoRegs :=
    .finalize (.addReg (.addReg (.allocClass (.alloc 2 true)) (by decide) (by decide)) (by decide)
      (by decide)) (some_get _).symm
  have hg : Built twoNodes :=
    .setReg (.addInterference (.alloc twoRegs 2) (by decide) (by decide)) (by decide) (by decide)
  have hforced : twoNodes.ForcedApart := by
    intro n m r1 r2 hnm h1 h2
    have hone : ∀ n r, (twoNodes.nodes n).reg = some r → n = 1 := by
      intro n r hr
      by_contra hn
      rw [twoNodes, raSetNodeReg, setNode_nodes, if_neg hn,
        (raAddNodeInterference_frame _ 0 1 n).1] at hr
      cases hr
    obtain rfl := hone n r1 h1
    obtain rfl := hone m r2 h2
    exact absurd hnm (hg.ok.irrefl 1)
  have hnostuck : twoNodes.NoStuck := by
    rintro S ⟨n, hn⟩ hS
    obtain ⟨hlt, -, hfull, -⟩ := hS n hn
    have hne : ∀ n < 2, (twoNodes.nodes n).qTotal ≠ BitVec.allOnes 32 := by decide
    exact hne n hlt hfull
  have hnb : twoNodes.NoBorrow := by unfold NoBorrow; decide
  obtain ⟨hsound, hreturns⟩ :=
    raAllocate_sound_iff_noStuck (σ := Unit) twoNodes hregs hg hforced none
    (by simp) ()
  obtain ⟨ok, g', heq⟩ := hreturns hnostuck hnb
  have hrun : (twoNodes.raAllocate (σ := Unit) none ()).map (fun x => (x.1, (x.2.nodes 0).reg)) =
      some (true, some 1) := by decide +kernel
  rw [heq] at hrun
  obtain ⟨rfl, hreg⟩ := Prod.mk.inj (some.inj hrun)
  exact ⟨g', heq, hreg, (hsound g' heq).2 hnostuck⟩

end Mesa3D.Ra
