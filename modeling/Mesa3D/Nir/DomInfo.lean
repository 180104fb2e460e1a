import Mesa3D.Nir.Dominance

/-!
# Dominance frontiers and the dominance test

The rest of `nir_calc_dominance_impl`: `calc_dom_frontier` fills the dominance frontiers, and
`calc_dfs_indicies` numbers the dominance tree so that `nir_block_dominates` is a comparison of two
intervals. `mem_domFrontier` is what the placement of phis needs to know of the frontiers, and
`blockDominates_iff` says that the test finds out what is above a block in the tree.
-/

namespace Mesa3D.Nir

open Mesa3D.Graph List

/-! ## Dominance frontiers -/

/-- The blocks that the inner loop of `calc_dom_frontier` passes on the way from a predecessor up to
the immediate dominator `stop` of the block. -/
def runner (dom : ImmDom) (stop : Option ℕ) : ℕ → ℕ → List ℕ
  | 0, _ => []
  | k + 1, r =>
    if some r = stop then []
    else
      r :: match dom r with
        | some d => runner dom stop k d
        | none => []

/-- The set `dom_frontier` that `calc_dom_frontier` fills for a block. -/
def domFrontier (G : Cfg) (dom : ImmDom) (r : ℕ) : List ℕ :=
  (List.range G.numBlocks).filter fun b =>
    1 < (G.preds b).length && (G.preds b).any fun p =>
      (dom p).isSome && (runner dom (dom b) G.numBlocks p).contains r

section

variable {G : Cfg} {dom : ImmDom}

/-- The runner passes every block from the predecessor up to the immediate dominator. -/
theorem mem_runner (hwf : dom.WF) {d r : ℕ} (hdr : Above (up dom) d r) (hne : r ≠ d) :
    ∀ {k p : ℕ}, p < k → Above (up dom) r p → r ∈ runner dom (some d) k p := by
  intro k
  induction k with
  | zero => intro p hp; omega
  | succ k ih =>
    intro p hp hrp
    have hpd : p ≠ d := by
      rintro rfl
      exact hne (Above.antisymm (h := id) hwf.up_lt hrp hdr)
    simp only [runner, Option.some.injEq, if_neg hpd]
    cases hrp with
    | refl => simp
    | @step _ c hc hrc =>
      have hlt := hwf.up_lt p c hc
      simp only [(up_eq_some.1 hc).2, mem_cons]
      exact .inr (ih (by omega) hrc)

/-- A join is in the frontier of every block between one of its predecessors and its immediate
dominator. -/
theorem mem_domFrontier (hwf : dom.WF) {p q d r : ℕ} (hE : G.Edge p q) (hpn : p < G.numBlocks)
    (hp : (dom p).isSome) (hlen : 1 < (G.preds q).length) (hd : dom q = some d)
    (hdr : Above (up dom) d r) (hne : r ≠ d) (hrp : Above (up dom) r p) :
    q ∈ domFrontier G dom r := by
  simp only [domFrontier, mem_filter, mem_range, hlen, decide_true, Bool.true_and,
    any_eq_true, Bool.and_eq_true, contains_iff_mem]
  exact ⟨hE.1, p, hE.2, hp, by rw [hd]; exact mem_runner hwf hdr hne hpn hrp⟩

end

/-! ## Numbering the tree -/

/-- The counter and the fields `dom_pre_index` and `dom_post_index`. -/
structure DfsState where
  /-- The counter. -/
  index : ℕ
  /-- `dom_pre_index`. -/
  pre : ℕ → ℕ
  /-- `dom_post_index`. -/
  post : ℕ → ℕ

/-- `dom_children`. -/
def domChildren (n : ℕ) (up : ℕ → Option ℕ) (b : ℕ) : List ℕ :=
  (List.range n).filter fun c => up c == some b

/-- `calc_dfs_indicies`, to the given depth. -/
def calcDfsIndicies (children : ℕ → List ℕ) : ℕ → ℕ → DfsState → DfsState
  | 0, _, st => st
  | k + 1, b, st =>
    let st := { st with
      index := st.index + 1, pre := fun x => if x = b then st.index else st.pre x }
    let st := (children b).foldl (fun st c => calcDfsIndicies children k c st) st
    { st with index := st.index + 1, post := fun x => if x = b then st.index else st.post x }

/-- The result of `nir_calc_dominance_impl`. -/
structure DomInfo where
  /-- `imm_dom`. -/
  immDom : ImmDom
  /-- `dom_frontier`. -/
  frontier : ℕ → List ℕ
  /-- `dom_pre_index`. -/
  pre : ℕ → ℕ
  /-- `dom_post_index`. -/
  post : ℕ → ℕ

/-- `nir_calc_dominance_impl`. Blocks that are not reached keep the indices of a fresh block. -/
def calcDominanceImpl (G : Cfg) : Option DomInfo :=
  (calcImmDom G).map fun dom =>
    let dfs := calcDfsIndicies (domChildren G.numBlocks (up dom)) G.numBlocks 0
      ⟨0, fun _ => 0, fun _ => 0⟩
    ⟨up dom, domFrontier G dom, dfs.pre, dfs.post⟩

/-- `nir_block_dominates`. -/
def DomInfo.blockDominates (D : DomInfo) (parent child : ℕ) : Bool :=
  D.pre parent ≤ D.pre child && D.post child ≤ D.post parent

/-- `nir_dominance_lca`, for blocks of one function. -/
def nirDominanceLca (D : DomInfo) (numBlocks : ℕ) : Option ℕ → Option ℕ → Option (Option ℕ)
  | none, b2 => some b2
  | b1, none => some b1
  | some b1, some b2 => (intersect D.immDom (2 * numBlocks) b1 b2).map some

/-- The blocks of `S` have the numbers from `lo` on and below `hi`, and those of a block enclose
those of another where it is above the other. -/
structure Numbered (up : ℕ → Option ℕ) (S : ℕ → Prop) (lo hi : ℕ) (st : DfsState) : Prop where
  /-- The numbers of a block. -/
  bounds : ∀ x, S x → lo ≤ st.pre x ∧ st.pre x < st.post x ∧ st.post x < hi
  /-- The test. -/
  nested : ∀ x y, S x → S y → ((st.pre x ≤ st.pre y ∧ st.post y ≤ st.post x) ↔ Above up x y)

section

variable {up : ℕ → Option ℕ} {S T : ℕ → Prop} {lo mid hi : ℕ} {st st' : DfsState}

/-- The numbering depends on the numbers of the set only. -/
theorem Numbered.congr (h : Numbered up S lo hi st)
    (heq : ∀ x, S x → st'.pre x = st.pre x ∧ st'.post x = st.post x) : Numbered up S lo hi st' where
  bounds x hx := by rw [(heq x hx).1, (heq x hx).2]; exact h.bounds x hx
  nested x y hx hy := by
    rw [(heq x hx).1, (heq x hx).2, (heq y hy).1, (heq y hy).2]
    exact h.nested x y hx hy

/-- Two numberings one behind the other, of sets between which nothing is above anything. -/
theorem Numbered.union (hS : Numbered up S lo mid st) (hT : Numbered up T mid hi st)
    (hle : lo ≤ mid ∧ mid ≤ hi) (hST : ∀ x y, S x → T y → ¬ Above up x y ∧ ¬ Above up y x) :
    Numbered up (fun x => S x ∨ T x) lo hi st where
  bounds x hx := by
    rcases hx with hx | hx
    · have := hS.bounds x hx; omega
    · have := hT.bounds x hx; omega
  nested x y hx hy := by
    rcases hx with hx | hx <;> rcases hy with hy | hy
    · exact hS.nested x y hx hy
    · have h₁ := hS.bounds x hx
      have h₂ := hT.bounds y hy
      exact ⟨fun h => by omega, fun h => absurd h (hST x y hx hy).1⟩
    · have h₁ := hT.bounds x hx
      have h₂ := hS.bounds y hy
      exact ⟨fun h => by omega, fun h => absurd h (hST y x hy hx).2⟩
    · exact hT.nested x y hx hy

end

section

variable {up : ℕ → Option ℕ} {n : ℕ}

/-- The children of a block are the blocks with it as their parent. -/
theorem mem_domChildren {b c : ℕ} : c ∈ domChildren n up b ↔ c < n ∧ up c = some b := by
  simp [domChildren]

/-- Below a block are the block and what is below its children. -/
theorem above_iff_child (hn : ∀ x d, up x = some d → x < n) {b x : ℕ} :
    Above up b x ↔ x = b ∨ ∃ c ∈ domChildren n up b, Above up c x := by
  constructor
  · intro h
    induction h with
    | refl => exact .inl rfl
    | @step y d hd _ ih =>
      rcases ih with rfl | ⟨c, hc, hcd⟩
      · exact .inr ⟨y, mem_domChildren.mpr ⟨hn y _ hd, hd⟩, .refl⟩
      · exact .inr ⟨c, hc, .step hd hcd⟩
  · rintro (rfl | ⟨c, hc, hcx⟩)
    · exact .refl
    · exact Above.trans (.step (mem_domChildren.mp hc).2 .refl) hcx

variable (hup : ∀ x d, up x = some d → d < x)
include hup

/-- Nothing is below two children of one block. -/
theorem children_disjoint {b c c' : ℕ}
    (hc : up c = some b) (hc' : up c' = some b) (hne : c ≠ c') : ¬ Above up c c' := by
  intro h
  have h₁ := (h.parent hc' hne).height_le (h := id) hup
  have h₂ := hup c b hc
  simp only [id] at h₁
  omega

/-- Nor is a block below one child above a block below another. -/
theorem below_children_disjoint {b c c' x y : ℕ}
    (hc : up c = some b) (hc' : up c' = some b) (hne : c ≠ c') (hx : Above up c x)
    (hy : Above up c' y) : ¬ Above up x y := by
  intro h
  rcases Above.total (hx.trans h) hy with hcc | hcc
  · exact children_disjoint hup hc hc' hne hcc
  · exact children_disjoint hup hc' hc hne.symm hcc

/-- What `calc_dfs_indicies` does below a block. -/
structure DfsSpec (up : ℕ → Option ℕ) (S : ℕ → Prop) (st st' : DfsState) : Prop where
  /-- The counter goes up. -/
  index_le : st.index ≤ st'.index
  /-- The other blocks keep their numbers. -/
  frame : ∀ x, ¬ S x → st'.pre x = st.pre x ∧ st'.post x = st.post x
  /-- The blocks of the set are numbered. -/
  numbered : Numbered up S st.index st'.index st'

/-- The loop over the children. -/
theorem dfsSpec_children {b : ℕ} {f : ℕ → DfsState → DfsState} : ∀ (cs : List ℕ), cs.Nodup →
    (∀ c ∈ cs, up c = some b) →
      (∀ c ∈ cs, ∀ st, DfsSpec up (Above up c) st (f c st)) → ∀ st,
        DfsSpec up (fun x => ∃ c ∈ cs, Above up c x) st (cs.foldl (fun st c => f c st) st) := by
  intro cs
  induction cs with
  | nil =>
    intro _ _ _ st
    exact ⟨Nat.le_refl _, fun _ _ => ⟨rfl, rfl⟩, ⟨by simp, by simp⟩⟩
  | cons c cs ih =>
    intro hnd hchild hf st
    have hc := hf c (by simp) st
    rw [nodup_cons] at hnd
    have hcs := ih hnd.2 (fun c' hc' => hchild c' (by simp [hc']))
      (fun c' hc' => hf c' (by simp [hc']))
      (f c st)
    have hdisj : ∀ x y, Above up c x → (∃ c' ∈ cs, Above up c' y) →
        ¬ Above up x y ∧ ¬ Above up y x := by
      rintro x y hx ⟨c', hc', hy⟩
      have hne : c ≠ c' := fun h => hnd.1 (h ▸ hc')
      have h₁ := hchild c (by simp)
      have h₂ := hchild c' (by simp [hc'])
      exact ⟨below_children_disjoint hup h₁ h₂ hne hx hy,
        below_children_disjoint hup h₂ h₁ hne.symm hy hx⟩
    rw [foldl_cons]
    have hset : (fun x => ∃ c' ∈ c :: cs, Above up c' x) =
        fun x => Above up c x ∨ ∃ c' ∈ cs, Above up c' x := by
      funext x
      simp
    rw [hset]
    refine ⟨Nat.le_trans hc.index_le hcs.index_le, fun x hx => ?_, ?_⟩
    · rw [not_or] at hx
      obtain ⟨h₁, h₂⟩ := hcs.frame x hx.2
      obtain ⟨h₃, h₄⟩ := hc.frame x hx.1
      exact ⟨h₁.trans h₃, h₂.trans h₄⟩
    · refine Numbered.union (hc.numbered.congr fun x hx => hcs.frame x fun hx' => ?_) hcs.numbered
        ⟨hc.index_le, hcs.index_le⟩ hdisj
      exact (hdisj x x hx hx').1 .refl

/-- `calc_dfs_indicies` numbers what is below a block. -/
theorem calcDfsIndicies_spec (hn : ∀ x d, up x = some d → x < n) :
    ∀ (k b : ℕ), n ≤ k + b → b < n → ∀ st,
      DfsSpec up (Above up b) st (calcDfsIndicies (domChildren n up) k b st) := by
  intro k
  induction k with
  | zero => intro b hk hb; omega
  | succ k ih =>
    intro b hk hb st
    simp only [calcDfsIndicies]
    have hchildren := dfsSpec_children hup (b := b) (f := calcDfsIndicies (domChildren n up) k)
      (domChildren n up b) (nodup_range.filter _) (fun c hc => (mem_domChildren.mp hc).2)
      (fun c hc st => by
        obtain ⟨hcn, hcb⟩ := mem_domChildren.mp hc
        have := hup c b hcb
        exact ih c (by omega) hcn st)
      { st with index := st.index + 1, pre := fun x => if x = b then st.index else st.pre x }
    obtain ⟨hle, hframe, hnum⟩ := hchildren
    -- The block itself is not below its children.
    have hself : ¬ ∃ c ∈ domChildren n up b, Above up c b := by
      rintro ⟨c, hc, hcb⟩
      have h₁ := hcb.height_le (h := id) hup
      have h₂ := hup c b (mem_domChildren.mp hc).2
      simp only [id] at h₁
      omega
    have hpreb := (hframe b hself).1
    have hne : ∀ x, (∃ c ∈ domChildren n up b, Above up c x) → x ≠ b := by
      rintro x hx rfl
      exact hself hx
    refine ⟨by simp only at hle ⊢; omega, fun x hx => ?_, ?_⟩
    · rw [above_iff_child hn, not_or] at hx
      simp only [if_neg hx.1]
      simpa [hx.1] using hframe x hx.2
    · simp only [if_pos] at hpreb
      constructor
      · intro x hx
        rcases (above_iff_child hn).mp hx with rfl | hx'
        · simp only [if_pos, hpreb]
          simp only at hle
          omega
        · have := hnum.bounds x hx'
          simp only [if_neg (hne x hx')] at this ⊢
          omega
      · intro x y hx hy
        rcases (above_iff_child hn).mp hx with rfl | hx' <;>
          rcases (above_iff_child hn).mp hy with rfl | hy'
        · simp [Above.refl]
        · -- The block is above everything below it.
          have := hnum.bounds y hy'
          simp only [if_pos, if_neg (hne y hy'), hpreb] at this ⊢
          exact ⟨fun _ => hy, fun _ => by omega⟩
        · have := hnum.bounds x hx'
          simp only [if_pos, if_neg (hne x hx'), hpreb]
          refine ⟨fun h => by omega, fun h => ?_⟩
          have heq := Above.antisymm (h := id) hup h hx
          exact absurd heq (hne x hx')
        · simp only [if_neg (hne x hx'), if_neg (hne y hy')]
          exact hnum.nested x y hx' hy'

end

/-! ## What dominance information says -/

/-- The dominance information of a graph. -/
structure DomInfo.Spec (G : Cfg) (D : DomInfo) : Prop where
  /-- The immediate dominators form a dominance tree. -/
  tree : IsDomTree G.Edge 0 D.immDom
  /-- Immediate dominators come first in source order. -/
  lt : ∀ b d, D.immDom b = some d → d < b
  /-- The start block is above every reachable block. -/
  start_above : ∀ b, Reachable G.Edge 0 b → Above D.immDom 0 b
  /-- A block is in the frontier of what lies between one of its predecessors and its immediate
  dominator. -/
  frontier : ∀ p q d r, Reachable G.Edge 0 p → G.Edge p q → D.immDom q = some d →
    Above D.immDom d r → Above D.immDom r p → r ≠ d → q ∈ D.frontier r
  /-- Frontiers consist of blocks with predecessors. -/
  frontier_edge : ∀ r, ∀ q ∈ D.frontier r, ∃ p, G.Edge p q
  /-- The test finds out what is above a block. -/
  dominates : ∀ a b, Reachable G.Edge 0 a → Reachable G.Edge 0 b →
    (D.blockDominates a b = true ↔ Above D.immDom a b)

section

variable {G : Cfg} {dom : ImmDom}

/-- The immediate dominator of a block with one predecessor is the predecessor. -/
theorem FirstSweep.immDom_of_single (hG : SourceOrdered G) (h : FirstSweep G G.numBlocks dom)
    {p q d : ℕ} (hE : G.Edge p q) (hlen : ¬ 1 < (G.preds q).length) (hq : q ≠ 0)
    (hd : dom q = some d) : d = p := by
  obtain ⟨hqn, hp⟩ := hE
  have hsingle : G.preds q = [p] := by
    rcases hps : G.preds q with _ | ⟨a, _ | ⟨b, l⟩⟩
    · simp [hps] at hp
    · rw [hps, mem_singleton] at hp
      rw [hp]
    · simp [hps] at hlen
  have hsettled := h.settled hG hqn hq
  rw [hsingle, hd] at hsettled
  simp only [newIdom] at hsettled
  split at hsettled
  · simp at hsettled
  · simpa using hsettled.symm
  · simp at *

/-- The start block is above every reached block. -/
theorem ImmDom.WF.start_above (hwf : dom.WF) : ∀ b, (dom b).isSome → Above (up dom) 0 b := by
  intro b
  induction b using Nat.strongRecOn with
  | _ b ih =>
    intro hb
    by_cases hb0 : b = 0
    · rw [hb0]
      exact .refl
    · obtain ⟨d, hd⟩ := Option.isSome_iff_exists.mp hb
      obtain ⟨hlt, hset⟩ := hwf.parent b d hb0 hd
      exact .step (by rw [up_of_ne hb0, hd]) (ih d hlt hset)

/-- Only blocks are reached. -/
theorem FirstSweep.lt_of_eq_some (h : FirstSweep G G.numBlocks dom) {b d : ℕ}
    (hb : b ≠ 0) (hd : dom b = some d) :
    b < G.numBlocks := by
  by_contra hle
  rw [h.later b (by omega) hb] at hd
  cases hd

/-- The blocks below the start block are numbered. -/
theorem FirstSweep.dfsSpec (hG : SourceOrdered G)
    (h : FirstSweep G G.numBlocks dom) (st : DfsState) :
    DfsSpec (up dom) (Above (up dom) 0) st
      (calcDfsIndicies (domChildren G.numBlocks (up dom)) G.numBlocks 0 st) := by
  refine calcDfsIndicies_spec h.wf.up_lt (fun x d hx => ?_) G.numBlocks 0 (by omega) hG.pos st
  exact h.lt_of_eq_some (up_eq_some.1 hx).1 (up_eq_some.1 hx).2

/-- `nir_calc_dominance_impl` computes the dominance information of structured code. -/
theorem calcDominanceImpl_spec (hG : SourceOrdered G) :
    ∃ D, calcDominanceImpl G = some D ∧ D.Spec G := by
  obtain ⟨dom, hdom, h⟩ := calcImmDom_eq_some hG
  obtain ⟨hreached, htree⟩ := immDom_isDomTree hG h
  have hlt := h.wf.up_lt
  have hdfs := h.dfsSpec hG ⟨0, fun _ => 0, fun _ => 0⟩
  have habove : ∀ b, Reachable G.Edge 0 b → Above (up dom) 0 b := fun b hb =>
    h.wf.start_above b (hreached b hb)
  refine ⟨_, by rw [calcDominanceImpl, hdom]; rfl, htree, hlt, habove, ?_, ?_, fun a b ha hb => ?_⟩
  · intro p q d r hp hE hd hdr hrp hne
    obtain ⟨hq, hd'⟩ := up_eq_some.1 hd
    have hpn : p < G.numBlocks := hG.pred_lt q hE.1 p hE.2
    by_cases hlen : 1 < (G.preds q).length
    · exact mem_domFrontier h.wf hE hpn (hreached p hp) hlen hd' hdr hne hrp
    · have hdp := FirstSweep.immDom_of_single hG h hE hlen hq hd'
      subst hdp
      exact absurd (Above.antisymm (h := id) hlt hrp hdr) hne
  · intro r q hq
    simp only [domFrontier, mem_filter, mem_range, Bool.and_eq_true, any_eq_true]
      at hq
    obtain ⟨hqn, -, p, hp, -⟩ := hq
    exact ⟨p, hqn, hp⟩
  · rw [← hdfs.numbered.nested a b (habove a ha) (habove b hb)]
    simp [DomInfo.blockDominates]

end

end Mesa3D.Nir
