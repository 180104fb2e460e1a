import Mesa3D.Nir.DominanceCorrect

/-!
# Dominance frontiers

The sets `dom_frontier` are kept from one run of `nir_calc_dominance_impl` to the next. `init_block`
removes their entries, and `calc_dom_frontier` adds a join to the sets of the blocks that it passes
from the predecessors up to the immediate dominator. What it passes lies strictly below the
immediate dominator, so it does not dominate the join, and everything that dominates a predecessor
and not the join is passed.
-/

namespace Mesa3D.Nir

open Mesa3D.Graph Structured List

/-- The sets `dom_frontier` of the blocks. -/
abbrev Frontiers := ℕ → List ℕ

/-- What `init_block` does to the frontiers: the entries of the set are removed one by one. -/
def initFrontier (F : Frontiers) (block : ℕ) : Frontiers :=
  fun b => if b = block then (F b).diff (F b) else F b

/-- The inner loop of `calc_dom_frontier`, from a predecessor on. -/
def addRunner (dom : ImmDom) (block : ℕ) : ℕ → ℕ → Frontiers → Frontiers
  | 0, _, F => F
  | k + 1, r, F =>
    if some r = dom block then F
    else
      let F := fun b => if b = r then (F b).insert block else F b
      match dom r with
      | some d => addRunner dom block k d F
      | none => F

/-- `calc_dom_frontier`. -/
def calcDomFrontier (G : Cfg) (dom : ImmDom) (F : Frontiers) (block : ℕ) : Frontiers :=
  if 1 < (G.preds block).length then
    (G.preds block).foldl (fun F p => if (dom p).isSome then addRunner
      dom block G.numBlocks p F else F) F
  else F

/-- The frontiers after `nir_calc_dominance_impl`, with those from before. -/
def calcDomFrontiers (G : Cfg) (old : Frontiers) : Option Frontiers :=
  (calcImmDom G).map fun dom =>
    (range G.numBlocks).foldl (calcDomFrontier G dom) ((range G.numBlocks).foldl initFrontier old)

variable {G : Cfg} {dom : ImmDom} {a b d p : ℕ} {F : Frontiers}

/-- One runner adds the block to the frontiers along its way up. -/
theorem mem_addRunner {block k r : ℕ} : b ∈ addRunner dom block k r F a ↔
    b ∈ F a ∨ b = block ∧ a ∈ runner dom (dom block) k r := by
  induction k generalizing r F with
  | zero => simp [addRunner, runner]
  | succ k ih =>
    rw [addRunner, runner]
    split_ifs with hstop
    · simp
    · have hinsert : b ∈ (if a = r then (F a).insert block else F a) ↔
        b ∈ F a ∨ b = block ∧ a = r := by
        split_ifs with har
        · simp [mem_insert_iff, har, or_comm]
        · simp [har]
      cases dom r with
      | none => simp [hinsert]
      | some c =>
        simp only [ih, hinsert, mem_cons]
        tauto

/-- A loop each step of which adds `b` where `P` holds. -/
theorem mem_foldl_step {step : Frontiers → ℕ → Frontiers} {P : ℕ → Prop}
    (hstep : ∀ F x, b ∈ step F x a ↔ b ∈ F a ∨ P x) (xs : List ℕ) (F : Frontiers) :
    b ∈ xs.foldl step F a ↔ b ∈ F a ∨ ∃ x ∈ xs, P x := by
  induction xs generalizing F with
  | nil => simp
  | cons x xs ih =>
    rw [foldl_cons, ih, hstep]
    simp [or_assoc]

/-- A list without its own elements. -/
theorem diff_self (s : List ℕ) : s.diff s = [] := by
  induction s with
  | nil => rfl
  | cons x s ih => rw [diff_cons, erase_cons_head, ih]

/-- The frontiers of the blocks are emptied. -/
theorem mem_initFrontiers (xs : List ℕ) (F : Frontiers) :
    b ∈ xs.foldl initFrontier F a ↔ b ∈ F a ∧ a ∉ xs := by
  induction xs generalizing F with
  | nil => simp
  | cons x xs ih =>
    rw [foldl_cons, ih, initFrontier, mem_cons]
    split_ifs with hax
    · simp [hax, diff_self]
    · simp [hax]

/-- A block that was cleared has the frontier of `domFrontier`. -/
theorem mem_calcDomFrontiers (ha : a < G.numBlocks) (old : Frontiers) :
    b ∈ (range G.numBlocks).foldl (calcDomFrontier G dom)
      ((range G.numBlocks).foldl initFrontier old) a ↔
      b ∈ domFrontier G dom a := by
  have hblock : ∀ F x, b ∈ calcDomFrontier G dom F x a ↔ b ∈ F a ∨ (1 < (G.preds x).length ∧
      ∃ p ∈ G.preds x, (dom p).isSome ∧ b = x ∧ a ∈ runner dom (dom x) G.numBlocks p) := by
    intro F x
    rw [calcDomFrontier]
    split_ifs with hlen
    · have hpred : ∀ F p, b ∈ (if (dom p).isSome then addRunner dom x G.numBlocks p F else F) a ↔
          b ∈ F a ∨ ((dom p).isSome ∧ b = x ∧ a ∈ runner dom (dom x) G.numBlocks p) := by
        intro F p
        split_ifs with hp
        · simp [mem_addRunner, hp]
        · simp [hp]
      rw [mem_foldl_step hpred]
      simp [hlen]
    · simp [hlen]
  rw [mem_foldl_step hblock, mem_initFrontiers]
  simp only [mem_range, ha, not_true, and_false, false_or,
    domFrontier, mem_filter, Bool.and_eq_true,
    decide_eq_true_eq, any_eq_true, contains_iff_mem]
  constructor
  · rintro ⟨x, hx, hlen, p, hp, hset, rfl, hrun⟩
    exact ⟨hx, hlen, p, hp, hset, hrun⟩
  · rintro ⟨hx, hlen, p, hp, hset, hrun⟩
    exact ⟨b, hx, hlen, p, hp, hset, rfl, hrun⟩

/-- What the runner passes lies between the predecessor and the immediate dominator. -/
theorem above_of_mem_runner {k : ℕ} (h : a ∈ runner dom (some d) k p) (hd : Above (up dom) d p) :
    Above (up dom) a p ∧ Above (up dom) d a ∧ a ≠ d := by
  induction k generalizing p with
  | zero => cases h
  | succ k ih =>
    rw [runner] at h
    split_ifs at h with hstop
    · cases h
    · have hpd : d ≠ p := fun heq => hstop (heq ▸ rfl)
      rcases mem_cons.1 h with rfl | h
      · exact ⟨.refl, hd, hpd.symm⟩
      · cases hd with
        | refl => exact absurd rfl hpd
        | step hup hdc =>
          rw [(up_eq_some.1 hup).2] at h
          obtain ⟨hac, hda, hne⟩ := ih h hdc
          exact ⟨.step hup hac, hda, hne⟩

/-- The frontier of a block, where no edge leads to the start block. -/
theorem mem_domFrontier_iff (hG : SourceOrdered G) (hstart : ∀ p, ¬ G.Edge p 0)
    (hdom : calcImmDom G = some dom) :
    b ∈ domFrontier G dom a ↔ Reachable G.Edge 0 b ∧
      (∃ p, G.Edge p b ∧ Reachable G.Edge 0 p ∧ Dominates G.Edge 0 a p) ∧
        ¬ (a ≠ b ∧ Dominates G.Edge 0 a b) := by
  obtain ⟨dom', hdom', h⟩ := calcImmDom_eq_some hG
  obtain rfl := Option.some.inj (hdom.symm.trans hdom')
  obtain ⟨hreached, htree⟩ := immDom_isDomTree hG h
  -- the immediate dominator of a block is above its predecessors
  have hidom : ∀ {p b}, Reachable G.Edge 0 p → G.Edge p b →
      ∃ d, up dom b = some d ∧ Above (up dom) d p := fun {p b} hp hE =>
    htree.pred p b hp hE fun heq => hstart p (heq ▸ hE)
  constructor
  · intro hb
    simp only [domFrontier, mem_filter, mem_range, Bool.and_eq_true, decide_eq_true_eq, any_eq_true,
      contains_iff_mem] at hb
    obtain ⟨hbn, -, p, hpb, hset, hrun⟩ := hb
    have hp := h.reachable p hset
    have hE : G.Edge p b := ⟨hbn, hpb⟩
    obtain ⟨d, hup, hdp⟩ := hidom hp hE
    rw [(up_eq_some.1 hup).2] at hrun
    obtain ⟨hap, hda, hne⟩ := above_of_mem_runner hrun hdp
    refine ⟨hp.step hE, ⟨p, hE, hp, dominates_of_above htree hap⟩, fun hstrict => ?_⟩
    have hab := h.above_of_dominates a b (hreached b (hp.step hE)) hstrict.2
    exact hne (Above.antisymm (h := id) h.wf.up_lt (hab.parent hup hstrict.1) hda)
  · rintro ⟨hb, ⟨p, hE, hp, hdomp⟩, hnot⟩
    obtain ⟨d, hup, hdp⟩ := hidom hp hE
    have hap := h.above_of_dominates a p (hreached p hp) hdomp
    have hnotabove : ¬ Above (up dom) a d := by
      intro had
      have hlt := h.wf.up_lt b d hup
      have hle := had.height_le (h := id) h.wf.up_lt
      exact hnot ⟨by simp only [id] at hle; omega, dominates_of_above htree (.step hup had)⟩
    have hda := (Above.total hap hdp).resolve_left hnotabove
    have hne : a ≠ d := fun heq => hnotabove (heq ▸ .refl)
    obtain ⟨D, hD, hspec⟩ := calcDominanceImpl_spec hG
    rw [calcDominanceImpl, hdom, Option.map_some, Option.some.injEq] at hD
    subst hD
    exact hspec.frontier p b d a hp hE hup hda hap hne

/-- No edge of a function leads to its first block. -/
theorem cfgOf_not_edge_start {B C : Type} {label : B → ℕ} (jump : B → Option Jump) {f : CfList B C}
    (hnames : (f.labels label).Nodup) (p : ℕ) : ¬ (cfgOf label jump f).Edge p 0 := by
  rintro ⟨hpos, hp⟩
  obtain ⟨-, hmem⟩ := mem_preds_cfgOfEdges.1 hp
  have hfirst : (f.labels label).getD 0 0 = label f.first := by rw [f.labels_eq_cons]; rfl
  exact links_not_first hnames (hfirst ▸ hmem)

/-- After `nir_calc_dominance_impl` the frontier of a reachable block consists of the reachable
blocks that it does not strictly dominate, and of which it dominates a reachable predecessor,
whatever was in the sets before. -/
theorem calcDomFrontiers_correct {B C : Type} (label : B → ℕ) (jump : B → Option Jump)
    (f : CfList B C) (hnames : (f.labels label).Nodup) (G : Cfg)
    (hG : (cfgOf label jump f).SameSets G) (old : Frontiers) :
    ∃ F, calcDomFrontiers G old = some F ∧ ∀ a, Reachable G.Edge 0 a →
      ∀ b, b ∈ F a ↔ Reachable G.Edge 0 b ∧
      (∃ p, G.Edge p b ∧ Reachable G.Edge 0 p ∧ Dominates G.Edge 0 a p) ∧
      ¬ (a ≠ b ∧ Dominates G.Edge 0 a b) := by
  have hordered := (cfgOf_sourceOrdered jump hnames).of_sameSets hG
  obtain ⟨dom, hdom, h⟩ := calcImmDom_eq_some hordered
  refine ⟨_, by rw [calcDomFrontiers, hdom]; rfl, fun a ha b => ?_⟩
  have hstart : ∀ p, ¬ G.Edge p 0 := by
    intro p hE
    exact cfgOf_not_edge_start jump hnames p ⟨hG.1 ▸ hE.1, (hG.2 p 0).1 hE.2⟩
  have han : a < G.numBlocks := by
    obtain ⟨π, hπ⟩ := ha
    cases hπ with
    | start => exact hordered.pos
    | step _ hE => exact hE.1
  rw [mem_calcDomFrontiers han, mem_domFrontier_iff hordered hstart hdom]

/-- A loop that is left from its body. -/
def leftLoop : Cfg := cfgOf Prod.fst Prod.snd
  (CfList.loop (0, none) (.ite (1, none) () (.last (2, some .brk))
    (.last (3, none)) (.last (4, none)))
    (.last (5, none)))

/-- The frontiers of the loop that is left from its body. -/
theorem calcDomFrontiers_leftLoop : ∃ F, calcDomFrontiers leftLoop (fun _ => [1]) = some F ∧
    ∀ a, Reachable leftLoop.Edge 0 a → ∀ b, b ∈ F a ↔ Reachable leftLoop.Edge 0 b ∧
      (∃ p, leftLoop.Edge p b ∧ Reachable leftLoop.Edge 0 p ∧ Dominates leftLoop.Edge 0 a p) ∧
      ¬ (a ≠ b ∧ Dominates leftLoop.Edge 0 a b) :=
  calcDomFrontiers_correct Prod.fst Prod.snd _ (by decide) _ ⟨rfl, fun _ _ => Iff.rfl⟩ _

end Mesa3D.Nir
