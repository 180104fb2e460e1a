import Mesa3D.Nir.DomInfo
import Mesa3D.Nir.BlockIndex

/-!
# The dominance information is that of the paths

`DomInfo.Spec` says that what is above a block in the tree of `imm_dom` dominates it. The converse
uses the first sweep only: a block that dominates `b` dominates the predecessors of `b` in front of
it, so by induction on the source order it is above all of them, and `imm_dom` is the nearest such
block. With it the tree is the dominance relation, and `imm_dom` and `nir_block_dominates` can be
read on the paths of the graph.
-/

namespace Mesa3D.Nir

open Mesa3D.Graph Structured

variable {G : Cfg} {dom : ImmDom} {a b : ℕ}

/-- A reached block has what dominates it above it. -/
theorem FirstSweep.above_of_dominates (h : FirstSweep G G.numBlocks dom) (a : ℕ) :
    ∀ b, (dom b).isSome → Dominates G.Edge 0 a b → Above (up dom) a b := by
  intro b
  induction b using Nat.strongRecOn with
  | _ b ih =>
    intro hset hdom
    by_cases hab : a = b
    · rw [hab]
      exact .refl
    by_cases hb0 : b = 0
    · -- Only the start block is on the path that stays there.
      subst hb0
      have hmem := hdom [] .start
      exact absurd (List.mem_singleton.1 hmem) hab
    · obtain ⟨d, hd⟩ := Option.isSome_iff_exists.1 hset
      have hbn := h.lt_of_eq_some hb0 hd
      have hidom := h.done b hbn hb0
      rw [hd] at hidom
      obtain ⟨-, -, -, hnearest⟩ := hidom
      refine .step (by rw [up_of_ne hb0, hd]) (hnearest a fun p hp => ?_)
      exact ih p hp.1 hp.2.2 (hdom.pred ⟨hbn, hp.2.1⟩ hab)

/-- A reached block is reachable. -/
theorem FirstSweep.reachable (h : FirstSweep G G.numBlocks dom) :
    ∀ b, (dom b).isSome → Reachable G.Edge 0 b := by
  intro b
  induction b using Nat.strongRecOn with
  | _ b ih =>
    intro hset
    by_cases hb0 : b = 0
    · rw [hb0]
      exact .refl
    · obtain ⟨d, hd⟩ := Option.isSome_iff_exists.1 hset
      have hbn := h.lt_of_eq_some hb0 hd
      have hidom := h.done b hbn hb0
      rw [hd] at hidom
      obtain ⟨⟨p, hp⟩, -⟩ := hidom
      exact (ih p hp.1 hp.2.2).step ⟨hbn, hp.2.1⟩

/-- What the dominance information says about the paths of the graph. -/
structure DomInfo.IsPathDominance (G : Cfg) (D : DomInfo) : Prop where
  /-- `imm_dom` of a reachable block is its closest strict dominator, and it has only one. -/
  immDom : ∀ b, Reachable G.Edge 0 b → b ≠ 0 → ∃ d, D.immDom b = some d ∧
    ∀ d', ImmediatelyDominates G.Edge 0 d' b ↔ d' = d
  /-- `nir_block_dominates`. -/
  dominates : ∀ a b, Reachable G.Edge 0 a → Reachable G.Edge 0 b →
    (D.blockDominates a b = true ↔ Dominates G.Edge 0 a b)
  /-- A block that is not reachable has no immediate dominator. -/
  unreachable : ∀ b, ¬ Reachable G.Edge 0 b → D.immDom b = none

/-- What `nir_calc_dominance_impl` computes is dominance by paths. -/
theorem calcDominanceImpl_isPathDominance (hG : SourceOrdered G) :
    ∃ D, calcDominanceImpl G = some D ∧ D.IsPathDominance G := by
  obtain ⟨D, hD, hspec⟩ := calcDominanceImpl_spec hG
  obtain ⟨dom, hdom, h⟩ := calcImmDom_eq_some hG
  obtain ⟨hreached, htree⟩ := immDom_isDomTree hG h
  have hup : D.immDom = up dom := by
    rw [calcDominanceImpl, hdom, Option.map_some, Option.some.injEq] at hD
    rw [← hD]
  have habove : ∀ a b, Reachable G.Edge 0 b → (Above (up dom) a b ↔ Dominates G.Edge 0 a b) :=
    fun a b hb => ⟨dominates_of_above htree, h.above_of_dominates a b (hreached b hb)⟩
  refine ⟨D, hD, fun b hb hb0 => ?_, fun a b ha hb => ?_, fun b hb => ?_⟩
  · obtain ⟨d, hd⟩ := Option.isSome_iff_exists.1 (hreached b hb)
    have hdb := up_eq_some.2 ⟨hb0, hd⟩
    obtain ⟨hlt, hset⟩ := h.wf.parent b d hb0 hd
    have hd_reach := h.reachable d hset
    have hd_dom : Dominates G.Edge 0 d b := (habove d b hb).1 (.step hdb .refl)
    have hclosest : ∀ c, c ≠ b → Dominates G.Edge 0 c b → Above (up dom) c d := fun c hne hc =>
      ((habove c b hb).2 hc).parent hdb hne
    refine ⟨d, by rw [hup, hdb], fun d' => ⟨?_, ?_⟩⟩
    · rintro ⟨⟨hne, hdom'⟩, hothers⟩
      have hd'_above := hclosest d' hne hdom'
      have hdd' := hothers d (by omega) hd_dom
      have hd'_reach : Reachable G.Edge 0 d' := by
        obtain ⟨π, hπ⟩ := hb
        obtain ⟨ρ, hρ⟩ := hπ.cut (hdom' π hπ)
        exact ⟨ρ, hρ⟩
      exact Above.antisymm (h := id) h.wf.up_lt hd'_above ((habove d d' hd'_reach).2 hdd')
    · rintro rfl
      exact ⟨⟨by omega, hd_dom⟩, fun c hne hc => (habove c d' hd_reach).1 (hclosest c hne hc)⟩
  · rw [hspec.dominates a b ha hb, hup, habove a b hb]
  · rw [hup]
    by_contra hne
    obtain ⟨d, hd⟩ := Option.ne_none_iff_exists'.1 hne
    exact hb (h.reachable b (by rw [(up_eq_some.1 hd).2]; rfl))

/-- Two graphs with the same sets of predecessors, which may be walked in different orders. -/
def Cfg.SameSets (G G' : Cfg) : Prop :=
  G'.numBlocks = G.numBlocks ∧ ∀ p q, p ∈ G'.preds q ↔ p ∈ G.preds q

/-- The order of successors and predecessors does not matter. -/
theorem SourceOrdered.of_sameSets {G' : Cfg} (hG : SourceOrdered G) (h : G.SameSets G') :
    SourceOrdered G' := by
  obtain ⟨hn, hpreds⟩ := h
  refine ⟨hn ▸ hG.pos, fun q hq p hp => ?_, fun q hq p hp hqp => ?_⟩
  · rw [hn] at hq ⊢
    exact hG.pred_lt q hq p ((hpreds p q).1 hp)
  · rw [hn] at hq
    obtain ⟨e, hpe, hregion⟩ := hG.region q hq p ((hpreds p q).1 hp) hqp
    exact ⟨e, hpe, fun x hqx hxe hxn y hy => hregion x hqx hxe (hn ▸ hxn) y ((hpreds y x).1 hy)⟩

/-- The dominance information of a function is that of the paths through its blocks, in whatever
order the sets of predecessors are walked. -/
theorem nirCalcDominance_correct {B C : Type} (label : B → ℕ) (jump : B → Option Jump)
    (f : CfList B C) (hnames : (f.labels label).Nodup) (G : Cfg)
    (hG : (cfgOf label jump f).SameSets G) :
    ∃ D, calcDominanceImpl G = some D ∧ D.IsPathDominance G :=
  calcDominanceImpl_isPathDominance ((cfgOf_sourceOrdered jump hnames).of_sameSets hG)

/-- A loop that is left from the middle of its body. -/
theorem nirCalcDominance_correct_loop :
    ∃ D, calcDominanceImpl (cfgOf Prod.fst Prod.snd
        (CfList.loop (0, none) (.ite (1, none) () (.last (2, some .brk))
          (.last (3, none)) (.last (4, none)))
          (.last (5, none)))) = some D ∧
      D.IsPathDominance (cfgOf Prod.fst Prod.snd
        (CfList.loop (0, none) (.ite (1, none) () (.last (2, some .brk))
          (.last (3, none)) (.last (4, none)))
          (.last (5, none)))) :=
  nirCalcDominance_correct Prod.fst Prod.snd _ (by decide) _ ⟨rfl, fun _ _ => Iff.rfl⟩

/-! ### The closest common dominator -/

/-- `intersect` does not go up from the start block. -/
theorem intersect_up (k b1 b2 : ℕ) : intersect (up dom) k b1 b2 = intersect dom k b1 b2 := by
  induction k generalizing b1 b2 with
  | zero => rfl
  | succ k ih =>
    unfold intersect
    split_ifs
    · rfl
    · simp only [up_of_ne (show b1 ≠ 0 by omega), ih]
    · simp only [up_of_ne (show b2 ≠ 0 by omega), ih]

/-- Two reachable blocks have a closest common dominator, and `nir_dominance_lca` finds it: what
dominates it is what dominates both. -/
theorem nirDominanceLca_closest {B C : Type} (label : B → ℕ) (jump : B → Option Jump)
    (f : CfList B C) (hnames : (f.labels label).Nodup) (G : Cfg)
    (hG : (cfgOf label jump f).SameSets G) :
    ∃ D, calcDominanceImpl G = some D ∧ ∀ a b, Reachable G.Edge 0 a → Reachable G.Edge 0 b →
      ∃ m, nirDominanceLca D G.numBlocks (some a) (some b) = some (some m) ∧ Reachable G.Edge 0 m ∧
        ∀ c, Dominates G.Edge 0 c m ↔ Dominates G.Edge 0 c a ∧ Dominates G.Edge 0 c b := by
  have hG := (cfgOf_sourceOrdered jump hnames).of_sameSets hG
  obtain ⟨dom, hdom, h⟩ := calcImmDom_eq_some hG
  obtain ⟨hreached, htree⟩ := immDom_isDomTree hG h
  have habove : ∀ {c b}, (dom b).isSome → (Dominates G.Edge 0 c b ↔ Above (up dom) c b) :=
    fun hset => ⟨h.above_of_dominates _ _ hset, dominates_of_above htree⟩
  have hlt : ∀ {b}, Reachable G.Edge 0 b → b < G.numBlocks := by
    rintro b ⟨π, hπ⟩
    cases hπ with
    | start => exact hG.pos
    | step _ hE => exact hE.1
  refine ⟨_, by rw [calcDominanceImpl, hdom, Option.map_some], fun a b ha hb => ?_⟩
  obtain ⟨m, hm, hset, hboth, hnearest⟩ := intersect_spec h.wf (2 * G.numBlocks) a b (hreached a ha)
    (hreached b hb) (by have := hlt ha; have := hlt hb; omega)
  refine ⟨m, by rw [nirDominanceLca, intersect_up, hm, Option.map_some], h.reachable m hset,
    fun c => ?_⟩
  rw [habove hset, habove (hreached a ha), habove (hreached b hb)]
  constructor
  · exact fun hc => ⟨hc.trans (hboth a (.inl rfl)), hc.trans (hboth b (.inr rfl))⟩
  · rintro ⟨hca, hcb⟩
    refine hnearest c ?_
    rintro p (rfl | rfl) <;> assumption

/-- The branches of an if. -/
theorem nirDominanceLca_branches :
    let f : CfList (ℕ × Option Jump) Unit := .ite (0, none) () (.last (1, none))
      (.last (2, none)) (.last (3, none))
    let G := cfgOf Prod.fst Prod.snd f
    ∃ D m, calcDominanceImpl G = some D ∧
      nirDominanceLca D G.numBlocks (some 1) (some 2) = some (some m) ∧
      ∀ c, Dominates G.Edge 0 c m ↔ Dominates G.Edge 0 c 1 ∧ Dominates G.Edge 0 c 2 := by
  intro f G
  obtain ⟨D, hD, hlca⟩ :=
    nirDominanceLca_closest Prod.fst Prod.snd f (by decide) G ⟨rfl, fun _ _ => Iff.rfl⟩
  obtain ⟨m, hm, -, hiff⟩ := hlca 1 2 ⟨[0], .step .start ⟨by decide, by decide⟩⟩
    ⟨[0], .step .start ⟨by decide, by decide⟩⟩
  exact ⟨D, m, hD, hm, hiff⟩

end Mesa3D.Nir
