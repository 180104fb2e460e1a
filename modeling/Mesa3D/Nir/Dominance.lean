import Mesa3D.Graph.Dominators

/-!
# Immediate dominators

`nir_calc_dominance_impl` (`nir_dominance.c`): the immediate dominators are computed by sweeping
over the blocks, in the order of their indices, until nothing changes. Blocks are their indices
here, in source order, and block `0` is the start block. While it is computed, the start block is
its own immediate dominator; a block with the immediate dominator `none` has not been reached.

The source order of structured code makes the second sweep find nothing to change: an edge leads
forward, or back to the header of a loop, which only the header's own predecessors enter
(`SourceOrdered`). `calcImmDom_eq_some` is this, and `immDom_isDomTree` says that the result is a
dominance tree.
-/

namespace Mesa3D.Nir

open Mesa3D.Graph Option List

/-- The predecessors of the blocks, which are numbered in source order from the start block. -/
structure Cfg where
  /-- `num_blocks`. -/
  numBlocks : ℕ
  /-- `predecessors`. -/
  preds : ℕ → List ℕ

/-- The field `imm_dom` of the blocks. -/
abbrev ImmDom := ℕ → Option ℕ

/-- `init_block`. -/
def initImmDom : ImmDom := fun b => if b = 0 then some 0 else none

/-- `intersect`, in at most the given number of steps; `none` where it would follow a missing
`imm_dom`. -/
def intersect (dom : ImmDom) : ℕ → ℕ → ℕ → Option ℕ
  | 0, _, _ => none
  | k + 1, b1, b2 =>
    if b1 = b2 then some b1
    else if b2 < b1 then (dom b1).bind fun d => intersect dom k d b2
    else (dom b2).bind fun d => intersect dom k b1 d

/-- The loop of `calc_dominance` over the predecessors, from a given `new_idom` on. -/
def newIdom (dom : ImmDom) (k : ℕ) : List ℕ → Option ℕ → Option (Option ℕ)
  | [], acc => some acc
  | pred :: preds, acc =>
    match dom pred, acc with
    | none, acc => newIdom dom k preds acc
    | some _, none => newIdom dom k preds (some pred)
    | some _, some d => (intersect dom k pred d).bind fun m => newIdom dom k preds (some m)

/-- `calc_dominance`: the new fields, and whether that of the block has changed. -/
def calcDominance (G : Cfg) (dom : ImmDom) (block : ℕ) : Option (ImmDom × Bool) :=
  (newIdom dom (2 * G.numBlocks) (G.preds block) none).map fun new =>
    if dom block = new then (dom, false) else (fun b => if b = block then new else dom b, true)

/-- The body of the loop of `nir_calc_dominance_impl`, over the given blocks. -/
def sweep (G : Cfg) : List ℕ → ImmDom → Option (ImmDom × Bool)
  | [], dom => some (dom, false)
  | b :: bs, dom =>
    (if b = 0 then some (dom, false) else calcDominance G dom b).bind fun r =>
      (sweep G bs r.1).map fun r' => (r'.1, r.2 || r'.2)

/-- The loop of `nir_calc_dominance_impl`; `none` where it has not ended after the given number of
sweeps. -/
def sweeps (G : Cfg) : ℕ → ImmDom → Option ImmDom
  | 0, _ => none
  | k + 1, dom =>
    (sweep G (List.range G.numBlocks) dom).bind fun r => if r.2 then sweeps G k r.1 else some r.1

/-- The immediate dominators as the loop leaves them. -/
def calcImmDom (G : Cfg) : Option ImmDom := sweeps G (G.numBlocks + 1) initImmDom

/-- The parents of the tree: at the end the start block gets no immediate dominator. -/
def up (dom : ImmDom) : ℕ → Option ℕ := fun b => if b = 0 then none else dom b

/-- The edges of the graph. -/
def Cfg.Edge (G : Cfg) (p q : ℕ) : Prop := q < G.numBlocks ∧ p ∈ G.preds q

/-- The order of the blocks of structured code. Where an edge leads back, to the header `q` of a
loop, the blocks of the loop lie from `q` up to some `e`, and no edge enters them from elsewhere but
at `q`. -/
structure SourceOrdered (G : Cfg) : Prop where
  /-- There is a start block. -/
  pos : 0 < G.numBlocks
  /-- Predecessors are blocks. -/
  pred_lt : ∀ q < G.numBlocks, ∀ p ∈ G.preds q, p < G.numBlocks
  /-- The blocks of a loop. -/
  region : ∀ q < G.numBlocks, ∀ p ∈ G.preds q, q ≤ p → ∃ e, p < e ∧
    ∀ x, q < x → x < e → x < G.numBlocks → ∀ y ∈ G.preds x, q ≤ y ∧ y < e

/-! ## The nearest common ancestor -/

/-- What holds of the fields `imm_dom` throughout: parents have smaller indices and are reached. -/
structure ImmDom.WF (dom : ImmDom) : Prop where
  /-- The start block is its own parent. -/
  start : dom 0 = some 0
  /-- The parent of another block. -/
  parent : ∀ b d, b ≠ 0 → dom b = some d → d < b ∧ (dom d).isSome

/-- `m` is the nearest node that is above every node of `S`. -/
def IsNca (up : ℕ → Option ℕ) (S : ℕ → Prop) (m : ℕ) : Prop :=
  (∀ p, S p → Above up m p) ∧ ∀ c, (∀ p, S p → Above up c p) → Above up c m

section

variable {dom : ImmDom}

/-- The parent of a block other than the start block. -/
theorem up_of_ne {b : ℕ} (hb : b ≠ 0) : up dom b = dom b := by simp [up, hb]

/-- One step up the tree, from a block other than the first. -/
theorem up_eq_some {b d : ℕ} : up dom b = some d ↔ b ≠ 0 ∧ dom b = some d := ite_none_left_eq_some

/-- Parents have smaller indices. -/
theorem ImmDom.WF.up_lt (hwf : dom.WF) (b d : ℕ) (h : up dom b = some d) : d < b :=
  (hwf.parent b d (up_eq_some.1 h).1 (up_eq_some.1 h).2).1

/-- The nearest common ancestor is unique. -/
theorem IsNca.unique (hwf : dom.WF) {S : ℕ → Prop} {m m' : ℕ} (h : IsNca (up dom) S m)
    (h' : IsNca (up dom) S m') : m = m' := Above.antisymm hwf.up_lt (h'.2 m h.1) (h.2 m' h'.1)

/-- The deeper of two blocks may move up: no common ancestor is lost, since none is that deep. -/
theorem IsNca.of_parent (hwf : dom.WF) {b d q m : ℕ} (hup : up dom b = some d) (hlt : q < b)
    (h : IsNca (up dom) (fun p => p = d ∨ p = q) m) :
    IsNca (up dom) (fun p => p = b ∨ p = q) m := by
  obtain ⟨habove, hnearest⟩ := h
  refine ⟨?_, fun c hc => hnearest c ?_⟩
  · rintro p (rfl | rfl)
    · exact .step hup (habove d (.inl rfl))
    · exact habove _ (.inr rfl)
  · have hcq := hc q (.inr rfl)
    have hle := hcq.height_le (h := id) hwf.up_lt
    rintro p (rfl | rfl)
    · exact (hc b (.inl rfl)).parent hup (by simp only [id] at hle; omega)
    · exact hcq

/-- `intersect` finds the nearest common ancestor of two reached blocks. -/
theorem intersect_spec (hwf : dom.WF) : ∀ (k b1 b2 : ℕ), (dom b1).isSome → (dom b2).isSome →
    b1 + b2 < k → ∃ m, intersect dom k b1 b2 = some m ∧ (dom m).isSome ∧
      IsNca (up dom) (fun p => p = b1 ∨ p = b2) m := by
  intro k
  induction k with
  | zero => intro b1 b2 _ _ h; omega
  | succ k ih =>
    intro b1 b2 h1 h2 hk
    simp only [intersect]
    by_cases heq : b1 = b2
    · subst heq
      exact ⟨b1, by simp, h1, by simpa using Above.refl, fun c hc => hc b1 (.inl rfl)⟩
    · rw [if_neg heq]
      by_cases hlt : b2 < b1
      · obtain ⟨d, hd⟩ := isSome_iff_exists.mp h1
        obtain ⟨hdlt, hdset⟩ := hwf.parent b1 d (by omega) hd
        have hup := up_eq_some.2 ⟨by omega, hd⟩
        obtain ⟨m, hm, hset, hnca⟩ := ih d b2 hdset h2 (by omega)
        exact ⟨m, by rw [if_pos hlt, hd, bind_some, hm], hset, hnca.of_parent hwf hup hlt⟩
      · obtain ⟨d, hd⟩ := isSome_iff_exists.mp h2
        obtain ⟨hdlt, hdset⟩ := hwf.parent b2 d (by omega) hd
        have hup := up_eq_some.2 ⟨by omega, hd⟩
        obtain ⟨m, hm, hset, hnca⟩ := ih b1 d h1 hdset (by omega)
        refine ⟨m, by rw [if_neg hlt, hd, bind_some, hm], hset, ?_⟩
        simp only [@or_comm (_ = b1)] at hnca ⊢
        exact hnca.of_parent hwf hup (by omega)

/-- The reached blocks among the given ones. -/
def Reached (dom : ImmDom) (ps : List ℕ) (p : ℕ) : Prop := p ∈ ps ∧ (dom p).isSome

/-- What the loop over the predecessors has found so far: nothing, where none is reached, or the
nearest common ancestor of the reached ones. -/
def IsIdom (dom : ImmDom) (S : ℕ → Prop) : Option ℕ → Prop
  | none => ∀ p, ¬ S p
  | some m => (∃ p, S p) ∧ (dom m).isSome ∧ IsNca (up dom) S m

/-- A predecessor that was reached is the first of the list or one of the rest. -/
theorem reached_cons {pred p : ℕ} {ps : List ℕ} :
    Reached dom (pred :: ps) p ↔ p = pred ∧ (dom pred).isSome ∨ Reached dom ps p := by
  simp only [Reached, mem_cons, or_and_right]
  exact or_congr_left (and_congr_right fun h => by rw [h])

/-- The loop of `calc_dominance` finds the nearest common ancestor of the reached predecessors. -/
theorem newIdom_spec (hwf : dom.WF) {n : ℕ} : ∀ (ps : List ℕ) (S : ℕ → Prop) (acc : Option ℕ),
    (∀ p ∈ ps, p < n) → (∀ p, S p → p < n) → IsIdom dom S acc →
      ∃ r, newIdom dom (2 * n) ps acc = some r ∧
        IsIdom dom (fun p => S p ∨ Reached dom ps p) r := by
  intro ps
  induction ps with
  | nil =>
    intro S acc _ _ h
    refine ⟨acc, rfl, ?_⟩
    simpa [Reached] using h
  | cons pred ps ih =>
    intro S acc hps hS h
    have hcons : ∀ S' : ℕ → Prop, (∀ p, S' p ↔ S p ∨ (p = pred ∧ (dom pred).isSome)) →
        (fun p => S' p ∨ Reached dom ps p) = fun p => S p ∨ Reached dom (pred :: ps) p := by
      intro S' hS'
      funext p
      rw [hS', reached_cons]
      exact propext or_assoc
    have hps' : ∀ p ∈ ps, p < n := fun p hp => hps p (mem_cons_of_mem _ hp)
    have hpred : pred < n := hps pred (by simp)
    cases hd : dom pred with
    | none =>
      rw [← hcons S (by simp [hd])]
      simpa only [newIdom, hd] using ih S acc hps' hS h
    | some d =>
      have hset : (dom pred).isSome := by simp [hd]
      rw [← hcons (fun p => S p ∨ p = pred) (by simp [hd])]
      have hS' : ∀ p, S p ∨ p = pred → p < n := by
        rintro p (h | rfl)
        · exact hS p h
        · exact hpred
      cases acc with
      | none =>
        simp only [newIdom, hd]
        refine ih _ (some pred) hps' hS' ⟨⟨pred, .inr rfl⟩, hset,
          ?_, fun c hc => hc pred (.inr rfl)⟩
        rintro p (hp | rfl)
        · exact absurd hp (h p)
        · exact .refl
      | some m =>
        obtain ⟨⟨q, hq⟩, hmset, habove, hnearest⟩ := h
        have hmn : m < n :=
          Nat.lt_of_le_of_lt ((habove q hq).height_le (h := id) hwf.up_lt) (hS q hq)
        obtain ⟨m', hm', hset', habove', hnearest'⟩ :=
          intersect_spec hwf (2 * n) pred m hset hmset (by omega)
        simp only [newIdom, hd, hm', bind_some]
        refine ih _ (some m') hps' hS' ⟨⟨pred, .inr rfl⟩, hset', ?_, fun c hc => ?_⟩
        · rintro p (hp | rfl)
          · exact (habove' m (.inr rfl)).trans (habove p hp)
          · exact habove' _ (.inl rfl)
        · refine hnearest' c ?_
          rintro p (rfl | rfl)
          · exact hc _ (.inr rfl)
          · exact hnearest c fun p hp => hc p (.inl hp)

/-- The same from its start. -/
theorem newIdom_none (hwf : dom.WF) {n : ℕ} {ps : List ℕ} (hps : ∀ p ∈ ps, p < n) :
    ∃ r, newIdom dom (2 * n) ps none = some r ∧ IsIdom dom (Reached dom ps) r := by
  simpa only [false_or] using newIdom_spec hwf ps (fun _ => False) none hps (by simp) fun p hp => hp

end

/-! ## The first sweep -/

/-- What is above a block depends on the fields of the blocks up to it only. -/
theorem above_congr {dom dom' : ImmDom} (hwf : dom.WF) {j a p : ℕ}
    (h : ∀ x < j, dom' x = dom x) (hp : p < j) (hab : Above (up dom) a p) :
    Above (up dom') a p := by
  induction hab with
  | refl => exact .refl
  | @step b d hd _ ih =>
    have hlt := hwf.up_lt b d hd
    refine .step (b := b) (d := d) ?_ (ih (by omega))
    simpa only [up, h b hp] using hd

/-- The same for what the loop over the predecessors finds. -/
theorem isIdom_congr {dom dom' : ImmDom} (hwf : dom.WF) (hwf' : dom'.WF) {j : ℕ}
    (h : ∀ x < j, dom' x = dom x) {S : ℕ → Prop} (hS : ∀ p, S p → p < j) {r : Option ℕ}
    (hr : IsIdom dom S r) : IsIdom dom' S r := by
  cases r with
  | none => exact hr
  | some m =>
    obtain ⟨⟨q, hq⟩, hset, habove, hnearest⟩ := hr
    have hmj : m < j := Nat.lt_of_le_of_lt ((habove q hq).height_le (h := id) hwf.up_lt) (hS q hq)
    refine ⟨⟨q, hq⟩, by rwa [h m hmj], fun p hp => above_congr hwf h (hS p hp) (habove p hp),
      fun c hc => above_congr hwf h hmj (hnearest c fun p hp => ?_)⟩
    exact above_congr hwf' (fun x hx => (h x hx).symm) (hS p hp) (hc p hp)

/-- The predecessors that count in the first sweep. -/
def Forward (G : Cfg) (dom : ImmDom) (b p : ℕ) : Prop := p < b ∧ Reached dom (G.preds b) p

/-- The fields when the first sweep has passed the blocks below `j`. -/
structure FirstSweep (G : Cfg) (j : ℕ) (dom : ImmDom) : Prop where
  /-- Parents have smaller indices and are reached. -/
  wf : dom.WF
  /-- The blocks that the sweep has not passed. -/
  later : ∀ b, j ≤ b → b ≠ 0 → dom b = none
  /-- The blocks that it has passed have the nearest common ancestor of their predecessors. -/
  done : ∀ b < j, b ≠ 0 → IsIdom dom (Forward G dom b) (dom b)

/-- The first sweep starts from the initial fields. -/
theorem firstSweep_init (G : Cfg) : FirstSweep G 0 initImmDom where
  wf := ⟨rfl, fun b d hb h => by simp [initImmDom, hb] at h⟩
  later b _ hb := by simp [initImmDom, hb]
  done b hb := by omega

section

variable {G : Cfg} {dom : ImmDom} {j : ℕ}

/-- The start block is passed over. -/
theorem FirstSweep.skip (h : FirstSweep G 0 dom) : FirstSweep G 1 dom where
  wf := h.wf
  later b hb hb0 := h.later b (by omega) hb0
  done b hb hb0 := by omega

/-- The fields with that of one further block. -/
theorem FirstSweep.step (h : FirstSweep G j dom) (hj : j ≠ 0) {r : Option ℕ}
    (hr : IsIdom dom (Forward G dom j) r) :
    FirstSweep G (j + 1) (fun b => if b = j then r else dom b) := by
  have hagree : ∀ x < j, (if x = j then r else dom x) = dom x := fun x hx => by
    rw [if_neg (by omega)]
  -- A reached block lies below `j`.
  have hlt : ∀ b d, dom b = some d → b ≠ 0 → b < j := by
    intro b d hb hb0
    by_contra hcon
    simp [h.later b (by omega) hb0] at hb
  have hwf : ImmDom.WF fun b => if b = j then r else dom b := by
    refine ⟨by rw [if_neg (by omega), h.wf.start], fun b d hb hd => ?_⟩
    by_cases hbj : b = j
    · subst hbj
      simp only [if_pos] at hd
      subst hd
      obtain ⟨⟨q, hq⟩, hset, habove, -⟩ := hr
      have hle := (habove q hq).height_le (h := id) h.wf.up_lt
      have hqb := hq.1
      simp only [id] at hle
      exact ⟨by omega, by rwa [if_neg (by omega)]⟩
    · simp only [if_neg hbj] at hd
      obtain ⟨hdb, hset⟩ := h.wf.parent b d hb hd
      have hbj := hlt b d hd hb
      exact ⟨hdb, by rwa [if_neg (by omega)]⟩
  -- Below a passed block nothing has changed.
  have hforward : ∀ b ≤ j, Forward G (fun b => if b = j then r else dom b) b = Forward G dom b := by
    intro b hb
    funext p
    simp only [Forward, Reached, eq_iff_iff, and_congr_right_iff]
    intro hp _
    rw [if_neg (by omega)]
  refine ⟨hwf, fun b hb hb0 => ?_, fun b hb hb0 => ?_⟩
  · simp only [if_neg (show b ≠ j by omega)]
    exact h.later b (by omega) hb0
  · rw [hforward b (by omega)]
    by_cases hbj : b = j
    · subst hbj
      simp only [if_pos]
      exact isIdom_congr h.wf hwf hagree (fun p hp => hp.1) hr
    · simp only [if_neg hbj]
      exact isIdom_congr h.wf hwf hagree (fun p hp => by have := hp.1; omega)
        (h.done b (by omega) hb0)

/-- One block of the first sweep. -/
theorem FirstSweep.calcDominance (h : FirstSweep G j dom) (hG : SourceOrdered G)
    (hj : j < G.numBlocks) (hj0 : j ≠ 0) :
    ∃ r, calcDominance G dom j = some r ∧ FirstSweep G (j + 1) r.1 := by
  obtain ⟨r, hr, hidom⟩ := newIdom_none h.wf (hG.pred_lt j hj)
  -- The predecessors behind the block are not reached yet.
  have hS : Reached dom (G.preds j) = Forward G dom j := by
    funext p
    simp only [Forward, eq_iff_iff, iff_and_self]
    intro hp
    by_contra hlt
    have hnone := h.later p (by omega) (by omega)
    simp [Reached, hnone] at hp
  rw [hS] at hidom
  have hstep := h.step hj0 hidom
  refine ⟨_, by rw [Nir.calcDominance, hr]; rfl, ?_⟩
  dsimp only
  by_cases heq : dom j = r
  · rw [if_pos heq]
    have hdom : (fun b => if b = j then r else dom b) = dom := by
      funext b
      by_cases hb : b = j <;> simp [hb, heq]
    rwa [hdom] at hstep
  · rw [if_neg heq]
    exact hstep

/-- The first sweep passes all blocks. -/
theorem firstSweep_sweep (hG : SourceOrdered G) : ∀ (m j : ℕ) (dom : ImmDom),
    j + m = G.numBlocks → FirstSweep G j dom →
      ∃ r, sweep G (List.range' j m) dom = some r ∧ FirstSweep G G.numBlocks r.1 := by
  intro m
  induction m with
  | zero =>
    intro j dom hj h
    exact ⟨(dom, false), rfl, by rwa [show j = G.numBlocks by omega] at h⟩
  | succ m ih =>
    intro j dom hj h
    simp only [range'_succ, sweep]
    by_cases hj0 : j = 0
    · subst hj0
      rw [if_pos rfl, bind_some]
      obtain ⟨r, hr, hdone⟩ := ih 1 dom (by omega) h.skip
      exact ⟨_, by rw [hr]; rfl, hdone⟩
    · rw [if_neg hj0]
      obtain ⟨r, hr, hstep⟩ := h.calcDominance hG (by omega) hj0
      obtain ⟨r', hr', hdone⟩ := ih (j + 1) r.1 (by omega) hstep
      exact ⟨(r'.1, r.2 || r'.2), by rw [hr, bind_some, hr']; rfl, hdone⟩

/-! ## The second sweep -/

/-- The header of a loop is above every reached block of the loop. -/
theorem FirstSweep.above_header (h : FirstSweep G G.numBlocks dom) {q e : ℕ}
    (hregion : ∀ x, q < x → x < e → x < G.numBlocks → ∀ y ∈ G.preds x, q ≤ y ∧ y < e) :
    ∀ x, q ≤ x → x < e → x < G.numBlocks → (dom x).isSome →
      (dom q).isSome ∧ Above (up dom) q x := by
  intro x
  induction x using Nat.strongRecOn with
  | _ x ih =>
    intro hqx hxe hxn hset
    rcases Nat.eq_or_lt_of_le hqx with rfl | hlt
    · exact ⟨hset, .refl⟩
    · obtain ⟨d, hd⟩ := isSome_iff_exists.mp hset
      have hidom := h.done x hxn (by omega)
      rw [hd] at hidom
      obtain ⟨⟨y, hy⟩, -, -, hnearest⟩ := hidom
      -- The header is above all predecessors of the block that count.
      have hpred : ∀ p, Forward G dom x p → (dom q).isSome ∧ Above (up dom) q p := by
        intro p hp
        obtain ⟨hqp, hpe⟩ := hregion x hlt hxe hxn p hp.2.1
        exact ih p hp.1 hqp hpe (by have := hp.1; omega) hp.2.2
      refine ⟨(hpred y hy).1, .step ?_ (hnearest q fun p hp => (hpred p hp).2)⟩
      rw [up_of_ne (by omega), hd]

/-- Recomputing a field after the first sweep gives the same. -/
theorem FirstSweep.settled (h : FirstSweep G G.numBlocks dom) (hG : SourceOrdered G) {b : ℕ}
    (hb : b < G.numBlocks) (hb0 : b ≠ 0) :
    newIdom dom (2 * G.numBlocks) (G.preds b) none = some (dom b) := by
  obtain ⟨r, hr, hidom⟩ := newIdom_none h.wf (hG.pred_lt b hb)
  have hdone := h.done b hb hb0
  -- A predecessor behind the block ends a loop, of which the block is the header.
  have hback : ∀ p, Reached dom (G.preds b) p → b ≤ p → (dom b).isSome ∧ Above (up dom) b p := by
    intro p hp hbp
    obtain ⟨e, hpe, hregion⟩ := hG.region b hb p hp.1 hbp
    exact h.above_header hregion p hbp hpe (hG.pred_lt b hb p hp.1) hp.2
  rw [hr]
  cases hd : dom b with
  | none =>
    rw [hd] at hdone
    cases r with
    | none => rfl
    | some m =>
      obtain ⟨⟨p, hp⟩, -⟩ := hidom
      by_cases hlt : p < b
      · exact absurd ⟨hlt, hp⟩ (hdone p)
      · have := (hback p hp (by omega)).1
        simp [hd] at this
  | some d =>
    rw [hd] at hdone
    obtain ⟨⟨q, hq⟩, -, habove, hnearest⟩ := hdone
    have hdb : Above (up dom) d b := .step (by rw [up_of_ne hb0, hd]) .refl
    have hnca : IsNca (up dom) (Reached dom (G.preds b)) d := by
      refine ⟨fun p hp => ?_, fun c hc => hnearest c fun p hp => hc p hp.2⟩
      by_cases hlt : p < b
      · exact habove p ⟨hlt, hp⟩
      · exact hdb.trans (hback p hp (by omega)).2
    cases r with
    | none => exact absurd hq.2 (hidom q)
    | some m =>
      obtain ⟨-, -, hm⟩ := hidom
      rw [IsNca.unique h.wf hm hnca]

/-- A sweep over blocks whose fields are settled changes nothing. -/
theorem sweep_of_settled : ∀ {bs : List ℕ},
    (∀ b ∈ bs, b ≠ 0 → newIdom dom (2 * G.numBlocks) (G.preds b) none = some (dom b)) →
      sweep G bs dom = some (dom, false)
  | [], _ => rfl
  | b :: bs, h => by
    have ih : sweep G bs dom = some (dom, false) :=
      sweep_of_settled fun c hc => h c (mem_cons_of_mem _ hc)
    by_cases hb : b = 0
    · simp [sweep, hb, ih]
    · simp [sweep, hb, calcDominance, h b (by simp) hb, ih]

/-- The computation ends after its second sweep. -/
theorem calcImmDom_eq_some (hG : SourceOrdered G) :
    ∃ dom, calcImmDom G = some dom ∧ FirstSweep G G.numBlocks dom := by
  have hpos := hG.pos
  obtain ⟨r, hr, hfirst⟩ := firstSweep_sweep hG G.numBlocks 0 initImmDom (by omega)
    (firstSweep_init G)
  have hsecond : sweep G (range G.numBlocks) r.1 = some (r.1, false) :=
    sweep_of_settled fun b hb hb0 => hfirst.settled hG (mem_range.mp hb) hb0
  refine ⟨r.1, ?_, hfirst⟩
  obtain ⟨n, hn⟩ : ∃ n, G.numBlocks = n + 1 := ⟨G.numBlocks - 1, by omega⟩
  simp only [calcImmDom, sweeps, hn]
  rw [← hn, range_eq_range', hr, bind_some]
  split
  · rw [← range_eq_range', hsecond]
    simp
  · rfl

/-- Reachable blocks are reached, and the fields form a dominance tree. -/
theorem immDom_isDomTree (hG : SourceOrdered G) (h : FirstSweep G G.numBlocks dom) :
    (∀ b, Reachable G.Edge 0 b → (dom b).isSome) ∧ IsDomTree G.Edge 0 (up dom) := by
  have hidom : ∀ q, q < G.numBlocks → q ≠ 0 → IsIdom dom (Reached dom (G.preds q)) (dom q) := by
    intro q hq hq0
    obtain ⟨r, hr, hidom⟩ := newIdom_none h.wf (hG.pred_lt q hq)
    rw [h.settled hG hq hq0, some.injEq] at hr
    rwa [hr]
  -- The predecessor of a block on a walk makes the block reached.
  have hstep : ∀ p q, (dom p).isSome → G.Edge p q → q ≠ 0 →
      ∃ d, dom q = some d ∧ Above (up dom) d p := by
    intro p q hp hE hq0
    have hi := hidom q hE.1 hq0
    cases hd : dom q with
    | none => rw [hd] at hi; exact absurd ⟨hE.2, hp⟩ (hi p)
    | some d => rw [hd] at hi; exact ⟨d, rfl, hi.2.2.1 p ⟨hE.2, hp⟩⟩
  have hreached : ∀ b, Reachable G.Edge 0 b → (dom b).isSome := by
    rintro b ⟨π, hπ⟩
    generalize hρ : b :: π = ρ at hπ
    induction hπ generalizing b π with
    | start =>
      rw [(cons.inj hρ).1, h.wf.start]
      rfl
    | @step p q ρ hp hE ih =>
      rw [(cons.inj hρ).1]
      by_cases hq : q = 0
      · rw [hq, h.wf.start]
        rfl
      · obtain ⟨d, hd, -⟩ := hstep p q (ih p ρ rfl) hE hq
        simp [hd]
  refine ⟨hreached, by simp [up], fun p q hp hE hq => ?_⟩
  obtain ⟨d, hd, habove⟩ := hstep p q (hreached p hp) hE hq
  exact ⟨d, by rw [up_of_ne hq, hd], habove⟩

end

end Mesa3D.Nir
