import Mesa3D.Nir.RepairSsaCorrect

/-!
# Defs dominate their uses after the repair

What `nir_repair_ssa_impl` is for: in the function that it returns, every def dominates its uses, as
far as the blocks can be reached. A use that was given another def has the def of the root above its
block (`PhiState.Stands`), which stands in the block of that root, or in the start block where it is
an undef.

The defs are repaired one after the other, and the repair of one leaves the uses of the others. So
the invariant of the loop (`UsesDominated`) is about the defs that are not left to repair.
-/

namespace Mesa3D.Nir

open Structured Mesa3D.Graph Block
open CfList List

variable {labels : List ℕ} {edges : List (ℕ × ℕ)} {D : DomInfo} {x db d base next i : ℕ}
  {b : Block SsaInstr} {f g : CfList (Block SsaInstr) ℕ} {ht : ℕ → Option PhiEntry}
  {r : PhiState × List BuiltPhi}

/-! ## The blocks that were asked for -/

/-- The def that is found for a block is not a mark any more. -/
theorem findDef_ne_needsPhi (st : PhiState) (dom : ImmDom) (k i : ℕ) :
    (st.findDef dom (k + 1) i).1.ht i ≠ some .needsPhi := by
  intro h
  by_cases hi : st.ht i = some .needsPhi
  · have hnear : nearest dom (fun b => (st.ht b).isSome) (k + 1) i = some i :=
      nearest_of_mem (by simp [hi])
    simp [PhiState.findDef, hnear, hi] at h
  · unfold PhiState.findDef at h
    split at h
    · exact hi h
    · split at h
      · exact hi h
      · dsimp only at h
        split_ifs at h
        · cases h
        · exact hi h

/-- A block that was asked for has a def in the table. -/
theorem getBlockDef_entry {dom : ImmDom} (hlt : ∀ b d, dom b = some d → d < b) (st : PhiState)
    {n : ℕ} (hi : i < n) : ∃ e, (st.getBlockDef dom n i).1.ht i = some (.ssa e) := by
  obtain ⟨k, rfl⟩ : ∃ k, n = k + 1 := ⟨n - 1, by omega⟩
  have hmark := findDef_ne_needsPhi st dom k i
  unfold PhiState.getBlockDef
  generalize st.findDef dom (k + 1) i = s at hmark ⊢
  dsimp only
  cases hentry : s.1.ht i with
  | none =>
    refine ⟨s.2, ?_⟩
    rw [stash, hentry]
    cases dom i with
    | none => exact if_pos rfl
    | some c => exact (stash_spec hlt k c _ i).1 _ (if_pos rfl)
  | some entry =>
    cases entry with
    | needsPhi => exact absurd hentry hmark
    | ssa e => exact ⟨e, (stash_spec hlt (k + 1) i _ i).1 _ hentry⟩

/-- Every block of a list that was asked for has a def in the table. -/
theorem getBlockDefs_entry {G : Cfg} (hD : D.Spec G) {roots set : ℕ → Bool} :
    ∀ (blocks : List ℕ) (st : PhiState), (∀ b ∈ blocks, b < G.numBlocks) →
      st.Inv D.immDom G.numBlocks roots set base → ∀ i ∈ blocks, ∃ e,
        (blocks.foldl (fun st b => (st.getBlockDef D.immDom G.numBlocks b).1) st).ht i =
          some (.ssa e)
  | [], _, _, _, _, hi => absurd hi not_mem_nil
  | b :: blocks, st, hblocks, hinv, i, hi => by
    have hb : b < G.numBlocks := hblocks b mem_cons_self
    have hrest : ∀ c ∈ blocks, c < G.numBlocks := fun c hc => hblocks c (mem_cons_of_mem b hc)
    have hinv₁ := (getBlockDef_spec hD.lt hinv hb).1
    rcases mem_cons.mp hi with rfl | hi
    · obtain ⟨e, he⟩ := getBlockDef_entry hD.lt st hb
      exact ⟨e, (getBlockDefs_spec hD blocks _ hrest hinv₁).2.1.ssa _ _ he⟩
    · exact getBlockDefs_entry hD blocks _ hrest hinv₁ i hi

/-! ## The uses in a repaired block -/

/-- The builder has a def for every use of `x` that is not dominated. -/
def Asked (labels : List ℕ) (D : DomInfo) (x db : ℕ) (ht : ℕ → Option PhiEntry)
    (f : CfList (Block SsaInstr) ℕ) : Prop :=
  ∀ b ∈ f.blocks, ∀ i ∈ srcBlocks labels x b, D.blockDominates db i = false →
    ∃ e, ht i = some (.ssa e)

section

variable (hB : Built D (cfgOfEdges labels edges) db x base ht r)
include hB

/-- A source keeps its name where it is not a use of `x` that is not dominated, and is given what
stands for the root above its block there. -/
theorem Built.repairSrc_spec (hi : i < labels.length)
    (hasked : d = x → D.blockDominates db i = false → ∃ e, ht i = some (.ssa e)) :
    repairSrc D x db ht i d = d ∧ (d = x → D.blockDominates db i = true) ∨
      r.1.Stands (blockRoot labels edges D db i) (repairSrc D x db ht i d) := by
  by_cases hx : d = x ∧ D.blockDominates db i = false
  · obtain ⟨e, he⟩ := hasked hx.1 hx.2
    have hsrc : repairSrc D x db ht i d = e := by simp [repairSrc, hx.1, hx.2, he]
    rw [hsrc]
    exact .inr (hB.inv.copy i e hi (hB.ssa i e he))
  · refine .inl ⟨if_neg ?_, fun hd => ?_⟩
    · simpa using hx
    · simpa using not_and.mp hx hd

/-- A use in the repaired block is one from before, or its def stands for the root above it. -/
theorem Built.use_cases (hR : Repairable labels f x db base) (hasked : Asked labels D x db ht f)
    (hb : b ∈ f.blocks) (hi : i ∈ srcBlocks labels d (repairBlock labels D x db ht r b)) :
    i ∈ srcBlocks labels d b ∧ (d = x → D.blockDominates db i = true) ∨
      r.1.Stands (blockRoot labels edges D db i) d := by
  -- a source `e` of the block at `i` that is renamed to `d`
  have hsrc : ∀ {e}, i < labels.length → i ∈ srcBlocks labels e b → repairSrc D x db ht i e = d →
      i ∈ srcBlocks labels d b ∧ (d = x → D.blockDominates db i = true) ∨
        r.1.Stands (blockRoot labels edges D db i) d := by
    rintro e hlt hmem rfl
    refine (hB.repairSrc_spec hlt fun he => hasked b hb i (he ▸ hmem)).imp_left ?_
    rintro ⟨heq, hdom⟩
    rw [heq]
    exact ⟨hmem, hdom⟩
  rcases mem_srcBlocks.mp hi with ⟨φ, hφ, s, hs, hd, rfl⟩ | ⟨⟨j, hj, hd⟩, rfl⟩
  · simp only [repairBlock, insertBuilt, renameSrcs, mem_append, mem_map, mem_filter] at hφ
    rcases hφ with ⟨φ, ⟨hφ, -⟩, rfl⟩ | ⟨φ, hφ, rfl⟩ <;> obtain ⟨s₀, hs₀, rfl⟩ := mem_map.mp hs
    · have hidx : labels.idxOf (labels.getD s₀.1 0) = s₀.1 := by
        rw [getD_eq (hB.src_lt hφ hs₀), hR.nodup.idxOf_getElem]
      dsimp only at hd ⊢
      rw [hidx, ← hd]
      exact .inr ((hB.built φ hφ).srcs s₀ hs₀)
    · exact hsrc (idxOf_lt_length_of_mem (hR.preds b hb φ hφ s₀ hs₀))
        (mem_srcBlocks.mpr (.inl ⟨φ, hφ, s₀, hs₀, rfl, rfl⟩)) hd
  · rcases mem_append.mp hj with hj | hj
    · obtain ⟨-, u, -, rfl⟩ := mem_undefs hj
      cases hd
    · obtain ⟨j₀, hj₀, rfl⟩ := mem_map.mp hj
      obtain ⟨e, he, hd⟩ := mem_map.mp hd
      exact hsrc (idxOf_lt_length_of_mem (hR.block b hb))
        (mem_srcBlocks.mpr (.inr ⟨⟨j₀, hj₀, he⟩, rfl⟩)) hd

/-- The def that stands for a root is that of the root's block. -/
theorem Built.block_of_stands (hR : Repairable labels f x db base) (hb : b ∈ f.blocks) {a : ℕ}
    (hroot : repairRoots D (cfgOfEdges labels edges) db a = true)
    (hd : d ∈ (repairBlock labels D x db ht r b).defs) (hs : r.1.ht a = some (.ssa d)) :
    labels.idxOf b.label = a := by
  have hold : a = db → d = x := by
    rintro rfl
    simpa using hs.symm.trans hB.set
  have hnew := fun hne : a ≠ db => hB.inv.fresh a d hroot (by simpa using hne) hs
  rcases mem_defs_repairBlock hd with hmem | ⟨φ, hφ, hblock, rfl⟩ | ⟨hu, -⟩
  · have hlt := hR.def_lt hb hmem
    have heq : a = db := by
      by_contra hne
      have := (hnew hne).1
      omega
    rw [heq]
    exact hR.def_block b hb (hold heq ▸ hmem)
  · have hne : a ≠ db := by
      intro heq
      have := (hB.dest_new hφ).1
      have := hR.lt
      have := hold heq
      omega
    have hspec := hB.built φ hφ
    rw [← hblock]
    exact (hnew hne).2.2.2 φ.block hspec.root.1 hspec.root.2 hspec.dest
  · by_cases heq : a = db
    · have := (hB.inv.undef d hu).1
      have := hR.lt
      have := hold heq
      omega
    · exact absurd hu (hnew heq).2.2.1

/-- The def that stands for the root above a reachable block dominates the block. -/
theorem Built.dominates_of_stands (hR : Repairable labels f x db base)
    (hG : RepairGraph labels edges D) (hb : b ∈ f.blocks)
    (hd : d ∈ (repairBlock labels D x db ht r b).defs)
    (hi : Reachable (cfgOfEdges labels edges).Edge 0 i)
    (hs : r.1.Stands (blockRoot labels edges D db i) d) :
    Dominates (cfgOfEdges labels edges).Edge 0 (labels.idxOf b.label) i := by
  apply dominates_of_above hG.dom.tree
  cases hroot : blockRoot labels edges D db i with
  | some a =>
    rw [hroot] at hs
    obtain ⟨hmem, habove⟩ := nearest_spec hroot
    rwa [hB.block_of_stands hR hb hmem hd hs]
  | none =>
    -- an undef, which is not the def of a phi, nor is it an old one
    rw [hroot] at hs
    have hu : d ∈ r.1.undefs := hs
    have hge := (hB.inv.undef d hu).1
    rcases mem_defs_repairBlock hd with hd | ⟨φ, hφ, -, rfl⟩ | ⟨-, hzero⟩
    · have := hR.def_lt hb hd
      omega
    · exact absurd hu (hB.dest_new hφ).2.2
    · rw [hzero]
      exact hG.dom.start_above i hi

end

/-! ## The loop over the defs -/

/-- Every def that is not left to repair dominates its uses, as far as the blocks can be reached. -/
def UsesDominated (G : Cfg) (labels : List ℕ) (g : CfList (Block SsaInstr) ℕ) (left : List ℕ) :
    Prop :=
  ∀ b ∈ g.blocks, ∀ d ∈ b.defs, d ∉ left → ∀ b' ∈ g.blocks, ∀ i ∈ srcBlocks labels d b',
    Reachable G.Edge 0 (labels.idxOf b.label) → Reachable G.Edge 0 i →
      Dominates G.Edge 0 (labels.idxOf b.label) i

/-- A use that is kept is dominated: that of `x` passes the test, the others were dominated. -/
theorem UsesDominated.kept {left : List ℕ} (hR : Repairable labels g x db base)
    (hG : RepairGraph labels edges D)
    (hu : UsesDominated (cfgOfEdges labels edges) labels g (x :: left)) (hb : b ∈ g.blocks)
    (hd : d ∈ b.defs) (hleft : d ∉ left) {b' : Block SsaInstr} (hb' : b' ∈ g.blocks)
    (hi : i ∈ srcBlocks labels d b') (hdom : d = x → D.blockDominates db i = true)
    (hreach : Reachable (cfgOfEdges labels edges).Edge 0 (labels.idxOf b.label))
    (hreach' : Reachable (cfgOfEdges labels edges).Edge 0 i) :
    Dominates (cfgOfEdges labels edges).Edge 0 (labels.idxOf b.label) i := by
  by_cases hdx : d = x
  · obtain rfl := hdx
    rw [hR.def_block b hb hd] at hreach ⊢
    exact dominates_of_above hG.dom.tree ((hG.dom.dominates db i hreach hreach').mp (hdom rfl))
  · exact hu b hb d hd (by simp [hdx, hleft]) b' hb' i hi hreach hreach'

/-- The uses after the blocks have been repaired. -/
theorem UsesDominated.map {left : List ℕ} (hR : Repairable labels g x db base)
    (hG : RepairGraph labels edges D) (hB : Built D (cfgOfEdges labels edges) db x base ht r)
    (hasked : Asked labels D x db ht g)
    (hu : UsesDominated (cfgOfEdges labels edges) labels g (x :: left)) :
    UsesDominated (cfgOfEdges labels edges) labels (g.map (repairBlock labels D x db ht r) id)
      left := by
  intro b hb d hd hleft b' hb' i hi hreach hreach'
  rw [blocks_map, mem_map] at hb hb'
  obtain ⟨b₀, hb₀, rfl⟩ := hb
  obtain ⟨b₁, hb₁, rfl⟩ := hb'
  rcases hB.use_cases hR hasked hb₁ hi with ⟨hi, hdom⟩ | hs
  · refine hu.kept (b := b₀) hR hG hb₀ ?_ hleft hb₁ hi hdom hreach hreach'
    -- a use from before is not of a new def
    have hname := hR.use_name_lt hb₁ hi
    exact (hB.defs_repairBlock hd).resolve_right (by omega)
  · exact hB.dominates_of_stands (b := b₀) hR hG hb₀ hd hreach' hs

section

variable (hf : SsaForm f) (hG : RepairGraph (f.labels label) (links label jump f) D)
  (hbase : ∀ d ∈ ssaNames f, d < base)
include hf hG hbase

/-- The repair of one def. -/
theorem UsesDominated.repairSsaDef {left : List ℕ} (h : Repaired f base g next)
    (hx : (x, db) ∈ defBlocks f)
    (hu : UsesDominated (cfgOf label jump f) (f.labels label) g (x :: left)) :
    UsesDominated (cfgOf label jump f) (f.labels label)
      (Nir.repairSsaDef D (cfgOf label jump f) (f.labels label) g next x db).1 left := by
  have hR := h.repairable hf hbase hx
  have hinvalid : ∀ b ∈ g.blocks, ∀ i ∈ srcBlocks (f.labels label) x b,
      D.blockDominates db i = false → i ∈ (g.blocks.flatMap (srcBlocks (f.labels label) x)).filter
        fun i => !D.blockDominates db i := by
    intro b hb i hi hdom
    exact mem_filter.mpr ⟨mem_flatMap.mpr ⟨b, hb, hi⟩, by simpa using hdom⟩
  simp only [Nir.repairSsaDef]
  split_ifs with hempty
  · rw [isEmpty_iff.mp hempty] at hinvalid
    intro b hb d hd hleft b' hb' i hi
    refine hu.kept hR hG hb hd hleft hb' hi ?_
    rintro rfl
    by_contra hdom
    exact not_mem_nil (hinvalid b' hb' i hi (by simpa using hdom))
  · have hlt := hR.invalid_lt D
    refine hu.map hR hG (buildUses_built x next (fun b p hp => (mem_preds_cfgOfEdges.mp hp).1)
      hG.dom hR.db_lt hlt) fun b hb i hi hdom => ?_
    exact getBlockDefs_entry hG.dom _ _ hlt (repair_inv_start D x next hR.db_lt) i
      (hinvalid b hb i hi hdom)

/-- The repair of several defs. -/
theorem UsesDominated.repairSsaDefs : ∀ (defs : List (ℕ × ℕ))
    (r : CfList (Block SsaInstr) ℕ × ℕ), (∀ x ∈ defs, x ∈ defBlocks f) → Repaired f base r.1 r.2 →
      UsesDominated (cfgOf label jump f) (f.labels label) r.1 (defs.map Prod.fst) →
        UsesDominated (cfgOf label jump f) (f.labels label)
          (Nir.repairSsaDefs D (cfgOf label jump f) (f.labels label) defs r).1 []
  | [], _, _, _, hu => hu
  | x :: defs, _, hdefs, h, hu =>
    UsesDominated.repairSsaDefs defs _ (fun y hy => hdefs y (mem_cons_of_mem x hy))
      (h.repairSsaDef hf hG hbase (hdefs x mem_cons_self))
      (hu.repairSsaDef hf hG hbase h (hdefs x mem_cons_self))

end

/-- After `nir_repair_ssa_impl` every def of a block that can be reached dominates its uses in
blocks that can be reached, where the block of the source of a phi is its predecessor. -/
theorem repairSsaImpl_uses_dominated (hf : SsaForm f) : ∃ g, repairSsaImpl f = some g ∧
    UsesDominated (cfgOf label jump g) (g.labels label) g [] := by
  obtain ⟨D, hcalc, hG⟩ := repairGraph_of_nodup hf.nodup
  have hstart : UsesDominated (cfgOf label jump f) (f.labels label) f
      ((defBlocks f).map Prod.fst) := by
    intro b hb d hd hleft
    refine absurd (mem_map.mpr ⟨(d, (f.labels label).idxOf b.label), ?_, rfl⟩) hleft
    exact mem_flatMap.mpr ⟨b, hb, mem_map.mpr ⟨d, hd, rfl⟩⟩
  have hbase : ∀ d ∈ ssaNames f, d < freshName (ssaNames f) := fun d hd => lt_freshName hd
  obtain ⟨g, next, hg, h⟩ := repairSsaImpl_repaired hf
  have hu := hstart.repairSsaDefs hf hG hbase (defBlocks f) (f, freshName (ssaNames f))
    (fun _ h => h) (Repaired.refl hf hbase)
  have heq : (Nir.repairSsaDefs D (cfgOf label jump f) (f.labels label) (defBlocks f)
      (f, freshName (ssaNames f))).1 = g := by
    simpa only [repairSsaImpl, hcalc, Option.map_some, Option.some.injEq] using hg
  have hcfg : cfgOf label jump g = cfgOf label jump f := by
    rw [cfgOf, cfgOf, h.labels_eq, h.links_eq]
  rw [heq, ← hcfg, ← h.labels_eq] at hu
  exact ⟨g, hg, hu⟩

/-- The def that is used behind the if, and the phi and the undef that the repair adds for it. -/
theorem repairSsaImpl_uses_dominated_behindIf : ∃ g, repairSsaImpl usedBehindIf = some g ∧
    UsesDominated (cfgOf label jump g) (g.labels label) g [] :=
  repairSsaImpl_uses_dominated ⟨by decide, by decide, by decide⟩

end Mesa3D.Nir
