import Mesa3D.Nir.PhiBuilder

/-!
# What the phi builder returns

The `roots` of a value are the blocks that are marked and those that the client has set. The def
that the builder returns for a block is that of the next root above it (`getBlockDef_spec`), and the
sources of its phis are the defs of the roots above the predecessors (`finish_spec`). The two ends
of an edge have the same root above them, unless the edge leads to a root (`root_eq_of_edge`).
-/

namespace Mesa3D.Nir

open Mesa3D.Graph PhiState List

/-- The root above a block. -/
def rootOf (dom : ImmDom) (n : ℕ) (roots : ℕ → Bool) (b : ℕ) : Option ℕ := nearest dom roots n b

/-- The def stands for the root: it is the entry of the root, or an undef where there is no root. -/
def PhiState.Stands (st : PhiState) (root : Option ℕ) (d : ℕ) : Prop :=
  match root with
  | none => d ∈ st.undefs
  | some a => st.ht a = some (.ssa d)

/-- What holds of a value between the calls of its builder. `roots` are the blocks that are marked
or set, `set` those that are set, and `base` is the first def that the builder may create. -/
structure PhiState.Inv (dom : ImmDom) (n : ℕ) (roots set : ℕ → Bool) (base : ℕ) (st : PhiState) :
    Prop where
  /-- Every root has an entry. -/
  entry : ∀ a, roots a = true → (st.ht a).isSome
  /-- Only roots that are not set are marked. -/
  mark : ∀ a, st.ht a = some .needsPhi → roots a = true ∧ set a = false
  /-- Any other entry is that of the root above. -/
  copy : ∀ b d, b < n → st.ht b = some (.ssa d) → st.Stands (rootOf dom n roots b) d
  /-- The phis have defs of their own. -/
  fresh : ∀ a d, roots a = true → set a = false → st.ht a = some (.ssa d) →
    base ≤ d ∧ d < st.next ∧ d ∉ st.undefs ∧
      ∀ a', roots a' = true → set a' = false → st.ht a' = some (.ssa d) → a' = a
  /-- The undefs have defs of their own. -/
  undef : ∀ u ∈ st.undefs, base ≤ u ∧ u < st.next
  /-- Defs are handed out from `base` on. -/
  base_le : base ≤ st.next
  /-- The pending phis are entries of their blocks. -/
  pending : ∀ a d, (a, d) ∈ st.phis → roots a = true ∧ set a = false ∧ st.ht a = some (.ssa d)

/-- How a value changes: defs stay, and what is created is pending. -/
structure PhiState.Grows (roots set : ℕ → Bool) (st st' : PhiState) : Prop where
  /-- Defs stay. -/
  ssa : ∀ a d, st.ht a = some (.ssa d) → st'.ht a = some (.ssa d)
  /-- Undefs stay. -/
  undefs : ∀ u ∈ st.undefs, u ∈ st'.undefs
  /-- Defs are handed out in order. -/
  next : st.next ≤ st'.next
  /-- The pending phis stay. -/
  phis : ∀ x ∈ st.phis, x ∈ st'.phis
  /-- A mark that became a def is a pending phi. -/
  created : ∀ a d, roots a = true → set a = false → st'.ht a = some (.ssa d) →
    st.ht a = some (.ssa d) ∨ (a, d) ∈ st'.phis

section

variable {dom : ImmDom} {n : ℕ} {roots set : ℕ → Bool} {base : ℕ} {st st' st'' : PhiState}

/-- Nothing has changed. -/
theorem PhiState.Grows.refl : Grows roots set st st :=
  ⟨fun _ _ h => h, fun _ h => h, Nat.le_refl _, fun _ h => h, fun _ _ _ _ h => .inl h⟩

/-- Changes compose. -/
theorem PhiState.Grows.trans (h : Grows roots set st st')
    (h' : Grows roots set st' st'') : Grows roots set st st'' where
  ssa a d ha := h'.ssa a d (h.ssa a d ha)
  undefs u hu := h'.undefs u (h.undefs u hu)
  next := Nat.le_trans h.next h'.next
  phis x hx := h'.phis x (h.phis x hx)
  created a d hr hs ha := by
    rcases h'.created a d hr hs ha with ha | ha
    · rcases h.created a d hr hs ha with ha | ha
      · exact .inl ha
      · exact .inr (h'.phis _ ha)
    · exact .inr ha

variable {d b : ℕ}

/-- The phis that are pending, and those that may still be created. -/
def PhiState.work (n : ℕ) (st : PhiState) : ℕ :=
  st.phis.length + ((range n).filter fun b => st.ht b == some .needsPhi).length

/-- What stands for a root goes on to do so. -/
theorem PhiState.Grows.stands (h : Grows roots set st st') {root : Option ℕ}
    (hd : st.Stands root d) : st'.Stands root d := by
  cases root with
  | none => exact h.undefs d hd
  | some a => exact h.ssa a d hd

/-- The root above a root is itself. -/
theorem rootOf_root {a : ℕ} (ha : roots a = true) (hn : a < n) : rootOf dom n roots a = some a := by
  obtain ⟨k, rfl⟩ : ∃ k, n = k + 1 := ⟨n - 1, by omega⟩
  exact nearest_of_mem ha

section

variable (hlt : ∀ b d, dom b = some d → d < b)
include hlt

/-- The crawl up the tree stops at the root above the block, or below it at a copy of its entry. -/
theorem rootOf_nearest (hinv : st.Inv dom n roots set base) (hb : b < n) :
    (nearest dom (fun b => (st.ht b).isSome) n b = none → rootOf dom n roots b = none) ∧
      ∀ c, nearest dom (fun b => (st.ht b).isSome) n b = some c →
        rootOf dom n roots b = rootOf dom n roots c := nearest_mono (h := id) hlt hinv.entry hb

/-- The stashed entries: an entry that was there before, or the given def for a block between the
given one and the next entry above. -/
theorem stash_spec : ∀ (k b : ℕ)
    (ht : ℕ → Option PhiEntry) (x : ℕ), (∀ e, ht x = some e → stash dom d k b ht x = some e) ∧
      (ht x = none → stash dom d k b ht x = none ∨ (stash dom d k b ht x = some (.ssa d) ∧
        Above dom x b ∧ ∀ y, Above dom x y → Above dom y b → ht y = none)) := by
  intro k
  induction k with
  | zero => intro b ht x; exact ⟨fun _ h => h, fun h => .inl h⟩
  | succ k ih =>
    intro b ht x
    simp only [stash]
    cases hb : ht b with
    | some e => exact ⟨fun _ h => h, fun h => .inl h⟩
    | none =>
      have hkeep : ∀ e, ht x = some e →
        (if x = b then some (PhiEntry.ssa d) else ht x) = some e := by
        intro e he
        rwa [if_neg (by rintro rfl; simp [hb] at he)]
      -- Nothing lies between a block and itself.
      have hself : ∀ y, Above dom b y → Above dom y b → ht y = none := fun y hby hyb => by
        rw [← Above.antisymm (h := id) hlt hby hyb, hb]
      cases hd : dom b with
      | none =>
        refine ⟨hkeep, fun hx => ?_⟩
        by_cases hxb : x = b
        · subst hxb
          exact .inr ⟨if_pos rfl, .refl, hself⟩
        · exact .inl (by simpa only [if_neg hxb] using hx)
      | some c =>
        obtain ⟨h₁, h₂⟩ := ih c (fun x => if x = b then some (.ssa d) else ht x) x
        refine ⟨fun e he => h₁ e (hkeep e he), fun hx => ?_⟩
        by_cases hxb : x = b
        · subst hxb
          exact .inr ⟨h₁ _ (if_pos rfl), .refl, hself⟩
        · rcases h₂ (by simpa only [if_neg hxb] using hx) with h | ⟨h, hxc, hfree⟩
          · exact .inl h
          · refine .inr ⟨h, .step hd hxc, fun y hxy hyb => ?_⟩
            by_cases hyb' : y = b
            · rw [hyb', hb]
            · simpa only [if_neg hyb'] using hfree y hxy (hyb.parent hd hyb')

/-- Stashing the def that stands for the root above a block keeps the invariant. -/
theorem stash_inv (hinv : st.Inv dom n roots set base) (hb : b < n)
    (hd : st.Stands (rootOf dom n roots b) d) :
    let st' := { st with ht := stash dom d n b st.ht }
    Inv dom n roots set base st' ∧ Grows roots set st st' ∧ st'.work n ≤ st.work n := by
  have hspec := fun x => stash_spec hlt (d := d) n b st.ht x
  -- The entries of roots do not change.
  have hroot : ∀ a, roots a = true → stash dom d n b st.ht a = st.ht a := by
    intro a ha
    obtain ⟨e, he⟩ := Option.isSome_iff_exists.mp (hinv.entry a ha)
    rw [(hspec a).1 e he, he]
  have hstands : ∀ r d', (∀ a, r = some a → roots a = true) → st.Stands r d' →
      Stands { st with ht := stash dom d n b st.ht } r d' := by
    intro r d' hr h
    cases r with
    | none => exact h
    | some a => exact (hroot a (hr a rfl)).trans h
  have hrootOf : ∀ x a, rootOf dom n roots x = some a → roots a = true := fun x a h =>
    (nearest_spec h).1
  -- No mark is stashed.
  have hmark : ∀ a, stash dom d n b st.ht a = some .needsPhi → st.ht a = some .needsPhi := by
    intro a ha
    cases hx : st.ht a with
    | none => rcases (hspec a).2 hx with h | ⟨h, -⟩ <;> simp [h] at ha
    | some e => rw [← ha, (hspec a).1 e hx]
  refine ⟨⟨?_, fun a ha => hinv.mark a (hmark a ha), ?_, ?_, hinv.undef, hinv.base_le, ?_⟩,
    ⟨?_, fun _ h => h, Nat.le_refl _, fun _ h => h, ?_⟩, ?_⟩
  · intro a ha
    simpa only [hroot a ha] using hinv.entry a ha
  · intro x d' hx hd'
    dsimp only at hd'
    cases hxe : st.ht x with
    | some e =>
      rw [(hspec x).1 e hxe] at hd'
      exact hstands _ _ (hrootOf x) (hinv.copy x d' hx (hxe.trans hd'))
    | none =>
      rcases (hspec x).2 hxe with h | ⟨h, hxb, hfree⟩
      · simp [h] at hd'
      · -- The crawl from the block passes the stashed one on its way to the root.
        have heq : rootOf dom n roots b = rootOf dom n roots x := by
          refine nearest_eq_of_above (h := id) hlt hb hxb fun y hxy hyb _ => ?_
          by_contra hy
          have := hinv.entry y (by simpa using hy)
          simp [hfree y hxy hyb] at this
        simp only [h, Option.some.injEq, PhiEntry.ssa.injEq] at hd'
        rw [← hd', ← heq]
        exact hstands _ _ (hrootOf b) hd
  · intro a d' hr hs ha
    obtain ⟨h₁, h₂, h₃, h₄⟩ := hinv.fresh a d' hr hs ((hroot a hr).symm.trans ha)
    exact ⟨h₁, h₂, h₃, fun a' hr' hs' ha' => h₄ a' hr' hs' ((hroot a' hr').symm.trans ha')⟩
  · intro a d' hmem
    obtain ⟨hr, hs, ha⟩ := hinv.pending a d' hmem
    exact ⟨hr, hs, (hroot a hr).trans ha⟩
  · intro a d' ha
    exact (hspec a).1 _ ha
  · intro a d' hr _ ha
    exact .inl ((hroot a hr).symm.trans ha)
  · refine Nat.add_le_add_left (monotone_filter_right _ fun a ha => ?_).length_le _
    exact beq_iff_eq.mpr (hmark a (beq_iff_eq.mp ha))

/-- The def that `nir_phi_builder_value_get_block_def` finds or creates stands for the root above
the block, and there is no more left to do. -/
theorem findDef_spec (hinv : st.Inv dom n roots set base) (hb : b < n) :
    let r := st.findDef dom n b
    r.1.Inv dom n roots set base ∧ Grows roots set st r.1 ∧ r.1.Stands (rootOf dom n roots b) r.2 ∧
      r.1.work n ≤ st.work n := by
  obtain ⟨hnone, hsome⟩ := rootOf_nearest hlt hinv hb
  unfold findDef
  cases hnear : nearest dom (fun b => (st.ht b).isSome) n b with
  | none =>
    -- No root: a new undef.
    simp only
    rw [hnone hnear]
    have hgrows : Grows roots set st
        { st with next := st.next + 1, undefs := st.undefs ++ [st.next] } :=
      ⟨fun _ _ h => h, fun u hu => by simp [hu], Nat.le_succ _, fun _ h => h,
        fun _ _ _ _ h => .inl h⟩
    refine ⟨⟨hinv.entry, hinv.mark, ?_, ?_, ?_, ?_, hinv.pending⟩, hgrows, by
      simp [Stands], Nat.le_refl _⟩
    · exact fun x d hx hd => hgrows.stands (hinv.copy x d hx hd)
    · intro a d hr hs ha
      obtain ⟨h₁, h₂, h₃, h₄⟩ := hinv.fresh a d hr hs ha
      refine ⟨h₁, by simp only; omega, ?_, h₄⟩
      simp only [mem_append, mem_singleton, not_or]
      exact ⟨h₃, by omega⟩
    · intro u hu
      have hbase := hinv.base_le
      simp only [mem_append, mem_singleton] at hu ⊢
      rcases hu with hu | rfl
      · have := hinv.undef u hu
        omega
      · omega
    · have := hinv.base_le
      simp only
      omega
  | some a =>
    have hroot := hsome a hnear
    obtain ⟨hset, habove⟩ := nearest_spec hnear
    have han : a < n := Nat.lt_of_le_of_lt (habove.height_le (h := id) hlt) hb
    rw [hroot]
    cases he : st.ht a with
    | none => simp [he] at hset
    | some e =>
      cases e with
      | ssa d =>
        simp only [he]
        exact ⟨hinv, .refl, hinv.copy a d han he, Nat.le_refl _⟩
      | needsPhi =>
        -- A mark: a new phi.
        obtain ⟨hra, hsa⟩ := hinv.mark a he
        rw [rootOf_root hra han]
        simp only [he]
        have hne : ∀ x d, st.ht x = some (.ssa d) → x ≠ a := by
          rintro x d hx rfl
          simp [he] at hx
        have hentry : ∀ x e, (if x = a then some (PhiEntry.ssa st.next) else st.ht x) = some e →
            x = a ∧ e = .ssa st.next ∨ st.ht x = some e := by
          intro x e hx
          by_cases hxa : x = a
          · rw [if_pos hxa, Option.some.injEq] at hx
            exact .inl ⟨hxa, hx.symm⟩
          · exact .inr (by rwa [if_neg hxa] at hx)
        have hold : ∀ {x d}, roots x = true → set x = false →
          st.ht x = some (.ssa d) → d ≠ st.next :=
          fun hr hs hx => Nat.ne_of_lt (hinv.fresh _ _ hr hs hx).2.1
        have hgrows : Grows roots set st
            { st with
              ht := fun b => if b = a then some (.ssa st.next) else st.ht b
              phis := st.phis ++ [(a, st.next)]
              next := st.next + 1 } := by
          refine ⟨fun x d hx => ?_, fun _ h => h, Nat.le_succ _, fun x hx => by simp [hx],
            fun x d _ _ hx => ?_⟩
          · simpa only [if_neg (hne x d hx)] using hx
          · rcases hentry x _ hx with ⟨rfl, hd⟩ | hx
            · exact .inr (by simp [PhiEntry.ssa.inj hd])
            · exact .inl hx
        refine ⟨⟨fun x hx => ?_, fun x hx => ?_, fun x d hx hd => ?_,
          fun x d hr hs hx => ?_, fun u hu => ?_,
          Nat.le_succ_of_le hinv.base_le, fun x d hmem => ?_⟩, hgrows, by simp [Stands], ?_⟩
        · by_cases hxa : x = a
          · simp [hxa]
          · simpa only [if_neg hxa] using hinv.entry x hx
        · rcases hentry x _ hx with ⟨-, h⟩ | hx
          · cases h
          · exact hinv.mark x hx
        · rcases hentry x _ hd with ⟨rfl, -⟩ | hd'
          · rw [rootOf_root hra hx]
            exact hd
          · exact hgrows.stands (hinv.copy x d hx hd')
        · rcases hentry x _ hx with ⟨rfl, hd⟩ | hx
          · cases hd
            refine ⟨hinv.base_le, Nat.lt_succ_self _, fun hu => Nat.lt_irrefl _ (hinv.undef _ hu).2,
              fun y hry hsy hy => ?_⟩
            rcases hentry y _ hy with ⟨hya, -⟩ | hy
            · exact hya
            · exact absurd rfl (hold hry hsy hy)
          · obtain ⟨h₁, h₂, h₃, h₄⟩ := hinv.fresh x d hr hs hx
            refine ⟨h₁, Nat.lt_succ_of_lt h₂, h₃, fun y hry hsy hy => ?_⟩
            rcases hentry y _ hy with ⟨-, hd⟩ | hy
            · exact absurd (PhiEntry.ssa.inj hd) (hold hr hs hx)
            · exact h₄ y hry hsy hy
        · exact ⟨(hinv.undef u hu).1, Nat.lt_succ_of_lt (hinv.undef u hu).2⟩
        · rcases mem_append.mp hmem with hmem | hmem
          · obtain ⟨hr, hs, hx⟩ := hinv.pending x d hmem
            exact ⟨hr, hs, hgrows.ssa x d hx⟩
          · simp only [mem_singleton, Prod.mk.injEq] at hmem
            obtain ⟨rfl, rfl⟩ := hmem
            exact ⟨hra, hsa, if_pos rfl⟩
        · -- The phi is pending and its mark is gone.
          have hmarks : (range n).filter (fun b =>
              (if b = a then some (PhiEntry.ssa st.next) else st.ht b) == some .needsPhi) =
              ((range n).filter fun b => st.ht b == some .needsPhi).erase a := by
            rw [Nodup.erase_eq_filter (nodup_range.filter _), filter_filter]
            refine filter_congr fun b _ => ?_
            by_cases hba : b = a <;> simp [hba]
          have hmem : a ∈ (range n).filter fun b => st.ht b == some .needsPhi := by simp [he, han]
          have hpos := length_pos_of_mem hmem
          simp only [work, hmarks, length_append, length_singleton, length_erase_of_mem hmem]
          omega

/-- `nir_phi_builder_value_get_block_def` returns the def of the root above the block. -/
theorem getBlockDef_spec (hinv : st.Inv dom n roots set base) (hb : b < n) :
    let r := st.getBlockDef dom n b
    r.1.Inv dom n roots set base ∧ Grows roots set st r.1 ∧ r.1.Stands (rootOf dom n roots b) r.2 ∧
      r.1.work n ≤ st.work n := by
  obtain ⟨hinv₁, hgrows₁, hstands, hwork₁⟩ := findDef_spec hlt hinv hb
  obtain ⟨hinv₂, hgrows₂, hwork₂⟩ := stash_inv hlt hinv₁ hb hstands
  exact ⟨hinv₂, hgrows₁.trans hgrows₂, hgrows₂.stands hstands, Nat.le_trans hwork₂ hwork₁⟩

end

/-! ## Filling in the phis -/

/-- The sources of a phi are the defs of the roots above the predecessors. -/
theorem fillSrcs_spec (hlt : ∀ b d, dom b = some d → d < b) : ∀ (ps : List ℕ) (st : PhiState),
    (∀ p ∈ ps, p < n) → st.Inv dom n roots set base →
      let r := fillSrcs dom n ps st
      r.1.Inv dom n roots set base ∧ Grows roots set st r.1 ∧
        r.1.work n ≤ st.work n ∧ r.2.map Prod.fst = ps ∧
        ∀ x ∈ r.2, r.1.Stands (rootOf dom n roots x.1) x.2 := by
  intro ps
  induction ps with
  | nil =>
    intro st _ hinv
    exact ⟨hinv, .refl, Nat.le_refl _, rfl, by simp [fillSrcs]⟩
  | cons p ps ih =>
    intro st hps hinv
    have hp : p < n := hps p (by simp)
    obtain ⟨hinv₁, hgrows₁, hstands, hwork₁⟩ := getBlockDef_spec hlt hinv hp
    obtain ⟨hinv₂, hgrows₂, hwork, hfst, hsrcs⟩ :=
      ih (st.getBlockDef dom n p).1 (fun q hq => hps q (by simp [hq])) hinv₁
    simp only [fillSrcs]
    refine ⟨hinv₂, hgrows₁.trans hgrows₂, Nat.le_trans hwork hwork₁, by simp [hfst],
      fun x hx => ?_⟩
    rcases mem_cons.mp hx with rfl | hx
    · exact hgrows₂.stands hstands
    · exact hsrcs x hx

/-- A filled-in phi of a value. -/
structure BuiltPhi.Spec (dom : ImmDom) (n : ℕ) (roots set : ℕ → Bool) (preds : ℕ → List ℕ)
    (st : PhiState) (φ : BuiltPhi) : Prop where
  /-- It stands in a marked block. -/
  root : roots φ.block = true ∧ set φ.block = false
  /-- Its def is the entry of the block. -/
  dest : st.ht φ.block = some (.ssa φ.dest)
  /-- It has one source for each predecessor. -/
  preds : φ.srcs.map Prod.fst = preds φ.block
  /-- The sources are the defs of the roots above the predecessors. -/
  srcs : ∀ x ∈ φ.srcs, st.Stands (rootOf dom n roots x.1) x.2

/-- What `nir_phi_builder_finish` makes of a value: its state then, and the phis. -/
structure Finished (dom : ImmDom) (n : ℕ) (roots set : ℕ → Bool) (base : ℕ) (preds : ℕ → List ℕ)
    (st : PhiState) (r : PhiState × List BuiltPhi) : Prop where
  /-- The invariant holds. -/
  inv : r.1.Inv dom n roots set base
  /-- Defs stay. -/
  ssa : ∀ a d, st.ht a = some (.ssa d) → r.1.ht a = some (.ssa d)
  /-- Undefs stay. -/
  undefs : ∀ u ∈ st.undefs, u ∈ r.1.undefs
  /-- The phis are filled in. -/
  built : ∀ φ ∈ r.2, φ.Spec dom n roots set preds r.1
  /-- Every pending phi is. -/
  pending : ∀ x ∈ st.phis, ∃ φ ∈ r.2, φ.block = x.1 ∧ φ.dest = x.2
  /-- And so is every phi that is created on the way. -/
  created : ∀ a d, roots a = true → set a = false → r.1.ht a = some (.ssa d) →
    st.ht a = some (.ssa d) ∨ ∃ φ ∈ r.2, φ.block = a ∧ φ.dest = d

/-- `nir_phi_builder_finish` fills in all phis of a value. -/
theorem finish_spec (hlt : ∀ b d, dom b = some d → d < b) {preds : ℕ → List ℕ}
    (hpreds : ∀ b, ∀ p ∈ preds b, p < n) : ∀ (k : ℕ) (st : PhiState),
      st.Inv dom n roots set base → st.work n ≤ k →
        Finished dom n roots set base preds st (finish preds dom n k st) := by
  intro k
  induction k with
  | zero =>
    intro st hinv hk
    have hnil : st.phis = [] := by
      simp only [work] at hk
      exact eq_nil_of_length_eq_zero (by omega)
    exact ⟨hinv, fun _ _ h => h, fun _ h => h, by simp [finish], by simp [hnil],
      fun _ _ _ _ h => .inl h⟩
  | succ k ih =>
    intro st hinv hk
    simp only [finish]
    cases hphis : st.phis with
    | nil =>
      exact ⟨hinv, fun _ _ h => h, fun _ h => h, by simp, by simp [hphis], fun _ _ _ _ h => .inl h⟩
    | cons x phis =>
      obtain ⟨b, d⟩ := x
      simp only
      have hinv₁ : Inv dom n roots set base { st with phis := phis } :=
        ⟨hinv.entry, hinv.mark, hinv.copy, hinv.fresh, hinv.undef, hinv.base_le,
          fun a e he => hinv.pending a e (by rw [hphis]; exact mem_cons_of_mem _ he)⟩
      obtain ⟨hinv₂, hgrows, hwork, hfst, hsrcs⟩ :=
        fillSrcs_spec hlt (preds b) { st with phis := phis } (hpreds b) hinv₁
      have hk' : (fillSrcs dom n (preds b) { st with phis := phis }).1.work n ≤ k := by
        simp only [work, hphis, length_cons] at hk hwork ⊢
        omega
      have hrec := ih _ hinv₂ hk'
      obtain ⟨hrb, hsb, hb⟩ := hinv.pending b d (by rw [hphis]; simp)
      refine ⟨hrec.inv, fun a e he => hrec.ssa a e (hgrows.ssa a e he),
        fun u hu => hrec.undefs u (hgrows.undefs u hu), fun φ hφ => ?_, fun x hx => ?_,
        fun a e hr hs he => ?_⟩
      · rcases mem_cons.mp hφ with rfl | hφ
        · refine ⟨⟨hrb, hsb⟩, hrec.ssa b d (hgrows.ssa b d hb), hfst, fun x hx => ?_⟩
          have := hsrcs x hx
          cases hroot : rootOf dom n roots x.1 with
          | none => rw [hroot] at this; exact hrec.undefs _ this
          | some a => rw [hroot] at this; exact hrec.ssa _ _ this
        · exact hrec.built φ hφ
      · rw [hphis] at hx
        rcases mem_cons.mp hx with rfl | hx
        · exact ⟨_, mem_cons_self, rfl, rfl⟩
        · obtain ⟨φ, hφ, h⟩ := hrec.pending x (hgrows.phis x hx)
          exact ⟨φ, mem_cons_of_mem _ hφ, h⟩
      · rcases hrec.created a e hr hs he with he | ⟨φ, hφ, h⟩
        · rcases hgrows.created a e hr hs he with he | he
          · exact .inl he
          · obtain ⟨φ, hφ, h⟩ := hrec.pending _ he
            exact .inr ⟨φ, mem_cons_of_mem _ hφ, h⟩
        · exact .inr ⟨φ, mem_cons_of_mem _ hφ, h⟩

/-! ## Roots and edges -/

/-- The marks contain the frontiers of the roots. -/
def MarksClosed (D : DomInfo) (roots marked : ℕ → Bool) : Prop :=
  ∀ a, roots a = true → ∀ q ∈ D.frontier a, marked q = true

section

variable {G : Cfg} {D : DomInfo} {marked : ℕ → Bool}

/-- An edge to a block that is not marked joins nothing: the root above its immediate dominator is
the root above the predecessor. -/
theorem root_immDom_eq_of_edge (hG : SourceOrdered G) (hD : D.Spec G)
    (hclosed : MarksClosed D roots marked) {p q : ℕ} (hp : Reachable G.Edge 0 p) (hE : G.Edge p q)
    (hq : q ≠ 0) (hmark : marked q = false) :
    ∃ d, D.immDom q = some d ∧
      rootOf D.immDom G.numBlocks roots d = rootOf D.immDom G.numBlocks roots p := by
  obtain ⟨d, hd, hdp⟩ := hD.tree.pred p q hp hE hq
  refine ⟨d, hd, (nearest_eq_of_above (h := id) hD.lt (hG.pred_lt q hE.1 p hE.2) hdp ?_).symm⟩
  intro r hdr hrp hne
  by_contra hr
  have := hclosed r (by simpa using hr) q (hD.frontier p q d r hp hE hd hdr hrp hne)
  simp [hmark] at this

/-- The two ends of an edge have the same root above them, unless the edge leads to a root. -/
theorem root_eq_of_edge (hG : SourceOrdered G) (hD : D.Spec G)
    (hclosed : MarksClosed D roots marked) (hsub : ∀ a, marked a = true → roots a = true) {p q : ℕ}
    (hp : Reachable G.Edge 0 p) (hE : G.Edge p q) (hq : q ≠ 0) (hroot : roots q = false) :
    rootOf D.immDom G.numBlocks roots q = rootOf D.immDom G.numBlocks roots p := by
  have hmark : marked q = false := by
    by_contra h
    simp [hsub q (by simpa using h)] at hroot
  obtain ⟨d, hd, heq⟩ := root_immDom_eq_of_edge hG hD hclosed hp hE hq hmark
  rw [← heq]
  exact nearest_of_not_mem (h := id) hD.lt hE.1 hroot hd

/-- The blocks that `nir_phi_builder_add_value` marks are closed under the frontiers of themselves
and of the blocks that the client sets. -/
theorem markPhis_marksClosed (hD : D.Spec G) {defs : List ℕ} (hnd : defs.Nodup)
    (hlt : ∀ b ∈ defs, b < G.numBlocks) :
    ∀ a, a ∈ defs ∨ a ∈ markPhis D.frontier G.numBlocks (defs, defs, []) →
      ∀ q ∈ D.frontier a, q ∈ markPhis D.frontier G.numBlocks (defs, defs, []) := by
  have hlen := length_le_of_nodup hnd hlt
  have hfront : ∀ r, ∀ q ∈ D.frontier r, q < G.numBlocks := fun r q hq => by
    obtain ⟨p, hE⟩ := hD.frontier_edge r q hq
    exact hE.1
  refine markPhis_closed hfront G.numBlocks (defs, defs, []) ?_ (by simp only; omega)
  exact ⟨hnd, hlt, fun _ h => h, by simp, fun b hb hb' => absurd hb hb'⟩

/-- The marked blocks have predecessors. -/
theorem markPhis_edge (hD : D.Spec G) (defs : List ℕ) :
    ∀ a ∈ markPhis D.frontier G.numBlocks (defs, defs, []), ∃ p, G.Edge p a :=
  markPhis_forall hD.frontier_edge _ _ (by simp)

end

end

end Mesa3D.Nir
