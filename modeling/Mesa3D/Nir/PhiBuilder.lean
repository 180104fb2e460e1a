import Mathlib.Data.List.Perm.Subperm
import Mesa3D.Nir.DomInfo

/-!
# The phi builder

`nir_phi_builder.c` turns a value that is set in several blocks into SSA form. A value keeps a table
with an entry for some of the blocks: an SSA def, or the mark `NEEDS_PHI` for the blocks of the
iterated dominance frontier of the blocks that set it. The def for a block is found by crawling up
the dominance tree to the next entry; a phi is created when the crawl ends at a mark.

Blocks are their indices. The blocks that have an entry for good, the marked ones and those that the
client has set, are the `roots` of the value, and `PhiState.Inv` says that an entry anywhere else is
a copy of the entry of its root, or an undef where there is none.
-/

namespace Mesa3D.Nir

open Mesa3D.Graph List

/-- An entry of the hash table of a `nir_phi_builder_value`. -/
inductive PhiEntry
  | needsPhi
  | ssa (def_ : ℕ)
  deriving DecidableEq, Repr

/-- A `nir_phi_builder_value`, with what its builder hands out. -/
structure PhiState where
  /-- `ht`. -/
  ht : ℕ → Option PhiEntry
  /-- `phis`: the created phis that are not filled in, as their block and their def. -/
  phis : List (ℕ × ℕ)
  /-- The next SSA def. -/
  next : ℕ
  /-- The created undefs. -/
  undefs : List ℕ

/-- One member of a dominance frontier, in the worklist loop of `nir_phi_builder_add_value`: the
list `W`, the blocks that have been on it (`work`), and the blocks that are marked. -/
def addFrontier (s : List ℕ × List ℕ × List ℕ) (next : ℕ) : List ℕ × List ℕ × List ℕ :=
  if s.2.2.contains next then s
  else if s.2.1.contains next then (s.1, s.2.1, s.2.2 ++ [next])
  else (s.1 ++ [next], s.2.1 ++ [next], s.2.2 ++ [next])

/-- The worklist loop of `nir_phi_builder_add_value`. The list holds at most the given number of
entries, and the result is the blocks that are marked. -/
def markPhis (frontier : ℕ → List ℕ) : ℕ → List ℕ × List ℕ × List ℕ → List ℕ
  | _, ([], _, marked) => marked
  | 0, (_ :: _, _, marked) => marked
  | k + 1, (cur :: W, work, marked) =>
    markPhis frontier k ((frontier cur).foldl addFrontier (W, work, marked))

/-- `nir_phi_builder_add_value`, for the blocks `defs`. -/
def addValue (D : DomInfo) (numBlocks : ℕ) (defs : List ℕ) (next : ℕ) : PhiState where
  ht b :=
    if (markPhis D.frontier numBlocks (defs, defs, [])).contains b then some .needsPhi else none
  phis := []
  next := next
  undefs := []

/-- `nir_phi_builder_value_set_block_def`. -/
def PhiState.setBlockDef (st : PhiState) (block d : ℕ) : PhiState :=
  { st with ht := fun b => if b = block then some (.ssa d) else st.ht b }

/-- The last loop of `nir_phi_builder_value_get_block_def`: stash the def in the blocks from the
given one up to the next entry. -/
def stash (dom : ImmDom) (d : ℕ) : ℕ → ℕ → (ℕ → Option PhiEntry) → ℕ → Option PhiEntry
  | 0, _, ht => ht
  | k + 1, b, ht =>
    match ht b with
    | some _ => ht
    | none =>
      let ht := fun x => if x = b then some (.ssa d) else ht x
      match dom b with
      | some c => stash dom d k c ht
      | none => ht

/-- The first part of `nir_phi_builder_value_get_block_def`: the def, with the undef or the phi that
has to be created for it. -/
def PhiState.findDef (st : PhiState) (dom : ImmDom) (numBlocks block : ℕ) : PhiState × ℕ :=
  match nearest dom (fun b => (st.ht b).isSome) numBlocks block with
  | none => ({ st with next := st.next + 1, undefs := st.undefs ++ [st.next] }, st.next)
  | some a =>
    match st.ht a with
    | some (.ssa d) => (st, d)
    | _ =>
      ({ st with
          ht := fun b => if b = a then some (.ssa st.next) else st.ht b
          phis := st.phis ++ [(a, st.next)]
          next := st.next + 1 }, st.next)

/-- `nir_phi_builder_value_get_block_def`. -/
def PhiState.getBlockDef (st : PhiState) (dom : ImmDom) (numBlocks block : ℕ) : PhiState × ℕ :=
  let r := st.findDef dom numBlocks block
  ({ r.1 with ht := stash dom r.2 numBlocks block r.1.ht }, r.2)

/-- The sources of a phi, one for each predecessor. -/
def PhiState.fillSrcs (dom : ImmDom) (numBlocks : ℕ) :
    List ℕ → PhiState → PhiState × List (ℕ × ℕ)
  | [], st => (st, [])
  | p :: ps, st =>
    let r := st.getBlockDef dom numBlocks p
    let r' := PhiState.fillSrcs dom numBlocks ps r.1
    (r'.1, (p, r.2) :: r'.2)

/-- A phi that is filled in: its block, its def, and its sources. -/
structure BuiltPhi where
  /-- The block. -/
  block : ℕ
  /-- The def. -/
  dest : ℕ
  /-- The predecessors and the defs that come from them. -/
  srcs : List (ℕ × ℕ)
  deriving DecidableEq, Repr

/-- `nir_phi_builder_finish` for one value, for at most the given number of phis. -/
def PhiState.finish (preds : ℕ → List ℕ) (dom : ImmDom) (numBlocks : ℕ) :
    ℕ → PhiState → PhiState × List BuiltPhi
  | 0, st => (st, [])
  | k + 1, st =>
    match st.phis with
    | [] => (st, [])
    | (b, d) :: phis =>
      let r := PhiState.fillSrcs dom numBlocks (preds b) { st with phis := phis }
      let r' := PhiState.finish preds dom numBlocks k r.1
      (r'.1, ⟨b, d, r.2⟩ :: r'.2)

/-! ## The marked blocks -/

section

variable {frontier : ℕ → List ℕ} {n : ℕ}

/-- The state of the worklist loop: the list and the blocks that have been on it are blocks without
repetition, and the frontiers of the blocks that have left the list are marked. -/
structure Marking (frontier : ℕ → List ℕ) (n : ℕ) (left : List ℕ) (s : List ℕ × List ℕ × List ℕ) :
    Prop where
  /-- No block is twice on the list. -/
  nodup : s.2.1.Nodup
  /-- Everything is a block. -/
  lt : ∀ b ∈ s.2.1, b < n
  /-- What is on the list has been on it. -/
  work : ∀ b ∈ s.1, b ∈ s.2.1
  /-- The marked blocks have been on the list. -/
  marked : ∀ b ∈ s.2.2, b ∈ s.2.1
  /-- A block that is not on the list any more has its frontier marked, up to what is `left` of the
  block at hand. -/
  closed : ∀ b ∈ s.2.1, b ∉ s.1 → ∀ q ∈ frontier b, q ∈ s.2.2 ∨ q ∈ left

/-- What one member of a frontier changes. -/
theorem addFrontier_cases (s : List ℕ × List ℕ × List ℕ) (q : ℕ) :
    (∀ b, b ∈ (addFrontier s q).2.2 ↔ b ∈ s.2.2 ∨ b = q) ∧
      ((q ∈ s.2.2 ∨ q ∈ s.2.1) ∧ (addFrontier s q).1 = s.1 ∧ (addFrontier s q).2.1 = s.2.1 ∨
        q ∉ s.2.1 ∧ (addFrontier s q).1 = s.1 ++ [q] ∧ (addFrontier s q).2.1 = s.2.1 ++ [q]) := by
  unfold addFrontier
  split_ifs <;> grind

/-- One member of a frontier is marked, and the marks are kept. -/
theorem Marking.addFrontier {s : List ℕ × List ℕ × List ℕ} {q : ℕ} {qs : List ℕ}
    (h : Marking frontier n (q :: qs) s) (hq : q < n) :
    Marking frontier n qs (Nir.addFrontier s q) ∧ (∀ b ∈ s.2.1, b ∈ (Nir.addFrontier s q).2.1) ∧
      (Nir.addFrontier s q).1.length + s.2.1.length =
        s.1.length + (Nir.addFrontier s q).2.1.length := by
  obtain ⟨hnd, hlt, hwork, hmarked, hclosed⟩ := h
  obtain ⟨hmark, hcases⟩ := addFrontier_cases s q
  have hleft : ∀ b ∈ s.2.1, b ∉ s.1 → ∀ x ∈ frontier b,
      x ∈ (Nir.addFrontier s q).2.2 ∨ x ∈ qs := by
    intro b hb hbW x hx
    rw [hmark]
    rcases hclosed b hb hbW x hx with hx | hx
    · exact .inl (.inl hx)
    · exact (mem_cons.1 hx).imp_left .inr
  rcases hcases with ⟨hold, hW, hs⟩ | ⟨hnew, hW, hs⟩
  · rw [hW, hs]
    refine ⟨⟨hs ▸ hnd, hs ▸ hlt, hW ▸ hs ▸ hwork, fun b hb => ?_, hW ▸ hs ▸ hleft⟩,
      fun b hb => hb, rfl⟩
    rw [hs]
    rcases (hmark b).1 hb with hb | rfl
    · exact hmarked b hb
    · exact hold.elim (hmarked b) id
  · rw [hW, hs]
    refine ⟨⟨?_, ?_, ?_, ?_, ?_⟩, fun b hb => mem_append_left _ hb, ?_⟩ <;> grind

/-- The loop over a frontier. -/
theorem marking_foldl : ∀ (qs : List ℕ) (s : List ℕ × List ℕ × List ℕ), (∀ q ∈ qs, q < n) →
    Marking frontier n qs s →
      Marking frontier n [] (qs.foldl addFrontier s) ∧
        (∀ b ∈ s.2.1, b ∈ (qs.foldl addFrontier s).2.1) ∧
        (qs.foldl addFrontier s).1.length + s.2.1.length =
          s.1.length + (qs.foldl addFrontier s).2.1.length := by
  intro qs
  induction qs with
  | nil => exact fun s _ h => ⟨h, fun b hb => hb, rfl⟩
  | cons q qs ih =>
    intro s hqs h
    obtain ⟨hstep, hsub, hlen⟩ := h.addFrontier (hqs q mem_cons_self)
    obtain ⟨hrest, hsub', hlen'⟩ := ih _ (fun x hx => hqs x (mem_cons_of_mem _ hx)) hstep
    exact ⟨hrest, fun b hb => hsub' b (hsub b hb), by rw [foldl_cons]; omega⟩

/-- A list of blocks without repetition is not longer than the number of blocks. -/
theorem length_le_of_nodup {l : List ℕ} (hnd : l.Nodup) (hlt : ∀ b ∈ l, b < n) : l.length ≤ n := by
  have := (subperm_of_subset hnd fun b hb => mem_range.mpr (hlt b hb)).length_le
  rwa [length_range] at this

/-- Everything that is marked is in some frontier. -/
theorem markPhis_forall {P : ℕ → Prop} (hP : ∀ b, ∀ q ∈ frontier b, P q) : ∀ (k : ℕ)
    (s : List ℕ × List ℕ × List ℕ), (∀ b ∈ s.2.2, P b) → ∀ b ∈ markPhis frontier k s, P b := by
  have hfold : ∀ (qs : List ℕ) (s : List ℕ × List ℕ × List ℕ), (∀ q ∈ qs, P q) →
      (∀ b ∈ s.2.2, P b) → ∀ b ∈ (qs.foldl addFrontier s).2.2, P b := by
    intro qs
    induction qs with
    | nil => exact fun s _ h => h
    | cons q qs ih =>
      intro s hqs h
      refine ih _ (fun x hx => hqs x (by simp [hx])) fun b hb => ?_
      rcases ((addFrontier_cases s q).1 b).1 hb with hb | rfl
      · exact h b hb
      · exact hqs b mem_cons_self
  intro k
  induction k with
  | zero =>
    rintro ⟨_ | ⟨cur, W⟩, work, marked⟩ h
    · exact h
    · exact h
  | succ k ih =>
    rintro ⟨_ | ⟨cur, W⟩, work, marked⟩ h
    · exact h
    · exact ih _ (hfold (frontier cur) _ (hP cur) h)

/-- At the end of the worklist the frontiers of all blocks that have been on it are marked. -/
theorem Marking.closed_of_nil {work marked : List ℕ}
    (h : Marking frontier n [] ([], work, marked)) :
    ∀ b, b ∈ work ∨ b ∈ marked → ∀ q ∈ frontier b, q ∈ marked := by
  rintro b (hb | hb) q hq
  · simpa using h.closed b hb (by simp) q hq
  · simpa using h.closed b (h.marked b hb) (by simp) q hq

/-- The worklist does not exceed the number of blocks, and leaves marked blocks that contain the
frontiers of the blocks that have been on it, themselves included. -/
theorem markPhis_closed (hfront : ∀ b, ∀ q ∈ frontier b, q < n) : ∀ (k : ℕ)
    (s : List ℕ × List ℕ × List ℕ), Marking frontier n [] s → s.1.length + (n - s.2.1.length) ≤ k →
      ∀ b, b ∈ s.2.1 ∨ b ∈ markPhis frontier k s → ∀ q ∈ frontier b, q ∈ markPhis frontier k s := by
  intro k
  induction k with
  | zero =>
    rintro ⟨W, work, marked⟩ h hk
    obtain rfl : W = [] := eq_nil_of_length_eq_zero (by simp only at hk; omega)
    exact h.closed_of_nil
  | succ k ih =>
    rintro ⟨W, work, marked⟩ h hk
    cases W with
    | nil => exact h.closed_of_nil
    | cons cur W =>
      simp only [markPhis]
      have hstart : Marking frontier n (frontier cur) (W, work, marked) := by
        refine ⟨h.nodup, h.lt, fun b hb => h.work b (by simp [hb]), h.marked, ?_⟩
        intro b hb hbW q hq
        by_cases hbc : b = cur
        · exact .inr (hbc ▸ hq)
        · have := h.closed b hb (by simp [hbc, hbW]) q hq
          simpa using Or.inl this
      obtain ⟨hmark, hsub, hlen⟩ := marking_foldl (frontier cur) _ (hfront cur) hstart
      have h₁ := length_le_of_nodup hmark.nodup hmark.lt
      have h₂ := length_le_of_nodup h.nodup h.lt
      simp only [length_cons] at hk h₂ hlen
      have hclosed := ih _ hmark (by omega)
      rintro b (hb | hb) q hq
      · exact hclosed b (.inl (hsub b hb)) q hq
      · exact hclosed b (.inr hb) q hq

end

end Mesa3D.Nir
