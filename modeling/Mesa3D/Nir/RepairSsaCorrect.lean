import Mesa3D.Nir.PhiBuilderSpec
import Mesa3D.Nir.RepairSsa

/-!
# Repairing SSA form preserves runs

The repair of one def `x` keeps the tree of the function, so the two functions run in lockstep.
After a block, the def that the phi builder has for it, if any, has the value that `x` has in the
original function (`Carries`). A phi takes it over from the predecessor, a block that is no root has
the same root above it as its predecessors, and the block of `x` itself has `x`. The values of all
defs of the original function are the same in both runs, also where a use is not dominated by its
def: there the value is the one that was written last, or undefined.
-/

namespace Mesa3D.Nir

open Structured Mesa3D.Graph Block
open PhiState (setBlockDef)
open CfList List

/-! ## The phi builder for one def -/

section

variable (D : DomInfo) (G : Cfg) (db : ℕ)

/-- The blocks that are marked for a def of the block `db`. -/
def repairMarks (a : ℕ) : Bool := (markPhis D.frontier G.numBlocks ([db], [db], [])).contains a

/-- The roots of the value of a def of the block `db`. -/
def repairRoots (a : ℕ) : Bool := repairMarks D G db a || a == db

/-- What the phi builder hands out for the def `x` of the block `db`, when it has filled in its
phis. The table at the time of the uses is `ht`. -/
structure Built (x base : ℕ) (ht : ℕ → Option PhiEntry) (r : PhiState × List BuiltPhi) : Prop where
  /-- The invariant holds. -/
  inv : r.1.Inv D.immDom G.numBlocks (repairRoots D G db) (· == db) base
  /-- The entry of the block of the def. -/
  set : r.1.ht db = some (.ssa x)
  /-- The defs that the uses were given are still there. -/
  ssa : ∀ a d, ht a = some (.ssa d) → r.1.ht a = some (.ssa d)
  /-- The phis are filled in. -/
  built : ∀ φ ∈ r.2, φ.Spec D.immDom G.numBlocks (repairRoots D G db) (· == db) G.preds r.1
  /-- There is a phi for every entry of a marked block. -/
  complete : ∀ a d, repairRoots D G db a = true → a ≠ db → r.1.ht a = some (.ssa d) →
    ∃ φ ∈ r.2, φ.block = a ∧ φ.dest = d

end

section

variable {D : DomInfo} {G : Cfg} {x db base : ℕ}

/-- The invariant of the phi builder when the def has been set in its block. -/
theorem repair_inv_start (D : DomInfo) (x base : ℕ) (hdb : db < G.numBlocks) :
    PhiState.Inv D.immDom G.numBlocks (repairRoots D G db) (· == db) base
      ((addValue D G.numBlocks [db] base).setBlockDef db x) := by
  have hentry : ∀ a d, ((addValue D G.numBlocks [db] base).setBlockDef db x).ht a = some (.ssa d) →
      a = db ∧ d = x := by
    intro a d h
    simp only [setBlockDef, addValue] at h
    split_ifs at h with hb
    · exact ⟨hb, by simpa using h.symm⟩
    · simp at h
  refine ⟨fun a ha => ?_, fun a ha => ?_, fun b d hb h => ?_, fun a d _ hs h => ?_, fun u hu => ?_,
    Nat.le_refl _, fun a d h => ?_⟩
  · simp only [setBlockDef, addValue]
    simp only [repairRoots, repairMarks, Bool.or_eq_true, beq_iff_eq] at ha
    by_cases hdb : a = db
    · simp [hdb]
    · simp only [if_neg hdb, ha.resolve_right hdb, if_true, Option.isSome_some]
  · simp only [setBlockDef, addValue] at ha
    split_ifs at ha with hne hm
    · simp at ha
    · exact ⟨by simp only [repairRoots, repairMarks, hm, Bool.true_or], by simpa using hne⟩
  · obtain ⟨rfl, rfl⟩ := hentry b d h
    rw [rootOf_root (by simp [repairRoots]) hb]
    simp [PhiState.Stands, setBlockDef]
  · simp [(hentry a d h).1] at hs
  · simp [setBlockDef, addValue] at hu
  · simp [setBlockDef, addValue] at h

/-- Asking for the def of each block of a list. -/
theorem getBlockDefs_spec (hD : D.Spec G) {roots set : ℕ → Bool} : ∀ (blocks : List ℕ)
    (st : PhiState), (∀ b ∈ blocks, b < G.numBlocks) → st.Inv D.immDom G.numBlocks roots set base →
      let st' := blocks.foldl (fun st b => (st.getBlockDef D.immDom G.numBlocks b).1) st
      st'.Inv D.immDom G.numBlocks roots set base ∧ PhiState.Grows roots set st st' ∧
        st'.work G.numBlocks ≤ st.work G.numBlocks
  | [], _, _, hinv => ⟨hinv, .refl, Nat.le_refl _⟩
  | b :: blocks, st, hlt, hinv => by
    have hb : b < G.numBlocks := hlt b (by simp)
    obtain ⟨hinv₁, hgrows₁, -, hwork₁⟩ := getBlockDef_spec hD.lt hinv hb
    obtain ⟨hinv₂, hgrows₂, hwork⟩ :=
      getBlockDefs_spec hD blocks _ (fun c hc => hlt c (by simp [hc])) hinv₁
    exact ⟨hinv₂, hgrows₁.trans hgrows₂, Nat.le_trans hwork hwork₁⟩

/-- What the phi builder makes of a def, when it has been asked for the given blocks. -/
theorem buildUses_built (x base : ℕ)
    (hpreds : ∀ b, ∀ p ∈ G.preds b, p < G.numBlocks) (hD : D.Spec G)
    (hdb : db < G.numBlocks) {blocks : List ℕ} (hblocks : ∀ b ∈ blocks, b < G.numBlocks) :
    Built D G db x base (buildUses D G x db base blocks).ht
      ((buildUses D G x db base blocks).finish G.preds D.immDom G.numBlocks G.numBlocks) := by
  obtain ⟨hinv, hgrows, hwork⟩ :=
    getBlockDefs_spec hD blocks _ hblocks (repair_inv_start D x base hdb)
  have hstart : ((addValue D G.numBlocks [db] base).setBlockDef db x).work G.numBlocks ≤
      G.numBlocks := by
    simp only [PhiState.work, setBlockDef, addValue, length_nil, Nat.zero_add]
    exact Nat.le_trans (List.length_filter_le _ _) (by simp)
  have hfin := finish_spec hD.lt hpreds G.numBlocks _ hinv (Nat.le_trans hwork hstart)
  refine ⟨hfin.inv, ?_, hfin.ssa, hfin.built, fun a d hr hne ha => ?_⟩
  · exact hfin.ssa _ _ (hgrows.ssa _ _ (by simp [setBlockDef]))
  · have hs : (a == db) = false := by simpa using hne
    rcases hfin.created a d hr hs ha with h | h
    · rcases hgrows.created a d hr hs h with h | h
      · simp only [setBlockDef, addValue, if_neg hne] at h
        split at h <;> simp at h
      · exact hfin.pending _ h
    · exact h

end

/-! ## One block -/

/-- The states of the original run and of the repaired one, where the root above the current block
is `root`. -/
structure Carries (W : SsaWorld) (x base : ℕ) (st : PhiState) (root : Option ℕ) (s s' : SsaState) :
    Prop where
  /-- The variables agree. -/
  vars : s'.vars = s.vars
  /-- The same instructions have been observed. -/
  trace : s'.trace = s.trace
  /-- The defs of the original function have the same values. -/
  env : ∀ d < base, s'.env d = s.env d
  /-- The undefs have no other value. -/
  undef : ∀ u ∈ st.undefs, s'.env u = W.undef
  /-- The def for the root has the value of `x`. -/
  value : ∀ d, st.Stands root d → s'.env d = s.env x

variable {i : SsaInstr} {p q d base next x db : ℕ} {b : Block SsaInstr} {e : ℕ × ℕ} {φ : BuiltPhi}
  {f g : CfList (Block SsaInstr) ℕ} {D : DomInfo}

section

variable {W : SsaWorld} {x base : ℕ} {st : PhiState} {root : Option ℕ} {s s' : SsaState}

/-- One instruction, with its operands renamed to what stands for them. -/
theorem Carries.instr (h : Carries W x base st root s s') (hx : x < base) {σ : ℕ → ℕ}
    (hσ : ∀ d ∈ i.srcs, d < base ∧ (σ d = d ∨ d = x ∧ st.Stands root (σ d)))
    (hdest : ∀ d, i.dest = some d → d < base) (hundef : ∀ u ∈ st.undefs, base ≤ u)
    (hkeep : ∀ d, st.Stands root d → d = x ∨ base ≤ d ∧ i.dest ≠ some x) :
    (SsaInstr.run W { i with srcs := i.srcs.map σ } s').2 = (i.run W s).2 ∧
      Carries W x base st root (i.run W s).1
        (SsaInstr.run W { i with srcs := i.srcs.map σ } s').1 := by
  have hsrcs : (i.srcs.map σ).map s'.env = i.srcs.map s.env := by
    rw [map_map]
    refine map_congr_left fun d hd => ?_
    obtain ⟨hlt, heq | ⟨rfl, hst⟩⟩ := hσ d hd
    · simp only [Function.comp_apply, heq, h.env d hlt]
    · exact h.value _ hst
  obtain ⟨dest, v, vars, trace, stop, hd, hrun, hrun'⟩ :=
    SsaInstr.run_same W i { i with srcs := i.srcs.map σ }
    rfl rfl hsrcs h.vars h.trace
  rw [hrun, hrun']
  have hlt : ∀ d, base ≤ d → dest ≠ some d := by
    rintro d hge rfl
    rcases hd with hd | hd
    · have := hdest d hd.symm
      omega
    · simp at hd
  refine ⟨rfl, rfl, rfl, fun d hd => Env.assign_congr dest v (h.env d hd), fun u hu => ?_,
    fun d hst => ?_⟩
  · simpa only [Env.assign_of_ne s'.env v (hlt u (hundef u hu))] using h.undef u hu
  · rcases hkeep d hst with rfl | ⟨hge, hne⟩
    · exact Env.assign_congr dest v (h.env _ hx)
    · have hx : dest ≠ some x := by
        rintro rfl
        rcases hd with hd | hd
        · exact hne hd.symm
        · simp at hd
      simp only [Env.assign_of_ne s'.env v (hlt d hge), Env.assign_of_ne s.env v hx]
      exact h.value d hst

/-- Undefs that have been executed before change nothing. -/
theorem runInstrs_undefs (us : List ℕ) {s : SsaState} (h : ∀ u ∈ us, s.env u = W.undef) :
    runInstrs (SsaInstr.run W) (us.map fun u => ⟨.undef, some u, []⟩) s = (s, false) := by
  induction us with
  | nil => rfl
  | cons u us ih =>
    have hset : s.env.set u W.undef = s.env := by
      funext d
      by_cases hd : d = u
      · rw [hd, Env.set_self, h u (by simp)]
      · exact Env.set_of_ne _ _ hd
    have hrun : SsaInstr.run W ⟨.undef, some u, []⟩ s = (s, false) := by
      simp only [SsaInstr.run, Env.assign, hset]
    simp only [map_cons, runInstrs, hrun]
    exact ih fun v hv => h v (by simp [hv])

end

/-- What the repair of the def `x` of the block `db` relies on. `base` is the next free def. -/
structure Repairable (labels : List ℕ) (f : CfList (Block SsaInstr) ℕ) (x db base : ℕ) : Prop where
  /-- The blocks have different names. -/
  nodup : labels.Nodup
  /-- These are the names of the blocks. -/
  block : ∀ b ∈ f.blocks, b.label ∈ labels
  /-- The sources of phis come from blocks. -/
  preds : ∀ b ∈ f.blocks, ∀ φ ∈ b.phis, ∀ e ∈ φ.srcs, e.1 ∈ labels
  /-- No new def is in use. -/
  names : ∀ b ∈ f.blocks, ∀ d ∈ b.names, d < base
  /-- Nor is the def to be repaired a new one. -/
  lt : x < base
  /-- It is defined in its block only. -/
  def_block : ∀ b ∈ f.blocks, x ∈ b.defs → labels.idxOf b.label = db
  /-- Its block is one of the function. -/
  db_lt : db < labels.length

/-- The graph of a function with its dominance information. -/
structure RepairGraph (labels : List ℕ) (edges : List (ℕ × ℕ)) (D : DomInfo) : Prop where
  /-- The graph is that of structured code. -/
  order : SourceOrdered (cfgOfEdges labels edges)
  /-- The dominance information is right. -/
  dom : D.Spec (cfgOfEdges labels edges)
  /-- No edge leads to the start block. -/
  start : ∀ p, ¬ (cfgOfEdges labels edges).Edge p 0

section

variable {W : SsaWorld} {labels : List ℕ} {edges : List (ℕ × ℕ)} {f : CfList (Block SsaInstr) ℕ}
  {D : DomInfo} {x db base : ℕ} {ht : ℕ → Option PhiEntry} {r : PhiState × List BuiltPhi}

/-- The root above a block. -/
def blockRoot (labels : List ℕ) (edges : List (ℕ × ℕ)) (D : DomInfo) (db q : ℕ) : Option ℕ :=
  rootOf D.immDom labels.length (repairRoots D (cfgOfEdges labels edges) db) q

/-- The root above the block that control comes from. -/
def rootAt (labels : List ℕ) (edges : List (ℕ × ℕ)) (D : DomInfo) (db p : ℕ) : Option ℕ :=
  if p ∈ labels then blockRoot labels edges D db (labels.idxOf p) else none

/-- The definition that reaches a labelled block. -/
theorem rootAt_of_mem (hp : p ∈ labels) :
    rootAt labels edges D db p = blockRoot labels edges D db (labels.idxOf p) := if_pos hp

/-- A root is above itself. -/
theorem blockRoot_root (h : repairRoots D (cfgOfEdges labels edges) db q = true)
    (hq : q < labels.length) : blockRoot labels edges D db q = some q := rootOf_root h hq

/-- The names in a block. -/
theorem mem_names : d ∈ b.names ↔
    d ∈ b.defs ∨ (∃ φ ∈ b.phis, ∃ e ∈ φ.srcs, e.2 = d) ∨ ∃ i ∈ b.instrs, d ∈ i.srcs := by
  simp [names]

section

variable (hR : Repairable labels f x db base) (hb : b ∈ f.blocks)
include hR hb

/-- A def that a block writes. -/
theorem Repairable.def_lt (hd : d ∈ b.defs) : d < base :=
  hR.names b hb d (mem_names.mpr (.inl hd))

/-- A source of a phi. -/
theorem Repairable.phiSrc_lt {φ : Phi} (hφ : φ ∈ b.phis) (he : e ∈ φ.srcs) : e.2 < base :=
  hR.names b hb _ (mem_names.mpr (.inr (.inl ⟨φ, hφ, e, he, rfl⟩)))

/-- A source of an instruction. -/
theorem Repairable.src_lt (hi : i ∈ b.instrs) (hd : d ∈ i.srcs) : d < base :=
  hR.names b hb d (mem_names.mpr (.inr (.inr ⟨i, hi, hd⟩)))

end

/-- The blocks of the uses of a def. -/
theorem mem_srcBlocks : q ∈ srcBlocks labels d b ↔
    (∃ φ ∈ b.phis, ∃ s ∈ φ.srcs, s.2 = d ∧ labels.idxOf s.1 = q) ∨
      (∃ i ∈ b.instrs, d ∈ i.srcs) ∧ labels.idxOf b.label = q := by
  simp only [srcBlocks, mem_append, mem_flatMap, mem_map, mem_filter, beq_iff_eq]
  grind

section

variable (hR : Repairable labels f x db base)
include hR

/-- A use of a def is at a block. -/
theorem Repairable.use_lt (hb : b ∈ f.blocks) (h : q ∈ srcBlocks labels d b) :
    q < labels.length := by
  rcases mem_srcBlocks.mp h with ⟨φ, hφ, s, hs, -, rfl⟩ | ⟨-, rfl⟩
  · exact idxOf_lt_length_of_mem (hR.preds b hb φ hφ s hs)
  · exact idxOf_lt_length_of_mem (hR.block b hb)

/-- A use is not of a new def. -/
theorem Repairable.use_name_lt (hb : b ∈ f.blocks) (h : q ∈ srcBlocks labels d b) : d < base := by
  rcases mem_srcBlocks.mp h with ⟨φ, hφ, s, hs, rfl, -⟩ | ⟨⟨i, hi, hd⟩, -⟩
  · exact hR.phiSrc_lt hb hφ hs
  · exact hR.src_lt hb hi hd

/-- The uses that are not dominated are at blocks. -/
theorem Repairable.invalid_lt (D : DomInfo) :
    ∀ q ∈ (f.blocks.flatMap (srcBlocks labels x)).filter fun i => !D.blockDominates db i,
      q < labels.length := by
  intro q hq
  obtain ⟨b, hb, hq⟩ := mem_flatMap.mp (mem_filter.mp hq).1
  exact hR.use_lt hb hq

end

/-- The repaired block. -/
def repairBlock (labels : List ℕ) (D : DomInfo) (x db : ℕ) (ht : ℕ → Option PhiEntry)
    (r : PhiState × List BuiltPhi) (b : Block SsaInstr) : Block SsaInstr :=
  insertBuilt labels r.2 r.1.undefs (renameSrcs labels (repairSrc D x db ht) b)

section

variable (labels : List ℕ) (D : DomInfo) (x db : ℕ) (ht : ℕ → Option PhiEntry)
  (r : PhiState × List BuiltPhi) (b : Block SsaInstr)

/-- It keeps its name. -/
theorem repairBlock_label : (repairBlock labels D x db ht r b).label = b.label := rfl

/-- And it keeps its jump. -/
theorem repairBlock_jump : (repairBlock labels D x db ht r b).jump = b.jump := rfl

end

/-- A block is entered along an edge, or it is the start block. -/
def Enters (labels : List ℕ) (edges : List (ℕ × ℕ)) (p q : ℕ) : Prop :=
  p ∈ labels ∧ (p, q) ∈ edges ∧ labels.idxOf q ≠ 0 ∨ p ∉ labels ∧ labels.idxOf q = 0

section

variable (hB : Built D (cfgOfEdges labels edges) db x base ht r)

include hB

/-- What stands for the root above a block is `x`, or a new def. The block of `x` has `x`. -/
theorem Built.stands_cases (hq : q < labels.length)
    (h : r.1.Stands (blockRoot labels edges D db q) d) :
    d = x ∨ base ≤ d ∧ d < r.1.next ∧ q ≠ db := by
  have hset : ∀ {e}, r.1.ht db = some (.ssa e) → e = x := fun he => by
    simpa using he.symm.trans hB.set
  by_cases hqdb : q = db
  · subst hqdb
    rw [blockRoot_root (by simp [repairRoots]) hq] at h
    exact .inl (hset h)
  cases hroot : blockRoot labels edges D db q with
  | none =>
    rw [hroot] at h
    exact .inr ⟨(hB.inv.undef d h).1, (hB.inv.undef d h).2, hqdb⟩
  | some a =>
    rw [hroot] at h
    by_cases hadb : a = db
    · subst hadb
      exact .inl (hset h)
    · obtain ⟨h₁, h₂, -⟩ := hB.inv.fresh a d (nearest_spec hroot).1 (by simpa using hadb) h
      exact .inr ⟨h₁, h₂, hqdb⟩

/-- A source keeps its name, or it is given what stands for the root above its block. -/
theorem Built.repairSrc_cases {i : ℕ} (hi : i < labels.length) (d : ℕ) :
    repairSrc D x db ht i d = d ∨ d = x ∧
      r.1.Stands (blockRoot labels edges D db i) (repairSrc D x db ht i d) := by
  unfold repairSrc
  split_ifs with hd
  · simp only [Bool.and_eq_true, decide_eq_true_eq] at hd
    cases he : ht i with
    | none => exact .inl rfl
    | some e =>
      cases e with
      | needsPhi => exact .inl rfl
      | ssa e => exact .inr ⟨hd.1, hB.inv.copy i e hi (hB.ssa i e he)⟩
  · exact .inl rfl

/-- The new phis of a block have new defs. -/
theorem Built.dest_new (hφ : φ ∈ r.2) : base ≤ φ.dest ∧ φ.dest < r.1.next ∧
    φ.dest ∉ r.1.undefs := by
  have hspec := hB.built φ hφ
  obtain ⟨h₁, h₂, h₃, -⟩ := hB.inv.fresh φ.block φ.dest hspec.root.1 hspec.root.2 hspec.dest
  exact ⟨h₁, h₂, h₃⟩

/-- The sources of a new phi are for blocks. -/
theorem Built.src_lt (hφ : φ ∈ r.2) (he : e ∈ φ.srcs) : e.1 < labels.length := by
  have hpred : e.1 ∈ (cfgOfEdges labels edges).preds φ.block := by
    rw [← (hB.built φ hφ).preds]
    exact mem_map.mpr ⟨e, he, rfl⟩
  exact (mem_preds_cfgOfEdges.mp hpred).1

/-- A new phi takes over the value of `x` from the predecessor. -/
theorem Built.phi_eval (hnd : labels.Nodup) (hp : p ∈ labels) (hφ : φ ∈ r.2)
    (hpred : labels.idxOf p ∈ (cfgOfEdges labels edges).preds φ.block) {s s' : SsaState}
    (h : Carries W x base r.1 (rootAt labels edges D db p) s s') :
    (φ.toPhi labels).eval p s'.env = s.env x := by
  have hspec := hB.built φ hφ
  have hname : labels.getD (labels.idxOf p) 0 = p := by
    rw [getD_eq (idxOf_lt_length_of_mem hp), getElem_idxOf]
  have hmem : p ∈ (φ.toPhi labels).srcs.map Prod.fst := by
    rw [← hspec.preds, mem_map] at hpred
    obtain ⟨e, he, heq⟩ := hpred
    simp only [BuiltPhi.toPhi, map_map, mem_map, Function.comp_apply]
    exact ⟨e, he, by rw [heq, hname]⟩
  obtain ⟨e, he⟩ := lookup_of_mem hmem
  have hsrc := mem_of_lookup he
  simp only [BuiltPhi.toPhi, mem_map, Prod.mk.injEq] at hsrc
  obtain ⟨⟨j, e'⟩, hj, hjp, rfl⟩ := hsrc
  -- The names of blocks are different, so the source is the one for the predecessor.
  have hidx : labels.idxOf p = j := by
    rw [← hjp, getD_eq (hB.src_lt hφ hj), hnd.idxOf_getElem]
  have hstands := hspec.srcs _ hj
  simp only [← hidx] at hstands
  simp only [Phi.eval, he]
  refine h.value _ ?_
  rw [rootAt_of_mem hp]
  exact hstands

end

/-- A block that is no root has the same root above it as the block that control comes from. -/
theorem rootAt_eq_of_enters (hG : RepairGraph labels edges D) (hdb : db < labels.length)
    (hq : q ∈ labels) (hE : Enters labels edges p q)
    (hreach : p ∈ labels → Reachable (cfgOfEdges labels edges).Edge 0 (labels.idxOf p))
    (hroot : repairRoots D (cfgOfEdges labels edges) db (labels.idxOf q) = false) :
    blockRoot labels edges D db (labels.idxOf q) = rootAt labels edges D db p := by
  rcases hE with ⟨hp, hpq, hne⟩ | ⟨hp, hzero⟩
  · rw [rootAt_of_mem hp]
    have hclosed : MarksClosed D (repairRoots D (cfgOfEdges labels edges) db)
        (repairMarks D (cfgOfEdges labels edges) db) := by
      intro a ha z hz
      have := markPhis_marksClosed hG.dom (nodup_singleton db)
        (by simpa [cfgOfEdges] using hdb) a (by
        simp only [repairRoots, repairMarks, Bool.or_eq_true, beq_iff_eq, contains_iff_mem] at ha
        simpa using ha.symm) z hz
      simpa only [repairMarks, contains_iff_mem] using this
    refine root_eq_of_edge hG.order hG.dom hclosed (fun a ha => ?_) (hreach hp)
      (edge_of_mem hp hq hpq) hne hroot
    simp only [repairRoots, ha, Bool.true_or]
  · -- There is nothing above the start block.
    rw [hzero] at hroot
    rw [rootAt, if_neg hp, hzero]
    cases hroot' : blockRoot labels edges D db 0 with
    | none => rfl
    | some a =>
      obtain ⟨ha, habove⟩ := nearest_spec hroot'
      have := habove.height_le (h := id) hG.dom.lt
      obtain rfl : a = 0 := by simpa using this
      exact absurd (hroot.symm.trans ha) Bool.false_ne_true

section

variable (hB : Built D (cfgOfEdges labels edges) db x base ht r)
  (hR : Repairable labels f x db base)

include hB hR

section

variable (hG : RepairGraph labels edges D) {b : Block SsaInstr} (hb : b ∈ f.blocks) {p : ℕ}
  (hE : Enters labels edges p b.label)
  (hreach : p ∈ labels → Reachable (cfgOfEdges labels edges).Edge 0
    (labels.idxOf p)) {s s' : SsaState}
  (h : Carries W x base r.1 (rootAt labels edges D db p) s s')

include hG hb hE hreach h

/-- The phis of a block. -/
theorem Built.phis : Carries W x base r.1 (blockRoot labels edges D db (labels.idxOf b.label))
    { s with env := evalPhis b.phis p s.env }
    { s' with env := evalPhis (repairBlock labels D x db ht r b).phis p s'.env } := by
  have hq : labels.idxOf b.label < labels.length := idxOf_lt_length_of_mem (hR.block b hb)
  -- The old defs are evaluated by the old phis.
  have hold : ∀ d < base, evalPhis (repairBlock labels D x db ht r b).phis p s'.env d =
      evalPhis b.phis p s.env d := by
    intro d hd
    have hnew : d ∉ ((r.2.filter fun φ => φ.block == labels.idxOf b.label).map
        (BuiltPhi.toPhi labels)).map Phi.dest := by
      simp only [map_map, mem_map, mem_filter, not_exists, not_and]
      rintro φ ⟨hφ, -⟩ rfl
      exact absurd (hB.dest_new hφ).1 (Nat.not_le.mpr hd)
    refine (evalPhis_append_of_not_mem hnew).trans ?_
    refine evalPhis_renamed (τ := fun i => repairSrc D x db ht
      (labels.idxOf i)) (fun φ hφ e he => ?_)
      (h.env d hd)
    have hp : p ∈ labels := hR.preds b hb φ hφ _ he
    rcases hB.repairSrc_cases (idxOf_lt_length_of_mem hp) e with heq | ⟨rfl, hst⟩
    · rw [heq, h.env e (hR.phiSrc_lt hb hφ he)]
    · exact h.value _ (by rwa [rootAt_of_mem hp])
  -- A new def that no new phi of the block defines has no phi in the block.
  have hother : ∀ d, base ≤ d → (∀ φ ∈ r.2, φ.block = labels.idxOf b.label → φ.dest ≠ d) →
      evalPhis (repairBlock labels D x db ht r b).phis p s'.env d = s'.env d := by
    intro d hd hnew
    refine evalPhis_of_not_mem fun hmem => ?_
    simp only [repairBlock, insertBuilt, renameSrcs, map_append, map_map, mem_append,
      mem_map, mem_filter, Function.comp_apply, beq_iff_eq] at hmem
    rcases hmem with ⟨φ, ⟨hφ, hblock⟩, hdest⟩ | ⟨φ, hφ, hdest⟩
    · exact hnew φ hφ hblock hdest
    · have := hR.def_lt hb (mem_append_left _ (mem_map.mpr ⟨φ, hφ, hdest⟩))
      omega
  refine ⟨h.vars, h.trace, hold, fun u hu => ?_, fun d hst => ?_⟩
  · exact (hother u (hB.inv.undef u hu).1 fun φ hφ _ hdest =>
      (hB.dest_new hφ).2.2 (hdest ▸ hu)).trans (h.undef u hu)
  · rcases hB.stands_cases hq hst with rfl | ⟨hge, -, hne⟩
    · exact hold _ hR.lt
    · have hx : evalPhis b.phis p s.env x = s.env x := by
        refine evalPhis_of_not_mem fun hmem => hne (hR.def_block b hb ?_)
        exact mem_append.mpr (.inl hmem)
      simp only [hx]
      cases hroot : repairRoots D (cfgOfEdges labels edges) db (labels.idxOf b.label) with
      | true =>
        -- A marked block: the phi.
        rw [blockRoot_root hroot hq] at hst
        obtain ⟨φ, hφ, hblock, hdest⟩ := hB.complete _ d hroot hne hst
        refine evalPhis_append_of_mem ⟨φ.toPhi labels, ?_, hdest⟩ fun ψ' hψ' hdest' => ?_
        · exact mem_map.mpr ⟨φ, mem_filter.mpr ⟨hφ, beq_iff_eq.mpr hblock⟩, rfl⟩
        · obtain ⟨ψ, hψ, rfl⟩ := mem_map.mp hψ'
          obtain ⟨hψ, hψb⟩ := mem_filter.mp hψ
          have hψb : ψ.block = labels.idxOf b.label := beq_iff_eq.mp hψb
          rcases hE with ⟨hp, hpq, -⟩ | ⟨-, hzero⟩
          · refine hB.phi_eval hR.nodup hp hψ ?_ h
            rw [hψb]
            exact (edge_of_mem hp (hR.block b hb) hpq).2
          · -- The start block has no predecessors, and is not marked.
            simp only [repairRoots, Bool.or_eq_true, beq_iff_eq, hne, or_false, repairMarks,
              contains_iff_mem] at hroot
            obtain ⟨p', hE'⟩ := markPhis_edge hG.dom [db] _ hroot
            exact absurd (hzero ▸ hE') (hG.start p')
      | false =>
        have hnone : ∀ φ ∈ r.2, φ.block ≠ labels.idxOf b.label := by
          intro φ hφ hblock
          have := (hB.built φ hφ).root.1
          rw [hblock, hroot] at this
          exact Bool.false_ne_true this
        rw [hother d hge fun φ hφ hblock _ => hnone φ hφ hblock]
        rw [rootAt_eq_of_enters hG hR.db_lt (hR.block b hb) hE hreach hroot] at hst
        exact h.value d hst

/-- The repaired block. -/
theorem Built.block :
    (runSsaBlock W (repairBlock labels D x db ht r b) p s').2 = (runSsaBlock W b p s).2 ∧
      Carries W x base r.1 (rootAt labels edges D db b.label) (runSsaBlock W b p s).1
        (runSsaBlock W (repairBlock labels D x db ht r b) p s').1 := by
  have hq : labels.idxOf b.label < labels.length := idxOf_lt_length_of_mem (hR.block b hb)
  have hphis := hB.phis hR hG hb hE hreach h
  have hundef : ∀ u ∈ r.1.undefs, base ≤ u := fun u hu => (hB.inv.undef u hu).1
  rw [rootAt_of_mem (hR.block b hb)]
  have hinstrs := runInstrs_rel (f := SsaInstr.run W) (g := SsaInstr.run W)
    (fun i => { i with srcs := i.srcs.map (repairSrc D x db ht (labels.idxOf b.label)) })
    (fun i hi s s' h => h.instr hR.lt (fun d hd => ⟨hR.src_lt hb hi hd, hB.repairSrc_cases hq d⟩)
      (fun d hd => hR.def_lt hb (mem_append_right _ (mem_filterMap.mpr ⟨i, hi, hd⟩)))
        hundef fun d hd => ?_) hphis
  · refine (hB.stands_cases hq hd).imp_right fun ⟨hge, _, hne⟩ => ⟨hge, fun hx => hne ?_⟩
    exact hR.def_block b hb (mem_append_right _ (mem_filterMap.mpr ⟨i, hi, hx⟩))
  · -- The new undefs of the start block have no effect.
    have hrun : runSsaBlock W (repairBlock labels D x db ht r b) p s' =
        runInstrs (SsaInstr.run W)
          (b.instrs.map fun i => { i with
            srcs := i.srcs.map (repairSrc D x db ht (labels.idxOf b.label)) })
          { s' with env := evalPhis (repairBlock labels D x db ht r b).phis p s'.env } := by
      unfold runSsaBlock
      refine runInstrs_append_of_false ?_
      split
      · exact runInstrs_undefs _ fun u hu => hphis.undef u (mem_reverse.mp hu)
      · rfl
    rw [hrun]
    exact hinstrs

end

omit hB hR in
/-- The relation between the states of the two runs where control leaves the block `p`. -/
def RepairRel (W : SsaWorld) (labels : List ℕ) (edges : List (ℕ × ℕ)) (D : DomInfo) (x db base : ℕ)
    (st : PhiState) (_ : Outcome) (p : ℕ) (s s' : SsaState) : Prop :=
  (p ∈ labels → Reachable (cfgOfEdges labels edges).Edge 0 (labels.idxOf p)) ∧
    Carries W x base st (rootAt labels edges D db p) s s'

/-- The repaired function simulates the original one. -/
theorem Built.simulation (hG : RepairGraph labels edges D) :
    Simulation (ssaMachine W) (ssaMachine W) (Enters labels edges)
      (fun b b' => b ∈ f.blocks ∧ b' = repairBlock labels D x db ht r b)
      (fun _ c c' => c < base ∧ c' = c) (RepairRel W labels edges D x db base r.1) where
  step b b' p s s' hrb hE hQ := by
    obtain ⟨hb, rfl⟩ := hrb
    obtain ⟨hreach, h⟩ := hQ
    obtain ⟨hstop, h'⟩ := hB.block hR hG hb hE hreach h
    refine ⟨rfl, ?_, fun hmem => ?_, h'⟩
    · simp only [Machine.step, ssaMachine, hstop]
      rfl
    · rcases hE with ⟨hp, hpq, -⟩ | ⟨-, hzero⟩
      · exact (hreach hp).step (edge_of_mem hp hmem hpq)
      · exact hzero ▸ Reachable.refl
  cond b c c' s s' hrc hQ := by
    obtain ⟨hc, rfl⟩ := hrc
    simp only [ssaMachine, hQ.2.env _ hc]
  brk _ _ _ h := h
  cont _ _ _ h := h
  timeout _ _ _ h := h

/-- What stands for a root is no later def than the next one. -/
theorem Built.stands_lt (hq : q < labels.length)
    (h : r.1.Stands (blockRoot labels edges D db q) d) :
    d < r.1.next := by
  rcases hB.stands_cases hq h with rfl | h
  · exact Nat.lt_of_lt_of_le hR.lt hB.inv.base_le
  · exact h.2.1

omit hB hR in
/-- The undefs at the top of the start block. -/
theorem mem_undefs {p : Prop} [Decidable p] {us : List ℕ}
    (h : i ∈ if p then us.reverse.map (fun u => (⟨.undef, some u, []⟩ : SsaInstr)) else []) :
    p ∧ ∃ u ∈ us, ⟨.undef, some u, []⟩ = i := by
  by_cases hp : p
  · rw [if_pos hp] at h
    obtain ⟨u, hu, hi⟩ := mem_map.mp h
    exact ⟨hp, u, mem_reverse.mp hu, hi⟩
  · rw [if_neg hp] at h
    simp at h

omit hB hR in
/-- The defs of the repaired block: the old ones, those of new phis, and the undefs in the start
block. -/
theorem mem_defs_repairBlock (hd : d ∈ (repairBlock labels D x db ht r b).defs) :
    d ∈ b.defs ∨ (∃ φ ∈ r.2, φ.block = labels.idxOf b.label ∧ φ.dest = d) ∨
      d ∈ r.1.undefs ∧ labels.idxOf b.label = 0 := by
  simp only [repairBlock, insertBuilt, renameSrcs, defs, map_append, map_map,
    filterMap_append, mem_append, mem_map, mem_filter, mem_filterMap, Function.comp_apply] at hd ⊢
  rcases hd with (⟨φ, ⟨hφ, hblock⟩, rfl⟩ | hd) | ⟨i, hi, hd⟩ | ⟨i, ⟨j, hj, rfl⟩, hd⟩
  · exact .inr (.inl ⟨φ, hφ, beq_iff_eq.mp hblock, rfl⟩)
  · exact .inl (.inl hd)
  · obtain ⟨hstart, u, hu, rfl⟩ := mem_undefs hi
    obtain rfl : u = d := by simpa using hd
    exact .inr (.inr ⟨hu, hstart⟩)
  · exact .inl (.inr ⟨j, hj, hd⟩)

omit hR in
/-- The repaired block has new defs besides the old ones. -/
theorem Built.defs_repairBlock (hd : d ∈ (repairBlock labels D x db ht r b).defs) :
    d ∈ b.defs ∨ base ≤ d ∧ d < r.1.next := by
  rcases mem_defs_repairBlock hd with hd | ⟨φ, hφ, -, rfl⟩ | ⟨hu, -⟩
  · exact .inl hd
  · exact .inr ⟨(hB.dest_new hφ).1, (hB.dest_new hφ).2.1⟩
  · exact .inr (hB.inv.undef d hu)

/-- The names in the repaired block are those from before, and new ones. -/
theorem Built.names_repairBlock (hb : b ∈ f.blocks)
    (hd : d ∈ (repairBlock labels D x db ht r b).names) : d < r.1.next := by
  have hle := hB.inv.base_le
  have hsrc : ∀ {i e}, i ∈ labels → e < base →
    repairSrc D x db ht (labels.idxOf i) e < r.1.next := by
    intro i e hi he
    have hi := idxOf_lt_length_of_mem hi
    rcases hB.repairSrc_cases hi e with heq | ⟨-, hst⟩
    · rw [heq]
      omega
    · exact hB.stands_lt hR hi hst
  rcases mem_names.mp hd with hd | ⟨φ, hφ, e, he, rfl⟩ | ⟨i, hi, hd⟩
  · rcases hB.defs_repairBlock hd with h | h
    · exact Nat.lt_of_lt_of_le (hR.def_lt hb h) hle
    · exact h.2
  · simp only [repairBlock, insertBuilt, renameSrcs, mem_append, mem_map, mem_filter] at hφ
    rcases hφ with ⟨φ, ⟨hφ, -⟩, rfl⟩ | ⟨φ, hφ, rfl⟩ <;> obtain ⟨s, hs, rfl⟩ := mem_map.mp he
    · exact hB.stands_lt hR (hB.src_lt hφ hs) ((hB.built φ hφ).srcs s hs)
    · exact hsrc (hR.preds b hb φ hφ s hs) (hR.phiSrc_lt hb hφ hs)
  · rcases mem_append.mp hi with hi | hi
    · obtain ⟨-, u, -, rfl⟩ := mem_undefs hi
      simp at hd
    · obtain ⟨j, hj, rfl⟩ := mem_map.mp hi
      obtain ⟨d, hd', rfl⟩ := mem_map.mp hd
      exact hsrc (hR.block b hb) (hR.src_lt hb hj hd')

/-- The sources of the phis of the repaired block come from blocks. -/
theorem Built.preds_repairBlock (hb : b ∈ f.blocks) {φ : Phi}
    (hφ : φ ∈ (repairBlock labels D x db ht r b).phis) (he : e ∈ φ.srcs) : e.1 ∈ labels := by
  simp only [repairBlock, insertBuilt, renameSrcs, mem_append, mem_map, mem_filter]
    at hφ
  rcases hφ with ⟨φ, ⟨hφ, -⟩, rfl⟩ | ⟨φ, hφ, rfl⟩
  · obtain ⟨e₀, he₀, rfl⟩ := mem_map.mp he
    dsimp only
    rw [getD_eq (hB.src_lt hφ he₀)]
    exact getElem_mem _
  · obtain ⟨e₀, he₀, rfl⟩ := mem_map.mp he
    exact hR.preds b hb φ hφ e₀ he₀

end

end

/-! ## The whole function -/

/-- A function in which every def is written in one block at most, and phis have sources for blocks
only. -/
structure SsaForm (f : CfList (Block SsaInstr) ℕ) : Prop where
  /-- The blocks have different names. -/
  nodup : (f.labels label).Nodup
  /-- The sources of phis come from blocks. -/
  preds : ∀ b ∈ f.blocks, ∀ φ ∈ b.phis, ∀ e ∈ φ.srcs, e.1 ∈ f.labels label
  /-- No def is written in two blocks. -/
  unique : ∀ b ∈ f.blocks, ∀ b' ∈ f.blocks, ∀ d ∈ b.defs, d ∈ b'.defs → b'.label = b.label

/-- Two runs that leave in the same way, with the same trace, and with the same values of the defs
below `base`. -/
structure SameUpTo (base : ℕ) (r r' : Res SsaState) : Prop where
  /-- Control left the same block. -/
  prev : r'.prev = r.prev
  /-- It left in the same way. -/
  out : r'.out = r.out
  /-- The variables agree. -/
  vars : r'.st.vars = r.st.vars
  /-- The same instructions have been observed. -/
  trace : r'.st.trace = r.st.trace
  /-- The values agree. -/
  env : ∀ d < base, r'.st.env d = r.st.env d

/-- The function `g` is `f` with some defs repaired. -/
structure Repaired (f : CfList (Block SsaInstr) ℕ) (base : ℕ) (g : CfList (Block SsaInstr) ℕ)
    (next : ℕ) : Prop where
  /-- The names of the blocks stay. -/
  labels_eq : g.labels label = f.labels label
  /-- The jumps stay. -/
  jumps_eq : g.blocks.map jump = f.blocks.map jump
  /-- The links stay. -/
  links_eq : links label jump g = links label jump f
  /-- The conditions stay. -/
  conds_eq : g.conds = f.conds
  /-- Defs are handed out from `base` on. -/
  le : base ≤ next
  /-- No new def is in use. -/
  names : ∀ b ∈ g.blocks, ∀ d ∈ b.names, d < next
  /-- The sources of phis come from blocks. -/
  preds : ∀ b ∈ g.blocks, ∀ φ ∈ b.phis, ∀ e ∈ φ.srcs, e.1 ∈ f.labels label
  /-- The old defs are where they were. -/
  defs : ∀ b ∈ g.blocks, ∀ d ∈ b.defs, d < base →
    ∃ b₀ ∈ f.blocks, b₀.label = b.label ∧ d ∈ b₀.defs
  /-- The runs are the same. -/
  runs : ∀ (W : SsaWorld) (n p : ℕ), p ∉ f.labels label →
    SameUpTo base (exec (ssaMachine W) n f p (SsaState.init W))
      (exec (ssaMachine W) n g p (SsaState.init W))

/-- The dominance information of a function is right for it. -/
theorem repairGraph_of_nodup (hnd : (f.labels label).Nodup) :
    ∃ D, calcDominanceImpl (cfgOf label jump f) = some D ∧
      RepairGraph (f.labels label) (links label jump f) D := by
  have hG := cfgOf_sourceOrdered jump hnd
  obtain ⟨D, hcalc, hD⟩ := calcDominanceImpl_spec hG
  refine ⟨D, hcalc, hG, hD, fun p hE => ?_⟩
  have hmem := (mem_preds_cfgOfEdges.mp hE.2).2
  have hfirst : (f.labels label).getD 0 0 = f.first.label := by
    rw [f.labels_eq_cons]
    rfl
  rw [hfirst] at hmem
  exact links_not_first hnd hmem

/-- A repaired function has what the repair of a further def relies on. -/
theorem Repaired.repairable (h : Repaired f base g next) (hf : SsaForm f)
    (hbase : ∀ d ∈ ssaNames f, d < base) (hx : (x, db) ∈ defBlocks f) :
    Repairable (f.labels Block.label) g x db next := by
  simp only [defBlocks, mem_flatMap, mem_map, Prod.mk.injEq] at hx
  obtain ⟨b₀, hb₀, _, hd, rfl, rfl⟩ := hx
  rename_i x
  have hxb : x < base := hbase x (by
    simp only [ssaNames, Block.names, mem_append, mem_flatMap]
    exact .inl ⟨b₀, hb₀, .inl (.inl hd)⟩)
  have hmem : ∀ b ∈ f.blocks, b.label ∈ f.labels Block.label := fun b hb => mem_map.mpr ⟨b, hb, rfl⟩
  refine ⟨hf.nodup, fun b hb => ?_, h.preds, h.names,
    Nat.lt_of_lt_of_le hxb h.le, fun b hb hxd => ?_,
    idxOf_lt_length_of_mem (hmem b₀ hb₀)⟩
  · rw [← h.labels_eq]
    exact mem_map.mpr ⟨b, hb, rfl⟩
  · obtain ⟨b₁, hb₁, hlabel, hd₁⟩ := h.defs b hb x hxd hxb
    rw [← hlabel, hf.unique b₀ hb₀ b₁ hb₁ x hd hd₁]

/-- The links of a function enter its blocks. -/
theorem enters_of_mem_links (hnd : (f.labels label).Nodup)
    (h : (p, q) ∈ links label jump f) :
    Enters (f.labels label) (links label jump f) p q := by
  refine .inl ⟨edges_src h, h, fun hzero => ?_⟩
  rw [f.labels_eq_cons, idxOf_cons] at hzero
  by_cases hq : f.first.label = q
  · exact links_not_first hnd (hq ▸ h)
  · simp [beq_eq_false_iff_ne.mpr hq] at hzero

/-- The first block of a function is the start block. -/
theorem idxOf_label_first (f : CfList (Block SsaInstr) ℕ) :
    (f.labels label).idxOf f.first.label = 0 := by
  rw [f.labels_eq_cons, idxOf_cons_self]

/-- Repairing the blocks of a function. -/
theorem Repaired.map {ht : ℕ → Option PhiEntry} {r : PhiState × List BuiltPhi}
    (h : Repaired f base g next) (hnd : (f.labels label).Nodup)
    (hG : RepairGraph (f.labels label) (links label jump f) D)
    (hR : Repairable (f.labels label) g x db next) (hconds : ∀ c ∈ f.conds, c < base)
    (hB : Built D (cfgOf label jump f) db x next ht r) :
    Repaired f base (g.map (repairBlock (f.labels label) D x db ht r) id) r.1.next where
  labels_eq := (labels_map (repairBlock_label _ D x db ht r) id g).trans h.labels_eq
  jumps_eq := by
    rw [blocks_map, map_map, ← h.jumps_eq]
    exact map_congr_left fun b _ => repairBlock_jump _ D x db ht r b
  links_eq :=
    (links_map (repairBlock_label _ D x db ht r)
      (repairBlock_jump _ D x db ht r) id g).trans h.links_eq
  conds_eq := by rw [conds_map, map_id, h.conds_eq]
  le := Nat.le_trans h.le hB.inv.base_le
  names b' hb' d hd := by
    rw [blocks_map, mem_map] at hb'
    obtain ⟨b, hb, rfl⟩ := hb'
    exact hB.names_repairBlock hR hb hd
  preds b' hb' φ hφ e he := by
    rw [blocks_map, mem_map] at hb'
    obtain ⟨b, hb, rfl⟩ := hb'
    exact hB.preds_repairBlock hR hb hφ he
  defs b' hb' d hd hlt := by
    rw [blocks_map, mem_map] at hb'
    obtain ⟨b, hb, rfl⟩ := hb'
    rcases hB.defs_repairBlock hd with hd | hd
    · exact h.defs b hb d hd hlt
    · have := h.le
      omega
  runs W n p hp := by
    have hsame := same_map (repairBlock (f.labels label) D x db ht r) id
      (fun b b' => b ∈ g.blocks ∧ b' = repairBlock (f.labels label) D x db ht r b)
      (fun _ c c' => c < next ∧ c' = c) g (fun b hb => ⟨hb, rfl⟩)
      (fun _ c hc => ⟨Nat.lt_of_lt_of_le (hconds c (h.conds_eq ▸ hc)) h.le, rfl⟩)
    have hstart : RepairRel W (f.labels label) (links label jump f) D x db next r.1
        .next p (SsaState.init W) (SsaState.init W) := by
      refine ⟨fun hmem => absurd hmem hp, rfl, rfl, fun _ _ => rfl, fun _ _ => rfl, fun _ _ => rfl⟩
    have hedges : ∀ e ∈ g.edges label jump (endTargets label g),
        Enters (f.labels label) (links label jump f) e.1 e.2 := by
      intro e he
      exact enters_of_mem_links hnd (h.links_eq ▸ he)
    have henter : Enters (f.labels label) (links label jump f) p g.first.label := by
      refine .inr ⟨hp, ?_⟩
      rw [← h.labels_eq]
      exact idxOf_label_first g
    obtain ⟨⟨hprev, hout, -, hcarries⟩, -⟩ :=
      exec_lockstep (hB.simulation (W := W) hR hG) n hsame _ hedges p _ _ henter hstart
    have hruns := h.runs W n p hp
    exact ⟨hprev.trans hruns.prev, hout.trans hruns.out, hcarries.vars.trans hruns.vars,
      hcarries.trace.trans hruns.trace, fun d hd =>
        (hcarries.env d (Nat.lt_of_lt_of_le hd h.le)).trans (hruns.env d hd)⟩

section

variable (hf : SsaForm f) (hG : RepairGraph (f.labels label) (links label jump f) D)
  (hbase : ∀ d ∈ ssaNames f, d < base)
include hf hG hbase

/-- The repair of one def. -/
theorem Repaired.repairSsaDef (h : Repaired f base g next) (hx : (x, db) ∈ defBlocks f) :
    let r := Nir.repairSsaDef D (cfgOf label jump f) (f.labels label) g next x db
    Repaired f base r.1 r.2 := by
  intro r
  have hR := h.repairable hf hbase hx
  simp only [r, Nir.repairSsaDef]
  split_ifs
  · exact h
  · exact h.map hf.nodup hG hR (fun c hc => hbase c (mem_append.mpr (.inr hc)))
      (buildUses_built x next
      (fun b p hp => (mem_preds_cfgOfEdges.mp hp).1) hG.dom hR.db_lt (hR.invalid_lt D))

/-- The repair of several defs. -/
theorem Repaired.repairSsaDefs : ∀ (defs : List (ℕ × ℕ)) (r : CfList (Block SsaInstr) ℕ × ℕ),
    (∀ x ∈ defs, x ∈ defBlocks f) → Repaired f base r.1 r.2 →
      let r' := Nir.repairSsaDefs D (cfgOf label jump f) (f.labels label) defs r
      Repaired f base r'.1 r'.2
  | [], _, _, h => h
  | x :: defs, _, hdefs, h =>
    Repaired.repairSsaDefs defs _ (fun y hy => hdefs y (mem_cons_of_mem x hy))
      (h.repairSsaDef hf hG hbase (hdefs x mem_cons_self))

end

/-- Nothing is repaired yet. -/
theorem Repaired.refl (hf : SsaForm f) (hbase : ∀ d ∈ ssaNames f, d < base) :
    Repaired f base f base :=
  ⟨rfl, rfl, rfl, rfl, Nat.le_refl _,
    fun b hb d hd => hbase d (mem_append_left _ (mem_flatMap.mpr ⟨b, hb, hd⟩)), hf.preds,
    fun b hb d hd _ => ⟨b, hb, rfl, hd⟩, fun W n p _ => ⟨rfl, rfl, rfl, rfl, fun _ _ => rfl⟩⟩

/-- `nir_repair_ssa_impl` preserves the runs of a function. -/
theorem repairSsaImpl_repaired (hf : SsaForm f) :
    ∃ g next, repairSsaImpl f = some g ∧ Repaired f (freshName (ssaNames f)) g next := by
  obtain ⟨D, hcalc, hG⟩ := repairGraph_of_nodup hf.nodup
  have hbase : ∀ d ∈ ssaNames f, d < freshName (ssaNames f) := fun d hd => lt_freshName hd
  refine ⟨_, _, ?_, .repairSsaDefs hf hG hbase (defBlocks f)
    (f, freshName (ssaNames f)) (fun _ h => h) (.refl hf hbase)⟩
  simp only [repairSsaImpl, hcalc, Option.map_some]

/-- `nir_repair_ssa_impl` returns a function with the same control flow, and this runs as before in
every world: it leaves in the same way, with the same instructions observed on the same values, and
with the same values of the defs that were there. -/
theorem repairSsaImpl_preserves_runs (hf : SsaForm f) : ∃ g, repairSsaImpl f = some g ∧
    g.labels label = f.labels label ∧ g.blocks.map jump = f.blocks.map jump ∧ g.conds = f.conds ∧
    ∀ (W : SsaWorld) (n p : ℕ), p ∉ f.labels label →
      SameUpTo (freshName (ssaNames f)) (exec (ssaMachine W) n f p (SsaState.init W))
        (exec (ssaMachine W) n g p (SsaState.init W)) := by
  obtain ⟨g, next, hg, h⟩ := repairSsaImpl_repaired hf
  exact ⟨g, hg, h.labels_eq, h.jumps_eq, h.conds_eq, h.runs⟩

/-- A def in a branch that is used behind the if. -/
def usedBehindIf : CfList (Block SsaInstr) ℕ :=
  .ite ⟨0, [], [⟨.effect 0, some 0, []⟩], none⟩ 0 (.last ⟨1, [], [⟨.pure 0, some 1, [0]⟩], none⟩)
    (.last ⟨2, [], [], none⟩) (.last ⟨3, [], [⟨.effect 1, none, [1]⟩], none⟩)

/-- The def used behind the if is repaired without a change of the trace. -/
theorem repairSsaImpl_usedBehindIf : ∃ g, repairSsaImpl usedBehindIf = some g ∧
    ∀ (W : SsaWorld) (n p : ℕ), p ∉ usedBehindIf.labels label →
      (exec (ssaMachine W) n g p (SsaState.init W)).st.trace =
        (exec (ssaMachine W) n usedBehindIf p (SsaState.init W)).st.trace := by
  obtain ⟨g, hg, -, -, -, hruns⟩ := repairSsaImpl_preserves_runs (f := usedBehindIf)
    ⟨by decide, by decide, by decide⟩
  exact ⟨g, hg, fun W n p hp => (hruns W n p hp).trace⟩

end Mesa3D.Nir
