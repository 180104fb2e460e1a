import Mesa3D.Nir.BlockIndex
import Mesa3D.Nir.PhiBuilder
import Mesa3D.Nir.SsaSem

/-!
# Repairing SSA form

`nir_repair_ssa_impl` (`nir_repair_ssa.c`): a use that is not dominated by its def is given the def
that the phi builder finds for the block of the use. The block of the source of a phi is its
predecessor. Uses as the condition of an if are not looked at.

The defs are repaired one after the other here. The source fills in the phis of all of them at the
end, which makes no difference, since the tables of two defs have nothing in common.
-/

namespace Mesa3D.Nir

open Structured Mesa3D.Graph

/-- The blocks of the uses of a def in a block (`get_src_block`), by their indices. -/
def srcBlocks (labels : List ℕ) (x : ℕ) (b : Block SsaInstr) : List ℕ :=
  (b.phis.flatMap fun φ => (φ.srcs.filter fun s => s.2 == x).map fun s => labels.idxOf s.1) ++
    ((b.instrs.flatMap SsaInstr.srcs).filter (· == x)).map fun _ => labels.idxOf b.label

/-- The names of defs that occur in a block. -/
def Block.names (b : Block SsaInstr) : List ℕ :=
  b.defs ++ (b.phis.flatMap fun φ => φ.srcs.map Prod.snd) ++ b.instrs.flatMap SsaInstr.srcs

/-- A block in which every source of a phi from the predecessor of index `i`, and every source of an
instruction where `i` is the index of the block, is renamed by `σ i`. -/
def renameSrcs (labels : List ℕ) (σ : ℕ → ℕ → ℕ) (b : Block SsaInstr) : Block SsaInstr :=
  { b with
    phis := b.phis.map fun φ => { φ with srcs := φ.srcs.map fun s =>
      (s.1, σ (labels.idxOf s.1) s.2) }
    instrs := b.instrs.map fun i => { i with srcs := i.srcs.map (σ (labels.idxOf b.label)) } }

/-- The phi that the builder has filled in, with the names of the predecessors. -/
def BuiltPhi.toPhi (labels : List ℕ) (φ : BuiltPhi) : Phi :=
  ⟨φ.dest, φ.srcs.map fun s => (labels.getD s.1 0, s.2)⟩

/-- A block with the new phis at its top, and the new undefs where it is the start block. -/
def insertBuilt (labels : List ℕ) (phis : List BuiltPhi) (undefs : List ℕ) (b : Block SsaInstr) :
    Block SsaInstr :=
  let i := labels.idxOf b.label
  { b with
    phis := ((phis.filter fun φ => φ.block == i).map (BuiltPhi.toPhi labels)) ++ b.phis
    instrs := (if i = 0 then undefs.reverse.map fun u => ⟨.undef, some u, []⟩ else []) ++ b.instrs }

section

variable (D : DomInfo) (G : Cfg) (labels : List ℕ)

/-- The state of the phi builder for the def `x` of the block `db`, when it has been asked for all
uses in `blocks`. -/
def buildUses (x db next : ℕ) (blocks : List ℕ) : PhiState :=
  blocks.foldl (fun st b => (st.getBlockDef D.immDom G.numBlocks b).1)
    ((addValue D G.numBlocks [db] next).setBlockDef db x)

/-- The new source of a use of `x` in the block `i`. -/
def repairSrc (x db : ℕ) (ht : ℕ → Option PhiEntry) (i d : ℕ) : ℕ :=
  if d = x && !D.blockDominates db i then
    match ht i with
    | some (.ssa e) => e
    | _ => d
  else d

/-- `repair_ssa_def`, followed by `nir_phi_builder_finish` for its value: the function, and the next
SSA def. -/
def repairSsaDef (f : CfList (Block SsaInstr) ℕ) (next x db : ℕ) : CfList (Block SsaInstr) ℕ × ℕ :=
  let invalid := (f.blocks.flatMap (srcBlocks labels x)).filter fun i => !D.blockDominates db i
  if invalid.isEmpty then (f, next)
  else
    let st := buildUses D G x db next invalid
    let r := st.finish G.preds D.immDom G.numBlocks G.numBlocks
    (f.map (fun b => insertBuilt labels r.2 r.1.undefs
      (renameSrcs labels (repairSrc D x db st.ht) b)) id, r.1.next)

/-- The loop of `nir_repair_ssa_impl`, over defs and the blocks of these. -/
def repairSsaDefs : List (ℕ × ℕ) → CfList (Block SsaInstr) ℕ × ℕ → CfList (Block SsaInstr) ℕ × ℕ
  | [], r => r
  | (x, db) :: defs, r => repairSsaDefs defs (repairSsaDef D G labels r.1 r.2 x db)

end

/-- The defs of a function with the indices of their blocks, in source order. -/
def defBlocks (f : CfList (Block SsaInstr) ℕ) : List (ℕ × ℕ) :=
  f.blocks.flatMap fun b => b.defs.map fun d => (d, (f.labels Block.label).idxOf b.label)

/-- The names of the defs of a function. -/
def ssaNames (f : CfList (Block SsaInstr) ℕ) : List ℕ := f.blocks.flatMap Block.names ++ f.conds

/-- `nir_repair_ssa_impl`. -/
def repairSsaImpl (f : CfList (Block SsaInstr) ℕ) : Option (CfList (Block SsaInstr) ℕ) :=
  let G := cfgOf Block.label Block.jump f
  (calcDominanceImpl G).map fun D =>
    (repairSsaDefs D G (f.labels Block.label) (defBlocks f) (f, freshName (ssaNames f))).1

end Mesa3D.Nir
