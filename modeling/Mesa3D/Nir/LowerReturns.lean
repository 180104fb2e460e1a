import Mesa3D.Nir.RepairSsa
import Mesa3D.Nir.SsaFrame

/-!
# Lowering of returns

`nir_lower_returns_impl` (`nir_lower_returns.c`) removes the returns of a function. In a loop a
return becomes a break, and elsewhere it is dropped where it stands at the end of its list. A local
variable, the return flag, remembers that it was reached, and what follows a loop or an if with
returns is predicated on the flag. Where an if has nothing but returns at the ends of its branches,
what follows is moved into the branch that does not return instead.

A list is lowered from its end to its start, as in the source. The names of the blocks are the ones
that the phis of the successors use: a block that is split leaves its name to the part that keeps
the successors, so that the phis of these stay as they are. The sources of phis for deleted blocks
are dropped at the end of the pass and not on the way. A use of a deleted def reads the undefined
value that every def starts with, as does the undef that the source puts in its place. A phi on an
edge for which it has no source keeps its old value (`Phi.eval`). An assertion that fails is `none`.
-/

namespace Mesa3D.Nir

open Structured

/-- A list of control flow in SSA form. -/
abbrev SsaList := CfList (Block SsaInstr) ℕ

/-- `lower_returns_state`, without what belongs to the list at hand, and with the names that the
pass may still hand out. -/
structure LowerState where
  /-- `return_flag` has been created. -/
  returnFlag : Bool
  /-- `has_predicated_return`. -/
  hasPredicatedReturn : Bool
  /-- `removed_unreachable_code`. -/
  removedUnreachableCode : Bool
  /-- The next block. -/
  nextBlock : ℕ
  /-- The next SSA def. -/
  nextDef : ℕ
  /-- The blocks that have been deleted. -/
  deleted : List ℕ
  deriving DecidableEq, Repr

/-- Where a list stands. -/
structure ListCtx where
  /-- It is inside of a loop. -/
  inLoop : Bool
  /-- It is the body of the function, or the end of it. -/
  top : Bool
  /-- Its first block has a predecessor outside of the list, or is the start block. -/
  entry : Bool
  /-- Its first block is the header of a loop. -/
  header : Bool
  deriving DecidableEq, Repr

/-- A block that has phis only. -/
def Block.phisOnly (label : ℕ) (phis : List Phi) (jump : Option Jump) : Block SsaInstr :=
  ⟨label, phis, [], jump⟩

/-- The block without its phis. -/
def Block.dropPhis (b : Block SsaInstr) : Block SsaInstr := { b with phis := [] }

/-- The list from behind the phis of its first block on. -/
def dropPhis (l : SsaList) : SsaList := l.setFirst l.first.dropPhis

/-- The list with another name for its last block. -/
def renameFinal (label : ℕ) (l : SsaList) : SsaList := l.graft fun b => .last { b with label }

/-- There is nothing in the list but phis: the cursors behind them and at the end of the list are
equal. -/
def nothingFollows : SsaList → Bool
  | .last b => b.instrs.isEmpty && b.jump == none
  | _ => false

/-- The block `b` stitched to the list `rest` without its phis (`stitch_blocks`). The end of the
list takes over the successors of `b`, and with them its name. -/
def stitch (rest : SsaList) (b : Block SsaInstr) : SsaList :=
  (renameFinal b.label rest).setFirst
    ⟨(renameFinal b.label rest).first.label, b.phis, b.instrs ++ rest.first.instrs, rest.first.jump⟩

/-- The list `rest`, without its phis, reinserted at the end of `l`. -/
def reinsertAtEnd (rest l : SsaList) : SsaList := l.graft (stitch rest)

/-- `predicate_following`, for what follows the node. -/
def predicateFollowing (flag : ℕ) (inLoop : Bool) (rest : SsaList) (st : LowerState) :
    Option (SsaList × LowerState) :=
  if nothingFollows rest then some (rest, st)
  else if !st.returnFlag then none
  else
    let load : Block SsaInstr :=
      ⟨st.nextBlock, rest.first.phis, [⟨.loadVar flag, some st.nextDef, []⟩], none⟩
    let st' := { st with nextBlock := st.nextBlock + 3, nextDef := st.nextDef + 1 }
    if inLoop then
      some (.ite load st.nextDef (.last (.phisOnly (st.nextBlock + 1) [] (some .brk)))
        (.last (.phisOnly (st.nextBlock + 2) [] none)) (dropPhis rest), st')
    else
      some (.ite load st.nextDef (.last (.phisOnly (st.nextBlock + 1) [] none))
        (renameFinal (st.nextBlock + 2) (dropPhis rest))
        (.last (.phisOnly rest.final.label [] none)), st')

/-- The end of `lower_returns_in_loop`, when the body has been lowered: what follows the loop. -/
def lowerReturnsInLoop (flag : ℕ) (inLoop : Bool) (rest : SsaList) (progress : Bool)
    (st : LowerState) : Option (SsaList × LowerState) :=
  if progress then
    (predicateFollowing flag inLoop rest st).map fun r =>
      (r.1, { r.2 with hasPredicatedReturn := true })
  else some (rest, st)

/-- The end of `lower_returns_in_if`, when both branches have been lowered: the list from the block
`b` before the if on. -/
def lowerReturnsInIf (flag : ℕ) (inLoop : Bool) (b : Block SsaInstr) (c : ℕ)
    (thenList elseList rest : SsaList) (thenProgress elseProgress : Bool) (st : LowerState) :
    Option (SsaList × LowerState) :=
  if !(thenProgress || elseProgress) || inLoop then some (.ite b c thenList elseList rest, st)
  else if st.hasPredicatedReturn then
    (predicateFollowing flag inLoop rest st).map fun r => (.ite b c thenList elseList r.1, r.2)
  else
    let after : SsaList := .last (.phisOnly rest.final.label rest.first.phis none)
    if thenProgress && elseProgress then
      some (.ite b c thenList elseList after,
        { st with deleted := st.deleted ++ (rest.labels Block.label).dropLast })
    else if thenProgress then some (.ite b c thenList (reinsertAtEnd rest elseList) after, st)
    else some (.ite b c (reinsertAtEnd rest thenList) elseList after, st)

/-- The first block of the list has a predecessor, or is the start block. -/
def hasPredecessor (x : ListCtx) (l : SsaList) : Bool :=
  x.entry || x.header && (l.hasJump Block.jump .cont || l.final.jump == none)

/-- `lower_returns_in_block` for the first block of the list, when everything behind it has been
lowered: the list, and whether a return was lowered. -/
def lowerReturnsInBlock (flag : ℕ) (x : ListCtx) (l : SsaList) (st : LowerState) :
    Option (SsaList × Bool × LowerState) :=
  let b := l.first
  if !hasPredecessor x l then
    if nothingFollows l && b.phis.isEmpty then some (l, false, st)
    else
      -- What is left is a block with the phis, which is followed by what follows the list.
      if l.final.jump == none then
        some (.last (.phisOnly l.final.label b.phis none), false,
          { st with
            removedUnreachableCode := true
            deleted := st.deleted ++ (l.labels Block.label).dropLast })
      else
        some (.last (.phisOnly st.nextBlock b.phis none), false,
          { st with
            removedUnreachableCode := true
            nextBlock := st.nextBlock + 1
            deleted := st.deleted ++ l.labels Block.label })
  else if b.jump != some .ret then some (l, false, st)
  else
    if x.top && l.isLast then some (l.setFirst { b with jump := none }, true, st)
    else
      let instrs := b.instrs ++ [⟨.storeVar flag true, none, []⟩]
      let st := { st with returnFlag := true }
      if x.inLoop then some (l.setFirst { b with instrs, jump := some .brk }, true, st)
      else if l.isLast then some (l.setFirst { b with instrs, jump := none }, true, st)
      else none

/-- `lower_returns_in_cf_list`: the list, and whether a return was lowered. -/
def lowerReturnsInCfList (flag : ℕ) :
    SsaList → ListCtx → LowerState → Option (SsaList × Bool × LowerState)
  | .last b, x, st => lowerReturnsInBlock flag x (.last b) st
  | .ite b c thenList elseList rest, x, st => do
    let r ← lowerReturnsInCfList flag rest
      { x with
        entry := thenList.final.jump == none || elseList.final.jump == none
        header := false } st
    let branch : ListCtx := ⟨x.inLoop, false, b.jump == none, false⟩
    let t ← lowerReturnsInCfList flag thenList branch { r.2.2 with hasPredicatedReturn := false }
    let e ← lowerReturnsInCfList flag elseList branch t.2.2
    let l ← lowerReturnsInIf flag x.inLoop b c t.1 e.1 r.1 t.2.1 e.2.1 e.2.2
    let st' := { l.2 with
      hasPredicatedReturn := t.2.1 || e.2.1 || r.2.2.hasPredicatedReturn }
    let f ← lowerReturnsInBlock flag x l.1 st'
    some (f.1, r.2.1 || t.2.1 || e.2.1 || f.2.1, f.2.2)
  | .loop b body rest, x, st => do
    let r ← lowerReturnsInCfList flag rest
      { x with entry := body.hasJump Block.jump .brk, header := false } st
    let l ← lowerReturnsInCfList flag body ⟨true, false, b.jump == none, true⟩ r.2.2
    let after ← lowerReturnsInLoop flag x.inLoop r.1 l.2.1 l.2.2
    let f ← lowerReturnsInBlock flag x (.loop b l.1 after.1) after.2
    some (f.1, r.2.1 || l.2.1 || f.2.1, f.2.2)

/-- The boolean local variables that the blocks of a list use. -/
def ssaVars (l : SsaList) : List ℕ := l.blocks.flatMap Block.vars

/-- The block without the sources of its phis for the given blocks. -/
def dropSources (gone : List ℕ) (b : Block SsaInstr) : Block SsaInstr :=
  { b with phis := b.phis.map fun φ =>
    { φ with srcs := φ.srcs.filter fun e => !gone.contains e.1 } }

/-- `nir_lower_returns_impl`. -/
def lowerReturnsImpl (f : SsaList) : Option SsaList := do
  let flag := freshName (ssaVars f)
  let r ← lowerReturnsInCfList flag f ⟨false, true, true, false⟩
    ⟨false, false, false, freshName (f.labels Block.label), freshName (ssaNames f), []⟩
  let l := if r.2.2.returnFlag then
      r.1.setFirst { r.1.first with instrs := ⟨.storeVar flag false, none, []⟩ :: r.1.first.instrs }
    else r.1
  let l := l.map (dropSources r.2.2.deleted) id
  if r.2.1 || r.2.2.removedUnreachableCode then repairSsaImpl l else some l

end Mesa3D.Nir
