import Mathlib.Data.Int.Notation
import Mesa3D.Trees.RedBlack

/-!
# The red-black tree

`rb_tree.c` and the insertion of `rb_tree.h`. A node has its colour in the lowest bit of the pointer
to its parent, and a leaf is `NULL`. Nodes are pointers, here numbers, and the memory of all nodes
is a function. A failing assertion and a read through `NULL` are `none`. So is a loop that runs out
of fuel.

The branches of `z_p == z_p_p->left` and of `x == x_p->left` have mirrored branches next to them.
They are one definition each, with the side as an argument.
-/

namespace Mesa3D.RbTree

open RedBlack (Dir)

/-- `struct rb_node`. -/
structure RbNode where
  /-- `parent`, without the colour. -/
  parent : Option ℕ
  /-- The colour, which is the low bit of `parent`. -/
  black : Bool
  /-- `left`. -/
  left : Option ℕ
  /-- `right`. -/
  right : Option ℕ

namespace RbNode

/-- The child on a side. -/
def child (n : RbNode) : Dir → Option ℕ
  | .left => n.left
  | .right => n.right

/-- Sets the child on a side. -/
def setChild (n : RbNode) (d : Dir) (v : Option ℕ) : RbNode :=
  match d with
  | .left => { n with left := v }
  | .right => { n with right := v }

end RbNode

/-- `struct rb_tree`, with the memory of the nodes. -/
structure State where
  /-- `root`. -/
  root : Option ℕ
  /-- The nodes. -/
  node : ℕ → RbNode

/-- `rb_tree_init`. -/
def rbTreeInit (node : ℕ → RbNode) : State := ⟨none, node⟩

namespace State

variable (s : State)

/-- Writes to a node. -/
def modify (n : ℕ) (f : RbNode → RbNode) : State :=
  { s with node := Function.update s.node n (f (s.node n)) }

/-- `rb_node_is_black`. -/
def rbNodeIsBlack : Option ℕ → Bool
  | none => true
  | some n => (s.node n).black

/-- `rb_node_is_red`. -/
def rbNodeIsRed (n : Option ℕ) : Bool := !s.rbNodeIsBlack n

/-- Sets the colour bit. -/
def setColor (n : ℕ) (black : Bool) : State :=
  s.modify n fun m => { m with black := black }

/-- `rb_node_set_black`. -/
def rbNodeSetBlack (n : ℕ) : State := s.setColor n true

/-- `rb_node_set_red`. -/
def rbNodeSetRed (n : ℕ) : State := s.setColor n false

/-- `rb_node_copy_color`. -/
def rbNodeCopyColor (dst src : ℕ) : State := s.setColor dst (s.node src).black

/-- `rb_node_set_parent`. -/
def rbNodeSetParent (n : ℕ) (p : Option ℕ) : State :=
  s.modify n fun m => { m with parent := p }

/-- `if (v) rb_node_set_parent(v, p)`. -/
def setParentIf (v p : Option ℕ) : State :=
  match v with
  | none => s
  | some n => s.rbNodeSetParent n p

/-- An assignment to `n->left` or `n->right`. -/
def setChild (s : State) (d : Dir) (n : ℕ) (v : Option ℕ) : State :=
  s.modify n fun m => m.setChild d v

/-- `z == p->left || z == p->right`. -/
def isChild (z : Option ℕ) (p : ℕ) : Prop :=
  z = (s.node p).left ∨ z = (s.node p).right

instance (s : State) (z : Option ℕ) (p : ℕ) : Decidable (s.isChild z p) :=
  inferInstanceAs (Decidable (_ ∨ _))

/-- `rb_node_minimum`. -/
def rbNodeMinimum (s : State) : ℕ → ℕ → Option ℕ
  | 0, _ => none
  | fuel + 1, n =>
    match (s.node n).left with
    | none => some n
    | some l => s.rbNodeMinimum fuel l

/-- `rb_tree_splice` on the side of the parent. -/
def spliceParent (u : ℕ) (v : Option ℕ) : Option State :=
  match (s.node u).parent with
  | none => if s.root = some u then some { s with root := v } else none
  | some p =>
    if (s.node p).left = some u then some (s.setChild .left p v)
    else if (s.node p).right = some u then some (s.setChild .right p v)
    else none

/-- `rb_tree_splice`. -/
def rbTreeSplice (u : ℕ) (v : Option ℕ) : Option State :=
  (s.spliceParent u v).map fun t => t.setParentIf v (s.node u).parent

/-- A rotation to a side. -/
def rotate (d : Dir) (s : State) (x : ℕ) : Option State := do
  let y ← (s.node x).child d.flip
  let b := (s.node y).child d
  let s ← ((s.setChild d.flip x b).setParentIf b (some x)).rbTreeSplice x (some y)
  some ((s.setChild d y (some x)).rbNodeSetParent x (some y))

/-- `rb_tree_rotate_left`. -/
def rbTreeRotateLeft (x : ℕ) : Option State := s.rotate .left x

/-- `rb_tree_rotate_right`. -/
def rbTreeRotateRight (y : ℕ) : Option State := s.rotate .right y

/-! ### Insertion -/

/-- `z` is an inner grandchild: the rotation of its parent, which is the next `z`. -/
def insertInner (d : Dir) (s : State) (z : ℕ) : Option (State × ℕ × ℕ × ℕ) := do
  let s ← s.rotate d z
  let zp ← (s.node z).parent
  if s.isChild (some z) zp then
    let zpp ← (s.node zp).parent
    some (s, z, zp, zpp)
  else none

/-- The body of the loop of `rb_tree_insert_at` for `z_p` on a side of `z_p_p`. -/
def insertSide (d : Dir) (s : State) (z zp zpp : ℕ) : Option (State × ℕ) :=
  let y := (s.node zpp).child d.flip
  if s.rbNodeIsRed y then do
    let y ← y
    some (((s.rbNodeSetBlack zp).rbNodeSetBlack y).rbNodeSetRed zpp, zpp)
  else do
    let (s, z, zp, zpp) ←
      if some z = (s.node zp).child d.flip then s.insertInner d zp else some (s, z, zp, zpp)
    let s ← ((s.rbNodeSetBlack zp).rbNodeSetRed zpp).rotate d.flip zpp
    some (s, z)

/-- The body of the loop of `rb_tree_insert_at`. -/
def insertBody (z : ℕ) : Option (State × ℕ) := do
  let zp ← (s.node z).parent
  if s.isChild (some z) zp then
    let zpp ← (s.node zp).parent
    if some zp = (s.node zpp).left then s.insertSide .left z zp zpp
    else s.insertSide .right z zp zpp
  else none

/-- The loop of `rb_tree_insert_at`. -/
def insertFixup : ℕ → State → ℕ → Option State
  | 0, _, _ => none
  | fuel + 1, s, z =>
    if s.rbNodeIsRed (s.node z).parent then do
      let (s, z) ← s.insertBody z
      insertFixup fuel s z
    else some s

/-- `rb_tree_insert_at`. -/
def rbTreeInsertAt (fuel : ℕ) (s : State) (parent : Option ℕ) (node : ℕ) (insertLeft : Bool) :
    Option State :=
  let s := s.modify node fun _ => ⟨none, false, none, none⟩
  match parent with
  | none =>
    if s.root = none then some (rbNodeSetBlack { s with root := some node } node) else none
  | some p => do
    let d : Dir := if insertLeft then .left else .right
    if (s.node p).child d = none then
      let s ← insertFixup fuel ((s.setChild d p (some node)).rbNodeSetParent node (some p)) node
      let root ← s.root
      some (s.rbNodeSetBlack root)
    else none

/-- The loop of `rb_tree_insert`. -/
def insertSearch (cmp : ℕ → ℕ → ℤ) (s : State) (node : ℕ) :
    ℕ → Option ℕ → Option ℕ → Bool → Option (Option ℕ × Bool)
  | 0, _, _, _ => none
  | _ + 1, none, y, left => some (y, left)
  | fuel + 1, some x, _, _ =>
    if cmp node x < 0 then insertSearch cmp s node fuel (s.node x).left (some x) true
    else insertSearch cmp s node fuel (s.node x).right (some x) false

/-- `rb_tree_insert`. -/
def rbTreeInsert (cmp : ℕ → ℕ → ℤ) (s : State) (node fuel : ℕ) : Option State := do
  let (y, left) ← insertSearch cmp s node fuel s.root none false
  s.rbTreeInsertAt fuel y node left

/-! ### Removal -/

/-- `y`, which has no left child, takes the place of `z`. -/
def replaceBy (z y : ℕ) : Option State :=
  if (s.node y).left = none then do
    let s ← s.rbTreeSplice z (some y)
    let s := s.setChild .left y (s.node z).left
    let l ← (s.node y).left
    some ((s.rbNodeSetParent l (some y)).rbNodeCopyColor y z)
  else none

/-- `y` leaves its place below the right child of `z` and gets this child. -/
def takeRight (z y : ℕ) : Option State := do
  let s ← s.rbTreeSplice y (s.node y).right
  let s := s.setChild .right y (s.node z).right
  let r ← (s.node y).right
  some (s.rbNodeSetParent r (some y))

/-- What `rb_tree_remove` has in front of its loop: `x`, `x_p` and `y_was_black`. -/
structure Removal where
  /-- The heap. -/
  state : State
  /-- `x`. -/
  x : Option ℕ
  /-- `x_p`. -/
  xp : Option ℕ
  /-- `y_was_black`. -/
  yWasBlack : Bool

/-- The part of `rb_tree_remove` for a node with two children. -/
def removeInner (fuel : ℕ) (s : State) (z : ℕ) : Option Removal := do
  let r ← (s.node z).right
  let y ← s.rbNodeMinimum fuel r
  if (s.node y).parent = some z then
    let t ← s.replaceBy z y
    some ⟨t, (s.node y).right, some y, s.rbNodeIsBlack (some y)⟩
  else
    let t ← s.takeRight z y
    let t ← t.replaceBy z y
    some ⟨t, (s.node y).right, (s.node y).parent, s.rbNodeIsBlack (some y)⟩

/-- The part of `rb_tree_remove` for a node with at most one child `x`. -/
def removeOuter (z : ℕ) (x : Option ℕ) : Option Removal := do
  let t ← s.rbTreeSplice z x
  some ⟨t, x, (s.node z).parent, s.rbNodeIsBlack (some z)⟩

/-- `rb_tree_remove` in front of the fixup. -/
def removeNode (fuel : ℕ) (s : State) (z : ℕ) : Option Removal :=
  if (s.node z).left = none then s.removeOuter z (s.node z).right
  else if (s.node z).right = none then s.removeOuter z (s.node z).left
  else s.removeInner fuel z

/-- `w` is red: the rotation that gives `x` a black sibling, which is returned. -/
def removeRedSibling (d : Dir) (s : State) (x : Option ℕ) (xp w : ℕ) : Option (State × ℕ) := do
  let s ← ((s.rbNodeSetBlack w).rbNodeSetRed xp).rotate d xp
  if x = (s.node xp).child d then
    let w ← (s.node xp).child d.flip
    some (s, w)
  else none

/-- The outer child of `w` is black: the rotation that makes it red, with the new `w`. -/
def removeInnerRed (d : Dir) (s : State) (xp w : ℕ) : Option (State × ℕ) := do
  let l ← (s.node w).child d
  let s ← ((s.rbNodeSetBlack l).rbNodeSetRed w).rotate d.flip w
  let w ← (s.node xp).child d.flip
  some (s, w)

/-- The outer child of `w` is red: the last rotation. -/
def removeOuterRed (d : Dir) (s : State) (xp w : ℕ) : Option State := do
  let s := (s.rbNodeCopyColor w xp).rbNodeSetBlack xp
  let r ← (s.node w).child d.flip
  (s.rbNodeSetBlack r).rotate d xp

/-- The body of the loop of `rb_tree_remove` for a black `w`, with the next `x`. -/
def removeBlackSibling (d : Dir) (s : State) (xp w : ℕ) : Option (State × Option ℕ) :=
  if s.rbNodeIsBlack ((s.node w).child d) ∧ s.rbNodeIsBlack ((s.node w).child d.flip) then
    some (s.rbNodeSetRed w, some xp)
  else do
    let (s, w) ←
      if s.rbNodeIsBlack ((s.node w).child d.flip) then s.removeInnerRed d xp w else some (s, w)
    let s ← s.removeOuterRed d xp w
    some (s, s.root)

/-- The body of the loop of `rb_tree_remove` for `x` on a side of `x_p`. -/
def removeSide (d : Dir) (s : State) (x : Option ℕ) (xp : ℕ) : Option (State × Option ℕ) := do
  let w ← (s.node xp).child d.flip
  let (s, w) ← if s.rbNodeIsRed (some w) then s.removeRedSibling d x xp w else some (s, w)
  s.removeBlackSibling d xp w

/-- The loop of `rb_tree_remove`. -/
def removeFixup : ℕ → State → Option ℕ → Option ℕ → Option (State × Option ℕ)
  | 0, _, _, _ => none
  | fuel + 1, s, x, xp =>
    if x ≠ s.root ∧ s.rbNodeIsBlack x then do
      let xp ← xp
      let (s, x) ←
        if x = (s.node xp).left then s.removeSide .left x xp else s.removeSide .right x xp
      let n ← x
      removeFixup fuel s x (s.node n).parent
    else some (s, x)

/-- The assertion of `rb_tree_remove` in front of the fixup. -/
def Removal.ok (r : Removal) : Prop :=
  match r.xp with
  | none => True
  | some p => r.state.isChild r.x p

instance : (r : Removal) → Decidable r.ok
  | ⟨_, _, none, _⟩ => isTrue trivial
  | ⟨s, x, some p, _⟩ => inferInstanceAs (Decidable (s.isChild x p))

/-- `if (x) rb_node_set_black(x)`. -/
def setBlackIf : Option ℕ → State
  | none => s
  | some x => s.rbNodeSetBlack x

/-- `rb_tree_remove` behind the removal of the node. -/
def removeRest (fuel : ℕ) (r : Removal) : Option State :=
  if r.ok then
    if r.yWasBlack then do
      let (s, x) ← removeFixup fuel r.state r.x r.xp
      some (s.setBlackIf x)
    else some r.state
  else none

/-- `rb_tree_remove`. -/
def rbTreeRemove (z fuel : ℕ) : Option State := do
  let r ← s.removeNode fuel z
  removeRest fuel r

/-! ### Validation -/

/-- `validate_rb_node`. -/
def validateRbNode (s : State) : ℕ → Option ℕ → ℤ → Option Unit
  | 0, _, _ => none
  | _ + 1, none, blackDepth => if blackDepth = 0 then some () else none
  | fuel + 1, some n, blackDepth =>
    if (s.node n).black then do
      s.validateRbNode fuel (s.node n).left (blackDepth - 1)
      s.validateRbNode fuel (s.node n).right (blackDepth - 1)
    else if s.rbNodeIsBlack (s.node n).left ∧ s.rbNodeIsBlack (s.node n).right then do
      s.validateRbNode fuel (s.node n).left blackDepth
      s.validateRbNode fuel (s.node n).right blackDepth
    else none

/-- The loop of `rb_tree_validate` along the left children. -/
def blackDepth (s : State) : ℕ → Option ℕ → ℤ → Option ℤ
  | 0, _, _ => none
  | _ + 1, none, depth => some depth
  | fuel + 1, some n, depth =>
    s.blackDepth fuel (s.node n).left (if (s.node n).black then depth + 1 else depth)

/-- `rb_tree_validate`. -/
def rbTreeValidate (fuel : ℕ) : Option Unit :=
  match s.root with
  | none => some ()
  | some root =>
    if (s.node root).black then do
      let depth ← s.blackDepth fuel (some root) 0
      s.validateRbNode fuel (some root) depth
    else none

end State

end Mesa3D.RbTree
