import Mathlib.Data.List.Nodup
import Mesa3D.Util.RbTree

/-!
# Red-black trees in memory

A memory holds a tree if each node has the fields that the tree says (`Rep`). The nodes around a
subtree are held in the same way (`RepCtx`), and both together are `At`. Each primitive of
`rb_tree.c` takes such a memory to another one, where the tree is recoloured, rotated or spliced.
-/

namespace Mesa3D.RbTree

open RedBlack RedBlack.ColorTree RedBlack.Ctx List

/-! ### Nodes with sides -/

/-- A node with `v` on a side and `w` on the other. -/
def RbNode.sided (d : Dir) (parent : Option ℕ) (black : Bool) (v w : Option ℕ) : RbNode :=
  match d with
  | .left => ⟨parent, black, v, w⟩
  | .right => ⟨parent, black, w, v⟩

namespace RbNode

variable (d : Dir) (p q : Option ℕ) (b b' : Bool) (u v w : Option ℕ)

/-- A node given by sides has its parent. -/
@[simp] theorem parent_sided : (sided d p b v w).parent = p := by cases d <;> rfl

/-- A node given by sides has its colour. -/
@[simp] theorem black_sided : (sided d p b v w).black = b := by cases d <;> rfl

/-- The child of a node on the side it was given for. -/
@[simp] theorem child_sided : (sided d p b v w).child d = v := by cases d <;> rfl

/-- The child of a node on the other side. -/
@[simp] theorem child_flip_sided : (sided d p b v w).child d.flip = w := by cases d <;> rfl

/-- Setting the child on the side a node was given for. -/
@[simp] theorem setChild_sided : (sided d p b v w).setChild d u = sided d p b u w := by
  cases d <;> rfl

/-- Setting the child on the other side. -/
@[simp] theorem setChild_flip_sided : (sided d p b v w).setChild d.flip u = sided d p b v u := by
  cases d <;> rfl

/-- Setting the parent keeps the children where they are. -/
@[simp] theorem setParent_sided :
    { sided d p b v w with parent := q } = sided d q b v w := by cases d <;> rfl

/-- Setting the colour keeps the children where they are. -/
@[simp] theorem setColor_sided : { sided d p b v w with black := b' } = sided d p b' v w := by
  cases d <;> rfl

end RbNode

open RbNode (sided)

/-! ### Writes -/

namespace State

variable (s : State) (n a : ℕ)

/-- A change to a node leaves the root. -/
@[simp] theorem modify_root (f : RbNode → RbNode) : (s.modify n f).root = s.root := rfl

/-- The node that is changed. -/
@[simp] theorem modify_node (f : RbNode → RbNode) : (s.modify n f).node n = f (s.node n) := by
  simp [modify]

/-- The other nodes stay. -/
theorem modify_node_ne (f : RbNode → RbNode) {a n : ℕ} (h : a ≠ n) :
    (s.modify n f).node a = s.node a := by simp [modify, h]

/-- The node whose child is set. -/
theorem setChild_node (d : Dir) (v : Option ℕ) :
    (s.setChild d n v).node n = (s.node n).setChild d v := s.modify_node n _

/-- Setting a child leaves the other nodes. -/
theorem setChild_node_ne (d : Dir) (v : Option ℕ) {a n : ℕ} (h : a ≠ n) :
    (s.setChild d n v).node a = s.node a := s.modify_node_ne _ h

/-- The node whose parent is set. -/
theorem rbNodeSetParent_node (p : Option ℕ) :
    (s.rbNodeSetParent n p).node n = { s.node n with parent := p } :=
  s.modify_node n fun m => { m with parent := p }

/-- Setting a parent leaves the other nodes. -/
theorem rbNodeSetParent_node_ne (p : Option ℕ) {a n : ℕ} (h : a ≠ n) :
    (s.rbNodeSetParent n p).node a = s.node a := s.modify_node_ne _ h

/-- The node whose colour is set. -/
theorem setColor_node (b : Bool) : (s.setColor n b).node n = { s.node n with black := b } :=
  s.modify_node n fun m => { m with black := b }

/-- Setting a colour leaves the other nodes. -/
theorem setColor_node_ne (b : Bool) {a n : ℕ} (h : a ≠ n) : (s.setColor n b).node a = s.node a :=
  s.modify_node_ne _ h

/-- The conditional set of a parent leaves the root. -/
@[simp] theorem setParentIf_root (v p : Option ℕ) : (s.setParentIf v p).root = s.root := by
  cases v <;> rfl

/-- The conditional set of a parent leaves the other nodes. -/
theorem setParentIf_node_ne {v p : Option ℕ} {a : ℕ} (h : v ≠ some a) :
    (s.setParentIf v p).node a = s.node a := by
  cases v with
  | none => rfl
  | some n =>
    exact s.rbNodeSetParent_node_ne p fun heq => h (congrArg some heq.symm)

/-- The conditional set of a parent at a node. -/
@[simp] theorem setParentIf_node (p : Option ℕ) :
    (s.setParentIf (some n) p).node n = { s.node n with parent := p } := s.rbNodeSetParent_node n p

end State

open State hiding root node

/-! ### Trees in memory -/

/-- The nodes of a tree, below a parent. -/
def Rep (s : State) (p : Option ℕ) : ColorTree ℕ → Prop
  | leaf => True
  | node black l a r =>
    s.node a = ⟨p, black, l.root, r.root⟩ ∧ Rep s (some a) l ∧ Rep s (some a) r

/-- The nodes around a subtree with root `v`. -/
def RepCtx (s : State) : Ctx ℕ → Option ℕ → Prop
  | [], v => s.root = v
  | f :: c, v => s.node f.a = sided f.dir (parent c) f.black v f.sibling.root ∧
      Rep s (some f.a) f.sibling ∧ RepCtx s c (some f.a)

/-- The memory holds a subtree in a context. -/
structure At (s : State) (c : Ctx ℕ) (t : ColorTree ℕ) : Prop where
  /-- The subtree is laid out. -/
  rep : Rep s (parent c) t
  /-- So is its context. -/
  ctx : RepCtx s c t.root
  /-- All nodes are different. -/
  nodup : (t.toList ++ elems c).Nodup

/-- A call leaves a red-black tree behind. -/
structure Holds (s : State) (t : ColorTree ℕ) : Prop where
  /-- The tree is in the heap. -/
  heap : At s [] t
  /-- It follows the rules. -/
  rules : IsRedBlack t

section

variable {s s' : State} {d : Dir} {b : Bool} {p q : Option ℕ}
  {t u l r : ColorTree ℕ} {a : ℕ} {c : Ctx ℕ}
  {f : Frame ℕ}

/-- A tree is laid out when its node and both sides are. -/
theorem rep_bin : Rep s p (bin d b l a r) ↔
    s.node a = sided d p b l.root r.root ∧ Rep s (some a) l ∧ Rep s (some a) r := by
  cases d
  · rfl
  · simp only [bin, Rep, sided]
    tauto

/-- A tree stays laid out when its nodes keep their contents. -/
theorem Rep.congr (h : Rep s p t) (heq : ∀ a ∈ t.toList, s'.node a = s.node a) : Rep s' p t := by
  induction t generalizing p with
  | leaf => trivial
  | node black l a r ihl ihr =>
    obtain ⟨ha, hl, hr⟩ := h
    refine ⟨(heq a (by simp [toList])).trans ha, ihl hl fun x hx => ?_, ihr hr fun x hx => ?_⟩
    · exact heq x (by simp [toList, hx])
    · exact heq x (by simp [toList, hx])

/-- A context stays laid out when its nodes keep their contents. -/
theorem RepCtx.congr {v : Option ℕ} (h : RepCtx s c v) (hroot : s'.root = s.root)
    (heq : ∀ a ∈ elems c, s'.node a = s.node a) : RepCtx s' c v := by
  induction c generalizing v with
  | nil => exact hroot.trans h
  | cons f c ih =>
    obtain ⟨ha, hs, hc⟩ := h
    refine ⟨(heq _ (by simp [elems])).trans ha, hs.congr fun x hx => ?_, ih hc fun x hx => ?_⟩
    · exact heq x (by simp [elems, hx])
    · exact heq x (by simp [elems, hx])

/-- The root of a tree gets another parent. -/
theorem Rep.reparent (h : Rep s p t) (hnodup : t.toList.Nodup)
    (hroot : ∀ a, t.root = some a → s'.node a = { s.node a with parent := q })
    (heq : ∀ a ∈ t.toList, t.root ≠ some a → s'.node a = s.node a) : Rep s' q t := by
  cases t with
  | leaf => trivial
  | node black l a r =>
    obtain ⟨ha, hl, hr⟩ := h
    rw [toList, perm_middle.nodup_iff, nodup_cons, mem_append, not_or] at hnodup
    obtain ⟨⟨hnl, hnr⟩, -⟩ := hnodup
    refine ⟨by rw [hroot a rfl, ha], hl.congr fun x hx => ?_, hr.congr fun x hx => ?_⟩
    · exact heq x (by simp [toList, hx]) fun h => hnl (Option.some.inj h ▸ hx)
    · exact heq x (by simp [toList, hx]) fun h => hnr (Option.some.inj h ▸ hx)

/-- Elements without repetition, with the node of a tree in front. -/
theorem nodup_bin {E : List ℕ} :
    ((bin d b l a r).toList ++ E).Nodup ↔ (a :: (l.toList ++ r.toList ++ E)).Nodup :=
  ((toList_bin_perm d b l r a).append_right E).nodup_iff

/-! ### Moving the focus -/

/-- Under the empty context the tree is the whole of the heap's tree. -/
theorem at_nil : At s [] t ↔ Rep s none t ∧ s.root = t.root ∧ t.toList.Nodup := by
  constructor
  · exact fun h => ⟨h.rep, h.ctx, by simpa [elems] using h.nodup⟩
  · rintro ⟨h1, h2, h3⟩
    exact ⟨h1, h2, by simpa [elems] using h3⟩

/-- The focus moves to the parent. -/
theorem at_cons : At s (f :: c) t ↔ At s c (bin f.dir f.black t f.a f.sibling) := by
  have hnodup : (t.toList ++ elems (f :: c)).Nodup ↔
      ((bin f.dir f.black t f.a f.sibling).toList ++ elems c).Nodup := by
    rw [nodup_bin, elems, perm_middle.nodup_iff, append_assoc]
  constructor
  · intro h
    obtain ⟨ha, hs, hc⟩ := h.ctx
    exact ⟨rep_bin.2 ⟨ha, h.rep, hs⟩, by rwa [root_bin], hnodup.1 h.nodup⟩
  · intro h
    obtain ⟨ha, ht, hs⟩ := rep_bin.1 h.rep
    exact ⟨ht, ⟨ha, hs, by simpa using h.ctx⟩, hnodup.2 h.nodup⟩

/-- Descending to the side a node was given for moves the node to the context. -/
theorem at_bin : At s c (bin d b l a r) ↔ At s (⟨d, b, a, r⟩ :: c) l :=
  (at_cons (f := ⟨d, b, a, r⟩)).symm

/-- Descending to the other side moves the node to the context. -/
theorem at_bin_flip : At s c (bin d b l a r) ↔ At s (⟨d.flip, b, a, l⟩ :: c) r := by
  rw [at_cons, bin_flip]

/-- The focus moves to the root. -/
theorem at_plug : At s c t ↔ At s [] (plug c t) := by
  induction c generalizing t with
  | nil => rfl
  | cons f c ih => rw [at_cons, ih, plug]

/-! ### Reads -/

/-- What the heap holds at the node in focus. -/
theorem At.node_eq (h : At s c (bin d b l a r)) :
    s.node a = sided d (parent c) b l.root r.root := (rep_bin.1 h.rep).1

/-- The root field of the heap is the root of the whole tree. -/
theorem At.root_eq (h : At s c t) : s.root = (plug c t).root := (at_nil.1 (at_plug.1 h)).2.1

/-- The colour test reads the colour of a laid out tree; an absent node is black. -/
theorem Rep.isBlack (h : Rep s p t) : s.rbNodeIsBlack t.root = t.isBlack := by
  cases t with
  | leaf => rfl
  | node black l a r => exact congrArg RbNode.black h.1

/-- The colour test reads the colour of the subtree in focus. -/
theorem At.isBlack (h : At s c t) : s.rbNodeIsBlack t.root = t.isBlack := h.rep.isBlack

/-- The test for red is the opposite of that for black. -/
theorem At.isRed (h : At s c t) : s.rbNodeIsRed t.root = !t.isBlack := by
  rw [rbNodeIsRed, h.isBlack]

/-- The fields of the parent. -/
theorem At.parent_node (h : At s (f :: c) t) :
    s.node f.a = sided f.dir (parent c) f.black t.root f.sibling.root := h.ctx.1

/-- The parent field at the root of the subtree in focus names the context's node. -/
theorem At.parent_eq (h : At s c t) (ha : t.root = some a) : (s.node a).parent = parent c := by
  cases t with
  | leaf => cases ha
  | node black l x r =>
    obtain rfl : x = a := Option.some.inj ha
    rw [h.rep.1]

/-- The subtree in focus is a child of the node above it. -/
theorem At.isChild (h : At s (f :: c) t) : s.isChild t.root f.a := by
  unfold State.isChild
  rw [h.parent_node]
  cases f.dir <;> simp [sided]

/-- The subtree and its context have no node in common. -/
theorem At.not_mem (h : At s c t) (ha : a ∈ t.toList) : a ∉ elems c :=
  fun hc => (nodup_append.1 h.nodup).2.2 a ha a hc rfl

/-- The subtree in focus is not in its own context. -/
theorem At.root_not_mem (h : At s c t) (ha : t.root = some a) : a ∉ elems c :=
  h.not_mem (mem_of_root ha)

/-- The side of a node, as its parent has it. -/
theorem At.child_iff (h : At s (f :: c) t) (hroot : t.root = some a) (e : Dir) :
    some a = (s.node f.a).child e ↔ f.dir = e := by
  rw [h.parent_node]
  constructor
  · intro heq
    by_contra hne
    obtain rfl : e = f.dir.flip := by
      revert hne
      cases f.dir <;> cases e <;> simp [Dir.flip]
    rw [RbNode.child_flip_sided] at heq
    exact h.root_not_mem hroot (by simp [elems, mem_of_root heq.symm])
  · rintro rfl
    rw [RbNode.child_sided, hroot]

/-! ### Colours -/

/-- Colouring the node in focus colours the node of the tree. -/
theorem At.setColor (h : At s c (bin d b l a r)) (b' : Bool) :
    At (s.setColor a b') c (bin d b' l a r) := by
  have hnodup := nodup_bin.1 h.nodup
  obtain ⟨hnode, hl, hr⟩ := rep_bin.1 h.rep
  have hne : ∀ x ∈ l.toList ++ r.toList ++ elems c, (s.setColor a b').node x = s.node x := by
    intro x hx
    refine s.setColor_node_ne _ ?_
    rintro rfl
    exact (nodup_cons.1 hnodup).1 hx
  refine ⟨rep_bin.2 ⟨?_, hl.congr fun x hx => ?_, hr.congr fun x hx => ?_⟩, ?_, nodup_bin.2 hnodup⟩
  · rw [setColor_node, hnode, RbNode.setColor_sided]
  · exact hne x (by simp [hx])
  · exact hne x (by simp [hx])
  · rw [root_bin]
    have hctx := h.ctx
    rw [root_bin] at hctx
    exact hctx.congr rfl fun x hx => hne x (by simp [hx])

/-- The colour of the child on the side. -/
theorem At.setColor_child {e : Dir} {b1 : Bool} {x : ℕ} (h : At s c (bin d b (bin e b1 l x r) a u))
    (b' : Bool) : At (s.setColor x b') c (bin d b (bin e b' l x r) a u) :=
  at_bin.2 ((at_bin.1 h).setColor b')

/-- The colour of the child on the other side. -/
theorem At.setColor_sibling {e : Dir} {b1 : Bool} {x : ℕ}
    (h : At s c (bin d b u a (bin e b1 l x r)))
    (b' : Bool) : At (s.setColor x b') c (bin d b u a (bin e b' l x r)) :=
  at_bin_flip.2 ((at_bin_flip.1 h).setColor b')

/-! ### Splicing -/

/-- The hole of a context gets another root. -/
theorem RepCtx.setChild {v v' : Option ℕ} (h : RepCtx s (f :: c) v)
    (hnodup : (elems (f :: c)).Nodup) :
    RepCtx (s.setChild f.dir f.a v') (f :: c) v' := by
  obtain ⟨ha, hs, hc⟩ := h
  have hne : ∀ x ∈ f.sibling.toList ++ elems c, (s.setChild f.dir f.a v').node x = s.node x := by
    intro x hx
    refine s.setChild_node_ne _ _ ?_
    rintro rfl
    exact (nodup_cons.1 hnodup).1 hx
  refine ⟨?_, hs.congr fun x hx => hne x (by simp [hx]),
    hc.congr rfl fun x hx => hne x (by simp [hx])⟩
  rw [setChild_node, ha, RbNode.setChild_sided]

/-- What `rb_tree_splice` does to a context. -/
structure Spliced (s s' : State) (c : Ctx ℕ) (v : Option ℕ) : Prop where
  /-- The context is laid out for `v`. -/
  ctx : RepCtx s' c v
  /-- `v` has the context's node as parent. -/
  root : ∀ a, v = some a → s'.node a = { s.node a with parent := parent c }
  /-- Other nodes stay. -/
  frame : ∀ a, a ∉ elems c → v ≠ some a → s'.node a = s.node a

/-- `rb_tree_splice` on the side of the parent finds the side of `u`. -/
theorem spliceParent_spec {n : ℕ} {v : Option ℕ} (hctx : RepCtx s c (some n))
    (hparent : (s.node n).parent = parent c) (hn : n ∉ elems c) (hnodup : (elems c).Nodup) :
    ∃ s', s.spliceParent n v = some s' ∧ RepCtx s' c v ∧ ∀ a, a ∉ elems c →
      s'.node a = s.node a := by
  unfold spliceParent
  rw [hparent]
  cases c with
  | nil => exact ⟨{ s with root := v }, if_pos hctx, rfl, fun _ _ => rfl⟩
  | cons f c =>
    refine ⟨s.setChild f.dir f.a v, ?_, hctx.setChild hnodup, fun x hx => ?_⟩
    · obtain ⟨ha, -, -⟩ := hctx
      obtain ⟨dir, black, a, sibling⟩ := f
      cases dir with
      | left => simp only [parent, ha, sided, if_true]
      | right =>
        have hne : sibling.root ≠ some n := by
          intro heq
          exact hn (by simp [elems, mem_of_root heq])
        simp only [parent, ha, sided, if_neg hne, if_true]
    · refine s.modify_node_ne _ ?_
      rintro rfl
      exact hx (by simp [elems])

/-- `rb_tree_splice` hangs `v` where the node was and changes the node above it only. -/
theorem rbTreeSplice_spec {n : ℕ} {v : Option ℕ} (hctx : RepCtx s c (some n))
    (hparent : (s.node n).parent = parent c) (hn : n ∉ elems c) (hnodup : (elems c).Nodup)
    (hv : ∀ a, v = some a → a ∉ elems c) :
    ∃ s', s.rbTreeSplice n v = some s' ∧ Spliced s s' c v := by
  obtain ⟨t, ht, hctx', hframe⟩ := spliceParent_spec (v := v) hctx hparent hn hnodup
  refine ⟨t.setParentIf v (parent c), by rw [rbTreeSplice, ht, hparent]; rfl, ?_, ?_, ?_⟩
  · refine hctx'.congr (t.setParentIf_root _ _) fun x hx => t.setParentIf_node_ne ?_
    exact fun heq => hv x heq hx
  · rintro a rfl
    rw [setParentIf_node, hframe a (hv a rfl)]
  · intro a ha hne
    rw [t.setParentIf_node_ne hne, hframe a ha]

/-- A node with at most one child is replaced by this child. -/
theorem At.splice (h : At s c (bin d b leaf a t)) :
    ∃ s', s.rbTreeSplice a t.root = some s' ∧ At s' c t ∧ s'.node a = s.node a := by
  have hnodup := nodup_bin.1 h.nodup
  simp only [toList, nil_append, nodup_cons, nodup_append, mem_append, not_or] at hnodup
  obtain ⟨⟨hat, hac⟩, ht, hc, hdisj⟩ := hnodup
  obtain ⟨hnode, -, hrep⟩ := rep_bin.1 h.rep
  have hctx := h.ctx
  rw [root_bin] at hctx
  have hnot : ∀ x ∈ t.toList, x ∉ elems c := fun x hx hxc => hdisj x hx x hxc rfl
  obtain ⟨s', hs', hsp⟩ := rbTreeSplice_spec (v := t.root) hctx (by rw [hnode, RbNode.parent_sided])
    hac hc fun x hx => hnot x (mem_of_root hx)
  refine ⟨s', hs', ⟨hrep.reparent ht hsp.root fun x hx hne => ?_, hsp.ctx, ?_⟩, ?_⟩
  · exact hsp.frame x (hnot x hx) hne
  · exact nodup_append.2 ⟨ht, hc, hdisj⟩
  · exact hsp.frame a hac fun heq => hat (mem_of_root heq)

/-! ### Rotations -/

/-- What a rotation of `x` and its child `y` does, with `m` as the root between them. -/
structure Rotated (d : Dir) (s s' : State) (c : Ctx ℕ) (x y : ℕ) (b1 b2 : Bool) (l m r : Option ℕ) :
    Prop where
  /-- The context is laid out for `y`. -/
  ctx : RepCtx s' c (some y)
  /-- The upper node after the rotation. -/
  upper : s'.node y = sided d (parent c) b2 (some x) r
  /-- The lower node after the rotation. -/
  lower : s'.node x = sided d (some y) b1 l m
  /-- The subtree between them. -/
  middle : ∀ a, m = some a → s'.node a = { s.node a with parent := some x }
  /-- Other nodes stay. -/
  frame : ∀ a, a ≠ x → a ≠ y → a ∉ elems c → m ≠ some a → s'.node a = s.node a

/-- A rotation on the level of the heap: the three nodes and the link from above that it writes. -/
theorem rotate_spec {x y : ℕ} {b1 b2 : Bool} {l m r : Option ℕ} (hctx : RepCtx s c (some x))
    (hx : s.node x = sided d (parent c) b1 l (some y)) (hy : s.node y = sided d (some x) b2 m r)
    (hxy : x ≠ y) (hxc : x ∉ elems c) (hyc : y ∉ elems c) (hc : (elems c).Nodup)
    (hm : ∀ a, m = some a → a ≠ x ∧ a ≠ y ∧ a ∉ elems c) :
    ∃ s', s.rotate d x = some s' ∧ Rotated d s s' c x y b1 b2 l m r := by
  have hmx : m ≠ some x := fun heq => (hm x heq).1 rfl
  have hmy : m ≠ some y := fun heq => (hm y heq).2.1 rfl
  -- the writes in front of the splice
  let s2 := (s.setChild d.flip x m).setParentIf m (some x)
  have h2 : ∀ a, a ≠ x → m ≠ some a → s2.node a = s.node a := by
    intro a hne hroot
    rw [setParentIf_node_ne _ hroot, setChild_node_ne _ _ _ hne]
  have h2x : s2.node x = sided d (parent c) b1 l m := by
    rw [setParentIf_node_ne _ hmx, setChild_node, hx, RbNode.setChild_flip_sided]
  have h2m : ∀ a, m = some a → s2.node a = { s.node a with parent := some x } := by
    intro a ha
    simp only [s2, ha, setParentIf_node, setChild_node_ne _ _ _ (hm a ha).1]
  have hctx2 : RepCtx s2 c (some x) := by
    refine hctx.congr (setParentIf_root _ _ _) fun a ha => h2 a ?_ ?_
    · exact fun heq => hxc (heq ▸ ha)
    · exact fun heq => (hm a heq).2.2 ha
  obtain ⟨s3, hs3, hsp⟩ := rbTreeSplice_spec (v := some y) hctx2
    (by rw [h2x, RbNode.parent_sided]) hxc hc (by rintro a ⟨⟩; exact hyc)
  have h3 : ∀ a, a ≠ y → a ∉ elems c → s3.node a = s2.node a := fun a hay hac =>
    hsp.frame a hac fun heq => hay (Option.some.inj heq).symm
  -- the writes behind it
  let s5 := (s3.setChild d y (some x)).rbNodeSetParent x (some y)
  have h5 : ∀ a, a ≠ x → a ≠ y → s5.node a = s3.node a := by
    intro a hax hay
    rw [rbNodeSetParent_node_ne _ _ hax, setChild_node_ne _ _ _ hay]
  refine ⟨s5, ?_, ?_, ?_, ?_, ?_, ?_⟩
  · simp only [State.rotate, hx, RbNode.child_flip_sided, hy, RbNode.child_sided,
      Option.bind_eq_bind, Option.bind_some]
    rw [show (s.setChild d.flip x m).setParentIf m (some x) = s2 from rfl, hs3]
    rfl
  · refine hsp.ctx.congr rfl fun a ha => h5 a ?_ ?_
    · exact fun heq => hxc (heq ▸ ha)
    · exact fun heq => hyc (heq ▸ ha)
  · rw [rbNodeSetParent_node_ne _ _ hxy.symm, setChild_node, hsp.root y rfl,
      h2 y hxy.symm hmy, hy, RbNode.setParent_sided, RbNode.setChild_sided]
  · rw [rbNodeSetParent_node, setChild_node_ne _ _ _ hxy, h3 x hxy hxc, h2x,
      RbNode.setParent_sided]
  · intro a ha
    obtain ⟨hax, hay, hac⟩ := hm a ha
    rw [h5 a hax hay, h3 a hay hac, h2m a ha]
  · intro a hax hay hac hne
    rw [h5 a hax hay, h3 a hay hac, h2 a hax hne]

/-- A rotation of the heap is the rotation of the tree in focus. -/
theorem At.rotate {x y : ℕ} {A B C : ColorTree ℕ} {b1 b2 : Bool}
    (h : At s c (bin d b1 A x (bin d b2 B y C))) :
    ∃ s', s.rotate d x = some s' ∧ At s' c (bin d b2 (bin d b1 A x B) y C) := by
  have hperm : (bin d b1 A x (bin d b2 B y C)).toList.Perm
      (x :: y :: (A.toList ++ B.toList ++ C.toList)) := by
    refine (toList_bin_perm _ _ _ _ _).trans (List.Perm.cons x ?_)
    refine ((toList_bin_perm _ _ _ _ _).append_left _).trans ?_
    rw [append_assoc]
    exact perm_middle
  have hnodup := (hperm.append_right (elems c)).nodup_iff.1 h.nodup
  simp only [cons_append, nodup_cons, mem_cons, mem_append, not_or, nodup_append] at hnodup
  obtain ⟨⟨hxy, ⟨⟨hxA, hxB⟩, hxC⟩, hxc⟩, ⟨⟨⟨hyA, hyB⟩, hyC⟩, hyc⟩,
    ⟨⟨-, hB, hAB⟩, -, hABC⟩, hc, hABCc⟩ :=
    hnodup
  have hnot : ∀ a, a ∈ A.toList ∨ a ∈ B.toList ∨ a ∈ C.toList → a ≠ x ∧ a ≠ y ∧ a ∉ elems c := by
    intro a ha
    refine ⟨?_, ?_, fun hac => hABCc a (or_assoc.2 ha) a hac rfl⟩
    · rintro rfl
      exact ha.elim hxA (Or.rec hxB hxC)
    · rintro rfl
      exact ha.elim hyA (Or.rec hyB hyC)
  obtain ⟨hx, hrepA, hrep⟩ := rep_bin.1 h.rep
  obtain ⟨hy, hrepB, hrepC⟩ := rep_bin.1 hrep
  have hctx := h.ctx
  rw [root_bin] at hx hctx
  obtain ⟨s', hs', rot⟩ := rotate_spec hctx hx hy hxy hxc hyc hc fun a ha =>
    hnot a (.inr (.inl (mem_of_root ha)))
  have hother : ∀ a, a ∈ A.toList ∨ a ∈ B.toList ∨ a ∈ C.toList → B.root ≠ some a →
      s'.node a = s.node a := by
    intro a ha hne
    obtain ⟨hax, hay, hac⟩ := hnot a ha
    exact rot.frame a hax hay hac hne
  refine ⟨s', hs', rep_bin.2 ⟨by rw [root_bin, rot.upper], rep_bin.2 ⟨rot.lower, ?_, ?_⟩, ?_⟩, ?_,
    ?_⟩
  · refine hrepA.congr fun a ha => hother a (.inl ha) ?_
    exact fun heq => hAB a ha a (mem_of_root heq) rfl
  · exact hrepB.reparent hB rot.middle fun a ha hne => hother a (.inr (.inl ha)) hne
  · refine hrepC.congr fun a ha => hother a (.inr (.inr ha)) ?_
    exact fun heq => hABC a (.inr (mem_of_root heq)) a ha rfl
  · rw [root_bin]
    exact rot.ctx
  · rw [← toList_rotate d b1 b2 b2 b1]
    exact h.nodup

/-- The rotation the other way. -/
theorem At.rotate_flip {x y : ℕ} {A B C : ColorTree ℕ} {b1 b2 : Bool}
    (h : At s c (bin d b1 (bin d b2 A x B) y C)) :
    ∃ s', s.rotate d.flip y = some s' ∧ At s' c (bin d b2 A x (bin d b1 B y C)) := by
  have h' : At s c (bin d.flip b1 C y (bin d.flip b2 B x A)) := by
    rw [bin_flip, bin_flip]
    exact h
  obtain ⟨s', hs', hat⟩ := h'.rotate
  rw [bin_flip, bin_flip] at hat
  exact ⟨s', hs', hat⟩

end

end Mesa3D.RbTree
