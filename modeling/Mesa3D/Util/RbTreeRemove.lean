import Mesa3D.Structured.Fuel
import Mesa3D.Util.RbTreeHeap

/-!
# Removal

A node with two children is replaced by the next one in order, which has no left child. If the node
that left its place was black, one black node is missing on the paths through `x` (`Removing`). An
iteration of the loop moves `x` up, or a rotation ends it. In front of an iteration the sibling of
`x` is not `NULL`, since there is a black node on the paths through it. So the comparison of `x`
with `x_p->left` finds the side of `x` even if `x` is `NULL`.
-/

namespace Mesa3D.RbTree

open RedBlack RedBlack.ColorTree RedBlack.Ctx Fuel
open State hiding root node
open Option (bind_eq_bind bind_some some.inj)
open List

variable {s : State} {d e : Dir} {b : Bool} {c : Ctx ℕ}
  {t l r A B R : ColorTree ℕ} {xp w y z p n : ℕ}
  {L : List ℕ}

/-! ### The loop body -/

/-- The sibling is red: a rotation gives a black one. -/
theorem removeRedSibling_spec (h : At s c (bin d true t xp (bin d false l w r)))
    (hl : l.root = some y) :
    ∃ s', s.removeRedSibling d t.root xp w = some (s', y) ∧
      At s' c (bin d true (bin d false t xp l) w r) := by
  obtain ⟨s', hs', hat⟩ := ((h.setColor_sibling true).setColor false).rotate
  refine ⟨s', ?_, hat⟩
  have hnode := (at_bin.1 hat).node_eq
  simp only [removeRedSibling, rbNodeSetBlack, rbNodeSetRed, hs', hnode,
    RbNode.child_sided, RbNode.child_flip_sided, hl, if_true, bind_eq_bind, bind_some]

/-- The inner child of the sibling is red, and the outer one black: a rotation changes that. -/
theorem removeInnerRed_spec (h : At s c (bin d b t xp (bin d true (bin d false A p B) w r))) :
    ∃ s', s.removeInnerRed d xp w = some (s', p) ∧
      At s' c (bin d b t xp (bin d true A p (bin d false B w r))) := by
  have hw := at_bin_flip.1 h
  obtain ⟨s', hs', hat⟩ := ((hw.setColor_child true).setColor false).rotate_flip
  have hat' := at_bin_flip.2 hat
  refine ⟨s', ?_, hat'⟩
  simp only [removeInnerRed, hw.node_eq, RbNode.child_sided, root_bin, rbNodeSetBlack,
    rbNodeSetRed, hs', hat'.node_eq, RbNode.child_flip_sided, bind_eq_bind, bind_some]

/-- The outer child of the sibling is red: the last rotation. -/
theorem removeOuterRed_spec (h : At s c (bin d b t xp (bin d true l w (bin e false A p B)))) :
    ∃ s', s.removeOuterRed d xp w = some s' ∧
      At s' c (bin d b (bin d true t xp l) w (bin e true A p B)) := by
  have h1 := (h.setColor_sibling b).setColor true
  have h2 := at_bin_flip.2 ((at_bin_flip.1 h1).setColor_sibling true)
  obtain ⟨s', hs', hat⟩ := h2.rotate
  refine ⟨s', ?_, hat⟩
  have hcolor : (s.node xp).black = b := by rw [h.node_eq, RbNode.black_sided]
  have hw := (at_bin_flip.1 h1).node_eq
  simp only [removeOuterRed, rbNodeCopyColor, hcolor, rbNodeSetBlack, hw,
    RbNode.child_flip_sided, root_bin, bind_eq_bind, bind_some, hs']

/-! ### The loop -/

/-- The loop at `x` with the parent `x_p`. -/
structure Removing (s : State) (c : Ctx ℕ) (t : ColorTree ℕ) (n : ℕ) (L : List ℕ) : Prop where
  /-- The tree in focus is in the heap. -/
  heap : At s c t
  /-- The context wants one black node more. -/
  ctxOk : CtxOk c (n + 1)
  /-- A black tree lacks it. -/
  black : t.isBlack = true → Balanced t n
  /-- A red tree has it when blackened. -/
  red : t.isBlack = false → Balanced t.blacken (n + 1)
  /-- The elements. -/
  list : (plug c t).toList = L

section

variable (h : At s c (bin d b t xp (bin d true l w r)))
  (hc : CtxOk (⟨d, b, xp, bin d true l w r⟩ :: c) (n + 1)) (ht : Balanced t n)
include h hc ht

/-- The loop ends with the last rotation. -/
theorem removeOuterRed_removing (hr : r.isBlack = false) :
    ∃ s' t' n', s.removeOuterRed d xp w = some s' ∧ s'.root = t'.root ∧ t' ≠ leaf ∧
      Removing s' [] t' n' (plug c (bin d b t xp (bin d true l w r))).toList := by
  obtain ⟨A, p, B, rfl⟩ := exists_bin_red d hr
  obtain ⟨s', hs', hat⟩ := removeOuterRed_spec h
  have hlist : (plug c (bin d b (bin d true t xp l) w (bin d true A p B))).toList =
      (plug c (bin d b t xp (bin d true l w (bin d false A p B)))).toList := by
    refine toList_plug_congr c ((toList_rotate d b true b true).symm.trans ?_)
    exact toList_bin_congr d xp rfl (toList_bin_congr d w rfl (toList_bin_congr d p rfl rfl))
  obtain ⟨hl, hr'⟩ := balanced_bin_black.1 hc.sibling
  have hbal : Balanced (bin d true A p B) (n + 1) := by simpa using hr'.blacken hr
  have hc' : CtxOk (⟨d, b, w, bin d true A p B⟩ :: c) (n + 1) := hc.replace hbal isBlack_bin
  obtain ⟨hb, n', hn'⟩ := hc'.isRedBlack (balanced_bin_black (d := d) (a := xp).2 ⟨ht, hl⟩)
    (.inl isBlack_bin)
  refine ⟨s', _, n', hs', hat.root_eq, ?_, at_plug.1 hat, trivial, fun _ => hn', ?_, hlist⟩
  · exact ne_leaf_of_mem (a := w) (by simp [toList_plug, mem_toList_bin])
  · intro hf
    cases hb.symm.trans hf

/-- The body for a black sibling. -/
theorem removeBlackSibling_spec :
    ∃ s' c' t' n', s.removeBlackSibling d xp w = some (s', t'.root) ∧ t' ≠ leaf ∧
      Removing s' c' t' n' (plug c (bin d b t xp (bin d true l w r))).toList ∧
      (c' = [] ∨ c' = c ∧ (b = false → t'.isBlack = false)) := by
  have hw := at_bin_flip.1 h
  have hlb := (at_bin.1 hw).isBlack
  have hrb := (at_bin_flip.1 hw).isBlack
  simp only [removeBlackSibling, hw.node_eq, RbNode.child_sided, RbNode.child_flip_sided, hlb,
    hrb]
  cases hr : r.isBlack with
  | false =>
    obtain ⟨s', t', n', hs', hroot, hne, hrem⟩ := removeOuterRed_removing h hc ht hr
    refine ⟨s', [], t', n', ?_, hne, hrem, .inl rfl⟩
    simp [hs', hroot]
  | true =>
    obtain ⟨hl, hr'⟩ := balanced_bin_black.1 hc.sibling
    cases hll : l.isBlack with
    | false =>
      obtain ⟨A, p, B, rfl⟩ := exists_bin_red d hll
      obtain ⟨s1, hs1, h1⟩ := removeInnerRed_spec h
      obtain ⟨-, hBb, hA, hB⟩ := balanced_bin_red.1 hl
      have hbal' : Balanced (bin d true A p (bin d false B w r)) (n + 1) :=
        balanced_bin_black.2 ⟨hA, balanced_bin_red.2 ⟨hBb, hr, hB, hr'⟩⟩
      obtain ⟨s', t', n', hs', hroot, hne, hrem⟩ := removeOuterRed_removing h1
        (hc.replace hbal' isBlack_bin) ht isBlack_bin
      refine ⟨s', [], t', n', ?_, hne, ?_, .inl rfl⟩
      · simp [hs1, hs', hroot]
      · refine { hrem with list := hrem.list.trans (toList_plug_congr c ?_) }
        exact toList_bin_congr d xp rfl (toList_rotate d true false true false)
    | true =>
      have hbal' : Balanced (bin d false l w r) n := balanced_bin_red.2 ⟨hll, hr, hl, hr'⟩
      refine ⟨s.rbNodeSetRed w, c, bin d b t xp (bin d false l w r),
        if b then n + 1 else n, ?_, ?_, ?_, ?_⟩
      · simp
      · cases d <;> simp [bin]
      · have hlist : (plug c (bin d b t xp (bin d false l w r))).toList =
            (plug c (bin d b t xp (bin d true l w r))).toList :=
          toList_plug_congr c (toList_bin_congr d xp rfl (toList_bin_congr d w rfl rfl))
        cases b with
        | true =>
          refine ⟨h.setColor_sibling false, hc.2, fun _ =>
            balanced_bin_black.2 ⟨ht, hbal'⟩, ?_, hlist⟩
          simp
        | false =>
          refine ⟨h.setColor_sibling false, hc.2.2.2, by simp, fun _ => ?_, hlist⟩
          rw [blacken_bin]
          exact balanced_bin_black.2 ⟨ht, hbal'⟩
      · refine .inr ⟨rfl, ?_⟩
        rw [isBlack_bin]
        exact id

end

/-- The body on a side. -/
theorem removeSide_spec {W : ColorTree ℕ} (h : Removing s (⟨d, b, xp, W⟩ :: c) t n L)
    (htb : t.isBlack = true) :
    ∃ s' c' t' n', s.removeSide d t.root xp = some (s', t'.root) ∧ t' ≠ leaf ∧
      Removing s' c' t' n' L ∧ (c' = [] ∨ c' = c ∨ t'.isBlack = false) := by
  obtain ⟨heap, hc, hblack, -, rfl⟩ := h
  have ht := hblack htb
  have hbal : Balanced W (n + 1) := hc.sibling
  obtain ⟨bw, l, w, r, rfl⟩ := exists_bin d hbal.ne_leaf
  have hat := at_bin.2 heap
  have hred := (at_bin_flip.1 hat).isRed
  rw [root_bin, isBlack_bin] at hred
  have hside : (s.node xp).child d.flip = some w := by
    rw [hat.node_eq, RbNode.child_flip_sided, root_bin]
  cases bw with
  | true =>
    obtain ⟨s', c', t', n', hs', hne, hrem, hc'⟩ := removeBlackSibling_spec hat hc ht
    refine ⟨s', c', t', n', ?_, hne, hrem, hc'.imp_right fun h => .inl h.1⟩
    simp only [removeSide, hside, hred, Bool.not_true, Bool.false_eq_true, if_false,
      bind_eq_bind, bind_some, hs']
  | false =>
    -- a red sibling has a black parent
    obtain rfl : b = true := by
      cases b with
      | true => rfl
      | false => exact absurd hc.2.1 (by simp)
    obtain ⟨-, hc⟩ := hc
    obtain ⟨hlb, hrb, hl, hr⟩ := balanced_bin_red.1 hbal
    obtain ⟨b', l1, y, l2, rfl⟩ := exists_bin d hl.ne_leaf
    obtain rfl : b' = true := by simpa using hlb
    obtain ⟨s1, hs1, h1⟩ := removeRedSibling_spec hat root_bin
    have hc1 : CtxOk (⟨d, false, xp, bin d true l1 y l2⟩ :: ⟨d, true, w, r⟩ :: c) (n + 1) :=
      ⟨hl, hlb, rfl, hr, hc⟩
    obtain ⟨s', c', t', n', hs', hne, hrem, hc'⟩ := removeBlackSibling_spec (at_bin.1 h1) hc1 ht
    refine ⟨s', c', t', n', ?_, hne, { hrem with list := hrem.list.trans ?_ },
      hc'.imp_right fun h => .inr (h.2 rfl)⟩
    · simp only [removeSide, hside, hred, Bool.not_false, if_true, hs1, bind_eq_bind,
        bind_some, hs']
    · exact toList_plug_congr c (toList_rotate d true false true false).symm

/-- The comparison with `x_p->left` finds the side of `x`. -/
theorem Removing.left_iff {f : Frame ℕ} (h : Removing s (f :: c) t n L) :
    t.root = (s.node f.a).left ↔ f.dir = .left := by
  have hbal := h.ctxOk.sibling
  cases ht : t.root with
  | some a => exact h.heap.child_iff ht .left
  | none =>
    rw [h.heap.parent_node, ht]
    have hne : f.sibling.root ≠ none := fun heq => hbal.ne_leaf (root_eq_none.1 heq)
    cases f.dir with
    | left => simp [RbNode.sided]
    | right => simp [RbNode.sided, hne.symm]

/-- `x` is the root of the tree only at the top. -/
theorem Removing.root_iff (h : Removing s c t n L) : t.root = s.root ↔ c = [] := by
  constructor
  · intro heq
    obtain _ | ⟨f, c⟩ := c
    · rfl
    obtain ⟨a, ha, hroot⟩ := exists_root_plug f c t
    rw [h.heap.root_eq, hroot] at heq
    exact absurd ha (h.heap.root_not_mem heq)
  · rintro rfl
    exact h.heap.root_eq.symm

/-- `x` is the root or red, and the loop ends. -/
theorem Removing.done (h : Removing s c t n L) (hc : c = [] ∨ t.isBlack = false) :
    ∃ r t', Returns (fun fuel => s.removeFixup fuel t.root (parent c)) r ∧
      Holds (r.1.setBlackIf r.2) t' ∧
      t'.toList = L := by
  have hend : ¬ (t.root ≠ s.root ∧ s.rbNodeIsBlack t.root = true) := by
    rw [Ne, h.root_iff, h.heap.isBlack]
    rintro ⟨hne, hb⟩
    rcases hc with hc | hc
    · exact hne hc
    · rw [hc] at hb
      cases hb
  refine ⟨(s, t.root), plug c t.blacken, Returns.of_succ fun fuel => ?_, ⟨?_, ?_⟩, ?_⟩
  · simp only [removeFixup, if_neg hend]
  · refine at_plug.1 ?_
    cases t with
    | leaf => exact h.heap
    | node b l a r => exact h.heap.setColor (d := .left) true
  · cases htb : t.isBlack with
    | false => exact h.ctxOk.isRedBlack (h.red htb) (.inl (isBlack_blacken t))
    | true =>
      obtain rfl : c = [] := hc.resolve_right (by simp [htb])
      rw [blacken_of_isBlack htb]
      exact ⟨htb, n, h.black htb⟩
  · rw [← h.list]
    exact toList_plug_congr c (toList_blacken t)

/-- The loop of `rb_tree_remove` ends, and then the tree is red-black. -/
theorem Removing.run (h : Removing s c t n L) :
    ∃ r t', Returns (fun fuel => s.removeFixup fuel t.root (parent c)) r ∧
      Holds (r.1.setBlackIf r.2) t' ∧
      t'.toList = L := by
  induction hm : c.length using Nat.strong_induction_on generalizing s c t n with
  | _ m ih =>
    cases htb : t.isBlack with
    | false => exact h.done (.inr htb)
    | true =>
      obtain _ | ⟨f, c⟩ := c
      · exact h.done (.inl rfl)
      obtain ⟨s', c', t', n', hbody, hne, h', hc'⟩ := removeSide_spec h htb
      obtain ⟨r, t'', hret, hspec⟩ : ∃ r t'',
        Returns (fun fuel => s'.removeFixup fuel t'.root (parent c')) r ∧
          Holds (r.1.setBlackIf r.2) t'' ∧ t''.toList = L := by
        rcases hc' with hnil | hsame | hred
        · exact h'.done (.inl hnil)
        · exact ih _ (by rw [hsame, ← hm]; simp) h' rfl
        · exact h'.done (.inr hred)
      refine ⟨r, t'', hret.step fun fuel => ?_, hspec⟩
      have hgo : t.root ≠ s.root ∧ s.rbNodeIsBlack t.root = true := by
        rw [Ne, h.root_iff, h.heap.isBlack]
        exact ⟨by simp, htb⟩
      have hparent : parent (f :: c) = some f.a := rfl
      obtain ⟨a, ha⟩ := Option.ne_none_iff_exists'.1 fun heq => hne (root_eq_none.1 heq)
      simp only [removeFixup, if_pos hgo, hparent, h.left_iff, bind_eq_bind, bind_some]
      cases hd : f.dir <;> rw [hd] at hbody <;> simp [hbody, ha, h'.heap.parent_eq ha]

/-! ### The node leaves its place -/

variable {a : ℕ} {b' : Bool}

/-- `rb_node_minimum` finds the first node, which has no left child. -/
theorem rbNodeMinimum_spec {q : Option ℕ} (h : Rep s q t) (ha : t.root = some a) :
    ∃ c b y r, t = plug c (bin .left b leaf y r) ∧ before c = [] ∧
      Returns (fun fuel => s.rbNodeMinimum fuel a) y := by
  induction t generalizing q a with
  | leaf => cases ha
  | node b l x r ihl =>
    obtain rfl : x = a := some.inj ha
    obtain ⟨hnode, hl, -⟩ := h
    cases hroot : l.root with
    | none =>
      obtain rfl : l = leaf := root_eq_none.1 hroot
      exact ⟨[], b, x, r, rfl, rfl,
        Returns.of_succ fun fuel => by simp [rbNodeMinimum, hnode, root]⟩
    | some m =>
      obtain ⟨c, b', y, r', rfl, hbefore, hret⟩ := ihl hl hroot
      refine ⟨c ++ [⟨.left, b, x, r⟩], b', y, r', ?_, ?_, hret.step fun fuel => ?_⟩
      · rw [plug_append]
        rfl
      · rw [before_append, hbefore]
        rfl
      · simp [rbNodeMinimum, hnode, hroot]

/-- `y` has the right subtree `R` already and can take the place of `z`. -/
structure Replaceable (s : State) (c : Ctx ℕ) (b : Bool) (l : ColorTree ℕ)
    (z y : ℕ) (R : ColorTree ℕ) : Prop where
  /-- The context is laid out for `z`. -/
  ctx : RepCtx s c (some z)
  /-- What `z` holds. -/
  old : ∃ q, s.node z = ⟨parent c, b, l.root, q⟩
  /-- What `y` holds. -/
  new : ∃ p b', s.node y = ⟨p, b', none, R.root⟩
  /-- The left subtree is below `z`. -/
  left : Rep s (some z) l
  /-- The right subtree is below `y` already. -/
  right : Rep s (some y) R
  /-- All nodes are different. -/
  nodup : (y :: z :: (l.toList ++ R.toList ++ elems c)).Nodup

/-- `y` takes the place of `z` under its colour. -/
theorem Replaceable.replaceBy (h : Replaceable s c b l z y R) (hl : l ≠ leaf) :
    ∃ s', s.replaceBy z y = some s' ∧ At s' c (node b l y R) := by
  obtain ⟨q, hz⟩ := h.old
  obtain ⟨p, b', hy⟩ := h.new
  obtain ⟨lr, hlr⟩ := Option.ne_none_iff_exists'.1 fun heq => hl (root_eq_none.1 heq)
  have hnodup := h.nodup
  simp only [nodup_cons, nodup_append, mem_cons, mem_append, not_or] at hnodup
  obtain ⟨⟨hyz, ⟨hyl, hyR⟩, hyc⟩, ⟨⟨hzl, hzR⟩, hzc⟩, ⟨hl', hR', hlR⟩, hc', hlRc⟩ := hnodup
  have hlmem := mem_of_root hlr
  have hly : lr ≠ y := fun heq => hyl (heq ▸ hlmem)
  have hlz : z ≠ lr := fun heq => hzl (heq ▸ hlmem)
  obtain ⟨s1, hs1, hsp⟩ := rbTreeSplice_spec (v := some y) h.ctx (by rw [hz]) hzc hc'
    (by rintro a ⟨⟩; exact hyc)
  have h1 : ∀ a, a ≠ y → a ∉ elems c → s1.node a = s.node a := fun a hay hac =>
    hsp.frame a hac fun heq => hay (some.inj heq).symm
  let s3 := (s1.setChild .left y (some lr)).rbNodeSetParent lr (some y)
  have h3 : ∀ a, a ≠ y → a ≠ lr → s3.node a = s1.node a := by
    intro a hay hal
    rw [rbNodeSetParent_node_ne _ _ hal, setChild_node_ne _ _ _ hay]
  have hother : ∀ a, a ≠ y → a ≠ lr → a ∉ elems c → s3.node a = s.node a := by
    intro a hay hal hac
    rw [h3 a hay hal, h1 a hay hac]
  have hnot : ∀ a, a ∈ l.toList ∨ a ∈ R.toList → a ∉ elems c := fun a ha hac => hlRc a ha a hac rfl
  refine ⟨s3.setColor y b, ?_, At.setColor (d := .left) (b := b') ⟨⟨?_, ?_, ?_⟩, ?_, ?_⟩ b⟩
  · have hcolor : (s3.node z).black = b := by
      rw [h3 z (Ne.symm hyz) hlz, h1 z (Ne.symm hyz) hzc, hz]
    have hleft : (s1.node z).left = some lr := by rw [h1 z (Ne.symm hyz) hzc, hz, hlr]
    have hleft' : ((s1.setChild .left y (some lr)).node y).left = some lr := by
      rw [setChild_node]
      rfl
    simp only [State.replaceBy, hy, if_true, hs1, hleft, hleft', bind_eq_bind, bind_some,
      rbNodeCopyColor]
    rw [show (s1.setChild .left y (some lr)).rbNodeSetParent lr (some y) = s3 from rfl, hcolor]
  · have hy1 : s1.node y = ⟨parent c, b', none, R.root⟩ := by rw [hsp.root y rfl, hy]
    rw [rbNodeSetParent_node_ne _ _ hly.symm, setChild_node, hy1, hlr]
    rfl
  · refine h.left.reparent hl' (fun a ha => ?_) fun a ha hne => ?_
    · obtain rfl : lr = a := some.inj (hlr.symm.trans ha)
      rw [rbNodeSetParent_node, setChild_node_ne _ _ _ hly, h1 _ hly (hnot _ (.inl hlmem))]
    · exact hother a (fun heq => hyl (heq ▸ ha)) (fun heq => hne (heq ▸ hlr)) (hnot a (.inl ha))
  · refine h.right.congr fun a ha => ?_
    exact hother a (fun heq => hyR (heq ▸ ha)) (fun heq => hlR lr hlmem a ha heq.symm)
      (hnot a (.inr ha))
  · refine hsp.ctx.congr rfl fun a ha => ?_
    have hay : a ≠ y := fun heq => hyc (heq ▸ ha)
    rw [h3 a hay fun heq => hnot lr (.inl hlmem) (heq ▸ ha)]
  · refine nodup_bin (d := .left).2 (nodup_cons.2 ⟨?_, (nodup_cons.1 (nodup_cons.1 h.nodup).2).2⟩)
    simp [hyl, hyR, hyc]

/-- The next node is the right child of `z`. -/
theorem At.replaceable (h : At s c (node b l z (bin .left b' leaf y r))) :
    Replaceable s c b l z y r := by
  obtain ⟨hz, hl, hy⟩ := h.rep
  obtain ⟨hy, -, hr⟩ := rep_bin.1 hy
  refine ⟨h.ctx, ⟨_, hz⟩, ⟨_, _, hy⟩, hl, hr, ?_⟩
  have hnodup := nodup_bin (d := .left).1 h.nodup
  refine Perm.nodup ?_ hnodup
  simp only [bin, toList, nil_append, append_assoc, cons_append]
  exact (Perm.cons z perm_middle).trans (Perm.swap y z _)

/-- A node outside the tree gets the right subtree of `z`. -/
theorem At.setRight {q q' : Option ℕ} (h : At s c (node b l z R))
    (hy : s.node y = ⟨q, b', none, q'⟩) (hmem : y ∉ (node b l z R).toList ++ elems c)
    (ha : R.root = some a) :
    Replaceable ((s.setChild .right y (some a)).rbNodeSetParent a (some y)) c b l z y R := by
  have hnodup : (y :: z :: (l.toList ++ R.toList ++ elems c)).Nodup := by
    refine nodup_cons.2 ⟨fun hy => hmem ?_, nodup_bin (d := .left).1 h.nodup⟩
    exact ((toList_bin_perm .left b l R z).append_right _).symm.subset hy
  have hnodup' := hnodup
  simp only [nodup_cons, nodup_append, mem_cons, mem_append, not_or] at hnodup
  obtain ⟨⟨hyz, ⟨hyl, hyR⟩, hyc⟩, ⟨⟨-, hzR⟩, -⟩, ⟨-, hR', hlR⟩, -, hlRc⟩ := hnodup
  have hamem := mem_of_root ha
  have hya : y ≠ a := fun heq => hyR (heq ▸ hamem)
  have hother : ∀ x, x ≠ y → x ≠ a →
      ((s.setChild .right y (some a)).rbNodeSetParent a (some y)).node x = s.node x := by
    intro x hxy hxa
    rw [rbNodeSetParent_node_ne _ _ hxa, setChild_node_ne _ _ _ hxy]
  obtain ⟨hz, hl, hR⟩ := h.rep
  refine ⟨?_, ⟨R.root, ?_⟩, ⟨q, b', ?_⟩, ?_, ?_, hnodup'⟩
  · refine h.ctx.congr rfl fun x hx => hother x (fun heq => hyc (heq ▸ hx)) ?_
    exact fun heq => hlRc a (.inr hamem) x hx heq.symm
  · rw [hother z (Ne.symm hyz) fun heq => hzR (heq ▸ hamem), hz]
  · rw [rbNodeSetParent_node_ne _ _ hya, setChild_node, hy, ha]
    rfl
  · refine hl.congr fun x hx => hother x (fun heq => hyl (heq ▸ hx)) ?_
    exact fun heq => hlR x hx a hamem heq
  · refine hR.reparent hR' (fun x hx => ?_) fun x hx hne => ?_
    · obtain rfl : a = x := some.inj (ha.symm.trans hx)
      rw [rbNodeSetParent_node, setChild_node_ne _ _ _ hya.symm]
    · exact hother x (fun heq => hyR (heq ▸ hx)) fun heq => hne (heq ▸ ha)

/-- The next node is further down and leaves its place first. -/
theorem At.takeRight {b' : Bool} {f : Frame ℕ} {c' : Ctx ℕ}
    (h : At s (f :: c' ++ ⟨.right, b, z, l⟩ :: c) (bin .left b' leaf y r)) :
    ∃ s', s.takeRight z y = some s' ∧ Replaceable s' c b l z y (plug (f :: c') r) := by
  have hyr : (s.node y).right = r.root := by
    rw [h.node_eq]
    rfl
  obtain ⟨s', hs', h', hy⟩ := h.splice
  rw [h.node_eq] at hy
  have hplug : plug (f :: c' ++ ⟨.right, b, z, l⟩ :: c) r = plug c
    (node b l z (plug (f :: c') r)) := by
    rw [plug_append]
    rfl
  obtain ⟨a, -, ha⟩ := exists_root_plug f c' r
  have hat : At s' c (node b l z (plug (f :: c') r)) := at_plug.2 (hplug ▸ at_plug.1 h')
  refine ⟨_, ?_, hat.setRight hy ?_ ha⟩
  · have hright : (s'.node z).right = some a := by rw [hat.rep.1, ha]
    have hright' : ((s'.setChild .right y (some a)).node y).right = some a := by
      rw [setChild_node]
      rfl
    simp only [State.takeRight, hyr, hs', hright, hright', bind_eq_bind, bind_some]
  · intro hmem
    refine (nodup_cons.1 (nodup_bin.1 h.nodup)).1 ?_
    refine (toList_plug_perm (f :: c' ++ ⟨.right, b, z, l⟩ :: c) r).subset ?_
    rw [hplug]
    exact (toList_plug_perm c _).symm.subset hmem

/-! ### The whole removal -/

/-- What `rb_tree_remove` has in front of its loop. -/
structure Removed (rem : Removal) (c : Ctx ℕ) (t : ColorTree ℕ) (L : List ℕ) : Prop where
  /-- The tree is in the heap. -/
  heap : At rem.state c t
  /-- `x` is the root of the subtree in focus. -/
  x : rem.x = t.root
  /-- `x_p` is the node above it. -/
  xp : rem.xp = parent c
  /-- When a black node was taken out, the subtree lacks one. -/
  black : rem.yWasBlack = true → ∃ n, CtxOk c (n + 1) ∧ Balanced t n
  /-- When a red one was, nothing is missing. -/
  red : rem.yWasBlack = false → ∃ n, CtxOk c n ∧ Balanced t n ∧ t.isBlack = true
  /-- The elements that are left. -/
  list : (plug c t).toList = L

/-- A node with at most one child. -/
theorem removeOuter_spec (h : At s c (bin d b leaf z t))
    (hrules : IsRedBlack (plug c (bin d b leaf z t))) :
    ∃ rem, s.removeOuter z t.root = some rem ∧
      Removed rem c t (before c ++ t.toList ++ after c) := by
  obtain ⟨s', hs', hat, -⟩ := h.splice
  obtain ⟨hblack, hred⟩ := hrules.without
  refine ⟨⟨s', t.root, parent c, b⟩, ?_, hat, rfl, rfl, hblack, hred, toList_plug c t⟩
  simp only [removeOuter, hs', h.node_eq, RbNode.parent_sided, rbNodeIsBlack,
    RbNode.black_sided, bind_eq_bind, bind_some]

/-- A node with two children, whose right subtree has the first node `y`. -/
theorem removeInner_eq {cr : Ctx ℕ} (h : At s c (node b l z (plug cr (bin .left b' leaf y r))))
    (hl : l ≠ leaf) (ha : (plug cr (bin .left b' leaf y r)).root = some a) :
    ∃ s', At s' c (node b l y (plug cr r)) ∧ ∀ fuel, s.rbNodeMinimum fuel a = some y →
      s.removeInner fuel z = some ⟨s', r.root, parent (cr ++ ⟨.right, b, y, l⟩ :: c), b'⟩ := by
  have hright : (s.node z).right = some a := by rw [h.rep.1, ha]
  have hy : At s (cr ++ ⟨.right, b, z, l⟩ :: c) (bin .left b' leaf y r) := by
    have hup : At s [] (plug c (node b l z (plug cr (bin .left b' leaf y r)))) := at_plug.1 h
    rw [at_plug, plug_append]
    exact hup
  have hyr : (s.node y).right = r.root := by
    rw [hy.node_eq]
    rfl
  have hyb : s.rbNodeIsBlack (some y) = b' := by
    simp only [rbNodeIsBlack, hy.node_eq, RbNode.black_sided]
  have hparent := hy.parent_eq root_bin
  obtain _ | ⟨f, cr⟩ := cr
  · obtain ⟨s', hs', hat⟩ := (At.replaceable h).replaceBy hl
    have hyz : (s.node y).parent = some z := hparent
    refine ⟨s', hat, fun fuel hmin => ?_⟩
    simp only [removeInner, hright, hmin, if_pos hyz, hs', hyr, hyb, bind_eq_bind, bind_some]
    rfl
  · have hfa : (s.node y).parent = some f.a := hparent
    have hfz : ¬ some f.a = some z := by
      have hnodup := (nodup_append.1 hy.nodup).2.1
      rw [cons_append, elems, nodup_cons] at hnodup
      rintro ⟨⟩
      exact hnodup.1 (by simp [elems_append, elems])
    obtain ⟨s1, hs1, hrep⟩ := hy.takeRight
    obtain ⟨s', hs', hat⟩ := hrep.replaceBy hl
    refine ⟨s', hat, fun fuel hmin => ?_⟩
    simp only [removeInner, hright, hmin, if_neg hfz, hs1, hs', hyr, hyb, hfa, bind_eq_bind,
      bind_some]
    rfl

/-- Removing a node with two children moves the next element to its place. -/
theorem removeInner_spec (h : At s c (node b l z r)) (hrules : IsRedBlack (plug c (node b l z r)))
    (hl : l ≠ leaf) (hr : r ≠ leaf) :
    ∃ rem c' t, Returns (fun fuel => s.removeInner fuel z) rem ∧
      Removed rem c' t (before c ++ (l.toList ++ r.toList) ++ after c) := by
  obtain ⟨a, ha⟩ := Option.ne_none_iff_exists'.1 fun heq => hr (root_eq_none.1 heq)
  obtain ⟨cr, b', y, ry, rfl, hbefore, n, hmin⟩ := rbNodeMinimum_spec h.rep.2.2 ha
  obtain ⟨s', hat, hs'⟩ := removeInner_eq h hl ha
  have hplug : ∀ x t, plug c (node b l x (plug cr t)) = plug (cr ++ ⟨.right, b, x, l⟩ :: c) t := by
    intro x t
    rw [plug_append]
    rfl
  obtain ⟨hblack, hred⟩ :=
    (hplug z _ ▸ hrules : IsRedBlack (plug _ (bin .left b' leaf y ry))).without
  refine ⟨⟨s', ry.root, parent (cr ++ ⟨.right, b, y, l⟩ :: c), b'⟩,
    cr ++ ⟨.right, b, y, l⟩ :: c, ry,
    ⟨n, fun fuel hfuel => hs' fuel (hmin fuel hfuel)⟩, ?_⟩
  · refine ⟨at_plug.2 (hplug y ry ▸ at_plug.1 hat), rfl, rfl, fun hb => ?_, fun hb => ?_, ?_⟩
    · obtain ⟨m, hc, hm⟩ := hblack hb
      exact ⟨m, hc.congr_elem y, hm⟩
    · obtain ⟨m, hc, hm⟩ := hred hb
      exact ⟨m, hc.congr_elem y, hm⟩
    · rw [← hplug, toList_plug]
      simp [toList, toList_plug, hbefore, bin]

/-- `rb_tree_remove` in front of the fixup. -/
theorem removeNode_spec (h : At s c (node b l z r)) (hrules : IsRedBlack (plug c (node b l z r))) :
    ∃ rem c' t, Returns (fun fuel => s.removeNode fuel z) rem ∧
      Removed rem c' t (before c ++ (l.toList ++ r.toList) ++ after c) := by
  have hnode : s.node z = ⟨parent c, b, l.root, r.root⟩ := h.rep.1
  by_cases hl : l.root = none
  · obtain rfl : l = leaf := root_eq_none.1 hl
    obtain ⟨rem, hrem, hspec⟩ := removeOuter_spec (d := .left) h hrules
    refine ⟨rem, c, r, Returns.of_eq fun fuel => ?_, hspec⟩
    simp only [removeNode, hnode, if_pos hl, hrem]
  by_cases hr : r.root = none
  · obtain rfl : r = leaf := root_eq_none.1 hr
    obtain ⟨rem, hrem, hspec⟩ := removeOuter_spec (d := .right) h hrules
    refine ⟨rem, c, l, Returns.of_eq fun fuel => ?_, by simpa [toList] using hspec⟩
    simp only [removeNode, hnode, if_neg hl, if_pos hr, hrem]
  · obtain ⟨rem, c', t, hret, hspec⟩ := removeInner_spec h hrules (fun heq => hl (heq ▸ rfl))
      fun heq => hr (heq ▸ rfl)
    refine ⟨rem, c', t, ?_, hspec⟩
    simpa only [removeNode, hnode, if_neg hl, if_neg hr] using hret

/-- The node that the fixing loop starts from is where it should be. -/
theorem Removed.ok {rem : Removal} (h : Removed rem c t L) : rem.ok := by
  unfold Removal.ok
  rw [h.xp]
  obtain _ | ⟨f, c⟩ := c
  · trivial
  · rw [h.x]
    exact h.heap.isChild

/-- `rb_tree_remove` takes a node out of the tree. -/
theorem rbTreeRemove_spec (h : Holds s t) (hz : z ∈ t.toList) :
    ∃ s' t', Returns (fun fuel => s.rbTreeRemove z fuel) s' ∧ Holds s' t' ∧
      t'.toList = t.toList.erase z := by
  obtain ⟨c, b, l, r, rfl⟩ := exists_plug hz
  have hat : At s c (node b l z r) := at_plug.2 h.heap
  have herase : (plug c (node b l z r)).toList.erase z = before c ++
    (l.toList ++ r.toList) ++ after c := by
    have hnodup : (plug c (node b l z r)).toList.Nodup := (at_nil.1 h.heap).2.2
    have hsplit : (plug c (node b l z r)).toList =
        (before c ++ l.toList) ++ z :: (r.toList ++ after c) := by
      simp [toList_plug, toList]
    rw [hsplit] at hnodup ⊢
    have hnot : z ∉ before c ++ l.toList := fun hmem =>
      (nodup_append.1 hnodup).2.2 z hmem z mem_cons_self rfl
    rw [erase_append_right _ hnot, erase_cons_head]
    simp
  rw [herase]
  obtain ⟨rem, c', t, hret, hrem⟩ := removeNode_spec hat h.rules
  cases hy : rem.yWasBlack with
  | true =>
    obtain ⟨n, hc, hn⟩ := hrem.black hy
    obtain ⟨x, t', hfix, hholds, hlist⟩ :=
      Removing.run ⟨hrem.heap, hc, fun _ => hn, hn.blacken, hrem.list⟩
    refine ⟨_, t', hret.bind (f := removeRest) ?_, hholds, hlist⟩
    simp only [removeRest, if_pos hrem.ok, hy, if_true, hrem.x, hrem.xp]
    exact hfix.bind (f := fun _ x => some (x.1.setBlackIf x.2)) (Returns.of_eq fun _ => rfl)
  | false =>
    obtain ⟨n, hc, hn, htb⟩ := hrem.red hy
    refine ⟨rem.state, plug c' t, hret.bind (f := removeRest) (Returns.of_eq fun fuel => ?_),
      ⟨at_plug.1 hrem.heap, hc.isRedBlack hn (.inl htb)⟩, hrem.list⟩
    simp only [removeRest, if_pos hrem.ok, hy, Bool.false_eq_true, if_false]

end Mesa3D.RbTree
