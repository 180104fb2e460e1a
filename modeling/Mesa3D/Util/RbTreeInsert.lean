import Mesa3D.Structured.Fuel
import Mesa3D.Util.RbTreeHeap

/-!
# Insertion

The loop of `rb_tree_insert_at` has a red node `z` with a subtree and a context that are balanced,
where only the parent of `z` may be red too (`Inserting`). An iteration moves `z` up by two nodes or
makes its parent black.
-/

namespace Mesa3D.RbTree

open RedBlack RedBlack.ColorTree RedBlack.Ctx Fuel
open State hiding root node
open List

variable {s : State} {d e : Dir} {c : Ctx ℕ} {t u w : ColorTree ℕ} {z zp zpp n : ℕ} {l : List ℕ}

/-! ### The loop body -/

/-- The uncle is red: it becomes black with the parent, and the grandparent becomes red. -/
theorem insertSide_red (h : At s c (bin d true (bin e false t zp w) zpp u))
    (hu : u.isBlack = false) :
    ∃ s', s.insertSide d z zp zpp = some (s', zpp) ∧
      At s' c (bin d false (bin e true t zp w) zpp u.blacken) := by
  obtain ⟨ul, y, ur, rfl⟩ := exists_bin_red d hu
  have hred := (at_bin_flip.1 h).isRed
  rw [root_bin, isBlack_bin] at hred
  refine ⟨((s.rbNodeSetBlack zp).rbNodeSetBlack y).rbNodeSetRed zpp, ?_, ?_⟩
  · simp only [insertSide, h.node_eq, RbNode.child_flip_sided, root_bin, hred, Bool.not_false,
      if_true, Option.bind_eq_bind, Option.bind_some]
  · rw [blacken_bin]
    exact ((h.setColor_child true).setColor_sibling true).setColor false

/-- The last rotation of the loop. -/
theorem insertLast (h : At s c (bin d true (bin d false t zp w) zpp u)) :
    ∃ s', ((s.rbNodeSetBlack zp).rbNodeSetRed zpp).rotate d.flip zpp = some s' ∧
      At s' c (bin d true t zp (bin d false w zpp u)) :=
  ((h.setColor_child true).setColor false).rotate_flip

/-- The uncle is black and `z` is an outer grandchild. -/
theorem insertSide_outer (h : At s c (bin d true (bin d false t zp w) zpp u)) (hz : t.root = some z)
    (hu : u.isBlack = true) :
    ∃ s', s.insertSide d z zp zpp = some (s', z) ∧
      At s' c (bin d true t zp (bin d false w zpp u)) := by
  have hred := (at_bin_flip.1 h).isRed
  rw [hu] at hred
  have hside : ¬ some z = (s.node zp).child d.flip := fun heq =>
    Dir.flip_ne d (((at_bin.1 (at_bin.1 h)).child_iff hz d.flip).1 heq).symm
  obtain ⟨s', hs', hat⟩ := insertLast h
  refine ⟨s', ?_, hat⟩
  simp only [insertSide, h.node_eq, RbNode.child_flip_sided, hred, if_neg hside, Bool.not_true,
    Bool.false_eq_true, if_false, Option.bind_eq_bind, Option.bind_some, hs']

/-- The uncle is black and `z` is an inner grandchild. -/
theorem insertSide_inner {B C : ColorTree ℕ}
    (h : At s c (bin d true (bin d false w zp (bin d false B z C)) zpp u)) (hu : u.isBlack = true) :
    ∃ s', s.insertSide d z zp zpp = some (s', zp) ∧
      At s' c (bin d true (bin d false w zp B) z (bin d false C zpp u)) := by
  have hred := (at_bin_flip.1 h).isRed
  rw [hu] at hred
  have hside : (s.node zp).child d.flip = some z := by
    rw [(at_bin.1 h).node_eq, RbNode.child_flip_sided, root_bin]
  obtain ⟨s1, hs1, h1⟩ := (at_bin.1 h).rotate
  have h1' := at_bin.2 h1
  obtain ⟨s', hs', hat⟩ := insertLast h1'
  refine ⟨s', ?_, hat⟩
  have hzp : (s1.node zp).parent = some z := (at_bin.1 h1).parent_eq root_bin
  have hzpp : (s1.node z).parent = some zpp := h1.parent_eq root_bin
  have hchild : s1.isChild (some zp) z := by simpa using (at_bin.1 h1).isChild
  simp only [insertSide, h.node_eq, RbNode.child_flip_sided, hred, hside, Bool.not_true, if_true,
    Bool.false_eq_true, if_false, insertInner, hs1, hzp, hzpp, if_pos hchild,
    Option.bind_eq_bind, Option.bind_some, hs']

/-- The body finds the side of the parent. -/
theorem insertBody_eq (h : At s (⟨e, false, zp, w⟩ :: ⟨d, true, zpp, u⟩ :: c) t)
    (hz : t.root = some z) :
    s.insertBody z = s.insertSide d z zp zpp := by
  have hzp : (s.node z).parent = some zp := h.parent_eq hz
  have hup := at_cons.1 h
  have hzpp : (s.node zp).parent = some zpp := hup.parent_eq root_bin
  have hchild : s.isChild (some z) zp := hz ▸ h.isChild
  have hside : some zp = (s.node zpp).left ↔ d = .left := hup.child_iff root_bin .left
  simp only [insertBody, hzp, hzpp, if_pos hchild, Option.bind_eq_bind, Option.bind_some, hside]
  cases d <;> simp

/-! ### The loop -/

/-- The loop at `z`. -/
structure Inserting (s : State) (c : Ctx ℕ) (t : ColorTree ℕ) (n z : ℕ) (l : List ℕ) : Prop where
  /-- The tree in focus is in the heap. -/
  heap : At s c t
  /-- Its root is the new node. -/
  root : t.root = some z
  /-- It is red. -/
  red : t.isBlack = false
  /-- It is balanced. -/
  balanced : Balanced t n
  /-- The context fits it, but for two red nodes in a row. -/
  ctxOk : CtxOk c n
  /-- The elements. -/
  list : (plug c t).toList = l

/-- One iteration. -/
theorem Inserting.step (h : Inserting s c t n z l) {f : Frame ℕ} {c' : Ctx ℕ} (hc : c = f :: c')
    (hf : f.black = false) :
    ∃ s' c' t' n' z', s.insertBody z = some (s', z') ∧ Inserting s' c' t' n' z' l ∧
      (c'.length < c.length ∨ blackFrame c') := by
  obtain ⟨heap, root, red, balanced, ctxOk, list⟩ := h
  obtain ⟨e, b, zp, w⟩ := f
  obtain rfl : b = false := hf
  subst hc
  obtain ⟨hw, hwb, hframe, hc'⟩ := ctxOk
  -- the parent is red, so the grandparent is there and black
  obtain _ | ⟨⟨d, b, zpp, u⟩, c⟩ := c'
  · exact absurd hframe id
  obtain rfl : b = true := hframe
  obtain ⟨hu, hc⟩ := hc'
  rw [insertBody_eq heap root]
  have hat : At s c (bin d true (bin e false t zp w) zpp u) := at_cons.1 (at_cons.1 heap)
  cases hub : u.isBlack with
  | false =>
    obtain ⟨s', hs', hat'⟩ := insertSide_red (z := z) hat hub
    refine ⟨s', c, _, n + 1, zpp, hs', ⟨hat', root_bin, isBlack_bin, ?_, hc, ?_⟩,
      .inl (by simp only [length_cons]; omega)⟩
    · exact balanced_bin_red.2 ⟨isBlack_bin, isBlack_blacken u,
        balanced_bin_black.2 ⟨balanced, hw⟩, hu.blacken hub⟩
    · refine (toList_plug_congr c ?_).trans list
      exact toList_bin_congr d zpp (toList_bin_congr e zp rfl rfl) (toList_blacken u)
  | true =>
    by_cases hed : e = d
    · subst hed
      obtain ⟨s', hs', hat'⟩ := insertSide_outer hat root hub
      refine ⟨s', _, t, n, z, hs', ⟨at_bin.1 hat', root, red, balanced, ⟨?_, hc⟩, ?_⟩, .inr rfl⟩
      · exact balanced_bin_red.2 ⟨hwb, hub, hw, hu⟩
      · exact (toList_plug_congr c (toList_rotate _ _ _ _ _)).trans list
    · obtain rfl : e = d.flip := by
        revert hed
        cases e <;> cases d <;> simp [Dir.flip]
      obtain ⟨B, x, C, rfl⟩ := exists_bin_red d red
      obtain rfl : x = z := by simpa using root
      rw [bin_flip] at hat
      obtain ⟨hBb, hCb, hB, hC⟩ := balanced_bin_red.1 balanced
      obtain ⟨s', hs', hat'⟩ := insertSide_inner hat hub
      refine ⟨s', _, _, n, zp, hs', ⟨at_bin.1 hat', root_bin, isBlack_bin, ?_,
        ⟨?_, hc⟩, ?_⟩, .inr rfl⟩
      · exact balanced_bin_red.2 ⟨hwb, hBb, hw, hB⟩
      · exact balanced_bin_red.2 ⟨hCb, hub, hC, hu⟩
      · refine (toList_plug_congr c ?_).trans list
        rw [bin_flip, toList_rotate d true false true false]
        exact toList_bin_congr d zpp (toList_rotate d false false false false).symm rfl

/-- The parent is not red, and the loop ends. -/
theorem Inserting.done (h : Inserting s c t n z l) (hc : c = [] ∨ blackFrame c) :
    ∃ t', Returns (fun fuel => s.insertFixup fuel z) s ∧ At s [] t' ∧ t' ≠ leaf ∧
      IsRedBlack t'.blacken ∧ t'.toList = l := by
  have hparent : s.rbNodeIsRed (s.node z).parent = false := by
    rw [h.heap.parent_eq h.root]
    rcases hc with rfl | hc
    · rfl
    · obtain _ | ⟨f, c⟩ := c
      · rfl
      · have hnode := h.heap.parent_node
        simp only [rbNodeIsRed, rbNodeIsBlack, parent, hnode, RbNode.black_sided]
        rw [show f.black = true from hc, Bool.not_true]
  refine ⟨plug c t, Returns.of_succ fun fuel => ?_, at_plug.1 h.heap, ?_, ?_, h.list⟩
  · simp only [insertFixup, hparent, Bool.false_eq_true, if_false]
  · exact ne_leaf_of_mem (a := z) (by simp [toList_plug, mem_of_root h.root])
  · rcases hc with rfl | hc
    · exact ⟨isBlack_blacken _, n + 1, h.balanced.blacken h.red⟩
    · have hrules := h.ctxOk.isRedBlack h.balanced (.inr hc)
      rwa [blacken_of_isBlack hrules.1]

/-- The loop of `rb_tree_insert_at` ends, with a tree that is red-black up to the colour of its
root. -/
theorem Inserting.run (h : Inserting s c t n z l) :
    ∃ s' t', Returns (fun fuel => s.insertFixup fuel z) s' ∧ At s' [] t' ∧ t' ≠ leaf ∧
      IsRedBlack t'.blacken ∧ t'.toList = l := by
  induction hm : c.length using Nat.strong_induction_on generalizing s c t n z with
  | _ m ih =>
    obtain _ | ⟨f, c⟩ := c
    · exact ⟨s, h.done (.inl rfl)⟩
    cases hf : f.black with
    | true => exact ⟨s, h.done (.inr hf)⟩
    | false =>
      obtain ⟨s', c', t', n', z', hbody, h', hc'⟩ := h.step rfl hf
      have hrun : ∃ s'' t'', Returns (fun fuel => s'.insertFixup fuel z') s'' ∧ At s'' [] t'' ∧
          t'' ≠ leaf ∧ IsRedBlack t''.blacken ∧ t''.toList = l := by
        rcases hc' with hlt | hblack
        · exact ih _ (hm ▸ hlt) h' rfl
        · exact ⟨s', h'.done (.inr hblack)⟩
      obtain ⟨s'', t'', hret, hspec⟩ := hrun
      refine ⟨s'', t'', hret.step fun fuel => ?_, hspec⟩
      have hred : s.rbNodeIsRed (s.node z).parent = true := by
        rw [h.heap.parent_eq h.root]
        simp only [rbNodeIsRed, rbNodeIsBlack, parent, h.heap.parent_node,
          RbNode.black_sided, hf, Bool.not_false]
      simp only [insertFixup, hred, if_true, hbody, Option.bind_eq_bind, Option.bind_some]

/-! ### The new node -/

/-- The new node goes to an empty place. -/
theorem At.attach {f : Frame ℕ} {new : ℕ} (h : At s (f :: c) leaf) (hnew : new ∉ elems (f :: c)) :
    ((s.modify new fun _ => ⟨none, false, none, none⟩).node f.a).child f.dir = none ∧
    At (((s.modify new fun _ => ⟨none, false, none, none⟩).setChild f.dir f.a
      (some new)).rbNodeSetParent
      new (some f.a)) (f :: c) (node false leaf new leaf) := by
  have hne : new ≠ f.a := fun heq => hnew (by simp [elems, heq])
  have hnodup : (elems (f :: c)).Nodup := by simpa [toList] using h.nodup
  have hctx : RepCtx (s.modify new fun _ => ⟨none, false, none, none⟩) (f :: c) none :=
    h.ctx.congr rfl fun a ha => s.modify_node_ne _ fun heq => hnew (heq ▸ ha)
  refine ⟨by rw [hctx.1, RbNode.child_sided], ?_, ?_, ?_⟩
  · refine ⟨?_, trivial, trivial⟩
    rw [rbNodeSetParent_node, setChild_node_ne _ _ _ hne, modify_node]
    rfl
  · refine (hctx.setChild hnodup).congr rfl fun a ha => ?_
    exact rbNodeSetParent_node_ne _ _ fun heq => hnew (heq ▸ ha)
  · simp only [toList, nil_append, cons_append, nodup_cons]
    exact ⟨hnew, hnodup⟩

/-- The subtree is on the left side of its parent. -/
def onLeft : Ctx ℕ → Bool
  | [] => false
  | f :: _ => f.dir = .left

/-- `rb_tree_insert_at`, for an empty place of the tree. -/
theorem rbTreeInsertAt_spec {new : ℕ} (h : At s c leaf) (hrules : IsRedBlack (plug c leaf))
    (hnew : new ∉ elems c) :
    ∃ s' t', Returns (fun fuel => s.rbTreeInsertAt fuel (parent c) new (onLeft c)) s' ∧
      Holds s' t' ∧
      t'.toList = before c ++ new :: after c := by
  obtain _ | ⟨f, c⟩ := c
  · let s' : State :=
      rbNodeSetBlack ⟨some new, (s.modify new fun _ => ⟨none, false, none, none⟩).node⟩ new
    have hnode : s'.node new = ⟨none, true, none, none⟩ := by
      simp [s', rbNodeSetBlack, setColor, State.modify]
    refine ⟨s', node true leaf new leaf, Returns.of_eq fun fuel => ?_,
      ⟨at_nil.2 ⟨⟨hnode, trivial, trivial⟩, rfl, nodup_singleton new⟩, rfl, 1, 0, rfl, rfl, rfl⟩,
        rfl⟩
    have hroot : s.root = none := h.ctx
    simp only [rbTreeInsertAt, parent, modify_root, hroot, if_true]
    rfl
  · obtain ⟨hchild, hat⟩ := h.attach hnew
    obtain ⟨n, hc, hn, -⟩ := hrules.zoom
    obtain rfl : n = 0 := hn
    obtain ⟨s', t', hret, hat', hne, hrules', hlist⟩ := Inserting.run
      ⟨hat, rfl, rfl, ⟨rfl, rfl, rfl, rfl⟩, hc, rfl⟩
    obtain ⟨b, l, root, r, rfl⟩ := exists_bin .left hne
    refine ⟨s'.rbNodeSetBlack root, bin .left true l root r, ?_, ⟨hat'.setColor true, ?_⟩, ?_⟩
    · have hroot : s'.root = some root := hat'.root_eq
      have hdir : (if onLeft (f :: c) then Dir.left else Dir.right) = f.dir := by
        cases hf : f.dir <;> simp [onLeft, hf]
      have hcall := hret.bind (f := fun _ s => s.root.bind fun root => some (s.rbNodeSetBlack root))
        (Returns.of_eq fun fuel => by rw [hroot]; rfl)
      simpa only [rbTreeInsertAt, parent, hdir, if_pos hchild, Option.bind_eq_bind] using hcall
    · rwa [blacken_bin] at hrules'
    · refine (toList_bin_congr .left root rfl rfl).trans (hlist.trans ?_)
      rw [toList_plug]
      simp [toList]

/-! ### The place of the new node -/

/-- A comparison function that is a total preorder. -/
structure TotalPreorder (cmp : ℕ → ℕ → ℤ) : Prop where
  /-- The signs are opposite. -/
  swap : ∀ a b, cmp a b < 0 ↔ 0 < cmp b a
  /-- The order is transitive. -/
  trans : ∀ a b c, cmp a b ≤ 0 → cmp b c ≤ 0 → cmp a c ≤ 0

/-- The nodes are sorted. -/
def Sorted (cmp : ℕ → ℕ → ℤ) (l : List ℕ) : Prop := l.Pairwise fun a b => cmp a b ≤ 0

variable {cmp : ℕ → ℕ → ℤ} {new : ℕ}

/-- What is less than an element is less than those behind it. -/
theorem TotalPreorder.lt_of_lt_of_le (hcmp : TotalPreorder cmp) {a b : ℕ} (h : cmp new a < 0)
    (hab : cmp a b ≤ 0) : cmp new b < 0 := by
  by_contra hlt
  have hle : cmp b new ≤ 0 := not_lt.1 fun hpos => hlt ((hcmp.swap new b).2 hpos)
  have hnot : cmp a new ≤ 0 := hcmp.trans a b new hab hle
  have hpos := (hcmp.swap new a).1 h
  omega

/-- The new node belongs to this place. -/
structure Placed (cmp : ℕ → ℕ → ℤ) (new : ℕ) (c : Ctx ℕ) : Prop where
  /-- What is before is not greater. -/
  before : ∀ a ∈ before c, cmp a new ≤ 0
  /-- What is after is greater. -/
  after : ∀ a ∈ after c, cmp new a < 0

/-- The nodes on the right of a greater node are greater. -/
theorem Placed.left {b : Bool} {x : ℕ} {l r : ColorTree ℕ}
    (hcmp : TotalPreorder cmp) (h : Placed cmp new c)
    (hsorted : Sorted cmp (plug c (node b l x r)).toList) (hx : cmp new x < 0) :
    Placed cmp new (⟨.left, b, x, r⟩ :: c) := by
  refine ⟨h.before, fun a ha => ?_⟩
  rw [Sorted, toList_plug, append_assoc, pairwise_append, toList, append_assoc,
    pairwise_append] at hsorted
  obtain ⟨-, ⟨-, hxr, -⟩, -⟩ := hsorted
  rw [Ctx.after, cons_append, mem_cons, mem_append] at ha
  rcases ha with rfl | ha | ha
  · exact hx
  · rw [cons_append, pairwise_cons] at hxr
    exact hcmp.lt_of_lt_of_le hx (hxr.1 a (mem_append_left _ ha))
  · exact h.after a ha

/-- The nodes on the left of a node that is not greater are not greater. -/
theorem Placed.right {b : Bool} {x : ℕ} {l r : ColorTree ℕ}
    (hcmp : TotalPreorder cmp) (h : Placed cmp new c)
    (hsorted : Sorted cmp (plug c (node b l x r)).toList) (hx : ¬ cmp new x < 0) :
    Placed cmp new (⟨.right, b, x, l⟩ :: c) := by
  have hxn : cmp x new ≤ 0 := not_lt.1 fun hpos => hx ((hcmp.swap new x).2 hpos)
  refine ⟨fun a ha => ?_, h.after⟩
  rw [Sorted, toList_plug, append_assoc, pairwise_append, toList, append_assoc,
    pairwise_append] at hsorted
  obtain ⟨-, ⟨-, -, hlx⟩, -⟩ := hsorted
  rw [Ctx.before, mem_append, mem_append, mem_singleton] at ha
  rcases ha with (ha | ha) | rfl
  · exact h.before a ha
  · exact hcmp.trans a x new (hlx a ha x (by simp)) hxn
  · exact hxn

/-- The loop of `rb_tree_insert` finds the place. -/
theorem insertSearch_spec (hcmp : TotalPreorder cmp) (h : At s c t) (hplaced : Placed cmp new c)
    (hsorted : Sorted cmp (plug c t).toList) :
    ∃ c', plug c t = plug c' leaf ∧ Placed cmp new c' ∧
      Returns (fun fuel => s.insertSearch cmp new fuel t.root (parent c) (onLeft c))
        (parent c', onLeft c') := by
  induction t generalizing c with
  | leaf => exact ⟨c, rfl, hplaced, Returns.of_succ fun fuel => rfl⟩
  | node b l x r ihl ihr =>
    have hnode := h.rep.1
    by_cases hx : cmp new x < 0
    · obtain ⟨c', hplug, hplaced', hret⟩ := ihl (at_bin (d := .left).1 h)
        (hplaced.left hcmp hsorted hx) hsorted
      refine ⟨c', hplug, hplaced', hret.step fun fuel => ?_⟩
      simp only [root, insertSearch, if_pos hx, hnode]
      rfl
    · obtain ⟨c', hplug, hplaced', hret⟩ := ihr (at_bin (d := .right).1 h)
        (hplaced.right hcmp hsorted hx) hsorted
      refine ⟨c', hplug, hplaced', hret.step fun fuel => ?_⟩
      simp only [root, insertSearch, if_neg hx, hnode]
      rfl

/-- `rb_tree_insert` puts a node behind those that are not greater. -/
theorem rbTreeInsert_spec (hcmp : TotalPreorder cmp) (h : Holds s t) (hsorted : Sorted cmp t.toList)
    (hnew : new ∉ t.toList) :
    ∃ s' t' l r, Returns (fun fuel => s.rbTreeInsert cmp new fuel) s' ∧ Holds s' t' ∧
      t.toList = l ++ r ∧ t'.toList = l ++ new :: r ∧ (∀ a ∈ l, cmp a new ≤ 0) ∧
      ∀ a ∈ r, cmp new a < 0 := by
  have hnil : Placed cmp new [] := ⟨fun a ha => absurd ha not_mem_nil,
    fun a ha => absurd ha not_mem_nil⟩
  obtain ⟨c, hplug, hplaced, hsearch⟩ := insertSearch_spec hcmp h.heap hnil hsorted
  obtain rfl : t = plug c leaf := hplug
  have hat := at_plug.2 h.heap
  have hnot : new ∉ elems c := by
    rw [(toList_plug_perm c leaf).mem_iff] at hnew
    simpa [toList] using hnew
  obtain ⟨s', t', hret, hholds, hlist⟩ := rbTreeInsertAt_spec hat h.rules hnot
  refine ⟨s', t', before c, after c, ?_,
    hholds, by simp [toList_plug, toList], hlist, hplaced.before,
    hplaced.after⟩
  have hroot : s.root = (plug c leaf).root := h.heap.root_eq
  rw [← hroot] at hsearch
  exact hsearch.bind (f := fun fuel r => s.rbTreeInsertAt fuel r.1 new r.2) hret

end Mesa3D.RbTree
