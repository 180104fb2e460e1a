import Mathlib.Data.List.Basic

/-!
# Red-black trees and their contexts

A binary tree whose nodes are black or red, and the context of a subtree: the path to it from the
root, with the siblings on the way (`Ctx`). `plug` puts a tree in a context. What is said for one
side is said for the other by a direction (`ColorTree.bin`).

A tree is red-black if its root is black, no red node has a red child, and all paths to a leaf have
the same number of black nodes. This is a condition on a subtree (`Balanced`) and one on its context
(`CtxOk`), with the black height of the subtree between them.
-/

namespace Mesa3D.RedBlack

/-- The sides of a node. -/
inductive Dir
  | left
  | right
deriving DecidableEq

/-- The other side. -/
def Dir.flip : Dir → Dir
  | .left => .right
  | .right => .left

variable {α : Type} (d : Dir)

/-- The other direction is another one. -/
@[simp] theorem Dir.flip_ne : d.flip ≠ d := by cases d <;> simp [Dir.flip]

/-- Binary trees with a colour at each node. -/
inductive ColorTree (α : Type)
  | leaf
  | node (black : Bool) (l : ColorTree α) (a : α) (r : ColorTree α)

variable {t : ColorTree α}

namespace ColorTree

/-- A node with `s` on a side and `t` on the other. -/
def bin (black : Bool) (s : ColorTree α) (a : α) (t : ColorTree α) : ColorTree α :=
  match d with
  | .left => .node black s a t
  | .right => .node black t a s

/-- The elements in order. -/
def toList : ColorTree α → List α
  | leaf => []
  | node _ l a r => l.toList ++ a :: r.toList

/-- The root is black, or there is none. -/
def isBlack : ColorTree α → Bool
  | leaf => true
  | node black _ _ _ => black

/-- The element at the root. -/
def root : ColorTree α → Option α
  | leaf => none
  | node _ _ a _ => some a

/-- The tree with a black root. -/
def blacken : ColorTree α → ColorTree α
  | leaf => leaf
  | node _ l a r => node true l a r

/-- The colour of a node given by sides. -/
@[simp] theorem isBlack_bin {d : Dir} {black : Bool} {s : ColorTree α} {a : α} :
    (bin d black s a t).isBlack = black := by cases d <;> rfl

/-- Blackening a node given by sides. -/
@[simp] theorem blacken_bin (black : Bool) (s t : ColorTree α) (a : α) :
    (bin d black s a t).blacken = bin d true s a t := by cases d <;> rfl

/-- A leaf has no root. -/
@[simp] theorem root_leaf : (leaf : ColorTree α).root = none := rfl

/-- The root of a node. -/
@[simp] theorem root_node (black : Bool) (l r : ColorTree α) (a : α) :
    (node black l a r).root = some a := rfl

/-- The root of a node given by sides. -/
@[simp] theorem root_bin {d : Dir} {black : Bool} {s : ColorTree α} {a : α} :
    (bin d black s a t).root = some a := by cases d <;> rfl

/-- Only the leaf has no root. -/
theorem root_eq_none : t.root = none ↔ t = leaf := by cases t <;> simp [root]

/-- A tree with an element is not a leaf. -/
theorem ne_leaf_of_mem {a : α} (h : a ∈ t.toList) : t ≠ leaf := by
  rintro rfl
  cases h

/-- The root is an element. -/
theorem mem_of_root {a : α} (h : t.root = some a) : a ∈ t.toList := by
  cases t with
  | leaf => cases h
  | node black l b r =>
    obtain rfl : b = a := Option.some.inj h
    simp [toList]

/-- Giving the sides in the other order. -/
theorem bin_flip (black : Bool) (s t : ColorTree α) (a : α) :
    bin d.flip black s a t = bin d black t a s := by cases d <;> rfl

/-- Blackening the root keeps the elements. -/
@[simp] theorem toList_blacken (t : ColorTree α) : t.blacken.toList = t.toList := by cases t <;> rfl

/-- A blackened tree is black. -/
@[simp] theorem isBlack_blacken (t : ColorTree α) : t.blacken.isBlack = true := by cases t <;> rfl

/-- Blackening a black tree does nothing. -/
theorem blacken_of_isBlack (h : t.isBlack = true) : t.blacken = t := by
  cases t with
  | leaf => rfl
  | node black l a r =>
    obtain rfl : black = true := h
    rfl

/-- The elements of a node given by sides, up to order. -/
theorem toList_bin_perm (black : Bool) (s t : ColorTree α) (a : α) :
    (bin d black s a t).toList.Perm (a :: (s.toList ++ t.toList)) := by
  cases d with
  | left => exact List.perm_middle
  | right => exact List.perm_middle.trans (List.perm_append_comm.cons a)

/-- Membership in a node given by sides. -/
theorem mem_toList_bin {d : Dir} {black : Bool} {s : ColorTree α} {a b : α} :
    b ∈ (bin d black s a t).toList ↔ b = a ∨ b ∈ s.toList ∨ b ∈ t.toList := by
  rw [(toList_bin_perm d black s t a).mem_iff, List.mem_cons, List.mem_append]

/-- Any node has its children on the sides. -/
theorem exists_bin (h : t ≠ leaf) : ∃ black s a u, t = bin d black s a u := by
  cases t with
  | leaf => exact absurd rfl h
  | node black l a r =>
    cases d with
    | left => exact ⟨black, l, a, r, rfl⟩
    | right => exact ⟨black, r, a, l, rfl⟩

/-- A red node is no leaf. -/
theorem exists_bin_red (h : t.isBlack = false) : ∃ s a u, t = bin d false s a u := by
  obtain ⟨black, s, a, u, rfl⟩ := exists_bin d (t := t) (by rintro rfl; cases h)
  obtain rfl : black = false := isBlack_bin.symm.trans h
  exact ⟨s, a, u, rfl⟩

/-- A rotation keeps the order. -/
theorem toList_rotate (b1 b2 b3 b4 : Bool) {s t u : ColorTree α} {x y : α} :
    (bin d b1 s x (bin d b2 t y u)).toList = (bin d b3 (bin d b4 s x t) y u).toList := by
  cases d <;> simp [bin, toList]

/-- The order does not depend on the colours. -/
theorem toList_bin_congr {b1 b2 : Bool} {s s' t' : ColorTree α} (a : α) (hs : s.toList = s'.toList)
    (ht : t.toList = t'.toList) : (bin d b1 s a t).toList = (bin d b2 s' a t').toList := by
  cases d <;> simp [bin, toList, hs, ht]

end ColorTree

open ColorTree List

/-- A step of the path to a subtree: its side, its parent and its sibling. -/
structure Frame (α : Type) where
  /-- The side of the hole. -/
  dir : Dir
  /-- The colour of the node. -/
  black : Bool
  /-- Its element. -/
  a : α
  /-- The subtree on the other side. -/
  sibling : ColorTree α

/-- The context of a subtree, from its parent up to the root. -/
abbrev Ctx (α : Type) := List (Frame α)

namespace Ctx

/-- Puts a tree in a context. -/
def plug : Ctx α → ColorTree α → ColorTree α
  | [], t => t
  | f :: c, t => plug c (bin f.dir f.black t f.a f.sibling)

/-- The elements in front of the subtree. -/
def before : Ctx α → List α
  | [] => []
  | ⟨.left, _, _, _⟩ :: c => before c
  | ⟨.right, _, a, s⟩ :: c => before c ++ s.toList ++ [a]

/-- The elements behind the subtree. -/
def after : Ctx α → List α
  | [] => []
  | ⟨.left, _, a, s⟩ :: c => a :: s.toList ++ after c
  | ⟨.right, _, _, _⟩ :: c => after c

/-- The elements of the context. -/
def elems : Ctx α → List α
  | [] => []
  | f :: c => f.a :: (f.sibling.toList ++ elems c)

/-- The parent of the subtree. -/
def parent : Ctx α → Option α
  | [] => none
  | f :: _ => some f.a

/-- The parent is there and black. -/
def blackFrame : Ctx α → Prop
  | [] => False
  | f :: _ => f.black = true

/-- Plugging into two contexts, one after the other. -/
theorem plug_append (c c' : Ctx α) (t : ColorTree α) : plug (c ++ c') t = plug c' (plug c t) := by
  induction c generalizing t with
  | nil => rfl
  | cons f c ih => exact ih _

/-- The elements of two contexts. -/
theorem elems_append (c c' : Ctx α) : elems (c ++ c') = elems c ++ elems c' := by
  induction c with
  | nil => rfl
  | cons f c ih => simp [elems, ih]

/-- What is before the hole of two contexts. -/
theorem before_append (c c' : Ctx α) : before (c ++ c') = before c' ++ before c := by
  induction c with
  | nil => simp [before]
  | cons f c ih =>
    obtain ⟨d, black, a, s⟩ := f
    cases d <;> simp [before, ih]

/-- The elements of a plugged context, in order. -/
theorem toList_plug (c : Ctx α) (t : ColorTree α) :
    (plug c t).toList = c.before ++ t.toList ++ c.after := by
  induction c generalizing t with
  | nil => simp [plug, before, after]
  | cons f c ih =>
    obtain ⟨d, black, a, s⟩ := f
    cases d <;> simp [plug, before, after, ih, bin, toList]

/-- Subtrees with the same elements may be exchanged under a context. -/
theorem toList_plug_congr (c : Ctx α) {u : ColorTree α} (h : t.toList = u.toList) :
    (plug c t).toList = (plug c u).toList := by rw [toList_plug, toList_plug, h]

/-- The elements of a plugged context, up to order. -/
theorem toList_plug_perm (c : Ctx α) (t : ColorTree α) :
    (plug c t).toList.Perm (t.toList ++ elems c) := by
  induction c generalizing t with
  | nil => simp [plug, elems]
  | cons f c ih =>
    refine (ih _).trans (((toList_bin_perm _ _ _ _ _).append_right _).trans ?_)
    simp only [elems, cons_append, append_assoc]
    exact perm_middle.symm

/-- The root of the whole tree is in the context. -/
theorem exists_root_plug (f : Frame α) (c : Ctx α) (t : ColorTree α) :
    ∃ a ∈ elems (f :: c), (plug (f :: c) t).root = some a := by
  induction c generalizing f t with
  | nil => exact ⟨f.a, by simp [elems], by simp [plug]⟩
  | cons g c ih =>
    obtain ⟨a, ha, hroot⟩ := ih g (bin f.dir f.black t f.a f.sibling)
    exact ⟨a, mem_cons_of_mem _ (mem_append_right _ ha), hroot⟩

/-- Each element of a tree is the root of a subtree. -/
theorem exists_plug {z : α} (h : z ∈ t.toList) :
    ∃ (c : Ctx α) (black : Bool) (l r : ColorTree α), t = plug c (node black l z r) := by
  suffices H : ∀ c' : Ctx α, ∃ (c : Ctx α) (black : Bool) (l r : ColorTree α),
      plug c' t = plug (c ++ c') (node black l z r) by
    obtain ⟨c, black, l, r, heq⟩ := H []
    exact ⟨c, black, l, r, by simpa [plug] using heq⟩
  induction t with
  | leaf => cases h
  | node black l a r ihl ihr =>
    intro c'
    rw [toList, mem_append, mem_cons] at h
    rcases h with h | rfl | h
    · obtain ⟨c, b, l', r', heq⟩ := ihl h (⟨.left, black, a, r⟩ :: c')
      refine ⟨c ++ [⟨.left, black, a, r⟩], b, l', r', ?_⟩
      rw [append_assoc]
      exact heq
    · exact ⟨[], black, l, r, rfl⟩
    · obtain ⟨c, b, l', r', heq⟩ := ihr h (⟨.right, black, a, l⟩ :: c')
      refine ⟨c ++ [⟨.right, black, a, l⟩], b, l', r', ?_⟩
      rw [append_assoc]
      exact heq

end Ctx

open Ctx

/-! ### Balance -/

/-- No red node has a red child, and all paths have `n` black nodes. -/
def Balanced : ColorTree α → ℕ → Prop
  | leaf, n => n = 0
  | node true l _ r, n => ∃ m, n = m + 1 ∧ Balanced l m ∧ Balanced r m
  | node false l _ r, n =>
    l.isBlack = true ∧ r.isBlack = true ∧ Balanced l n ∧ Balanced r n

/-- The rules of red-black trees. -/
def IsRedBlack (t : ColorTree α) : Prop := t.isBlack = true ∧ ∃ n, Balanced t n

/-- A context for a subtree of black height `n`. -/
def CtxOk : Ctx α → ℕ → Prop
  | [], _ => True
  | ⟨_, true, _, s⟩ :: c, n => Balanced s n ∧ CtxOk c (n + 1)
  | ⟨_, false, _, s⟩ :: c, n => Balanced s n ∧ s.isBlack = true ∧ blackFrame c ∧ CtxOk c n

variable {d : Dir} {s t u : ColorTree α} {a : α} {c : Ctx α} {n : ℕ}

/-- A black node over two trees of one black height. -/
theorem balanced_bin_black : Balanced (bin d true s a t) (n + 1) ↔ Balanced s n ∧ Balanced t n := by
  cases d <;> simp [bin, Balanced, and_comm]

/-- The black height of a black node is one more than its children's. -/
theorem balanced_bin_black_iff :
    Balanced (bin d true s a t) n ↔ ∃ m, n = m + 1 ∧ Balanced s m ∧ Balanced t m := by
  cases d <;> simp [bin, Balanced, and_comm]

/-- A red node has black children of its own black height. -/
theorem balanced_bin_red : Balanced (bin d false s a t) n ↔
    s.isBlack = true ∧ t.isBlack = true ∧ Balanced s n ∧ Balanced t n := by
  cases d
  · rfl
  · simp only [bin, Balanced]
    tauto

/-- A tree with a black node on each path is not empty. -/
theorem Balanced.ne_leaf (h : Balanced t (n + 1)) : t ≠ leaf := by
  rintro rfl
  cases h

/-- Blackening a red root raises the black height by one. -/
theorem Balanced.blacken (h : Balanced t n) (hred : t.isBlack = false) :
    Balanced t.blacken (n + 1) := by
  cases t with
  | leaf => cases hred
  | node black l a r =>
    obtain rfl : black = false := hred
    exact ⟨n, rfl, h.2.2⟩

/-- The sibling of a frame has the black height of the hole. -/
theorem CtxOk.sibling {f : Frame α} (h : CtxOk (f :: c) n) : Balanced f.sibling n := by
  obtain ⟨d, black, a, s⟩ := f
  cases black <;> exact h.1

/-- The parent and the sibling are replaced by others. -/
theorem CtxOk.replace {e : Dir} {b : Bool} {x : α}
    (h : CtxOk (⟨d, b, a, s⟩ :: c) n) (ht : Balanced t n)
    (htb : t.isBlack = true) : CtxOk (⟨e, b, x, t⟩ :: c) n := by
  cases b with
  | true => exact ⟨ht, h.2⟩
  | false => exact ⟨ht, htb, h.2.2⟩

/-- A balanced tree in a context that fits. -/
theorem CtxOk.isRedBlack (hc : CtxOk c n) (ht : Balanced t n)
    (hcol : t.isBlack = true ∨ c.blackFrame) : IsRedBlack (plug c t) := by
  induction c generalizing t n with
  | nil => exact ⟨hcol.resolve_right id, n, ht⟩
  | cons f c ih =>
    obtain ⟨d, black, a, s⟩ := f
    cases black with
    | true => exact ih hc.2 (balanced_bin_black.2 ⟨ht, hc.1⟩) (.inl (by simp))
    | false =>
      obtain ⟨hs, hsb, hframe, hc⟩ := hc
      have htb : t.isBlack = true := hcol.resolve_right (by simp [blackFrame])
      exact ih hc (balanced_bin_red.2 ⟨htb, hsb, ht, hs⟩) (.inr hframe)

/-- A subtree of a red-black tree, and its context. -/
theorem IsRedBlack.zoom (h : IsRedBlack (plug c t)) :
    ∃ n, CtxOk c n ∧ Balanced t n ∧ (t.isBlack = true ∨ c.blackFrame) := by
  induction c generalizing t with
  | nil =>
    obtain ⟨hb, n, hn⟩ := h
    exact ⟨n, trivial, hn, .inl hb⟩
  | cons f c ih =>
    obtain ⟨d, black, a, s⟩ := f
    obtain ⟨n, hc, hn, hcol⟩ := ih h
    cases black with
    | true =>
      obtain ⟨m, rfl, ht, hs⟩ := balanced_bin_black_iff.1 hn
      exact ⟨m, ⟨hs, hc⟩, ht, .inr rfl⟩
    | false =>
      obtain ⟨htb, hsb, ht, hs⟩ := balanced_bin_red.1 hn
      have hframe : blackFrame c := by simpa using hcol
      exact ⟨n, ⟨hs, hsb, hframe, hc⟩, ht, .inl htb⟩

/-- A node with at most one child leaves the tree. A black node is then missing on the paths through
it. -/
theorem IsRedBlack.without {b : Bool} (h : IsRedBlack (plug c (bin d b leaf a t))) :
    (b = true → ∃ n, CtxOk c (n + 1) ∧ Balanced t n) ∧
    (b = false → ∃ n, CtxOk c n ∧ Balanced t n ∧ t.isBlack = true) := by
  obtain ⟨n, hc, hn, -⟩ := h.zoom
  constructor
  · rintro rfl
    obtain ⟨m, rfl, -, ht⟩ := balanced_bin_black_iff.1 hn
    exact ⟨m, hc, ht⟩
  · rintro rfl
    obtain ⟨-, htb, -, ht⟩ := balanced_bin_red.1 hn
    exact ⟨n, hc, ht, htb⟩

/-- The rules do not depend on the elements. -/
theorem CtxOk.congr_elem {c' : Ctx α} {d : Dir} {b : Bool} {x : α} (y : α)
    (h : CtxOk (c' ++ ⟨d, b, x, s⟩ :: c) n) : CtxOk (c' ++ ⟨d, b, y, s⟩ :: c) n := by
  induction c' generalizing n with
  | nil =>
    cases b <;> exact h
  | cons f c' ih =>
    obtain ⟨e, b', z, u⟩ := f
    cases b' with
    | true => exact ⟨h.1, ih h.2⟩
    | false =>
      obtain ⟨hu, hub, hframe, hc⟩ := h
      refine ⟨hu, hub, ?_, ih hc⟩
      cases c' <;> exact hframe

end Mesa3D.RedBlack
