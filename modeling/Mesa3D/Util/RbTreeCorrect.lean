import Mathlib.Data.Finset.Insert
import Mathlib.Data.Finset.Erase
import Mesa3D.Util.RbTreeInsert
import Mesa3D.Util.RbTreeRemove

/-!
# Sequences of calls

Any calls of `rb_tree_insert` and `rb_tree_remove` keep a red-black tree with the nodes in order,
and `rb_tree_validate` returns. Between the calls, memory outside the tree may change.
-/

namespace Mesa3D.RbTree

open RedBlack RedBlack.ColorTree RedBlack.Ctx Fuel List

variable {cmp : ℕ → ℕ → ℤ} {s : State} {t : ColorTree ℕ} {p : Option ℕ} {n : ℕ}

/-! ### Validation -/

/-- The depth that the validator counts is the black height. -/
theorem blackDepth_spec (h : Rep s p t) (hn : Balanced t n) (depth : ℤ) :
    Returns (fun fuel => s.blackDepth fuel t.root depth) (depth + n) := by
  induction t generalizing p n depth with
  | leaf =>
    obtain rfl : n = 0 := hn
    exact Returns.of_succ fun fuel => by simp [State.blackDepth]
  | node b l a r ihl =>
    obtain ⟨hnode, hl, -⟩ := h
    cases b with
    | true =>
      obtain ⟨m, rfl, hm, -⟩ := hn
      have hret := ihl hl hm (depth + 1)
      rw [show depth + 1 + (m : ℤ) = depth + ((m + 1 : ℕ) : ℤ) by omega] at hret
      exact hret.step fun fuel => by simp [State.blackDepth, hnode]
    | false =>
      exact (ihl hl hn.2.2.1 depth).step fun fuel => by simp [State.blackDepth, hnode]

/-- The validator accepts a balanced tree. -/
theorem validateRbNode_spec (h : Rep s p t) (hn : Balanced t n) :
    Returns (fun fuel => s.validateRbNode fuel t.root n) () := by
  induction t generalizing p n with
  | leaf =>
    obtain rfl : n = 0 := hn
    exact Returns.of_succ fun fuel => by simp [State.validateRbNode]
  | node b l a r ihl ihr =>
    obtain ⟨hnode, hl, hr⟩ := h
    cases b with
    | true =>
      obtain ⟨m, rfl, hlm, hrm⟩ := hn
      refine ((ihl hl hlm).bind (f := fun fuel _ => s.validateRbNode fuel r.root m)
        (ihr hr hrm)).step
        fun fuel => ?_
      simp [State.validateRbNode, hnode]
    | false =>
      obtain ⟨hlb, hrb, hln, hrn⟩ := hn
      refine ((ihl hl hln).bind (f := fun fuel _ => s.validateRbNode fuel r.root n)
        (ihr hr hrn)).step
        fun fuel => ?_
      simp [State.validateRbNode, hnode, hl.isBlack, hr.isBlack, hlb, hrb]

/-- `rb_tree_validate` returns. -/
theorem Holds.validate (h : Holds s t) : Returns (fun fuel => s.rbTreeValidate fuel) () := by
  have hroot : s.root = t.root := h.heap.root_eq
  obtain ⟨hblack, n, hn⟩ := h.rules
  cases ht : t.root with
  | none => exact Returns.of_eq fun fuel => by simp [State.rbTreeValidate, hroot, ht]
  | some a =>
    have hrep := h.heap.rep
    have hcolor : (s.node a).black = true := by
      have hb := hrep.isBlack
      rw [ht, hblack] at hb
      exact hb
    have hret := (blackDepth_spec hrep hn 0).bind (f := fun fuel depth =>
      s.validateRbNode fuel t.root depth)
      (by simpa using validateRbNode_spec hrep hn)
    simpa only [State.rbTreeValidate, hroot, ht, hcolor, if_true, Option.bind_eq_bind] using hret

/-! ### Runs -/

/-- The trees after any calls, with the nodes that were inserted and not removed. -/
inductive Reachable (cmp : ℕ → ℕ → ℤ) : State → Finset ℕ → Prop
  | init (node : ℕ → RbNode) : Reachable cmp (rbTreeInit node) ∅
  | insert {s s' : State} {nodes : Finset ℕ} {new : ℕ}
    (h : Reachable cmp s nodes) (hnew : new ∉ nodes)
      (hret : Returns (fun fuel => s.rbTreeInsert cmp new fuel) s') :
      Reachable cmp s' (insert new nodes)
  | remove {s s' : State} {nodes : Finset ℕ} {z : ℕ} (h : Reachable cmp s nodes) (hz : z ∈ nodes)
      (hret : Returns (fun fuel => s.rbTreeRemove z fuel) s') : Reachable cmp s' (nodes.erase z)
  /-- Memory outside the tree changes. -/
  | outside {s s' : State} {nodes : Finset ℕ} (h : Reachable cmp s nodes) (hroot : s'.root = s.root)
      (hnode : ∀ a ∈ nodes, s'.node a = s.node a) : Reachable cmp s' nodes

/-- A tree of these nodes in order. -/
structure Ordered (cmp : ℕ → ℕ → ℤ) (s : State) (nodes : Finset ℕ) (t : ColorTree ℕ) : Prop where
  /-- The tree is in the heap. -/
  holds : Holds s t
  /-- Its elements are the nodes. -/
  mem : ∀ a, a ∈ t.toList ↔ a ∈ nodes
  /-- They are in order. -/
  sorted : Sorted cmp t.toList

/-- Putting a node between those that are not greater and those that are greater. -/
theorem Sorted.insert {l r : List ℕ} {new : ℕ} (h : Sorted cmp (l ++ r))
    (hl : ∀ a ∈ l, cmp a new ≤ 0)
    (hr : ∀ a ∈ r, cmp new a < 0) : Sorted cmp (l ++ new :: r) := by
  obtain ⟨h1, h2, h3⟩ := pairwise_append.1 h
  refine pairwise_append.2 ⟨h1, pairwise_cons.2 ⟨fun a ha => (hr a ha).le, h2⟩, ?_⟩
  intro a ha b hb
  rcases mem_cons.1 hb with rfl | hb
  · exact hl a ha
  · exact h3 a ha b hb

/-- Every run keeps the tree. -/
theorem Reachable.ordered {nodes : Finset ℕ} (hcmp : TotalPreorder cmp)
    (h : Reachable cmp s nodes) :
    ∃ t, Ordered cmp s nodes t := by
  induction h with
  | init node =>
    refine ⟨leaf, ⟨at_nil.2 ⟨trivial, rfl, nodup_nil⟩, rfl, 0, rfl⟩, ?_, List.Pairwise.nil⟩
    simp [toList]
  | insert h hnew hret ih =>
    obtain ⟨t, holds, mem, sorted⟩ := ih
    obtain ⟨s', t', l, r, hret', holds', hlr, hlist, hl, hr⟩ :=
      rbTreeInsert_spec hcmp holds sorted fun hmem => hnew ((mem _).1 hmem)
    obtain rfl := hret.unique hret'
    refine ⟨t', holds', fun a => ?_, ?_⟩
    · rw [hlist, Finset.mem_insert, ← mem, hlr]
      simp only [mem_append, mem_cons]
      tauto
    · rw [hlist]
      exact (hlr ▸ sorted : Sorted cmp (l ++ r)).insert hl hr
  | remove h hz hret ih =>
    obtain ⟨t, holds, mem, sorted⟩ := ih
    obtain ⟨s', t', hret', holds', hlist⟩ := rbTreeRemove_spec holds ((mem _).2 hz)
    obtain rfl := hret.unique hret'
    have hnodup : t.toList.Nodup := (at_nil.1 holds.heap).2.2
    refine ⟨t', holds', fun a => ?_, ?_⟩
    · rw [hlist, hnodup.mem_erase_iff, Finset.mem_erase, mem]
    · rw [hlist]
      exact sorted.sublist erase_sublist
  | outside h hroot hnode ih =>
    obtain ⟨t, ⟨heap, rules⟩, mem, sorted⟩ := ih
    obtain ⟨hrep, hroot', hnodup⟩ := at_nil.1 heap
    refine ⟨t, ⟨at_nil.2 ⟨hrep.congr fun a ha => hnode a ((mem a).1 ha),
      hroot.trans hroot', hnodup⟩, rules⟩,
      mem, sorted⟩

/-- After any calls there is a red-black tree whose nodes are in order, and `rb_tree_validate`
returns. `rb_tree_insert` returns for each node that is not in the tree and puts it between the
nodes that are not greater and those that are. `rb_tree_remove` returns for each node of the tree
and takes out this one. -/
theorem rbTree_sound {nodes : Finset ℕ} (hcmp : TotalPreorder cmp) (h : Reachable cmp s nodes) :
    ∃ t, Holds s t ∧ (∀ a, a ∈ t.toList ↔ a ∈ nodes) ∧ Sorted cmp t.toList ∧
      Returns (fun fuel => s.rbTreeValidate fuel) () ∧
      (∀ new ∉ nodes, ∃ s' t' l r, Returns (fun fuel => s.rbTreeInsert cmp new fuel) s' ∧
        Holds s' t' ∧
        t.toList = l ++ r ∧ t'.toList = l ++ new :: r ∧ (∀ a ∈ l, cmp a new ≤ 0) ∧
        ∀ a ∈ r, 0 < cmp a new) ∧
      ∀ z ∈ nodes, ∃ s' t', Returns (fun fuel => s.rbTreeRemove z fuel) s' ∧ Holds s' t' ∧
        t'.toList = t.toList.erase z := by
  obtain ⟨t, holds, mem, sorted⟩ := h.ordered hcmp
  refine ⟨t, holds, mem, sorted, holds.validate, fun new hnew => ?_, fun z hz => ?_⟩
  · obtain ⟨s', t', l, r, hret, holds', hlr, hlist, hl, hr⟩ :=
      rbTreeInsert_spec hcmp holds sorted fun hmem => hnew ((mem _).1 hmem)
    exact ⟨s', t', l, r, hret, holds', hlr, hlist, hl, fun a ha => (hcmp.swap new a).1 (hr a ha)⟩
  · exact rbTreeRemove_spec holds ((mem z).2 hz)

/-- A node that compares equal to another one goes behind it. -/
theorem rbTree_sound_equal : ∃ s s' t', Reachable (fun _ _ => 0) s {5} ∧
    Returns (fun fuel => s.rbTreeInsert (fun _ _ => 0) 3 fuel) s' ∧
      Holds s' t' ∧ t'.toList = [5, 3] := by
  have hone : Reachable (fun _ _ => 0) _ {5} :=
    Reachable.insert (.init fun _ => ⟨none, false, none, none⟩) (show 5 ∉ ∅ by simp)
      (Returns.of_succ fun fuel => rfl)
  obtain ⟨t, holds, mem, -, -, hinsert, -⟩ := rbTree_sound ⟨by simp, by simp⟩ hone
  obtain ⟨s', t', l, r, hret, holds', hlr, hlist, -, hr⟩ := hinsert 3 (by simp)
  have hnil : r = [] := eq_nil_iff_forall_not_mem.2 fun a ha => absurd (hr a ha) (by simp)
  have hperm : t.toList.Perm [5] := by
    refine (perm_ext_iff_of_nodup (at_nil.1 holds.heap).2.2 (nodup_singleton 5)).2 fun a => ?_
    rw [mem]
    simp
  rw [hlr, hnil, append_nil] at hperm
  refine ⟨_, s', t', hone, hret, holds', ?_⟩
  rw [hlist, hnil, perm_singleton.1 hperm]
  rfl

end Mesa3D.RbTree
