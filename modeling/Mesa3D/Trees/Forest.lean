import Mathlib.Algebra.Order.BigOperators.Group.List
import Mathlib.Algebra.Order.Group.Nat
import Mathlib.Data.List.Nodup

/-!
# Forests

A forest is given by the list of the children of each element. No element is twice among the
children of one or two elements, and there is a rank that falls from each element to its children,
so no element is its own descendant. The operations on forests are to take an element from its
parent, to give new children to an element, to cut all children of some elements, and to rename the
elements. `postorder` is the order in which a depth first traversal leaves the elements.
-/

namespace Mesa3D.Trees

open List Relation
open Function (update update_self update_of_ne)

variable {α β : Type} {kids kids' : α → List α} {p q x y z : α}

/-- The element `y` is `x` or a descendant of it. -/
def Descends (kids : α → List α) : α → α → Prop := ReflTransGen fun x y => y ∈ kids x

/-- The lists of children are a forest. -/
structure Forest (kids : α → List α) : Prop where
  /-- No child is listed twice. -/
  nodup : ∀ x, (kids x).Nodup
  /-- A child has one parent. -/
  parent_unique : ∀ {x x' y}, y ∈ kids x → y ∈ kids x' → x = x'
  /-- There is no cycle. -/
  ranked : ∃ rank : α → ℕ, ∀ x, ∀ y ∈ kids x, rank y < rank x

/-- With more children there is more descent. -/
theorem Descends.mono (h : Descends kids x y) (hsub : ∀ x, ∀ y ∈ kids x, y ∈ kids' x) :
    Descends kids' x y :=
  ReflTransGen.mono (fun a b hab => hsub a b hab) x y h

/-- A rank that falls to the children falls along descent. -/
theorem Descends.rank_le {rank : α → ℕ} (hrank : ∀ x, ∀ y ∈ kids x, rank y < rank x)
    (h : Descends kids x y) :
    rank y ≤ rank x := by
  induction h with
  | refl => exact le_rfl
  | tail _ hstep ih => exact (hrank _ _ hstep).le.trans ih

/-- Adding edges into `q` from elements that are not above it keeps a forest ranked: all that is
above `q` is lifted over them. -/
theorem ranked_of_lift {rank : α → ℕ} (hrank : ∀ x, ∀ y ∈ kids x, rank y < rank x) (bound : ℕ)
    (hkids' : ∀ x, ∀ y ∈ kids' x, y ∈ kids x ∨ (x = q ∧ ¬ Descends kids y q ∧ rank y < bound)) :
    ∃ rank' : α → ℕ, ∀ x, ∀ y ∈ kids' x, rank' y < rank' x := by
  classical
  refine ⟨fun x => rank x + if Descends kids x q then bound else 0, fun x y hy => ?_⟩
  dsimp only
  rcases hkids' x y hy with hold | ⟨rfl, hnot, hlt⟩
  · have hlt := hrank x y hold
    by_cases hyq : Descends kids y q
    · have hxq : Descends kids x q := ReflTransGen.head hold hyq
      rw [if_pos hyq, if_pos hxq]
      omega
    · rw [if_neg hyq]
      omega
  · have hself : Descends kids x x := ReflTransGen.refl
    rw [if_neg hnot, if_pos hself]
    omega

namespace Forest

/-- The forest without children. -/
theorem empty : Forest fun _ : α => [] where
  nodup _ := nodup_nil
  parent_unique h := by cases h
  ranked := ⟨fun _ => 0, fun _ _ h => by cases h⟩

section

variable (h : Forest kids)
include h

/-- An element is not among its own children. -/
theorem notMem_self : x ∉ kids x := by
  obtain ⟨rank, hrank⟩ := h.ranked
  exact fun hx => lt_irrefl _ (hrank x x hx)

/-- The parent of an element is not among its descendants. -/
theorem not_descends_parent (hy : y ∈ kids x) : ¬ Descends kids y x := by
  obtain ⟨rank, hrank⟩ := h.ranked
  intro hd
  exact absurd (hrank x y hy) (Descends.rank_le hrank hd).not_gt

/-- The ancestors of an element are on one path. -/
theorem descends_total (hx : Descends kids x z) (hy : Descends kids y z) :
    Descends kids x y ∨ Descends kids y x := by
  have hunique : ∀ a b c, (fun u v => u ∈ kids v) a b → (fun u v => u ∈ kids v) a c → b = c :=
    fun a b c hb hc => h.parent_unique hb hc
  rcases ReflTransGen.total_of_right_unique hunique hx.swap hy.swap with hxy | hyx
  · exact .inr hxy.swap
  · exact .inl hyx.swap

/-- Two children of an element have no common descendant. -/
theorem siblings_disjoint (hx : x ∈ kids p) (hy : y ∈ kids p)
    (hne : x ≠ y) (hxz : Descends kids x z) :
    ¬ Descends kids y z := by
  have hnot : ∀ a ∈ kids p, ∀ b ∈ kids p, a ≠ b → ¬ Descends kids a b := by
    intro a ha b hb hab hd
    rcases hd.cases_tail with heq | ⟨c, hac, hcb⟩
    · exact hab heq.symm
    · obtain rfl := h.parent_unique hcb hb
      exact h.not_descends_parent ha hac
  intro hyz
  rcases h.descends_total hxz hyz with hxy | hyx
  · exact hnot x hx y hy hne hxy
  · exact hnot y hy x hx hne.symm hyx

/-- Leaving out children leaves a forest. -/
theorem of_sublist (hsub : ∀ x, (kids' x).Sublist (kids x)) : Forest kids' := by
  refine ⟨fun x => (h.nodup x).sublist (hsub x),
    fun hx hx' => h.parent_unique ((hsub _).subset hx) ((hsub _).subset hx'), ?_⟩
  obtain ⟨rank, hrank⟩ := h.ranked
  exact ⟨rank, fun x y hy => hrank x y ((hsub x).subset hy)⟩

/-- Cutting the children of some elements leaves a forest. -/
theorem prune (s : α → Prop) [DecidablePred s] : Forest fun x => if s x then [] else kids x := by
  refine h.of_sublist fun x => ?_
  split_ifs
  · exact nil_sublist _
  · exact .refl _

/-- Renaming the elements leaves a forest. -/
theorem map (e : α ≃ β) : Forest fun x => (kids (e.symm x)).map e := by
  refine ⟨fun x => (h.nodup _).map e.injective, fun {x x' y} hx hx' => ?_, ?_⟩
  · obtain ⟨a, ha, rfl⟩ := mem_map.1 hx
    obtain ⟨b, hb, hab⟩ := mem_map.1 hx'
    obtain rfl := e.injective hab
    exact e.symm.injective (h.parent_unique ha hb)
  · obtain ⟨rank, hrank⟩ := h.ranked
    refine ⟨fun x => rank (e.symm x), fun x y hy => ?_⟩
    obtain ⟨a, ha, rfl⟩ := mem_map.1 hy
    simpa using hrank _ a ha

end

variable [DecidableEq α]

/-- Taking an element from its parent leaves a forest. -/
theorem erase (h : Forest kids) (p : α) : Forest fun x => (kids x).erase p :=
  h.of_sublist fun _ => erase_sublist

/-- The element `q` gets children that had no parent, and that are not above it. -/
theorem graft {new : List α} (h : Forest kids) (hnodup : new.Nodup)
    (hnew : ∀ c ∈ new, ∀ x, c ∉ kids x)
    (hnot : ∀ c ∈ new, ¬ Descends kids c q) : Forest (update kids q (new ++ kids q)) := by
  have hmem : ∀ x, ∀ y ∈ update kids q (new ++ kids q) x, y ∈ kids x ∨ (x = q ∧ y ∈ new) := by
    intro x y hy
    by_cases hxq : x = q
    · subst hxq
      rw [update_self, mem_append] at hy
      exact hy.symm.imp_right fun hc => ⟨rfl, hc⟩
    · rw [update_of_ne hxq] at hy
      exact .inl hy
  refine ⟨fun x => ?_, fun {x x' y} hx hx' => ?_, ?_⟩
  · by_cases hxq : x = q
    · subst hxq
      rw [update_self]
      exact nodup_append'.2 ⟨hnodup, h.nodup x, fun y hy => hnew y hy x⟩
    · rw [update_of_ne hxq]
      exact h.nodup x
  · rcases hmem _ _ hx with hxk | ⟨hxq, hc⟩ <;> rcases hmem _ _ hx' with hxk' | ⟨hxq', hc'⟩
    · exact h.parent_unique hxk hxk'
    · exact absurd hxk (hnew y hc' x)
    · exact absurd hxk' (hnew y hc x')
    · exact hxq.trans hxq'.symm
  · obtain ⟨rank, hrank⟩ := h.ranked
    refine ranked_of_lift (q := q) hrank ((new.map rank).sum + 1) fun x y hy => ?_
    refine (hmem x y hy).imp_right ?_
    rintro ⟨rfl, hc⟩
    exact ⟨rfl, hnot y hc, Nat.lt_succ_of_le (le_sum_of_mem (mem_map_of_mem hc))⟩

end Forest

/-! ### Traversal -/

/-- The descendants of an element, each after its own, down to a depth. -/
def postorder (kids : α → List α) : ℕ → α → List α
  | 0, _ => []
  | n + 1, x => (kids x).flatMap (postorder kids n) ++ [x]

section Postorder

variable {rank : α → ℕ} {n : ℕ} (hrank : ∀ x, ∀ y ∈ kids x, rank y < rank x) (hn : rank x < n)
include hrank hn

/-- To a depth over its rank, the traversal of an element has all its descendants and no others. -/
theorem mem_postorder : y ∈ postorder kids n x ↔ Descends kids x y := by
  induction n generalizing x with
  | zero => omega
  | succ n ih =>
    have hc : ∀ c ∈ kids x, rank c < n := fun c hc => (hrank x c hc).trans_le (Nat.le_of_lt_succ hn)
    rw [postorder, mem_append, mem_flatMap, mem_singleton]
    constructor
    · rintro (⟨c, hmem, hy⟩ | rfl)
      · exact ReflTransGen.head hmem ((ih (hc c hmem)).1 hy)
      · exact ReflTransGen.refl
    · intro hd
      rcases hd.cases_head with rfl | ⟨c, hmem, hy⟩
      · exact .inr rfl
      · exact .inl ⟨c, hmem, (ih (hc c hmem)).2 hy⟩

/-- An element comes after all its descendants. -/
theorem pairwise_postorder (h : Forest kids) : (postorder kids n x).Pairwise fun a b =>
    ¬ Descends kids a b := by
  induction n generalizing x with
  | zero => omega
  | succ n ih =>
    have hc : ∀ c ∈ kids x, rank c < n := fun c hc => (hrank x c hc).trans_le (Nat.le_of_lt_succ hn)
    rw [postorder, pairwise_append]
    refine ⟨pairwise_flatMap.2 ⟨fun c hmem => ih (hc c hmem), ?_⟩, pairwise_singleton _ _, ?_⟩
    · refine Pairwise.imp_of_mem (fun {a b} ha hb hab => ?_) (h.nodup x)
      intro u hu v hv huv
      have hau := (mem_postorder hrank (hc a ha)).1 hu
      exact h.siblings_disjoint ha hb hab (hau.trans huv) ((mem_postorder hrank (hc b hb)).1 hv)
    · intro u hu v hv huv
      obtain rfl := mem_singleton.1 hv
      obtain ⟨c, hmem, hcu⟩ := mem_flatMap.1 hu
      exact h.not_descends_parent hmem (((mem_postorder hrank (hc c hmem)).1 hcu).trans huv)

/-- The traversal has each element once. -/
theorem nodup_postorder (h : Forest kids) : (postorder kids n x).Nodup :=
  (pairwise_postorder hrank hn h).imp fun {a b} hab (heq : a = b) => hab (heq ▸ .refl)

end Postorder

end Mesa3D.Trees
