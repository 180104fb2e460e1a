import Mathlib.Logic.Equiv.Basic
import Mesa3D.Util.RallocLinks

/-!
# Blocks that move

`resize` may move a block, and `ralloc_adopt` gives all children of one block to another. A block
that moves keeps its place in the forest under its new address: all links are renamed by the
exchange of the two addresses.
-/

namespace Mesa3D.Ralloc

open Mesa3D.Lists Mesa3D.Trees
open Fuel (Returns)
open Equiv (swap swap_apply_of_ne_of_ne swap_apply_self swap_apply_left swap_apply_right)
open Option (bind_eq_bind bind_some)
open Function (update update_of_ne update_self)
open List

variable {heap heap' : Heap} {kids : ℕ → List ℕ} {a p q x y z : ℕ} {f g : Field} {v : Option ℕ}

/-! ### `resize` -/

/-- No block refers to itself. -/
theorem Rep.ne_self (h : Rep heap kids) : heap.get x f ≠ some x := by
  intro hx
  cases f with
  | parent => exact h.forest.notMem_self (h.mem_iff.2 hx)
  | child => exact h.forest.notMem_self (h.mem_of_child hx)
  | prev =>
    obtain ⟨-, w, hw, -⟩ := h.of_next (h.of_prev hx)
    exact (h.linked w).next_ne_self (h.forest.nodup w) hw (h.of_prev hx)
  | next =>
    obtain ⟨-, w, hw, -⟩ := h.of_next hx
    exact (h.linked w).next_ne_self (h.forest.nodup w) hw hx

section Loops

variable {prev : ℕ → Option ℕ} {l : List ℕ}

/-- A list stays linked when a block gets another parent. -/
theorem linked_set_parent {p : Option ℕ} (v : Option ℕ) (hy : Alive heap y)
    (hl : Linked prev (fun z => heap.get z .next) p l) :
    Linked prev (fun z => (heap.set y .parent v).get z .next) p l :=
  hl.congr (fun _ _ => rfl) fun z _ => by simp [get_set hy]

/-- Another block gets another parent. -/
theorem ite_mem_cons : (if z ∈ l ∧ f = .parent then v else if z = y ∧
    f = .parent then v else heap.get z f) =
    if z ∈ y :: l ∧ f = .parent then v else heap.get z f := by
  by_cases hf : f = .parent
  · by_cases hzy : z = y <;> simp [hf, hzy]
  · simp [hf]

/-- What the loop of `resize` does to the pointers. -/
theorem reparent_spec (halive : ∀ y ∈ l, Alive heap y)
    (hl : Linked prev (fun y => heap.get y .next) v l) :
    ∃ heap', Returns (fun fuel => reparent heap a fuel l.head?) heap' ∧ SameBlocks heap heap' ∧
      ∀ z f, heap'.get z f = if z ∈ l ∧ f = .parent then some a else heap.get z f := by
  induction l generalizing heap v with
  | nil => exact ⟨heap, Returns.of_succ fun _ => rfl, fun _ => rfl, fun z f => by simp⟩
  | cons y l ih =>
    have hy := halive y mem_cons_self
    obtain ⟨heap', hreturns, hsame, hget⟩ :=
      ih (fun z hz => alive_set.2 (halive z (mem_cons_of_mem _ hz)))
        (linked_set_parent (some a) hy hl.2.2)
    refine ⟨heap', hreturns.step fun fuel => ?_, sameBlocks_set.trans hsame, fun z f => ?_⟩
    · rw [head?_cons, reparent, store_eq hy, bind_eq_bind, bind_some,
        load_eq (alive_set.2 hy), get_set hy]
      simp [hl.2.1]
    · rw [hget, get_set hy, ite_mem_cons]

/-- What the loop of `ralloc_adopt` does to the pointers. -/
theorem adoptLoop_spec {first : ℕ} (halive : ∀ y ∈ first :: l, Alive heap y)
    (hl : Linked prev (fun y => heap.get y .next) v (first :: l)) :
    ∃ last heap', Returns (fun fuel => adoptLoop heap q fuel first) (last, heap') ∧
      (first :: l).getLast? = some last ∧ SameBlocks heap heap' ∧
      ∀ z f, heap'.get z f = if z ∈ first :: l ∧ f = .parent then some q else heap.get z f := by
  induction l generalizing heap v first with
  | nil =>
    have hy := halive first mem_cons_self
    refine ⟨first, heap.set first .parent (some q), Returns.of_succ fun fuel =>
      ?_, rfl, sameBlocks_set,
      fun z f => ?_⟩
    · rw [adoptLoop, store_eq hy, bind_eq_bind, bind_some, load_eq (alive_set.2 hy), get_set hy]
      simp [hl.2.1]
    · simp [get_set hy]
  | cons next l ih =>
    have hy := halive first mem_cons_self
    obtain ⟨last, heap', hreturns, hlast, hsame, hget⟩ :=
      ih (fun z hz => alive_set.2 (halive z (mem_cons_of_mem _ hz)))
        (linked_set_parent (some q) hy hl.2.2)
    refine ⟨last, heap', hreturns.step fun fuel => ?_, by rw [getLast?_cons_cons, hlast],
      sameBlocks_set.trans hsame, fun z f => ?_⟩
    · rw [adoptLoop, store_eq hy, bind_eq_bind, bind_some, load_eq (alive_set.2 hy), get_set hy]
      simp [hl.2.1]
    · rw [hget, get_set hy, ite_mem_cons]

end Loops

section Resize

variable {old info : ℕ}

/-- A block other than the old and the new one keeps its address. -/
theorem swap_of_alive (hinfo : heap info = none) (hz : Alive heap z) (hne : z ≠ old) :
    swap old info z = z := swap_apply_of_ne_of_ne hne fun heq => hz (heq ▸ hinfo)

/-- The pointer to the block that moves is changed, and the others are kept. -/
theorem Rep.map_swap (h : Rep heap kids) (hinfo : heap info = none) :
    (heap.get z f).map (swap old info) = if heap.get z f =
      some old then some info else heap.get z f := by
  rcases hv : heap.get z f with _ | v
  · rfl
  · by_cases hold : v = old
    · simp [hold]
    · simp [hold, swap_of_alive hinfo (h.pointer v hv) hold]

/-- The pointers to the block that moves are not its own. -/
theorem Rep.swap_eq_iff (h : Rep heap kids) (hinfo : heap info = none) :
    heap.get (swap old info z) f = some old ↔ heap.get z f = some old := by
  have hnot : heap.get info f ≠ some old := by
    rw [Heap.get, hinfo]
    rintro ⟨⟩
  by_cases hz : z = old
  · subst hz
    simp [hnot, h.ne_self]
  · by_cases hz' : z = info
    · subst hz'
      simp [hnot, h.ne_self]
    · rw [swap_apply_of_ne_of_ne hz hz']

section

variable (h : Rep heap kids) (hold : Alive heap old)
include h hold

/-- What the first part of `resize` does to the pointers of a block that has moved. -/
theorem Rep.relink (hinfo : heap info = none) :
    ∃ heap', relink (fun z => heap (swap old info z)) old info = some heap' ∧
      SameBlocks (fun z => heap (swap old info z)) heap' ∧
      ∀ z f, heap'.get (swap old info z) f =
        if f = .parent then heap.get z f else (heap.get z f).map (swap old info) := by
  set moved : Heap := fun z => heap (swap old info z) with hmoved
  have hget : ∀ z f, moved.get z f = heap.get (swap old info z) f := fun z f => rfl
  have hself : ∀ f, moved.get info f = heap.get old f := fun f => by
    rw [hget, swap_apply_right]
  have halive : Alive moved info := by
    show heap (swap old info info) ≠ none
    rw [swap_apply_right]
    exact hold
  have hkeep : ∀ {v}, Alive heap v → v ≠ old → Alive moved v := fun {v} hv hne => by
    show heap (swap old info v) ≠ none
    rw [swap_of_alive hinfo hv hne]
    exact hv
  have hpointer : ∀ f, Pointer moved (heap.get old f) := by
    intro f v hv
    exact hkeep (h.pointer v hv) fun heq => h.ne_self (heq ▸ hv)
  rw [Ralloc.relink, load_eq halive, hself]
  rcases Option.eq_none_or_eq_some (heap.get old .parent) with hq | ⟨q, hq⟩
  · rw [hq]
    refine ⟨moved, rfl, fun _ => rfl, fun z f => ?_⟩
    rw [hget, swap_apply_self]
    split_ifs with hf
    · rfl
    · rw [h.map_swap hinfo, if_neg (h.ne_of_root hq hf)]
  · have hqa : Alive heap q := h.pointer q hq
    have hqold : q ≠ old := fun heq => h.ne_self (heq ▸ hq)
    have hqm : Alive moved q := hkeep hqa hqold
    have hfirst : firstOf moved old q = firstOf heap old q := by
      rw [firstOf, hget, swap_of_alive hinfo hqa hqold, firstOf]
    have hfirstp : Pointer moved (firstOf heap old q) := by
      intro x hx
      rw [firstOf, Option.ite_none_right_eq_some] at hx
      exact Option.some.inj hx.2 ▸ hqm
    have hprev := hpointer .prev
    have hnext := hpointer .next
    have hne : heap.get old .prev ≠ some info := fun heq => h.pointer info heq hinfo
    refine ⟨((moved.setIf (firstOf moved old q) .child (some info)).setIf
      (heap.get old .prev) .next (some info)).setIf
      (heap.get old .next) .prev (some info), ?_, ?_, fun z f => ?_⟩
    · rw [firstOf]
      simp only [hq, load_eq hqm, bind_eq_bind, bind_some]
      split_ifs <;>
        simp (disch := simp only [alive_set, alive_setIf, pointer_set, pointer_setIf, halive,
          hqm, hprev, hnext]) only
          [store_eq, storeIf_eq, load_eq, hself, hne, bind_some, get_set,
            get_setIf, reduceCtorEq, and_false,
            and_true, if_false, setIf_none, setIf_some]
    · exact (sameBlocks_setIf.trans sameBlocks_setIf).trans sameBlocks_setIf
    · rw [get_setIf (pointer_setIf.2 (pointer_setIf.2 hnext)), get_setIf (pointer_setIf.2 hprev),
        get_setIf (hfirst ▸ hfirstp), hget, swap_apply_self, h.map_swap hinfo, hfirst]
      cases f with
      | parent => simp
      | child => simp [h.firstOf_eq_iff hq, h.swap_eq_iff hinfo]
      | prev => simp [h.next_eq_iff, h.swap_eq_iff hinfo]
      | next => simp [← h.next_eq_iff, h.swap_eq_iff hinfo]

/-- What `resize` does to the pointers if the block stays where it is. -/
theorem Rep.resize_self :
    ∃ heap', Returns (fun fuel => resize heap old old fuel) heap' ∧ SameBlocks heap heap' ∧
      ∀ z f, heap'.get z f = heap.get z f := by
  obtain ⟨hd, hhd⟩ := Option.ne_none_iff_exists'.1 hold
  have hheap : update heap old (some hd) = heap := by
    rw [← hhd, Function.update_eq_self]
  obtain ⟨heap', hreturns, hsame, hget⟩ := reparent_spec (a := old)
    (fun y hy => h.alive_of_mem hy) (h.linked old)
  refine ⟨heap', ?_, hsame, fun z f => ?_⟩
  · have heq : (fun fuel => resize heap old old fuel) = fun fuel =>
      reparent heap old fuel (kids old).head? := by
      funext fuel
      rw [resize, hhd]
      simp [hheap, load_eq hold, h.child hold]
    rw [heq]
    exact hreturns
  · rw [hget]
    split_ifs with hz
    · rw [hz.2, h.mem_iff.1 hz.1]
    · rfl

/-- What `resize` does to the pointers if the block moves. -/
theorem Rep.resize_move (hinfo : heap info = none) :
    ∃ heap', Returns (fun fuel => resize heap old info fuel) heap' ∧
      SameBlocks (fun z => heap (swap old info z)) heap' ∧
      ∀ z f, heap'.get (swap old info z) f = (heap.get z f).map (swap old info) := by
  obtain ⟨hd, hhd⟩ := Option.ne_none_iff_exists'.1 hold
  have hne : info ≠ old := fun heq => hold (heq ▸ hinfo)
  have hheap : update (update heap old none) info (some hd) =
      fun z => heap (swap old info z) := by
    funext z
    by_cases hz : z = info
    · subst hz
      simp [hhd]
    · rw [update_of_ne hz]
      by_cases hz' : z = old
      · subst hz'
        simp [hinfo]
      · rw [update_of_ne hz', swap_apply_of_ne_of_ne hz' hz]
  obtain ⟨heap₁, hrelink, hsame₁, hget₁⟩ := h.relink hold hinfo
  -- the children have neither the old nor the new address
  have hkid : ∀ y ∈ kids old, swap old info y = y := fun y hy =>
    swap_of_alive hinfo (h.alive_of_mem hy) fun heq => h.forest.notMem_self (heq ▸ hy)
  have halive : ∀ y, Alive heap y → Alive heap₁ (swap old info y) := by
    intro y hy
    refine hsame₁.alive_iff.2 ?_
    show heap (swap old info (swap old info y)) ≠ none
    rw [swap_apply_self]
    exact hy
  have hinfo₁ : Alive heap₁ info := by
    have := halive old hold
    rwa [swap_apply_left] at this
  have hchild : heap₁.get info .child = (kids old).head? := by
    have := hget₁ old .child
    rw [swap_apply_left, if_neg Field.noConfusion, h.map_swap hinfo,
      if_neg h.ne_self, h.child hold] at this
    exact this
  have hlinked : Linked (fun y => heap.get y .prev)
    (fun y => heap₁.get y .next) none (kids old) := by
    refine (h.linked old).congr (fun _ _ => rfl) fun y hy => ?_
    have hnext : heap.get y .next ≠ some old := fun heq =>
      h.forest.notMem_self ((h.linked old).of_next hy heq).1
    have := hget₁ y .next
    rwa [hkid y hy, if_neg Field.noConfusion, h.map_swap hinfo, if_neg hnext] at this
  have hkids₁ : ∀ y ∈ kids old, Alive heap₁ y := fun y hy => by
    have := halive y (h.alive_of_mem hy)
    rwa [hkid y hy] at this
  obtain ⟨heap', hreturns, hsame, hget⟩ := reparent_spec (a := info) hkids₁ hlinked
  refine ⟨heap', ?_, hsame₁.trans hsame, fun z f => ?_⟩
  · have heq : (fun fuel => resize heap old info fuel) = fun fuel =>
      reparent heap₁ info fuel (kids old).head? := by
      funext fuel
      rw [resize, hhd]
      simp [hheap, hne, hrelink, load_eq hinfo₁, hchild]
    rw [heq]
    exact hreturns
  · have hmem : swap old info z ∈ kids old ↔ heap.get z .parent = some old := by
      rw [h.mem_iff, h.swap_eq_iff hinfo]
    rw [hget, hget₁, h.map_swap hinfo]
    by_cases hf : f = .parent
    · subst hf
      simp [hmem]
    · simp [hf]

end

end Resize

/-! ### `ralloc_adopt` -/

/-- The pointers after the children of `p`, the last of which is `last`, are given to `q`. -/
def adopted (heap : Heap) (kids : ℕ → List ℕ) (q p last z : ℕ) : Field → Option ℕ
  | .parent => if z ∈ kids p then some q else heap.get z .parent
  | .child => if z = p then none else if z = q then heap.get p .child else heap.get z .child
  | .prev => if heap.get q .child = some z then some last else heap.get z .prev
  | .next => if z = last then heap.get q .child else heap.get z .next

/-- What `ralloc_adopt` does to the pointers. -/
theorem Rep.adopt_links (h : Rep heap kids) (hq : Alive heap q)
    (hp : Alive heap p) (hkids : kids p ≠ []) :
    ∃ last heap', Returns (fun fuel => rallocAdopt heap q (some p) fuel) heap' ∧
      (kids p).getLast? = some last ∧ SameBlocks heap heap' ∧
      ∀ z f, heap'.get z f = adopted heap kids q p last z f := by
  obtain ⟨first, l, hl⟩ := exists_cons_of_ne_nil hkids
  have hchild : heap.get p .child = some first := by rw [h.child hp, hl]; rfl
  obtain ⟨last, heap₁, hreturns, hlast, hsame₁, hget₁⟩ := adoptLoop_spec (q := q)
    (fun y hy => h.alive_of_mem (hl ▸ hy)) (hl ▸ h.linked p)
  have hlasta : Alive heap₁ last := hsame₁.alive_iff.2 (h.alive_of_mem (hl ▸ mem_of_getLast? hlast))
  have hqa : Alive heap₁ q := hsame₁.alive_iff.2 hq
  have hpa : Alive heap₁ p := hsame₁.alive_iff.2 hp
  have hqchild : heap₁.get q .child = heap.get q .child := by simp [hget₁]
  have hpchild : heap₁.get p .child = heap.get p .child := by simp [hget₁]
  have hpointer : Pointer heap₁ (heap.get q .child) :=
    fun x hx => hsame₁.alive_iff.2 (h.pointer x hx)
  refine ⟨last, (((heap₁.set last .next (heap.get q .child)).setIf (heap.get q .child) .prev
    (some last)).set q .child
    (heap.get p .child)).set p .child none, ?_, hl ▸ hlast, ?_, fun z f => ?_⟩
  · obtain ⟨n, hn⟩ := hreturns
    refine ⟨n, fun fuel hfuel => ?_⟩
    dsimp only
    rw [Ralloc.rallocAdopt, load_eq hp, hchild]
    simp only [hn fuel hfuel, bind_eq_bind, bind_some]
    simp (disch := simp only [alive_set, alive_setIf, pointer_set, hlasta, hqa, hpa, hpointer]) only
      [store_eq, storeIf_eq, load_eq, hqchild, hpchild, hchild, bind_some, get_set,
        get_setIf, reduceCtorEq,
        and_false, and_true, if_false, if_true]
  · exact hsame₁.trans
      (((sameBlocks_set.trans sameBlocks_setIf).trans sameBlocks_set).trans sameBlocks_set)
  · rw [get_set (alive_set.2 (alive_setIf.2 (alive_set.2 hpa))),
      get_set (alive_setIf.2 (alive_set.2 hqa)),
      get_setIf (pointer_set.2 hpointer), get_set hlasta, hget₁, ← hl]
    cases f <;> simp [adopted]

/-- The children that are adopted are put in front of those of the new parent. -/
theorem Rep.adopt {last : ℕ} (h : Rep heap kids) (hq : Alive heap q)
    (hp : Alive heap p) (hne : q ≠ p)
    (hnot : ∀ c ∈ kids p, ¬ Trees.Descends kids c q) (hlast : (kids p).getLast? = some last)
    (hsame : SameBlocks heap heap') (hget : ∀ z f, heap'.get z f = adopted heap kids q p last z f) :
    Rep heap' (update (update kids p []) q (kids p ++ kids q)) := by
  have hq₁ : update kids p [] q = kids q := update_of_ne hne ..
  have hsub : ∀ x, update kids p [] x = [] ∧ x = p ∨ update kids p [] x = kids x ∧ x ≠ p := by
    intro x
    by_cases hx : x = p
    · exact .inl ⟨hx ▸ update_self .., hx⟩
    · exact .inr ⟨update_of_ne hx .., hx⟩
  have hmem : ∀ {x y}, y ∈ update kids p [] x ↔ heap.get y .parent = some x ∧ y ∉ kids p := by
    intro x y
    rw [← h.mem_iff]
    rcases hsub x with ⟨hx, rfl⟩ | ⟨hx, hxp⟩ <;> rw [hx]
    · simp
    · exact (and_iff_left_of_imp fun hy hyp => hxp (h.forest.parent_unique hy hyp)).symm
  have hforest : Forest (update kids p []) := h.forest.of_sublist fun x => by
    rcases hsub x with ⟨hx, -⟩ | ⟨hx, -⟩ <;> simp [hx]
  rw [← hq₁]
  refine h.graft hq hforest hmem (fun x => ?_) (h.linked p)
    (h.forest.nodup p) hlast (fun c hc hd => ?_) hsame
    (fun z => hget z .parent) (fun z => ?_) (fun z => ?_) fun z => ?_
  · rcases hsub x with ⟨hx, -⟩ | ⟨hx, -⟩ <;> rw [hx]
    · trivial
    · exact h.linked x
  · exact hnot c hc (hd.mono fun x y hy => h.mem_iff.2 (hmem.1 hy).1)
  · rw [hget, adopted, h.child_eq, h.child_eq]
    rcases hsub z with ⟨hz, rfl⟩ | ⟨hz, hzp⟩ <;> rw [hz]
    · simp [Ne.symm hne]
    · rw [if_neg hzp]
  · rw [hget, adopted, h.child_eq, hq₁]
  · rw [hget, adopted, h.child_eq, hq₁]

end Mesa3D.Ralloc
