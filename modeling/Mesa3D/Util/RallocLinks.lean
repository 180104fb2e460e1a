import Mesa3D.Lists.DoublyLinked
import Mesa3D.Trees.Forest
import Mesa3D.Util.Ralloc

/-!
# The links of the allocator's blocks

`Rep heap kids` says that the headers are those of the forest in which the children of `x` are
`kids x`, in the order of the linked list. Each function that changes links is first described by
what it does to each pointer, and then by what it does to the forest.
-/

namespace Mesa3D.Ralloc

open Mesa3D.Lists Mesa3D.Trees Option
open Function (update_self update_of_ne update)

variable {heap heap' : Heap} {kids : ℕ → List ℕ} {a p q x y z : ℕ} {f g : Field} {v : Option ℕ}

/-! ### Reading and writing of headers -/

namespace Heap

/-- The pointer `a->f`, `none` if there is no block. -/
def get (heap : Heap) (a : ℕ) (f : Field) : Option ℕ := (heap a).bind fun h => h.get f

/-- The memory after `a->f = v`. -/
def set (heap : Heap) (a : ℕ) (f : Field) (v : Option ℕ) : Heap :=
  update heap a ((heap a).map fun h => h.set f v)

/-- The memory after `if (a != NULL) a->f = v`. -/
def setIf (heap : Heap) (a : Option ℕ) (f : Field) (v : Option ℕ) : Heap :=
  match a with
  | none => heap
  | some a => heap.set a f v

end Heap

/-- The memories have the same blocks, with the same destructors. -/
def SameBlocks (heap heap' : Heap) : Prop :=
  ∀ z, (heap' z).map (fun h => h.destructor) = (heap z).map fun h => h.destructor

/-- The same blocks are alive. -/
theorem SameBlocks.alive_iff (h : SameBlocks heap heap') : Alive heap' z ↔ Alive heap z := by
  have hz := congrArg isSome (h z)
  rw [isSome_map, isSome_map] at hz
  rw [Alive, Alive, ← isSome_iff_ne_none, ← isSome_iff_ne_none, hz]

/-- Having the same blocks is transitive. -/
theorem SameBlocks.trans {heap'' : Heap} (h : SameBlocks heap heap')
    (h' : SameBlocks heap' heap'') :
    SameBlocks heap heap'' := fun z => (h' z).trans (h z)

/-- What a header holds after a field is set. -/
theorem Header.get_set (h : Header) : (h.set f v).get g = if g = f then v else h.get g := by
  cases f <;> cases g <;> rfl

/-- Setting a link keeps the destructor. -/
theorem Header.destructor_set (h : Header) : (h.set f v).destructor = h.destructor := by
  cases f <;> rfl

/-- A block that holds a link is alive. -/
theorem alive_of_get (h : heap.get a f = some x) : Alive heap a := by
  intro hnone
  rw [Heap.get, hnone] at h
  cases h

/-- Reading a live block succeeds. -/
theorem load_eq (h : Alive heap a) : heap.load a f = some (heap.get a f) := by
  obtain ⟨hd, hhd⟩ := ne_none_iff_exists'.1 h
  rw [Heap.load, Heap.get, hhd]
  rfl

/-- Writing a live block succeeds. -/
theorem store_eq (h : Alive heap a) : heap.store a f v = some (heap.set a f v) := by
  obtain ⟨hd, hhd⟩ := ne_none_iff_exists'.1 h
  rw [Heap.store, Heap.set, hhd]
  rfl

/-- Writing behind a pointer that is null or live succeeds. -/
theorem storeIf_eq {a : Option ℕ} (h : Pointer heap a) :
    heap.storeIf a f v = some (heap.setIf a f v) := by
  cases a with
  | none => rfl
  | some a => exact store_eq (h a rfl)

/-- What the heap holds after a write. -/
theorem get_set (h : Alive heap a) : (heap.set a f v).get z g = if z = a ∧
    g = f then v else heap.get z g := by
  obtain ⟨hd, hhd⟩ := ne_none_iff_exists'.1 h
  by_cases hz : z = a
  · subst hz
    rw [Heap.get, Heap.set, update_self, Heap.get, hhd]
    simpa using Header.get_set hd
  · rw [Heap.get, Heap.set, update_of_ne hz, if_neg (fun hh => hz hh.1), Heap.get]

/-- What the heap holds after a write behind a pointer that may be null. -/
theorem get_setIf {a : Option ℕ} (h : Pointer heap a) :
    (heap.setIf a f v).get z g = if a = some z ∧ g = f then v else heap.get z g := by
  cases a with
  | none => simp [Heap.setIf]
  | some a =>
    rw [Heap.setIf, get_set (h a rfl)]
    simp only [some.injEq, eq_comm]

/-- A write neither makes nor frees a block. -/
theorem sameBlocks_set : SameBlocks heap (heap.set a f v) := by
  intro z
  by_cases hz : z = a
  · subst hz
    rw [Heap.set, update_self, map_map]
    exact congrFun (congrArg Option.map (funext fun h => Header.destructor_set h)) _
  · rw [Heap.set, update_of_ne hz]

/-- A write behind a pointer that may be null neither makes nor frees a block. -/
theorem sameBlocks_setIf {a : Option ℕ} : SameBlocks heap (heap.setIf a f v) := by
  cases a with
  | none => exact fun _ => rfl
  | some a => exact sameBlocks_set

/-- The blocks alive after a write. -/
theorem alive_set : Alive (heap.set a f v) z ↔ Alive heap z := sameBlocks_set.alive_iff

/-- The blocks alive after a write behind a pointer that may be null. -/
theorem alive_setIf {a : Option ℕ} : Alive (heap.setIf a f v) z ↔
    Alive heap z := sameBlocks_setIf.alive_iff

/-! ### The forest of the blocks -/

/-- The headers are those of a forest: the children of a block are a doubly linked list, of which
the block has the first, and each block of which has the block as its parent. -/
structure Rep (heap : Heap) (kids : ℕ → List ℕ) : Prop where
  /-- The lists are those of a forest. -/
  forest : Forest kids
  /-- The parent links. -/
  mem_iff : ∀ {x y}, y ∈ kids x ↔ heap.get y .parent = some x
  /-- Parents are alive. -/
  alive : ∀ {x y}, y ∈ kids x → Alive heap x
  /-- The link to the first child. -/
  child : ∀ {x}, Alive heap x → heap.get x .child = (kids x).head?
  /-- The links between the children. -/
  linked : ∀ x, Linked (fun y => heap.get y .prev) (fun y => heap.get y .next) none (kids x)
  /-- A root has no siblings. -/
  root : ∀ {y}, heap.get y .parent = none → heap.get y .prev = none ∧ heap.get y .next = none

namespace Rep

section

variable (h : Rep heap kids)
include h

/-- Every child is alive. -/
theorem alive_of_mem (hy : y ∈ kids x) : Alive heap y := alive_of_get (h.mem_iff.1 hy)

/-- The parent links are the child lists read the other way. -/
theorem parentOf_iff : ParentOf heap x y ↔ y ∈ kids x := by
  rw [h.mem_iff, Heap.get, bind_eq_some_iff]
  rfl

/-- Descent in the heap is descent in the forest. -/
theorem descends_iff : Ralloc.Descends heap x y ↔ Trees.Descends kids x y := by
  have heq : ParentOf heap = fun x y => y ∈ kids x := funext₂ fun x y => propext h.parentOf_iff
  rw [Ralloc.Descends, Trees.Descends, heq]

/-- The first child of a block is among its children. -/
theorem mem_of_child (hx : heap.get x .child = some y) : y ∈ kids x :=
  List.mem_of_mem_head? ((h.child (alive_of_get hx)).symm.trans hx)

/-- A block with a neighbour is in the list of children of some block. -/
theorem exists_mem (hy : heap.get y .prev = some z ∨ heap.get y .next = some z) :
    ∃ x, y ∈ kids x := by
  rcases eq_none_or_eq_some (heap.get y .parent) with hnone | ⟨x, hx⟩
  · obtain ⟨hprev, hnext⟩ := h.root hnone
    rcases hy with hy | hy
    · cases hprev.symm.trans hy
    · cases hnext.symm.trans hy
  · exact ⟨x, h.mem_iff.2 hx⟩

/-- The neighbour behind a block has the block in front, and the same parent. -/
theorem of_next (hy : heap.get y .next = some z) :
    heap.get z .prev = some y ∧ ∃ x, y ∈ kids x ∧ z ∈ kids x := by
  obtain ⟨x, hx⟩ := h.exists_mem (.inr hy)
  obtain ⟨hz, hprev⟩ := (h.linked x).of_next hx hy
  exact ⟨hprev, x, hx, hz⟩

/-- The neighbour in front of a block has the block behind it. -/
theorem of_prev (hz : heap.get z .prev = some y) : heap.get y .next = some z := by
  obtain ⟨x, hx⟩ := h.exists_mem (.inl hz)
  rcases (h.linked x).of_prev hx hz with ⟨-, hnext⟩ | ⟨hnone, -⟩
  · exact hnext
  · cases hnone

/-- Only a block with a parent is referred to, except as a parent. -/
theorem exists_mem_of_get (hz : heap.get z f = some y) (hf : f ≠ .parent) : ∃ x, y ∈ kids x := by
  cases f with
  | parent => exact absurd rfl hf
  | child => exact ⟨z, h.mem_of_child hz⟩
  | prev =>
    obtain ⟨-, x, hx, -⟩ := h.of_next (h.of_prev hz)
    exact ⟨x, hx⟩
  | next =>
    obtain ⟨-, x, -, hx⟩ := h.of_next hz
    exact ⟨x, hx⟩

/-- All pointers are to blocks that are allocated. -/
theorem pointer : Pointer heap (heap.get x f) := by
  intro y hy
  by_cases hf : f = .parent
  · subst hf
    exact h.alive (h.mem_iff.2 hy)
  · obtain ⟨w, hmem⟩ := h.exists_mem_of_get hy hf
    exact h.alive_of_mem hmem

/-- What is not allocated has no children either. -/
theorem child_eq : heap.get x .child = (kids x).head? := by
  by_cases hx : Alive heap x
  · exact h.child hx
  · have hnil : kids x = [] := List.eq_nil_iff_forall_not_mem.2 fun y hy => hx (h.alive hy)
    rw [hnil, Heap.get, not_not.1 hx]
    rfl

/-- Blocks that are moved keep the forest, with other addresses. -/
theorem move (e : ℕ ≃ ℕ) (halive : ∀ z, Alive heap z → Alive heap' (e z))
    (hget : ∀ z f, heap'.get (e z) f = (heap.get z f).map e) :
    Rep heap' fun x => (kids (e.symm x)).map e := by
  refine ⟨h.forest.map e, ?_, ?_, ?_, ?_, ?_⟩
  · intro x y
    obtain ⟨w, rfl⟩ := e.surjective y
    rw [List.mem_map_of_injective e.injective, h.mem_iff, hget, Option.map_eq_some_iff]
    constructor
    · intro hw
      exact ⟨_, hw, e.apply_symm_apply x⟩
    · rintro ⟨v, hv, rfl⟩
      rw [hv, e.symm_apply_apply]
  · intro x y hy
    obtain ⟨w, hw, rfl⟩ := List.mem_map.1 hy
    have hx := halive _ (h.alive hw)
    rwa [e.apply_symm_apply] at hx
  · intro x _
    obtain ⟨w, rfl⟩ := e.surjective x
    rw [hget, e.symm_apply_apply, List.head?_map, h.child_eq]
  · intro x
    exact (h.linked (e.symm x)).map e (fun z _ => hget z .prev) fun z _ => hget z .next
  · intro y hy
    obtain ⟨w, rfl⟩ := e.surjective y
    rw [hget, Option.map_eq_none_iff] at hy
    obtain ⟨hprev, hnext⟩ := h.root hy
    rw [hget, hget, hprev, hnext]
    exact ⟨rfl, rfl⟩

/-- The pointers are all that matters. -/
theorem congr (halive : ∀ z, Alive heap z → Alive heap' z)
    (hget : ∀ z g, heap'.get z g = heap.get z g) : Rep heap' kids := by
  simpa using h.move (Equiv.refl ℕ) halive fun z f => (hget z f).trans Option.map_id_apply.symm

end

end Rep

/-! ### `unlink_block` -/

/-- The pointers of the other blocks after a block is unlinked: those to the block go to its
neighbours. -/
def without (heap : Heap) (p z : ℕ) : Field → Option ℕ
  | .parent => heap.get z .parent
  | .child => if heap.get z .child = some p then heap.get p .next else heap.get z .child
  | .prev => if heap.get z .prev = some p then heap.get p .prev else heap.get z .prev
  | .next => if heap.get z .next = some p then heap.get p .next else heap.get z .next

/-- All pointers after a block is unlinked. -/
def unlinked (heap : Heap) (p z : ℕ) (f : Field) : Option ℕ :=
  if z = p then if f = .child then heap.get p .child else none else without heap p z f

/-- In a forest nothing refers to a block without a parent. -/
theorem Rep.ne_of_root (h : Rep heap kids) (hp : heap.get p .parent = none) (hf : f ≠ .parent) :
    heap.get z f ≠ some p := by
  intro hz
  obtain ⟨x, hx⟩ := h.exists_mem_of_get hz hf
  cases hp.symm.trans (h.mem_iff.1 hx)

/-- A root that is unlinked leaves the others as they are. -/
theorem Rep.without_root (h : Rep heap kids) (hp : heap.get p .parent = none) :
    without heap p z f = heap.get z f := by
  cases f with
  | parent => rfl
  | child | prev | next => exact if_neg (h.ne_of_root hp Field.noConfusion)

/-- The block whose first child is `p`, among `q` and none. -/
def firstOf (heap : Heap) (p q : ℕ) : Option ℕ :=
  if heap.get q .child = some p then some q else none

/-- The memory after the part of `unlink_block` that changes other blocks. -/
def unlinkOthers (heap : Heap) (p q : ℕ) : Heap :=
  ((heap.setIf (firstOf heap p q) .child (heap.get p .next)).setIf
    (heap.get p .prev) .next (heap.get p .next)).setIf (heap.get p .next) .prev (heap.get p .prev)

/-- The memory after the part of `unlink_block` that changes the block itself. -/
def unlinkSelf (heap : Heap) (p : ℕ) : Heap :=
  ((heap.set p .parent none).set p .prev none).set p .next none

/-- A write behind null does nothing. -/
theorem setIf_none : heap.setIf none f v = heap := rfl

/-- A write behind a pointer that is not null. -/
theorem setIf_some : heap.setIf (some a) f v = heap.set a f v := rfl

/-- Valid pointers stay valid through a write. -/
theorem pointer_set {b : Option ℕ} : Pointer (heap.set a f v) b ↔ Pointer heap b :=
  forall₂_congr fun _ _ => alive_set

/-- Valid pointers stay valid through a write behind a pointer that may be null. -/
theorem pointer_setIf {a b : Option ℕ} : Pointer (heap.setIf a f v) b ↔ Pointer heap b :=
  forall₂_congr fun _ _ => alive_setIf

/-- `unlink_block` of a block with a parent. -/
theorem unlinkBlock_of_parent (h : Rep heap kids) (hq : heap.get p .parent = some q) :
    unlinkBlock heap p = some (unlinkSelf (unlinkOthers heap p q) p) := by
  have hp : Alive heap p := alive_of_get hq
  have hqa : Alive heap q := h.pointer q hq
  have hprev : Pointer heap (heap.get p .prev) := h.pointer
  have hnext : Pointer heap (heap.get p .next) := h.pointer
  rw [unlinkBlock, unlinkSelf, unlinkOthers, firstOf]
  simp only [load_eq hp, load_eq hqa, hq, bind_eq_bind, bind_some]
  split_ifs <;>
    simp (disch := simp only [alive_set, alive_setIf, pointer_set, pointer_setIf, hp,
      hqa, hprev, hnext]) only
      [store_eq, storeIf_eq, load_eq, bind_some, get_set, get_setIf,
        reduceCtorEq, and_false, and_true,
        if_false, ite_self, setIf_none, setIf_some]

/-- `unlink_block` of a root. -/
theorem unlinkBlock_of_root (hp : Alive heap p) (hq : heap.get p .parent = none) :
    unlinkBlock heap p = some (unlinkSelf heap p) := by
  rw [unlinkBlock, unlinkSelf]
  simp only [load_eq hp, hq, bind_eq_bind, bind_some]
  simp (disch := simp only [alive_set, hp]) only [store_eq, bind_some]

/-- The block that is unlinked keeps its children and loses its other links. -/
theorem get_unlinkSelf (hp : Alive heap p) :
    (unlinkSelf heap p).get z f = if z = p ∧ f ≠ .child then none else heap.get z f := by
  rw [unlinkSelf]
  simp (disch := simp only [alive_set, hp]) only [get_set]
  by_cases hz : z = p
  · cases f <;> simp [hz]
  · simp [hz]

/-- A block is the first child only of its parent. -/
theorem Rep.child_eq_iff (h : Rep heap kids) (hq : heap.get p .parent = some q) :
    heap.get z .child = some p ↔ z = q ∧ heap.get q .child = some p := by
  constructor
  · intro hz
    obtain rfl : z = q := some.inj ((h.mem_iff.1 (h.mem_of_child hz)).symm.trans hq)
    exact ⟨rfl, hz⟩
  · rintro ⟨rfl, hz⟩
    exact hz

/-- One block is behind another if that one is in front of it. -/
theorem Rep.next_eq_iff (h : Rep heap kids) : heap.get y .next = some z ↔
    heap.get z .prev = some y :=
  ⟨fun hy => (h.of_next hy).1, h.of_prev⟩

section

variable (h : Rep heap kids) (hq : heap.get p .parent = some q)
include h hq

/-- The pointer to the first child that unlinking rewrites is valid. -/
theorem Rep.pointer_firstOf : Pointer heap (firstOf heap p q) := by
  intro x hx
  rw [firstOf, ite_none_right_eq_some] at hx
  exact h.pointer x (hq.trans hx.2)

/-- The block whose first child is `p` is the one that is rewritten. -/
theorem Rep.firstOf_eq_iff : firstOf heap p q = some z ↔ heap.get z .child = some p := by
  rw [h.child_eq_iff hq, firstOf, ite_none_right_eq_some, some.injEq, and_comm, eq_comm]

/-- The links of the other blocks after unlinking are those without `p`. -/
theorem Rep.get_unlinkOthers : (unlinkOthers heap p q).get z f = without heap p z f := by
  have hfirst := h.pointer_firstOf hq
  have hprev : Pointer heap (heap.get p .prev) := h.pointer
  have hnext : Pointer heap (heap.get p .next) := h.pointer
  rw [unlinkOthers, get_setIf (pointer_setIf.2 (pointer_setIf.2 hnext)),
    get_setIf (pointer_setIf.2 hprev),
    get_setIf hfirst]
  cases f with
  | parent => simp [without]
  | child => simp [without, h.firstOf_eq_iff hq]
  | prev => simp [without, h.next_eq_iff]
  | next => simp [without, ← h.next_eq_iff]

end

/-- Unlinking from the others keeps the blocks. -/
theorem sameBlocks_unlinkOthers : SameBlocks heap (unlinkOthers heap p q) :=
  (sameBlocks_setIf.trans sameBlocks_setIf).trans sameBlocks_setIf

/-- Clearing a block's own links keeps the blocks. -/
theorem sameBlocks_unlinkSelf : SameBlocks heap (unlinkSelf heap p) :=
  (sameBlocks_set.trans sameBlocks_set).trans sameBlocks_set

/-- What `unlink_block` does to the pointers. -/
theorem Rep.unlinkBlock (h : Rep heap kids) (hp : Alive heap p) :
    ∃ heap', unlinkBlock heap p = some heap' ∧ SameBlocks heap heap' ∧
      ∀ z f, heap'.get z f = unlinked heap p z f := by
  have hself : without heap p p .child = heap.get p .child := by
    refine if_neg fun hc => ?_
    exact h.forest.notMem_self (h.mem_of_child hc)
  have hclear : ∀ {heap₁ : Heap}, Alive heap₁ p → (∀ z f, heap₁.get z f = without heap p z f) →
      ∀ z f, (unlinkSelf heap₁ p).get z f = unlinked heap p z f := by
    intro heap₁ halive hget z f
    rw [get_unlinkSelf halive, hget, unlinked]
    by_cases hz : z = p
    · subst hz
      by_cases hf : f = .child
      · subst hf
        simpa using hself
      · simp [hf]
    · simp [hz]
  rcases eq_none_or_eq_some (heap.get p .parent) with hq | ⟨q, hq⟩
  · refine ⟨_, unlinkBlock_of_root hp hq, sameBlocks_unlinkSelf, hclear hp fun z f => ?_⟩
    exact (h.without_root hq).symm
  · refine ⟨_, unlinkBlock_of_parent h hq, sameBlocks_unlinkOthers.trans sameBlocks_unlinkSelf,
      hclear (sameBlocks_unlinkOthers.alive_iff.2 hp) fun z f => ?_⟩
    exact h.get_unlinkOthers hq

/-- A block that is unlinked is taken from the children of its parent. -/
theorem Rep.unlink (h : Rep heap kids) (hsame : SameBlocks heap heap')
    (hget : ∀ z f, heap'.get z f = unlinked heap p z f) : Rep heap' fun x => (kids x).erase p where
  forest := h.forest.erase p
  mem_iff := by
    intro x y
    rw [(h.forest.nodup x).mem_erase_iff, hget, unlinked]
    by_cases hy : y = p
    · simp [hy]
    · simp [hy, without, h.mem_iff]
  alive hy := hsame.alive_iff.2 (h.alive (List.mem_of_mem_erase hy))
  child := by
    intro x _
    rw [hget, unlinked]
    split_ifs with hxp
    · subst hxp
      rw [List.erase_of_not_mem h.forest.notMem_self, h.child_eq]
    · exact absurd rfl (by assumption)
    · have hlinked := h.linked x
      rw [without, h.child_eq]
      rcases hl : kids x with _ | ⟨c, l⟩
      · rfl
      · rw [hl] at hlinked
        by_cases hc : c = p
        · subst hc
          simpa using hlinked.2.1
        · rw [List.erase_cons_tail (by simpa using hc)]
          simp [hc]
  linked := by
    intro x
    by_cases hp : p ∈ kids x
    · refine (h.linked x).erase (h.forest.nodup x) hp nofun (fun z _ hz => ?_) fun z _ hz => ?_
      all_goals
        rw [hget, unlinked, if_neg hz]
        rfl
    · rw [List.erase_of_not_mem hp]
      have hzp : ∀ z ∈ kids x, z ≠ p := fun z hz heq => hp (heq ▸ hz)
      refine (h.linked x).congr (fun z hz => ?_) fun z hz => ?_ <;>
        rw [hget, unlinked, if_neg (hzp z hz)]
      · exact if_neg ((h.linked x).ne_of_notMem nofun hp hz).1
      · exact if_neg ((h.linked x).ne_of_notMem nofun hp hz).2
  root := by
    intro y hy
    rw [hget, unlinked] at hy
    rw [hget, hget, unlinked, unlinked]
    by_cases hyp : y = p
    · simp [hyp]
    · rw [if_neg hyp] at hy ⊢
      obtain ⟨hprev, hnext⟩ := h.root hy
      rw [if_neg hyp]
      simp [without, hprev, hnext]

/-! ### `add_child` -/

/-- The pointers after a block is added to the children of another one. -/
def added (heap : Heap) (q p z : ℕ) : Field → Option ℕ
  | .parent => if z = p then some q else heap.get z .parent
  | .child => if z = q then some p else heap.get z .child
  | .prev => if heap.get q .child = some z then some p else heap.get z .prev
  | .next => if z = p then heap.get q .child else heap.get z .next

/-- What `add_child` does to the pointers. -/
theorem addChild_spec (hp : Alive heap p) (hq : Alive heap q)
    (hchild : Pointer heap (heap.get q .child)) :
    ∃ heap', addChild heap (some q) p = some heap' ∧ SameBlocks heap heap' ∧
      ∀ z f, heap'.get z f = added heap q p z f := by
  refine ⟨(((heap.set p .parent (some q)).set p .next (heap.get q .child)).set
    q .child (some p)).setIf
    (heap.get q .child) .prev (some p), ?_, ?_, fun z f => ?_⟩
  · rw [addChild]
    simp (disch := simp only [alive_set, hp, hq, pointer_set, hchild]) only
      [load_eq, store_eq, storeIf_eq, get_set, bind_eq_bind, bind_some, reduceCtorEq, and_false,
        if_false, and_true, if_true]
  · exact ((sameBlocks_set.trans sameBlocks_set).trans sameBlocks_set).trans sameBlocks_setIf
  · rw [get_setIf (pointer_set.2 (pointer_set.2 (pointer_set.2 hchild))),
      get_set (alive_set.2 (alive_set.2 hq)),
      get_set (alive_set.2 hp), get_set hp]
    cases f <;> simp [added]

/-- A linked list of blocks is put in front of the children of `q`, in a forest from which they are
taken. -/
theorem Rep.graft {kids₁ : ℕ → List ℕ} {l : List ℕ} {last : ℕ}
    (h : Rep heap kids) (hq : Alive heap q)
    (hforest : Forest kids₁) (hmem : ∀ {x y}, y ∈ kids₁ x ↔ heap.get y .parent = some x ∧ y ∉ l)
    (hlinked : ∀ x, Linked (fun y => heap.get y .prev) (fun y => heap.get y .next) none (kids₁ x))
    (hl : Linked (fun y => heap.get y .prev) (fun y => heap.get y .next) none l) (hnodup : l.Nodup)
    (hlast : l.getLast? = some last) (hnot : ∀ c ∈ l, ¬ Trees.Descends kids₁ c q)
    (hsame : SameBlocks heap heap')
    (hparent : ∀ z, heap'.get z .parent = if z ∈ l then some q else heap.get z .parent)
    (hchild : ∀ z, heap'.get z .child = if z = q then l.head? else (kids₁ z).head?)
    (hprev : ∀ z, heap'.get z .prev = if (kids₁ q).head? =
      some z then some last else heap.get z .prev)
    (hnext : ∀ z, heap'.get z .next = if z = last then (kids₁ q).head? else heap.get z .next) :
    Rep heap' (update kids₁ q (l ++ kids₁ q)) := by
  have hlastmem : last ∈ l := List.mem_of_getLast? hlast
  have hprev_of : ∀ {z}, z ∉ kids₁ q → heap'.get z .prev = heap.get z .prev := fun {z} hz =>
    (hprev z).trans (if_neg fun hhead => hz (List.mem_of_mem_head? hhead))
  have hnext_of : ∀ {z}, z ∉ l → heap'.get z .next = heap.get z .next := fun {z} hz =>
    (hnext z).trans (if_neg (ne_of_mem_of_not_mem hlastmem hz).symm)
  refine ⟨hforest.graft hnodup (fun c hc x hx => (hmem.1 hx).2 hc) hnot, ?_, ?_, ?_, ?_, ?_⟩
  · intro x y
    rw [hparent]
    by_cases hx : x = q
    · subst hx
      by_cases hy : y ∈ l <;> simp [hy, hmem]
    · rw [update_of_ne hx, hmem]
      by_cases hy : y ∈ l <;> simp [hy, Ne.symm hx]
  · intro x y hy
    refine hsame.alive_iff.2 ?_
    by_cases hx : x = q
    · exact hx ▸ hq
    · rw [update_of_ne hx] at hy
      exact h.alive (h.mem_iff.2 (hmem.1 hy).1)
  · intro x _
    rw [hchild]
    by_cases hx : x = q
    · have hsome : l.head?.isSome := by
        rw [List.isSome_head?]
        exact List.ne_nil_of_mem hlastmem
      rw [if_pos hx, hx, update_self, List.head?_append, or_of_isSome hsome]
    · rw [if_neg hx, update_of_ne hx]
  · intro x
    by_cases hx : x = q
    · subst hx
      rw [update_self]
      exact hl.append (hlinked x) hlast hnodup (hforest.nodup x)
        (fun z hz => hprev_of fun hzx => (hmem.1 hzx).2 hz)
        (fun z _ => hnext z) (fun z _ => hprev z) fun z hz => hnext_of (hmem.1 hz).2
    · rw [update_of_ne hx]
      exact (hlinked x).congr (fun z hz => hprev_of fun hzq => hx (hforest.parent_unique hz hzq))
        fun z hz => hnext_of (hmem.1 hz).2
  · intro y hy
    rw [hparent] at hy
    split_ifs at hy with hyl
    rw [hprev_of fun hyq => ?_, hnext_of hyl]
    · exact h.root hy
    · cases hy.symm.trans (hmem.1 hyq).1

/-- A root that `add_child` adds becomes the first of the children. -/
theorem Rep.addChild {ctx : Option ℕ} (h : Rep heap kids) (hp : Alive heap p)
    (hctx : Pointer heap ctx)
    (hroot : heap.get p .parent = none) (hnot : ∀ q, ctx = some q → ¬ Trees.Descends kids p q) :
    ∃ heap' kids', addChild heap ctx p = some heap' ∧ Rep heap' kids' := by
  cases ctx with
  | none => exact ⟨heap, kids, rfl, h⟩
  | some q =>
    have hq := hctx q rfl
    obtain ⟨heap', hadd, hsame, hget⟩ := addChild_spec hp hq h.pointer
    have hmem : ∀ {x y}, y ∈ kids x ↔ heap.get y .parent = some x ∧ y ∉ [p] := by
      intro x y
      rw [h.mem_iff, List.mem_singleton, iff_self_and]
      rintro hy rfl
      cases hroot.symm.trans hy
    refine ⟨heap', _, hadd, h.graft hq h.forest hmem h.linked
      ⟨(h.root hroot).1, (h.root hroot).2, trivial⟩
      (List.nodup_singleton p) List.getLast?_singleton ?_ hsame ?_ ?_ ?_ ?_⟩
    · simpa using hnot q rfl
    all_goals
      intro z
      simp [hget, added, h.child_eq]

/-! ### `ralloc_size` -/

/-- A new block is a root without children. -/
theorem Rep.alloc (h : Rep heap kids) (ha : heap a = none) (destructor : Bool) :
    Rep (update heap a (some ⟨none, none, none, none, destructor⟩)) kids := by
  refine h.congr (fun z hz => ?_) fun z f => ?_
  · have hza : z ≠ a := fun heq => hz (heq ▸ ha)
    rw [Alive, update_of_ne hza]
    exact hz
  · by_cases hz : z = a
    · subst hz
      rw [Heap.get, update_self, Heap.get, ha]
      cases f <;> rfl
    · rw [Heap.get, update_of_ne hz, Heap.get]

end Mesa3D.Ralloc
