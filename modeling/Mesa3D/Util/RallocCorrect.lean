import Mesa3D.Util.RallocMove

/-!
# The hierarchical allocator keeps a forest

After any sequence of calls the headers are those of a forest (`Reachable.rep`), and `ralloc_free`
frees the subtree of its block and nothing else. `unsafe_free` does not keep the links while it
runs: it only takes the children from the front of the list. The proof follows it with the forest
before the call, of which the subtrees that are not yet freed are untouched.
-/

namespace Mesa3D.Ralloc

open Mesa3D.Lists Mesa3D.Trees
open Fuel (Returns)
open Option
open Function (update_of_ne update update_self)
open List

variable {heap heap' : Heap} {kids : ℕ → List ℕ} {a p q x y z : ℕ} {f g : Field}

/-! ### `unsafe_free` -/

/-- What happens to a block that is freed. -/
def blockEvents (heap : Heap) (a : ℕ) : List Event :=
  if (heap a).map (fun h => h.destructor) = some true then [.destructor a, .free a] else [.free a]

/-- The memory without some blocks. -/
def removeAll (heap : Heap) (l : List ℕ) : Heap := fun z => if z ∈ l then none else heap z

/-- A block that was removed is gone. -/
theorem removeAll_of_mem {l : List ℕ} (hz : z ∈ l) : removeAll heap l z = none := if_pos hz

/-- The other blocks stay. -/
theorem removeAll_of_notMem {l : List ℕ} (hz : z ∉ l) : removeAll heap l z = heap z := if_neg hz

/-- Blocks are removed in two steps. What is removed in the second one may be changed before. -/
theorem removeAll_removeAll {l l' : List ℕ} (h : ∀ z, z ∉ l' → heap' z = heap z) :
    removeAll (removeAll heap' l) l' = removeAll heap (l ++ l') := by
  funext z
  by_cases hz' : z ∈ l'
  · simp [removeAll, hz']
  · by_cases hz : z ∈ l <;> simp [removeAll, hz, hz', h z hz']

/-- A write leaves the other blocks. -/
theorem set_of_ne {v : Option ℕ} (hz : z ≠ a) : heap.set a f v z = heap z := by
  rw [Heap.set, update_of_ne hz]

/-- Equal blocks have equal links. -/
theorem get_congr (hz : heap' z = heap z) : heap'.get z f = heap.get z f := by
  rw [Heap.get, hz, Heap.get]

/-- A block without children is freed. -/
theorem unsafeFree_leaf {heap₀ : Heap} (hx : Alive heap x) (hchild : heap.get x .child = none)
    (hsame : (heap x).map (fun h => h.destructor) = (heap₀ x).map fun h => h.destructor) :
    Returns (fun fuel => unsafeFree fuel heap x) (removeAll heap [x], blockEvents heap₀ x) := by
  obtain ⟨hd, hhd⟩ := ne_none_iff_exists'.1 hx
  have hnone : hd.child = none := by
    rw [Heap.get, hhd] at hchild
    exact hchild
  refine Returns.of_succ fun fuel => ?_
  have hheap : update heap x none = removeAll heap [x] := by
    funext z
    by_cases hz : z = x <;> simp [hz, removeAll]
  rw [unsafeFree, blockEvents, ← hsame, hhd]
  cases hdes : hd.destructor <;> simp [hnone, hdes, hheap]

/-- `unsafe_free` of a block whose list of children is what remains of that in the forest. -/
theorem unsafeFree_spec {heap₀ : Heap} {rank : ℕ → ℕ} (h : Rep heap₀ kids)
    (hrank : ∀ x, ∀ y ∈ kids x, rank y < rank x) (n : ℕ) {d l : List ℕ} (hl : kids x = d ++ l)
    (hn : ∀ y ∈ l, rank y < n) (hx : Alive heap x) (hchild : heap.get x .child = l.head?)
    (hsame : (heap x).map (fun h => h.destructor) = (heap₀ x).map fun h => h.destructor)
    (hheap : ∀ z ∈ l.flatMap (postorder kids n), heap z = heap₀ z)
    (hnodup : (l.flatMap (postorder kids n) ++ [x]).Nodup) :
    Returns (fun fuel => unsafeFree fuel heap x)
      (removeAll heap (l.flatMap (postorder kids n) ++ [x]),
      (l.flatMap (postorder kids n) ++ [x]).flatMap (blockEvents heap₀)) := by
  -- on the depth, and for each depth on the children that remain
  induction n generalizing x d l heap with
  | zero =>
    obtain rfl : l = [] := eq_nil_iff_forall_not_mem.2 fun y hy =>
      absurd (hn y hy) (Nat.not_lt_zero _)
    simpa using unsafeFree_leaf hx hchild hsame
  | succ n ihn =>
    induction l generalizing d heap with
    | nil => simpa using unsafeFree_leaf hx hchild hsame
    | cons temp l ihl =>
      rw [flatMap_cons] at hheap hnodup ⊢
      rw [append_assoc] at hnodup ⊢
      obtain ⟨hnodup₁, hnodup₂, hdisjoint⟩ := nodup_append'.1 hnodup
      have htemp_mem : temp ∈ postorder kids (n + 1) temp := by
        rw [postorder]
        simp
      set first := postorder kids (n + 1) temp
      set rest := l.flatMap (postorder kids (n + 1)) ++ [x] with hrest
      have hx_rest : x ∈ rest := by simp [hrest]
      have hx_notMem : x ∉ first := fun hmem => hdisjoint hmem hx_rest
      have htemp_ne : temp ≠ x := fun heq => hx_notMem (heq ▸ htemp_mem)
      have htemp_kid : temp ∈ kids x := by
        rw [hl]
        simp
      have htemp : heap temp = heap₀ temp := hheap temp (mem_append_left _ htemp_mem)
      have htempa : Alive heap₀ temp := h.alive_of_mem htemp_kid
      have hnext : heap.get temp .next = l.head? := by
        obtain ⟨p', hlinked⟩ := (hl ▸ h.linked x).of_append
        exact (get_congr htemp).trans hlinked.2.1
      set heap₁ := heap.set x .child l.head? with hheap₁
      have heap₁_of_ne : ∀ {z}, z ≠ x → heap₁ z = heap z := fun hz => set_of_ne hz
      -- the subtree of the first child is freed
      have hfirst : Returns (fun fuel => unsafeFree fuel heap₁ temp)
          (removeAll heap₁ first, first.flatMap (blockEvents heap₀)) := by
        have heq : heap₁ temp = heap₀ temp := (heap₁_of_ne htemp_ne).trans htemp
        refine ihn (d := []) rfl (fun y hy => ?_) ?_ ?_ ?_ (fun z hz => ?_) hnodup₁
        · have hy' := hrank temp y hy
          have ht := hn temp mem_cons_self
          omega
        · rw [Alive, heq]
          exact htempa
        · rw [get_congr heq, h.child htempa]
        · rw [heq]
        · have hmem : z ∈ first := mem_append_left _ hz
          rw [heap₁_of_ne fun heq => hx_notMem (heq ▸ hmem)]
          exact hheap z (mem_append_left _ hmem)
      -- then the rest
      have hrest : Returns (fun fuel => unsafeFree fuel (removeAll heap₁ first) x)
          (removeAll (removeAll heap₁ first) rest, rest.flatMap (blockEvents heap₀)) := by
        have heq : removeAll heap₁ first x = heap₁ x := removeAll_of_notMem hx_notMem
        refine ihl (d := d ++ [temp]) ?_ (fun y hy => hn y (mem_cons_of_mem _ hy))
          ?_ ?_ ?_ (fun z hz => ?_)
          hnodup₂
        · rw [hl, append_assoc]
          rfl
        · rw [Alive, heq]
          exact alive_set.2 hx
        · rw [get_congr heq, hheap₁, get_set hx]
          simp
        · rw [heq, hheap₁, sameBlocks_set x, hsame]
        · have hzx : z ≠ x :=
            fun hzx => (nodup_append'.1 hnodup₂).2.2 (hzx ▸ hz) (mem_singleton_self x)
          have hzt : z ∉ first := fun hmem => hdisjoint hmem (mem_append_left _ hz)
          rw [removeAll_of_notMem hzt, heap₁_of_ne hzx]
          exact hheap z (mem_append_right _ hz)
      have hboth := hfirst.bind (f := fun fuel r => (unsafeFree fuel r.1 x).bind fun r' =>
        some (r'.1, r.2 ++ r'.2))
        (hrest.bind (f := fun _ r' => some (r'.1, first.flatMap (blockEvents heap₀) ++ r'.2))
          (Returns.of_eq fun _ => rfl))
      rw [removeAll_removeAll fun z hz => heap₁_of_ne fun hzx => hz (hzx ▸ hx_rest),
        ← flatMap_append] at hboth
      refine hboth.step fun fuel => ?_
      obtain ⟨hd, hhd⟩ := ne_none_iff_exists'.1 hx
      have hdchild : hd.child = some temp := by
        rw [Heap.get, hhd] at hchild
        exact hchild
      have htempa' : Alive heap temp := by
        rw [Alive, htemp]
        exact htempa
      rw [unsafeFree, hhd]
      simp [hdchild, load_eq htempa', hnext, store_eq hx, hheap₁]

/-! ### `ralloc_free` -/

/-- The header of another block after a block is taken out of the list of its parent's children: the
parent's pointer to its first child and the pointers of the neighbours change. -/
def Header.unlink (heap : Heap) (p : ℕ) (h : Header) : Header where
  parent := h.parent
  child := if h.child = some p then heap.get p .next else h.child
  prev := if h.prev = some p then heap.get p .prev else h.prev
  next := if h.next = some p then heap.get p .next else h.next
  destructor := h.destructor

/-- A header is its pointers and its destructor. -/
theorem eq_of_get {hd : Header} (hz : (heap z).map (fun h => h.destructor) = some hd.destructor)
    (hget : ∀ f, heap.get z f = hd.get f) : heap z = some hd := by
  obtain ⟨hd', hhd', hdes⟩ := map_eq_some_iff.1 hz
  have hfield : ∀ f, hd'.get f = hd.get f := fun f => by
    rw [← hget, Heap.get, hhd']
    rfl
  rw [hhd']
  exact congrArg some (Header.ext (hfield .parent) (hfield .child)
    (hfield .prev) (hfield .next) hdes)

/-- The header of another block after a block is unlinked. -/
theorem unlinked_header (hsame : SameBlocks heap heap')
    (hget : ∀ z f, heap'.get z f = unlinked heap p z f)
    (hz : z ≠ p) : heap' z = (heap z).map (Header.unlink heap p) := by
  rcases hhd : heap z with _ | hd
  · have hnone := hsame z
    rw [hhd] at hnone
    exact map_eq_none_iff.1 hnone
  · refine eq_of_get ?_ fun f => ?_
    · rw [hsame, hhd]
      rfl
    · have hfield : ∀ f, heap.get z f = hd.get f := fun f => by
        rw [Heap.get, hhd]
        rfl
      rw [hget, unlinked, if_neg hz]
      cases f <;> simp only [without, hfield] <;> rfl

/-- The blocks that remain when a subtree is removed are a forest. -/
theorem Rep.prune {freed : List ℕ} (h : Rep heap kids) (hp : heap.get p .parent = none)
    (hfreed : ∀ y, y ∈ freed ↔ Trees.Descends kids p y) :
    Rep (removeAll heap freed) fun x => if x ∈ freed then [] else kids x := by
  have hkeep : ∀ {x y}, y ∈ kids x → x ∉ freed → y ∉ freed := by
    intro x y hy hx hmem
    rcases ((hfreed y).1 hmem).cases_tail with rfl | ⟨x', hx', hy'⟩
    · cases hp.symm.trans (h.mem_iff.1 hy)
    · exact hx ((hfreed x).2 (h.forest.parent_unique hy' hy ▸ hx'))
  have hget : ∀ {z f}, z ∉ freed → (removeAll heap freed).get z f = heap.get z f := fun hz =>
    get_congr (removeAll_of_notMem hz)
  have hgone : ∀ {z f}, z ∈ freed → (removeAll heap freed).get z f = none := by
    intro z f hz
    rw [Heap.get, removeAll_of_mem hz]
    rfl
  refine ⟨h.forest.prune (· ∈ freed), ?_, ?_, ?_, ?_, ?_⟩
  · intro x y
    by_cases hyf : y ∈ freed <;> by_cases hx : x ∈ freed
    · simp [hgone hyf, hx]
    · simpa [hgone hyf, hx] using fun hy => hkeep hy hx hyf
    · have hy : y ∉ kids x := fun hy => hyf ((hfreed y).2 (((hfreed x).1 hx).tail hy))
      simpa [hget hyf, hx, ← h.mem_iff] using hy
    · rw [if_neg hx, hget hyf, h.mem_iff]
  · intro x y hy
    split_ifs at hy with hx
    · cases hy
    · rw [Alive, removeAll_of_notMem hx]
      exact h.alive hy
  · intro x hx
    have hxf : x ∉ freed := fun hxf => hx (removeAll_of_mem hxf)
    rw [if_neg hxf, hget hxf, h.child_eq]
  · intro x
    split_ifs with hx
    · trivial
    · exact (h.linked x).congr (fun z hz => hget (hkeep hz hx)) fun z hz => hget (hkeep hz hx)
  · intro y hy
    by_cases hyf : y ∈ freed
    · exact ⟨hgone hyf, hgone hyf⟩
    · rw [hget hyf] at hy
      rw [hget hyf, hget hyf]
      exact h.root hy

/-- In its subtree the descendants stay the same when a block is unlinked. -/
theorem Rep.descends_erase (h : Rep heap kids) (hx : Trees.Descends kids p x) :
    Trees.Descends (fun x => (kids x).erase p) x y ↔ Trees.Descends kids x y := by
  refine ⟨fun hd => hd.mono fun x z hz => mem_of_mem_erase hz, fun hd => ?_⟩
  obtain ⟨rank, hrank⟩ := h.forest.ranked
  induction hd with
  | refl => exact Relation.ReflTransGen.refl
  | @tail b c hxb hbc ih =>
    have hlt := hrank b c hbc
    have hle := Descends.rank_le hrank (hx.trans hxb)
    have hne : c ≠ p := fun heq => by
      rw [heq] at hlt
      omega
    exact ih.tail (((h.forest.nodup b).mem_erase_iff).2 ⟨hne, hbc⟩)

/-- `ralloc_free` frees the subtree of its block, children before parents, and unlinks it. -/
theorem Rep.rallocFree (h : Rep heap kids) (hp : Alive heap p) :
    ∃ (freed : List ℕ) (heap' : Heap),
      Returns (fun fuel => rallocFree heap (some p) fuel)
        (heap', freed.flatMap (blockEvents heap)) ∧
      freed.Nodup ∧ (∀ y, y ∈ freed ↔ Ralloc.Descends heap p y) ∧
      freed.Pairwise (fun a b => ¬ Ralloc.Descends heap a b) ∧
      (∀ z, heap' z = if z ∈ freed then none else (heap z).map (Header.unlink heap p)) ∧
      Rep heap' fun x => if x ∈ freed then [] else (kids x).erase p := by
  obtain ⟨heap₁, hunlink, hsame, hget⟩ := h.unlinkBlock hp
  have h₁ := h.unlink hsame hget
  obtain ⟨rank, hrank⟩ := h₁.forest.ranked
  have hp₁ : Alive heap₁ p := hsame.alive_iff.2 hp
  have hroot : heap₁.get p .parent = none := by
    rw [hget, unlinked, if_pos rfl, if_neg Field.noConfusion]
  have hn : rank p < rank p + 1 := Nat.lt_succ_self _
  set freed := postorder (fun x => (kids x).erase p) (rank p + 1) p with hfreed
  have hnodup : freed.Nodup := nodup_postorder hrank hn h₁.forest
  have hmem₁ : ∀ y, y ∈ freed ↔ Trees.Descends (fun x => (kids x).erase p) p y :=
    fun y => mem_postorder hrank hn
  have hmem : ∀ y, y ∈ freed ↔ Ralloc.Descends heap p y := fun y => by
    rw [hmem₁, h.descends_erase Relation.ReflTransGen.refl, h.descends_iff]
  have hevents : blockEvents heap₁ = blockEvents heap := by
    funext a
    rw [blockEvents, hsame, blockEvents]
  refine ⟨freed, removeAll heap₁ freed, ?_, hnodup, hmem, ?_, fun z => ?_, h₁.prune hroot hmem₁⟩
  · have hfree := unsafeFree_spec h₁ hrank (rank p) (d := []) rfl (hrank p) hp₁
      (h₁.child hp₁) rfl (fun _ _ => rfl)
      hnodup
    rw [hevents] at hfree
    obtain ⟨n, hn⟩ := hfree
    refine ⟨n, fun fuel hfuel => ?_⟩
    dsimp only
    rw [Ralloc.rallocFree, hunlink]
    exact hn fuel hfuel
  · refine Pairwise.imp_of_mem (fun {a b} ha _ hab hd => hab ?_)
      (pairwise_postorder hrank hn h₁.forest)
    exact (h.descends_erase (h.descends_iff.1 ((hmem a).1 ha))).2 (h.descends_iff.1 hd)
  · by_cases hz : z ∈ freed
    · rw [removeAll_of_mem hz, if_pos hz]
    · have hzp : z ≠ p := fun heq => hz (heq ▸ (hmem p).2 Relation.ReflTransGen.refl)
      rw [removeAll_of_notMem hz, if_neg hz, unlinked_header hsame hget hzp]

/-! ### Sequences of calls -/

section

variable (h : Rep heap kids)
include h

/-- A new block gets its place in the forest. -/
theorem Rep.rallocSize {ctx : Option ℕ} {block : ℕ} (hctx : Pointer heap ctx)
    (hblock : heap block = none) :
    ∃ heap' kids', rallocSize heap ctx block = some heap' ∧ Rep heap' kids' := by
  have hne : ∀ q, ctx = some q → q ≠ block := fun q hq heq => hctx q hq (heq ▸ hblock)
  refine (h.alloc hblock false).addChild ?_ (fun q hq => ?_) ?_ fun q hq hd => ?_
  · rw [Alive, update_self]
    rintro ⟨⟩
  · rw [Alive, update_of_ne (hne q hq)]
    exact hctx q hq
  · rw [Heap.get, update_self]
    rfl
  · -- the new block has no children
    rcases hd.cases_head with heq | ⟨c, hc, -⟩
    · exact hne q hq heq.symm
    · exact h.alive hc hblock

/-- A block that is stolen gets its new place in the forest. -/
theorem Rep.rallocSteal {newCtx ptr : Option ℕ} (hctx : Pointer heap newCtx)
    (hptr : Pointer heap ptr)
    (hnot : ∀ q x, newCtx = some q → ptr = some x → ¬ Ralloc.Descends heap x q) :
    ∃ heap' kids', rallocSteal heap newCtx ptr = some heap' ∧ Rep heap' kids' := by
  cases ptr with
  | none => exact ⟨heap, kids, rfl, h⟩
  | some p =>
    obtain ⟨heap₁, hunlink, hsame₁, hget₁⟩ := h.unlinkBlock (hptr p rfl)
    have h₁ := h.unlink hsame₁ hget₁
    rw [Ralloc.rallocSteal, hunlink]
    refine h₁.addChild (hsame₁.alive_iff.2 (hptr p rfl))
      (fun q hq => hsame₁.alive_iff.2 (hctx q hq)) ?_
      fun q hq hd => hnot q p hq rfl ?_
    · rw [hget₁, unlinked, if_pos rfl, if_neg Field.noConfusion]
    · exact h.descends_iff.2 (hd.mono fun x z hz => mem_of_mem_erase hz)

/-- The children that are adopted get their new places in the forest. -/
theorem Rep.rallocAdopt {newCtx : ℕ} {oldCtx : Option ℕ} (hnew : Alive heap newCtx)
    (hold : Pointer heap oldCtx)
    (hnot : ∀ x, oldCtx = some x → newCtx ≠ x ∧ ∀ c, ParentOf heap x c →
      ¬ Ralloc.Descends heap c newCtx) :
    ∃ heap' kids', Returns (fun fuel => Ralloc.rallocAdopt heap newCtx oldCtx fuel) heap' ∧
      Rep heap' kids' := by
  cases oldCtx with
  | none => exact ⟨heap, kids, Returns.of_eq fun _ => rfl, h⟩
  | some p =>
    obtain ⟨hne, hdesc⟩ := hnot p rfl
    have hp := hold p rfl
    by_cases hkids : kids p = []
    · refine ⟨heap, kids, Returns.of_eq fun fuel => ?_, h⟩
      rw [Ralloc.rallocAdopt, load_eq hp, h.child hp, hkids]
      rfl
    · obtain ⟨last, heap', hreturns, hlast, hsame, hget⟩ := h.adopt_links hnew hp hkids
      refine ⟨heap', _, hreturns, h.adopt hnew hp hne (fun c hc hd => ?_) hlast hsame hget⟩
      exact hdesc c (h.parentOf_iff.2 hc) (h.descends_iff.2 hd)

/-- A block that is resized keeps its place in the forest. -/
theorem Rep.resize {old info : ℕ} (hold : Alive heap old) (hinfo : heap info = none ∨ old = info) :
    ∃ heap' kids', Returns (fun fuel => resize heap old info fuel) heap' ∧ Rep heap' kids' := by
  rcases hinfo with hinfo | rfl
  · obtain ⟨heap', hreturns, hsame, hget⟩ := h.resize_move hold hinfo
    refine ⟨heap', _, hreturns, h.move (Equiv.swap old info)
      (fun z hz => hsame.alive_iff.2 ?_) hget⟩
    show heap (Equiv.swap old info (Equiv.swap old info z)) ≠ none
    rwa [Equiv.swap_apply_self]
  · obtain ⟨heap', hreturns, hsame, hget⟩ := h.resize_self hold
    exact ⟨heap', kids, hreturns, h.congr (fun z => hsame.alive_iff.2) hget⟩

/-- The destructor of a block does not matter for the forest. -/
theorem Rep.rallocSetDestructor {destructor : Bool} (hp : Alive heap p) :
    ∃ heap', rallocSetDestructor heap p destructor = some heap' ∧ Rep heap' kids := by
  obtain ⟨hd, hhd⟩ := ne_none_iff_exists'.1 hp
  refine ⟨update heap p (some { hd with destructor := destructor }), ?_,
    h.congr (fun z hza => ?_) fun z f => ?_⟩
  · rw [Ralloc.rallocSetDestructor, hhd]
    rfl
  · by_cases hz : z = p
    · simp [Alive, hz]
    · rwa [Alive, update_of_ne hz]
  · by_cases hz : z = p
    · subst hz
      rw [Heap.get, update_self, Heap.get, hhd]
      cases f <;> rfl
    · exact get_congr (update_of_ne hz _ _)

/-- Every call that a client may make returns, and leaves a forest. -/
theorem Rep.run {c : Call} (hc : c.Valid heap) :
    ∃ heap' events kids', Returns (fun fuel => c.run heap fuel)
      (heap', events) ∧ Rep heap' kids' := by
  -- a call of a function without events
  have hquiet : ∀ {call : ℕ → Option Heap}, (∃ heap' kids', Returns call heap' ∧ Rep heap' kids') →
      ∃ heap' events kids', Returns (fun fuel => (call fuel).map (·, ([] : List Event)))
        (heap', events) ∧
        Rep heap' kids' := by
    rintro call ⟨heap', kids', ⟨n, hn⟩, h'⟩
    refine ⟨heap', [], kids', ⟨n, fun fuel hfuel => ?_⟩, h'⟩
    simp [hn fuel hfuel]
  have hpure : ∀ {call : Option Heap}, (∃ heap' kids', call = some heap' ∧ Rep heap' kids') →
      ∃ heap' events kids', Returns (fun _ => call.map (·, ([] : List Event))) (heap', events) ∧
        Rep heap' kids' := by
    rintro call ⟨heap', kids', hcall, h'⟩
    exact hquiet ⟨heap', kids', Returns.of_eq fun _ => hcall, h'⟩
  cases c with
  | size ctx block => exact hpure (h.rallocSize hc.1 hc.2)
  | reralloc ctx ptr block =>
    obtain ⟨hctx, hptr, hblock, hparent⟩ := hc
    cases ptr with
    | none => exact hpure (h.rallocSize hctx (hblock.resolve_right nofun))
    | some old =>
      have hold := hptr old rfl
      obtain ⟨hd, hhd⟩ := ne_none_iff_exists'.1 hold
      have hparent' : heap.get old .parent = ctx := by
        rw [Heap.get, hhd]
        exact hparent old rfl hd hhd
      refine hquiet ?_
      have heq : rerallocSize heap ctx (some old) block = Ralloc.resize heap old block := by
        funext fuel
        rw [rerallocSize, load_eq hold, hparent']
        simp
      rw [heq]
      exact h.resize hold (hblock.imp_right some.inj)
  | steal newCtx ptr => exact hpure (h.rallocSteal hc.1 hc.2.1 hc.2.2)
  | adopt newCtx oldCtx => exact hquiet (h.rallocAdopt hc.1 hc.2.1 hc.2.2)
  | free ptr =>
    cases ptr with
    | none => exact ⟨heap, [], kids, Returns.of_eq fun _ => rfl, h⟩
    | some p =>
      obtain ⟨freed, heap', hreturns, -, -, -, -, h'⟩ := h.rallocFree (hc p rfl)
      exact ⟨heap', _, _, hreturns, h'⟩
  | setDestructor ptr destructor =>
    obtain ⟨heap', hset, h'⟩ := h.rallocSetDestructor hc
    exact hpure ⟨heap', kids, hset, h'⟩

end

/-- Over any sequence of calls the headers are those of a forest. -/
theorem Reachable.rep (h : Reachable heap) : ∃ kids, Rep heap kids := by
  induction h with
  | init =>
    refine ⟨fun _ => [], Forest.empty, ?_, ?_, ?_, fun _ => trivial, fun _ => ⟨rfl, rfl⟩⟩
    · intro x y
      exact ⟨fun hy => absurd hy not_mem_nil, nofun⟩
    · exact fun hy => absurd hy not_mem_nil
    · exact fun hx => absurd rfl hx
  | call c _ hc hreturns ih =>
    obtain ⟨kids, hrep⟩ := ih
    obtain ⟨heap', events, kids', hreturns', hrep'⟩ := hrep.run hc
    obtain ⟨rfl, -⟩ := Prod.mk.inj (hreturns.unique hreturns')
    exact ⟨kids', hrep'⟩

/-- After any sequence of calls the links of the headers are those of a forest, in which each block
that has a parent is once in the doubly linked list of its parent's children. Every further call
returns, and `ralloc_free` frees exactly the block and its descendants, each once and no block
before one of its descendants, and the destructor of each immediately before it is freed. The other
blocks keep their headers, except that the block is taken out of its parent's list of children. -/
theorem ralloc_forest (h : Reachable heap) : (∃ kids, Rep heap kids) ∧
    (∀ c : Call, c.Valid heap → ∃ result, Returns (fun fuel => c.run heap fuel) result) ∧
    ∀ p, Alive heap p → ∃ (freed : List ℕ) (heap' : Heap),
      Returns (fun fuel => (Call.free (some p)).run heap fuel)
        (heap', freed.flatMap (blockEvents heap)) ∧
      freed.Nodup ∧ (∀ y, y ∈ freed ↔ Ralloc.Descends heap p y) ∧
      freed.Pairwise (fun a b => ¬ Ralloc.Descends heap a b) ∧
      ∀ z, heap' z = if z ∈ freed then none else (heap z).map (Header.unlink heap p) := by
  obtain ⟨kids, hrep⟩ := h.rep
  refine ⟨⟨kids, hrep⟩, fun c hc => ?_, fun p hp => ?_⟩
  · obtain ⟨heap', events, -, hreturns, -⟩ := hrep.run hc
    exact ⟨_, hreturns⟩
  · obtain ⟨freed, heap', hreturns, hnodup, hmem, hpairwise, hheap, -⟩ := hrep.rallocFree hp
    exact ⟨freed, heap', hreturns, hnodup, hmem, hpairwise, hheap⟩

/-- A block at the address 1 with a child at 2. -/
def parentAndChild : Heap := fun z =>
  if z = 1 then some ⟨none, some 2, none, none, false⟩
  else if z = 2 then some ⟨some 1, none, none, none, false⟩ else none

/-- The two blocks come from two calls of `ralloc_size`. -/
theorem parentAndChild_reachable : Reachable parentAndChild := by
  have hparent : Reachable (update (fun _ => none) 1 (some ⟨none, none, none, none, false⟩)) :=
    Reachable.call (.size none 1) .init ⟨nofun, rfl⟩ (Returns.of_eq fun _ => rfl)
  have hchild : rallocSize (update (fun _ => none) 1 (some ⟨none, none, none, none, false⟩))
      (some 1) 2 = some parentAndChild := by
    simp [rallocSize, addChild, Heap.store, Heap.load, Heap.storeIf, Header.set, Header.get]
    funext z
    by_cases h₁ : z = 1
    · simp [h₁, parentAndChild]
    · by_cases h₂ : z = 2 <;> simp [h₁, h₂, parentAndChild]
  have hreturns : Returns (fun fuel => (Call.size (some 1) 2).run
      (update (fun _ => none) 1 (some ⟨none, none, none, none, false⟩)) fuel)
        (parentAndChild, []) := by
    refine Returns.of_eq fun _ => ?_
    rw [Call.run, hchild]
    rfl
  refine Reachable.call (.size (some 1) 2) hparent ⟨?_, rfl⟩ hreturns
  rintro x ⟨⟩
  simp [Alive]

/-- Freeing the parent of the two blocks. -/
theorem ralloc_forest_parentAndChild :
    Reachable parentAndChild ∧ (∃ kids, Rep parentAndChild kids) ∧
      ∃ (freed : List ℕ) (heap' : Heap),
        Returns (fun fuel => (Call.free (some 1)).run parentAndChild fuel)
        (heap', freed.flatMap (blockEvents parentAndChild)) ∧ freed.Nodup ∧
        ∀ y, y ∈ freed ↔ Ralloc.Descends parentAndChild 1 y := by
  obtain ⟨hrep, -, hfree⟩ := ralloc_forest parentAndChild_reachable
  obtain ⟨freed, heap', hreturns, hnodup, hmem, -, -⟩ := hfree 1 (by simp [Alive, parentAndChild])
  exact ⟨parentAndChild_reachable, hrep, freed, heap', hreturns, hnodup, hmem⟩

/-- Freeing the child changes a link of the parent, which is not freed. -/
theorem rallocFree_changes_parent :
    Reachable parentAndChild ∧ ¬ Ralloc.Descends parentAndChild 2 1 ∧
      ∃ heap' events, Returns (fun fuel => (Call.free (some 2)).run parentAndChild fuel)
        (heap', events) ∧
        parentAndChild.get 1 .child = some 2 ∧ Alive heap' 1 ∧ heap'.get 1 .child = none := by
  have hnot : ¬ Ralloc.Descends parentAndChild 2 1 := by
    intro hd
    rcases hd.cases_tail with heq | ⟨c, -, header, hheader, hparent⟩
    · cases heq
    · cases hheader
      cases hparent
  obtain ⟨kids, hrep⟩ := parentAndChild_reachable.rep
  obtain ⟨freed, heap', hreturns, -, hmem, -, hheap, -⟩ :=
    hrep.rallocFree (p := 2) (by simp [Alive, parentAndChild])
  have hone : heap' 1 = some ⟨none, none, none, none, false⟩ := by
    rw [hheap, if_neg fun hfreed => hnot ((hmem 1).1 hfreed)]
    rfl
  refine ⟨parentAndChild_reachable, hnot, heap', _, hreturns, rfl, ?_, ?_⟩
  · rw [Alive, hone]
    rintro ⟨⟩
  · rw [Heap.get, hone]
    rfl

end Mesa3D.Ralloc
