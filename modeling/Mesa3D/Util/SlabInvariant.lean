import Mesa3D.Util.Slab
import Mathlib.Data.Finset.Card

/-!
# What holds of the elements of the slab allocator

An element is in one of several places: a caller has it, a call of `slab_free` has it, it is on a
free list or on a migrated list, or it is released (`Place`). The steps move elements from one place
to another (`Located.move`) and never have an element in two places. Where an element may be depends
on its owner (`State.Allowed`), and an orphaned page counts the elements that are not released
(`CountedPage`).
-/

namespace Mesa3D.Slab

/-- Where an element can be. -/
inductive Place
  | allocated
  /-- In a call of `slab_free` by the thread of the pool. -/
  | flying (p : ℕ)
  | free (p : ℕ)
  | migrated (p : ℕ)
  | released
deriving DecidableEq

/-- The element that a call of `slab_free` has. -/
def Pc.elements : Pc → List Elt
  | .freeing e | .releasing e => [e]
  | _ => []

/-- The elements in a place. -/
def State.elements (s : State) : Place → List Elt
  | .allocated => s.allocated
  | .flying p => (s.pools p).pc.elements
  | .free p => (s.pools p).free
  | .migrated p => (s.pools p).migrated
  | .released => s.released

variable {n : ℕ} {s t : State} {l a b : Place} {e : Elt} {p : ℕ}

/-! ### Places -/

/-- Each element of a page is in one place, and there once. -/
structure Located (n : ℕ) (s : State) : Prop where
  /-- No list has an element twice. -/
  nodup : ∀ l, (s.elements l).Nodup
  /-- No element is in two lists. -/
  unique : ∀ {e l m}, e ∈ s.elements l → e ∈ s.elements m → l = m
  /-- The elements in some list are those of the pages. -/
  born : ∀ e, (∃ l, e ∈ s.elements l) ↔ e.page < s.pageCount ∧ e.index < n

/-- Some elements move from one place to another. -/
structure Moves (s t : State) (a b : Place) (c : List Elt) : Prop where
  /-- What leaves the one list. -/
  source : (s.elements a).Perm (c ++ t.elements a)
  /-- What comes to the other. -/
  target : (t.elements b).Perm (c ++ s.elements b)
  /-- The other lists stay. -/
  other : ∀ l, l ≠ a → l ≠ b → t.elements l = s.elements l

variable {c : List Elt}

/-- Each element is counted in one place if it is one of a page, and in none if it is not. -/
theorem located_iff : Located n s ↔ ∀ e, ∃ o : Option Place,
    (∀ l, (s.elements l).count e = if o = some l then 1 else 0) ∧
      (o.isSome ↔ e.page < s.pageCount ∧ e.index < n) := by
  constructor
  · intro h e
    by_cases hex : ∃ l, e ∈ s.elements l
    · obtain ⟨l, hl⟩ := hex
      refine ⟨some l, fun l' => ?_, by simpa using (h.born e).1 ⟨l, hl⟩⟩
      split_ifs with heq
      · cases heq
        exact List.count_eq_one_of_mem (h.nodup l) hl
      · exact List.count_eq_zero.2 fun hl' => heq (congrArg some (h.unique hl hl'))
    · refine ⟨none, fun l => ?_, by simpa [← h.born] using hex⟩
      exact List.count_eq_zero.2 fun hl => hex ⟨l, hl⟩
  · intro h
    have hmem : ∀ e, ∃ o : Option Place, (∀ l, e ∈ s.elements l ↔ o = some l) ∧
        (o.isSome ↔ e.page < s.pageCount ∧ e.index < n) := by
      intro e
      obtain ⟨o, ho, hborn⟩ := h e
      refine ⟨o, fun l => ?_, hborn⟩
      rw [← List.count_pos_iff, ho]
      split_ifs with heq <;> simp [heq]
    refine ⟨fun l => List.nodup_iff_count_le_one.2 fun e => ?_,
      fun {e l m} hl hm => ?_, fun e => ?_⟩
    · obtain ⟨o, ho, -⟩ := h e
      rw [ho]
      split_ifs <;> simp
    · obtain ⟨o, ho, -⟩ := hmem e
      exact Option.some.inj (((ho l).1 hl).symm.trans ((ho m).1 hm))
    · obtain ⟨o, ho, hborn⟩ := hmem e
      rw [← hborn, Option.isSome_iff_exists]
      exact exists_congr ho

/-- Moving an element from one list to another keeps every element in one place. -/
theorem Located.move (h : Located n s) (hab : a ≠ b) (hm : Moves s t a b c)
    (hcount : t.pageCount = s.pageCount) : Located n t := by
  rw [located_iff] at h ⊢
  intro e
  obtain ⟨o, ho, hborn⟩ := h e
  have ha := hm.source.count_eq e
  have hb := hm.target.count_eq e
  rw [List.count_append, ho] at ha hb
  rw [hcount]
  by_cases hc : c.count e = 0
  · refine ⟨o, fun l => ?_, hborn⟩
    by_cases hlb : l = b
    · subst hlb
      omega
    · by_cases hla : l = a
      · subst hla
        omega
      · rw [hm.other l hla hlb, ho]
  · -- the element was in `a`, and is in `b` now
    have hoa : o = some a := by
      by_contra hne
      rw [if_neg hne] at ha
      omega
    subst hoa
    rw [if_pos rfl] at ha
    rw [if_neg fun heq => hab (Option.some.inj heq)] at hb
    refine ⟨some b, fun l => ?_, hborn⟩
    by_cases hlb : l = b
    · subst hlb
      rw [if_pos rfl]
      omega
    · rw [if_neg fun heq => hlb (Option.some.inj heq).symm]
      by_cases hla : l = a
      · subst hla
        omega
      · rw [hm.other l hla hlb, ho, if_neg fun heq => hla (Option.some.inj heq).symm]

/-- What is in a place after a move was there, or has come there. -/
theorem Moves.mem (hm : Moves s t a b c) (he : e ∈ t.elements l) :
    e ∈ s.elements l ∨ l = b ∧ e ∈ c := by
  by_cases hlb : l = b
  · subst hlb
    exact (List.mem_append.1 (hm.target.mem_iff.1 he)).symm.imp_right fun hx => ⟨rfl, hx⟩
  · by_cases hla : l = a
    · subst hla
      exact .inl (hm.source.mem_iff.2 (List.mem_append_right _ he))
    · exact .inl (by rwa [hm.other l hla hlb] at he)

/-- Nothing moves. -/
theorem Moves.stay (hsame : ∀ l, t.elements l = s.elements l) (a b : Place) : Moves s t a b [] :=
  ⟨.of_eq (hsame a).symm, .of_eq (hsame b), fun l _ _ => hsame l⟩

/-! ### Owners -/

/-- Whether an element may be in a place. The free list of a pool that is destroyed has elements of
orphaned pages. -/
def State.Allowed (s : State) (e : Elt) : Place → Prop
  | .allocated => True
  | .flying p => (s.pools p).pc = .releasing e → s.owner e = .orphaned e.page
  | .free p =>
    s.owner e = .pool p ∨ (s.pools p).pc = .destroying ∧ s.owner e = .orphaned e.page
  | .migrated p => s.owner e = .pool p
  | .released => s.owner e = .orphaned e.page

/-- The owner of an element is the pool that has its page, or the page itself if none has. A pool
that is destroyed or not created has no pages, and the latter has no elements either. -/
structure Owned (n : ℕ) (s : State) : Prop where
  /-- A pool owns the elements of its pages. -/
  pool : ∀ {e : Elt} {p}, e.page < s.pageCount → e.index < n →
    (s.owner e = .pool p ↔ e.page ∈ (s.pools p).pages)
  /-- An orphaned element belongs to its page. -/
  orphan : ∀ {e : Elt} {page}, e.page < s.pageCount → e.index < n → s.owner e = .orphaned page →
    page = e.page
  /-- Pools have pages that exist. -/
  page_lt : ∀ {p page}, page ∈ (s.pools p).pages → page < s.pageCount
  /-- A pool that is being destroyed has no pages. -/
  gone : ∀ {p}, (s.pools p).pc = .destroying ∨ (s.pools p).pc = .absent → (s.pools p).pages = []
  /-- A pool that is gone has no free elements. -/
  absent : ∀ {p}, (s.pools p).pc = .absent → (s.pools p).free = []
  /-- Elements are where their owner allows them. -/
  allowed : ∀ {e l}, e ∈ s.elements l → s.Allowed e l

/-! ### Counts -/

/-- The number of elements of a page that are not released. -/
def live (n : ℕ) (released : List Elt) (page : ℕ) : ℕ :=
  ((Finset.range n).filter fun i => (⟨page, i⟩ : Elt) ∉ released).card

/-- No pool has the page. -/
def State.Orphaned (s : State) (page : ℕ) : Prop := ∀ p, page ∉ (s.pools p).pages

/-- The page counts the elements that are not released, and is freed when there are none. -/
structure CountedPage (n : ℕ) (s : State) (page : ℕ) : Prop where
  /-- The counter of a page is the number of its live elements. -/
  numRemaining : s.numRemaining page = live n s.released page
  /-- A page is freed once, when none is live. -/
  freed : s.freed page = if live n s.released page = 0 then 1 else 0

/-- The pages of `O` count their elements, and no other page is freed. -/
structure CountedOn (n : ℕ) (s : State) (O : Set ℕ) : Prop where
  /-- The counts are right on the set. -/
  counted : ∀ {page}, page ∈ O → CountedPage n s page
  /-- No other page is freed. -/
  freed : ∀ {page}, page ∉ O → s.freed page = 0

/-- The orphaned pages count their elements. -/
def Counted (n : ℕ) (s : State) : Prop :=
  CountedOn n s {page | page < s.pageCount ∧ s.Orphaned page}

/-- What holds of every state. -/
structure Inv (n : ℕ) (s : State) : Prop where
  /-- Pages are not empty. -/
  pos : 0 < s.pageCount → 0 < n
  /-- Where the elements are. -/
  located : Located n s
  /-- Whose they are. -/
  owned : Owned n s
  /-- How many are left. -/
  counted : Counted n s

/-- Releasing an element takes it off the count of its page. -/
theorem live_cons {released : List Elt} (hi : e.index < n) (he : e ∉ released) :
    live n released e.page = live n (e :: released) e.page + 1 := by
  unfold live
  have hmem : e.index ∈ (Finset.range n).filter fun i => (⟨e.page, i⟩ : Elt) ∉ released := by
    simp [hi, he]
  rw [← Finset.card_erase_add_one hmem]
  congr 2
  ext i
  simp only [Finset.mem_erase, Finset.mem_filter, Finset.mem_range, List.mem_cons, not_or]
  constructor
  · rintro ⟨hne, hlt, hnot⟩
    exact ⟨hlt, fun h => hne (congrArg Elt.index h), hnot⟩
  · rintro ⟨hlt, hne, hnot⟩
    exact ⟨fun h => hne (by rw [h]), hlt, hnot⟩

/-- Releasing an element leaves the counts of the other pages. -/
theorem live_cons_of_ne {released : List Elt} {page : ℕ} (h : page ≠ e.page) :
    live n (e :: released) page = live n released page := by
  unfold live
  congr 1
  apply Finset.filter_congr
  intro i _
  have : (⟨page, i⟩ : Elt) ≠ e := fun heq => h (congrArg Elt.page heq)
  simp [this]

/-- `slab_free_orphaned` keeps the counts. -/
theorem CountedPage.release (h : CountedPage n s e.page) (hi : e.index < n) (he : e ∉ s.released)
    {page : ℕ} (hpage : page ≠ e.page → CountedPage n s page) :
    CountedPage n (s.slabFreeOrphaned e) page := by
  by_cases heq : page = e.page
  · subst heq
    have hlive := live_cons hi he
    have hrem : s.numRemaining e.page - 1 = live n (e :: s.released) e.page := by
      rw [h.numRemaining, hlive, Nat.add_sub_cancel]
    have hfreed : s.freed e.page = 0 := by rw [h.freed, if_neg (by omega)]
    refine ⟨by simpa [State.slabFreeOrphaned] using hrem, ?_⟩
    simp only [State.slabFreeOrphaned, hrem]
    split_ifs with hz
    · simp [hfreed]
    · exact hfreed
  · obtain ⟨hr, hf⟩ := hpage heq
    refine ⟨?_, ?_⟩
    · simp only [State.slabFreeOrphaned, live_cons_of_ne heq, Function.update_of_ne heq, hr]
    · simp only [State.slabFreeOrphaned, live_cons_of_ne heq]
      split_ifs <;> simp_all [Function.update_of_ne]

/-- The counts depend on three fields only. -/
theorem CountedOn.congr {O : Set ℕ} (h : CountedOn n s O) (hrem : t.numRemaining = s.numRemaining)
    (hfreed : t.freed = s.freed) (hrel : t.released = s.released) : CountedOn n t O where
  counted hp := by
    obtain ⟨h1, h2⟩ := h.counted hp
    exact ⟨by rw [hrem, hrel, h1], by rw [hfreed, hrel, h2]⟩
  freed hp := by rw [hfreed, h.freed hp]

/-- Releasing an element of an orphaned page keeps the counts. -/
theorem CountedOn.release {O : Set ℕ} (h : CountedOn n s O) (hO : e.page ∈ O) (hi : e.index < n)
    (he : e ∉ s.released) : CountedOn n (s.slabFreeOrphaned e) O where
  counted hp := (h.counted hO).release hi he fun _ => h.counted hp
  freed {page} hp := by
    have hne : page ≠ e.page := fun heq => hp (heq ▸ hO)
    have hs := h.freed hp
    simp only [State.slabFreeOrphaned]
    split_ifs
    · rwa [Function.update_of_ne hne]
    · exact hs

/-! ### Steps that only change lists -/

/-- What the pools are after one is set. -/
@[simp] theorem setPool_pools (s : State) (p q : ℕ) (x : Pool) :
    (s.setPool p x).pools q = if q = p then x else s.pools q := by
  simp [State.setPool, Function.update_apply]

/-- An element may stay in a place if its owner and the places of the threads do. -/
theorem State.Allowed.stay (h : s.Allowed e l) (howner : t.owner e = s.owner e)
    (hreleasing : ∀ p, (t.pools p).pc = .releasing e → (s.pools p).pc = .releasing e)
    (hdestroying : ∀ p, l = .free p → (s.pools p).pc = .destroying → (t.pools p).pc = .destroying) :
    t.Allowed e l := by
  cases l with
  | allocated => trivial
  | flying p => exact fun hpc => howner.trans (h (hreleasing p hpc))
  | free p =>
    rcases h with h | ⟨hpc, h⟩
    · exact .inl (howner.trans h)
    · exact .inr ⟨hdestroying p rfl hpc, howner.trans h⟩
  | migrated p | released => exact howner.trans h

/-- What a step leaves alone that only moves elements between lists. -/
structure Quiet (s t : State) : Prop where
  /-- The owners stay. -/
  owner : t.owner = s.owner
  /-- The number of pages stays. -/
  pageCount : t.pageCount = s.pageCount
  /-- The pages of the pools stay. -/
  pages : ∀ p, (t.pools p).pages = (s.pools p).pages

/-- Without a change of pages the owners are kept. -/
theorem Quiet.owned (hq : Quiet s t) (h : Owned n s)
    (hgone : ∀ p, (t.pools p).pc = .destroying ∨ (t.pools p).pc = .absent → (s.pools p).pages = [])
    (habsent : ∀ p, (t.pools p).pc = .absent → (t.pools p).free = [])
    (hallowed : ∀ e l, e ∈ t.elements l → t.Allowed e l) : Owned n t where
  pool {e p} hp hi := by rw [hq.owner, hq.pages]; exact h.pool (hq.pageCount ▸ hp) hi
  orphan {e page} hp hi ho := h.orphan (hq.pageCount ▸ hp) hi (by rwa [hq.owner] at ho)
  page_lt {p page} hp := by rw [hq.pageCount]; exact h.page_lt (by rwa [hq.pages] at hp)
  gone {p} hpc := by rw [hq.pages]; exact hgone p hpc
  absent {p} hpc := habsent p hpc
  allowed {e l} he := hallowed e l he

/-- Without a change of pages the same pages are orphaned. -/
theorem Quiet.orphaned_iff (hq : Quiet s t) (page : ℕ) : t.Orphaned page ↔ s.Orphaned page := by
  simp only [State.Orphaned, hq.pages]

/-- Without a change of pages and counts the counts are kept. -/
theorem Quiet.counted (hq : Quiet s t) (h : Counted n s) (hrem : t.numRemaining = s.numRemaining)
    (hfreed : t.freed = s.freed) (hrel : t.released = s.released) : Counted n t := by
  unfold Counted
  simp only [hq.pageCount, hq.orphaned_iff]
  exact h.congr hrem hfreed hrel

/-- A step changes one pool to `x`, and nothing else than the elements of callers. -/
structure PoolStep (s t : State) (p : ℕ) (x : Pool) : Prop where
  /-- Only one pool changes. -/
  pools : ∀ q, t.pools q = if q = p then x else s.pools q
  /-- The owners stay. -/
  owner : t.owner = s.owner
  /-- The number of pages stays. -/
  pageCount : t.pageCount = s.pageCount
  /-- The counters stay. -/
  numRemaining : t.numRemaining = s.numRemaining
  /-- No page is freed. -/
  freed : t.freed = s.freed
  /-- No element is released. -/
  released : t.released = s.released

/-- Setting a pool, and what is allocated, is a step of that pool. -/
theorem poolStep (s : State) (p : ℕ) (x : Pool) (al : List Elt) :
    PoolStep s { s.setPool p x with allocated := al } p x :=
  ⟨setPool_pools s p (x := x), rfl, rfl, rfl, rfl, rfl⟩

namespace PoolStep

variable {x : Pool}

/-- The pool that is set. -/
theorem self (ht : PoolStep s t p x) : t.pools p = x := by
  rw [ht.pools, if_pos rfl]

/-- The elements of a place stay if it is not one of those that the thread changes. -/
theorem elements (ht : PoolStep s t p x)
    (hallocated : l = .allocated → t.allocated = s.allocated)
    (hflying : l = .flying p → x.pc.elements = (s.pools p).pc.elements)
    (hfree : l = .free p → x.free = (s.pools p).free)
    (hmigrated : l = .migrated p → x.migrated = (s.pools p).migrated) :
    t.elements l = s.elements l := by
  cases l with
  | allocated => exact hallocated rfl
  | released => exact ht.released
  | flying q | free q | migrated q =>
    simp only [State.elements, ht.pools]
    split_ifs with hq
    · subst hq
      first | exact hflying rfl | exact hfree rfl | exact hmigrated rfl
    · rfl

/-- A step that keeps the pages of its pool is quiet. -/
theorem quiet (ht : PoolStep s t p x) (hpages : x.pages = (s.pools p).pages) : Quiet s t := by
  refine ⟨ht.owner, ht.pageCount, fun q => ?_⟩
  rw [ht.pools]
  split_ifs with hq
  · rw [hq, hpages]
  · rfl

/-- What the thread has to make sure of when it changes its place in the code. -/
structure PcOk (pool x : Pool) : Prop where
  /-- The pages stay. -/
  pages : x.pages = pool.pages
  /-- A pool that goes has no pages. -/
  gone : x.pc = .destroying ∨ x.pc = .absent → pool.pages = []
  /-- A pool that is gone has no free elements. -/
  absent : x.pc = .absent → x.free = []
  /-- A pool that is being destroyed stays so, until its free list is empty. -/
  destroying : pool.pc = .destroying → x.pc = .destroying ∨ pool.free = []

/-- A step of a pool with an allowed program counter keeps the owners. -/
theorem owned (ht : PoolStep s t p x) (h : Owned n s) (hpc : PcOk (s.pools p) x)
    (hallowed : ∀ e l, e ∈ t.elements l → t.Allowed e l) : Owned n t := by
  refine (ht.quiet hpc.pages).owned h (fun q => ?_) (fun q => ?_) hallowed
  · rw [ht.pools]
    split_ifs with hq
    · subst hq
      exact hpc.gone
    · exact fun h' => h.gone h'
  · rw [ht.pools]
    split_ifs with hq
    · exact hpc.absent
    · exact fun h' => h.absent h'

/-- An element may stay where it is, if it may be released when it is about to be. -/
theorem allowed (ht : PoolStep s t p x) (h : Owned n s) (hpc : PcOk (s.pools p) x)
    (he : e ∈ s.elements l)
    (hreleasing : x.pc = .releasing e → s.owner e = .orphaned e.page) : t.Allowed e l := by
  have hs := h.allowed he
  by_cases hrel : x.pc = .releasing e ∧ l = .flying p
  · rw [hrel.2]
    exact fun _ => (congrFun ht.owner e).trans (hreleasing hrel.1)
  cases l with
  | allocated => trivial
  | flying q =>
    intro hq
    rw [ht.owner]
    rw [ht.pools] at hq
    split_ifs at hq with heq
    · exact absurd ⟨hq, by rw [heq]⟩ hrel
    · exact hs hq
  | free q =>
    refine hs.imp (congrFun ht.owner e).trans fun hs => ⟨?_, (congrFun ht.owner e).trans hs.2⟩
    rw [ht.pools]
    split_ifs with heq
    · subst heq
      refine (hpc.destroying hs.1).resolve_right fun hnil => ?_
      rw [State.elements, hnil] at he
      cases he
    · exact hs.1
  | migrated q | released => exact (congrFun ht.owner e).trans hs

/-- The thread of a pool moves elements to a place where they may be. -/
theorem inv (ht : PoolStep s t p x) (h : Inv n s) (hpc : PcOk (s.pools p) x)
    (hreleasing : ∀ e, x.pc = .releasing e → s.owner e = .orphaned e.page) (hab : a ≠ b)
    (hm : Moves s t a b c) (hnew : ∀ e ∈ c, t.Allowed e b) : Inv n t where
  pos hc := h.pos (ht.pageCount ▸ hc)
  located := h.located.move hab hm ht.pageCount
  owned := ht.owned h.owned hpc fun e l he => by
    rcases hm.mem he with he | ⟨rfl, hx⟩
    · exact ht.allowed h.owned hpc he (hreleasing e)
    · exact hnew e hx
  counted := (ht.quiet hpc.pages).counted h.counted ht.numRemaining ht.freed ht.released

/-- The thread of a pool moves no elements. -/
theorem inv_stay (ht : PoolStep s t p x) (h : Inv n s) (hpc : PcOk (s.pools p) x)
    (hsame : ∀ l, t.elements l = s.elements l)
    (hreleasing : ∀ e, x.pc = .releasing e → s.owner e = .orphaned e.page) : Inv n t :=
  ht.inv h hpc hreleasing (by simp) (.stay hsame .allocated .released) (by simp)

end PoolStep

open PoolStep (PcOk)
open State

section

variable (h : Inv n s)
include h

/-- `slab_alloc` with an element in the free list keeps the invariant. -/
theorem Inv.alloc {rest : List Elt} (hpc : (s.pools p).pc = .idle ∨ (s.pools p).pc = .allocating)
    (hfree : (s.pools p).free = e :: rest) :
    Inv n { s.setPool p { s.pools p with free := rest, pc := .idle } with
      allocated := e :: s.allocated } := by
  have ht := poolStep s p { s.pools p with free := rest, pc := .idle } (e :: s.allocated)
  have hnone : (s.pools p).pc.elements = [] := by rcases hpc with h | h <;> rw [h] <;> rfl
  refine ht.inv h ⟨rfl, by simp, by simp, ?_⟩ (by simp) (a := .free p) (b := .allocated)
    (c := [e]) (by simp) ⟨?_, .refl _, fun l hla hlb => ?_⟩ fun _ _ => trivial
  · rcases hpc with h | h <;> simp [h]
  · simp [elements, hfree]
  · exact ht.elements (fun h => absurd h hlb) (fun _ => by rw [hnone]; rfl) (fun h => absurd h hla)
      fun _ => rfl

/-- `slab_alloc` taking over the migrated list keeps the invariant. -/
theorem Inv.collect (hpc : (s.pools p).pc = .idle) (hfree : (s.pools p).free = []) :
    Inv n (s.setPool p { s.pools p with
      free := (s.pools p).migrated, migrated := [], pc := .allocating }) := by
  have ht := poolStep s p { s.pools p with
    free := (s.pools p).migrated, migrated := [], pc := .allocating } s.allocated
  refine ht.inv h ⟨rfl, by simp, by simp, by simp [hpc]⟩ (by simp) (a := .migrated p)
    (b := .free p) (c := (s.pools p).migrated) (by simp)
      ⟨?_, ?_, fun l hla hlb => ?_⟩ fun e he => ?_
  · simp [elements]
  · simp [elements, hfree]
  · exact ht.elements (fun _ => rfl) (fun _ => by rw [hpc]; rfl) (fun h => absurd h hlb)
      fun h => absurd h hla
  · exact .inl (h.owned.allowed (l := .migrated p) he)

/-- `slab_free` of an element of its own pool keeps the invariant. -/
theorem Inv.freeOwn (hpc : (s.pools p).pc = .idle) (he : e ∈ s.allocated)
    (hown : s.owner e = .pool p) :
    Inv n { s.setPool p { s.pools p with free := e :: (s.pools p).free } with
      allocated := s.allocated.erase e } := by
  have ht := poolStep s p { s.pools p with free := e :: (s.pools p).free } (s.allocated.erase e)
  refine ht.inv h ⟨rfl, by simp [hpc], by simp [hpc], .inl⟩ (by simp [hpc]) (a := .allocated)
    (b := .free p) (c := [e]) (by simp) ⟨List.perm_cons_erase he, ?_,
      fun l hla hlb => ?_⟩ fun e' he' => ?_
  · simp [elements]
  · exact ht.elements (fun h => absurd h hla) (fun _ => rfl) (fun h => absurd h hlb) fun _ => rfl
  · obtain rfl : e' = e := by simpa using he'
    exact .inl hown

/-- `slab_free` of another pool's element, before the lock is taken, keeps the invariant. -/
theorem Inv.freeOther (hpc : (s.pools p).pc = .idle) (he : e ∈ s.allocated) :
    Inv n { s.setPool p { s.pools p with pc := .freeing e } with
      allocated := s.allocated.erase e } := by
  have ht := poolStep s p { s.pools p with pc := .freeing e } (s.allocated.erase e)
  refine ht.inv h ⟨rfl, by simp, by simp, by simp [hpc]⟩ (by simp) (a := .allocated)
    (b := .flying p) (c := [e]) (by simp) ⟨List.perm_cons_erase he, ?_, fun l hla hlb => ?_⟩
    fun e' he' hrel => ?_
  · simp [elements, hpc, Pc.elements]
  · exact ht.elements (fun h => absurd h hla) (fun h => absurd h hlb) (fun _ => rfl) fun _ => rfl
  · rw [ht.self] at hrel
    cases hrel

/-- An allocation that fails keeps the invariant. -/
theorem Inv.fail (hpc : (s.pools p).pc = .allocating) :
    Inv n (s.setPool p { s.pools p with pc := .idle }) := by
  have ht := poolStep s p { s.pools p with pc := .idle } s.allocated
  refine ht.inv_stay h ⟨rfl, by simp, by simp, by simp [hpc]⟩ (fun l => ?_) (by simp)
  exact ht.elements (fun _ => rfl) (fun _ => by rw [hpc]; rfl) (fun _ => rfl) fun _ => rfl

/-- The elements of a migrated list are those of pages of the pool. -/
theorem Inv.migrated_nil (hpages : (s.pools p).pages = []) : (s.pools p).migrated = [] := by
  refine List.eq_nil_iff_forall_not_mem.2 fun e he => ?_
  have hborn := (h.located.born e).1 ⟨.migrated p, he⟩
  have hown : s.owner e = .pool p := h.owned.allowed (l := .migrated p) he
  rw [h.owned.pool hborn.1 hborn.2, hpages] at hown
  cases hown

/-- `slab_create_child` keeps the invariant. -/
theorem Inv.create (hpc : (s.pools p).pc = .absent) : Inv n (s.setPool p ⟨[], [], [], .idle⟩) := by
  have ht := poolStep s p ⟨[], [], [], .idle⟩ s.allocated
  have hpages := h.owned.gone (.inr hpc)
  refine ht.inv_stay h ⟨hpages.symm, by simp, by simp, by simp [hpc]⟩ (fun l => ?_) (by simp)
  exact ht.elements (fun _ => rfl) (fun _ => by rw [hpc]; rfl) (fun _ => (h.owned.absent hpc).symm)
    fun _ => (h.migrated_nil hpages).symm

/-- A destroyed pool whose free list is empty may be gone. -/
theorem Inv.destroyed (hpc : (s.pools p).pc = .destroying) (hfree : (s.pools p).free = []) :
    Inv n (s.setPool p { s.pools p with pc := .absent }) := by
  have ht := poolStep s p { s.pools p with pc := .absent } s.allocated
  have hpages := h.owned.gone (.inl hpc)
  refine ht.inv_stay h ⟨rfl, fun _ => hpages, fun _ => hfree, fun _ => .inr hfree⟩ (fun l => ?_)
    (by simp)
  exact ht.elements (fun _ => rfl) (fun _ => by rw [hpc]; rfl) (fun _ => rfl) fun _ => rfl

/-- The critical section of `slab_free`, for an element of a pool: it goes to the migrated list. -/
theorem Inv.migrate (hpc : (s.pools p).pc = .freeing e) {q : ℕ} (hown : s.owner e = .pool q) :
    Inv n (s.freeLocked p e) := by
  set t := s.freeLocked p e with ht
  have hpools : ∀ r, t.pools r = { s.pools r with
      migrated := if r = q then e :: (s.pools r).migrated else (s.pools r).migrated
      pc := if r = p then .idle else (s.pools r).pc } := by
    intro r
    simp only [ht, freeLocked, hown, setPool_pools]
    split_ifs <;> simp_all
  have hquiet : Quiet s t := by
    refine ⟨?_, ?_, fun r => by rw [hpools]⟩ <;> simp only [ht, freeLocked, hown] <;> rfl
  have hlists : t.allocated = s.allocated ∧ t.released = s.released ∧
      t.numRemaining = s.numRemaining ∧ t.freed = s.freed := by
    refine ⟨?_, ?_, ?_, ?_⟩ <;> simp only [ht, freeLocked, hown] <;> rfl
  have hm : Moves s t (.flying p) (.migrated q) [e] := by
    refine ⟨by simp [elements, hpools, hpc, Pc.elements], by simp [elements, hpools],
      fun l hla hlb => ?_⟩
    cases l with
    | allocated => exact hlists.1
    | released => exact hlists.2.1
    | flying r =>
      have : r ≠ p := fun heq => hla (by rw [heq])
      simp [elements, hpools, this]
    | free r => simp [elements, hpools]
    | migrated r =>
      have : r ≠ q := fun heq => hlb (by rw [heq])
      simp [elements, hpools, this]
  refine ⟨fun hc => h.pos (hquiet.pageCount ▸ hc), h.located.move (by simp) hm hquiet.pageCount,
    hquiet.owned h.owned (fun r => ?_) (fun r => ?_) fun e' l he' => ?_,
    hquiet.counted h.counted hlists.2.2.1 hlists.2.2.2 hlists.2.1⟩
  · rw [hpools]
    dsimp only
    split_ifs
    · simp
    · exact fun hr => h.owned.gone hr
  · rw [hpools]
    dsimp only
    split_ifs
    · simp
    · exact fun hr => h.owned.absent hr
  · rcases hm.mem he' with he' | ⟨rfl, hx⟩
    · refine (h.owned.allowed he').stay (congrFun hquiet.owner e') (fun r hr => ?_) fun r _ hr => ?_
      · rw [hpools] at hr
        dsimp only at hr
        split_ifs at hr
        exact hr
      · rw [hpools]
        dsimp only
        rwa [if_neg]
        rintro rfl
        rw [hpc] at hr
        cases hr
    · obtain rfl : e' = e := by simpa using hx
      exact (congrFun hquiet.owner e').trans hown

/-- The critical section of `slab_free`. -/
theorem Inv.freeLocked (hpc : (s.pools p).pc = .freeing e) : Inv n (s.freeLocked p e) := by
  have hfly : e ∈ s.elements (.flying p) := by simp [elements, hpc, Pc.elements]
  have hborn := (h.located.born e).1 ⟨_, hfly⟩
  cases hown : s.owner e with
  | pool q => exact h.migrate hpc hown
  | orphaned page =>
    have ht := poolStep s p { s.pools p with pc := .releasing e } s.allocated
    simp only [State.freeLocked, hown]
    refine ht.inv_stay h ⟨rfl, by simp, by simp, by simp [hpc]⟩ (fun l => ?_) (fun e' he' => ?_)
    · exact ht.elements (fun _ => rfl) (fun _ => by rw [hpc]; rfl) (fun _ => rfl) fun _ => rfl
    · obtain rfl : e = e' := by simpa using he'
      rw [hown, h.owned.orphan hborn.1 hborn.2 hown]

end

end Mesa3D.Slab
