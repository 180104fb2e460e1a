import Mesa3D.Util.SlabInvariant

/-!
# The slab allocator keeps track of its elements

The steps that release elements, orphan the pages of a pool or add a page keep the invariant of
`SlabInvariant`, and with the steps there it holds after any interleaving of calls.
-/

namespace Mesa3D.Slab

open PoolStep (PcOk)
open State List

variable {n : ℕ} {s t : State} {l a b : Place} {e : Elt} {p : ℕ}

/-! ### Steps that release elements -/

/-- The page of an element is orphaned if the element says so. -/
theorem Owned.orphaned (h : Owned n s) (hp : e.page < s.pageCount) (hi : e.index < n)
    (hown : s.owner e = .orphaned e.page) : s.Orphaned e.page := by
  intro p hmem
  rw [← h.pool hp hi, hown] at hmem
  cases hmem

/-- Releasing an element changes the list of released elements only. -/
theorem slabFreeOrphaned_elements (hl : l ≠ .released) :
    (s.slabFreeOrphaned e).elements l = s.elements l := by
  cases l with
  | released => exact absurd rfl hl
  | _ => rfl

/-- A thread releases an element that only it has. -/
theorem Inv.release (h : Inv n s) {x : Pool} (ht : PoolStep (s.slabFreeOrphaned e) t p x)
    (hpc : PcOk (s.pools p) x) (hnot : ∀ e, x.pc ≠ .releasing e)
    (ha : a ≠ .released) (hperm : (s.elements a).Perm ([e] ++ t.elements a))
    (hsame : ∀ l, l ≠ a → t.elements l = (s.slabFreeOrphaned e).elements l)
    (hown : s.owner e = .orphaned e.page) : Inv n t := by
  have hmem : e ∈ s.elements a := hperm.mem_iff.2 (by simp)
  obtain ⟨hp, hi⟩ := (h.located.born e).1 ⟨a, hmem⟩
  have hnr : e ∉ s.released := fun hr => ha (h.located.unique hmem (m := .released) hr)
  have hquiet : Quiet s (s.slabFreeOrphaned e) := ⟨rfl, rfl, fun _ => rfl⟩
  have hm : Moves s t a .released [e] := by
    refine ⟨hperm, ?_, fun l hla hlb => (hsame l hla).trans (slabFreeOrphaned_elements hlb)⟩
    simp only [elements, ht.released]
    exact .refl _
  have howned : Owned n (s.slabFreeOrphaned e) := by
    refine hquiet.owned h.owned (fun _ hq => h.owned.gone hq) (fun _ hq => h.owned.absent hq) ?_
    intro e' l he'
    by_cases hl : l = .released
    · subst hl
      rcases mem_cons.1 he' with rfl | he'
      · exact hown
      · exact h.owned.allowed (l := .released) he'
    · rw [slabFreeOrphaned_elements hl] at he'
      exact (h.owned.allowed he').stay rfl (fun _ hq => hq) fun _ _ hq => hq
  have hcounted : Counted n (s.slabFreeOrphaned e) :=
    CountedOn.release h.counted ⟨hp, h.owned.orphaned hp hi hown⟩ hi hnr
  refine ⟨fun hc => h.pos (ht.pageCount ▸ hc), h.located.move ha hm ht.pageCount,
    ht.owned howned hpc fun e' l he' => ?_,
    (ht.quiet hpc.pages).counted hcounted ht.numRemaining ht.freed ht.released⟩
  refine ht.allowed howned hpc ?_ fun hr => absurd hr (hnot e')
  by_cases hl : l = a
  · rw [hl, slabFreeOrphaned_elements ha]
    exact hperm.mem_iff.2 (mem_append_right _ (hl ▸ he'))
  · rwa [← hsame l hl]

/-- An element on its way to another pool, released instead because its page is orphaned. -/
theorem Inv.releaseFlying (h : Inv n s) (hpc : (s.pools p).pc = .releasing e) :
    Inv n ((s.slabFreeOrphaned e).setPool p { s.pools p with pc := .idle }) := by
  have ht := poolStep (s.slabFreeOrphaned e) p { s.pools p with pc := .idle } s.allocated
  refine h.release ht ⟨rfl, by simp, by simp, by simp [hpc]⟩ (by simp) (a := .flying p) (by simp) ?_
    (fun l hl => ?_) (h.owned.allowed (l := .flying p) ?_ hpc)
  · simp [elements, hpc, Pc.elements]
  · exact ht.elements (fun _ => rfl) (fun hl' => absurd hl' hl) (fun _ => rfl) fun _ => rfl
  · simp [elements, hpc, Pc.elements]

/-- A destroyed pool releases the elements of its free list one by one. -/
theorem Inv.releaseFree (h : Inv n s) (hpc : (s.pools p).pc = .destroying) {rest : List Elt}
    (hfree : (s.pools p).free = e :: rest) :
    Inv n ((s.slabFreeOrphaned e).setPool p { s.pools p with free := rest }) := by
  have ht := poolStep (s.slabFreeOrphaned e) p { s.pools p with free := rest } s.allocated
  have hpages := h.owned.gone (.inl hpc)
  have hmem : e ∈ s.elements (.free p) := by simp [elements, hfree]
  have hborn := (h.located.born e).1 ⟨_, hmem⟩
  have hown : s.owner e = .orphaned e.page := by
    refine (h.owned.allowed hmem).elim (fun hp => ?_) fun hp => hp.2
    rw [h.owned.pool hborn.1 hborn.2, hpages] at hp
    cases hp
  refine h.release ht ⟨rfl, fun _ => hpages, by simp [hpc], .inl⟩ (by simp [hpc]) (a := .free p)
    (by simp) ?_ (fun l hl => ?_) hown
  · simp [elements, hfree]
  · exact ht.elements (fun _ => rfl) (fun _ => rfl) (fun hl' => absurd hl' hl) fun _ => rfl

/-! ### The critical section of `slab_destroy_child` -/

/-- The loop that orphans pages sets the counts and the owners of their elements. -/
theorem foldl_orphanPage (n : ℕ) (P : List ℕ) (s : State) :
    P.foldl (orphanPage n) s = { s with
      numRemaining := fun page => if page ∈ P then n else s.numRemaining page
      owner := fun e => if e.page ∈ P ∧ e.index < n then .orphaned e.page else s.owner e } := by
  induction P generalizing s with
  | nil => simp
  | cons page P ih =>
    rw [foldl_cons, ih]
    simp only [orphanPage, mk.injEq, true_and, and_true]
    refine ⟨funext fun e => ?_, funext fun q => ?_⟩
    · by_cases hi : e.index < n <;> by_cases hP : e.page ∈ P <;> by_cases hp : e.page = page <;>
        simp [hi, hP, hp]
    · by_cases hP : q ∈ P <;> by_cases hp : q = page <;> simp [hP, hp]

/-- Releasing several elements changes the counts and the list of released elements. -/
theorem foldl_slabFreeOrphaned (M : List Elt) (s : State) :
    ∃ numRemaining freed, M.foldl slabFreeOrphaned s =
      { s with numRemaining, freed, released := M.reverse ++ s.released } := by
  induction M generalizing s with
  | nil => exact ⟨_, _, rfl⟩
  | cons e M ih =>
    obtain ⟨numRemaining, freed, heq⟩ := ih (s.slabFreeOrphaned e)
    exact ⟨numRemaining, freed, by rw [foldl_cons, heq]; simp [slabFreeOrphaned]⟩

/-- Releasing several elements of orphaned pages keeps the counts. -/
theorem CountedOn.releases {O : Set ℕ} {M : List Elt} (h : CountedOn n s O) (hM : M.Nodup)
    (hO : ∀ e ∈ M, e.page ∈ O ∧ e.index < n ∧ e ∉ s.released) :
    CountedOn n (M.foldl slabFreeOrphaned s) O := by
  induction M generalizing s with
  | nil => exact h
  | cons e M ih =>
    obtain ⟨hnot, hM⟩ := nodup_cons.1 hM
    obtain ⟨hpage, hi, he⟩ := hO e (by simp)
    refine ih (h.release hpage hi he) hM fun e' he' => ?_
    obtain ⟨hpage', hi', hr'⟩ := hO e' (by simp [he'])
    refine ⟨hpage', hi', fun hr => ?_⟩
    rcases mem_cons.1 hr with rfl | hr
    · exact hnot he'
    · exact hr' hr

/-- The pool of a page is not ambiguous. -/
theorem Inv.page_unique (h : Inv n s) {page q : ℕ} (hp : page ∈ (s.pools p).pages)
    (hq : page ∈ (s.pools q).pages) : p = q := by
  have hlt := h.owned.page_lt hp
  have hn := h.pos (Nat.zero_lt_of_lt hlt)
  rw [← h.owned.pool (e := ⟨page, 0⟩) hlt hn] at hp hq
  rw [hp] at hq
  exact Owner.pool.inj hq

/-- None of the elements of a page of a pool are released. -/
theorem Owned.live_eq (h : Owned n s) {page : ℕ} (hp : page ∈ (s.pools p).pages) :
    live n s.released page = n := by
  unfold live
  rw [Finset.filter_true_of_mem, Finset.card_range]
  intro i hi hr
  have hown := (h.pool (e := ⟨page, i⟩) (h.page_lt hp) (Finset.mem_range.1 hi)).2 hp
  have hrel : s.owner ⟨page, i⟩ = .orphaned page := h.allowed (l := .released) hr
  rw [hown] at hrel
  cases hrel

/-- What the critical section leaves behind. -/
structure Destroyed (n : ℕ) (s t : State) (p : ℕ) : Prop where
  /-- The pool has only its free list left. -/
  pools : ∀ q, t.pools q = if q = p then
    { s.pools p with pages := [], migrated := [], pc := .destroying } else s.pools q
  /-- Its elements are those of their pages. -/
  owner : ∀ e, t.owner e = if e.page ∈ (s.pools p).pages ∧ e.index < n then .orphaned e.page
    else s.owner e
  /-- There is no new page. -/
  pageCount : t.pageCount = s.pageCount
  /-- What is allocated stays so. -/
  allocated : t.allocated = s.allocated
  /-- The migrated elements are released. -/
  released : t.released = (s.pools p).migrated.reverse ++ s.released

/-- The critical section of `slab_destroy_child` does what `Destroyed` says. -/
theorem destroyed_destroyLocked (n : ℕ) (s : State) (p : ℕ) :
    Destroyed n s (s.destroyLocked n p) p := by
  obtain ⟨numRemaining, freed, heq⟩ := foldl_slabFreeOrphaned (s.pools p).migrated
    ((s.pools p).pages.foldl (orphanPage n) s)
  rw [foldl_orphanPage] at heq
  simp only [destroyLocked, foldl_orphanPage, heq]
  exact ⟨setPool_pools _ p (x := _), fun _ => rfl, rfl, rfl, rfl⟩

namespace Destroyed

section

variable (ht : Destroyed n s t p)
include ht

/-- The pages of a destroyed pool are orphaned, beside those that were. -/
theorem orphaned_iff (h : Inv n s) (page : ℕ) :
    t.Orphaned page ↔ s.Orphaned page ∨ page ∈ (s.pools p).pages := by
  constructor
  · intro ho
    refine or_iff_not_imp_right.2 fun hp q hq => ?_
    by_cases hqp : q = p
    · exact hp (hqp ▸ hq)
    · refine ho q ?_
      rwa [ht.pools, if_neg hqp]
  · intro ho q hq
    rw [ht.pools] at hq
    split_ifs at hq with hqp
    · cases hq
    · rcases ho with ho | ho
      · exact ho q hq
      · exact hqp (h.page_unique hq ho)

/-- An element that was the page's stays so. -/
theorem owner_orphaned (hown : s.owner e = .orphaned e.page) : t.owner e = .orphaned e.page := by
  rw [ht.owner, hown, ite_self]

section

variable (h : Owned n s) (hp : e.page < s.pageCount) (hi : e.index < n)
include h hp hi

/-- An element of the pool is now the page's. -/
theorem owner_self (hown : s.owner e = .pool p) : t.owner e = .orphaned e.page := by
  rw [ht.owner, if_pos ⟨(h.pool hp hi).1 hown, hi⟩]

/-- An element of another pool stays with it. -/
theorem owner_other {q : ℕ} (hown : s.owner e = .pool q) (hqp : q ≠ p) : t.owner e = .pool q := by
  rw [ht.owner, if_neg, hown]
  rintro ⟨hmem, -⟩
  rw [← h.pool hp hi, hown] at hmem
  exact hqp (Owner.pool.inj hmem)

/-- The owners still agree with the lists of pages. -/
theorem pool_iff (q : ℕ) : t.owner e = .pool q ↔ e.page ∈ (t.pools q).pages := by
  rw [ht.owner, ht.pools]
  have hself := h.pool (p := p) hp hi
  have hq := h.pool (p := q) hp hi
  by_cases hP : e.page ∈ (s.pools p).pages
  · have hown := hself.2 hP
    rw [if_pos ⟨hP, hi⟩]
    split_ifs with hqp
    · simp
    · rw [← hq, hown]
      simp [Ne.symm hqp]
  · rw [if_neg fun hc => hP hc.1]
    split_ifs with hqp
    · subst hqp
      simp [hq, hP]
    · exact hq

end

/-- The elements of the migrated list are released, and the others stay where they are. -/
theorem moves (hpc : (s.pools p).pc = .idle) :
    Moves s t (.migrated p) .released (s.pools p).migrated := by
  refine ⟨by simp [elements, ht.pools], ?_, fun l hla hlb => ?_⟩
  · simp only [elements, ht.released]
    exact (reverse_perm _).append_right _
  · cases l with
    | allocated => exact ht.allocated
    | released => exact absurd rfl hlb
    | flying q | free q =>
      simp only [elements, ht.pools]
      split_ifs with hq
      · simp [hq, hpc, Pc.elements]
      · rfl
    | migrated q =>
      have : q ≠ p := fun heq => hla (by rw [heq])
      simp [elements, ht.pools, this]

/-- No element is where its owner does not allow it. -/
theorem allowed (h : Inv n s) (hpc : (s.pools p).pc = .idle) (he : e ∈ t.elements l) :
    t.Allowed e l := by
  have hself : ∀ q, q = p → (t.pools q).pc = .destroying := fun q hq => by rw [ht.pools, if_pos hq]
  have hpcs : ∀ q, q ≠ p → (t.pools q).pc = (s.pools q).pc := fun q hq => by
    rw [ht.pools, if_neg hq]
  have hborn : ∀ l, e ∈ s.elements l → e.page < s.pageCount ∧ e.index < n := fun l hl =>
    (h.located.born e).1 ⟨l, hl⟩
  rcases (ht.moves hpc).mem he with hs | ⟨rfl, hM⟩
  · obtain ⟨hp, hi⟩ := hborn l hs
    have hal := h.owned.allowed hs
    cases l with
    | allocated => trivial
    | flying q =>
      intro hq
      by_cases hqp : q = p
      · rw [hself q hqp] at hq
        cases hq
      · rw [hpcs q hqp] at hq
        exact ht.owner_orphaned (hal hq)
    | free q =>
      by_cases hqp : q = p
      · refine .inr ⟨hself q hqp, ?_⟩
        rcases hal with hown | hown
        · exact ht.owner_self h.owned hp hi (hqp ▸ hown)
        · exact ht.owner_orphaned hown.2
      · refine hal.imp (fun hown => ht.owner_other h.owned hp hi hown hqp) fun hown => ?_
        exact ⟨(hpcs q hqp).trans hown.1, ht.owner_orphaned hown.2⟩
    | migrated q =>
      by_cases hqp : q = p
      · subst hqp
        simp [elements, ht.pools] at he
      · exact ht.owner_other h.owned hp hi hal hqp
    | released => exact ht.owner_orphaned hal
  · obtain ⟨hp, hi⟩ := hborn (.migrated p) hM
    exact ht.owner_self h.owned hp hi (h.owned.allowed (l := .migrated p) hM)

/-- The owners are kept by the critical section. -/
theorem owned (h : Inv n s) (hpc : (s.pools p).pc = .idle) :
    Owned n t where
  pool {e q} hp hi := ht.pool_iff h.owned (ht.pageCount ▸ hp) hi q
  orphan {e page} hp hi hown := by
    rw [ht.owner] at hown
    split_ifs at hown
    · exact (Owner.orphaned.inj hown).symm
    · exact h.owned.orphan (ht.pageCount ▸ hp) hi hown
  page_lt {q page} hq := by
    rw [ht.pageCount]
    rw [ht.pools] at hq
    split_ifs at hq
    · cases hq
    · exact h.owned.page_lt hq
  gone {q} hq := by
    rw [ht.pools] at hq ⊢
    split_ifs at hq ⊢
    · rfl
    · exact h.owned.gone hq
  absent {q} hq := by
    rw [ht.pools] at hq ⊢
    split_ifs at hq ⊢
    exact h.owned.absent hq
  allowed he := ht.allowed h hpc he

end

end Destroyed

/-- The pages that are orphaned count all their elements. -/
theorem Inv.counted_orphanPages (h : Inv n s) (p : ℕ) :
    CountedOn n ((s.pools p).pages.foldl (orphanPage n) s)
      {page | page < s.pageCount ∧ (s.Orphaned page ∨ page ∈ (s.pools p).pages)} := by
  rw [foldl_orphanPage]
  refine ⟨fun {page} hO => ?_, fun {page} hO => h.counted.freed fun hp => hO ⟨hp.1, .inl hp.2⟩⟩
  by_cases hP : page ∈ (s.pools p).pages
  · have hlive := h.owned.live_eq hP
    have hfreed : s.freed page = 0 := h.counted.freed fun hp => hp.2 p hP
    have hn := h.pos (Nat.zero_lt_of_lt hO.1)
    refine ⟨?_, ?_⟩
    · simp only [if_pos hP, hlive]
    · simp only [hlive, hfreed, if_neg hn.ne']
  · obtain ⟨h1, h2⟩ := h.counted.counted ⟨hO.1, hO.2.resolve_right hP⟩
    refine ⟨?_, h2⟩
    simp only [if_neg hP, h1]

/-- The critical section of `slab_destroy_child` keeps the invariant. -/
theorem Inv.destroyLocked (h : Inv n s) (hpc : (s.pools p).pc = .idle) :
    Inv n (s.destroyLocked n p) := by
  have ht := destroyed_destroyLocked n s p
  refine ⟨fun hc => h.pos (ht.pageCount ▸ hc),
    h.located.move (by simp) (ht.moves hpc) ht.pageCount, ht.owned h hpc, ?_⟩
  unfold Counted
  simp only [ht.pageCount, ht.orphaned_iff h]
  refine CountedOn.congr (CountedOn.releases (h.counted_orphanPages p)
    (h.located.nodup (.migrated p)) fun e he => ?_) rfl rfl rfl
  obtain ⟨hp, hi⟩ := (h.located.born e).1 ⟨.migrated p, he⟩
  have hown : s.owner e = .pool p := h.owned.allowed (l := .migrated p) he
  refine ⟨⟨hp, .inr ((h.owned.pool hp hi).1 hown)⟩, hi, fun hr => ?_⟩
  rw [foldl_orphanPage] at hr
  cases h.located.unique (l := .migrated p) (m := .released) he hr

/-! ### A new page -/

/-- The elements of a page, by page and index. -/
theorem mem_pageElements {page : ℕ} : e ∈ pageElements n page ↔ e.page = page ∧ e.index < n := by
  obtain ⟨q, i⟩ := e
  simp only [pageElements, mem_map, mem_reverse, mem_range, Elt.mk.injEq]
  constructor
  · rintro ⟨j, hj, rfl, rfl⟩
    exact ⟨rfl, hj⟩
  · rintro ⟨rfl, hi⟩
    exact ⟨i, hi, rfl, rfl⟩

/-- The elements of a page are different. -/
theorem nodup_pageElements (n page : ℕ) : (pageElements n page).Nodup :=
  (nodup_reverse.2 nodup_range).map fun _ _ h => congrArg Elt.index h

/-- The elements of a new page come to a place. -/
theorem Located.add (h : Located n s)
    (hb : t.elements b = pageElements n s.pageCount ++ s.elements b)
    (hother : ∀ l, l ≠ b → t.elements l = s.elements l)
    (hcount : t.pageCount = s.pageCount + 1) : Located n t := by
  rw [located_iff] at h ⊢
  intro e
  obtain ⟨o, ho, hborn⟩ := h e
  rw [hcount]
  by_cases hnew : e ∈ pageElements n s.pageCount
  · obtain ⟨hp, hi⟩ := mem_pageElements.1 hnew
    obtain rfl : o = none := by
      rw [← Option.not_isSome_iff_eq_none, hborn]
      omega
    refine ⟨some b, fun l => ?_, by simp; omega⟩
    by_cases hl : l = b
    · rw [hl, hb, count_append, ho, count_eq_one_of_mem (nodup_pageElements n _) hnew]
      simp
    · rw [hother l hl, ho, if_neg (by simp), if_neg fun heq => hl (Option.some.inj heq).symm]
  · refine ⟨o, fun l => ?_, ?_⟩
    · by_cases hl : l = b
      · rw [hl, hb, count_append, count_eq_zero.2 hnew, Nat.zero_add, ho]
      · rw [hother l hl, ho]
    · rw [hborn]
      rw [mem_pageElements] at hnew
      omega

/-- What `slab_add_new_page` leaves behind. -/
structure Added (n : ℕ) (s t : State) (p : ℕ) : Prop where
  /-- The pool has the page, and its elements in the free list. -/
  pools : ∀ q, t.pools q = { s.pools q with
    pages := if q = p then s.pageCount :: (s.pools q).pages else (s.pools q).pages
    free := if q = p then pageElements n s.pageCount ++ (s.pools q).free
      else (s.pools q).free }
  /-- It owns the new elements. -/
  owner : ∀ e, t.owner e = if e.page = s.pageCount ∧ e.index < n then .pool p else s.owner e
  /-- The page is new. -/
  pageCount : t.pageCount = s.pageCount + 1
  /-- The counters stay. -/
  numRemaining : t.numRemaining = s.numRemaining
  /-- No page is freed. -/
  freed : t.freed = s.freed
  /-- No element is released. -/
  released : t.released = s.released
  /-- What is allocated stays so. -/
  allocated : t.allocated = s.allocated

/-- `slab_add_new_page` does what `Added` says. -/
theorem added_slabAddNewPage (n : ℕ) (s : State) (p : ℕ) : Added n s (s.slabAddNewPage n p) p := by
  refine ⟨fun q => ?_, fun _ => rfl, rfl, rfl, rfl, rfl, rfl⟩
  simp only [slabAddNewPage, setPool_pools]
  split_ifs with hq
  · rw [hq]
  · rfl

namespace Added

section

variable (ht : Added n s t p)
include ht

/-- A new page leaves the owners of the old elements. -/
theorem owner_old (hp : e.page < s.pageCount) : t.owner e = s.owner e := by
  rw [ht.owner, if_neg fun hc => absurd hc.1 hp.ne]

/-- A new page changes the free list of its pool only. -/
theorem elements (hl : l ≠ .free p) : t.elements l = s.elements l := by
  cases l with
  | allocated => exact ht.allocated
  | released => exact ht.released
  | flying q | migrated q => simp [elements, ht.pools]
  | free q =>
    have : q ≠ p := fun heq => hl (by rw [heq])
    simp [elements, ht.pools, this]

/-- The elements of a new page are put in front of the free list. -/
theorem elements_free :
    t.elements (.free p) = pageElements n s.pageCount ++ s.elements (.free p) := by
  simp [State.elements, ht.pools]

/-- The pool has the new page, and nothing changes for the others. -/
theorem mem_pages (h : Owned n s) {page q : ℕ} :
    page ∈ (t.pools q).pages ↔ page = s.pageCount ∧ q = p ∨
      page ≠ s.pageCount ∧ page ∈ (s.pools q).pages := by
  have hnot : s.pageCount ∉ (s.pools q).pages := fun hq => (h.page_lt hq).ne rfl
  rw [ht.pools]
  by_cases hp : page = s.pageCount <;> by_cases hq : q = p <;> simp_all

/-- No element is where its owner does not allow it. -/
theorem allowed (h : Inv n s) (he : e ∈ t.elements l) : t.Allowed e l := by
  have hold : e ∈ s.elements l → t.Allowed e l := fun hs =>
    (h.owned.allowed hs).stay (ht.owner_old ((h.located.born e).1 ⟨l, hs⟩).1)
      (fun q hq => by rwa [ht.pools] at hq) fun q _ hq => by rwa [ht.pools]
  by_cases hl : l = .free p
  · subst hl
    rw [ht.elements_free] at he
    rcases mem_append.1 he with he | he
    · exact .inl (by rw [ht.owner, if_pos (mem_pageElements.1 he)])
    · exact hold he
  · exact hold (by rwa [ht.elements hl] at he)

/-- The owners are kept by a new page. -/
theorem owned (h : Inv n s) (hpc : (s.pools p).pc = .allocating) :
    Owned n t where
  pool {e q} hp hi := by
    rw [ht.mem_pages h.owned]
    rw [ht.pageCount] at hp
    by_cases heq : e.page = s.pageCount
    · rw [ht.owner, if_pos ⟨heq, hi⟩]
      simp [heq, eq_comm]
    · have hlt : e.page < s.pageCount := by omega
      rw [ht.owner_old hlt, h.owned.pool hlt hi]
      simp [heq]
  orphan {e page} hp hi hown := by
    rw [ht.owner] at hown
    rw [ht.pageCount] at hp
    split_ifs at hown with hc
    have hlt : e.page < s.pageCount := by
      omega
    exact h.owned.orphan hlt hi hown
  page_lt {q page} hq := by
    rw [ht.pageCount]
    rcases (ht.mem_pages h.owned).1 hq with ⟨rfl, -⟩ | ⟨-, hq⟩
    · exact Nat.lt_succ_self _
    · exact (h.owned.page_lt hq).trans (Nat.lt_succ_self _)
  gone {q} hq := by
    rw [ht.pools] at hq ⊢
    by_cases hne : q = p
    · simp [hne, hpc] at hq
    · simpa [hne] using h.owned.gone hq
  absent {q} hq := by
    rw [ht.pools] at hq ⊢
    by_cases hne : q = p
    · simp [hne, hpc] at hq
    · simpa [hne] using h.owned.absent hq
  allowed he := ht.allowed h he

/-- A new page is not orphaned, and the others stay as they are. -/
theorem orphaned_iff (h : Owned n s) (page : ℕ) :
    page < t.pageCount ∧ t.Orphaned page ↔ page < s.pageCount ∧ s.Orphaned page := by
  simp only [Orphaned, ht.mem_pages h, ht.pageCount]
  constructor
  · rintro ⟨hlt, ho⟩
    have hne : page ≠ s.pageCount := fun heq => ho p (.inl ⟨heq, rfl⟩)
    exact ⟨by omega, fun q hq => ho q (.inr ⟨hne, hq⟩)⟩
  · rintro ⟨hlt, ho⟩
    refine ⟨by omega, fun q hq => ?_⟩
    rcases hq with ⟨heq, -⟩ | ⟨-, hq⟩
    · omega
    · exact ho q hq

end

end Added

/-- `slab_add_new_page` keeps the invariant. -/
theorem Inv.addPage (h : Inv n s) (hpc : (s.pools p).pc = .allocating) (hn : 0 < n) :
    Inv n (s.slabAddNewPage n p) := by
  have ht := added_slabAddNewPage n s p
  refine ⟨fun _ => hn, h.located.add ht.elements_free (fun l => ht.elements) ht.pageCount,
    ht.owned h hpc, ?_⟩
  unfold Counted
  simp only [ht.orphaned_iff h.owned]
  exact CountedOn.congr h.counted ht.numRemaining ht.freed ht.released

/-! ### Every interleaving -/

/-- The invariant holds before any pool is created. -/
theorem inv_initial (n : ℕ) : Inv n initial := by
  have hnil : ∀ l, initial.elements l = [] := fun l => by cases l <;> rfl
  refine ⟨fun h => absurd h (lt_irrefl 0), ⟨fun l => ?_, fun {e l l'} he => ?_, fun e => ?_⟩,
    ⟨fun h => ?_, fun h => ?_, fun h => ?_, fun _ => rfl, fun _ => rfl, fun {e l} he => ?_⟩,
    ⟨fun h => ?_, fun _ => rfl⟩⟩
  · rw [hnil]
    exact nodup_nil
  · rw [hnil] at he
    cases he
  · have hz : initial.pageCount = 0 := rfl
    simp [hnil, hz]
  · exact absurd h (Nat.not_lt_zero _)
  · exact absurd h (Nat.not_lt_zero _)
  · cases h
  · rw [hnil] at he
    cases he
  · exact absurd h.1 (Nat.not_lt_zero _)

/-- Every step keeps the invariant. -/
theorem Step.inv (hst : Step n s t) (h : Inv n s) : Inv n t := by
  cases hst with
  | create p hpc => exact h.create hpc
  | alloc p e rest hpc hfree => exact h.alloc hpc hfree
  | collect p hpc hfree => exact h.collect hpc hfree
  | addPage p hpc hfree hn => exact h.addPage hpc hn
  | fail p hpc hfree => exact h.fail hpc
  | freeOwn p e hpc he hown => exact h.freeOwn hpc he hown
  | freeOther p e hpc he hown => exact h.freeOther hpc he
  | freeLocked p e hpc => exact h.freeLocked hpc
  | release p e hpc => exact h.releaseFlying hpc
  | destroyLocked p hpc => exact h.destroyLocked hpc
  | destroyFree p e rest hpc hfree => exact h.releaseFree hpc hfree
  | destroyed p hpc hfree => exact h.destroyed hpc hfree

/-- The invariant holds in every reachable state. -/
theorem Reachable.inv (h : Reachable n s) : Inv n s := by
  induction h with
  | refl => exact inv_initial n
  | tail _ hst ih => exact hst.inv ih

/-- A page has no live element when all its elements were released. -/
theorem live_eq_zero_iff {released : List Elt} {page : ℕ} :
    live n released page = 0 ↔ ∀ i < n, (⟨page, i⟩ : Elt) ∈ released := by
  simp [live, Finset.filter_eq_empty_iff]

/-- The slab allocator, after any interleaving of calls: each element is in one place and there
once, where a call of `slab_free` has the element until it puts it on a list. The free list and the
migrated list of a pool have elements of the pool, up to the free list of a pool that
`slab_destroy_child` is emptying, and released elements are those of orphaned pages. So
`slab_alloc` does not return an element that a caller has. An orphaned page is freed once when all
its elements are released, and otherwise a page is not freed. -/
theorem slab_elements (n : ℕ) (s : State) (h : Reachable n s) :
    (∀ e : Elt, e.page < s.pageCount → e.index < n → ∃! l, e ∈ s.elements l) ∧
    (∀ l, (s.elements l).Nodup) ∧
    (∀ p, ∀ e ∈ (s.pools p).free, s.owner e = .pool p ∨
      (s.pools p).pc = .destroying ∧ s.owner e = .orphaned e.page) ∧
    (∀ p, ∀ e ∈ (s.pools p).migrated, s.owner e = .pool p) ∧
    (∀ e ∈ s.released, s.owner e = .orphaned e.page ∧ s.Orphaned e.page) ∧
    (∀ p, ∀ e ∈ (s.pools p).free, e ∉ s.allocated ∧ ∀ q, e ∉ (s.pools q).pc.elements) ∧
    (∀ page, page < s.pageCount → s.Orphaned page →
      s.freed page = if ∀ i < n, (⟨page, i⟩ : Elt) ∈ s.released then 1 else 0) ∧
    ∀ page, ¬(page < s.pageCount ∧ s.Orphaned page) → s.freed page = 0 := by
  have hinv := h.inv
  refine ⟨fun e hp hi => ?_, hinv.located.nodup, fun p e he => hinv.owned.allowed (l := .free p) he,
    fun p e he => hinv.owned.allowed (l := .migrated p) he, fun e he => ?_, fun p e he => ⟨?_, ?_⟩,
    fun page hp ho => ?_, fun page hp => hinv.counted.freed hp⟩
  · obtain ⟨l, hl⟩ := (hinv.located.born e).2 ⟨hp, hi⟩
    exact ⟨l, hl, fun l' hl' => hinv.located.unique hl' hl⟩
  · have hown : s.owner e = .orphaned e.page := hinv.owned.allowed (l := .released) he
    obtain ⟨hp, hi⟩ := (hinv.located.born e).1 ⟨.released, he⟩
    exact ⟨hown, hinv.owned.orphaned hp hi hown⟩
  · intro hal
    cases hinv.located.unique (l := .free p) (m := .allocated) he hal
  · intro q hq
    cases hinv.located.unique (l := .free p) (m := .flying q) he hq
  · rw [(hinv.counted.counted ⟨hp, ho⟩).freed]
    simp only [live_eq_zero_iff]

/-- One pool allocates the only element of a page and is destroyed, while another one frees the
element. -/
theorem slab_elements_orphan : ∃ s, Reachable 1 s ∧ s.pageCount = 1 ∧ s.freed 0 = 1 ∧
    (⟨0, 0⟩ : Elt) ∈ s.released ∧ ∃! l, (⟨0, 0⟩ : Elt) ∈ s.elements l := by
  have h := Relation.ReflTransGen.refl (r := Step 1) (a := initial)
  have h := h.tail (.create _ 0 rfl)
  have h := h.tail (.create _ 1 rfl)
  have h := h.tail (.collect _ 0 rfl rfl)
  have h := h.tail (.addPage _ 0 rfl rfl Nat.one_pos)
  have h := h.tail (.alloc _ 0 ⟨0, 0⟩ [] (.inr rfl) rfl)
  have h := h.tail (.freeOther _ 1 ⟨0, 0⟩ rfl (mem_singleton.2 rfl) (by decide))
  have h := h.tail (.destroyLocked _ 0 rfl)
  have h := h.tail (.freeLocked _ 1 ⟨0, 0⟩ rfl)
  have h := h.tail (.release _ 1 ⟨0, 0⟩ rfl)
  exact ⟨_, h, rfl, rfl, mem_singleton.2 rfl,
    (slab_elements 1 _ h).1 ⟨0, 0⟩ Nat.one_pos Nat.one_pos⟩

end Mesa3D.Slab
