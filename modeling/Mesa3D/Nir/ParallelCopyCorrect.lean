import Mesa3D.Nir.ParallelCopySetUp
import Mesa3D.Structured.Fuel
import Mathlib.Data.Finset.Card

/-!
# Movs do what a parallel copy does

The loops of `resolve_parallel_copy` keep `Inv`: each source value that is still needed is where
`loc` says, a destination that is filled has its value, and what is in a destination that is not
filled is its own old value, or is not needed any more. In the latter case the destination is on the
stack `ready`, and in the former one it is still to be copied to all destinations that want it.

When `ready` is empty the destinations that are not filled form cycles: each is wanted by another
one of them (`Inv.pred_unfilled`). Breaking one takes an index of its own. There is room for it,
since each broken cycle and each source that is not a destination has a destination that was filled
(`Inv.room`). Another destination of the cycle is still on the stack `to_do`, so that the outer loop
goes on (`Inv.more`).
-/

namespace Mesa3D.Nir.ParallelCopy

open Fuel (Returns)
open ParallelCopy (copyLoop)
open Function Option List

/-- A parallel copy with indices for its sources and destinations. -/
structure Problem where
  /-- The number of values. -/
  numVals : ℕ
  /-- The place of a value. -/
  values : ℕ → Src
  /-- The value that is copied to a destination. -/
  pred : ℕ → Option ℕ
  /-- The next register. -/
  regAlloc : ℕ
  /-- Values have different places. -/
  inj : ∀ i < numVals, ∀ j < numVals, values i = values j → i = j
  /-- Copies are between two values. -/
  pred_lt : ∀ b a, pred b = some a → b < numVals ∧ a < numVals ∧ a ≠ b
  /-- A destination is a register. -/
  dest_reg : ∀ b a, pred b = some a → ∃ r, values b = .reg r
  /-- What is no destination is the source of a copy. -/
  source : ∀ i < numVals, pred i = none → ∃ c, pred c = some i
  /-- The registers in use are below the next one. -/
  fresh : ∀ i < numVals, ∀ r, values i = .reg r → r < regAlloc

variable {b : ℕ}

namespace Problem

variable (p : Problem)

/-- The destinations. -/
def dests : Finset ℕ := (Finset.range p.numVals).filter fun i => p.pred i ≠ none

/-- The size of the arrays. -/
def size : ℕ := 2 * p.dests.card

/-- The destinations that want a source that is not a destination. -/
def leaves : Finset ℕ := p.dests.filter fun c => ∃ a, p.pred c = some a ∧ p.pred a = none

variable {p}

/-- The destinations are the indices with a predecessor. -/
theorem mem_dests : b ∈ p.dests ↔ p.pred b ≠ none := by
  rw [dests, Finset.mem_filter, Finset.mem_range]
  refine ⟨And.right, fun hb => ⟨?_, hb⟩⟩
  obtain ⟨a, ha⟩ := ne_none_iff_exists'.1 hb
  exact (p.pred_lt b a ha).1

/-- Each index is that of a destination, or there is a destination that wants it. -/
theorem numVals_le (p : Problem) : p.numVals ≤ p.dests.card + p.leaves.card := by
  have hsub : Finset.range p.numVals ⊆ p.dests ∪ p.leaves.image fun c => (p.pred c).getD 0 := by
    intro i hi
    by_cases hd : p.pred i = none
    · obtain ⟨c, hc⟩ := p.source i (Finset.mem_range.1 hi) hd
      refine Finset.mem_union_right _ (Finset.mem_image.2 ⟨c, ?_, by rw [hc, getD_some]⟩)
      exact Finset.mem_filter.2 ⟨mem_dests.2 (by simp [hc]), i, hc, hd⟩
    · exact Finset.mem_union_left _ (mem_dests.2 hd)
  calc p.numVals = (Finset.range p.numVals).card := (Finset.card_range _).symm
    _ ≤ (p.dests ∪ p.leaves.image fun c => (p.pred c).getD 0).card := Finset.card_le_card hsub
    _ ≤ p.dests.card + (p.leaves.image fun c => (p.pred c).getD 0).card := Finset.card_union_le _ _
    _ ≤ p.dests.card + p.leaves.card := Nat.add_le_add_left Finset.card_image_le _

/-- The arrays have room for every value. -/
theorem numVals_le_size (p : Problem) : p.numVals ≤ p.size := by
  have hle := p.numVals_le
  have hleaves : p.leaves.card ≤ p.dests.card := Finset.card_le_card (Finset.filter_subset _ _)
  unfold size
  omega

/-- A destination is an index into the arrays. -/
theorem lt_size (hb : b ∈ p.dests) : b < p.size :=
  (Finset.mem_range.1 (Finset.mem_filter.1 hb).1).trans_le p.numVals_le_size

end Problem

variable {V : Type} {p : Problem} {s : State}

/-- What the loops keep. -/
structure Inv (V : Type) (p : Problem) (s : State) : Prop where
  /-- The values of the problem stay where they are. -/
  values : ∀ i < p.numVals, s.values i = p.values i
  /-- Each temporary takes one register. -/
  numVals : s.numVals + p.regAlloc = p.numVals + s.regAlloc
  /-- The temporaries are new registers. -/
  temps : ∀ i, p.numVals ≤ i → i < s.numVals → ∃ r, s.values i = .reg r ∧
    p.regAlloc ≤ r ∧ r < s.regAlloc
  /-- The arrays are large enough. -/
  numVals_le : s.numVals ≤ p.size
  /-- The copies that are left are copies of the problem. -/
  pred : ∀ b a, s.pred b = some a → p.pred b = some a
  /-- Locations are values. -/
  loc_lt : ∀ a l, s.loc a = some l → l < s.numVals
  /-- The source of a copy that is left has a location. -/
  loc_some : ∀ b a, s.pred b = some a → s.loc a ≠ none
  /-- The location of a value holds what the value was. -/
  held : ∀ a l, s.loc a = some l → ∀ σ : Src → V, exec s.movs σ (s.values l) = σ (p.values a)
  /-- A destination that is filled holds its source. -/
  filled : ∀ b a, p.pred b = some a → s.pred b = none → ∀ σ : Src → V,
    exec s.movs σ (p.values b) = σ (p.values a)
  /-- A destination that is not filled holds nothing but its own value. -/
  own : ∀ a b, s.loc a = some b → s.pred b ≠ none → a = b
  /-- A destination that holds its own value is still to be read. -/
  wanted : ∀ b, s.loc b = some b → (∃ c, p.pred c = some b) ∧
    ∀ c, p.pred c = some b → s.pred c ≠ none
  /-- The ready destinations are those that hold nothing that is needed. -/
  mem_ready : ∀ b, b ∈ s.ready ↔ s.pred b ≠ none ∧ s.loc b ≠ some b
  /-- No destination is ready twice. -/
  ready_nodup : s.ready.Nodup
  /-- Only the first may hold a copy that was moved away. -/
  ready_tail : ∀ b ∈ s.ready.tail, s.loc b = none
  /-- What is to do are destinations. -/
  toDo : ∀ b ∈ s.toDo, p.pred b ≠ none
  /-- A destination that is left is to do or ready. -/
  mem_toDo : ∀ b, s.pred b ≠ none → b ∈ s.toDo ∨ b ∈ s.ready
  /-- While there is a ready one there is something to do. -/
  more : s.ready ≠ [] → s.toDo ≠ []
  /-- Only destinations and temporaries are written. -/
  movs : ∀ mov ∈ s.movs, (∃ b, p.pred b ≠ none ∧ p.values b = .reg mov.dest) ∨
    p.regAlloc ≤ mov.dest ∧ mov.dest < s.regAlloc
  /-- The destinations at which cycles were broken. -/
  broken : ∃ B : Finset ℕ, s.regAlloc = p.regAlloc + B.card ∧
    ∀ b ∈ B, (∃ a, p.pred b = some a ∧ p.pred a ≠ none) ∧ (s.pred b = none ∨ b ∈ s.ready)

/-- The destinations that are not filled. -/
def unfilled (p : Problem) (s : State) : Finset ℕ := p.dests.filter fun b => s.pred b ≠ none

namespace Inv

variable (h : Inv V p s)
include h

/-- A destination that is not filled has its source. -/
theorem exists_pred (hb : s.pred b ≠ none) : ∃ a, s.pred b = some a ∧ p.pred b = some a := by
  obtain ⟨a, ha⟩ := ne_none_iff_exists'.1 hb
  exact ⟨a, ha, h.pred b a ha⟩

/-- A destination that is not filled is a destination of the problem. -/
theorem mem_dests {b : ℕ} (hb : s.pred b ≠ none) : b ∈ p.dests := by
  obtain ⟨a, -, ha⟩ := h.exists_pred hb
  exact Problem.mem_dests.2 (ha ▸ some_ne_none a)

/-- The unfilled destinations are those that still have a predecessor. -/
theorem mem_unfilled : b ∈ unfilled p s ↔ s.pred b ≠ none := by
  rw [unfilled, Finset.mem_filter]
  exact ⟨And.right, fun hb => ⟨h.mem_dests hb, hb⟩⟩

/-- Values are only added. -/
theorem le_numVals : p.numVals ≤ s.numVals := by
  obtain ⟨B, hB, -⟩ := h.broken
  have := h.numVals
  omega

/-- Different indices are of different places. -/
theorem values_ne {l : ℕ} (hl : l < s.numVals) (hb : b < p.numVals)
    (hne : l ≠ b) : s.values l ≠ p.values b := by
  by_cases hlt : l < p.numVals
  · rw [h.values l hlt]
    exact fun heq => hne (p.inj l hlt b hb heq)
  · obtain ⟨r, hr, hge, -⟩ := h.temps l (not_lt.1 hlt) hl
    intro heq
    have := p.fresh b hb r (heq.symm.trans hr)
    omega

/-- There are not more destinations on the stack than there are destinations. -/
theorem length_ready_le : s.ready.length ≤ p.dests.card := by
  rw [← toFinset_card_of_nodup h.ready_nodup]
  exact Finset.card_le_card fun b hb => h.mem_dests ((h.mem_ready b).1 (mem_toFinset.1 hb)).1

end Inv

section Update

variable {f : ℕ → Option ℕ} {a b x y : ℕ}

/-- Where an index was cleared, only the others have a value. -/
theorem update_none_eq_some : update f a none x = some y ↔ x ≠ a ∧ f x = some y := by
  rw [update_apply]
  split_ifs with hx <;> simp [hx]

/-- An index that was cleared has no value. -/
theorem update_none_ne_none : update f a none x ≠ none ↔ x ≠ a ∧ f x ≠ none := by
  rw [update_apply]
  split_ifs with hx <;> simp [hx]

/-- An index that was set has its new value. -/
theorem update_some_eq_some :
    update f a (some b) x = some y ↔ x = a ∧ y = b ∨ x ≠ a ∧ f x = some y := by
  rw [update_apply]
  split_ifs with hx <;> simp [hx, eq_comm]

/-- Setting an index clears none. -/
theorem update_some_ne_none (h : f x ≠ none) : update f a (some b) x ≠ none := by
  rw [update_apply]
  split_ifs
  · exact some_ne_none b
  · exact h

end Update

/-! ### Filling a destination -/

/-- The state after a destination was filled. -/
def filledState (s : State) (b a l r : ℕ) (ready : List ℕ) : State :=
  { s with
    movs := s.movs ++ [⟨s.values l, r⟩]
    loc := update s.loc a (some b)
    pred := update s.pred b none
    ready := ready }

/-- What the moves do with one more. -/
theorem exec_fill (s : State) (l r : ℕ) (σ : Src → V) (x : Src) :
    exec (s.movs ++ [⟨s.values l, r⟩]) σ x = if x = .reg r then exec s.movs σ (s.values l)
      else exec s.movs σ x := by
  rw [exec_append, Mov.exec, update_apply]

/-- Filling a ready destination keeps the invariant. -/
theorem Inv.filledState (h : Inv V p s) {a l r : ℕ} {rest ready : List ℕ}
    (hready : s.ready = b :: rest)
    (ha : s.pred b = some a) (hl : s.loc a = some l) (hr : p.values b = .reg r)
    (hready' : ready = if s.pred a ≠ none then a :: rest else rest) :
    Inv V p (filledState s b a l r ready) := by
  obtain ⟨hb_lt, ha_lt, hab⟩ := p.pred_lt b a (h.pred b a ha)
  have hnodup : b ∉ rest ∧ rest.Nodup := nodup_cons.1 (hready ▸ h.ready_nodup)
  have hb_loc : s.loc b ≠ some b := ((h.mem_ready b).1 (by simp [hready])).2
  have htail : ∀ x ∈ rest, s.loc x = none := fun x hx => h.ready_tail x (by simpa [hready] using hx)
  -- the source is not on the stack below, since it is somewhere
  have ha_rest : a ∉ rest := fun hmem => by
    rw [htail a hmem] at hl
    cases hl
  have hmem_rest : ∀ x, x ∈ ready ↔ x = a ∧ s.pred a ≠ none ∨ x ∈ rest := by
    intro x
    rw [hready']
    split_ifs with hpa
    · simp [hpa]
    · simp [not_not.1 hpa]
  have hkeep : ∀ x ∈ s.ready, x ≠ b → x ∈ ready := fun x hx hxb =>
    (hmem_rest x).2 (.inr ((mem_cons.1 (hready ▸ hx)).resolve_left hxb))
  -- nothing that is needed is at `b`
  have hother : ∀ a' l', s.loc a' = some l' → l' ≠ b := by
    rintro a' l' hl' rfl
    rw [h.own a' l' hl' (by simp [ha])] at hl'
    exact hb_loc hl'
  constructor
  case values => exact h.values
  case numVals => exact h.numVals
  case temps => exact h.temps
  case numVals_le => exact h.numVals_le
  case pred => exact fun b' a' hb' => h.pred b' a' (update_none_eq_some.1 hb').2
  case loc_lt =>
    intro a' l' hl'
    rcases update_some_eq_some.1 hl' with ⟨-, rfl⟩ | ⟨-, hl'⟩
    · exact hb_lt.trans_le h.le_numVals
    · exact h.loc_lt a' l' hl'
  case loc_some =>
    exact fun b' a' hb' => update_some_ne_none (h.loc_some b' a' (update_none_eq_some.1 hb').2)
  case held =>
    intro a' l' hl' σ
    refine (exec_fill s l r σ _).trans ?_
    rcases update_some_eq_some.1 hl' with ⟨rfl, rfl⟩ | ⟨-, hl'⟩
    · exact (if_pos ((h.values l' hb_lt).trans hr)).trans (h.held a' l hl σ)
    · have hne := hr ▸ h.values_ne (h.loc_lt a' l' hl') hb_lt (hother a' l' hl')
      exact (if_neg hne).trans (h.held a' l' hl' σ)
  case filled =>
    intro b' a' hb' hnone σ
    refine (exec_fill s l r σ _).trans ?_
    by_cases hbb : b' = b
    · rw [hbb, h.pred b a ha] at hb'
      obtain rfl := some.inj hb'
      exact (if_pos (hbb ▸ hr)).trans (h.held a l hl σ)
    · have hne : p.values b' ≠ .reg r := fun heq =>
        hbb (p.inj b' (p.pred_lt b' a' hb').1 b hb_lt (heq.trans hr.symm))
      exact (if_neg hne).trans (h.filled b' a' hb' ((update_of_ne hbb _ _).symm.trans hnone) σ)
  case own =>
    intro a' b' hloc hpred
    obtain ⟨hbb, hpred⟩ := update_none_ne_none.1 hpred
    rcases update_some_eq_some.1 hloc with ⟨-, rfl⟩ | ⟨-, hloc⟩
    · exact absurd rfl hbb
    · exact h.own a' b' hloc hpred
  case wanted =>
    intro x hx
    rcases update_some_eq_some.1 hx with ⟨rfl, heq⟩ | ⟨hxa, hx⟩
    · exact absurd heq hab
    obtain ⟨hexists, hall⟩ := h.wanted x hx
    refine ⟨hexists, fun c hc => update_none_ne_none.2 ⟨?_, hall c hc⟩⟩
    rintro rfl
    exact hxa (some.inj (hc.symm.trans (h.pred c a ha)))
  case mem_ready =>
    intro x
    show x ∈ ready ↔ update s.pred b none x ≠ none ∧ ¬update s.loc a (some b) x = some x
    rw [hmem_rest, update_none_ne_none, update_some_eq_some]
    by_cases hxa : x = a
    · subst hxa
      simp [ha_rest, hab]
    · have hmem := h.mem_ready x
      rw [hready, mem_cons] at hmem
      have hxb : x ∈ rest → x ≠ b := fun hx => ne_of_mem_of_not_mem hx hnodup.1
      grind
  case ready_nodup =>
    show ready.Nodup
    rw [hready']
    split_ifs
    · exact nodup_cons.2 ⟨ha_rest, hnodup.2⟩
    · exact hnodup.2
  case ready_tail =>
    intro x hx
    have hx_rest : x ∈ rest := by
      have hx' : x ∈ ready.tail := hx
      rw [hready'] at hx'
      split_ifs at hx'
      · exact hx'
      · exact mem_of_mem_tail hx'
    exact (update_of_ne (ne_of_mem_of_not_mem hx_rest ha_rest) _ _).trans (htail x hx_rest)
  case toDo => exact h.toDo
  case mem_toDo =>
    intro x hx
    obtain ⟨hxb, hx⟩ := update_none_ne_none.1 hx
    exact (h.mem_toDo x hx).imp_right fun hmem => hkeep x hmem hxb
  case more => exact fun _ => h.more (by simp [hready])
  case movs =>
    intro mov hmov
    rcases mem_append.1 hmov with hmov | hmov
    · exact h.movs mov hmov
    · rw [mem_singleton.1 hmov]
      exact .inl ⟨b, by simp [h.pred b a ha], hr⟩
  case broken =>
    obtain ⟨B, hcard, hB⟩ := h.broken
    refine ⟨B, hcard, fun x hx => ⟨(hB x hx).1, ?_⟩⟩
    by_cases hxb : x = b
    · exact .inl (hxb ▸ update_self _ _ _)
    · exact (hB x hx).2.imp (update_of_ne hxb _ _).trans fun hmem => hkeep x hmem hxb

/-- A round of the inner loop succeeds and fills one destination. -/
theorem Inv.fill_eq (h : Inv V p s) {rest : List ℕ} (hready : s.ready = b :: rest) :
    ∃ s', fill p.size s b rest = some s' ∧ Inv V p s' ∧ s'.toDo = s.toDo ∧
      (unfilled p s').card < (unfilled p s).card := by
  have hb := (h.mem_ready b).1 (by simp [hready])
  obtain ⟨a, ha, hpa⟩ := h.exists_pred hb.1
  obtain ⟨l, hl⟩ := ne_none_iff_exists'.1 (h.loc_some b a ha)
  obtain ⟨r, hr⟩ := p.dest_reg b a hpa
  obtain ⟨hb_lt, ha_lt, hab⟩ := p.pred_lt b a hpa
  have hle := p.numVals_le_size
  have hlen := h.length_ready_le
  rw [hready, length_cons] at hlen
  have hpush : push p.size rest a = some (a :: rest) := if_pos (by unfold Problem.size; omega)
  have hinv := h.filledState hready ha hl hr rfl
  refine ⟨_, ?_, hinv, rfl, ?_⟩
  · have hb_read : readAt p.size s.pred b = some (some a) := ha ▸ if_pos (by omega)
    have ha_read : readAt p.size s.loc a = some (some l) := hl ▸ if_pos (by omega)
    have hl_read : readAt p.size s.values l = some (s.values l) :=
      if_pos ((h.loc_lt a l hl).trans_le h.numVals_le)
    have hv_read : readAt p.size s.values b = some (.reg r) :=
      (h.values b hb_lt).trans hr ▸ if_pos (by omega)
    unfold fill
    simp only [hb_read, ha_read, hl_read, hv_read, emitCopy, bind_eq_bind, bind_some,
      update_of_ne hab]
    by_cases hpa : s.pred a ≠ none
    · rw [if_pos hpa, if_pos hpa, hpush]
      rfl
    · rw [if_neg hpa, if_neg hpa]
      rfl
  · refine Finset.card_lt_card ⟨fun x hx => ?_, fun hsub => ?_⟩
    · exact h.mem_unfilled.2 (update_none_ne_none.1 (hinv.mem_unfilled.1 hx)).2
    · exact (update_none_ne_none.1 (hinv.mem_unfilled.1 (hsub (h.mem_unfilled.2 hb.1)))).1 rfl

/-- The inner loop fills destinations until none is ready. -/
theorem Inv.fillLoop (h : Inv V p s) :
    ∃ s', Returns (fun fuel => fillLoop p.size fuel s) s' ∧ Inv V p s' ∧
      s'.ready = [] ∧ s'.toDo = s.toDo := by
  -- by induction on the number of destinations that are not filled
  induction hn : (unfilled p s).card using Nat.strong_induction_on generalizing s with
  | _ n ih =>
    cases hready : s.ready with
    | nil =>
      refine ⟨s, Returns.of_succ fun fuel => ?_, h, hready, rfl⟩
      rw [ParallelCopy.fillLoop, hready]
    | cons b rest =>
      obtain ⟨s₁, heq, h₁, htoDo, hlt⟩ := h.fill_eq hready
      obtain ⟨s', hret, h', hempty, htoDo'⟩ := ih _ (hn ▸ hlt) h₁ rfl
      refine ⟨s', hret.step fun fuel => ?_, h', hempty, htoDo'.trans htoDo⟩
      rw [ParallelCopy.fillLoop, hready]
      show (fill p.size s b rest).bind _ = _
      rw [heq, bind_some]

/-! ### Breaking a cycle -/

section Idle

variable (h : Inv V p s) (hready : s.ready = [])

include h hready

/-- When no destination is ready, each that is not filled has its own old value, -/
theorem Inv.home {x : ℕ} (hx : s.pred x ≠ none) : s.loc x = some x := by
  by_contra hne
  have hmem := (h.mem_ready x).2 ⟨hx, hne⟩
  rw [hready] at hmem
  cases hmem

/-- it is still on the stack, -/
theorem Inv.mem_toDo_of_idle {x : ℕ} (hx : s.pred x ≠ none) : x ∈ s.toDo :=
  (h.mem_toDo x hx).resolve_right (hready ▸ not_mem_nil)

/-- and it wants the value of another one. -/
theorem Inv.pred_unfilled {a : ℕ} (hb : s.pred b = some a) : s.pred a ≠ none := by
  -- each is wanted by another one, and so each wants another one
  have hsub : unfilled p s ⊆ (unfilled p s).image fun c => (p.pred c).getD 0 := by
    intro x hx
    obtain ⟨⟨c, hc⟩, hall⟩ := h.wanted x (h.home hready (h.mem_unfilled.1 hx))
    exact Finset.mem_image.2 ⟨c, h.mem_unfilled.2 (hall c hc), by rw [hc, getD_some]⟩
  have heq := Finset.eq_of_subset_of_card_le hsub Finset.card_image_le
  have hmem : a ∈ (unfilled p s).image fun c => (p.pred c).getD 0 :=
    Finset.mem_image.2 ⟨b, h.mem_unfilled.2 (by simp [hb]), by rw [h.pred b a hb, getD_some]⟩
  rw [← heq] at hmem
  exact h.mem_unfilled.1 hmem

/-- There is room for one more index when a cycle has to be broken. -/
theorem Inv.room (hb : s.pred b ≠ none) : s.numVals < p.size := by
  obtain ⟨B, hcard, hB⟩ := h.broken
  -- the destinations at which cycles were broken, and those that want what is not a destination,
  -- are filled
  have hB_sub : B ⊆ p.dests \ unfilled p s := by
    intro x hx
    obtain ⟨⟨a, ha, -⟩, hx'⟩ := hB x hx
    have hnone := hx'.resolve_right (hready ▸ not_mem_nil)
    exact Finset.mem_sdiff.2 ⟨Problem.mem_dests.2 (by simp [ha]),
      fun hun => h.mem_unfilled.1 hun hnone⟩
  have hleaves : p.leaves ⊆ p.dests \ unfilled p s := by
    intro x hx
    obtain ⟨hx_dest, a, ha, hnone⟩ := Finset.mem_filter.1 hx
    refine Finset.mem_sdiff.2 ⟨hx_dest, fun hun => ?_⟩
    obtain ⟨a', hs, hp⟩ := h.exists_pred (h.mem_unfilled.1 hun)
    obtain rfl : a' = a := some.inj (hp.symm.trans ha)
    exact Problem.mem_dests.1 (h.mem_dests (h.pred_unfilled hready hs)) hnone
  have hdisj : Disjoint B p.leaves := by
    refine Finset.disjoint_left.2 fun x hx hleaf => ?_
    obtain ⟨⟨a, ha, hne⟩, -⟩ := hB x hx
    obtain ⟨-, a', ha', hnone⟩ := Finset.mem_filter.1 hleaf
    obtain rfl : a' = a := some.inj (ha'.symm.trans ha)
    exact hne hnone
  have hsub : unfilled p s ⊆ p.dests := Finset.filter_subset _ _
  have hcount : B.card + p.leaves.card ≤ p.dests.card - (unfilled p s).card := by
    rw [← Finset.card_union_of_disjoint hdisj, ← Finset.card_sdiff_of_subset hsub]
    exact Finset.card_le_card (Finset.union_subset hB_sub hleaves)
  have hpos : 0 < (unfilled p s).card := Finset.card_pos.2 ⟨b, h.mem_unfilled.2 hb⟩
  have hcard_le := Finset.card_le_card hsub
  have hle := p.numVals_le
  have hnum := h.numVals
  unfold Problem.size
  omega

/-- The state after a cycle was broken. -/
def brokenState (s : State) (b : ℕ) (toDo : List ℕ) : State :=
  { s with
    values := update s.values s.numVals (.reg s.regAlloc)
    numVals := s.numVals + 1
    movs := s.movs ++ [⟨s.values b, s.regAlloc⟩]
    loc := update s.loc b (some s.numVals)
    toDo := toDo
    ready := [b]
    regAlloc := s.regAlloc + 1 }

/-- Breaking a cycle keeps the invariant. -/
theorem Inv.brokenState {b : ℕ} {toDo : List ℕ} (htoDo : s.toDo = b :: toDo)
    (hb : s.pred b ≠ none) : Inv V p (brokenState s b toDo) := by
  obtain ⟨a, hsa, ha⟩ := h.exists_pred hb
  obtain ⟨hb_lt, -, -⟩ := p.pred_lt b a ha
  obtain ⟨B, hcard, hB⟩ := h.broken
  have hnum := h.numVals
  have hge := h.le_numVals
  have hb_loc := h.home hready hb
  have hpred_temp : s.pred s.numVals = none := by
    by_contra hne
    obtain ⟨c, -, hc⟩ := h.exists_pred hne
    have := (p.pred_lt _ _ hc).1
    omega
  have hkeep : ∀ l < s.numVals, (ParallelCopy.brokenState s b toDo).values l = s.values l :=
    fun l hl => update_of_ne (Nat.ne_of_lt hl) _ _
  -- no place has the new register
  have hfresh : ∀ l < s.numVals, s.values l ≠ .reg s.regAlloc := by
    intro l hl heq
    by_cases hlt : l < p.numVals
    · have := p.fresh l hlt s.regAlloc ((h.values l hlt).symm.trans heq)
      omega
    · obtain ⟨r, hr, -, hr_lt⟩ := h.temps l (not_lt.1 hlt) hl
      have : r = s.regAlloc := Src.reg.inj (hr.symm.trans heq)
      omega
  constructor
  case values => exact fun i hi => (hkeep i (by omega)).trans (h.values i hi)
  case numVals =>
    show s.numVals + 1 + p.regAlloc = p.numVals + (s.regAlloc + 1)
    omega
  case temps =>
    intro i hi hlt
    rcases Nat.lt_succ_iff_lt_or_eq.1 hlt with hlt | rfl
    · obtain ⟨r, hr, hr_ge, hr_lt⟩ := h.temps i hi hlt
      exact ⟨r, (hkeep i hlt).trans hr, hr_ge, Nat.lt_succ_of_lt hr_lt⟩
    · exact ⟨s.regAlloc, update_self _ _ _, by omega, Nat.lt_succ_self _⟩
  case numVals_le => exact h.room hready hb
  case pred => exact h.pred
  case loc_lt =>
    intro a' l' hl'
    rcases update_some_eq_some.1 hl' with ⟨-, rfl⟩ | ⟨-, hl'⟩
    · exact Nat.lt_succ_self _
    · exact Nat.lt_succ_of_lt (h.loc_lt a' l' hl')
  case loc_some => exact fun b' a' hb' => update_some_ne_none (h.loc_some b' a' hb')
  case held =>
    intro a' l' hl' σ
    refine (exec_fill s b s.regAlloc σ _).trans ?_
    rcases update_some_eq_some.1 hl' with ⟨rfl, rfl⟩ | ⟨-, hl'⟩
    · exact (if_pos (update_self _ _ _)).trans (h.held a' a' hb_loc σ)
    · have hlt := h.loc_lt a' l' hl'
      rw [hkeep l' hlt, if_neg (hfresh l' hlt)]
      exact h.held a' l' hl' σ
  case filled =>
    intro b' a' hb' hnone σ
    have hb'_lt := (p.pred_lt b' a' hb').1
    have hne : p.values b' ≠ .reg s.regAlloc := h.values b' hb'_lt ▸ hfresh b' (by omega)
    exact (exec_fill s b s.regAlloc σ _).trans ((if_neg hne).trans (h.filled b' a' hb' hnone σ))
  case own =>
    intro a' b' hloc hpred
    rcases update_some_eq_some.1 hloc with ⟨-, rfl⟩ | ⟨-, hloc⟩
    · exact absurd hpred_temp hpred
    · exact h.own a' b' hloc hpred
  case wanted =>
    intro x hx
    rcases update_some_eq_some.1 hx with ⟨rfl, heq⟩ | ⟨-, hx⟩
    · omega
    · exact h.wanted x hx
  case mem_ready =>
    intro x
    show x ∈ [b] ↔ s.pred x ≠ none ∧ ¬update s.loc b (some s.numVals) x = some x
    rw [mem_singleton, update_some_eq_some]
    constructor
    · rintro rfl
      refine ⟨hb, ?_⟩
      rintro (⟨-, heq⟩ | ⟨hne, -⟩)
      · omega
      · exact hne rfl
    · rintro ⟨hx, hloc⟩
      by_contra hxb
      exact hloc (.inr ⟨hxb, h.home hready hx⟩)
  case ready_nodup => exact nodup_singleton b
  case ready_tail => exact fun x hx => absurd hx not_mem_nil
  case toDo => exact fun x hx => h.toDo x (htoDo ▸ mem_cons_of_mem _ hx)
  case mem_toDo =>
    intro x hx
    have hmem := h.mem_toDo_of_idle hready hx
    rw [htoDo, mem_cons] at hmem
    exact hmem.symm.imp_right mem_singleton.2
  case more =>
    -- some other destination of the cycle is left
    intro _ hnil
    obtain ⟨⟨c, hc⟩, hall⟩ := h.wanted b hb_loc
    have hmem := h.mem_toDo_of_idle hready (hall c hc)
    rw [htoDo, show toDo = [] from hnil, mem_singleton] at hmem
    exact (p.pred_lt c b hc).2.2 hmem.symm
  case movs =>
    intro mov hmov
    rcases mem_append.1 hmov with hmov | hmov
    · exact (h.movs mov hmov).imp_right fun hlt => ⟨hlt.1, Nat.lt_succ_of_lt hlt.2⟩
    · rw [mem_singleton.1 hmov]
      exact .inr ⟨by show p.regAlloc ≤ s.regAlloc; omega, Nat.lt_succ_self _⟩
  case broken =>
    have hnone : ∀ x ∈ B, s.pred x = none := fun x hx =>
      (hB x hx).2.resolve_right (hready ▸ not_mem_nil)
    refine ⟨insert b B, ?_, fun x hx => ?_⟩
    · show s.regAlloc + 1 = _
      rw [Finset.card_insert_of_notMem fun hmem => hb (hnone b hmem)]
      omega
    · rcases Finset.mem_insert.1 hx with rfl | hx
      · have hdest := Problem.mem_dests.1 (h.mem_dests (h.pred_unfilled hready hsa))
        exact ⟨⟨a, ha, hdest⟩, .inr mem_cons_self⟩
      · exact ⟨(hB x hx).1, .inl (hnone x hx)⟩

/-- A round of the outer loop that breaks a cycle succeeds. -/
theorem Inv.breakCycle_eq (hb : s.pred b ≠ none) (toDo : List ℕ) :
    breakCycle p.size { s with toDo := toDo } b = some (ParallelCopy.brokenState s b toDo) := by
  have hroom := h.room hready hb
  have hb_lt := Problem.lt_size (h.mem_dests hb)
  unfold breakCycle addValue readAt push
  simp only [if_pos hb_lt, if_pos hroom, bind_eq_bind, bind_some, update_self, emitCopy, hready,
    length_nil, if_pos (show 0 < p.size by omega)]
  rfl

/-! ### The outer loop -/

/-- A destination that is filled is taken from the stack. -/
theorem Inv.pop {toDo : List ℕ} (htoDo : s.toDo = b :: toDo) (hb : s.pred b = none) :
    Inv V p { s with toDo := toDo } := by
  refine { h with
    toDo := fun x hx => h.toDo x (htoDo ▸ mem_cons_of_mem _ hx), mem_toDo := ?_, more := ?_ }
  · intro x hx
    have hmem := h.mem_toDo_of_idle hready hx
    rw [htoDo, mem_cons] at hmem
    refine .inl (hmem.resolve_left ?_)
    rintro rfl
    exact hx hb
  · exact fun hne => absurd hready hne

end Idle

/-- The outer loop ends with all destinations filled. -/
theorem Inv.copyLoop (h : Inv V p s) :
    ∃ s', Returns (fun fuel => copyLoop p.size fuel s) s' ∧ Inv V p s' ∧ ∀ b, s'.pred b = none := by
  induction hlen : s.toDo.length generalizing s with
  | zero =>
    have hnil := eq_nil_of_length_eq_zero hlen
    have hready : s.ready = [] := by
      by_contra hne
      exact h.more hne hnil
    refine ⟨s, Returns.of_succ fun fuel => by rw [copyLoop, hnil], h, fun b => ?_⟩
    by_contra hne
    have hmem := h.mem_toDo_of_idle hready hne
    rw [hnil] at hmem
    cases hmem
  | succ n ih =>
    obtain ⟨b, toDo, htoDo⟩ := exists_cons_of_length_eq_add_one hlen
    obtain ⟨s₁, hret₁, h₁, hready₁, htoDo₁⟩ := h.fillLoop
    have hlen' : toDo.length = n := by
      rw [htoDo, length_cons] at hlen
      omega
    rw [htoDo] at htoDo₁
    have hb_lt := Problem.lt_size (Problem.mem_dests.2 (h₁.toDo b (htoDo₁ ▸ mem_cons_self)))
    have hread : readAt p.size s₁.pred b = some (s₁.pred b) := if_pos hb_lt
    -- an iteration is the inner loop, and then the rest with a smaller stack
    obtain ⟨s₂, hnext, h₂, htoDo₂⟩ : ∃ s₂, (∀ fuel, (do
        let s := { s₁ with toDo := toDo }
        if (← readAt p.size s.pred b) = none then copyLoop p.size fuel s
        else copyLoop p.size fuel (← breakCycle p.size s b)) =
          copyLoop p.size fuel s₂) ∧ Inv V p s₂ ∧ s₂.toDo = toDo := by
      by_cases hb : s₁.pred b = none
      · refine ⟨{ s₁ with toDo := toDo }, fun fuel => ?_, h₁.pop hready₁ htoDo₁ hb, rfl⟩
        simp only [hread, bind_eq_bind, bind_some, if_pos hb]
      · refine ⟨ParallelCopy.brokenState s₁ b toDo, fun fuel => ?_,
          h₁.brokenState hready₁ htoDo₁ hb, rfl⟩
        simp only [hread, bind_eq_bind, bind_some, if_neg hb, h₁.breakCycle_eq hready₁ hb]
    obtain ⟨s', hret, h', hdone⟩ := ih h₂ (htoDo₂ ▸ hlen')
    refine ⟨s', ?_, h', hdone⟩
    have hboth := hret₁.bind (f := fun fuel s => do
      let s := { s with toDo := toDo }
      if (← readAt p.size s.pred b) = none then copyLoop p.size fuel s
      else copyLoop p.size fuel (← breakCycle p.size s b)) (b := s') (by
        obtain ⟨m, hm⟩ := hret
        exact ⟨m, fun fuel hfuel => (hnext fuel).trans (hm fuel hfuel)⟩)
    refine hboth.step fun fuel => ?_
    rw [copyLoop, htoDo]
    rfl

/-! ### The parallel copy -/

variable {done : List Entry} {regAlloc : ℕ}

/-- Registers that exist have indices below `regAlloc`. -/
def Entry.Exists (regAlloc : ℕ) (e : Entry) : Prop := e.dest < regAlloc ∧
    ∀ r, e.src = .reg r → r < regAlloc

/-- The problem that the arrays state when they are set up. -/
def SetUp.problem (h : SetUp done regAlloc s) (hskip : ∀ e ∈ done, ¬ e.Skipped)
    (hregs : ∀ e ∈ done, e.Exists regAlloc) : Problem where
  numVals := s.numVals
  values := s.values
  pred := s.pred
  regAlloc := regAlloc
  inj i hi j hj heq := h.inj i j (s.values j) ⟨hi, heq⟩ ⟨hj, rfl⟩
  pred_lt b a hb := by
    obtain ⟨e, he, hb_at, ha_at⟩ := (h.pred b a).1 hb
    refine ⟨hb_at.1, ha_at.1, ?_⟩
    rintro rfl
    exact hskip e he (ha_at.2.symm.trans hb_at.2)
  dest_reg b a hb := by
    obtain ⟨e, he, hb_at, -⟩ := (h.pred b a).1 hb
    exact ⟨e.dest, hb_at.2⟩
  source i hi hnone := by
    obtain ⟨e, he, hsrc | hdest⟩ := h.covered i _ ⟨hi, rfl⟩
    · obtain ⟨c, hc⟩ := h.dest_at e he
      exact ⟨c, (h.pred c i).2 ⟨e, he, hc, hi, hsrc⟩⟩
    · obtain ⟨a, ha⟩ := h.src_at e he
      rw [(h.pred i a).2 ⟨e, he, ⟨hi, hdest⟩, ha⟩] at hnone
      cases hnone
  fresh i hi r hr := by
    obtain ⟨e, he, hsrc | hdest⟩ := h.covered i _ ⟨hi, hr⟩
    · exact (hregs e he).2 r hsrc.symm
    · rw [Src.reg.inj hdest]
      exact (hregs e he).1

section

variable (h : SetUp done regAlloc s) (hskip : ∀ e ∈ done, ¬ e.Skipped)
  (hregs : ∀ e ∈ done, e.Exists regAlloc)
include h hskip hregs

/-- The size of the arrays for the copies that were set up. -/
theorem SetUp.size_problem : (h.problem hskip hregs).size = 2 * done.length := by
  have hdests : (h.problem hskip hregs).dests = s.toDo.toFinset := by
    ext b
    rw [Problem.mem_dests, List.mem_toFinset, h.toDo]
    rfl
  rw [Problem.size, hdests, toFinset_card_of_nodup h.toDo_nodup, h.toDo_length]

/-- The invariant holds when the arrays are set up and the first destinations are marked. -/
theorem SetUp.inv {ready : List ℕ} (hnodup : ready.Nodup)
    (hready : ∀ i, i ∈ ready ↔ s.pred i ≠ none ∧ s.loc i = none) :
    Inv V (h.problem hskip hregs) { s with ready := ready } := by
  have hloc : ∀ i j, s.loc i = some j → i = j := fun i j hij => ((h.loc i j).1 hij).1
  constructor
  case values => exact fun i _ => rfl
  case numVals =>
    show s.numVals + regAlloc = s.numVals + s.regAlloc
    rw [h.regAlloc]
  case temps => exact fun i hi hlt => absurd hlt (not_lt.2 hi)
  case numVals_le => exact (h.problem hskip hregs).numVals_le_size
  case pred => exact fun b a hb => hb
  case loc_lt =>
    intro a l hl
    obtain ⟨rfl, e, -, he⟩ := (h.loc a l).1 hl
    exact he.1
  case loc_some =>
    intro b a hb
    obtain ⟨e, he, -, ha⟩ := (h.pred b a).1 hb
    show s.loc a ≠ none
    rw [(h.loc a a).2 ⟨rfl, e, he, ha⟩]
    exact some_ne_none a
  case held =>
    intro a l hl σ
    obtain rfl := hloc a l hl
    show exec s.movs σ (s.values a) = _
    rw [h.movs]
    rfl
  case filled =>
    intro b a hb hnone
    have hsome : s.pred b = some a := hb
    cases hsome.symm.trans hnone
  case own => exact fun a b hab _ => hloc a b hab
  case wanted =>
    intro b hb
    obtain ⟨-, e, he, hb_at⟩ := (h.loc b b).1 hb
    obtain ⟨c, hc⟩ := h.dest_at e he
    refine ⟨⟨c, (h.pred c b).2 ⟨e, he, hc, hb_at⟩⟩, fun c hc => ?_⟩
    show s.pred c ≠ none
    rw [show s.pred c = some b from hc]
    exact some_ne_none b
  case mem_ready =>
    intro b
    refine (hready b).trans (and_congr_right fun _ => ?_)
    show s.loc b = none ↔ s.loc b ≠ some b
    constructor
    · intro hnone
      simp [hnone]
    · intro hne
      by_contra hsome
      obtain ⟨l, hl⟩ := ne_none_iff_exists'.1 hsome
      obtain rfl := hloc b l hl
      exact hne hl
  case ready_nodup => exact hnodup
  case ready_tail => exact fun b hb => ((hready b).1 (mem_of_mem_tail hb)).2
  case toDo => exact fun b hb => (h.toDo b).1 hb
  case mem_toDo => exact fun b hb => .inl ((h.toDo b).2 hb)
  case more =>
    intro hne hnil
    obtain ⟨b, hb⟩ := exists_mem_of_ne_nil ready hne
    have hmem := (h.toDo b).2 ((hready b).1 hb).1
    rw [show s.toDo = [] from hnil] at hmem
    cases hmem
  case movs =>
    intro mov hmov
    rw [show s.movs = [] from h.movs] at hmov
    cases hmov
  case broken => exact ⟨∅, h.regAlloc, fun b hb => absurd hb (Finset.notMem_empty b)⟩

end

/-- What the movs of a parallel copy do. -/
structure Resolves (V : Type) (entries : List Entry) (regAlloc : ℕ) (movs : List Mov)
    (regAlloc' : ℕ) : Prop where
  /-- Each destination has the value that its source had. -/
  copied : ∀ (σ : Src → V), ∀ e ∈ entries, exec movs σ (.reg e.dest) = σ e.src
  /-- Other registers that existed are unchanged. -/
  kept : ∀ (σ : Src → V), ∀ r < regAlloc, r ∉ entries.map Entry.dest →
    exec movs σ (.reg r) = σ (.reg r)
  /-- Only destinations and new registers are written. -/
  written : ∀ mov ∈ movs, mov.dest ∈ entries.map Entry.dest ∨
    regAlloc ≤ mov.dest ∧ mov.dest < regAlloc'

/-- It is enough to look at the entries that are not skipped. -/
theorem resolves_of_copies {entries : List Entry} (hnodup : (entries.map Entry.dest).Nodup)
    (hregs : ∀ e ∈ entries, e.Exists regAlloc) {movs : List Mov} {regAlloc' : ℕ}
    (hcopied : ∀ (σ : Src → V), ∀ e ∈ copies entries, exec movs σ (.reg e.dest) = σ e.src)
    (hwritten : ∀ mov ∈ movs, mov.dest ∈ (copies entries).map Entry.dest ∨
      regAlloc ≤ mov.dest ∧ mov.dest < regAlloc') : Resolves V entries regAlloc movs regAlloc' := by
  have hkept : ∀ (σ : Src → V), ∀ r < regAlloc, r ∉ (copies entries).map Entry.dest →
      exec movs σ (.reg r) = σ (.reg r) := by
    intro σ r hr hdest
    refine exec_of_not_dest (fun mov hmov heq => ?_) σ
    rw [Src.reg.inj heq] at hr hdest
    rcases hwritten mov hmov with hmem | ⟨hge, -⟩
    · exact hdest hmem
    · omega
  have hsub : ∀ r, r ∈ (copies entries).map Entry.dest →
    r ∈ entries.map Entry.dest := fun r hr => by
    obtain ⟨e, he, rfl⟩ := mem_map.1 hr
    exact mem_map_of_mem (mem_filter.1 he).1
  constructor
  case copied =>
    intro σ e he
    by_cases hskip : e.Skipped
    · -- the register has its value already, and no other entry writes it
      rw [hkept σ e.dest (hregs e he).1 ?_, hskip]
      intro hmem
      obtain ⟨e', he', heq⟩ := mem_map.1 hmem
      obtain ⟨he'_mem, he'_skip⟩ := mem_filter.1 he'
      rw [inj_on_of_nodup_map hnodup he'_mem he heq] at he'_skip
      exact (of_decide_eq_true he'_skip) hskip
    · exact hcopied σ e (mem_filter.2 ⟨he, decide_eq_true hskip⟩)
  case kept => exact fun σ r hr hdest => hkept σ r hr fun hmem => hdest (hsub r hmem)
  case written => exact fun mov hmov => (hwritten mov hmov).imp_left (hsub _)

/-- For every parallel copy with different destinations, `resolve_parallel_copy` terminates, stays
in the bounds of its arrays, passes its assertions, and the movs do what the parallel copy does. -/
theorem resolveParallelCopy_correct (V : Type) (entries : List Entry) (regAlloc : ℕ)
    (hnodup : (entries.map Entry.dest).Nodup) (hregs : ∀ e ∈ entries, e.Exists regAlloc) :
    ∃ movs regAlloc', Returns (resolveParallelCopy entries regAlloc) (movs, regAlloc') ∧
      Resolves V entries regAlloc movs regAlloc' := by
  have hmem : ∀ e ∈ copies entries, e ∈ entries ∧ ¬ e.Skipped := fun e he => by
    obtain ⟨he, hskip⟩ := mem_filter.1 he
    exact ⟨he, of_decide_eq_true hskip⟩
  by_cases hzero : numCopies entries = 0
  · -- there is nothing to do
    refine ⟨[], regAlloc, Returns.of_eq fun fuel => ?_,
      resolves_of_copies hnodup hregs (fun σ e he => ?_) ?_⟩
    · rw [resolveParallelCopy, if_pos hzero]
    · rw [← length_copies] at hzero
      rw [eq_nil_of_length_eq_zero hzero] at he
      cases he
    · exact fun mov hmov => absurd hmov not_mem_nil
  have hnodup' : (([] ++ copies entries).map Entry.dest).Nodup :=
    (filter_sublist.map _).nodup hnodup
  have hroom : 2 * (([] : List Entry).length + numCopies entries) ≤ 2 * numCopies entries := by simp
  obtain ⟨s, hs, hset⟩ := (setUp_init regAlloc).entries entries hnodup' hroom
  rw [nil_append] at hset
  have hlen : (copies entries).length ≤ 2 * numCopies entries := by
    rw [length_copies]
    omega
  obtain ⟨ready, hmark, hready_nodup, hready⟩ := hset.markReady_eq hlen
  have hskip := fun e he => (hmem e he).2
  have hexist := fun e he => hregs e (hmem e he).1
  have hsize : (hset.problem hskip hexist).size = 2 * numCopies entries := by
    rw [hset.size_problem, length_copies]
  obtain ⟨s', hret, hinv, hfilled⟩ := (hset.inv (V := V) hskip hexist hready_nodup hready).copyLoop
  rw [hsize] at hret
  refine ⟨s'.movs, s'.regAlloc, ?_, resolves_of_copies hnodup hregs
    (fun σ e he => ?_) fun mov hmov => ?_⟩
  · obtain ⟨n, hn⟩ := hret
    refine ⟨n, fun fuel hfuel => ?_⟩
    rw [resolveParallelCopy, if_neg hzero, hs]
    show (markReady _ s).bind _ = _
    rw [hmark]
    show (copyLoop _ fuel { s with ready := ready }).bind _ = _
    have hloop : copyLoop (2 * numCopies entries) fuel { s with ready := ready } =
      some s' := hn fuel hfuel
    rw [hloop]
    rfl
  · obtain ⟨b, hb⟩ := hset.dest_at e he
    obtain ⟨a, ha⟩ := hset.src_at e he
    have hpred : s.pred b = some a := (hset.pred b a).2 ⟨e, he, hb, ha⟩
    calc exec s'.movs σ (.reg e.dest) = exec s'.movs σ (s.values b) := by rw [hb.2]
      _ = σ (s.values a) := hinv.filled b a hpred (hfilled b) σ
      _ = σ e.src := by rw [ha.2]
  · rcases hinv.movs mov hmov with ⟨b, hb, hvalue⟩ | htemp
    · obtain ⟨a, ha⟩ := ne_none_iff_exists'.1 hb
      obtain ⟨e, he, hb_at, -⟩ := (hset.pred b a).1 ha
      refine .inl (mem_map.2 ⟨e, he, ?_⟩)
      exact Src.reg.inj (hb_at.2.symm.trans hvalue)
    · exact .inr htemp

/-- A cycle of three registers, of which one is also copied elsewhere, and an SSA value. -/
theorem resolveParallelCopy_correct_cycle : ∃ movs regAlloc',
    Returns (resolveParallelCopy [⟨.reg 1, 0⟩, ⟨.reg 2, 1⟩,
      ⟨.reg 0, 2⟩, ⟨.reg 0, 3⟩, ⟨.ssa 5, 4⟩] 5)
      (movs, regAlloc') ∧ ∀ σ : Src → ℕ, exec movs σ (.reg 2) = σ (.reg 0) := by
  obtain ⟨movs, regAlloc', hret, hres⟩ := resolveParallelCopy_correct ℕ
    [⟨.reg 1, 0⟩, ⟨.reg 2, 1⟩, ⟨.reg 0, 2⟩, ⟨.reg 0, 3⟩, ⟨.ssa 5, 4⟩] 5 (by decide)
    (by simp [Entry.Exists])
  exact ⟨movs, regAlloc', hret, fun σ => hres.copied σ ⟨.reg 0, 2⟩ (by simp)⟩

end Mesa3D.Nir.ParallelCopy
