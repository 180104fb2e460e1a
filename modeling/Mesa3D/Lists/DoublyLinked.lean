import Mathlib.Data.List.Nodup

/-!
# Doubly linked lists

`Linked prev next p l` says that the elements of `l` are linked in both directions: `prev` and
`next` of each are its neighbours, in front of the first is `p`, and behind the last is nothing. The
lemmas say what has to be done to the links to take an element out, to append two lists, and to
rename the elements.
-/

namespace Mesa3D.Lists

open List Option

variable {α β : Type} {prev next prev' next' : α → Option α} {p : Option α} {l : List α} {x y z : α}

/-- The elements of a list are linked in both directions. -/
def Linked (prev next : α → Option α) : Option α → List α → Prop
  | _, [] => True
  | p, y :: l => prev y = p ∧ next y = l.head? ∧ Linked prev next (some y) l

namespace Linked

/-- The end of a list is linked. -/
theorem of_append {l₁ l₂ : List α} (h : Linked prev next p (l₁ ++ l₂)) :
    ∃ p', Linked prev next p' l₂ := by
  induction l₁ generalizing p with
  | nil => exact ⟨p, h⟩
  | cons y l₁ ih => exact ih h.2.2

section

variable (h : Linked prev next p l)
include h

/-- Only the links of the elements matter. -/
theorem congr (hprev : ∀ y ∈ l, prev' y = prev y) (hnext : ∀ y ∈ l, next' y = next y) :
    Linked prev' next' p l := by
  induction l generalizing p with
  | nil => trivial
  | cons y l ih =>
    rw [forall_mem_cons] at hprev hnext
    exact ⟨hprev.1.trans h.1, hnext.1.trans h.2.1, ih h.2.2 hprev.2 hnext.2⟩

/-- The element behind another one is in the list, and has that one in front. -/
theorem of_next (hy : y ∈ l) (hz : next y = some z) : z ∈ l ∧ prev z = some y := by
  induction l generalizing p with
  | nil => cases hy
  | cons w l ih =>
    rcases mem_cons.1 hy with rfl | hy
    · cases l with
      | nil => cases h.2.1.symm.trans hz
      | cons v l =>
        have hvz : v = z := some.inj (h.2.1.symm.trans hz)
        subst hvz
        exact ⟨mem_cons_of_mem _ mem_cons_self, h.2.2.1⟩
    · obtain ⟨hmem, hprev⟩ := ih h.2.2 hy
      exact ⟨mem_cons_of_mem _ hmem, hprev⟩

/-- The element in front of another one is in the list, and has that one behind it, except in front
of the list. -/
theorem of_prev (hz : z ∈ l) (hy : prev z = some y) :
    (y ∈ l ∧ next y = some z) ∨ (p = some y ∧ l.head? = some z) := by
  induction l generalizing p with
  | nil => cases hz
  | cons w l ih =>
    rcases mem_cons.1 hz with rfl | hz
    · exact .inr ⟨h.1.symm.trans hy, rfl⟩
    · rcases ih h.2.2 hz with ⟨hmem, hnext⟩ | ⟨hw, hhead⟩
      · exact .inl ⟨mem_cons_of_mem _ hmem, hnext⟩
      · cases hw
        exact .inl ⟨mem_cons_self, h.2.1.trans hhead⟩

/-- No element is behind itself. -/
theorem next_ne_self (hnodup : l.Nodup) (hy : y ∈ l) : next y ≠ some y := by
  induction l generalizing p with
  | nil => cases hy
  | cons w l ih =>
    obtain ⟨hw, hnodup'⟩ := nodup_cons.1 hnodup
    rcases mem_cons.1 hy with rfl | hy
    · intro hnext
      exact hw (mem_of_mem_head? (h.2.1.symm.trans hnext))
    · exact ih h.2.2 hnodup' hy

/-- Nothing refers to an element that is not in the list. -/
theorem ne_of_notMem (hp : p ≠ some x) (hx : x ∉ l) (hz : z ∈ l) :
    prev z ≠ some x ∧ next z ≠ some x := by
  refine ⟨fun hprev => ?_, fun hnext => hx (h.of_next hz hnext).1⟩
  rcases h.of_prev hz hprev with ⟨hmem, -⟩ | ⟨hpx, -⟩
  · exact hx hmem
  · exact hp hpx

/-- The elements get other names. -/
theorem map {prev' next' : β → Option β} (f : α → β)
    (hprev : ∀ z ∈ l, prev' (f z) = (prev z).map f)
    (hnext : ∀ z ∈ l, next' (f z) = (next z).map f) :
    Linked prev' next' (p.map f) (l.map f) := by
  induction l generalizing p with
  | nil => trivial
  | cons y l ih =>
    rw [forall_mem_cons] at hprev hnext
    refine ⟨?_, ?_, ih h.2.2 hprev.2 hnext.2⟩
    · rw [hprev.1, h.1]
    · rw [hnext.1, h.2.1, head?_map]

/-- The list gets another element, or none, in front. -/
theorem behind [DecidableEq α] {p' : Option α} (hnodup : l.Nodup)
    (hprev : ∀ z ∈ l, prev' z = if l.head? = some z then p' else prev z)
    (hnext : ∀ z ∈ l, next' z = next z) :
    Linked prev' next' p' l := by
  cases l with
  | nil => trivial
  | cons y l =>
    rw [forall_mem_cons] at hprev hnext
    refine ⟨hprev.1.trans (if_pos rfl), hnext.1.trans h.2.1, h.2.2.congr (fun z hz => ?_) hnext.2⟩
    have hyz : (some y : Option α) ≠ some z :=
      fun heq => (nodup_cons.1 hnodup).1 (some.inj heq ▸ hz)
    rw [hprev.2 z hz, head?_cons, if_neg hyz]

/-- An element is taken out: what referred to it refers to its neighbours. -/
theorem erase [DecidableEq α] (hnodup : l.Nodup) (hx : x ∈ l) (hp : p ≠ some x)
    (hprev : ∀ z ∈ l, z ≠ x → prev' z = if prev z = some x then prev x else prev z)
    (hnext : ∀ z ∈ l, z ≠ x → next' z = if next z = some x then next x else next z) :
    Linked prev' next' p (l.erase x) := by
  induction l generalizing p with
  | nil => cases hx
  | cons y l ih =>
    obtain ⟨hy, hnodup'⟩ := nodup_cons.1 hnodup
    by_cases hyx : y = x
    · -- the first one is taken out
      subst hyx
      rw [erase_cons_head]
      have hne : ∀ z ∈ l, z ≠ y := fun z hz heq => hy (heq ▸ hz)
      refine h.2.2.behind hnodup' (fun z hz => ?_) fun z hz => ?_
      · have hiff : prev z = some y ↔ l.head? = some z := by
          constructor
          · intro hzy
            rcases h.2.2.of_prev hz hzy with ⟨hmem, -⟩ | ⟨-, hhead⟩
            · exact absurd hmem hy
            · exact hhead
          · intro hhead
            obtain ⟨l', rfl⟩ := head?_eq_some_iff.1 hhead
            exact h.2.2.1
        rw [hprev z (mem_cons_of_mem _ hz) (hne z hz), h.1, if_congr hiff rfl rfl]
      · have hzy : next z ≠ some y := fun hzy => hy (h.2.2.of_next hz hzy).1
        rw [hnext z (mem_cons_of_mem _ hz) (hne z hz), if_neg hzy]
    · have hxl : x ∈ l := (mem_cons.1 hx).resolve_left (Ne.symm hyx)
      rw [forall_mem_cons] at hprev hnext
      rw [erase_cons_tail (by simpa using hyx)]
      refine ⟨?_, ?_, ih h.2.2 hnodup' hxl (fun heq => hyx (some.inj heq)) hprev.2 hnext.2⟩
      · rw [hprev.1 hyx, h.1, if_neg hp]
      · rw [hnext.1 hyx, h.2.1]
        cases l with
        | nil => cases hxl
        | cons w l =>
          by_cases hwx : w = x
          · subst hwx
            rw [head?_cons, if_pos rfl, erase_cons_head]
            exact h.2.2.2.1
          · rw [head?_cons, if_neg (fun heq => hwx (some.inj heq)),
              erase_cons_tail (by simpa using hwx), head?_cons]

end

/-- A list is put behind another one, of which `x` is the last element. -/
theorem append [DecidableEq α] {l' : List α} (h : Linked prev next p l)
    (h' : Linked prev next none l') (hx : l.getLast? = some x)
    (hnodup : l.Nodup) (hnodup' : l'.Nodup) (hprev : ∀ z ∈ l, prev' z = prev z)
    (hnext : ∀ z ∈ l, next' z = if z = x then l'.head? else next z)
    (hprev' : ∀ z ∈ l', prev' z = if l'.head? = some z then some x else prev z)
    (hnext' : ∀ z ∈ l', next' z = next z) : Linked prev' next' p (l ++ l') := by
  induction l generalizing p with
  | nil => cases hx
  | cons y l ih =>
    obtain ⟨hy, hnodup₁⟩ := nodup_cons.1 hnodup
    rw [forall_mem_cons] at hprev hnext
    cases l with
    | nil =>
      obtain rfl : y = x := some.inj hx
      exact ⟨hprev.1.trans h.1, hnext.1.trans (if_pos rfl), h'.behind hnodup' hprev' hnext'⟩
    | cons w l =>
      have hx' : (w :: l).getLast? = some x := by simpa [getLast?_cons_cons] using hx
      have hyx : y ≠ x := fun heq => hy (heq ▸ mem_of_getLast? hx')
      refine ⟨hprev.1.trans h.1, ?_, ih h.2.2 hx' hnodup₁ hprev.2 hnext.2⟩
      rw [hnext.1, if_neg hyx, h.2.1]
      rfl

end Linked

end Mesa3D.Lists
