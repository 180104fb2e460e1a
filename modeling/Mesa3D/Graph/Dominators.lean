import Mathlib.Tactic.Common

/-!
# Walks, dominance, and trees of parents

A control-flow graph is a relation `E` on its nodes, with a node where every walk starts. A node `a`
dominates `b` when every walk to `b` passes through `a`.

Programs keep dominance as a tree: `up b` is the parent of `b`. `Above up a b` says that `a` is `b`
or is reached from `b` by following parents. `IsDomTree` is the property of a tree that makes it
useful: the parent of every node lies above each of its reachable predecessors. It is all that is
needed to show that what is above a node dominates it (`dominates_of_above`), and that a search up
the tree finds the same node from both ends of an edge unless something is joined there
(`nearest_of_not_mem`, `nearest_eq_of_above`).
-/

namespace Mesa3D.Graph

open Option

variable {α : Type}

/-! ## Walks and dominance -/

/-- A walk from `start`, with its last node first. -/
inductive Walk (E : α → α → Prop) (start : α) : List α → Prop
  /-- The walk that stays at the start. -/
  | start : Walk E start [start]
  /-- One more edge. -/
  | step {p q : α} {π : List α} : Walk E start (p :: π) → E p q → Walk E start (q :: p :: π)

/-- Some walk leads to the node. -/
def Reachable (E : α → α → Prop) (start b : α) : Prop := ∃ π, Walk E start (b :: π)

/-- Every walk to `b` passes through `a`. -/
def Dominates (E : α → α → Prop) (start a b : α) : Prop := ∀ π, Walk E start (b :: π) → a ∈ b :: π

/-- `d` dominates `b` strictly, and every other node that does so dominates `d`. -/
def ImmediatelyDominates (E : α → α → Prop) (start d b : α) : Prop :=
  (d ≠ b ∧ Dominates E start d b) ∧ ∀ c, c ≠ b → Dominates E start c b → Dominates E start c d

variable {a b d : α} {k : ℕ}

section

variable {E : α → α → Prop} {start : α}

/-- The start is reachable. -/
theorem Reachable.refl : Reachable E start start := ⟨[], .start⟩

/-- An edge leads from reachable nodes to reachable nodes. -/
theorem Reachable.step {p q : α} (h : Reachable E start p) (hE : E p q) : Reachable E start q := by
  obtain ⟨π, hπ⟩ := h
  exact ⟨p :: π, .step hπ hE⟩

/-- The end of a walk that passes through a node can be cut off there. -/
theorem Walk.cut {π : List α} (h : Walk E start π) (ha : a ∈ π) :
    ∃ ρ, Walk E start (a :: ρ) := by
  induction h with
  | start =>
    obtain rfl := List.mem_singleton.mp ha
    exact ⟨[], .start⟩
  | @step p q π hp hE ih =>
    rcases List.mem_cons.mp ha with rfl | ha
    · exact ⟨p :: π, .step hp hE⟩
    · exact ih ha

/-- What dominates a node dominates each of its predecessors, unless it is the node itself. -/
theorem Dominates.pred {p q : α} (h : Dominates E start a q) (hE : E p q) (hne : a ≠ q) :
    Dominates E start a p := by
  intro π hπ
  rcases List.mem_cons.mp (h (p :: π) (.step hπ hE)) with h | h
  · exact absurd h hne
  · exact h

end

/-! ## Trees of parents -/

/-- `a` is `b`, or is reached from `b` by following parents. -/
inductive Above (up : α → Option α) (a : α) : α → Prop
  /-- A node is above itself. -/
  | refl : Above up a a
  /-- What is above the parent is above the node. -/
  | step {b d : α} : up b = some d → Above up a d → Above up a b

section

variable {up : α → Option α}

/-- A node other than `b` that is above `b` is above its parent. -/
theorem Above.parent (h : Above up a b) (hd : up b = some d) (hne : a ≠ b) : Above up a d := by
  cases h with
  | refl => exact absurd rfl hne
  | step hd' h =>
    rw [hd, some.injEq] at hd'
    rwa [hd']

/-- `Above` is transitive. -/
theorem Above.trans {c : α} (hab : Above up a b) (hbc : Above up b c) : Above up a c := by
  induction hbc with
  | refl => exact hab
  | step hd _ ih => exact .step hd ih

/-- Two nodes above a third are above one another. -/
theorem Above.total {c : α} (ha : Above up a c) (hb : Above up b c) :
    Above up a b ∨ Above up b a := by
  induction ha with
  | refl => exact .inr hb
  | @step c d hd ha ih =>
    cases hb with
    | refl => exact .inl (.step hd ha)
    | step hd' hb =>
      rw [hd, some.injEq] at hd'
      exact ih (hd' ▸ hb)

/-- Along parents a height function does not grow. -/
theorem Above.height_le {h : α → ℕ} (hup : ∀ b d, up b = some d → h d < h b) (hab : Above up a b) :
    h a ≤ h b := by
  induction hab with
  | refl => exact Nat.le_refl _
  | step hd _ ih => exact Nat.le_trans ih (Nat.le_of_lt (hup _ _ hd))

/-- Two nodes that are above each other are the same. -/
theorem Above.antisymm {h : α → ℕ} (hup : ∀ b d, up b = some d → h d < h b) (hab : Above up a b)
    (hba : Above up b a) : a = b := by
  cases hab with
  | refl => rfl
  | step hd hab =>
    have h₁ := hup _ _ hd
    have h₂ := hab.height_le hup
    have h₃ := hba.height_le hup
    omega

end

/-- The parent of every node lies above each of its reachable predecessors. -/
structure IsDomTree (E : α → α → Prop) (start : α) (up : α → Option α) : Prop where
  /-- The start has no parent. -/
  start_none : up start = none
  /-- The parent of a node is above its predecessors. -/
  pred : ∀ p q, Reachable E start p → E p q → q ≠ start → ∃ d, up q = some d ∧ Above up d p

/-- What is above a node in the tree dominates it. -/
theorem dominates_of_above {E : α → α → Prop} {start : α} {up : α → Option α}
    (ht : IsDomTree E start up) (h : Above up a b) : Dominates E start a b := by
  -- Over the walk: each edge leads back to a predecessor that `a` is above as well.
  suffices hw : ∀ π, Walk E start π → ∀ b ρ, π = b :: ρ → Above up a b → a ∈ b :: ρ from
    fun ρ hρ => hw _ hρ b ρ rfl h
  intro π hπ
  induction hπ with
  | start =>
    intro b ρ hb hab
    obtain ⟨rfl, rfl⟩ := List.cons.inj hb
    cases hab with
    | refl => simp
    | step hd _ => simp [ht.start_none] at hd
  | @step p q π hp hE ih =>
    intro b ρ hb hab
    obtain ⟨rfl, rfl⟩ := List.cons.inj hb
    by_cases hq : q = start
    · subst hq
      cases hab with
      | refl => simp
      | step hd _ => simp [ht.start_none] at hd
    · obtain ⟨d, hd, hdp⟩ := ht.pred p q ⟨_, hp⟩ hE hq
      by_cases hne : a = q
      · simp [hne]
      · exact List.mem_cons_of_mem _ (ih p π rfl ((hab.parent hd hne).trans hdp))

/-! ## Searching up the tree -/

/-- The first node with the property `P` on the way up from a node, within `k` steps. -/
def nearest (up : α → Option α) (P : α → Bool) : ℕ → α → Option α
  | 0, _ => none
  | k + 1, b => if P b then some b else (up b).bind (nearest up P k)

section

variable {up : α → Option α} {P : α → Bool} {h : α → ℕ}

/-- The number of steps does not matter when it exceeds the height. -/
theorem nearest_eq (hup : ∀ b d, up b = some d → h d < h b) : ∀ {k l : ℕ} {b : α}, h b < k →
    h b < l → nearest up P k b = nearest up P l b
  | 0, _, _, hk, _ => by omega
  | _, 0, _, _, hl => by omega
  | k + 1, l + 1, b, hk, hl => by
    simp only [nearest]
    cases hd : up b with
    | none => rfl
    | some d =>
      have hlt := hup b d hd
      simp only [bind_some]
      rw [nearest_eq hup (show h d < k by omega) (show h d < l by omega)]

/-- A node with the property is found at once. -/
theorem nearest_of_mem (hb : P b = true) : nearest up P (k + 1) b = some b := by
  simp [nearest, hb]

/-- A node without the property finds what its parent finds. -/
theorem nearest_of_not_mem (hup : ∀ b d, up b = some d → h d < h b) (hk : h b < k)
    (hb : P b = false) (hd : up b = some d) : nearest up P k b = nearest up P k d := by
  cases k with
  | zero => omega
  | succ k =>
    have hlt := hup b d hd
    rw [nearest, if_neg (by simp [hb]), hd, bind_some,
      nearest_eq hup (show h d < k by omega) (show h d < k + 1 by omega)]

/-- What is found has the property and is above the node. -/
theorem nearest_spec : ∀ {k : ℕ} {b a : α}, nearest up P k b = some a → P a = true ∧ Above up a b
  | 0, _, _, hk => by simp [nearest] at hk
  | k + 1, b, a, hk => by
    simp only [nearest] at hk
    split_ifs at hk with hb
    · cases hk
      exact ⟨hb, .refl⟩
    · cases hd : up b with
      | none => simp [hd] at hk
      | some d =>
        rw [hd, bind_some] at hk
        obtain ⟨ha, hab⟩ := nearest_spec hk
        exact ⟨ha, .step hd hab⟩

/-- A search that meets nothing on the way to a node above finds what that node finds. -/
theorem nearest_eq_of_above (hup : ∀ b d, up b = some d → h d < h b) {p : α} (hk : h p < k)
    (hdp : Above up d p) (hfree : ∀ r, Above up d r → Above up r p → r ≠ d → P r = false) :
    nearest up P k p = nearest up P k d := by
  induction hdp with
  | refl => rfl
  | @step b c hc hdc ih =>
    have hlt := hup b c hc
    by_cases hbd : b = d
    · rw [hbd]
    · have hb : P b = false := hfree b (.step hc hdc) .refl hbd
      rw [nearest_of_not_mem hup hk hb hc]
      exact ih (by omega) fun r hdr hrc hne => hfree r hdr (.step hc hrc) hne

/-- A search for a weaker property stops on the way to what a search for a stronger one finds. -/
theorem nearest_mono {Q : α → Bool} (hup : ∀ b d, up b = some d → h d < h b)
    (hPQ : ∀ b, P b = true → Q b = true) : ∀ {k : ℕ} {b : α}, h b < k →
      (nearest up Q k b = none → nearest up P k b = none) ∧
        ∀ c, nearest up Q k b = some c → nearest up P k b = nearest up P k c
  | 0, _, hk => by omega
  | k + 1, b, hk => by
    simp only [nearest]
    by_cases hQ : Q b = true
    · refine ⟨by simp [hQ], fun c hc => ?_⟩
      simp only [hQ, if_true, some.injEq] at hc
      rw [← hc]
    · have hP : P b = false := by
        by_contra hP
        exact hQ (hPQ b (by simpa using hP))
      simp only [hQ, hP, Bool.false_eq_true, if_false]
      cases hd : up b with
      | none => simp
      | some d =>
        have hlt := hup b d hd
        obtain ⟨h₁, h₂⟩ := nearest_mono hup hPQ (k := k) (b := d) (by omega)
        refine ⟨h₁, fun c hc => ?_⟩
        have hcd := (nearest_spec hc).2.height_le hup
        simp only [bind_some]
        rw [h₂ c hc]
        exact nearest_eq hup (by omega) (show h c < k + 1 by omega)

end

end Mesa3D.Graph
