import Mesa3D.Structured.Order

/-!
# Editing lists at their ends

A pass that moves code stitches it to the first or to the last block of a list. `setFirst` replaces
the first block, and `graft` puts a list in the place of the last block. A run of a list is its
first block followed by `execTail`, and a graft runs like the list up to its last block.
-/

namespace Mesa3D.Structured

open CfList

variable {B C S : Type}

/-! ## The first block -/

/-- The list with another first block. -/
def CfList.setFirst (b : B) : CfList B C → CfList B C
  | .last _ => .last b
  | .ite _ c t e rest => .ite b c t e rest
  | .loop _ body rest => .loop b body rest

/-- The first block is the only one at its level: nothing follows it in the list. -/
def CfList.isLast : CfList B C → Bool
  | .last _ => true
  | _ => false

/-- The blocks of a list, the first one apart. -/
theorem CfList.blocks_eq_cons (l : CfList B C) : l.blocks = l.first :: l.blocks.tail := by
  cases l <;> rfl

/-- Another first block leaves the others. -/
theorem CfList.blocks_setFirst (b : B) (l : CfList B C) :
    (l.setFirst b).blocks = b :: l.blocks.tail := by
  cases l <;> rfl

/-- The first block that was set. -/
@[simp] theorem CfList.first_setFirst (b : B) (l : CfList B C) : (l.setFirst b).first = b := by
  cases l <;> rfl

/-- Setting the first block keeps the conditions. -/
@[simp] theorem CfList.conds_setFirst (b : B) (l : CfList B C) :
    (l.setFirst b).conds = l.conds := by
  cases l <;> rfl

/-- The last block is the first one, where the list has no other, or stays. -/
theorem CfList.final_setFirst (b : B) (l : CfList B C) :
    (l.setFirst b).final = match l with | .last _ => b | _ => l.final := by
  cases l <;> rfl

/-- What follows the first block of a list. -/
def execTail (M : Machine B C S) (n : ℕ) : CfList B C → ℕ → S → Res S
  | .last _, q, s => ⟨q, s, .next⟩
  | .ite _ c thenList elseList rest, q, s =>
    (if M.cond c s then exec M n thenList q s else exec M n elseList q s).andThen (exec M n rest)
  | .loop _ body rest, q, s => (iterate (exec M n body) n q s).andThen (exec M n rest)

section

variable (M : Machine B C S) (n : ℕ)

/-- A list runs its first block and then the rest. -/
theorem exec_eq_tail (l : CfList B C) (p : ℕ) (s : S) :
    exec M n l p s = (M.step l.first p s).andThen (execTail M n l) := by
  cases l with
  | last b =>
    by_cases h : (M.step b p s).out = .next
    · rw [first, Res.andThen_next _ h]
      simp only [exec, execTail]
      rw [← h]
    · rw [first, Res.andThen_of_ne _ h, exec]
  | ite b c t e rest => rfl
  | loop b body rest => rfl

/-- A list with another first block runs that block and then the rest. -/
theorem exec_setFirst (b : B) (l : CfList B C) (p : ℕ) (s : S) :
    exec M n (l.setFirst b) p s = (M.step b p s).andThen (execTail M n l) := by
  rw [exec_eq_tail, first_setFirst]
  cases l <;> rfl

end

/-! ## The last block -/

/-- The list with another list in the place of its last block. -/
def CfList.graft (k : B → CfList B C) : CfList B C → CfList B C
  | .last b => k b
  | .ite b c t e rest => .ite b c t e (rest.graft k)
  | .loop b body rest => .loop b body (rest.graft k)

section

variable (k : B → CfList B C) (l : CfList B C)

/-- The blocks of a list, the last one apart. -/
theorem CfList.blocks_graft :
    ∃ init, l.blocks = init ++ [l.final] ∧ (l.graft k).blocks = init ++ (k l.final).blocks := by
  induction l with
  | last b => exact ⟨[], rfl, rfl⟩
  | ite b c t e rest _ _ ih =>
    obtain ⟨init, h₁, h₂⟩ := ih
    exact ⟨b :: (t.blocks ++ e.blocks ++ init), by simp [blocks, final, h₁], by
      simp [graft, blocks, final, h₂]⟩
  | loop b body rest _ ih =>
    obtain ⟨init, h₁, h₂⟩ := ih
    exact ⟨b :: (body.blocks ++ init), by simp [blocks, final, h₁], by
      simp [graft, blocks, final, h₂]⟩

/-- The conditions of a graft. -/
theorem CfList.conds_graft : (l.graft k).conds = l.conds ++ (k l.final).conds := by
  induction l with
  | last b => rfl
  | ite b c t e rest _ _ ih | loop b body rest _ ih => simp [graft, conds, final, ih]

/-- The last block of a graft. -/
theorem CfList.final_graft : (l.graft k).final = (k l.final).final := by
  induction l with
  | last b => rfl
  | ite b c t e rest _ _ ih => exact ih
  | loop b body rest _ ih => exact ih

/-- The first block of a graft. -/
theorem CfList.first_graft :
    (l.graft k).first = match l with | .last b => (k b).first | _ => l.first := by
  cases l <;> rfl

end

section

variable {M : Machine B C S} {n : ℕ}

/-- A graft runs like the list, up to the last block. The relation `Φ` holds between a result that
does not reach the end of the list and itself, and between a run of the last block and one of what
is grafted there. -/
theorem exec_graft {Φ : Res S → Res S → Prop} (hΦ : ∀ r, r.out ≠ .next → Φ r r)
    {k : B → CfList B C} (l : CfList B C)
    (hk : ∀ p s, Φ (M.step l.final p s) (exec M n (k l.final) p s)) (p : ℕ) (s : S) :
    Φ (exec M n l p s) (exec M n (l.graft k) p s) := by
  have hthen : ∀ (r : Res S) (f g : ℕ → S → Res S), (∀ q s, Φ (f q s) (g q s)) →
      Φ (r.andThen f) (r.andThen g) := by
    intro r f g h
    by_cases hr : r.out = .next
    · rw [Res.andThen_next f hr, Res.andThen_next g hr]
      exact h _ _
    · rw [Res.andThen_of_ne f hr, Res.andThen_of_ne g hr]
      exact hΦ r hr
  induction l generalizing p s with
  | last b => exact hk p s
  | ite b c t e rest _ _ ih | loop b body rest _ ih =>
    exact hthen _ _ _ fun q s => hthen _ _ _ (ih hk)

/-- A list that is left by falling through is left by its last block, which has no jump. -/
theorem exec_next {l : CfList B C} {p : ℕ} {s : S} (h : (exec M n l p s).out = .next) :
    M.jump l.final = none ∧ (exec M n l p s).prev = M.label l.final := by
  have hthen : ∀ (r : Res S) (f : ℕ → S → Res S) (b : B),
      (∀ q s, (f q s).out = .next → M.jump b = none ∧ (f q s).prev = M.label b) →
        (r.andThen f).out = .next → M.jump b = none ∧ (r.andThen f).prev = M.label b := by
    intro r f b hf hout
    by_cases hr : r.out = .next
    · rw [Res.andThen_next f hr] at hout ⊢
      exact hf _ _ hout
    · rw [Res.andThen_of_ne f hr] at hout
      exact absurd hout hr
  induction l generalizing p s with
  | last b => exact ⟨Machine.jump_of_step_next h, rfl⟩
  | ite b c t e rest _ _ ih | loop b body rest _ ih =>
    exact hthen _ _ _ (fun q s hout => hthen _ _ _ (fun q s => ih) hout) h

end

/-! ## Jumps -/

/-- The list has the given jump outside of its loops. -/
def CfList.hasJump (jump : B → Option Jump) (j : Jump) : CfList B C → Bool
  | .last b => jump b == some j
  | .ite b _ t e rest =>
    jump b == some j || t.hasJump jump j || e.hasJump jump j || rest.hasJump jump j
  | .loop b _ rest => jump b == some j || rest.hasJump jump j

/-- How a loop is left: its body breaks, or ends the run, or the loop is cut. -/
theorem iterate_out {f : ℕ → S → Res S} : ∀ {n p : ℕ} {s : S} {o : Outcome},
    (iterate f n p s).out = o →
    o = .timeout ∨ o = .next ∧ (∃ q t, (f q t).out = .brk) ∨
      (o = .ret ∨ o = .halt) ∧ ∃ q t, (f q t).out = o
  | 0, _, _, _, h => .inl h.symm
  | n + 1, p, s, o, h => by
    simp only [iterate] at h
    cases hf : (f p s).out <;> simp only [hf] at h
    case next | cont => exact iterate_out h
    case brk => exact .inr (.inl ⟨h.symm, p, s, hf⟩)
    case timeout => exact .inl h.symm
    all_goals exact .inr (.inr ⟨by simp [← h], p, s, hf.trans h⟩)

/-- A loop returns where its body does. -/
theorem exists_ret_of_iterate {f : ℕ → S → Res S} {n p : ℕ} {s : S}
    (h : (iterate f n p s).out = .ret) :
    ∃ q t, (f q t).out = .ret := by
  simpa using iterate_out h

/-- A list is left by a break or a continue only where it has one outside of its loops. -/
theorem hasJump_of_exec {M : Machine B C S} {n : ℕ} {j : Jump} (hj : j ≠ .ret)
    {l : CfList B C} {p : ℕ}
    {s : S} (h : (exec M n l p s).out = Jump.outcome (some j)) : l.hasJump M.jump j = true := by
  have hiter : ∀ (f : ℕ → S → Res S) n p s, (iterate f n p s).out ≠ Jump.outcome (some j) := by
    intro f n p s h
    cases j with
    | ret => exact hj rfl
    | _ => simpa [Jump.outcome] using iterate_out h
  induction l generalizing p s with
  | last b => simp [hasJump, M.jump_of_step h]
  | ite b c t e rest iht ihe ihr =>
    simp only [hasJump, Bool.or_eq_true, beq_iff_eq]
    rcases Res.out_andThen h with h | ⟨-, h⟩
    · exact .inl (.inl (.inl (M.jump_of_step h)))
    · rcases Res.out_andThen h with h | ⟨-, h⟩
      · split at h
        · exact .inl (.inl (.inr (iht h)))
        · exact .inl (.inr (ihe h))
      · exact .inr (ihr h)
  | loop b body rest _ ihr =>
    simp only [hasJump, Bool.or_eq_true, beq_iff_eq]
    rcases Res.out_andThen h with h | ⟨-, h⟩
    · exact .inl (M.jump_of_step h)
    · rcases Res.out_andThen h with h | ⟨-, h⟩
      · exact absurd h (hiter _ _ _ _)
      · exact .inr (ihr h)

/-- A loop is left by falling through where its body has a break. -/
theorem hasJump_of_iterate {M : Machine B C S} {n p : ℕ} {l : CfList B C} {s : S}
    (h : (iterate (exec M n l) n p s).out = .next) : l.hasJump M.jump .brk = true := by
  obtain ⟨q, t, hbrk⟩ : ∃ q t, (exec M n l q t).out = .brk := by simpa using iterate_out h
  exact hasJump_of_exec (by simp) hbrk

end Mesa3D.Structured
