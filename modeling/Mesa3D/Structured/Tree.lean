import Mathlib.Tactic.Common

/-!
# Structured control flow

A function body is a list of control-flow nodes in which basic blocks alternate with ifs and loops,
and which starts and ends with a block. `CfList` has exactly these lists as its values, so that two
adjacent blocks, or an if without a block on either side, cannot be written down. A block may end in
a jump, and then what follows it in its list is not reached.

`exec` runs a list. It is generic in the blocks, the conditions, and the states: `Machine` says what
a block does to a state, where it jumps, and how a condition reads. The bound `n` is the number of
iterations that every entry of a loop is given; a loop that is still running after them ends the run
with `Outcome.timeout`, in the state that it has reached. The runs at all bounds together determine
the behaviour of the body, terminating or not.
-/

namespace Mesa3D.Structured

/-- The jumps that may end a block. -/
inductive Jump
  | brk
  | cont
  | ret
  deriving DecidableEq, Repr

/-- How control leaves a block, a list, or a loop. -/
inductive Outcome
  /-- Control falls through to what follows. -/
  | next
  /-- A break is on its way to the innermost loop. -/
  | brk
  /-- A continue is on its way to the innermost loop. -/
  | cont
  /-- The function returns. -/
  | ret
  /-- The whole run ends here, whatever encloses it. -/
  | halt
  /-- The run was cut at its bound on iterations. -/
  | timeout
  deriving DecidableEq, Repr

/-- The outcome of a block that ends in the given jump, or in none. -/
def Jump.outcome : Option Jump → Outcome
  | none => .next
  | some .brk => .brk
  | some .cont => .cont
  | some .ret => .ret

/-- A control-flow list: a block, then either nothing, or an if or a loop and a further list. -/
inductive CfList (B C : Type)
  /-- The last block of a list. -/
  | last (b : B)
  /-- A block, an if on the condition `c`, and the rest of the list. -/
  | ite (b : B) (c : C) (thenList elseList rest : CfList B C)
  /-- A block, a loop, and the rest of the list. -/
  | loop (b : B) (body rest : CfList B C)
  deriving Repr, DecidableEq

/-- What a run needs to know of blocks and conditions. -/
structure Machine (B C S : Type) where
  /-- The name of the block. -/
  label : B → ℕ
  /-- The jump at the end of the block. -/
  jump : B → Option Jump
  /-- The state after the block, entered from the block of the given name, and whether the whole run
  ended inside it. -/
  run : B → ℕ → S → S × Bool
  /-- The value of a condition in a state. -/
  cond : C → S → Bool

/-- The result of a run: the block that control left last, the state, and how it left. -/
structure Res (S : Type) where
  /-- The name of the last block. -/
  prev : ℕ
  /-- The state reached. -/
  st : S
  /-- How control left. -/
  out : Outcome

/-- Continue with `k` where control falls through. -/
def Res.andThen {S : Type} (r : Res S) (k : ℕ → S → Res S) : Res S :=
  match r.out with
  | .next => k r.prev r.st
  | _ => r

/-- Run `f` up to `n` times, as a loop runs its body: falling through and continuing start the next
iteration, and breaking leaves the loop. -/
def iterate {S : Type} (f : ℕ → S → Res S) : ℕ → ℕ → S → Res S
  | 0, p, s => ⟨p, s, .timeout⟩
  | n + 1, p, s =>
    let r := f p s
    match r.out with
    | .next => iterate f n r.prev r.st
    | .cont => iterate f n r.prev r.st
    | .brk => ⟨r.prev, r.st, .next⟩
    | _ => r

section

variable {B C S : Type} (M : Machine B C S)

/-- One block. -/
def Machine.step (b : B) (p : ℕ) (s : S) : Res S :=
  let r := M.run b p s
  ⟨M.label b, r.1, if r.2 then .halt else Jump.outcome (M.jump b)⟩

/-- Run a list from a state in which control comes from the block `p`, with the bound `n` on the
iterations of each loop. -/
def exec (n : ℕ) : CfList B C → ℕ → S → Res S
  | .last b, p, s => M.step b p s
  | .ite b c thenList elseList rest, p, s =>
    (M.step b p s).andThen fun q s =>
      (if M.cond c s then exec n thenList q s else exec n elseList q s).andThen (exec n rest)
  | .loop b body rest, p, s =>
    (M.step b p s).andThen fun q s => (iterate (exec n body) n q s).andThen (exec n rest)

end

section

variable {S : Type}

/-- Where control falls through, `andThen` is its continuation. -/
theorem Res.andThen_next {r : Res S} (k : ℕ → S → Res S) (h : r.out = .next) :
    r.andThen k = k r.prev r.st := by
  simp [Res.andThen, h]

/-- Where control does not fall through, `andThen` does nothing. -/
theorem Res.andThen_of_ne {r : Res S} (k : ℕ → S → Res S) (h : r.out ≠ .next) :
    r.andThen k = r := by
  unfold Res.andThen
  split
  · exact absurd ‹_› h
  · rfl

/-- How control leaves the two parts of `andThen`. -/
theorem Res.out_andThen {r : Res S} {k : ℕ → S → Res S} {o : Outcome} (h : (r.andThen k).out = o) :
    r.out = o ∨ r.out = .next ∧ (k r.prev r.st).out = o := by
  by_cases hr : r.out = .next
  · rw [Res.andThen_next k hr] at h
    exact .inr ⟨hr, h⟩
  · rw [Res.andThen_of_ne k hr] at h
    exact .inl h

end

/-! ## Blocks and edges -/

section

variable {B C : Type}

/-- The first block of a list. -/
def CfList.first : CfList B C → B
  | .last b => b
  | .ite b _ _ _ _ => b
  | .loop b _ _ => b

/-- The last block of a list. -/
def CfList.final : CfList B C → B
  | .last b => b
  | .ite _ _ _ _ rest => rest.final
  | .loop _ _ rest => rest.final

/-- The blocks of a list, in source order. -/
def CfList.blocks : CfList B C → List B
  | .last b => [b]
  | .ite b _ t e rest => b :: (t.blocks ++ e.blocks ++ rest.blocks)
  | .loop b body rest => b :: (body.blocks ++ rest.blocks)

/-- The conditions of a list, in source order. -/
def CfList.conds : CfList B C → List C
  | .last _ => []
  | .ite _ c t e rest => c :: (t.conds ++ e.conds ++ rest.conds)
  | .loop _ body rest => body.conds ++ rest.conds

/-- The first block is one of the blocks. -/
theorem CfList.first_mem_blocks (l : CfList B C) : l.first ∈ l.blocks := by
  cases l <;> simp [CfList.first, CfList.blocks]

/-- Where control goes from the end of a list and for each jump, as names of blocks. -/
structure Targets where
  /-- Falling off the end of the list. -/
  next : ℕ
  /-- The block after the innermost loop. -/
  brk : ℕ
  /-- The header of the innermost loop. -/
  cont : ℕ
  /-- The end of the function. -/
  ret : ℕ

/-- The block that control goes to from a block that ends in the given jump. -/
def Targets.ofJump (t : Targets) : Option Jump → ℕ
  | none => t.next
  | some .brk => t.brk
  | some .cont => t.cont
  | some .ret => t.ret

/-- The successor links of the blocks of a list. -/
def CfList.edges (label : B → ℕ) (jump : B → Option Jump) : CfList B C → Targets → List (ℕ × ℕ)
  | .last b, t => [(label b, t.ofJump (jump b))]
  | .ite b _ thenList elseList rest, t =>
    let inner := { t with next := label rest.first }
    (if jump b = none then [(label b, label thenList.first), (label b, label elseList.first)]
      else [(label b, t.ofJump (jump b))]) ++
      thenList.edges label jump inner ++ elseList.edges label jump inner ++ rest.edges label jump t
  | .loop b body rest, t =>
    let inner := { t with
      next := label body.first, cont := label body.first, brk := label rest.first }
    (label b, if jump b = none then label body.first else t.ofJump (jump b)) ::
      (body.edges label jump inner ++ rest.edges label jump t)

end

end Mesa3D.Structured
