import Mesa3D.Nir.Block

/-!
# Running functions in SSA form

The instructions as the passes over control flow see them: an operation, the SSA defs that it reads,
and the def that it writes. A pure operation computes its result from the values of its operands.
Any other operation is observed: a run keeps a trace of these instructions and of the values that
they read, and what they return and whether they end the invocation is up to a `World`, which
answers as a function of the trace. Boolean local variables, with constant stores and with loads,
are what return lowering adds to a function.

An undef has a value of its own, and so has a def before it is first executed.
-/

namespace Mesa3D.Nir

open Structured List

/-- What an instruction does. -/
inductive SsaOp
  /-- Compute a result from the operands alone. -/
  | pure (op : ℕ)
  /-- Do anything else. -/
  | effect (op : ℕ)
  /-- `ssa_undef`. -/
  | undef
  /-- Store a constant to a boolean local variable. -/
  | storeVar (var : ℕ) (value : Bool)
  /-- Load a boolean local variable. -/
  | loadVar (var : ℕ)
  deriving DecidableEq, Repr

/-- An instruction other than a phi or a jump. -/
structure SsaInstr where
  /-- What it does. -/
  op : SsaOp
  /-- The def that it writes. -/
  dest : Option ℕ
  /-- The defs that it reads. -/
  srcs : List ℕ
  deriving DecidableEq, Repr

/-- An executed instruction with the values that it read. -/
structure SsaEvent where
  /-- The operation. -/
  op : ℕ
  /-- The values of the operands. -/
  args : List Value

/-- The state of an invocation. -/
structure SsaState where
  /-- The values of the defs. -/
  env : Env
  /-- The contents of the boolean local variables. -/
  vars : ℕ → Bool
  /-- The observed instructions, last first. -/
  trace : List SsaEvent

/-- The operations of the machine, and the world around an invocation. -/
structure SsaWorld where
  /-- The result of a pure operation. -/
  pure : ℕ → List Value → Value
  /-- The result of an observed operation. -/
  result : List SsaEvent → Value
  /-- The observed operation ends the invocation. -/
  ends : List SsaEvent → Bool
  /-- The undefined value. -/
  undef : Value
  /-- What the local variables contain at the start. -/
  vars : ℕ → Bool

/-- The environment after an instruction with the given def, if any, and result. -/
def Env.assign (ρ : Env) (dest : Option ℕ) (v : Value) : Env :=
  match dest with
  | some d => ρ.set d v
  | none => ρ

/-- A boolean as a value. -/
def boolValue (b : Bool) : Value := fun _ => if b then 1 else 0

section

variable (W : SsaWorld)

/-- One instruction: the state after it, and whether it ends the invocation. -/
def SsaInstr.run (i : SsaInstr) (s : SsaState) : SsaState × Bool :=
  match i.op with
  | .pure op => ({ s with env := s.env.assign i.dest (W.pure op (i.srcs.map s.env)) }, false)
  | .effect op =>
    let trace := ⟨op, i.srcs.map s.env⟩ :: s.trace
    ({ s with env := s.env.assign i.dest (W.result trace), trace }, W.ends trace)
  | .undef => ({ s with env := s.env.assign i.dest W.undef }, false)
  | .storeVar var value =>
    ({ s with vars := fun w => if w = var then value else s.vars w }, false)
  | .loadVar var => ({ s with env := s.env.assign i.dest (boolValue (s.vars var)) }, false)

/-- A block: its phis, then its instructions. -/
def runSsaBlock (b : Block SsaInstr) (prev : ℕ) (s : SsaState) : SsaState × Bool :=
  runInstrs (SsaInstr.run W) b.instrs { s with env := evalPhis b.phis prev s.env }

/-- Functions in SSA form as structured code. The condition of an if is a def. -/
def ssaMachine : Machine (Block SsaInstr) ℕ SsaState where
  label := Block.label
  jump := Block.jump
  run := runSsaBlock W
  cond c s := s.env c 0 != 0

/-- The state in which an invocation starts. -/
def SsaState.init : SsaState := ⟨fun _ => W.undef, W.vars, []⟩

end

/-- The defs that a block writes. -/
def Block.defs (b : Block SsaInstr) : List ℕ :=
  b.phis.map Phi.dest ++ b.instrs.filterMap SsaInstr.dest

variable {e d prev : ℕ} {ρ : Env} {phis : List Phi}

/-- The value of a def that the assignment does not write. -/
theorem Env.assign_of_ne (ρ : Env) {dest : Option ℕ} (v : Value) (h : dest ≠ some e) :
    ρ.assign dest v e = ρ e := by
  cases dest with
  | none => rfl
  | some d => exact Env.set_of_ne ρ v (fun hed => h (by rw [hed]))

/-- An assignment of one value keeps two environments equal where they are. -/
theorem Env.assign_congr {ρ' : Env} (dest : Option ℕ) (v : Value) (h : ρ' e = ρ e) :
    ρ'.assign dest v e = ρ.assign dest v e := by
  cases dest with
  | none => exact h
  | some d =>
    by_cases hed : e = d
    · simp [Env.assign, hed]
    · simp only [Env.assign, Env.set_of_ne _ v hed, h]

/-- An instruction that reads the same values does the same in two states with the same variables
and trace. -/
theorem SsaInstr.run_same (W : SsaWorld) (i i' : SsaInstr) {s s' : SsaState} (hop : i'.op = i.op)
    (hdest : i'.dest = i.dest) (hsrcs : i'.srcs.map s'.env = i.srcs.map s.env)
    (hvars : s'.vars = s.vars) (htrace : s'.trace = s.trace) :
    ∃ dest v vars trace stop, (dest = i.dest ∨ dest = none) ∧
      i.run W s = (⟨s.env.assign dest v, vars, trace⟩, stop) ∧
      i'.run W s' = (⟨s'.env.assign dest v, vars, trace⟩, stop) := by
  unfold SsaInstr.run
  rw [hop, hdest, hsrcs, hvars, htrace]
  cases i.op with
  | pure op | effect op | undef | loadVar var => exact ⟨i.dest, _, _, _, _, .inl rfl, rfl, rfl⟩
  | storeVar var value => exact ⟨none, W.undef, _, _, _, .inr rfl, rfl, rfl⟩

/-- An instruction changes no other value than the one it defines. -/
theorem SsaInstr.run_env (W : SsaWorld) (i : SsaInstr) (s : SsaState) (h : i.dest ≠ some d) :
    (i.run W s).1.env d = s.env d := by
  unfold SsaInstr.run
  cases i.op <;> first | rfl | exact Env.assign_of_ne _ _ h

/-- A def of none of the first phis is evaluated by the others. -/
theorem evalPhis_append_of_not_mem {phis' : List Phi} (h : d ∉ phis.map Phi.dest) :
    evalPhis (phis ++ phis') prev ρ d = evalPhis phis' prev ρ d := by
  have : phis.find? (fun φ => φ.dest == d) = none := by
    simp only [find?_eq_none, beq_iff_eq]
    exact fun φ hφ heq => h (mem_map.mpr ⟨φ, hφ, heq⟩)
  simp only [evalPhis, find?_append, this, Option.none_or]

/-- Phis change no other values than their own. -/
theorem evalPhis_of_not_mem (h : d ∉ phis.map Phi.dest) : evalPhis phis prev ρ d = ρ d := by
  rw [← append_nil phis]
  exact evalPhis_append_of_not_mem h

/-- A def of one of the first phis is evaluated by one of these. -/
theorem evalPhis_append_of_mem {phis' : List Phi} {v : Value} (h : ∃ φ ∈ phis, φ.dest = d)
    (hv : ∀ φ ∈ phis, φ.dest = d → φ.eval prev ρ = v) : evalPhis (phis ++ phis') prev ρ d = v := by
  obtain ⟨φ, hφ, hd⟩ := h
  cases hfind : phis.find? (fun φ => φ.dest == d) with
  | none =>
    rw [find?_eq_none] at hfind
    exact absurd (beq_iff_eq.mpr hd) (hfind φ hφ)
  | some ψ =>
    simp only [evalPhis, find?_append, hfind, Option.some_or]
    exact hv ψ (mem_of_find?_eq_some hfind) (by simpa using find?_some hfind)

/-- A source that is found is one of the sources. -/
theorem mem_of_lookup {srcs : List (ℕ × ℕ)} {p : ℕ} (h : srcs.lookup p = some e) :
    (p, e) ∈ srcs := by
  obtain ⟨l₁, l₂, rfl, -⟩ := lookup_eq_some_iff.mp h
  simp

/-- A source for a predecessor is found where there is one. -/
theorem lookup_of_mem {srcs : List (ℕ × ℕ)} {p : ℕ} (h : p ∈ srcs.map Prod.fst) :
    ∃ e, srcs.lookup p = some e := by
  cases hl : srcs.lookup p with
  | some e => exact ⟨e, rfl⟩
  | none =>
    obtain ⟨s, hs, rfl⟩ := mem_map.mp h
    simpa using lookup_eq_none_iff.mp hl s hs

/-- Sources that are renamed. -/
theorem lookup_renamed (τ : ℕ → ℕ → ℕ) (p : ℕ) : ∀ srcs : List (ℕ × ℕ),
    (srcs.map fun s => (s.1, τ s.1 s.2)).lookup p = (srcs.lookup p).map (τ p)
  | [] => rfl
  | (q, e) :: srcs => by
    simp only [map_cons, lookup_cons]
    by_cases hq : p = q
    · simp [hq]
    · simp only [beq_eq_false_iff_ne.mpr hq]
      exact lookup_renamed τ p srcs

/-- Phis that are changed evaluate to the same, when each of them does. -/
theorem evalPhis_map {g : Phi → Phi} {ρ' : Env} (hdest : ∀ φ, (g φ).dest = φ.dest)
    (heval : ∀ φ ∈ phis, φ.dest = d → (g φ).eval prev ρ' = φ.eval prev ρ) (hd : ρ' d = ρ d) :
    evalPhis (phis.map g) prev ρ' d = evalPhis phis prev ρ d := by
  simp only [evalPhis, find?_map, Function.comp_def, hdest]
  cases hfind : phis.find? (fun φ => φ.dest == d) with
  | none => exact hd
  | some φ => exact heval φ (mem_of_find?_eq_some hfind) (by simpa using find?_some hfind)

/-- Phis whose sources are renamed evaluate to the same, when the new names have the values of the
old ones. -/
theorem evalPhis_renamed {τ : ℕ → ℕ → ℕ} {ρ' : Env}
    (hsrcs : ∀ φ ∈ phis, ∀ e, (prev, e) ∈ φ.srcs → ρ' (τ prev e) = ρ e) (hd : ρ' d = ρ d) :
    evalPhis (phis.map fun φ => { φ with srcs := φ.srcs.map fun s => (s.1, τ s.1 s.2) }) prev ρ' d =
      evalPhis phis prev ρ d := by
  refine evalPhis_map (fun _ => rfl) (fun φ hφ hdest => ?_) hd
  simp only [Phi.eval, lookup_renamed]
  cases hl : φ.srcs.lookup prev with
  | none => simpa [hdest] using hd
  | some e => exact hsrcs φ hφ e (mem_of_lookup hl)

/-- Phis evaluate to the same, when their sources have the same values. -/
theorem evalPhis_congr {ρ' : Env} (hsrcs : ∀ φ ∈ phis, ∀ e ∈ φ.srcs,
    ρ' e.2 = ρ e.2) (hd : ρ' d = ρ d) :
    evalPhis phis prev ρ' d = evalPhis phis prev ρ d := by
  simpa using evalPhis_renamed (τ := fun _ e => e) (fun φ hφ e he => hsrcs φ hφ _ he) hd

/-- A block changes no other values than those it defines. -/
theorem runSsaBlock_env (W : SsaWorld) {b : Block SsaInstr} (h : d ∉ b.defs) (prev : ℕ)
    (s : SsaState) : (runSsaBlock W b prev s).1.env d = s.env d := by
  simp only [Block.defs, mem_append, not_or, mem_filterMap, not_exists, not_and] at h
  exact runInstrs_inv (P := fun t : SsaState => t.env d = s.env d)
    (fun i hi t ht => (SsaInstr.run_env W i t (h.2 i hi)).trans ht) (evalPhis_of_not_mem h.1)

end Mesa3D.Nir
