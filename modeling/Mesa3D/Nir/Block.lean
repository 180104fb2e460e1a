import Mesa3D.Structured.Tree

/-!
# Blocks of NIR

A `nir_block` has its phis first and at most one jump, which is its last instruction. Here these are
fields of their own, so that a phi behind another instruction, or an instruction behind a jump,
cannot be written down. The label names the block in the phis of its successors.
-/

namespace Mesa3D.Nir

open Structured

/-- The value of an SSA def: the bits of each component. -/
abbrev Value := ℕ → ℕ

/-- The values of the SSA defs. -/
abbrev Env := ℕ → Value

/-- The environment with one value changed. -/
def Env.set (ρ : Env) (d : ℕ) (v : Value) : Env := fun e => if e = d then v else ρ e

/-- The changed value. -/
@[simp] theorem Env.set_self (ρ : Env) (d : ℕ) (v : Value) : ρ.set d v d = v := by
  simp [Env.set]

/-- The other values. -/
theorem Env.set_of_ne (ρ : Env) {d e : ℕ} (v : Value) (h : e ≠ d) : ρ.set d v e = ρ e := by
  simp [Env.set, h]

/-- A `nir_phi_instr`. -/
structure Phi where
  /-- The def of the phi. -/
  dest : ℕ
  /-- The sources: a predecessor and the def that comes from it. -/
  srcs : List (ℕ × ℕ)
  deriving DecidableEq, Repr

/-- A `nir_block` with instructions of the type `I`. -/
structure Block (I : Type) where
  /-- The name of the block. -/
  label : ℕ
  /-- The phis. -/
  phis : List Phi
  /-- The other instructions. -/
  instrs : List I
  /-- The jump at the end. -/
  jump : Option Jump
  deriving DecidableEq, Repr

/-- The value that a phi takes when control comes from the block `prev`. A phi without a source for
that block keeps its old value. -/
def Phi.eval (φ : Phi) (prev : ℕ) (ρ : Env) : Value :=
  match φ.srcs.lookup prev with
  | some d => ρ d
  | none => ρ φ.dest

/-- The phis of a block read their sources before any of them is written. -/
def evalPhis (phis : List Phi) (prev : ℕ) (ρ : Env) : Env := fun d =>
  match phis.find? fun φ => φ.dest == d with
  | some φ => φ.eval prev ρ
  | none => ρ d

/-- Instructions one after the other, up to the one that ends the run. -/
def runInstrs {I S : Type} (run : I → S → S × Bool) : List I → S → S × Bool
  | [], s => (s, false)
  | i :: is, s =>
    let r := run i s
    if r.2 then r else runInstrs run is r.1

/-- Instructions keep a relation between two runs that each of them keeps. -/
theorem runInstrs_rel {I I' S S' : Type} {f : I → S → S × Bool} {g : I' →
    S' → S' × Bool} (τ : I → I')
    {R : S → S' → Prop} : ∀ {is : List I}, (∀ i ∈ is, ∀ s s', R s s' →
      (g (τ i) s').2 = (f i s).2 ∧ R (f i s).1 (g (τ i) s').1) → ∀ {s : S} {s' : S'}, R s s' →
        (runInstrs g (is.map τ) s').2 = (runInstrs f is s).2 ∧
          R (runInstrs f is s).1 (runInstrs g (is.map τ) s').1
  | [], _, _, _, h => ⟨rfl, h⟩
  | i :: is, his, s, s', h => by
    obtain ⟨hstop, h'⟩ := his i (by simp) s s' h
    simp only [List.map_cons, runInstrs, hstop]
    split
    · exact ⟨hstop, h'⟩
    · exact runInstrs_rel τ (fun j hj => his j (by simp [hj])) h'

/-- Instructions keep what each of them keeps. -/
theorem runInstrs_inv {I S : Type} {run : I → S → S × Bool} {P : S → Prop} {is : List I}
    (his : ∀ i ∈ is, ∀ s, P s → P (run i s).1) {s : S} (h : P s) : P (runInstrs run is s).1 := by
  refine (runInstrs_rel id (g := run) (R := fun s s' => s' = s ∧
    P s) (fun i hi s s' h => ?_) ⟨rfl, h⟩).2.2
  obtain ⟨rfl, h⟩ := h
  exact ⟨rfl, rfl, his i hi s' h⟩

/-- Two lists of instructions one after the other. -/
theorem runInstrs_append {I S : Type} {run : I → S → S × Bool} (js : List I) :
    ∀ (is : List I) (s : S),
    runInstrs run (is ++ js) s =
      if (runInstrs run is s).2 then runInstrs run is s else runInstrs run js (runInstrs run is s).1
  | [], _ => rfl
  | i :: is, s => by
    simp only [runInstrs, List.cons_append]
    split
    · simp
    · exact runInstrs_append js is _

/-- Instructions after others that do not end the run. -/
theorem runInstrs_append_of_false {I S : Type} {run : I → S → S × Bool} {is js : List I} {s s' : S}
    (h : runInstrs run is s = (s', false)) : runInstrs run (is ++ js) s = runInstrs run js s' := by
  rw [runInstrs_append, h]
  rfl

end Mesa3D.Nir
