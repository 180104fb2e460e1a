import Mesa3D.Nir.SsaSem
import Mesa3D.Structured.Edit

/-!
# What a list in SSA form does not look at

A list runs the same from two states that differ only in defs that it does not read and in variables
that it does not use (`exec_frame`), and it leaves alone what it does not write (`exec_env`).
-/

namespace Mesa3D.Nir

open Structured

/-- The variables that an operation uses. -/
def SsaOp.vars : SsaOp → List ℕ
  | .storeVar var _ => [var]
  | .loadVar var => [var]
  | _ => []

/-- The defs that the phis and the instructions of a block read. -/
def Block.reads (b : Block SsaInstr) : List ℕ :=
  (b.phis.flatMap fun φ => φ.srcs.map Prod.snd) ++ b.instrs.flatMap SsaInstr.srcs

/-- The variables that a block uses. -/
def Block.vars (b : Block SsaInstr) : List ℕ := b.instrs.flatMap fun i => i.op.vars

/-- Two states that differ in defs in `X` and in variables in `Y` only. -/
structure AgreeOff (X Y : ℕ → Prop) (s s' : SsaState) : Prop where
  /-- The same instructions have been observed. -/
  trace : s'.trace = s.trace
  /-- The other values agree. -/
  env : ∀ d, ¬ X d → s'.env d = s.env d
  /-- The other variables agree. -/
  vars : ∀ w, ¬ Y w → s'.vars w = s.vars w

section

variable {W : SsaWorld} {X Y : ℕ → Prop} {s s' : SsaState}

/-- An instruction that looks at nothing in `X` and `Y`. -/
theorem AgreeOff.instr (h : AgreeOff X Y s s') {i : SsaInstr} (hsrcs : ∀ d ∈ i.srcs, ¬ X d)
    (hvars : ∀ w ∈ i.op.vars, ¬ Y w) :
    (i.run W s').2 = (i.run W s).2 ∧ AgreeOff X Y (i.run W s).1 (i.run W s').1 := by
  have hargs : i.srcs.map s'.env = i.srcs.map s.env :=
    List.map_congr_left fun d hd => h.env d (hsrcs d hd)
  have hassign : ∀ v d, ¬ X d → s'.env.assign i.dest v d = s.env.assign i.dest v d :=
    fun v d hd => Env.assign_congr _ v (h.env d hd)
  unfold SsaInstr.run
  cases hop : i.op with
  | pure op =>
    rw [hargs]
    exact ⟨rfl, h.trace, hassign _, h.vars⟩
  | effect op =>
    rw [hargs, h.trace]
    exact ⟨rfl, rfl, hassign _, h.vars⟩
  | undef => exact ⟨rfl, h.trace, hassign _, h.vars⟩
  | storeVar var value =>
    refine ⟨rfl, h.trace, h.env, fun w hw => ?_⟩
    simp only [h.vars w hw]
  | loadVar var =>
    have hvar : s'.vars var = s.vars var := h.vars var (hvars var (by simp [SsaOp.vars, hop]))
    dsimp only
    rw [hvar]
    exact ⟨rfl, h.trace, hassign _, h.vars⟩

/-- Phis that read nothing in `X`. -/
theorem AgreeOff.phis (h : AgreeOff X Y s s') {phis : List Phi} (prev : ℕ)
    (hphis : ∀ φ ∈ phis, ∀ e ∈ φ.srcs, ¬ X e.2) :
    AgreeOff X Y { s with env := evalPhis phis prev s.env }
      { s' with env := evalPhis phis prev s'.env } :=
  ⟨h.trace, fun d hd => evalPhis_congr (fun φ hφ e he => h.env e.2 (hphis φ hφ e he)) (h.env d hd),
    h.vars⟩

/-- A block that looks at nothing in `X` and `Y`. -/
theorem AgreeOff.block (h : AgreeOff X Y s s') {b : Block SsaInstr} (prev : ℕ)
    (hreads : ∀ d ∈ b.reads, ¬ X d) (hvars : ∀ w ∈ b.vars, ¬ Y w) :
    (runSsaBlock W b prev s').2 = (runSsaBlock W b prev s).2 ∧
      AgreeOff X Y (runSsaBlock W b prev s).1 (runSsaBlock W b prev s').1 := by
  have hphis := h.phis prev fun φ hφ e he => hreads e.2 (List.mem_append_left _
    (List.mem_flatMap.mpr ⟨φ, hφ, List.mem_map.mpr ⟨e, he, rfl⟩⟩))
  have hinstrs := runInstrs_rel id (f := SsaInstr.run W) (g := SsaInstr.run W)
    (fun i hi s s' h => h.instr
    (fun d hd => hreads d (List.mem_append_right _ (List.mem_flatMap.mpr ⟨i, hi, hd⟩)))
    fun w hw => hvars w (List.mem_flatMap.mpr ⟨i, hi, hw⟩)) hphis
  rwa [List.map_id] at hinstrs

variable {l : CfList (Block SsaInstr) ℕ}

/-- A list runs the same from states that differ in what it does not look at. -/
theorem exec_frame (hreads : ∀ b ∈ l.blocks, ∀ d ∈ b.reads, ¬ X d)
    (hvars : ∀ b ∈ l.blocks, ∀ w ∈ b.vars, ¬ Y w) (hconds : ∀ c ∈ l.conds, ¬ X c) (n p : ℕ)
    (h : AgreeOff X Y s s') :
    (exec (ssaMachine W) n l p s').out = (exec (ssaMachine W) n l p s).out ∧
      AgreeOff X Y (exec (ssaMachine W) n l p s).st (exec (ssaMachine W) n l p s').st := by
  have hsim : Simulation (ssaMachine W) (ssaMachine W) (fun _ _ => True)
      (fun b b' => b ∈ l.blocks ∧ b' = b) (fun _ c c' => c ∈ l.conds ∧ c' = c)
      (fun _ _ s s' => AgreeOff X Y s s') := by
    refine ⟨fun b b' p s s' hb _ h => ?_, fun b c c' s s' hc h => ?_, fun _ _ _ h => h,
      fun _ _ _ h => h, fun _ _ _ h => h⟩
    · obtain ⟨hb, rfl⟩ := hb
      obtain ⟨hstop, h'⟩ := h.block (W := W) p (hreads _ hb) (hvars _ hb)
      refine ⟨rfl, ?_, h'⟩
      simp only [Machine.step, ssaMachine, hstop]
      rfl
    · obtain ⟨hc, rfl⟩ := hc
      simp only [ssaMachine, h.env _ (hconds _ hc)]
  exact (exec_lockstep hsim n l.same_self ⟨0, 0, 0, 0⟩ (fun _ _ => trivial) p s s' trivial h).1.2

/-- A list does not change the values of defs that it does not write. -/
theorem exec_env {d : ℕ} (hd : ∀ b ∈ l.blocks, d ∉ b.defs) (n p : ℕ) (s : SsaState) :
    (exec (ssaMachine W) n l p s).st.env d = s.env d := by
  have hsim : Simulation (ssaMachine W) (ssaMachine W) (fun _ _ => True)
      (fun b b' => b ∈ l.blocks ∧ b' = b) (fun _ c c' => c ∈ l.conds ∧ c' = c)
      (fun _ _ t t' => t' = t ∧ t.env d = s.env d) := by
    refine ⟨?_, fun b c c' t t' hc ht => by rw [hc.2, ht.1], fun _ _ _ h => h, fun _ _ _ h => h,
      fun _ _ _ h => h⟩
    rintro b _ p t _ ⟨hb, rfl⟩ - ⟨rfl, ht⟩
    exact ⟨rfl, rfl, rfl, (runSsaBlock_env W (hd _ hb) p _).trans ht⟩
  exact (exec_lockstep hsim n l.same_self ⟨0, 0, 0, 0⟩
    (fun _ _ => trivial) p s s trivial ⟨rfl, rfl⟩).1.2.2.2

/-- An instruction does not change variables that it does not use. -/
theorem SsaInstr.run_vars {i : SsaInstr} {w : ℕ} (h : w ∉ i.op.vars) (s : SsaState) :
    (i.run W s).1.vars w = s.vars w := by
  unfold SsaInstr.run
  cases hop : i.op with
  | storeVar var value =>
    have : w ≠ var := by simpa [SsaOp.vars, hop] using h
    simp [this]
  | pure op => rfl
  | effect op => rfl
  | undef => rfl
  | loadVar var => rfl

/-- A block does not change variables that it does not use. -/
theorem runSsaBlock_vars {b : Block SsaInstr} {w : ℕ} (h : w ∉ b.vars) (p : ℕ) (s : SsaState) :
    (runSsaBlock W b p s).1.vars w = s.vars w := by
  refine runInstrs_inv (P := fun t : SsaState => t.vars w = s.vars w) (fun i hi t ht => ?_) rfl
  have hw : w ∉ i.op.vars := fun hw => h (List.mem_flatMap.mpr ⟨i, hi, hw⟩)
  exact (SsaInstr.run_vars hw t).trans ht

end

end Mesa3D.Nir
