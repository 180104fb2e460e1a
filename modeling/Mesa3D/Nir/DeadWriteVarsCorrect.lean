import Mathlib.Data.List.Nodup
import Mathlib.Data.List.Pairwise
import Mesa3D.Nir.DeadWriteVarsSpec

/-!
# Dead write removal preserves runs

The two runs of a block, with and without the dead writes, are related by the removed writes that
the block has executed and not yet overwritten (`Pending`): the memories may differ on the cells of
these writes (`Stale`), and on nothing else. No instruction that is kept reads such a cell, since
none of the pending writes is open to a reader, and at the end of the block none is pending.
-/

namespace Mesa3D.Nir.DeadWriteVars

open Structured DynArray
open Bool (false_eq_true and_eq_true)
open Instr (run)
open Option (some.injEq)
open List

section

variable (vars : ℕ → VarInfo)

/-- The cells that a write of the components in the mask writes. -/
def WriteCell (ρ : ℕ → ℕ) (dst : Deref) (mask : ComponentMask) (v : ℕ) (p : List ℕ) : Bool :=
  dst.Names vars ρ v p && mask.getLsbD (component dst.path p)

/-- The cells of the pending writes. -/
def Stale (ρ : ℕ → ℕ) (P : List WriteEntry) (v : ℕ) (p : List ℕ) : Bool :=
  P.any fun e => WriteCell vars ρ e.dst e.mask v p

/-- The removed writes that are executed but not overwritten when the instructions `is` are left:
each is found overwritten before anything reads it, and its indices keep their values. -/
def Pending (is : List Instr) (P : List WriteEntry) : Prop :=
  ∀ e ∈ P, fate vars e.dst e.mask false is = some false ∧
    ∀ j ∈ is, ∀ d, j.op.dest = some d → d ∉ indexDefs e.dst.path

/-- The states of the two runs: `removed` are the removed instructions and `P` the pending
writes. -/
structure Agree (removed : ℕ → Bool) (P : List WriteEntry) (s s' : VarState) : Prop where
  /-- The SSA values are the same. -/
  env : s'.env = s.env
  /-- The instructions have observed the same. -/
  trace : s'.trace = s.trace
  /-- The remaining copies have observed the same. -/
  copies : s'.copies = s.copies.filter fun e => !removed e.id
  /-- The memories agree outside of the pending writes. -/
  mem : ∀ v p, Stale vars s.index P v p = false → s'.mem v p = s.mem v p

end

section

variable {W : World} {vars : ℕ → VarInfo} {i : Instr} {is : List Instr} {P : List WriteEntry}

variable {e : WriteEntry} {ρ : ℕ → ℕ} {v : ℕ} {p : List ℕ} {src : Deref} {w : Deref × ComponentMask}
  {f : CfList (Block Instr) ℕ}

/-- A pending write, looking at the next instruction: it is not read, not split, and not open to a
reader that the pass does not look at. -/
theorem fate_some_false (h : fate vars e.dst e.mask false (i :: is) = some false) :
    readsWrite vars i e.dst = false ∧
      (overwrites vars i e.dst = none → unhandledRead vars i e.dst = false) ∧
      (overwrites vars i e.dst ≠ none → splitsVector vars i e.dst = false) ∧
      ∀ e', advance vars i e = some e' →
        e'.dst = e.dst ∧ fate vars e'.dst e'.mask false is = some false := by
  simp only [fate] at h
  by_cases hr : readsWrite vars i e.dst = true
  · simp [hr] at h
  · simp only [hr, false_eq_true, if_false, Bool.false_or] at h
    refine ⟨by simpa using hr, ?_⟩
    cases ho : overwrites vars i e.dst with
    | none =>
      simp only [ho] at h
      have hu := fate_seen h
      refine ⟨fun _ => hu, by simp, fun e' ha => ?_⟩
      simp only [advance, hr, false_eq_true, if_false, ho] at ha
      cases ha
      exact ⟨rfl, by simpa [hu] using h⟩
    | some k =>
      simp only [ho] at h
      have hs : splitsVector vars i e.dst = false := by
        split at h
        · exact Option.some.inj h
        · exact fate_seen h
      refine ⟨by simp, fun _ => hs, fun e' ha => ?_⟩
      simp only [advance, hr, false_eq_true, if_false, ho] at ha
      split_ifs at ha with hk
      cases ha
      rw [if_neg hk, hs] at h
      exact ⟨rfl, h⟩

/-- What the next instruction leaves of the pending writes is pending behind it. -/
theorem Pending.advance (h : Pending vars (i :: is) P) :
    Pending vars is (P.filterMap (DeadWriteVars.advance vars i)) := by
  intro e' he'
  obtain ⟨e, he, ha⟩ := mem_filterMap.mp he'
  obtain ⟨hdst, hfate⟩ := (fate_some_false (h e he).1).2.2.2 e' ha
  refine ⟨hfate, fun j hj d hd => ?_⟩
  rw [hdst]
  exact (h e he).2 j (by simp [hj]) d hd

/-- Nothing is pending at the end of a block. -/
theorem Pending.nil (h : Pending vars [] P) : P = [] := by
  cases P with
  | nil => rfl
  | cons e P => simpa [fate] using (h e (by simp)).1

/-- A cell whose component an instruction clears from the mask of a write is a cell that it
writes. -/
theorem writeCell_of_overwrites {dst d : Deref} {k : ComponentMask}
    (hw : writeOf vars i = some (dst, k)) (hc : (compareDerefs dst d).aContainsB = true)
    (ht : WritesTyped vars [i]) (hs : splitsVector vars i d = false)
    (hd : d.Names vars ρ v p = true) (hk : k.getLsbD (component d.path p) = true) :
    WriteCell vars ρ dst k v p = true := by
  have hn := names_of_contains hc hd
  obtain ⟨t, hfollow, hvs, ht4⟩ := ht i (by simp) (dst, k) hw
  dsimp only at hfollow
  have hdst := names_iff.mp hn
  have hd' := names_iff.mp hd
  rw [hdst.1] at hdst
  have hcontains := hc
  unfold compareDerefs at hcontains
  rw [if_pos (compareDerefs_var hc)] at hcontains
  have hlen := comparePaths_length hcontains
  simp only [WriteCell, hn, Bool.true_and]
  by_cases heq : d.path.length ≤ dst.path.length
  · have : component dst.path p = component d.path p := by
      rw [component, component, Nat.le_antisymm hlen heq]
    rw [this, hk]
  · -- The destination is a vector and `d` one of its components.
    have h₁ := cell_length_le hfollow hvs hdst.2.1 hdst.2.2
    have hzero : component d.path p = 0 := by
      rw [component, drop_eq_nil_of_le (show p.length ≤ d.path.length by omega)]
      rfl
    have hlt : component dst.path p < t.vectorElements := component_lt hfollow hvs hdst.2.1 hdst.2.2
    rw [hzero] at hk
    have hfull : k = fullMask (derefElements vars dst) := by
      simp only [splitsVector, hw, hk, Bool.and_true, Bool.and_eq_false_iff,
        decide_eq_false_iff_not,
        bne_eq_false_iff_eq] at hs
      rcases hs with hs | hs
      · omega
      · exact hs
    rw [hfull]
    simp only [derefElements, hfollow]
    exact fullMask_getLsbD (by omega) hlt

/-- A stale cell stays stale behind an instruction that does not write it. -/
theorem stale_advance (hP : Pending vars (i :: is) P) (ht : WritesTyped vars [i]) (s : VarState)
    (h : Stale vars s.index P v p = true) :
    Stale vars (i.run W vars s).1.index (P.filterMap (advance vars i)) v p = true ∨
      ∃ w, writeOf vars i = some w ∧ WriteCell vars s.index w.1 w.2 v p = true := by
  simp only [Stale, any_eq_true] at h ⊢
  obtain ⟨e, he, hcell⟩ := h
  obtain ⟨hr, -, hs, -⟩ := fate_some_false (hP e he).1
  -- The instruction does not change the indices of the write.
  have hnames : e.dst.Names vars (i.run W vars s).1.index v p = e.dst.Names vars s.index v p := by
    refine names_congr (fun x hx => ?_) v p
    have hx' : i.op.dest ≠ some x := fun hd => (hP e he).2 i (by simp) x hd hx
    simp only [VarState.index, Instr.run_env W vars i s hx']
  simp only [WriteCell, and_eq_true] at hcell
  cases ho : overwrites vars i e.dst with
  | none =>
    refine .inl ⟨e, mem_filterMap.mpr ⟨e, he, ?_⟩, ?_⟩
    · simp [advance, hr, ho]
    · simp [WriteCell, hnames, hcell]
  | some k =>
    have ho' := ho
    simp only [overwrites, Option.bind_eq_some_iff] at ho'
    obtain ⟨w, hw, hk⟩ := ho'
    split_ifs at hk with hc
    cases hk
    by_cases hbit : w.2.getLsbD (component e.dst.path p) = true
    · exact .inr ⟨w, hw, writeCell_of_overwrites hw hc ht (hs (by simp [ho])) hcell.1 hbit⟩
    · -- The component is left in the mask of the write.
      have hleft : (e.mask &&& ~~~w.2).getLsbD (component e.dst.path p) = true := by
        rw [BitVec.getLsbD_and, BitVec.getLsbD_not, hcell.2, Bool.eq_false_iff.mpr hbit]
        simpa using BitVec.lt_of_getLsbD hcell.2
      have hne : e.mask &&& ~~~w.2 ≠ 0 := fun h0 => by simp [h0] at hleft
      refine .inl ⟨{ e with mask := e.mask &&& ~~~w.2 }, mem_filterMap.mpr ⟨e, he, ?_⟩, ?_⟩
      · simp only [advance, hr, false_eq_true, if_false, ho, if_neg hne]
      · simp only [WriteCell, hnames, hcell.1, hleft, Bool.and_true]

/-! ## One instruction -/

/-- Memories that agree where a view looks look the same. -/
theorem view_congr {m m' : Mem} {r : ℕ → List ℕ → Bool}
    (h : ∀ v p, r v p = true → m' v p = m v p) : m'.view r = m.view r := by
  funext v p
  unfold Mem.view
  split
  · exact h v p ‹_›
  · rfl

/-- A deref that aliases no pending write covers no stale cell. -/
theorem not_stale_of_disjoint (h : ∀ e ∈ P, (compareDerefs src e.dst).mayAlias = false)
    (hp : Covers ρ src.path p = true) : Stale vars ρ P src.var p = false := by
  simp only [Stale, any_eq_false, WriteCell, and_eq_true, not_and]
  intro e he hn
  simp [not_names_of_disjoint (h e he) rfl hp] at hn

/-- The variables of modes that no pending write has have no stale cell. -/
theorem not_stale_of_modes {modes : List VarMode}
    (h : ∀ e ∈ P, modes.contains (vars e.dst.var).mode = false)
    (hv : modes.contains (vars v).mode = true) : Stale vars ρ P v p = false := by
  simp only [Stale, any_eq_false, WriteCell, and_eq_true, not_and]
  intro e he hn
  rw [(names_iff.mp hn).1, h e he] at hv
  simp at hv

section

variable {removed : ℕ → Bool} {s s' : VarState}

section

variable (h : Agree vars removed P s s')
include h

/-- The indices have the same values in both runs. -/
theorem Agree.index : s'.index = s.index := by
  funext d
  simp only [VarState.index, h.env]

section

variable (hd : ∀ e ∈ P, (compareDerefs src e.dst).mayAlias = false)
include hd

/-- The memories agree on what a deref that aliases no pending write covers. -/
theorem Agree.mem_of_disjoint (p : List ℕ) (hp : Covers s.index src.path p = true) :
    s'.mem src.var p = s.mem src.var p := h.mem _ _ (not_stale_of_disjoint hd hp)

/-- Such a deref looks the same in both runs. -/
theorem Agree.view_of_disjoint :
    s'.mem.view (src.Names vars s'.index) = s.mem.view (src.Names vars s.index) := by
  rw [h.index]
  refine view_congr fun v p hv => ?_
  obtain ⟨rfl, hc, -⟩ := names_iff.mp hv
  exact h.mem_of_disjoint hd p hc

/-- Such a deref loads the same in both runs. -/
theorem Agree.load_of_disjoint : s'.mem.load vars s'.index src = s.mem.load vars s.index src := by
  rw [h.index]
  exact Mem.load_congr vars src (h.mem_of_disjoint hd)

end

/-- The variables of modes that no pending write has look the same in both runs. -/
theorem Agree.view_of_modes (modes : List VarMode)
    (hm : ∀ e ∈ P, modes.contains (vars e.dst.var).mode = false) :
    s'.mem.view (inModes vars modes) = s.mem.view (inModes vars modes) :=
  view_congr fun v p hv => h.mem v p (not_stale_of_modes hm hv)

end

/-- The states behind an instruction agree when they agree on its results, on the cells that were
not stale before it, and on those that it writes. -/
theorem agree_advance {r' : VarState} (hP : Pending vars (i :: is) P) (ht : WritesTyped vars [i])
    (henv : r'.env = (i.run W vars s).1.env) (htrace : r'.trace = (i.run W vars s).1.trace)
    (hcopies : r'.copies = (i.run W vars s).1.copies.filter fun e => !removed e.id)
    (hmem : ∀ v p, Stale vars s.index P v p = false ∨
      (∃ w, writeOf vars i = some w ∧ WriteCell vars s.index w.1 w.2 v p = true) →
        r'.mem v p = (i.run W vars s).1.mem v p) :
    Agree vars removed (P.filterMap (advance vars i)) (i.run W vars s).1 r' := by
  refine ⟨henv, htrace, hcopies, fun v p hv => hmem v p ?_⟩
  by_contra hcon
  simp only [not_or, Bool.not_eq_false] at hcon
  rcases stale_advance (W := W) hP ht s hcon.1 with h | h
  · rw [hv] at h
    simp at h
  · exact hcon.2 h

/-- An observation of what looks the same in both runs is the same event. -/
theorem Agree.observe_trace (h : Agree vars removed P s s') (id : ℕ) (args : List ℕ)
    {r r' : ℕ → List ℕ → Bool} (hv : s'.mem.view r' = s.mem.view r) :
    (s'.observe id args r').trace = (s.observe id args r).trace := by
  simp [VarState.observe, h.env, h.trace, hv]

/-- Both runs let the world change the variables of the modes in the same way. -/
theorem interfere_mem {t t' : VarState} (htrace : t'.trace = t.trace) (modes : List VarMode)
    (h : t'.mem v p = t.mem v p) :
    (t'.interfere W vars modes).mem v p = (t.interfere W vars modes).mem v p := by
  simp only [VarState.interfere, Mem.update, htrace]
  split <;> simp [h]

/-- The pending writes are not what a kept instruction reads: neither what the pass takes it to read
nor what the pass passes over. -/
theorem Pending.not_read (hP : Pending vars (i :: is) P) (he : e ∈ P) :
    readsWrite vars i e.dst = false := (fate_some_false (hP e he).1).1

/-- An instruction that writes nothing for the pass is no reader that the pass does not look at. -/
theorem Pending.not_unhandled (hP : Pending vars (i :: is) P) (hw : writeOf vars i = none)
    (he : e ∈ P) : unhandledRead vars i e.dst = false :=
  (fate_some_false (hP e he).1).2.1 (by simp [overwrites, hw])

/-- A write changes no other cells than its own. -/
theorem run_mem_of_not_writeCell (hw : writeOf vars i = some w) (ht : WritesTyped vars [i])
    (hv : WriteCell vars s.index w.1 w.2 v p = false) : (i.run W vars s).1.mem v p = s.mem v p := by
  obtain ⟨t, hfollow, hvs, ht4⟩ := ht i (by simp) w hw
  obtain ⟨id, op⟩ := i
  cases op with
  | storeDeref dst value mask =>
    cases hw
    simp only [run, Mem.store_apply]
    exact if_neg (by simpa [WriteCell] using hv)
  | copyDeref dst src =>
    simp only [writeOf] at hw
    split_ifs at hw
    cases hw
    simp only [run, Mem.copy_apply]
    refine if_neg fun hn => ?_
    -- A copy writes every component of its destination.
    obtain ⟨rfl, hc, hp⟩ := names_iff.mp hn
    have hlt := component_lt hfollow hvs hc hp
    have hbit : (fullMask (derefElements vars dst)).getLsbD (component dst.path p) = true := by
      simp only [derefElements, hfollow]
      exact fullMask_getLsbD (by omega) hlt
    simp [WriteCell, hn, hbit] at hv
  | _ => simp [writeOf] at hw

/-- The indices of the destination of a write are among what it uses. -/
theorem writeOf_uses (hw : writeOf vars i = some w) {d : ℕ} (hd : d ∈ indexDefs w.1.path) :
    d ∈ i.op.uses := by
  obtain ⟨id, op⟩ := i
  cases op with
  | storeDeref dst value mask =>
    cases hw
    simp [Op.uses, hd]
  | copyDeref dst src =>
    simp only [writeOf] at hw
    split_ifs at hw
    cases hw
    simp [Op.uses, hd]
  | _ => simp [writeOf] at hw

/-- The instructions that write define no SSA value and do not end the run. -/
theorem run_of_write (removed : ℕ → Bool) (hw : writeOf vars i = some w) (s : VarState) :
    (i.run W vars s).2 = false ∧ (i.run W vars s).1.env = s.env ∧
      (i.run W vars s).1.trace = s.trace ∧ (removed i.id = true →
        ((i.run W vars s).1.copies.filter fun e => !removed e.id) =
          s.copies.filter fun e => !removed e.id) := by
  obtain ⟨id, op⟩ := i
  cases op with
  | storeDeref dst value mask => exact ⟨rfl, rfl, rfl, fun _ => rfl⟩
  | copyDeref dst src => exact ⟨rfl, rfl, rfl, fun hr => by simp [run, hr]⟩
  | _ => simp [writeOf] at hw

section

variable (h : Agree vars removed P s s') (hP : Pending vars (i :: is) P) (ht : WritesTyped vars [i])
include h hP ht

/-- An instruction that is kept keeps the states of the two runs in agreement, and ends both runs or
none. -/
theorem step_kept (hkept : removed i.id = false) (hself : isSelfCopy i = false) :
    (i.run W vars s').2 = (i.run W vars s).2 ∧
      Agree vars removed (P.filterMap (advance vars i)) (i.run W vars s).1 (i.run W vars s').1 := by
  -- The cells that an instruction which writes nothing for the pass has to leave in agreement.
  have hstale : ∀ v p, (Stale vars s.index P v p = false ∨
      ∃ w, (none : Option (Deref × ComponentMask)) = some w ∧
        WriteCell vars s.index w.1 w.2 v p = true) → s'.mem v p = s.mem v p := by
    rintro v p (hv | ⟨w, hw, -⟩)
    · exact h.mem v p hv
    · simp at hw
  obtain ⟨id, op⟩ := i
  cases op with
  | loadDeref dest src =>
    have hd : ∀ e ∈ P, (compareDerefs src e.dst).mayAlias = false := fun e he => hP.not_read he
    refine ⟨rfl, agree_advance hP ht ?_ (h.observe_trace id [] (h.view_of_disjoint hd)) h.copies
      hstale⟩
    simp only [run, VarState.setDef, VarState.observe, h.env, h.load_of_disjoint hd]
  | storeDeref dst value mask =>
    refine ⟨rfl, agree_advance hP ht h.env h.trace h.copies fun v p hv => ?_⟩
    simp only [run, Mem.store_apply, h.index, h.env]
    split_ifs with hcell
    · rfl
    · rcases hv with hv | ⟨w, hw, hc⟩
      · exact h.mem v p hv
      · cases hw
        exact absurd hc hcell
  | copyDeref dst src =>
    simp only [isSelfCopy] at hself
    have hd : ∀ e ∈ P, (compareDerefs src e.dst).mayAlias = false := fun e he => by
      simpa [readsWrite, hself] using hP.not_read he
    refine ⟨rfl, agree_advance hP ht h.env h.trace ?_ fun v p hv => ?_⟩
    · simp [run, hkept, h.copies, h.view_of_disjoint hd]
    · simp only [run, Mem.copy_apply, h.index]
      split_ifs with hcell
      · exact h.mem_of_disjoint hd _ (covers_fillPath _ _ _)
      · rcases hv with hv | ⟨w, hw, hc⟩
        · exact h.mem v p hv
        · simp only [writeOf, hself, false_eq_true, if_false, some.injEq] at hw
          subst hw
          simp [WriteCell, hcell] at hc
  | derefAtomic op dest dst args =>
    have hd : ∀ e ∈ P, (compareDerefs dst e.dst).mayAlias = false :=
      fun e he => hP.not_unhandled rfl he
    refine ⟨rfl, agree_advance hP ht ?_ (h.observe_trace id args (h.view_of_disjoint hd)) h.copies
      fun v p hv => ?_⟩
    · simp only [run, h.env, h.load_of_disjoint hd]
    · simp only [run, h.env, h.load_of_disjoint hd]
      simp only [Mem.store_apply, h.index, hstale v p hv]
  | interpDeref op dest src args =>
    have hd : ∀ e ∈ P, (compareDerefs src e.dst).mayAlias = false :=
      fun e he => hP.not_unhandled rfl he
    have htrace := h.observe_trace id args (h.view_of_disjoint hd)
    refine ⟨rfl, agree_advance hP ht ?_ htrace h.copies hstale⟩
    simp only [run, VarState.setDef, htrace]
    rw [show (s'.observe id args _).env = s.env from h.env]
    rfl
  | call callee params =>
    have htrace := h.observe_trace id params (h.view_of_modes callModes fun e he => hP.not_read he)
    exact ⟨rfl, agree_advance hP ht h.env htrace h.copies
      fun v p hv => interfere_mem htrace callModes (hstale v p hv)⟩
  | barrier kind =>
    have htrace := h.observe_trace id [] (h.view_of_modes kind.modes fun e he =>
      hP.not_unhandled rfl he)
    exact ⟨rfl, agree_advance hP ht h.env htrace h.copies
      fun v p hv => interfere_mem htrace kind.modes (hstale v p hv)⟩
  | emitVertex args =>
    have htrace := h.observe_trace id args (h.view_of_modes [.shaderOut] fun e he => hP.not_read he)
    exact ⟨rfl, agree_advance hP ht h.env htrace h.copies
      fun v p hv => interfere_mem htrace [.shaderOut] (hstale v p hv)⟩
  | discard =>
    exact ⟨rfl, agree_advance hP ht h.env h.trace h.copies hstale⟩
  | discardIf cond =>
    refine ⟨?_, agree_advance hP ht h.env h.trace h.copies hstale⟩
    simp only [run, h.env]
  | vec dest srcs | alu op dest srcs =>
    refine ⟨rfl, agree_advance hP ht ?_ h.trace h.copies hstale⟩
    simp only [run, VarState.setDef, h.env]
  | other op dest srcs =>
    have htrace : (s'.observe id srcs fun _ _ => false).trace =
        (s.observe id srcs fun _ _ => false).trace :=
      h.observe_trace id srcs (view_congr fun v p hv => by simp at hv)
    cases dest with
    | none => exact ⟨rfl, agree_advance hP ht h.env htrace h.copies hstale⟩
    | some d =>
      refine ⟨rfl, agree_advance hP ht ?_ htrace h.copies hstale⟩
      simp only [run, VarState.setDef, htrace]
      rw [show (s'.observe id srcs _).env = s.env from h.env]
      rfl

/-- A self-copy that is removed has changed nothing. -/
theorem step_selfCopy (hrem : removed i.id = true) (hself : isSelfCopy i = true) :
    (i.run W vars s).2 = false ∧
      Agree vars removed (P.filterMap (advance vars i)) (i.run W vars s).1 s' := by
  obtain ⟨id, op⟩ := i
  cases op with
  | copyDeref dst src =>
    simp only [isSelfCopy] at hself
    have hw : writeOf vars ⟨id, .copyDeref dst src⟩ = none := by simp [writeOf, hself]
    refine ⟨rfl, agree_advance hP ht h.env h.trace ?_ fun v p hv => ?_⟩
    · simp [run, hrem, h.copies]
    · rw [hw] at hv
      simp only [run, compareDerefs_equal hself, Mem.copy_self]
      exact h.mem v p (by simpa using hv)
  | _ => simp [isSelfCopy] at hself

/-- A write that is removed becomes pending. -/
theorem step_removedWrite (hrem : removed i.id = true) (hw : writeOf vars i = some w) :
    (i.run W vars s).2 = false ∧
      Agree vars removed (⟨i.id, w.2, w.1⟩ :: P.filterMap (advance vars i))
        (i.run W vars s).1 s' := by
  obtain ⟨hout, henv, htrace, hcopies⟩ := run_of_write (W := W) removed hw s
  refine ⟨hout, by rw [henv, h.env], by rw [htrace, h.trace], by rw [hcopies hrem, h.copies],
    fun v p hv => ?_⟩
  simp only [Stale, any_cons, Bool.or_eq_false_iff] at hv
  have hindex : (i.run W vars s).1.index = s.index := by
    funext d
    simp only [VarState.index, henv]
  have hcell : WriteCell vars s.index w.1 w.2 v p = false := by rw [← hindex]; exact hv.1
  rw [run_mem_of_not_writeCell hw ht hcell]
  refine h.mem v p (Bool.eq_false_iff.mpr fun hst => ?_)
  rcases stale_advance (W := W) hP ht s hst with hst' | ⟨w', hw', hc⟩
  · simp [Stale, hv.2] at hst'
  · rw [hw, some.injEq] at hw'
    subst hw'
    simp [hcell] at hc

end

/-- Only a discard ends a run, and then every pending write is to a local variable. -/
theorem Pending.local_of_halt (hP : Pending vars (i :: is) P) (h : (i.run W vars s).2 = true) :
    ∀ e ∈ P, (vars e.dst.var).mode = .local := by
  intro e he
  obtain ⟨id, op⟩ := i
  cases op with
  | discard | discardIf cond => simpa [unhandledRead] using hP.not_unhandled rfl he
  | _ => simp [run] at h

end

/-! ## Blocks and functions -/

/-- The removed instructions are the dead ones. -/
def MarksDead (vars : ℕ → VarInfo) (removed : ℕ → Bool) : List Instr → Prop
  | [] => True
  | i :: is => removed i.id = isDead vars i is ∧ MarksDead vars removed is

/-- The states in which the two runs of a block, or of a list, are left. Where the run ended in a
discard, removed writes to local variables may not have been overwritten. -/
def Leaves (vars : ℕ → VarInfo) (removed : ℕ → Bool) (halted : Bool) (s s' : VarState) : Prop :=
  ∃ P : List WriteEntry, Agree vars removed P s s' ∧ (halted = false → P = []) ∧
    ∀ e ∈ P, (vars e.dst.var).mode = .local

/-- The instructions of a block without the dead ones run as all of them do. -/
theorem runInstrs_removed {removed : ℕ → Bool} (is : List Instr) : ∀ (P : List WriteEntry)
    (s s' : VarState), Agree vars removed P s s' → Pending vars is P → WritesTyped vars is →
      DefsBeforeUses is → NoUnhandledRead vars is = true → MarksDead vars removed is →
        let r := runInstrs (run W vars) is s
        let r' := runInstrs (run W vars) (is.filter fun i => !removed i.id) s'
        r'.2 = r.2 ∧ Leaves vars removed r.2 r.1 r'.1 := by
  induction is with
  | nil =>
    intro P s s' h hP _ _ _ _
    obtain rfl := hP.nil
    exact ⟨rfl, [], h, fun _ => rfl, by simp⟩
  | cons i is ih =>
    intro P s s' h hP ht hdefs hread hmarks
    obtain ⟨hdefs, hdefs'⟩ := hdefs
    obtain ⟨hmark, hmarks'⟩ := hmarks
    simp only [NoUnhandledRead, and_eq_true] at hread
    have hti : WritesTyped vars [i] := fun j hj => ht j (by simp_all)
    have ht' : WritesTyped vars is := fun j hj => ht j (by simp [hj])
    cases hrem : removed i.id with
    | false =>
      rw [hrem] at hmark
      have hself : isSelfCopy i = false := by
        by_contra hs
        simp [(isDead_iff i is).mpr (.inl (by simpa using hs))] at hmark
      obtain ⟨hout, hagree⟩ := step_kept (W := W) h hP hti hrem hself
      simp only [filter_cons, hrem, Bool.not_false, if_true, runInstrs, hout]
      split_ifs with hhalt
      · refine ⟨hout, P.filterMap (advance vars i), hagree, by simp [hhalt], fun e' he' => ?_⟩
        obtain ⟨e, he, ha⟩ := mem_filterMap.mp he'
        rw [((fate_some_false (hP e he).1).2.2.2 e' ha).1]
        exact hP.local_of_halt hhalt e he
      · exact ih _ _ _ hagree hP.advance ht' hdefs' hread.2 hmarks'
    | true =>
      rw [hrem] at hmark
      simp only [filter_cons, hrem, Bool.not_true, false_eq_true, if_false]
      rcases (isDead_iff i is).mp hmark.symm with hself | ⟨w, hw, hfate⟩
      · obtain ⟨hout, hagree⟩ := step_selfCopy (W := W) h hP hti hrem hself
        simp only [runInstrs, hout, false_eq_true, if_false]
        exact ih _ _ _ hagree hP.advance ht' hdefs' hread.2 hmarks'
      · obtain ⟨hout, hagree⟩ := step_removedWrite (W := W) h hP hti hrem hw
        simp only [runInstrs, hout, false_eq_true, if_false]
        refine ih _ _ _ hagree ?_ ht' hdefs' hread.2 hmarks'
        intro e he
        rcases mem_cons.mp he with rfl | he
        · refine ⟨?_, fun j hj d hd hmem => hdefs j hj d hd (writeOf_uses hw hmem)⟩
          have hne := hread.1
          rw [hw] at hne
          obtain ⟨b, hb⟩ := Option.isSome_iff_exists.mp hfate
          cases b <;> simp_all
        · exact hP.advance e he

/-- What the pass may assume of a function: the addresses of its instructions are distinct, its
blocks are in SSA form, and its writes are to vectors or scalars. -/
structure Valid (vars : ℕ → VarInfo) (f : CfList (Block Instr) ℕ) : Prop where
  /-- No two instructions have one address. -/
  ids : (f.blocks.flatMap fun b => b.instrs.map Instr.id).Nodup
  /-- No instruction defines what an instruction before it uses. -/
  ssa : ∀ b ∈ f.blocks, DefsBeforeUses b.instrs
  /-- The assertion of `update_unused_writes`. -/
  typed : ∀ b ∈ f.blocks, WritesTyped vars b.instrs

/-- The instructions that the pass removes from a function. -/
def removedFrom (vars : ℕ → VarInfo) (f : CfList (Block Instr) ℕ) (id : ℕ) : Bool :=
  f.blocks.any fun b => (removeDeadWriteVarsScan vars b.instrs).removed.contains id

/-- A dead instruction is an instruction. -/
theorem mem_ids_of_mem_deadIds {id : ℕ} : ∀ {is : List Instr}, id ∈ deadIds vars is →
    id ∈ is.map Instr.id
  | [], h => by simp [deadIds] at h
  | i :: is, h => by
    rcases mem_deadIds_cons.mp h with ⟨-, rfl⟩ | h
    · simp
    · exact mem_cons_of_mem _ (mem_ids_of_mem_deadIds h)

/-- Where no two instructions have one address, the addresses of the dead instructions mark these
only. -/
theorem marksDead_of_nodup {removed : ℕ → Bool} : ∀ {is : List Instr}, (is.map Instr.id).Nodup →
    (∀ i ∈ is, removed i.id = true ↔ i.id ∈ deadIds vars is) → MarksDead vars removed is
  | [], _, _ => trivial
  | i :: is, hnd, h => by
    simp only [map_cons, nodup_cons] at hnd
    refine ⟨?_, marksDead_of_nodup hnd.2 fun j hj => ?_⟩
    · have hi := h i (by simp)
      rw [mem_deadIds_cons, or_iff_left fun hmem => hnd.1 (mem_ids_of_mem_deadIds hmem)] at hi
      rw [Bool.eq_iff_iff, hi, and_iff_left rfl]
    · rw [h j (by simp [hj]), mem_deadIds_cons, or_iff_right]
      rintro ⟨-, hid⟩
      exact hnd.1 (hid ▸ mem_map_of_mem hj)

/-- The instructions that are removed from a block are its dead ones. -/
theorem mem_removed_iff (is : List Instr) (id : ℕ) :
    id ∈ (removeDeadWriteVarsScan vars is).removed ↔ id ∈ deadIds vars is := by
  simp [removeDeadWriteVarsScan, removed_iff]

/-- In a block of a valid function, an instruction is removed where the pass removes it from that
block. -/
theorem removedFrom_iff (hf : Valid vars f) {b : Block Instr} (hb : b ∈ f.blocks)
    (hi : i ∈ b.instrs) : removedFrom vars f i.id = true ↔ i.id ∈ deadIds vars b.instrs := by
  simp only [removedFrom, any_eq_true, contains_iff_mem, mem_removed_iff]
  refine ⟨fun ⟨b', hb', hmem⟩ => ?_, fun hmem => ⟨b, hb, hmem⟩⟩
  by_cases heq : b = b'
  · rwa [heq]
  · -- Blocks have no address in common.
    have hpair := (nodup_flatMap.mp hf.ids).2
    have : Std.Symm (Function.onFun List.Disjoint fun b : Block Instr => b.instrs.map Instr.id) :=
      ⟨fun _ _ h _ hx hx' => h hx' hx⟩
    have hdisj := hpair.forall hb hb' heq
    exact absurd (mem_ids_of_mem_deadIds hmem) (hdisj (mem_map_of_mem hi))

/-- A block without its dead writes runs as it did before. -/
theorem step_removeDeadWriteVarsLocal (hf : Valid vars f)
    (hu : ∀ b ∈ f.blocks, NoUnhandledRead vars b.instrs = true) {b : Block Instr}
    (hb : b ∈ f.blocks) (p : ℕ) {s s' : VarState} (h : Agree vars (removedFrom vars f) [] s s') :
    let r := runBlock W vars b p s
    let r' := runBlock W vars (removeDeadWriteVarsLocal vars b) p s'
    r'.2 = r.2 ∧ Leaves vars (removedFrom vars f) r.2 r.1 r'.1 := by
  have hiff := fun i hi => removedFrom_iff (i := i) hf hb hi
  have hnd : (b.instrs.map Instr.id).Nodup := (nodup_flatMap.mp hf.ids).1 b hb
  have hmarks := marksDead_of_nodup hnd hiff
  -- The filter of the block is the one of the whole function.
  have hfilter : (removeDeadWriteVarsLocal vars b).instrs =
      b.instrs.filter fun i => !removedFrom vars f i.id := by
    refine filter_congr fun i hi => ?_
    rw [Bool.not_inj_iff, Bool.eq_iff_iff, hiff i hi, contains_iff_mem, mem_removed_iff]
  simp only [runBlock, hfilter]
  refine runInstrs_removed b.instrs [] _ _ ?_ (by intro e he; simp at he) (hf.typed b hb)
    (hf.ssa b hb) (hu b hb) hmarks
  refine ⟨?_, h.trace, h.copies, fun v p _ => h.mem v p rfl⟩
  show evalPhis b.phis p s'.env = evalPhis b.phis p s.env
  rw [h.env]

/-- The blocks of a function and what the pass leaves of them simulate each other. -/
theorem simulation (hf : Valid vars f) (hu : ∀ b ∈ f.blocks, NoUnhandledRead vars b.instrs = true) :
    Simulation (varMachine W vars) (varMachine W vars) (fun _ _ => True)
      (fun b b' => b ∈ f.blocks ∧ b' = removeDeadWriteVarsLocal vars b) (fun _ c c' => c' = c)
      (fun o _ s s' => Leaves vars (removedFrom vars f) (o == .halt) s s') where
  step := by
    rintro b _ p s s' ⟨hb, rfl⟩ - ⟨P, h, hP, -⟩
    obtain rfl := hP rfl
    obtain ⟨hout, hleaves⟩ := step_removeDeadWriteVarsLocal (W := W) hf hu hb p h
    have hstep : ∀ b s, ((varMachine W vars).step b p s).out =
        if (runBlock W vars b p s).2 then .halt else Jump.outcome b.jump := fun _ _ => rfl
    refine ⟨rfl, ?_, ?_⟩
    · rw [hstep, hstep, hout]
      rfl
    · rw [hstep]
      cases hr : (runBlock W vars b p s).2
      · have hne : (Jump.outcome b.jump == .halt) = false := by
          rcases b.jump with _ | _ | _ | _ <;> rfl
        rw [hr] at hleaves
        simp only [false_eq_true, if_false, hne]
        exact hleaves
      · rw [hr] at hleaves
        exact hleaves
  cond := by
    rintro b c _ s s' rfl ⟨P, h, -, -⟩
    simp [varMachine, h.env]
  brk _ _ _ h := h
  cont _ _ _ h := h
  timeout _ _ _ h := h

/-- What two runs have in common: where and how they end, the SSA values, what the instructions and
the remaining copies have observed, and the variables. After a discard the variables are those that
are not local. -/
structure SameRun (vars : ℕ → VarInfo) (removed : ℕ → Bool) (r r' : Res VarState) : Prop where
  /-- The block in which the run ends. -/
  prev : r'.prev = r.prev
  /-- How it ends. -/
  out : r'.out = r.out
  /-- The SSA values. -/
  env : r'.st.env = r.st.env
  /-- What loads, atomics, interpolation, calls and barriers observed. -/
  trace : r'.st.trace = r.st.trace
  /-- What the copies that are left observed. -/
  copies : r'.st.copies = r.st.copies.filter fun e => !removed e.id
  /-- The contents of the variables. -/
  mem : ∀ v p, (vars v).mode ≠ .local ∨ r.out ≠ .halt → r'.st.mem v p = r.st.mem v p

/-- The pass only removes writes that nothing observes, where no write is found overwritten after a
reader that the pass does not look at. -/
theorem removeDeadWriteVarsImpl_preserves (W : World) (vars : ℕ → VarInfo)
    (f : CfList (Block Instr) ℕ) (hf : Valid vars f)
    (hu : ∀ b ∈ f.blocks, NoUnhandledRead vars b.instrs = true) (n p : ℕ) (env : Env) (mem : Mem) :
    SameRun vars (removedFrom vars f) (exec (varMachine W vars) n f p ⟨env, mem, [], []⟩)
      (exec (varMachine W vars) n (removeDeadWriteVarsImpl vars f) p ⟨env, mem, [], []⟩) := by
  have hsame := CfList.same_map (removeDeadWriteVarsLocal vars) id
    (fun b b' => b ∈ f.blocks ∧ b' = removeDeadWriteVarsLocal vars b) (fun _ c c' => c' = c) f
    (fun b hb => ⟨hb, rfl⟩) fun _ _ _ => rfl
  have hstart : Leaves vars (removedFrom vars f) false ⟨env, mem, [], []⟩ ⟨env, mem, [], []⟩ :=
    ⟨[], ⟨rfl, rfl, rfl, fun _ _ _ => rfl⟩, fun _ => rfl, by simp⟩
  obtain ⟨⟨hprev, hout, P, hagree, hnil, hlocal⟩, -⟩ :=
    exec_lockstep (simulation (W := W) hf hu) n hsame ⟨0, 0, 0, 0⟩ (fun _ _ => trivial) p _ _
      trivial hstart
  refine ⟨hprev, hout, hagree.env, hagree.trace, hagree.copies, fun v q hv => hagree.mem v q ?_⟩
  rcases hv with hv | hv
  · simp only [Stale, any_eq_false, WriteCell, and_eq_true, not_and]
    intro e he hn
    rw [(names_iff.mp hn).1] at hv
    exact absurd (hlocal e he) hv
  · rw [hnil (by simpa using hv)]
    rfl

end

/-! ## A dead write

`s = x; y = t; s = z;` on shared variables: nothing reads the first store. -/

/-- Shared scalars. -/
def sharedScalar : ℕ → VarInfo := fun _ => ⟨.shared, .scalar⟩

/-- A world in which atomics add. -/
def addWorld : World where
  alu _ _ := fun _ => 0
  atomic _ old args := old + (args.headD fun _ => 0) 0
  result _ := fun _ => 0
  mem _ := fun _ _ => 0

/-- A block that accesses shared scalars. -/
def sharedBlock (instrs : List Instr) : CfList (Block Instr) ℕ :=
  .last { label := 0, phis := [], instrs, jump := none }

/-- Writes of whole shared scalars are valid. -/
theorem valid_sharedBlock {is : List Instr} (hids : (is.map Instr.id).Nodup)
    (hssa : DefsBeforeUses is)
    (h : ∀ i ∈ is, ∀ w ∈ writeOf sharedScalar i, w.1.path = []) :
    Valid sharedScalar (sharedBlock is) where
  ids := by simpa [sharedBlock, CfList.blocks] using hids
  ssa := forall_mem_singleton.mpr hssa
  typed := forall_mem_singleton.mpr fun i hi w hw =>
    ⟨.scalar, by rw [h i hi w hw]; rfl, rfl, by decide⟩

/-- A store, a load of another variable, and a store behind it. -/
def storeLoadStore : List Instr :=
  [⟨0, .storeDeref ⟨0, []⟩ 10 1⟩, ⟨1, .loadDeref 12 ⟨1, []⟩⟩, ⟨2, .storeDeref ⟨0, []⟩ 11 1⟩]

/-- The function is valid. -/
theorem storeLoadStore_valid : Valid sharedScalar (sharedBlock storeLoadStore) :=
  valid_sharedBlock (by decide)
    (by simp [storeLoadStore, DefsBeforeUses, Op.dest, Op.uses, indexDefs]) (by decide)

/-- The pass removes the first store, and the function runs as before. -/
theorem storeLoadStore_preserved :
    removedFrom sharedScalar (sharedBlock storeLoadStore) 0 = true ∧
      SameRun sharedScalar (removedFrom sharedScalar (sharedBlock storeLoadStore))
        (exec (varMachine addWorld sharedScalar) 0 (sharedBlock storeLoadStore) 0
          ⟨fun _ _ => 1, fun _ _ => 7, [], []⟩)
        (exec (varMachine addWorld sharedScalar) 0
          (removeDeadWriteVarsImpl sharedScalar (sharedBlock storeLoadStore)) 0
          ⟨fun _ _ => 1, fun _ _ => 7, [], []⟩) :=
  ⟨by decide, removeDeadWriteVarsImpl_preserves addWorld sharedScalar _ storeLoadStore_valid
    (by decide) 0 0 _ _⟩

/-! ## A write that an atomic reads

`s = x; y = atomicAdd(s, x); s = z;` on a shared variable: the pass finds the first store
overwritten by the last one, and passes over the atomic between them. -/

/-- A store, an atomic on the variable, and a store behind it. -/
def storeAtomicStore : List Instr :=
  [⟨0, .storeDeref ⟨0, []⟩ 10 1⟩, ⟨1, .derefAtomic 0 12 ⟨0, []⟩ [10]⟩,
    ⟨2, .storeDeref ⟨0, []⟩ 11 1⟩]

/-- The function is valid. -/
theorem storeAtomicStore_valid : Valid sharedScalar (sharedBlock storeAtomicStore) :=
  valid_sharedBlock (by decide)
    (by simp [storeAtomicStore, DefsBeforeUses, Op.dest, Op.uses, indexDefs]) (by decide)

/-- The atomic finds the stored `1` before the pass, and after it the `7` that was in the variable
before the store. -/
theorem storeAtomicStore_observed :
    Valid sharedScalar (sharedBlock storeAtomicStore) ∧
      (exec (varMachine addWorld sharedScalar) 0 (sharedBlock storeAtomicStore) 0
        ⟨fun _ _ => 1, fun _ _ => 7, [], []⟩).st.env 12 0 = 1 ∧
      (exec (varMachine addWorld sharedScalar) 0
        (removeDeadWriteVarsImpl sharedScalar (sharedBlock storeAtomicStore)) 0
        ⟨fun _ _ => 1, fun _ _ => 7, [], []⟩).st.env 12 0 = 7 :=
  ⟨storeAtomicStore_valid, by decide, by decide⟩

end Mesa3D.Nir.DeadWriteVars
