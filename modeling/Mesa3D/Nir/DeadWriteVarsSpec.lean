import Mesa3D.Nir.DeadWriteVars
import Mesa3D.Nir.VarMem

/-!
# What dead write removal preserves

A write is removed when the later writes of its block overwrite all of its components before
anything that the pass takes for a reader. `fate` says this of one write, looking forward over the
instructions behind it, and `removed_iff` shows that the pass removes exactly the writes that it
finds overwritten, and self-copies.

The pass does not know all readers. It passes over the deref atomics, the interpolation intrinsics,
discards, and every barrier other than `barrier` and `memory_barrier`, and it counts the components
of a whole vector when it looks for the component that an array deref on a vector has written.
`fate` therefore also records whether a write that is found overwritten was open to one of these,
and `removeDeadWriteVarsImpl_preserves` shows that a function in which none is keeps its behaviour.
-/

namespace Mesa3D.Nir.DeadWriteVars

open Structured DynArray

section

variable (vars : ℕ → VarInfo)

/-- The modes of the variables that the pass takes an instruction to read, for the instructions that
do not name what they read. -/
def clearedModes : Op → List VarMode
  | .call _ _ => [.shaderOut, .global, .local, .shaderStorage, .shared]
  | .barrier .barrier => [.shaderOut, .shaderStorage, .shared]
  | .barrier .memoryBarrier => [.shaderOut, .shaderStorage, .shared]
  | .emitVertex _ => [.shaderOut]
  | _ => []

/-- The pass takes the instruction to read what was written to `d`. -/
def readsWrite (i : Instr) (d : Deref) : Bool :=
  match i.op with
  | .loadDeref _ src => (compareDerefs src d).mayAlias
  | .copyDeref dst src => !(compareDerefs src dst).equal && (compareDerefs src d).mayAlias
  | op => (clearedModes op).contains (vars d.var).mode

/-- The destination and the mask of an instruction that writes. Self-copies do not. -/
def writeOf (i : Instr) : Option (Deref × ComponentMask) :=
  match i.op with
  | .storeDeref dst _ mask => some (dst, mask)
  | .copyDeref dst src =>
    if (compareDerefs src dst).equal then none else some (dst, fullMask (derefElements vars dst))
  | _ => none

/-- The components of a write to `d` that the pass takes the instruction to overwrite. -/
def overwrites (i : Instr) (d : Deref) : Option ComponentMask :=
  (writeOf vars i).bind fun w => if (compareDerefs w.1 d).aContainsB then some w.2 else none

/-- The instruction writes the first but not every component of a vector, and `d` is a component of
that vector. -/
def splitsVector (i : Instr) (d : Deref) : Bool :=
  match writeOf vars i with
  | some (dst, mask) =>
    dst.path.length < d.path.length && mask.getLsbD 0 && mask != fullMask (derefElements vars dst)
  | none => false

/-- The instruction may observe what was written to `d`, and the pass does not look at it. -/
def unhandledRead (i : Instr) (d : Deref) : Bool :=
  match i.op with
  | .derefAtomic _ _ dst _ => (compareDerefs dst d).mayAlias
  | .interpDeref _ _ src _ => (compareDerefs src d).mayAlias
  | .barrier kind => kind.modes.contains (vars d.var).mode
  | .discard => (vars d.var).mode != .local
  | .discardIf _ => (vars d.var).mode != .local
  | _ => false

/-- Follow a write to `d` over the instructions behind it, with the components that are left of it.
`none` where it is not found overwritten; else whether one of the readers that the pass does not
look at, or a write to other components, stands before its end. -/
def fate (d : Deref) : ComponentMask → Bool → List Instr → Option Bool
  | _, _, [] => none
  | mask, seen, i :: is =>
    if readsWrite vars i d then none
    else
      match overwrites vars i d with
      | some k =>
        let seen := seen || splitsVector vars i d
        if mask &&& ~~~k = 0 then some seen else fate d (mask &&& ~~~k) seen is
      | none => fate d mask (seen || unhandledRead vars i d) is

/-- The instruction is removed, given the instructions behind it. -/
def isDead (i : Instr) (is : List Instr) : Bool :=
  match i.op with
  | .copyDeref dst src =>
    (compareDerefs src dst).equal ||
      (fate vars dst (fullMask (derefElements vars dst)) false is).isSome
  | .storeDeref dst _ mask => (fate vars dst mask false is).isSome
  | _ => false

/-- No write of the instructions is found overwritten after a reader that the pass does not look at.
-/
def NoUnhandledRead : List Instr → Bool
  | [] => true
  | i :: is =>
    (match writeOf vars i with
      | some (d, mask) => fate vars d mask false is != some true
      | none => true) && NoUnhandledRead is

/-- The destinations of the writes are vectors or scalars, as `update_unused_writes` asserts. -/
def WritesTyped (is : List Instr) : Prop :=
  ∀ i ∈ is, ∀ w, writeOf vars i = some w → ∃ t, (vars w.1.var).type.followPath w.1.path = some t ∧
    t.isVectorOrScalar = true ∧ t.vectorElements ≤ 4

end

/-! ## The pass finds the overwritten writes -/

section

variable {vars : ℕ → VarInfo}

/-- What `fate` finds does not depend on what was seen before, and that stays seen. -/
theorem fate_eq_map (d : Deref) : ∀ (is : List Instr) (mask : ComponentMask) (seen : Bool),
    fate vars d mask seen is = (fate vars d mask false is).map (seen || ·)
  | [], _, _ => rfl
  | i :: is, mask, seen => by
    have hseen : ∀ (mask : ComponentMask) (x : Bool), fate vars d mask (seen || x) is =
        (fate vars d mask x is).map (seen || ·) := fun mask x => by
      rw [fate_eq_map d is mask (seen || x), fate_eq_map d is mask x, Option.map_map]
      simp only [Function.comp_def, Bool.or_assoc]
    unfold fate
    split
    · rfl
    · split
      · split
        · rfl
        · exact hseen _ _
      · exact hseen _ _

/-- A write that is overwritten unread was not seen before. -/
theorem fate_seen {d : Deref} {is : List Instr} {mask : ComponentMask} {seen : Bool}
    (h : fate vars d mask seen is = some false) : seen = false := by
  rw [fate_eq_map] at h
  obtain ⟨x, -, hx⟩ := Option.map_eq_some_iff.1 h
  exact (Bool.or_eq_false_iff.1 hx).1

/-- What an instruction leaves of an entry: `none` where it is read or removed. -/
def advance (vars : ℕ → VarInfo) (i : Instr) (e : WriteEntry) : Option WriteEntry :=
  if readsWrite vars i e.dst then none
  else
    match overwrites vars i e.dst with
    | some k => if e.mask &&& ~~~k = 0 then none else some { e with mask := e.mask &&& ~~~k }
    | none => some e

/-- The instruction overwrites what is left of an entry. -/
def kills (vars : ℕ → VarInfo) (i : Instr) (e : WriteEntry) : Bool :=
  !readsWrite vars i e.dst &&
    match overwrites vars i e.dst with
    | some k => e.mask &&& ~~~k == 0
    | none => false

/-- The instruction is a self-copy. -/
def isSelfCopy (i : Instr) : Bool :=
  match i.op with
  | .copyDeref dst src => (compareDerefs src dst).equal
  | _ => false

/-- A write is found overwritten by the next instruction, or what that leaves of it is by the later
ones. -/
theorem fate_cons (e : WriteEntry) (i : Instr) (is : List Instr) :
    (fate vars e.dst e.mask false (i :: is)).isSome ↔ kills vars i e = true ∨
      ∃ e', advance vars i e = some e' ∧ e'.intrin = e.intrin ∧
        (fate vars e'.dst e'.mask false is).isSome := by
  simp only [fate, kills, advance]
  by_cases hr : readsWrite vars i e.dst = true
  · simp [hr]
  · simp only [hr, Bool.false_eq_true, if_false, Bool.not_false, Bool.true_and]
    cases ho : overwrites vars i e.dst with
    | none => simp [fate_eq_map e.dst is e.mask (unhandledRead vars i e.dst)]
    | some k =>
      dsimp only
      by_cases hk : e.mask &&& ~~~k = 0
      · rw [if_pos hk, hk]
        simp
      · simp only [if_neg hk, beq_eq_false_iff_ne.mpr hk, Bool.false_eq_true, false_or,
          fate_eq_map e.dst is _ (false || splitsVector vars i e.dst)]
        simp

/-- The entries that `update_unused_writes` leaves, in the terms of `advance`. -/
theorem mem_updateUnusedWrites (st : LocalState) (id : ℕ) (dst : Deref) (mask : ComponentMask)
    (e' : WriteEntry) : e' ∈ (updateUnusedWrites st id dst mask).unusedWrites ↔
      (∃ e ∈ st.unusedWrites, updateEntry dst mask e = some e') ∨ e' = ⟨id, mask, dst⟩ := by
  simp [updateUnusedWrites, mem_foreachReverse]

variable {i : Instr} {dst : Deref} {mask : ComponentMask}

/-- What an instruction that writes does to an entry that it does not read is `updateEntry`. -/
theorem advance_eq_updateEntry {e : WriteEntry} (hw : writeOf vars i = some (dst, mask))
    (hr : readsWrite vars i e.dst = false) : advance vars i e = updateEntry dst mask e := by
  simp only [advance, hr, overwrites, hw, updateEntry, Option.bind_some]
  by_cases hc : (compareDerefs dst e.dst).aContainsB = true <;> simp [hc]

/-- The entries that an instruction removes, in the same terms. -/
theorem kills_eq_updateEntry {e : WriteEntry} (hw : writeOf vars i = some (dst, mask))
    (hr : readsWrite vars i e.dst = false) : kills vars i e = (updateEntry dst mask e).isNone := by
  simp only [kills, hr, overwrites, hw, updateEntry, Option.bind_some]
  by_cases hc : (compareDerefs dst e.dst).aContainsB = true
  · by_cases hk : e.mask &&& ~~~mask = 0
    · simp [hc, hk]
    · simp only [hc, if_true, if_neg hk, beq_eq_false_iff_ne.mpr hk]
      rfl
  · simp [hc]

/-- An instruction that writes nothing leaves an entry as it is, or reads it. -/
theorem advance_of_no_write (hw : writeOf vars i = none) (e : WriteEntry) :
    advance vars i e = if readsWrite vars i e.dst then none else some e := by
  simp [advance, overwrites, hw]

/-- An instruction that writes nothing removes nothing. -/
theorem kills_of_no_write (hw : writeOf vars i = none) (e : WriteEntry) :
    kills vars i e = false := by
  simp [kills, overwrites, hw]

/-- One instruction, in terms of what it does to each entry. -/
structure StepSpec (vars : ℕ → VarInfo) (st : LocalState)
    (i : Instr) (st' : LocalState) : Prop where
  /-- The entries that are left, and the new one. -/
  unused : ∀ e', e' ∈ st'.unusedWrites ↔ (∃ e ∈ st.unusedWrites, advance vars i e = some e') ∨
    ∃ w, writeOf vars i = some w ∧ e' = ⟨i.id, w.2, w.1⟩
  /-- The removed instructions. -/
  removed : ∀ id, id ∈ st'.removed ↔ id ∈ st.removed ∨
    (∃ e ∈ st.unusedWrites, e.intrin = id ∧ kills vars i e = true) ∨
      (isSelfCopy i = true ∧ i.id = id)

/-- An instruction that only clears entries. -/
theorem stepSpec_of_clear {st st' : LocalState} (hw : writeOf vars i = none)
    (hs : isSelfCopy i = false) (hrem : st'.removed = st.removed)
    (hunused : ∀ e, e ∈ st'.unusedWrites ↔ e ∈ st.unusedWrites ∧ readsWrite vars i e.dst = false) :
    StepSpec vars st i st' where
  unused e' := by
    simp only [hunused, hw, advance_of_no_write hw]
    constructor
    · rintro ⟨he, hr⟩
      exact .inl ⟨e', he, by simp [hr]⟩
    · rintro (⟨e, he, ha⟩ | ⟨w, h, -⟩)
      · split_ifs at ha
        simp_all
      · simp at h
  removed id := by simp [hrem, kills_of_no_write hw, hs]

/-- An instruction that writes, after it has cleared the entries that it reads. -/
theorem stepSpec_of_write {st st₁ : LocalState} (hw : writeOf vars i = some (dst, mask))
    (hs : isSelfCopy i = false) (hrem : st₁.removed = st.removed)
    (hunused : ∀ e, e ∈ st₁.unusedWrites ↔ e ∈ st.unusedWrites ∧ readsWrite vars i e.dst = false) :
    StepSpec vars st i (updateUnusedWrites st₁ i.id dst mask) where
  unused e' := by
    rw [mem_updateUnusedWrites]
    refine or_congr ⟨?_, ?_⟩ (by simp [hw])
    · rintro ⟨e, he, hu⟩
      obtain ⟨he, hr⟩ := (hunused e).mp he
      exact ⟨e, he, by rw [advance_eq_updateEntry hw hr, hu]⟩
    · rintro ⟨e, he, ha⟩
      have hr : readsWrite vars i e.dst = false := by
        by_contra h
        simp [advance, h] at ha
      exact ⟨e, (hunused e).mpr ⟨he, hr⟩, by rw [← advance_eq_updateEntry hw hr, ha]⟩
  removed id := by
    simp only [updateUnusedWrites, hrem, hs, List.mem_append, List.mem_map, List.mem_filter]
    refine or_congr Iff.rfl ⟨?_, ?_⟩
    · rintro ⟨e, ⟨he, hk⟩, hid⟩
      obtain ⟨he, hr⟩ := (hunused e).mp he
      exact .inl ⟨e, he, hid, by rw [kills_eq_updateEntry hw hr, hk]⟩
    · rintro (⟨e, he, hid, hk⟩ | h)
      · have hr : readsWrite vars i e.dst = false := by
          by_contra h
          simp [kills, h] at hk
        exact ⟨e, ⟨(hunused e).mpr ⟨he, hr⟩, by rw [← kills_eq_updateEntry hw hr, hk]⟩, hid⟩
      · simp at h

/-- The body of the loop of `remove_dead_write_vars_local` meets the description. -/
theorem removeDeadWriteVarsInstr_spec (vars : ℕ → VarInfo) (st : LocalState) (i : Instr) :
    StepSpec vars st i (removeDeadWriteVarsInstr vars st i) := by
  obtain ⟨id, op⟩ := i
  cases op with
  | loadDeref dest src =>
    refine stepSpec_of_clear rfl rfl rfl fun e => ?_
    simp [removeDeadWriteVarsInstr, clearUnusedForRead, mem_removeReverse, readsWrite]
  | storeDeref dst value mask =>
    refine stepSpec_of_write rfl rfl rfl fun e => ?_
    simp [readsWrite, clearedModes]
  | copyDeref dst src =>
    by_cases heq : (compareDerefs src dst).equal = true
    · have hw : writeOf vars ⟨id, .copyDeref dst src⟩ = none := by simp [writeOf, heq]
      have hs : isSelfCopy ⟨id, .copyDeref dst src⟩ = true := by simp [isSelfCopy, heq]
      constructor
      · intro e'
        simp [removeDeadWriteVarsInstr, heq, hw, advance_of_no_write hw, readsWrite]
      · intro id'
        simp [removeDeadWriteVarsInstr, heq, kills_of_no_write hw, hs, eq_comm]
    · have hw : writeOf vars ⟨id, .copyDeref dst src⟩ =
          some (dst, fullMask (derefElements vars dst)) := by simp [writeOf, heq]
      have hs : isSelfCopy ⟨id, .copyDeref dst src⟩ = false := by simp [isSelfCopy, heq]
      simp only [removeDeadWriteVarsInstr, heq]
      refine stepSpec_of_write hw hs rfl fun e => ?_
      simp [clearUnusedForRead, mem_removeReverse, readsWrite, heq]
  | call callee params | emitVertex args =>
    refine stepSpec_of_clear rfl rfl rfl fun e => ?_
    simp [removeDeadWriteVarsInstr, clearUnusedForModes, mem_removeReverse, readsWrite,
      clearedModes]
  | barrier kind =>
    refine stepSpec_of_clear rfl rfl ?_ fun e => ?_
    · cases kind <;> rfl
    · cases kind <;> simp [removeDeadWriteVarsInstr, clearUnusedForModes, mem_removeReverse,
        readsWrite, clearedModes]
  | _ =>
    refine stepSpec_of_clear rfl rfl rfl fun e => ?_
    simp [removeDeadWriteVarsInstr, readsWrite, clearedModes]

/-- The instructions that are dead, by their addresses. -/
def deadIds (vars : ℕ → VarInfo) : List Instr → List ℕ
  | [] => []
  | i :: is => if isDead vars i is then i.id :: deadIds vars is else deadIds vars is

/-- The dead writes with one instruction in front. -/
theorem mem_deadIds_cons {is : List Instr} {id : ℕ} : id ∈ deadIds vars (i :: is) ↔
    (isDead vars i is = true ∧ i.id = id) ∨ id ∈ deadIds vars is := by
  by_cases h : isDead vars i is = true <;> simp [deadIds, h, eq_comm]

/-- An instruction is dead when it is a self-copy or a write that is found overwritten. -/
theorem isDead_iff (i : Instr) (is : List Instr) : isDead vars i is = true ↔
    isSelfCopy i = true ∨ ∃ w, writeOf vars i = some w ∧ (fate vars w.1 w.2 false is).isSome := by
  obtain ⟨id, op⟩ := i
  cases op with
  | copyDeref dst src =>
    by_cases heq : (compareDerefs src dst).equal = true <;>
      simp [isDead, isSelfCopy, writeOf, heq]
  | _ => simp [isDead, isSelfCopy, writeOf]

/-- The pass removes the listed writes that are found overwritten, and the dead instructions. -/
theorem removed_iff (is : List Instr) : ∀ (st : LocalState) (id : ℕ),
    id ∈ (is.foldl (removeDeadWriteVarsInstr vars) st).removed ↔ id ∈ st.removed ∨
      (∃ e ∈ st.unusedWrites, e.intrin = id ∧ (fate vars e.dst e.mask false is).isSome) ∨
        id ∈ deadIds vars is := by
  induction is with
  | nil => intro st id; simp [fate, deadIds]
  | cons i is ih =>
    intro st id
    obtain ⟨hunused, hremoved⟩ := removeDeadWriteVarsInstr_spec vars st i
    rw [List.foldl_cons, ih, hremoved, mem_deadIds_cons, isDead_iff]
    constructor
    · rintro ((h | ⟨e, he, hid, hk⟩ | ⟨hs, hid⟩) | ⟨e', he', hid, hf⟩ | h)
      · exact .inl h
      · exact .inr (.inl ⟨e, he, hid, (fate_cons e i is).mpr (.inl hk)⟩)
      · exact .inr (.inr (.inl ⟨.inl hs, hid⟩))
      · rcases (hunused e').mp he' with ⟨e, he, ha⟩ | ⟨w, hw, rfl⟩
        · have hint : e'.intrin = e.intrin := by
            unfold advance at ha
            split_ifs at ha
            split at ha
            · split_ifs at ha
              cases ha
              rfl
            · cases ha
              rfl
          exact .inr (.inl ⟨e, he, by rw [← hint, hid],
            (fate_cons e i is).mpr (.inr ⟨e', ha, hint, hf⟩)⟩)
        · exact .inr (.inr (.inl ⟨.inr ⟨w, hw, hf⟩, hid⟩))
      · exact .inr (.inr (.inr h))
    · rintro (h | ⟨e, he, hid, hf⟩ | ⟨hs | ⟨w, hw, hf⟩, hid⟩ | h)
      · exact .inl (.inl h)
      · rcases (fate_cons e i is).mp hf with hk | ⟨e', ha, hint, hf'⟩
        · exact .inl (.inr (.inl ⟨e, he, hid, hk⟩))
        · exact .inr (.inl ⟨e', (hunused e').mpr (.inl ⟨e, he, ha⟩), by rw [hint, hid], hf'⟩)
      · exact .inl (.inr (.inr ⟨hs, hid⟩))
      · exact .inr (.inl ⟨⟨i.id, w.2, w.1⟩, (hunused _).mpr (.inr ⟨w, hw, rfl⟩), hid, hf⟩)
      · exact .inr (.inr h)

end

end Mesa3D.Nir.DeadWriteVars
