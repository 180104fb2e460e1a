import Mesa3D.Nir.LargeConstantsData
import Mesa3D.Nir.VarMem

/-!
# Moving constant variables to constant data keeps what loads return

The two shaders run in lockstep, and agree on everything but the variables that are moved (`Agree`).
For these the original shader holds in its memory what the constant data holds, once the stores that
are still to come in the first block are carried out (`Pending`). The scan has made sure that no
store to such a variable is left where it is read.

What a variable holds that nothing has been stored to is undefined. The lowered shader finds zero
there, or what stands behind the region of the variable, so the original shader is started with
these contents (`resolve`).
-/

namespace Mesa3D.Nir.LargeConstants

open Structured Layout Option List

section

variable {X : Type} (sh : Shader) (sizeAlign : SizeAlign) (threshold : BitVec 32)

/-- The states agree on everything but the variables that are moved. -/
structure Agree (s s' : State X) : Prop where
  /-- The defs agree. -/
  env : s'.env = s.env
  /-- The outside agrees. -/
  ext : s'.ext = s.ext
  /-- The values loaded so far agree. -/
  loads : s'.loads = s.loads
  /-- The variables that were not moved agree. -/
  mem : ∀ v, sh.moved sizeAlign threshold v = false → s'.mem v = s.mem v

/-- What the constant data holds for the component `c` of the vector `p` of a variable. -/
def image (v : ℕ) (p : List ℕ) (c : ℕ) : ℕ :=
  match sh.location sizeAlign threshold v with
  | some location => imageAt sh sizeAlign (sh.constantData sizeAlign threshold) location v p c
  | none => 0

/-- A variable after a store. -/
def applyStore (m : List ℕ → ℕ → ℕ) (st : ConstStore) : List ℕ → ℕ → ℕ := fun p c =>
  if st.path = p ∧ st.mask.getLsbD c then st.value c else m p c

/-- The variables that are moved hold what the constant data holds once the stores of some
instructions are carried out. -/
def Pending (is : List Inst) (m : Mem) : Prop :=
  ∀ v, sh.moved sizeAlign threshold v = true → ∀ p c, c < components (sh.vars v).type p →
    (storesIn sh v is).foldl applyStore (m v) p c = image sh sizeAlign threshold v p c

end

variable {p : List ℕ} {c v : ℕ} {ρ : ℕ → ℕ} {src dst : Deref} {is : List Inst} {m : Mem} {I : Type}
  {value : Value} {mask : ComponentMask} {firstBlock : Bool}

/-- Stores depend on what they overwrite component by component. -/
theorem foldl_applyStore_congr {m m' : List ℕ → ℕ →
    ℕ} (sts : List ConstStore) (h : m p c = m' p c) :
    sts.foldl applyStore m p c = sts.foldl applyStore m' p c := by
  induction sts generalizing m m' with
  | nil => exact h
  | cons st sts ih =>
    refine ih ?_
    unfold applyStore
    rw [h]

/-! ### Paths -/

/-- Direct chains do not depend on SSA values. -/
theorem fillPath_of_direct {path : List Link} (h : hasIndirect path = false) (ρ ρ' : ℕ → ℕ)
    (ws : List ℕ) : fillPath ρ path ws = fillPath ρ' path ws := by
  induction path generalizing ws with
  | nil => rfl
  | cons l ls ih =>
    cases l with
    | array i =>
      cases i with
      | const value => simp only [fillPath, Index.eval, ih h]
      | ssa d => simp [hasIndirect] at h
    | struct k | arrayWildcard => simp only [fillPath, ih h]

/-- A chain without wildcards that leads to a vector covers that vector only. -/
theorem eq_fillPath_of_covers {t : Glsl.GlslType} {path : List Link} {base : Glsl.GlslBaseType}
    {rows : ℕ} (hw : .arrayWildcard ∉ path) (hn : noVectorLink t path)
    (hu : derefType t path = some (.numeric base rows 1))
    (hp : Glsl.naturalPlacing.inBounds t p = true) (h : Covers ρ path p = true) :
    p = fillPath ρ path [] := by
  induction path generalizing t p with
  | nil =>
    obtain rfl : t = .numeric base rows 1 := some.inj hu
    cases p with
    | nil => rfl
    | cons i p =>
      obtain ⟨hi, -⟩ := Placing.inBounds_cons hp
      exact absurd hi (Nat.not_lt_zero i)
  | cons l ls ih =>
    obtain ⟨hl, hls⟩ := not_or.mp (mt mem_cons.mpr hw)
    obtain ⟨w, hw', hu'⟩ := bind_eq_some_iff.mp hu
    cases p with
    | nil => cases h
    | cons i p =>
      simp only [Covers, Bool.and_eq_true] at h
      have hi : i = linkNumber ρ l := by
        cases l with
        | array x | struct k => simpa [Link.Selects, linkNumber] using h.1
        | arrayWildcard => exact absurd rfl hl
      subst hi
      obtain ⟨-, v, hv, hp'⟩ := Placing.inBounds_cons hp
      obtain rfl : w = v := some.inj ((part_linkNumber ρ hn.1 hw').symm.trans hv)
      rw [fillPath_cons (fun h => hl h.symm), ← ih hls (hn.2 w hw') hu' hp' h.2]

/-- The vector that a copy of one vector reads. -/
theorem copyCell_fillPath (dst : List Link) {src : List Link} (hs : .arrayWildcard ∉ src)
    (ρ : ℕ → ℕ) :
    copyCell ρ dst src (fillPath ρ dst []) = fillPath ρ src [] := by
  have hfill : ∀ ws, fillPath ρ src ws = fillPath ρ src [] := by
    intro ws
    induction src generalizing ws with
    | nil => rfl
    | cons l ls ih =>
      obtain ⟨hl, hls⟩ := not_or.mp (mt mem_cons.mpr hs)
      cases l with
      | array x | struct k => simp only [fillPath, ih hls ws]
      | arrayWildcard => exact absurd rfl hl
  have hlen : ∀ (ls : List Link) (ws : List ℕ), (fillPath ρ ls ws).length = ls.length := by
    intro ls
    induction ls with
    | nil => intro ws; rfl
    | cons l ls ih =>
      intro ws
      cases l <;> simp [fillPath, ih]
  rw [copyCell, hfill, drop_eq_nil_of_le (hlen dst []).le, append_nil]

/-! ### Instructions -/

section

variable {X : Type} {sh : Shader} {sizeAlign : SizeAlign} {threshold : BitVec 32}
  {s s' : State X}

/-- The states use the same indices. -/
theorem Agree.index (h : Agree sh sizeAlign threshold s s') : s'.index = s.index := by
  unfold State.index
  rw [h.env]

/-- A variable that is moved is local. -/
theorem mode_of_moved (hv : sh.Valid) (h : sh.moved sizeAlign threshold v = true) :
    (sh.vars v).mode = .local := by
  simp only [Shader.moved, Bool.and_eq_true, decide_eq_true_eq] at h
  exact hv.mode v h.1

/-- The load that replaces one returns what the constant data holds for the vector. -/
theorem value_constantLoadOf {location : BitVec 32} (ρ : ℕ → ℕ)
    (hloc : sh.location sizeAlign threshold src.var = some location) (hd : sh.vectorDeref src)
    (hf : noFieldOffset (sh.vars src.var).type src.path) (c : ℕ) :
    (constantLoadOf sh sizeAlign location src).value (sh.constantData sizeAlign threshold)
        ((constantLoadOf sh sizeAlign location src).offset.eval ρ) c =
      if c < components (sh.vars src.var).type (fillPath ρ src.path []) then
        image sh sizeAlign threshold src.var (fillPath ρ src.path []) c
      else 0 := by
  obtain ⟨hw, hn, u, hu, hvec⟩ := hd
  obtain ⟨base, rows, rfl, -, -⟩ := isNirVector_cases hvec
  have hpart := partAt_fillPath ρ hw hn hu
  have hoff : (constantLoadOf sh sizeAlign location src).offset.eval ρ =
      Glsl.pathOffset (sh.vars src.var).type (fillPath ρ src.path []) := by
    show (nirBuildDerefOffset _ _).eval ρ = _
    have heval := eval_buildDerefOffsetFrom ρ hw hn hu (.immInt 0)
    rw [memberOffsets_eq_zero hf] at heval
    simpa [Offset.eval, nirBuildDerefOffset] using heval
  have hcomp : components (sh.vars src.var).type (fillPath ρ src.path []) = rows := by
    simp [components, hpart]
  have hload : constantLoadOf sh sizeAlign location src = buildConstantLoad sh sizeAlign src.var
      location (.numeric base rows 1) (nirBuildDerefOffset (sh.vars src.var).type src.path) := by
    simp [constantLoadOf, hu]
  rw [hoff, hcomp, image, hloc]
  dsimp only
  rw [imageAt, hpart, hload]
  by_cases hc : c < rows
  · rw [if_pos hc]
    rfl
  · rw [if_neg hc]
    simp [ConstantLoad.value, buildConstantLoad, Glsl.GlslType.vectorElements, hc]

/-- Where no store is left, a variable that is moved holds what the constant data holds. -/
theorem Pending.eq_image (h : Pending sh sizeAlign threshold is m)
    (hm : sh.moved sizeAlign threshold v = true) (hno : storesIn sh v is = [])
    (hc : c < components (sh.vars v).type p) : m v p c = image sh sizeAlign threshold v p c := by
  have := h v hm p c hc
  rwa [hno] at this

/-- The stores left depend on the variables that are moved only. -/
theorem Pending.congr {m' : Mem} (h : Pending sh sizeAlign threshold is m)
    (heq : ∀ v, sh.moved sizeAlign threshold v = true → m' v = m v) :
    Pending sh sizeAlign threshold is m' := by
  intro v hm p c hc
  rw [heq v hm]
  exact h v hm p c hc

/-- An instruction that stores no constant leaves the stores to come. -/
theorem Pending.cons {i : Inst} (h : Pending sh sizeAlign threshold (i :: is) m)
    (hi : ∀ v, sh.moved sizeAlign threshold v = true → storeTo? sh v i = none) :
    Pending sh sizeAlign threshold is m := by
  intro v hm p c hc
  have := h v hm p c hc
  rwa [storesIn, filterMap_cons, hi v hm] at this

variable (sh sizeAlign threshold) in
/-- After an instruction and those in its place the states agree, and only the stores of the
instructions that follow are left. -/
structure StepOk (is : List Inst) (r r' : State X × Bool) : Prop where
  /-- Both stop or go on. -/
  stop : r'.2 = r.2
  /-- The states agree. -/
  agree : Agree sh sizeAlign threshold r.1 r'.1
  /-- What is to be stored before it is loaded. -/
  pending : Pending sh sizeAlign threshold is r.1.mem

variable {W : World X} {is : List Inst} {data : ByteMem}

variable (sh sizeAlign threshold W) in
/-- An instruction does from one state what those in its place do from the other. -/
def InstOk (is : List Inst) (i : Inst) (s s' : State X) : Prop :=
  StepOk sh sizeAlign threshold is (i.run sh.vars W s)
    (runInstrs (fun i s => i.run sh.vars W (sh.constantData sizeAlign threshold) s)
      (lowerInst sh sizeAlign threshold i) s')

/-- One instruction in the place of one. -/
theorem runInstrs_singleton {S : Type} (run : I → S → S × Bool) (i : I) (s : S) :
    runInstrs run [i] s = run i s := by
  simp only [runInstrs]
  split_ifs with h
  · rfl
  · exact Prod.ext rfl (by simpa using h)

/-- A store does not change other variables. -/
theorem store_of_ne {vars : ℕ → Variable} (h : dst.var ≠ v) :
    m.store vars ρ dst value mask v = m v := by
  unfold Mem.store
  funext p c
  rw [if_neg fun hc => h hc.1.symm]

/-- A direct store of a constant in bounds. -/
theorem store_const {env : Env} (hdirect : hasIndirect dst.path = false) {st : ConstStore}
    (hst : storeTo? sh dst.var (.storeDeref dst (.const value) mask) = some st)
    (hin : Glsl.naturalPlacing.inBounds (sh.vars dst.var).type st.path = true) (p : List ℕ)
    (hc : c < components (sh.vars dst.var).type p) :
    m.store sh.vars ρ dst ((Src.const value).eval env
        (bitSizeAt (sh.vars dst.var).type (fillPath ρ dst.path []))) mask dst.var p c =
      applyStore (m dst.var) st p c := by
  have hst' : (⟨fillPath (fun _ => 0) dst.path [], fun c => value c %
      2 ^ bitSizeAt (sh.vars dst.var).type
        (fillPath (fun _ => 0) dst.path []), mask⟩ : ConstStore) =
        st := by simpa [storeTo?] using hst
  subst hst'
  rw [fillPath_of_direct hdirect ρ (fun _ => 0) []]
  unfold Mem.store applyStore Src.eval
  rw [fillPath_of_direct hdirect ρ (fun _ => 0) []]
  dsimp only at hin ⊢
  by_cases hp : p = fillPath (fun _ => 0) dst.path []
  · subst hp
    simp [hin, hc]
  · rw [if_neg fun h => hp h.2.1, if_neg fun h => hp h.1.symm]

/-- A copy of one vector is a store of what it reads. -/
theorem copy_eq_store {m' : Mem} {base : Glsl.GlslBaseType} {rows : ℕ} (hrows : rows ≤ 4)
    (hd : .arrayWildcard ∉ dst.path) (hn : noVectorLink (sh.vars dst.var).type dst.path)
    (hs : .arrayWildcard ∉ src.path)
    (hu : derefType (sh.vars dst.var).type dst.path = some (.numeric base rows 1))
    (hvalue : ∀ c < rows, value c = m src.var (fillPath ρ src.path []) c) (hm : m' v = m v) :
    m'.store sh.vars ρ dst value (fullMask rows) v = m.copy sh.vars ρ dst src v := by
  funext p c
  unfold Mem.store Mem.copy
  have hpart := partAt_fillPath ρ hd hn hu
  by_cases hcopy : v = dst.var ∧ Covers ρ dst.path p = true ∧
      Glsl.naturalPlacing.inBounds (sh.vars v).type p = true ∧ c < components (sh.vars v).type p
  · rw [if_pos hcopy]
    obtain ⟨rfl, hcov, hin, hc⟩ := hcopy
    obtain rfl := eq_fillPath_of_covers hd hn hu hin hcov
    have hc' : c < rows := by simpa [components, hpart] using hc
    rw [if_pos ⟨rfl, rfl, hin, hc, fullMask_getLsbD (by omega) hc'⟩,
      copyCell_fillPath _ hs, hvalue c hc']
  · rw [if_neg hcopy, if_neg, hm]
    rintro ⟨rfl, rfl, hin, hc, -⟩
    have hcov := covers_fillPath (ρ := ρ) dst.path [] []
    rw [append_nil] at hcov
    exact hcopy ⟨rfl, hcov, hin, hc⟩

/-- A copy does not change other variables. -/
theorem copy_of_ne {vars : ℕ → Variable} (h : dst.var ≠ v) : m.copy vars ρ dst src v = m v := by
  unfold Mem.copy
  funext p c
  rw [if_neg fun hc => h hc.1.symm]

/-- Nothing is stored to a variable that is not written. -/
theorem storesIn_eq_nil (h : ∀ i ∈ is, ∀ dst, i.dst? = some dst → dst.var ≠ v) :
    storesIn sh v is = [] := by
  rw [storesIn, filterMap_eq_nil_iff]
  intro i hi
  cases i with
  | storeDeref dst value mask =>
    have hne := h _ hi dst rfl
    cases value <;> simp [storeTo?, hne]
  | _ => rfl

variable (sh sizeAlign threshold) in
/-- What holds behind instructions and those in their place. -/
structure RunOk (r r' : State X × Bool) : Prop where
  /-- Both stop or go on. -/
  stop : r'.2 = r.2
  /-- The states agree. -/
  agree : Agree sh sizeAlign threshold r.1 r'.1
  /-- At the end nothing is left to be stored. -/
  pending : r.2 = false → Pending sh sizeAlign threshold [] r.1.mem

section

variable (hv : sh.Valid) (ha : Agree sh sizeAlign threshold s s')
include hv ha

section

variable (hp : Pending sh sizeAlign threshold is s.mem)
include hp

/-- Another instruction does not see the variables that are moved. -/
theorem stepOk_other {op : ℕ} {dest : Option ℕ} {srcs : List ℕ} :
    InstOk sh sizeAlign threshold W is (.other op dest srcs) s s' := by
  have hview : s'.mem.nonLocal sh.vars = s.mem.nonLocal sh.vars := by
    funext v p c
    unfold Mem.nonLocal
    split_ifs with hmode
    · rfl
    · have hm : sh.moved sizeAlign threshold v = false :=
        Bool.eq_false_iff.mpr fun h => hmode (mode_of_moved hv h)
      rw [ha.mem v hm]
  simp only [InstOk, lowerInst, runInstrs_singleton]
  have hres : W.other op (srcs.map s'.env) (s'.mem.nonLocal sh.vars) s'.ext =
      W.other op (srcs.map s.env) (s.mem.nonLocal sh.vars) s.ext := by
    rw [hview, ha.env, ha.ext]
  refine ⟨?_, ⟨?_, ?_, ha.loads, fun v hv' => ?_⟩, hp.congr fun v hv' => ?_⟩
  · show (W.other _ _ _ _).2.2.2 = (W.other _ _ _ _).2.2.2
    rw [hres]
  · show (dest.map fun d => s'.env.set d (W.other _ _ _ _).1).getD s'.env =
      (dest.map fun d => s.env.set d (W.other _ _ _ _).1).getD s.env
    rw [hres, ha.env]
  · show (W.other _ _ _ _).2.2.1 = (W.other _ _ _ _).2.2.1
    rw [hres]
  · funext p c
    show (if _ then s'.mem v p c else (W.other _ _ _ _).2.1 v p c) =
      if _ then s.mem v p c else (W.other _ _ _ _).2.1 v p c
    rw [hres, ha.mem v hv']
  · funext p c
    exact if_pos (mode_of_moved hv hv')

variable (hk : sh.Kept sizeAlign threshold)
  (hread : sh.moved sizeAlign threshold src.var = true → storesIn sh src.var is = [])
include hk hread

/-- A load returns the same value. -/
theorem stepOk_loadDeref {dest : ℕ} (hi : .loadDeref dest src ∈ sh.instrs) :
    InstOk sh sizeAlign threshold W is (.loadDeref dest src) s s' := by
  have hloaded : ∀ value, value = s.mem.load sh.vars s.index src →
      StepOk sh sizeAlign threshold is ((Inst.loadDeref dest src).run sh.vars W s)
        (s'.loaded dest value, false) := by
    rintro value rfl
    refine ⟨rfl, ⟨?_, ha.ext, ?_, ha.mem⟩, hp⟩
    · show s'.env.set _ _ = s.env.set _ _
      rw [ha.env]
    · show _ :: s'.loads = _ :: s.loads
      rw [ha.loads]
  cases hloc : sh.location sizeAlign threshold src.var with
  | none =>
    have hmem := ha.mem src.var (moved_of_location hv hloc)
    simp only [InstOk, lowerInst, hloc, runInstrs_singleton]
    refine hloaded _ ?_
    unfold Mem.load
    rw [hmem, ha.index]
  | some location =>
    have hm := moved_of_location hv hloc
    simp only [InstOk, lowerInst, hloc, runInstrs_singleton]
    refine hloaded _ ?_
    funext c
    rw [ha.index, value_constantLoadOf s.index hloc (hv.insts _ hi) (hk.loads dest src hi hm)]
    show _ = if c < components _ _ then s.mem src.var (fillPath s.index src.path []) c else 0
    by_cases hc : c < components (sh.vars src.var).type (fillPath s.index src.path [])
    · rw [if_pos hc, if_pos hc, hp.eq_image hm (hread hm) hc]
    · rw [if_neg hc, if_neg hc]

/-- A copy copies the same value. -/
theorem stepOk_copyDeref (hi : .copyDeref dst src ∈ sh.instrs) :
    InstOk sh sizeAlign threshold W is (.copyDeref dst src) s s' := by
  have hne : ∀ v, sh.moved sizeAlign threshold v = true → dst.var ≠ v := fun v hv' hvar =>
    nomatch (Shader.constWrite hv hv' _ hi dst rfl hvar).2
  have hpending : Pending sh sizeAlign threshold is (s.mem.copy sh.vars s.index dst src) :=
    hp.congr fun v hv' => copy_of_ne (hne v hv')
  cases hloc : sh.location sizeAlign threshold src.var with
  | none =>
    have hsrc := ha.mem src.var (moved_of_location hv hloc)
    simp only [InstOk, lowerInst, hloc, runInstrs_singleton]
    refine ⟨rfl, ⟨ha.env, ha.ext, ha.loads, fun v hv' => ?_⟩, hpending⟩
    show Mem.copy _ _ _ _ _ v = Mem.copy _ _ _ _ _ v
    unfold Mem.copy
    rw [ha.index, ha.mem v hv', hsrc]
  | some location =>
    have hm := moved_of_location hv hloc
    obtain ⟨hvec, hf⟩ := hk.copies dst src hi hm
    obtain ⟨htype, hwild, hn⟩ := hv.insts _ hi
    obtain ⟨hs, hns, u, hu, hnir⟩ := id hvec
    obtain ⟨base, rows, rfl, hrows, -⟩ := isNirVector_cases hnir
    have hd : .arrayWildcard ∉ dst.path := by
      rw [← count_eq_zero, hwild, count_eq_zero]
      exact hs
    simp only [InstOk, lowerInst, hloc, htype, hu, runInstrs_singleton, Option.getD_some,
      Glsl.GlslType.vectorElements]
    refine ⟨rfl, ⟨ha.env, ha.ext, ha.loads, fun v hv' => ?_⟩, hpending⟩
    show Mem.store _ _ _ _ _ _ v = Mem.copy _ _ _ _ _ v
    rw [ha.index]
    refine copy_eq_store hrows hd hn hs (htype.trans hu) (fun c hc => ?_) (ha.mem v hv')
    have hc' : c < components (sh.vars src.var).type (fillPath s.index src.path []) := by
      simpa [components, partAt_fillPath s.index hs hns hu] using hc
    rw [value_constantLoadOf s.index hloc hvec hf, if_pos hc', hp.eq_image hm (hread hm) hc']

end

variable (hk : sh.Kept sizeAlign threshold)
include hk

/-- A store to a variable that is moved has been carried out on the constant data. -/
theorem stepOk_storeDeref {value : Src} (hi : .storeDeref dst value mask ∈ sh.instrs)
    (hp : Pending sh sizeAlign threshold (.storeDeref dst value mask :: is) s.mem) :
    InstOk sh sizeAlign threshold W is (.storeDeref dst value mask) s s' := by
  have hother : ∀ v, dst.var ≠ v → storeTo? sh v (.storeDeref dst value mask) = none := by
    intro v hne
    cases value with
    | const value => simp [storeTo?, hne]
    | ssa d => rfl
  cases hloc : sh.location sizeAlign threshold dst.var with
  | none =>
    have hm : sh.moved sizeAlign threshold dst.var = false := moved_of_location hv hloc
    have hne : ∀ v, sh.moved sizeAlign threshold v = true → dst.var ≠ v := by
      rintro v hv' rfl
      rw [hm] at hv'
      cases hv'
    simp only [InstOk, lowerInst, hloc, runInstrs_singleton]
    refine ⟨rfl, ⟨ha.env, ha.ext, ha.loads, fun v hv' => ?_⟩,
      (hp.cons fun v hv' => hother v (hne v hv')).congr fun v hv' => store_of_ne (hne v hv')⟩
    show Mem.store _ _ _ _ _ _ v = Mem.store _ _ _ _ _ _ v
    unfold Mem.store
    rw [ha.index, ha.env, ha.mem v hv']
  | some location =>
    have hm : sh.moved sizeAlign threshold dst.var = true := moved_of_location hv hloc
    obtain ⟨hdirect, hconst⟩ := Shader.constWrite hv hm _ hi dst rfl rfl
    obtain ⟨value, rfl⟩ : ∃ x, value = .const x := by
      cases value with
      | const x => exact ⟨x, rfl⟩
      | ssa d => cases hconst
    simp only [InstOk, lowerInst, hloc]
    refine ⟨rfl, ⟨ha.env, ha.ext, ha.loads, fun v hv' => ?_⟩, fun v hv' p c hc => ?_⟩
    · -- the store does not reach the variables that stay
      refine (ha.mem v hv').trans (store_of_ne ?_).symm
      rintro rfl
      rw [hv'] at hm
      cases hm
    · rw [← hp v hv' p c hc]
      by_cases hvar : dst.var = v
      · subst hvar
        obtain ⟨st, hst⟩ : ∃ st, storeTo? sh dst.var
          (.storeDeref dst (.const value) mask) = some st :=
          ⟨_, if_pos rfl⟩
        have hin := (hk.stores dst.var hm _ (mem_filterMap.mpr ⟨_, hi, hst⟩)).1
        have hcons : storesIn sh dst.var (.storeDeref dst (.const value) mask :: is) =
            st :: storesIn sh dst.var is := filterMap_cons_some hst
        rw [hcons, foldl_cons]
        exact foldl_applyStore_congr _ (store_const hdirect hst hin p hc)
      · have hcons : storesIn sh v (.storeDeref dst (.const value) mask :: is) = storesIn sh v is :=
          filterMap_cons_none (hother v hvar)
        rw [hcons]
        exact foldl_applyStore_congr _ (congrFun (congrFun (store_of_ne hvar) p) c)

/-- Instructions of which those that follow are used as the scan allows it. -/
theorem stepOk_inst {i : Inst} (hi : i ∈ sh.instrs)
    (hp : Pending sh sizeAlign threshold (i :: is) s.mem)
    (hread : ∀ v, sh.moved sizeAlign threshold v = true → i.reads v = true →
      storesIn sh v is = []) :
    InstOk sh sizeAlign threshold W is i s s' := by
  cases i with
  | loadDeref dest src =>
    exact stepOk_loadDeref hv ha (hp.cons fun _ _ => rfl) hk
      (fun hm => hread src.var hm (by simp [Inst.reads])) hi
  | storeDeref dst value mask => exact stepOk_storeDeref hv ha hk hi hp
  | copyDeref dst src =>
    exact stepOk_copyDeref hv ha (hp.cons fun _ _ => rfl) hk
      (fun hm => hread src.var hm (by simp [Inst.reads])) hi
  | other op dest srcs => exact stepOk_other hv ha (hp.cons fun _ _ => rfl)

/-- Instructions run like those in their place. -/
theorem runInstrs_lower (his : ∀ i ∈ is, i ∈ sh.instrs)
    (huse : ∀ v, sh.moved sizeAlign threshold v = true → ∃ r, ConstUse v firstBlock r is)
    (hp : Pending sh sizeAlign threshold is s.mem) :
    RunOk sh sizeAlign threshold (runInstrs (fun i s => i.run sh.vars W s) is s)
      (runInstrs (fun i s => i.run sh.vars W (sh.constantData sizeAlign threshold) s)
        (is.flatMap (lowerInst sh sizeAlign threshold)) s') := by
  induction is generalizing s s' with
  | nil => exact ⟨rfl, ha, fun _ => hp⟩
  | cons i is ih =>
    have hstep := stepOk_inst (W := W) hv ha hk (his i mem_cons_self) hp (by
      intro v hm hread
      obtain ⟨r, hr⟩ := huse v hm
      exact storesIn_eq_nil (hr.2.2.not_written (.inl (by simp [hread]))))
    rw [flatMap_cons, runInstrs_append, hstep.stop]
    simp only [runInstrs]
    split_ifs with hstop
    · exact ⟨by rw [hstep.stop], hstep.agree, fun h => by rw [hstop] at h; cases h⟩
    · refine ih hstep.agree (fun j hj => his j (mem_cons_of_mem _ hj))
        (fun v hm => ?_) hstep.pending
      obtain ⟨r, hr⟩ := huse v hm
      exact ⟨_, hr.2.2⟩

/-- A block runs like the one in its place. -/
theorem runBlock_lower {b : Block Inst} (his : ∀ i ∈ b.instrs, i ∈ sh.instrs)
    (huse : ∀ v, sh.moved sizeAlign threshold v = true → ∃ r, ConstUse v firstBlock r b.instrs)
    (hp : Pending sh sizeAlign threshold b.instrs s.mem) (p : ℕ) :
    RunOk sh sizeAlign threshold (runBlock (fun i s => i.run sh.vars W s) b p s)
      (runBlock (fun i s => i.run sh.vars W (sh.constantData sizeAlign threshold) s)
        (lowerBlock sh sizeAlign threshold b) p s') := by
  have ha' : Agree sh sizeAlign threshold { s with env := evalPhis b.phis p s.env }
      { s' with env := evalPhis b.phis p s'.env } := ⟨by rw [ha.env], ha.ext, ha.loads, ha.mem⟩
  exact runInstrs_lower hv ha' hk his huse hp

end

/-! ### Runs -/

/-- The block without its phis and instructions. -/
def emptyBlock {I : Type} (b : Block I) : Block I := { b with phis := [], instrs := [] }

/-- One step of the machine. -/
theorem step_machine (run : I → State X → State X × Bool) (b : Block I) (p : ℕ) (s : State X) :
    (machine run).step b p s = ⟨b.label, (runBlock run b p s).1,
      if (runBlock run b p s).2 then .halt else Jump.outcome b.jump⟩ := rfl

/-- A run goes on after the first block as if that were empty, or ends in it. -/
theorem exec_after_first (run : I → State X → State X × Bool) (l : CfList (Block I) ℕ) (n p : ℕ)
    (s : State X) :
    exec (machine run) n l p s =
      if (runBlock run l.first p s).2 then ⟨l.first.label, (runBlock run l.first p s).1, .halt⟩
      else exec (machine run) n (l.setFirst (emptyBlock l.first)) p
        (runBlock run l.first p s).1 := by
  rw [exec_eq_tail]
  split_ifs with hstop
  · rw [step_machine, if_pos hstop, Res.andThen_of_ne _ (by simp)]
  · have hstep : (machine run).step l.first p s =
        (machine run).step (emptyBlock l.first) p (runBlock run l.first p s).1 := by
      rw [step_machine, step_machine, if_neg hstop]
      rfl
    rw [hstep, exec_setFirst]

/-- The use of a variable in two parts. -/
theorem ConstUse.append {r : Bool} {js : List Inst} (h : ConstUse v firstBlock r (is ++ js)) :
    ConstUse v firstBlock r is ∧ ∃ r', ConstUse v firstBlock r' js := by
  induction is generalizing r with
  | nil => exact ⟨trivial, r, h⟩
  | cons i is ih =>
    obtain ⟨h1, h2⟩ := ih h.2.2
    exact ⟨⟨h.1, h.2.1, h1⟩, h2⟩

/-- The use of a variable in each of several blocks. -/
theorem ConstUse.of_mem {r : Bool} {bs : List (Block Inst)}
    (h : ConstUse v firstBlock r (bs.flatMap Block.instrs)) :
    ∀ b ∈ bs, ∃ r', ConstUse v firstBlock r' b.instrs := by
  induction bs generalizing r with
  | nil => simp
  | cons b bs ih =>
    intro b' hb'
    rw [flatMap_cons] at h
    obtain ⟨h1, r', h2⟩ := h.append
    rcases mem_cons.mp hb' with rfl | hb'
    · exact ⟨r, h1⟩
    · exact ih h2 b' hb'

variable (sh sizeAlign threshold) in
/-- A block and the one in its place, where nothing that is moved is written. -/
def SameBlock (b : Block Inst) (b' : Block LoweredInst) : Prop :=
  b' = lowerBlock sh sizeAlign threshold b ∧ (∀ i ∈ b.instrs, i ∈ sh.instrs) ∧
    ∀ v, sh.moved sizeAlign threshold v = true → ∃ r, ConstUse v false r b.instrs

variable (sh sizeAlign threshold) in
/-- The states agree, and the variables that are moved hold what the constant data holds unless the
run has ended. -/
def SameState (o : Outcome) (_ : ℕ) (s s' : State X) : Prop :=
  Agree sh sizeAlign threshold s s' ∧ (o ≠ .halt → Pending sh sizeAlign threshold [] s.mem)

variable (W) in
/-- The blocks after the first run in lockstep. -/
theorem simulation_lower (hv : sh.Valid) (hk : sh.Kept sizeAlign threshold) :
    Simulation (machine fun i s => i.run sh.vars W s)
      (machine fun i s => i.run sh.vars W (sh.constantData sizeAlign threshold) s)
      (fun _ _ => True) (SameBlock sh sizeAlign threshold) (fun _ c c' => c' = c)
      (SameState sh sizeAlign threshold) where
  step b b' p s s' hb _ hq := by
    obtain ⟨rfl, his, huse⟩ := hb
    obtain ⟨ha, hpend⟩ := hq
    have hpend' : Pending sh sizeAlign threshold b.instrs s.mem := by
      intro v hm q c hc
      obtain ⟨r, hr⟩ := huse v hm
      rw [storesIn_eq_nil (hr.not_written (.inr rfl))]
      exact hpend (by simp) v hm q c hc
    obtain ⟨hstop, hagree, hafter⟩ := runBlock_lower (W := W) hv ha hk his huse hpend' p
    rw [step_machine, step_machine]
    refine ⟨rfl, ?_, hagree, fun hne => hafter ?_⟩
    · dsimp only
      rw [hstop]
      rfl
    · by_contra htrue
      exact hne (if_pos (Bool.eq_true_of_not_eq_false htrue))
  cond b c c' s s' hc hq := by
    subst hc
    show (s'.env c' 0 != 0) = (s.env c' 0 != 0)
    rw [hq.1.env]
  brk p s s' hq := ⟨hq.1, fun _ => hq.2 (by simp)⟩
  cont p s s' hq := ⟨hq.1, fun _ => hq.2 (by simp)⟩
  timeout p s s' hq := ⟨hq.1, fun _ => hq.2 (by simp)⟩

/-- Another first block, in the image of a list. -/
theorem map_setFirst {B B' C C' : Type} (f : B → B') (g : C → C') (b : B) (l : CfList B C) :
    (l.setFirst b).map f g = (l.map f g).setFirst (f b) := by
  cases l <;> rfl

/-- The first block of the image of a list. -/
theorem first_map {B B' C C' : Type} (f : B → B') (g : C → C') (l : CfList B C) :
    (l.map f g).first = f l.first := by
  cases l <;> rfl

variable (sh sizeAlign threshold) in
/-- The two runs end in the same place, in the same way, and in states that agree. -/
structure SameRun (r r' : Res (State X)) : Prop where
  /-- Control left the same block. -/
  prev : r'.prev = r.prev
  /-- It left in the same way. -/
  out : r'.out = r.out
  /-- The states agree. -/
  agree : Agree sh sizeAlign threshold r.st r'.st

/-- The shader and the lowered one run alike once the stores of the first block have been
resolved. -/
theorem exec_lower (hv : sh.Valid) (hk : sh.Kept sizeAlign threshold) (n p : ℕ)
    (ha : Agree sh sizeAlign threshold s s')
    (hp : Pending sh sizeAlign threshold sh.body.first.instrs s.mem) :
    SameRun sh sizeAlign threshold
      (exec (machine fun i s => i.run sh.vars W s) n sh.body p s)
      (exec (machine fun i s => i.run sh.vars W (sh.constantData sizeAlign threshold) s) n
        (sh.body.map (lowerBlock sh sizeAlign threshold) id) p s') := by
  have hmem : ∀ i ∈ sh.body.first.instrs, i ∈ sh.instrs := by
    intro i hi
    rw [sh.instrs_eq]
    exact mem_append_left _ hi
  obtain ⟨hstop, hagree, hafter⟩ := runBlock_lower (W := W) hv ha hk hmem
    (fun v hm => ⟨_, (sh.constUse hv hm).1⟩) hp p
  rw [exec_after_first _ sh.body, exec_after_first _ (sh.body.map _ _), first_map, hstop]
  split_ifs with hgo
  · exact ⟨rfl, rfl, hagree⟩
  · have hsame : CfList.Same (SameBlock sh sizeAlign threshold) (fun _ c c' => c' = c)
        (sh.body.setFirst (emptyBlock sh.body.first))
        ((sh.body.setFirst (emptyBlock sh.body.first)).map
          (lowerBlock sh sizeAlign threshold) id) := by
      refine CfList.same_map _ _ _ _ _ (fun b hb => ?_) fun _ _ _ => rfl
      rw [CfList.blocks_setFirst] at hb
      rcases mem_cons.mp hb with rfl | hb
      · exact ⟨rfl, (fun i hi => nomatch hi), fun v hm => ⟨false, trivial⟩⟩
      · refine ⟨rfl, fun i hi => ?_, fun v hm => ?_⟩
        · rw [sh.instrs_eq]
          exact mem_append_right _ (mem_flatMap.mpr ⟨b, hb, hi⟩)
        · obtain ⟨r, hr⟩ := (sh.constUse hv hm).2
          exact hr.of_mem b hb
    have hlock :=
      (exec_lockstep (simulation_lower W hv hk) n hsame ⟨0, 0, 0, 0⟩ (fun _ _ => trivial) p
      _ _ trivial ⟨hagree, fun _ => hafter (by simpa using hgo)⟩).1
    rw [map_setFirst] at hlock
    exact ⟨hlock.1, hlock.2.1, hlock.2.2.1⟩

/-! ### What is undefined -/

/-- Stores give a component its last value, or leave it. -/
theorem foldl_applyStore_eq {m : List ℕ → ℕ → ℕ} {d : ℕ} {x : Option ℕ} (sts : List ConstStore)
    (h : m p c = x.getD d) : sts.foldl applyStore m p c = (sts.foldl (giveStep p c) x).getD d := by
  induction sts generalizing m x with
  | nil => exact h
  | cons st sts ih =>
    refine ih ?_
    unfold applyStore giveStep
    split
    · rfl
    · exact h

/-- A component has a value from a store to its vector, or from the initializer. -/
theorem foldl_giveStep_some {y : ℕ} {x : Option ℕ} {sts : List ConstStore}
    (h : sts.foldl (giveStep p c) x = some y) : (∃ st ∈ sts, st.path = p) ∨ x = some y := by
  induction sts generalizing x with
  | nil => exact .inr h
  | cons st sts ih =>
    rcases ih h with ⟨st', hst', hp⟩ | hx
    · exact .inl ⟨st', mem_cons_of_mem _ hst', hp⟩
    · unfold giveStep at hx
      split_ifs at hx with hcond
      · exact .inl ⟨st, mem_cons_self, hcond.1⟩
      · exact .inr hx

variable (sh sizeAlign threshold) in
/-- The state in which the variables that are moved hold what the lowered shader finds, where they
have no initializer. -/
def resolve (s : State X) : State X :=
  { s with mem := fun v p c =>
      if sh.moved sizeAlign threshold v then
        (sh.initial v p c).getD (image sh sizeAlign threshold v p c)
      else s.mem v p c }

/-- The stores of the first block make the variables hold what the constant data holds. -/
theorem pending_resolve (hv : sh.Valid) (hk : sh.Kept sizeAlign threshold) (s : State X) :
    Pending sh sizeAlign threshold sh.body.first.instrs (resolve sh sizeAlign threshold s).mem := by
  intro v hm p c hc
  have hstores : storesIn sh v sh.instrs = storesIn sh v sh.body.first.instrs := by
    obtain ⟨-, r, hr⟩ := sh.constUse hv hm
    have hrest : (sh.body.blocks.tail.flatMap Block.instrs).filterMap (storeTo? sh v) = [] :=
      storesIn_eq_nil (hr.not_written (.inr rfl))
    rw [sh.instrs_eq, storesIn, filterMap_append, hrest, append_nil]
    rfl
  obtain ⟨location, hloc⟩ := isSome_iff_exists.mp ((moved_of_location hv rfl).symm.trans hm)
  have hfold := foldl_applyStore_eq (m := (resolve sh sizeAlign threshold s).mem v) (p := p)
    (c := c) (d := image sh sizeAlign threshold v p c) (x := sh.initial v p c)
    (storesIn sh v sh.body.first.instrs) (if_pos hm)
  rw [← hstores] at hfold ⊢
  rw [hfold]
  change (sh.given v p c).getD _ = _
  cases hgiven : sh.given v p c with
  | none => rfl
  | some x =>
    have hinside : sh.insideRegion sizeAlign v p := by
      rcases foldl_giveStep_some hgiven with ⟨st, hst, rfl⟩ | hinit
      · exact hk.stores v hm st hst
      · exact hk.initial v hm p c x hinit
    rw [getD_some, image, hloc]
    dsimp only
    rw [imageAt_constantData hv hk hloc hinside hc, hk.values v hm p c x hgiven]

/-! ### The pass -/

/-- Instructions that are kept do what they did. -/
theorem runInstrs_map_keep (is : List Inst) (s : State X) :
    runInstrs (fun (i : LoweredInst) s => i.run sh.vars W data s) (is.map .keep) s =
      runInstrs (fun i s => i.run sh.vars W s) is s := by
  induction is generalizing s with
  | nil => rfl
  | cons i is ih =>
    simp only [map_cons, runInstrs]
    rw [ih]
    rfl

/-- A shader whose instructions are all kept runs as before. -/
theorem exec_keep (sh : Shader) (W : World X) (data : ByteMem) (n : ℕ) :
    exec (machine fun i s => i.run sh.vars W data s) n (sh.body.map keepBlock id) =
      exec (machine fun i s => i.run sh.vars W s) n sh.body := by
  refine exec_map (fun b => funext fun p => funext fun s => ?_) ?_ n sh.body
  · have hrun : runBlock (fun i s => i.run sh.vars W data s) (keepBlock b) p s =
        runBlock (fun i s => i.run sh.vars W s) b p s := runInstrs_map_keep _ _
    rw [step_machine, step_machine, hrun]
    rfl
  · exact fun _ => rfl

/-- Moving variables to constant data keeps what loads return. Each run of the lowered shader is a
run of the original one, from a start that differs only in what is undefined there: the contents of
variables that are moved, where they have no initializer. And each byte that is written to the
constant data is inside the region of its variable. No assertion of the pass fails. -/
theorem nirOptLargeConstants_keeps (hv : sh.Valid) (hk : sh.Kept sizeAlign threshold) (W : World X)
    (n p : ℕ) (s : State X) (hs : sh.Starts s) :
    (∃ (lowered : Lowered) (s₀ : State X),
      nirOptLargeConstants sh sizeAlign threshold = some lowered ∧
      sh.Starts s₀ ∧ s₀.env = s.env ∧ s₀.ext = s.ext ∧ s₀.loads = s.loads ∧
      (∀ v q c, s₀.mem v q c ≠ s.mem v q c →
        sh.moved sizeAlign threshold v = true ∧ sh.initial v q c = none) ∧
      SameRun sh sizeAlign threshold (sh.exec W n p s₀) (lowered.exec sh.vars W n p s)) ∧
    ∀ w ∈ sh.constantWrites sizeAlign threshold, ∃ location,
      sh.location sizeAlign threshold w.var = some location ∧ (location.toNat : ℤ) ≤ w.address ∧
      w.address + w.bytes.length ≤ location.toNat + (sizeAlign (sh.vars w.var).type).1.toNat ∧
      location.toNat + (sizeAlign (sh.vars w.var).type).1.toNat ≤
        (sh.reserve sizeAlign threshold).2.toNat := by
  constructor
  · have hall : sh.instrs.all (assertion sh sizeAlign threshold) = true :=
      all_eq_true.mpr fun i _ => assertion_of_kept hk i
    unfold Shader.exec Lowered.exec nirOptLargeConstants
    dsimp only
    rw [if_pos hall]
    split
    · refine ⟨_, s, rfl, hs, rfl, rfl, rfl, fun _ _ _ h => absurd rfl h, ?_⟩
      rw [exec_keep]
      exact ⟨rfl, rfl, rfl, rfl, rfl, fun _ _ => rfl⟩
    · refine ⟨_, resolve sh sizeAlign threshold s, rfl, ?_, rfl, rfl, rfl, ?_, exec_lower hv hk n p
        ⟨rfl, rfl, rfl, fun v hm => ?_⟩ (pending_resolve hv hk s)⟩
      · intro v hmem q c x hx
        show (if _ then _ else _) = x
        split
        · rw [hx, getD_some]
        · exact hs v hmem q c x hx
      · intro v q c hne
        have hm : sh.moved sizeAlign threshold v = true := by
          by_contra hm
          exact hne (if_neg hm)
        refine ⟨hm, eq_none_iff_forall_ne_some.mpr fun x hx => hne ?_⟩
        have hmem : v ∈ sh.locals := by
          simp only [Shader.moved, Bool.and_eq_true, decide_eq_true_eq] at hm
          exact hm.1
        show (if _ then _ else _) = _
        rw [if_pos hm, hx, getD_some, hs v hmem q c x hx]
      · funext q c
        exact (if_neg (by simp [hm])).symm
  · intro w hw
    obtain ⟨i, hi, hwrite⟩ := mem_filterMap.mp hw
    obtain ⟨st, location, base, rows, f, -, hws⟩ := writesStore hv hk hi hwrite
    obtain ⟨h1, h2⟩ := hws.inRegion
    exact ⟨location, hws.hasLocation, h1, h2, (location_spec hk hws.hasLocation).2⟩

end

/-! ### Examples -/

/-- A shader with one local variable and one block. -/
def oneVariable (type : Glsl.GlslType) (instrs : List Inst) : Shader :=
  { vars := fun _ => ⟨.local, type, none⟩, locals := [0], body := .last ⟨1, [], instrs, none⟩ }

/-- A store of constants to the only variable. -/
def storeConst (path : List Link) (value : Value) (mask : ComponentMask) : Inst :=
  .storeDeref ⟨0, path⟩ (.const value) mask

/-- Other instructions do nothing. -/
def idleWorld : World Unit := ⟨fun _ _ m x => (fun _ => 0, m, x, false)⟩

/-- Everything is zero. -/
def zeroState : State Unit := ⟨fun _ _ => 0, fun _ _ _ => 0, (), []⟩

/-- A component of what the loads of a shader return, before the pass and after it. -/
def loadsOf (sh : Shader) (c : ℕ) : List ℕ × Option (List ℕ) :=
  ((sh.exec idleWorld 0 0 zeroState).st.loads.map fun l => l.2 c,
    (nirOptLargeConstants sh Glsl.glslGetNaturalSizeAlignBytes 4).map fun lowered =>
      (lowered.exec sh.vars idleWorld 0 0 zeroState).st.loads.map fun l => l.2 c)

/-- A table of two numbers that is read at a dynamic index. -/
def table : Shader :=
  oneVariable (.array (.numeric .float 1 1) 2)
    [storeConst [.array (.const 0)] (fun _ => 5) 1, storeConst [.array (.const 1)] (fun _ => 7) 1,
      .loadDeref 4 ⟨0, [.array (.ssa 3)]⟩]

/-- A structure of two numbers, of which the second one is read. -/
def structure2 : Shader :=
  oneVariable pair
    [storeConst [.struct 0] (fun _ => 1) 1, storeConst [.struct 1] (fun _ => 2) 1,
      .loadDeref 4 ⟨0, [.struct 1]⟩]

/-- A vector of two numbers, of which only the first one is stored to again. -/
def masked : Shader :=
  oneVariable (.numeric .float 2 1)
    [storeConst [] (fun c => c + 1) 3, storeConst [] (fun _ => 9) 1, .loadDeref 4 ⟨0, []⟩]

/-- Shaders with one variable and three instructions are valid if the instructions are. -/
theorem oneVariable_valid {type : Glsl.GlslType} {a b c : Inst}
    (ha : (oneVariable type [a, b, c]).validInst a)
    (hb : (oneVariable type [a, b, c]).validInst b)
    (hc : (oneVariable type [a, b, c]).validInst c) :
    (oneVariable type [a, b, c]).Valid where
  nodup := by simp [oneVariable]
  mode _ _ := rfl
  insts i hi := by
    simp only [Shader.instrs, oneVariable, CfList.blocks, flatMap_singleton,
      mem_cons, not_mem_nil, or_false] at hi
    rcases hi with rfl | rfl | rfl <;> assumption

/-- The shader with the table is valid. -/
theorem table_valid : table.Valid := by
  apply oneVariable_valid <;> exact ⟨by decide, ⟨id, fun _ _ => trivial⟩, _, rfl, rfl⟩

/-- The shader with the structure is valid. -/
theorem structure2_valid : structure2.Valid := by
  apply oneVariable_valid <;> exact ⟨by decide, ⟨id, fun _ _ => trivial⟩, _, rfl, rfl⟩

/-- The shader with the masked store is valid. -/
theorem masked_valid : masked.Valid := by
  apply oneVariable_valid <;> exact ⟨by decide, trivial, _, rfl, rfl⟩

/-- Only the first variable is moved. -/
theorem table_moved (h : table.moved Glsl.glslGetNaturalSizeAlignBytes 4 v = true) : v = 0 := by
  simp only [Shader.moved, Bool.and_eq_true, decide_eq_true_eq] at h
  simpa [table, oneVariable] using h.1

/-- Shaders with one variable have no initializers. -/
theorem oneVariable_initial (type : Glsl.GlslType) (instrs : List Inst)
    (v : ℕ) (p : List ℕ) (c : ℕ) :
    (oneVariable type instrs).initial v p c = none := by
  unfold Shader.initial
  split <;> rfl

/-- The stores to the table. -/
theorem storesIn_table : storesIn table 0 table.instrs =
    [⟨[0], fun _ => 5 % 2 ^ 32, 1⟩, ⟨[1], fun _ => 7 % 2 ^ 32, 1⟩] := rfl

/-- The table is kept as constant data. -/
theorem table_kept : table.Kept Glsl.glslGetNaturalSizeAlignBytes 4 where
  sizes _ _ _ _ := rfl
  laidOut _ _ := rfl
  natural _ _ := by
    show 2 * Glsl.alignUp 4 4 < 2 ^ 32
    decide
  regions := by
    have hm : table.toMove Glsl.glslGetNaturalSizeAlignBytes 4 0 = true := by decide +kernel
    show if _ then _ else _
    rw [if_pos hm]
    exact ⟨by decide +kernel, by decide +kernel, by decide +kernel, by decide +kernel,
      by decide +kernel, trivial⟩
  stores v hm st hst := by
    obtain rfl := table_moved hm
    rw [storesIn_table] at hst
    simp only [mem_cons, not_mem_nil, or_false] at hst
    rcases hst with rfl | rfl
    · exact ⟨by decide +kernel, _, rfl, rfl, by decide +kernel⟩
    · exact ⟨by decide +kernel, _, rfl, rfl, by decide +kernel⟩
  initial v _ p c x h := by
    rw [table, oneVariable_initial] at h
    cases h
  values v hm p c x h := by
    obtain rfl := table_moved hm
    have hinit : table.initial 0 p c = none := oneVariable_initial _ _ _ _ _
    unfold Shader.given at h
    unfold Shader.built
    rw [storesIn_table] at h ⊢
    rw [hinit] at h
    simp only [foldl_cons, foldl_nil, giveStep, builtStep] at h ⊢
    by_cases h1 : [1] = p
    · subst h1
      simp only [true_and] at h
      split at h
      · exact some.inj h
      · cases h
    · by_cases h0 : [0] = p
      · subst h0
        simp only [true_and, cons.injEq, one_ne_zero, false_and, if_false] at h
        split at h
        · exact some.inj h
        · cases h
      · simp [h0, h1] at h
  loads dest src hi hm := by
    have hi' : .loadDeref dest src ∈ ([_, _, .loadDeref 4 ⟨0, [.array (.ssa 3)]⟩] : List Inst) := hi
    simp only [storeConst, mem_cons, reduceCtorEq, Inst.loadDeref.injEq, not_mem_nil,
      or_false, false_or] at hi'
    obtain ⟨-, rfl⟩ := hi'
    exact ⟨(fun _ h => nomatch h), fun _ _ => trivial⟩
  copies dst src hi hm := by
    have hi' : .copyDeref dst src ∈ ([_, _, .loadDeref 4 ⟨0, [.array (.ssa 3)]⟩] : List Inst) := hi
    simp [storeConst] at hi'

/-- The load of the second member returns the first one, the component that the mask leaves out is
overwritten, and a callback that gives the table less room than the natural layout has the second
element written behind it. -/
theorem nirOptLargeConstants_wrong :
    (structure2.Valid ∧ loadsOf structure2 0 = ([2], some [1])) ∧
      (masked.Valid ∧ loadsOf masked 1 = ([2], some [9])) ∧
      table.Valid ∧ ∃ w ∈ table.constantWrites (fun _ => (4, 4)) 0,
        table.location (fun _ => (4, 4)) 0 w.var = some 0 ∧ w.address = 4 := by
  refine ⟨⟨structure2_valid, by decide +kernel⟩, ⟨masked_valid, by decide +kernel⟩, table_valid, ?_⟩
  exact ⟨⟨0, 4, [7, 0, 0, 0]⟩, by decide +kernel, by decide +kernel, rfl⟩

/-- A table is read as before. -/
theorem nirOptLargeConstants_table :
    table.Valid ∧ table.Kept Glsl.glslGetNaturalSizeAlignBytes 4 ∧ table.Starts zeroState ∧
      ∃ (lowered : Lowered) (s₀ : State Unit),
        nirOptLargeConstants table Glsl.glslGetNaturalSizeAlignBytes 4 = some lowered ∧
        SameRun table Glsl.glslGetNaturalSizeAlignBytes 4 (table.exec idleWorld 0 0 s₀)
          (lowered.exec table.vars idleWorld 0 0 zeroState) := by
  have hs : table.Starts zeroState := by
    intro v _ p c x h
    rw [table, oneVariable_initial] at h
    cases h
  obtain ⟨lowered, s₀, hlowered, -, -, -, -, -, hrun⟩ :=
    (nirOptLargeConstants_keeps table_valid table_kept idleWorld 0 0 zeroState hs).1
  exact ⟨table_valid, table_kept, hs, lowered, s₀, hlowered, hrun⟩

end Mesa3D.Nir.LargeConstants
