import Mesa3D.Structured.Edit
import Mesa3D.Nir.LargeConstants

/-!
# The constant data that the pass builds

`Shader.Kept` says when moving variables to constant data keeps their values. It leaves out what the
pass does not take into account: the offsets of members in the loads, the masks of stores, constant
initializers, indices out of bounds, copies of aggregates, and sizes and alignments from the
callback that are not those of the natural layout, which places the elements.

What the constant data holds for a vector or scalar is `image`. `image_eq_built` shows that it holds
the value of the last store to it: the regions of two variables do not overlap, nor do two vectors
of one variable, so that a write is seen where it was made and nowhere else.
-/

namespace Mesa3D.Nir.LargeConstants

open Structured Layout Shader
open Glsl (naturalPlacing pathOffset componentBytes glslGetBitSize GlslBaseType partOffset)
open Option List

/-! ### Valid shaders -/

/-- The vectors and scalars that NIR values can be, with up to `NIR_MAX_VEC_COMPONENTS`
components. -/
def isNirVector : Glsl.GlslType → Bool
  | .numeric base rows columns =>
    Glsl.numericDeclared base rows columns && (columns == 1 && decide (rows ≤ 4))
  | _ => false

section

variable (sh : Shader)

/-- The type is a vector or scalar. -/
def IsVector : Glsl.GlslType → Prop
  | .numeric _ _ columns => columns ≤ 1
  | _ => False

/-- No link of a chain goes into a vector. Only those of shared variables may. -/
def noVectorLink : Glsl.GlslType → List Link → Prop
  | _, [] => True
  | t, l :: ls => ¬IsVector t ∧ ∀ u, followLink t l = some u → noVectorLink u ls

/-- The deref names one vector or scalar. -/
def Shader.vectorDeref (d : Deref) : Prop :=
  .arrayWildcard ∉ d.path ∧ noVectorLink (sh.vars d.var).type d.path ∧
    ∃ u, derefType (sh.vars d.var).type d.path = some u ∧ isNirVector u = true

/-- What `nir_validate` asks of an instruction, without derefs of the components of shared
vectors. -/
def Shader.validInst : Inst → Prop
  | .loadDeref _ src => sh.vectorDeref src
  | .storeDeref dst _ _ => sh.vectorDeref dst
  | .copyDeref dst src =>
    derefType (sh.vars dst.var).type dst.path = derefType (sh.vars src.var).type src.path ∧
      dst.path.count .arrayWildcard = src.path.count .arrayWildcard ∧
      noVectorLink (sh.vars dst.var).type dst.path
  | .other .. => True

/-- What `nir_validate` asks of a shader. -/
structure Shader.Valid : Prop where
  /-- A variable is in the list once. -/
  nodup : sh.locals.Nodup
  /-- The variables of the function are local. -/
  mode : ∀ v ∈ sh.locals, (sh.vars v).mode = .local
  /-- The instructions are valid. -/
  insts : ∀ i ∈ sh.instrs, sh.validInst i

/-! ### When values are kept -/

/-- A store of a constant: the vector that it writes, the value and the mask. -/
structure ConstStore where
  /-- The indices. -/
  path : List ℕ
  /-- The value. -/
  value : Value
  /-- The components that are stored. -/
  mask : ComponentMask

/-- The store of a constant to the variable `v`, if the instruction is one. -/
def storeTo? (v : ℕ) : Inst → Option ConstStore
  | .storeDeref dst (.const value) mask =>
    if dst.var = v then
      let p := fillPath (fun _ => 0) dst.path []
      some ⟨p, fun c => value c % 2 ^ bitSizeAt (sh.vars v).type p, mask⟩
    else none
  | _ => none

/-- The stores of constants to the variable `v`. -/
def storesIn (v : ℕ) (is : List Inst) : List ConstStore := is.filterMap (storeTo? sh v)

/-- What a store gives the component `c` of the vector `p`. -/
def giveStep (p : List ℕ) (c : ℕ) (x : Option ℕ) (st : ConstStore) : Option ℕ :=
  if st.path = p ∧ st.mask.getLsbD c then some (st.value c) else x

/-- What a store gives the component if its mask does not matter. -/
def builtStep (p : List ℕ) (c x : ℕ) (st : ConstStore) : ℕ :=
  if st.path = p then st.value c else x

/-- The value that the initializer and the stores of constants give a component of `v`. -/
def Shader.given (v : ℕ) (p : List ℕ) (c : ℕ) : Option ℕ :=
  (storesIn sh v sh.instrs).foldl (giveStep p c) (sh.initial v p c)

/-- The value of the last store to the vector `p` of `v`, whatever its mask, and zero without
one. -/
def Shader.built (v : ℕ) (p : List ℕ) (c : ℕ) : ℕ :=
  (storesIn sh v sh.instrs).foldl (builtStep p c) 0

/-- No member on the way has an offset. -/
def noFieldOffset : Glsl.GlslType → List Link → Prop
  | _, [] => True
  | t, l :: ls =>
    (∀ k, l = .struct k → fieldOffset t k = 0) ∧ ∀ u, followLink t l = some u → noFieldOffset u ls

variable (sizeAlign : SizeAlign) (threshold : BitVec 32)

/-- A local variable that the pass moves: it is constant, above the threshold, and read. -/
def Shader.toMove (v : ℕ) : Bool :=
  (sh.infos v).isConstant &&
    (decide (threshold < (sizeAlign (sh.vars v).type).1) && (sh.infos v).foundRead)

/-- The variable is moved to constant data. -/
def Shader.moved (v : ℕ) : Bool := decide (v ∈ sh.locals) && sh.toMove sizeAlign threshold v

/-- The vector `p` of `v` is in bounds, and inside the size that the callback gives the variable. -/
def Shader.insideRegion (v : ℕ) (p : List ℕ) : Prop :=
  naturalPlacing.inBounds (sh.vars v).type p = true ∧
    ∃ u, naturalPlacing.partAt (sh.vars v).type p = some u ∧ isNirVector u = true ∧
      naturalPlacing.offsetAt (sh.vars v).type p + u.naturalSize ≤
        (sizeAlign (sh.vars v).type).1.toNat

/-- The variables that follow `size` bytes of constant data have alignments, to which `ALIGN_POT`
takes them, and do not take it beyond what an `unsigned` holds. Locations are an `int`. -/
def Shader.regionsFit : List ℕ → ℕ → Prop
  | [], _ => True
  | v :: vs, size =>
    if sh.toMove sizeAlign threshold v then
      let varSize := (sizeAlign (sh.vars v).type).1.toNat
      let varAlign := (sizeAlign (sh.vars v).type).2.toNat
      0 < varAlign ∧ Glsl.alignUp size varAlign % varAlign = 0 ∧
        size + (varAlign - 1) < 2 ^ 32 ∧ Glsl.alignUp size varAlign < 2 ^ 31 ∧
        Glsl.alignUp size varAlign + varSize < 2 ^ 32 ∧
          regionsFit vs (Glsl.alignUp size varAlign + varSize)
    else regionsFit vs size

/-- Moving variables to constant data keeps their values. -/
structure Shader.Kept : Prop where
  /-- The default for the callback is defined on the types for which it is called. -/
  sizes : sizeAlign = Glsl.glslGetNaturalSizeAlignBytes →
    ∀ v ∈ sh.locals, (sh.infos v).isConstant = true →
    (sh.vars v).type.hasNaturalSize = true
  /-- The types have a natural layout, which does not place two members on each other. -/
  laidOut : ∀ v, sh.moved sizeAlign threshold v = true → (sh.vars v).type.laidOut = true
  /-- The sizes of the natural layout do not wrap around. -/
  natural : ∀ v, sh.moved sizeAlign threshold v = true → (sh.vars v).type.naturalSize < 2 ^ 32
  /-- The regions follow each other. -/
  regions : sh.regionsFit sizeAlign threshold sh.locals 0
  /-- Stores are in bounds, and inside the size from the callback. -/
  stores : ∀ v, sh.moved sizeAlign threshold v = true → ∀ st ∈ storesIn sh v sh.instrs,
    sh.insideRegion sizeAlign v st.path
  /-- So are the components with an initializer. -/
  initial : ∀ v, sh.moved sizeAlign threshold v = true → ∀ p c x, sh.initial v p c = some x →
    sh.insideRegion sizeAlign v p
  /-- No store overwrites a component that its mask leaves out, and no initializer is lost. -/
  values : ∀ v, sh.moved sizeAlign threshold v = true → ∀ p c x, sh.given v p c = some x →
    sh.built v p c = x
  /-- Loads do not go through a member with an offset. -/
  loads : ∀ dest src, .loadDeref dest src ∈ sh.instrs →
    sh.moved sizeAlign threshold src.var = true →
    noFieldOffset (sh.vars src.var).type src.path
  /-- Copies are of one vector or scalar, and do not go through a member with an offset. -/
  copies : ∀ dst src, .copyDeref dst src ∈ sh.instrs → sh.moved sizeAlign threshold src.var = true →
    sh.vectorDeref src ∧ noFieldOffset (sh.vars src.var).type src.path

end

/-! ### Locations -/

variable {v c : ℕ} {l location : BitVec 32} {t u : Glsl.GlslType} {path : List Link}
  {infos : ℕ → VarInfo} {i : Inst} {is : List Inst} {p : List ℕ} {w : ConstantWrite}

section

variable {sh : Shader} {sizeAlign : SizeAlign} {threshold : BitVec 32}

/-- The loop over the locals, on a variable. -/
theorem reserveFrom_cons (v : ℕ) (vs : List ℕ) (size : BitVec 32) :
    reserveFrom sh sizeAlign threshold (v :: vs) size =
      if sh.toMove sizeAlign threshold v then
        let location := Glsl.alignPot size (sizeAlign (sh.vars v).type).2
        let r := reserveFrom sh sizeAlign threshold vs (location + (sizeAlign (sh.vars v).type).1)
        ((v, location) :: r.1, r.2)
      else reserveFrom sh sizeAlign threshold vs size := by
  have hlt : threshold < (sizeAlign (sh.vars v).type).1 ↔
      ¬ (sizeAlign (sh.vars v).type).1 ≤ threshold := BitVec.not_le.symm
  by_cases hc : (sh.infos v).isConstant = true
  · by_cases hr : (sh.infos v).foundRead = true
    · by_cases h : (sizeAlign (sh.vars v).type).1 ≤ threshold <;>
        simp [reserveFrom, toMove, hc, hr, h, hlt]
    · simp [reserveFrom, toMove, hr]
  · simp [reserveFrom, toMove, hc]

/-- The variables with a location. -/
theorem lookup_reserveFrom_isSome (vs : List ℕ) (size : BitVec 32) (v : ℕ) :
    ((reserveFrom sh sizeAlign threshold vs size).1.lookup v).isSome =
      (decide (v ∈ vs) && sh.toMove sizeAlign threshold v) := by
  induction vs generalizing size with
  | nil => rfl
  | cons w vs ih =>
    rw [reserveFrom_cons]
    by_cases hw : v = w
    · subst hw
      cases hm : sh.toMove sizeAlign threshold v with
      | true => simp
      | false => simp [ih, hm]
    · cases hm : sh.toMove sizeAlign threshold w with
      | true =>
        have hne : (v == w) = false := by simpa using hw
        simp [lookup_cons, hne, hw, ih]
      | false => simp [hw, ih]

/-- The variables with a location are those that are moved. -/
theorem moved_of_location (hv : sh.Valid) {o : Option (BitVec 32)}
    (h : sh.location sizeAlign threshold v = o) : sh.moved sizeAlign threshold v = o.isSome := by
  rw [← h]
  unfold location moved reserve
  split_ifs with hmode
  · exact (lookup_reserveFrom_isSome _ _ _).symm
  · have hmem : v ∉ sh.locals := fun h => hmode (hv.mode v h)
    simp [hmem]

/-- Two variables with their locations do not share a byte. -/
def Apart (sh : Shader) (sizeAlign : SizeAlign) (x y : ℕ × BitVec 32) : Prop :=
  x.2.toNat + (sizeAlign (sh.vars x.1).type).1.toNat ≤ y.2.toNat ∨
    y.2.toNat + (sizeAlign (sh.vars y.1).type).1.toNat ≤ x.2.toNat

/-- The regions lie behind the bytes in front of them and below the size of the constant data, and
apart from each other. -/
theorem reserveFrom_spec {vs : List ℕ} {size : BitVec 32}
    (h : sh.regionsFit sizeAlign threshold vs size.toNat) :
    let r := reserveFrom sh sizeAlign threshold vs size
    size.toNat ≤ r.2.toNat ∧
    (∀ x ∈ r.1, size.toNat ≤ x.2.toNat ∧ x.2.toNat < 2 ^ 31 ∧
      x.2.toNat + (sizeAlign (sh.vars x.1).type).1.toNat ≤ r.2.toNat ∧
      (sizeAlign (sh.vars x.1).type).2 ≠ 0 ∧ x.2 % (sizeAlign (sh.vars x.1).type).2 = 0) ∧
    r.1.Pairwise (Apart sh sizeAlign) := by
  intro r
  unfold r
  induction vs generalizing size with
  | nil => simp [reserveFrom]
  | cons v vs ih =>
    rw [reserveFrom_cons]
    unfold regionsFit at h
    split_ifs at h with hm
    · obtain ⟨hpos, hmod, hsum, hint, hend, hrest⟩ := h
      have hloc := Glsl.toNat_alignPot hsum
      have hle := Glsl.le_alignUp size.toNat hpos
      rw [if_pos hm]
      dsimp only
      generalize hl : Glsl.alignPot size (sizeAlign (sh.vars v).type).2 = location at hloc ⊢
      have hbehind : (location + (sizeAlign (sh.vars v).type).1).toNat =
          location.toNat + (sizeAlign (sh.vars v).type).1.toNat := by
        rw [BitVec.toNat_add, Nat.mod_eq_of_lt (by omega)]
      rw [← hloc, ← hbehind] at hrest
      obtain ⟨h1, h2, h3⟩ := ih hrest
      rw [hbehind] at h1 h2
      refine ⟨by omega, ?_, pairwise_cons.mpr ⟨?_, h3⟩⟩
      · intro x hx
        rcases mem_cons.mp hx with rfl | hx
        · dsimp only
          refine ⟨by omega, by omega, by omega, fun h0 => ?_, BitVec.eq_of_toNat_eq ?_⟩
          · rw [h0] at hpos
            exact absurd hpos (by decide)
          · rw [BitVec.toNat_umod, hloc]
            exact hmod
        · obtain ⟨h4, h5, h6⟩ := h2 x hx
          exact ⟨by omega, h5, h6⟩
      · intro x hx
        exact .inl (h2 x hx).1
    · rw [if_neg hm]
      exact ih h

/-- A location as an entry of the list of them. -/
theorem mem_reserve_of_location (h : sh.location sizeAlign threshold v = some l) :
    (v, l) ∈ (sh.reserve sizeAlign threshold).1 := by
  unfold location at h
  split at h
  · obtain ⟨front, back, hlist, -⟩ := lookup_eq_some_iff.mp h
    rw [hlist]
    simp
  · cases h

/-- A location is a small number, and its region ends inside the constant data. -/
theorem location_spec (hk : sh.Kept sizeAlign threshold)
    (h : sh.location sizeAlign threshold v = some l) :
    l.toInt = l.toNat ∧ l.toNat + (sizeAlign (sh.vars v).type).1.toNat ≤
      (sh.reserve sizeAlign threshold).2.toNat := by
  have hspec := (@reserveFrom_spec sh sizeAlign threshold sh.locals 0 hk.regions).2.1
  obtain ⟨-, hlt, hend, -⟩ := hspec _ (mem_reserve_of_location h)
  have hlt' : l.toNat < 2 ^ 31 := hlt
  exact ⟨BitVec.toInt_eq_toNat_of_lt (by omega), hend⟩

/-- The assertions of `build_constant_load` hold. -/
theorem assertion_of_kept (hk : sh.Kept sizeAlign threshold) (i : Inst) :
    assertion sh sizeAlign threshold i = true := by
  have hspec := (@reserveFrom_spec sh sizeAlign threshold sh.locals 0 hk.regions).2.1
  have hsrc : ∀ v, (sh.location sizeAlign threshold v).all (fun location =>
      (sizeAlign (sh.vars v).type).2 ≠ 0 ∧
        location % (sizeAlign (sh.vars v).type).2 = 0) = true := by
    intro v
    cases h : sh.location sizeAlign threshold v with
    | none => rfl
    | some l => exact decide_eq_true (hspec _ (mem_reserve_of_location h)).2.2.2
  cases i with
  | loadDeref | copyDeref => exact hsrc _
  | _ => rfl

/-- The regions of two variables do not overlap. -/
theorem location_apart (hk : sh.Kept sizeAlign threshold) {w : ℕ} {m : BitVec 32}
    (hv : sh.location sizeAlign threshold v = some l)
    (hw : sh.location sizeAlign threshold w = some m) (hne : v ≠ w) :
    Apart sh sizeAlign (v, l) (w, m) := by
  have hpair := (@reserveFrom_spec sh sizeAlign threshold sh.locals 0 hk.regions).2.2
  have : Std.Symm (Apart sh sizeAlign) := ⟨fun _ _ h => h.symm⟩
  exact hpair.forall (mem_reserve_of_location hv) (mem_reserve_of_location hw)
    (fun h => hne (congrArg Prod.fst h))

end

/-! ### Offsets -/

/-- The number of the part that a link leads to. -/
def linkNumber (ρ : ℕ → ℕ) : Link → ℕ
  | .array i => i.eval ρ
  | .struct k => k
  | .arrayWildcard => 0

/-- A chain without wildcards is filled in link by link. -/
theorem fillPath_cons {ρ : ℕ → ℕ} {l : Link} (h : l ≠ .arrayWildcard) (ls : List Link) :
    fillPath ρ (l :: ls) [] = linkNumber ρ l :: fillPath ρ ls [] := by
  cases l with
  | array | struct => rfl
  | arrayWildcard => exact absurd rfl h

/-- The part that a link leads to. -/
theorem part_linkNumber {l : Link} (ρ : ℕ → ℕ) (ht : ¬IsVector t) (h : followLink t l = some u) :
    t.part (linkNumber ρ l) = some u := by
  cases l with
  | struct k =>
    cases t with
    | struct | interface => exact h
    | _ => cases h
  | array | arrayWildcard =>
    cases t with
    | array element length => exact h
    | numeric base rows columns =>
      have hc : 1 < columns := not_le.mp ht
      simpa [followLink, Glsl.GlslType.part, hc] using h
    | _ => cases h

/-- The offset of an element. -/
theorem partOffset_array {i : Index} (ρ : ℕ → ℕ) (ht : ¬IsVector t)
    (h : followLink t (.array i) = some u) :
    partOffset t (i.eval ρ) = BitVec.ofNat 32 (i.eval ρ) * Glsl.typeGetArrayStride u := by
  have hpart := part_linkNumber ρ ht h
  simp only [linkNumber] at hpart
  cases t with
  | struct | interface => cases h
  | _ => simp [partOffset, hpart]

/-- The offset of a member. -/
theorem partOffset_struct {k : ℕ} (h : followLink t (.struct k) = some u) :
    partOffset t k = fieldOffset t k := by
  cases t with
  | struct | interface => rfl
  | _ => cases h

/-- The type of a deref is that of the part that its chain leads to. -/
theorem partAt_fillPath (ρ : ℕ → ℕ) (hw : .arrayWildcard ∉ path) (hn : noVectorLink t path)
    (h : derefType t path = some u) :
    naturalPlacing.partAt t (fillPath ρ path []) = some u := by
  induction path generalizing t with
  | nil => exact h
  | cons l ls ih =>
    obtain ⟨hl, hls⟩ := not_or.mp (mt mem_cons.mpr hw)
    obtain ⟨w, hw', hu⟩ := bind_eq_some_iff.mp h
    rw [fillPath_cons (fun h => hl h.symm),
      Placing.partAt_cons_of_part (part_linkNumber ρ hn.1 hw')]
    exact ih hls (hn.2 w hw') hu

/-- The offset of a path, link by link. -/
theorem pathOffset_cons {l : Link} (ρ : ℕ → ℕ) (ht : ¬IsVector t)
    (h : followLink t l = some u) (p : List ℕ) :
    pathOffset t (linkNumber ρ l :: p) =
      partOffset t (linkNumber ρ l) + pathOffset u p := by
  simp [pathOffset, part_linkNumber ρ ht h]

/-- `nir_deref_instr_get_const_offset` adds up the offsets of the parts. -/
theorem constOffsetFrom_eq (ρ : ℕ → ℕ) (hw : .arrayWildcard ∉ path) (hn : noVectorLink t path)
    (hi : hasIndirect path = false) (h : derefType t path = some u) (offset : BitVec 32) :
    constOffsetFrom t path offset = offset + pathOffset t (fillPath ρ path []) := by
  induction path generalizing t offset with
  | nil => simp [constOffsetFrom, fillPath, pathOffset]
  | cons l ls ih =>
    obtain ⟨hl, hls⟩ := not_or.mp (mt mem_cons.mpr hw)
    obtain ⟨w, hw', hu⟩ := bind_eq_some_iff.mp h
    rw [fillPath_cons (fun h => hl h.symm), pathOffset_cons ρ hn.1 hw']
    unfold constOffsetFrom
    simp only [hw']
    cases l with
    | array i =>
      cases i with
      | const value =>
        rw [ih hls (hn.2 w hw') hi hu, ← BitVec.add_assoc,
          show linkNumber ρ (.array (.const value)) =
          (Index.const value).eval ρ from rfl, partOffset_array ρ hn.1 hw']
        rfl
      | ssa d => simp [hasIndirect] at hi
    | struct k =>
      rw [ih hls (hn.2 w hw') hi hu, ← BitVec.add_assoc, show linkNumber ρ (.struct k) = k from rfl,
        partOffset_struct hw']
    | arrayWildcard => exact absurd rfl hl

/-- The offsets of the members on the way. -/
def memberOffsets : Glsl.GlslType → List Link → BitVec 32
  | _, [] => 0
  | t, l :: ls =>
    match followLink t l with
    | none => 0
    | some u => (match l with | .struct k => fieldOffset t k | _ => 0) + memberOffsets u ls

/-- Without members there are no offsets of members. -/
theorem memberOffsets_eq_zero (hf : noFieldOffset t path) : memberOffsets t path = 0 := by
  induction path generalizing t with
  | nil => rfl
  | cons l ls ih =>
    unfold memberOffsets
    cases hl : followLink t l with
    | none => rfl
    | some u =>
      cases l with
      | struct k => simp [hf.1 k rfl, ih (hf.2 u hl)]
      | _ => simp [ih (hf.2 u hl)]

/-- `nir_build_deref_offset` adds up the offsets of the parts, those of members left out. -/
theorem eval_buildDerefOffsetFrom (ρ : ℕ → ℕ) (hw : .arrayWildcard ∉ path)
    (hn : noVectorLink t path)
    (h : derefType t path = some u) (offset : Offset) :
    (buildDerefOffsetFrom t path offset).eval ρ + memberOffsets t path =
      offset.eval ρ + pathOffset t (fillPath ρ path []) := by
  induction path generalizing t offset with
  | nil => simp [buildDerefOffsetFrom, memberOffsets, fillPath, pathOffset]
  | cons l ls ih =>
    obtain ⟨hl, hls⟩ := not_or.mp (mt mem_cons.mpr hw)
    obtain ⟨w, hw', hu⟩ := bind_eq_some_iff.mp h
    rw [fillPath_cons (fun h => hl h.symm), pathOffset_cons ρ hn.1 hw']
    unfold buildDerefOffsetFrom memberOffsets
    simp only [hw']
    have ih := fun offset => ih hls (hn.2 w hw') hu offset
    cases l with
    | array i =>
      show _ + (0#32 + _) = _
      rw [BitVec.zero_add, ih, ← BitVec.add_assoc, show linkNumber ρ (.array i) = i.eval ρ from rfl,
        partOffset_array ρ hn.1 hw']
      rfl
    | struct k =>
      rw [show linkNumber ρ (.struct k) = k from rfl, partOffset_struct hw']
      calc (buildDerefOffsetFrom w ls offset).eval ρ + (fieldOffset t k + memberOffsets w ls)
        _ = fieldOffset t k + ((buildDerefOffsetFrom w ls offset).eval ρ + memberOffsets w ls) := by
          ac_rfl
        _ = fieldOffset t k + (offset.eval ρ + pathOffset w (fillPath ρ ls [])) := by rw [ih offset]
        _ = offset.eval ρ + (fieldOffset t k + pathOffset w (fillPath ρ ls [])) := by ac_rfl
    | arrayWildcard => exact absurd rfl hl

/-- On a chain with constant indices the offsets of the members are all that
`nir_build_deref_offset` leaves out. -/
theorem eval_add_memberOffsets (ρ : ℕ → ℕ) (hw : .arrayWildcard ∉ path)
    (hi : hasIndirect path = false)
    (offset : Offset) (d : BitVec 32) :
    (buildDerefOffsetFrom t path offset).eval ρ + (d + memberOffsets t path) =
      constOffsetFrom t path (offset.eval ρ + d) := by
  induction path generalizing t offset d with
  | nil => simp [buildDerefOffsetFrom, memberOffsets, constOffsetFrom]
  | cons l ls ih =>
    obtain ⟨hl, hls⟩ := not_or.mp (mt mem_cons.mpr hw)
    unfold buildDerefOffsetFrom memberOffsets constOffsetFrom
    cases hu : followLink t l with
    | none => exact congrArg _ (BitVec.add_zero d)
    | some u =>
      cases l with
      | array i =>
        cases i with
        | const value =>
          show _ + (d + (0#32 + _)) = _
          rw [BitVec.zero_add, ih hls hi]
          simp only [Offset.eval, Index.eval, constIndex]
          ac_rfl
        | ssa x => simp [hasIndirect] at hi
      | struct k =>
        dsimp only
        rw [← BitVec.add_assoc d, ih hls hi, BitVec.add_assoc]
      | arrayWildcard => exact absurd rfl hl

/-- The types whose natural sizes the offset of a chain asks for have one: those of the elements,
and those of a member and of all members before it. -/
def sizesExist : Glsl.GlslType → List Link → Bool
  | _, [] => true
  | t, l :: ls =>
    (match l with
      | .array _ => (followLink t l).all Glsl.GlslType.hasNaturalSize
      | .struct k => (range (k + 1)).all fun j =>
          (followLink t (.struct j)).all Glsl.GlslType.hasNaturalSize
      | .arrayWildcard => true) &&
      (followLink t l).all fun u => sizesExist u ls

/-- The chains for which `nir_deref_instr_get_const_offset` is defined. -/
structure HasConstOffset (t : Glsl.GlslType) (path : List Link) : Prop where
  /-- Each link fits the type of its parent. -/
  typed : (derefType t path).isSome = true
  /-- There are no wildcards. -/
  noWildcard : .arrayWildcard ∉ path
  /-- The indices are constant. -/
  const : hasIndirect path = false
  /-- The natural sizes are defined. -/
  sizes : sizesExist t path = true

/-- The instructions of `nir_build_deref_offset` and `nir_deref_instr_get_const_offset` agree on a
chain of members and constant indices if the offsets of the members add up to zero, and only
then. -/
theorem nirBuildDerefOffset_eq_iff (ρ : ℕ → ℕ) {t : Glsl.GlslType} {path : List Link}
    (h : HasConstOffset t path) :
    (nirBuildDerefOffset t path).eval ρ = nirDerefInstrGetConstOffset t path ↔
      memberOffsets t path = 0 := by
  have heq : (nirBuildDerefOffset t path).eval ρ + memberOffsets t path =
      nirDerefInstrGetConstOffset t path := by
    have hsum := eval_add_memberOffsets (t := t) ρ h.noWildcard h.const (.immInt 0) 0#32
    rw [BitVec.zero_add] at hsum
    exact hsum
  rw [← heq]
  constructor <;> intro h
  · bv_omega
  · rw [h]
    exact (BitVec.add_zero _).symm

/-- A structure of two numbers. -/
def pair : Glsl.GlslType :=
  .struct false ⟨[], by simp⟩ (.cons (.numeric .float 1 1) ⟨[], by simp⟩ 0
    (.cons (.numeric .float 1 1) ⟨[], by simp⟩ 0 .nil))

/-- An array of them. -/
def pairs : Glsl.GlslType := .array pair 3

/-- They agree on the first number of the third structure. -/
theorem nirBuildDerefOffset_eq_iff_first :
    (nirBuildDerefOffset pairs [.array (.const 2), .struct 0]).eval (fun _ => 0) =
        nirDerefInstrGetConstOffset pairs [.array (.const 2), .struct 0] ↔
      memberOffsets pairs [.array (.const 2), .struct 0] = 0 :=
  nirBuildDerefOffset_eq_iff _ ⟨rfl, by decide, rfl, by decide⟩

/-- The second number of the third structure is at 20, and the instructions compute 16. -/
theorem nirBuildDerefOffset_second :
    (nirBuildDerefOffset pairs [.array (.const 2), .struct 1]).eval (fun _ => 0) = 16 ∧
      nirDerefInstrGetConstOffset pairs [.array (.const 2), .struct 1] = 20 := by
  decide +kernel

/-! ### The bytes of components -/

/-- The base types of NIR values. -/
def IsData (base : GlslBaseType) : Prop := componentBytes base ≠ 0

/-- The vectors and scalars of NIR. -/
theorem isNirVector_cases (h : isNirVector u = true) :
    ∃ base rows, u = .numeric base rows 1 ∧ rows ≤ 4 ∧ IsData base := by
  cases u with
  | numeric base rows columns =>
    simp only [isNirVector, Bool.and_eq_true, beq_iff_eq, decide_eq_true_eq] at h
    obtain ⟨hdecl, rfl, hrows⟩ := h
    refine ⟨base, rows, rfl, hrows, ?_⟩
    unfold IsData
    cases base <;> simp_all [Glsl.numericDeclared, componentBytes, glslGetBitSize]
  | _ => simp [isNirVector] at h

/-- The number that the bytes of a component stand for. -/
def decodeComponent (base : GlslBaseType) (bytes : List (BitVec 8)) : ℕ :=
  if base = .bool then if Blob.ofBytes bytes = 0 then 0 else 1 else Blob.ofBytes bytes

section

variable {base : GlslBaseType}

/-- A load of the component takes as many bytes as the layout gives it. -/
theorem IsData.loadBytes (h : IsData base) :
    (if glslGetBitSize base < 8 then 32 else glslGetBitSize base) / 8 =
      componentBytes base := by
  cases base <;> first | rfl | exact absurd rfl h

/-- Only booleans are converted. -/
theorem IsData.bitSize_lt (h : IsData base) : glslGetBitSize base < 8 ↔ base = .bool := by
  cases base <;> first | decide | exact absurd rfl h

/-- A store writes as many bytes as the layout gives the component. -/
theorem IsData.length_componentData (h : IsData base) (x : ℕ) :
    (componentData (glslGetBitSize base) x).length = componentBytes base := by
  unfold componentData
  rw [apply_ite length, Blob.length_toBytes, Blob.length_toBytes]
  cases base <;> first | rfl | exact absurd rfl h

/-- What a store writes is what a load reads. -/
theorem IsData.decode_componentData (h : IsData base) (x : ℕ) :
    decodeComponent base (componentData (glslGetBitSize base) x) =
      x % 2 ^ glslGetBitSize base := by
  have hplain : ∀ bits, bits ≠ 1 → 256 ^ (bits / 8) = 2 ^ bits →
      Blob.ofBytes (componentData bits x) = x % 2 ^ bits := by
    intro bits hne hpow
    rw [componentData, if_neg hne, Blob.ofBytes_toBytes]
    rw [hpow]
    exact Nat.mod_lt _ (Nat.two_pow_pos _)
  unfold decodeComponent
  cases base
  case bool =>
    rw [if_pos rfl]
    show (if Blob.ofBytes (componentData 1 x) = 0 then 0 else 1) = x % 2 ^ 1
    rcases Nat.mod_two_eq_zero_or_one x with h0 | h1
    · rw [componentData, if_pos rfl, pow_one, h0]
      rfl
    · rw [componentData, if_pos rfl, pow_one, h1]
      rfl
  all_goals first
    | exact absurd rfl h
    | exact hplain _ (by decide) (by decide)

end

/-- Bytes that are zero stand for zero. -/
theorem decodeComponent_zero (base : GlslBaseType) (a : ℤ) (n : ℕ) :
    decodeComponent base (ByteMem.read (fun _ => 0) a n) = 0 := by
  have hzero : Blob.ofBytes (ByteMem.read (fun _ => 0) a n) = 0 := by
    unfold ByteMem.read
    induction range n with
    | nil => rfl
    | cons k ks ih =>
      simp only [map_cons, Blob.ofBytes, ih]
      rfl
  unfold decodeComponent
  rw [hzero]
  split <;> rfl

/-- The natural size of a vector. -/
theorem naturalSize_vector (base : GlslBaseType) (rows : ℕ) :
    (Glsl.GlslType.numeric base rows 1).naturalSize = rows * componentBytes base := by
  rw [Glsl.naturalSize_numeric, mul_one, mul_comm]

/-- The bytes of the components in front of one are as many as their number says. -/
theorem length_flatMap_range {n : ℕ} (f : ℕ → List (BitVec 8)) {k : ℕ}
    (h : ∀ c, (f c).length = k) : ((range n).flatMap f).length = n * k := by
  simp [length_flatMap, h]

/-- The bytes of a list of components, split at one. -/
theorem flatMap_range_split (f : ℕ → List (BitVec 8)) {n : ℕ} (h : c < n) :
    ∃ back, (range n).flatMap f = (range c).flatMap f ++ f c ++ back := by
  obtain ⟨d, rfl⟩ : ∃ d, n = (c + 1) + d := ⟨n - (c + 1), by omega⟩
  rw [range_add, range_succ]
  exact ⟨_, by simp [flatMap_append]; rfl⟩

/-! ### The scan -/

/-- The deref that an instruction writes. -/
def Inst.dst? : Inst → Option Deref
  | .storeDeref dst _ _ | .copyDeref dst _ => some dst
  | _ => none

/-- The instruction loads or copies from the variable. -/
def Inst.reads (v : ℕ) : Inst → Bool
  | .loadDeref _ src | .copyDeref _ src => src.var == v
  | _ => false

/-- The instruction stores a constant. -/
def Inst.isConstStore : Inst → Bool
  | .storeDeref _ value _ => value.isConst
  | _ => false

/-- The instruction writes the variable as the scan allows it. -/
def Inst.constWrite (v : ℕ) (i : Inst) : Prop :=
  ∀ dst, i.dst? = some dst → dst.var = v → hasIndirect dst.path = false ∧ i.isConstStore = true

/-- The instructions write the variable as the scan allows it, and do not write it after a read,
which may have been found before. -/
def ConstUse (v : ℕ) (firstBlock : Bool) : Bool → List Inst → Prop
  | _, [] => True
  | foundRead, i :: is =>
    (∀ dst, i.dst? = some dst → dst.var = v → foundRead = false ∧ firstBlock = true) ∧
      i.constWrite v ∧ ConstUse v firstBlock (foundRead || i.reads v) is

section

variable {vars : ℕ → Variable} {v : ℕ} {firstBlock : Bool}

/-- A variable that stays constant was written before it is read, by constants, in the first
block. -/
theorem noteWrite_spec (hv : (vars v).mode = .local) {dst : Deref} {c : Bool}
    (h : (noteWrite vars firstBlock infos dst c v).isConstant = true) :
    noteWrite vars firstBlock infos dst c v = infos v ∧ (dst.var = v → (infos v).foundRead = false ∧
      firstBlock = true ∧ hasIndirect dst.path = false ∧ c = true) := by
  unfold noteWrite at h ⊢
  by_cases hvar : v = dst.var
  · subst hvar
    rw [if_pos hv] at h ⊢
    simp only [setInfo, if_true] at h ⊢
    split_ifs at h with hcond
    rw [if_neg hcond]
    simp only [Bool.or_eq_true, Bool.not_eq_true', not_or, Bool.not_eq_false,
      Bool.not_eq_true] at hcond
    exact ⟨rfl, fun _ => ⟨hcond.1.1.2, hcond.1.2, hcond.2, hcond.1.1.1⟩⟩
  · refine ⟨?_, fun h => absurd h.symm hvar⟩
    split
    · simp [setInfo, hvar]
    · rfl

/-- A read is noted for its variable. -/
theorem noteRead_spec (hv : (vars v).mode = .local) (infos : ℕ → VarInfo) (src : Deref) :
    noteRead vars infos src v =
      { infos v with foundRead := (infos v).foundRead || src.var == v } := by
  unfold noteRead
  by_cases hvar : v = src.var
  · subst hvar
    rw [if_pos hv]
    simp [setInfo]
  · have hne : (src.var == v) = false := by simpa using fun h => hvar h.symm
    split
    · simp [setInfo, hvar, hne]
    · simp [hne]

/-- What the scan of an instruction finds out about a variable that stays constant. -/
theorem scanInstr_spec (hv : (vars v).mode = .local)
    (h : (scanInstr vars firstBlock infos i v).isConstant = true) :
    (infos v).isConstant = true ∧
      (scanInstr vars firstBlock infos i v).foundRead = ((infos v).foundRead || i.reads v) ∧
      (∀ dst, i.dst? = some dst → dst.var = v → (infos v).foundRead = false ∧ firstBlock = true) ∧
      i.constWrite v := by
  cases i with
  | loadDeref dest src =>
    simp only [scanInstr, noteRead_spec hv] at h ⊢
    exact ⟨h, rfl, (fun _ h => nomatch h), fun _ h => nomatch h⟩
  | storeDeref dst value mask =>
    simp only [scanInstr] at h ⊢
    obtain ⟨heq, hw⟩ := noteWrite_spec hv h
    rw [heq] at h ⊢
    refine ⟨h, by simp [Inst.reads], ?_, ?_⟩
    · rintro d ⟨⟩ hvar
      exact ⟨(hw hvar).1, (hw hvar).2.1⟩
    · rintro d ⟨⟩ hvar
      exact (hw hvar).2.2
  | copyDeref dst src =>
    simp only [scanInstr, noteRead_spec hv] at h ⊢
    obtain ⟨heq, hw⟩ := noteWrite_spec hv h
    rw [heq] at h ⊢
    have hne : dst.var ≠ v := fun hvar => by simpa using (hw hvar).2.2.2
    refine ⟨h, rfl, ?_, ?_⟩
    all_goals
      rintro d ⟨⟩ hvar
      exact absurd hvar hne
  | other op dest srcs =>
    exact ⟨h, by simp [scanInstr, Inst.reads], (fun _ h => nomatch h), fun _ h => nomatch h⟩

/-- What the scan of instructions finds out about a variable that stays constant. -/
theorem scan_spec (hv : (vars v).mode = .local)
    (h : (is.foldl (scanInstr vars firstBlock) infos v).isConstant = true) :
    (infos v).isConstant = true ∧ ConstUse v firstBlock (infos v).foundRead is := by
  induction is generalizing infos with
  | nil => exact ⟨h, trivial⟩
  | cons i is ih =>
    obtain ⟨hconst, huse⟩ := ih h
    obtain ⟨h1, h2, h3, h4⟩ := scanInstr_spec hv hconst
    rw [h2] at huse
    exact ⟨h1, h3, h4, huse⟩

/-- Allowed writes are direct stores of constants. -/
theorem ConstUse.constWrite {foundRead : Bool} (h : ConstUse v firstBlock foundRead is) :
    ∀ i ∈ is, i.constWrite v := by
  induction is generalizing foundRead with
  | nil => simp
  | cons j is ih =>
    intro i hi
    rcases mem_cons.mp hi with rfl | hi
    · exact h.2.1
    · exact ih h.2.2 i hi

/-- Nothing is written after a read, and nothing outside of the first block. -/
theorem ConstUse.not_written {foundRead : Bool} (h : ConstUse v firstBlock foundRead is)
    (hno : foundRead = true ∨ firstBlock = false) :
    ∀ i ∈ is, ∀ dst, i.dst? = some dst → dst.var ≠ v := by
  induction is generalizing foundRead with
  | nil => simp
  | cons j is ih =>
    intro i hi dst hdst hvar
    rcases mem_cons.mp hi with rfl | hi
    · obtain ⟨h1, h2⟩ := h.1 dst hdst hvar
      rcases hno with hno | hno
      · rw [h1] at hno
        cases hno
      · rw [h2] at hno
        cases hno
    · refine ih h.2.2 ?_ i hi dst hdst hvar
      rcases hno with hno | hno
      · exact .inl (by simp [hno])
      · exact .inr hno

end

/-- The first block and the others use a variable that is moved as the scan allows it. -/
theorem Shader.constUse {sh : Shader} (hv : sh.Valid) {sizeAlign : SizeAlign}
    {threshold : BitVec 32} (h : sh.moved sizeAlign threshold v = true) :
    ConstUse v true false sh.body.first.instrs ∧
      ∃ foundRead, ConstUse v false foundRead (sh.body.blocks.tail.flatMap Block.instrs) := by
  simp only [moved, toMove, Bool.and_eq_true, decide_eq_true_eq] at h
  have hmode := hv.mode v h.1
  have hconst := h.2.1
  unfold infos scanBlock at hconst
  rw [← foldl_flatMap] at hconst
  obtain ⟨hfirst, hrest⟩ := scan_spec hmode hconst
  exact ⟨(scan_spec hmode hfirst).2, _, hrest⟩

/-- The instructions of the first block, and the others. -/
theorem Shader.instrs_eq (sh : Shader) :
    sh.instrs = sh.body.first.instrs ++ sh.body.blocks.tail.flatMap Block.instrs := by
  unfold instrs
  nth_rewrite 1 [CfList.blocks_eq_cons]
  rw [flatMap_cons]

/-- A variable that is moved is written by direct stores of constants only. -/
theorem Shader.constWrite {sh : Shader} (hv : sh.Valid) {sizeAlign : SizeAlign}
    {threshold : BitVec 32} (h : sh.moved sizeAlign threshold v = true) :
    ∀ i ∈ sh.instrs, i.constWrite v := by
  obtain ⟨hfirst, foundRead, hrest⟩ := sh.constUse hv h
  intro i hi
  rw [sh.instrs_eq] at hi
  rcases mem_append.mp hi with hi | hi
  · exact hfirst.constWrite i hi
  · exact hrest.constWrite i hi

/-! ### The constant data -/

section

variable (sh : Shader) (sizeAlign : SizeAlign)

/-- What the constant data holds for the vector `p` of a variable at `location`. -/
def imageAt (data : ByteMem) (location : BitVec 32) (v : ℕ) (p : List ℕ) : Value :=
  match naturalPlacing.partAt (sh.vars v).type p with
  | some u => (buildConstantLoad sh sizeAlign v location u (.immInt 0)).value data
      (pathOffset (sh.vars v).type p)
  | none => fun _ => 0

variable {sh sizeAlign}

/-- The component that a load of constant data returns. -/
theorem imageAt_eq {data : ByteMem} {rows : ℕ} {base : GlslBaseType} (hb : IsData base)
    (hu : naturalPlacing.partAt (sh.vars v).type p = some (.numeric base rows 1))
    (hc : c < rows) :
    imageAt sh sizeAlign data location v p c = decodeComponent base
      (data.read (location.toInt + ((pathOffset (sh.vars v).type p).toNat +
        c * componentBytes base : ℕ)) (componentBytes base)) := by
  have hbytes := hb.loadBytes
  simp only [hb.bitSize_lt] at hbytes
  unfold imageAt
  rw [hu]
  unfold buildConstantLoad ConstantLoad.value decodeComponent
  simp only [Glsl.GlslType.vectorElements, typeBitSize, hc, if_true, decide_eq_true_eq, hbytes,
    hb.bitSize_lt]

variable {threshold : BitVec 32}

variable (sh sizeAlign threshold) in
/-- A write to the constant data that carries out a store: it goes to where the layout places the
vector in the region of its variable, and puts the components there one behind the other. -/
structure WritesStore (w : ConstantWrite) (st : ConstStore) (location : BitVec 32)
    (base : GlslBaseType) (rows : ℕ) (f : ℕ → List (BitVec 8)) : Prop where
  /-- The variable has a place in the data. -/
  hasLocation : sh.location sizeAlign threshold w.var = some location
  /-- Its components are data. -/
  data : IsData base
  /-- The path leads to a vector. -/
  part : naturalPlacing.partAt (sh.vars w.var).type st.path = some (.numeric base rows 1)
  /-- The indices are in bounds. -/
  inBounds : naturalPlacing.inBounds (sh.vars w.var).type st.path = true
  /-- The vector is inside the variable. -/
  inside : naturalPlacing.offsetAt (sh.vars w.var).type st.path +
    (Glsl.GlslType.numeric base rows 1).naturalSize ≤ (sizeAlign (sh.vars w.var).type).1.toNat
  /-- The bytes are written at its place. -/
  address : w.address =
    (location.toNat + naturalPlacing.offsetAt (sh.vars w.var).type st.path : ℕ)
  /-- They are those of the components. -/
  bytes : w.bytes = (range rows).flatMap f
  /-- Each has the bytes of a component. -/
  length : ∀ c, (f c).length = componentBytes base
  /-- They encode the value. -/
  value : ∀ c, decodeComponent base (f c) = st.value c

/-- The writes to the constant data carry out the stores to the variables that are moved. -/
theorem writesStore (hv : sh.Valid) (hk : sh.Kept sizeAlign threshold) (hi : i ∈ sh.instrs)
    (hw : constantWrite? sh sizeAlign threshold i = some w) :
    ∃ st location base rows f, storeTo? sh w.var i = some st ∧
      WritesStore sh sizeAlign threshold w st location base rows f := by
  match i, hw with
  | .storeDeref dst (.const value) mask, hw =>
    obtain ⟨location, hloc, rfl⟩ := map_eq_some_iff.mp hw
    have hmoved := moved_of_location hv hloc
    obtain ⟨hwild, hn, u, hu, hvec⟩ := hv.insts _ hi
    obtain ⟨base, rows, rfl, -, hb⟩ := isNirVector_cases hvec
    obtain ⟨hdirect, -⟩ := constWrite hv hmoved _ hi dst rfl rfl
    have hpart := partAt_fillPath (fun _ => 0) hwild hn hu
    have hstore : storeTo? sh dst.var (.storeDeref dst (.const value) mask) =
        some ⟨fillPath (fun _ => 0) dst.path [], fun c => value c %
          2 ^ bitSizeAt (sh.vars dst.var).type (fillPath (fun _ => 0) dst.path []), mask⟩ := by
      simp [storeTo?]
    obtain ⟨hin, u', hu', -, hend⟩ := hk.stores dst.var hmoved _
      (mem_filterMap.mpr ⟨_, hi, hstore⟩)
    obtain rfl : Glsl.GlslType.numeric base rows 1 = u' := some.inj (hpart.symm.trans hu')
    have hoff : nirDerefInstrGetConstOffset (sh.vars dst.var).type dst.path =
        pathOffset (sh.vars dst.var).type (fillPath (fun _ => 0) dst.path []) := by
      rw [nirDerefInstrGetConstOffset, constOffsetFrom_eq (fun _ => 0) hwild hn hdirect hu]
      exact BitVec.zero_add _
    refine ⟨_, location, base, rows, fun c => componentData (glslGetBitSize base) (value c),
      hstore, ?_⟩
    exact {
      hasLocation := hloc
      data := hb
      part := hpart
      inBounds := hin
      inside := hend
      address := by
        show location.toInt + _ = _
        rw [hoff, Glsl.toNat_pathOffset (hk.laidOut _ hmoved) (hk.natural _ hmoved) hin,
          (location_spec hk hloc).1]
        rfl
      bytes := by simp [handleConstantStore, hu, Glsl.GlslType.vectorElements, typeBitSize]
      length := fun c => hb.length_componentData (value c)
      value := fun c => by
        rw [hb.decode_componentData]
        simp [bitSizeAt, hpart, typeBitSize] }

/-- The bytes that a write puts into the constant data are inside the region of its variable. -/
theorem WritesStore.inRegion {st : ConstStore} {base : GlslBaseType} {rows : ℕ}
    {f : ℕ → List (BitVec 8)} (h : WritesStore sh sizeAlign threshold w st location base rows f) :
    (location.toNat : ℤ) ≤ w.address ∧ w.address + w.bytes.length ≤
      location.toNat + (sizeAlign (sh.vars w.var).type).1.toNat := by
  have hend := h.inside
  rw [naturalSize_vector] at hend
  rw [h.address, h.bytes, length_flatMap_range f h.length]
  omega

/-- A store to one variable is none to another. -/
theorem storeTo?_of_ne {w : ℕ} {st : ConstStore} (h : storeTo? sh w i = some st) (hne : v ≠ w) :
    storeTo? sh v i = none := by
  match i, h with
  | .storeDeref dst (.const value) mask, h =>
    simp only [storeTo?] at h ⊢
    split at h
    · rename_i hvar
      rw [if_neg (fun heq => hne (heq.symm.trans hvar))]
    · cases h

variable (hv : sh.Valid) (hk : sh.Kept sizeAlign threshold)
  (hloc : sh.location sizeAlign threshold v = some location) (hp : sh.insideRegion sizeAlign v p)
  (hc : c < components (sh.vars v).type p)
include hv hk hloc hp hc

/-- A write to the constant data changes what it holds as the store says, without its mask. -/
theorem imageAt_write (hi : i ∈ sh.instrs) (hw : constantWrite? sh sizeAlign threshold i =
    some w) (data : ByteMem) :
    imageAt sh sizeAlign (data.write w.address w.bytes) location v p c =
      ((storeTo? sh v i).map (builtStep p c (imageAt sh sizeAlign data location v p c))).getD
        (imageAt sh sizeAlign data location v p c) := by
  have hmoved := moved_of_location hv hloc
  obtain ⟨hin, u, hu, hvec, hend⟩ := hp
  obtain ⟨base, rows, rfl, -, hb⟩ := isNirVector_cases hvec
  have hrows : c < rows := by simpa [components, hu] using hc
  obtain ⟨st, location', base', rows', f, hst, hws⟩ := writesStore hv hk hi hw
  have hoff := Glsl.toNat_pathOffset (hk.laidOut v hmoved) (hk.natural v hmoved) hin
  have hread : (c + 1) * componentBytes base ≤ (Glsl.GlslType.numeric base rows 1).naturalSize := by
    rw [naturalSize_vector]
    exact Nat.mul_le_mul_right _ hrows
  have hexpand : (c + 1) * componentBytes base =
    c * componentBytes base + componentBytes base := by ring
  -- the bytes are read back unchanged where the write does not reach them
  have hframe : (location.toNat + naturalPlacing.offsetAt (sh.vars v).type p +
        (Glsl.GlslType.numeric base rows 1).naturalSize : ℤ) ≤ w.address ∨
      w.address + w.bytes.length ≤ location.toNat + naturalPlacing.offsetAt (sh.vars v).type p →
      imageAt sh sizeAlign (data.write w.address w.bytes) location v p c =
        imageAt sh sizeAlign data location v p c := by
    intro hapart
    rw [imageAt_eq hb hu hrows, imageAt_eq hb hu hrows, hoff, (location_spec hk hloc).1,
      ByteMem.read_write_of_disjoint]
    omega
  by_cases hvar : v = w.var
  · subst hvar
    obtain rfl : location = location' := some.inj (hloc.symm.trans hws.hasLocation)
    rw [hst, map_some, getD_some]
    unfold builtStep
    by_cases hpath : st.path = p
    · subst hpath
      rw [if_pos rfl]
      have hsame := hu.symm.trans hws.part
      cases hsame
      obtain ⟨back, hsplit⟩ := flatMap_range_split f hrows
      have hlen := hws.length c
      rw [imageAt_eq hb hu hrows, hoff, (location_spec hk hloc).1, hws.bytes, hsplit, hws.address,
        ← hws.value c]
      congr 1
      have hfront := length_flatMap_range f hws.length (n := c)
      have hback := data.read_write w.address ((range c).flatMap f) (f c) back
      rw [hfront, hlen, hws.address] at hback
      convert hback using 2
      push_cast
      ring
    · rw [if_neg hpath]
      refine hframe ?_
      have hapart := Glsl.naturalPlacing_sound.apart_of_ne (hk.laidOut _ hmoved) hin hws.inBounds hu
        hws.part rfl rfl (fun h => hpath h.symm)
      have hlen := length_flatMap_range f hws.length (n := rows')
      have hsize := naturalSize_vector base' rows'
      rw [hws.bytes, hlen, hws.address]
      change _ + (Glsl.GlslType.numeric base rows 1).naturalSize ≤ _ ∨
        _ + (Glsl.GlslType.numeric base' rows' 1).naturalSize ≤ _ at hapart
      omega
  · rw [storeTo?_of_ne hst hvar]
    refine hframe ?_
    have hapart := location_apart hk hloc hws.hasLocation hvar
    have hregion := hws.inRegion
    unfold Apart at hapart
    dsimp only at hapart
    omega

/-- What the constant data holds after the writes of some instructions. -/
theorem imageAt_writes (his : ∀ i ∈ is, i ∈ sh.instrs) (data : ByteMem) :
    imageAt sh sizeAlign ((is.filterMap (constantWrite? sh sizeAlign threshold)).foldl
        (fun data w => data.write w.address w.bytes) data) location v p c =
      (storesIn sh v is).foldl (builtStep p c) (imageAt sh sizeAlign data location v p c) := by
  induction is generalizing data with
  | nil => rfl
  | cons i is ih =>
    have ih' := fun data => ih (fun j hj => his j (mem_cons_of_mem _ hj)) data
    cases hw : constantWrite? sh sizeAlign threshold i with
    | none =>
      have hst : storeTo? sh v i = none := by
        by_contra hne
        obtain ⟨st, hst⟩ := ne_none_iff_exists'.mp hne
        match i, hst with
        | .storeDeref dst (.const value) mask, hst =>
          have hvar : dst.var = v := by
            by_contra hvar
            simp [storeTo?, hvar] at hst
          simp [constantWrite?, hvar, hloc] at hw
      simp only [filterMap_cons, hw, storesIn, hst]
      exact ih' data
    | some w =>
      have hwrite := imageAt_write hv hk hloc hp hc (his i mem_cons_self) hw data
      simp only [filterMap_cons, hw, foldl_cons]
      rw [ih', hwrite]
      cases hst : storeTo? sh v i <;> simp [storesIn, hst]

/-- The constant data holds the value of the last store to a vector. -/
theorem imageAt_constantData :
    imageAt sh sizeAlign (sh.constantData sizeAlign threshold) location v p c = sh.built v p c := by
  have hzero : imageAt sh sizeAlign (fun _ => 0) location v p c = 0 := by
    obtain ⟨-, u, hu, hvec, -⟩ := hp
    obtain ⟨base, rows, rfl, -, hb⟩ := isNirVector_cases hvec
    rw [imageAt_eq hb hu (by simpa [components, hu] using hc)]
    exact decodeComponent_zero base _ _
  unfold constantData constantWrites built
  rw [imageAt_writes hv hk hloc hp hc (fun _ h => h), hzero]

end

end Mesa3D.Nir.LargeConstants
