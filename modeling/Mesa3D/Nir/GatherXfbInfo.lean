import Mathlib.Algebra.BigOperators.Group.List.Basic
import Mathlib.Tactic.IntervalCases
import Mathlib.Tactic.Ring
import Mesa3D.Glsl.Type

/-!
# Captured outputs

`nir_gather_xfb_info.c`. The outputs of a variable that transform feedback captures are listed as
entries, one for each location. `addVarXfbOutputs` goes down the type of the variable to its scalars
and vectors, with the location and the byte in the buffer for the next one. A scalar or vector that
has two locations moves the byte on by its whole size at both of them, so the second entry and all
that follow lie too far back.

An assertion that fails is `none`.
-/

namespace Mesa3D.Xfb

open Glsl List Function

/-! ### Types -/

/-- `is_64bit`. -/
def is64bit : GlslType → Bool
  | .numeric base _ _ => base = .double ∨ base = .uint64 ∨ base = .int64
  | .sampler .. | .image .. => true
  | _ => false

/-- `is_dual_slot`. -/
def isDualSlot (t : GlslType) : Bool := is64bit t && decide (2 < t.vectorElements)

/-- `is_matrix`. -/
def isMatrix : GlslType → Bool
  | .numeric base _ columns => 1 < columns ∧ (base = .float ∨ base = .double ∨ base = .float16)
  | _ => false

mutual

/-- `component_slots`. -/
def componentSlots : GlslType → ℕ
  | .numeric base rows columns =>
    if is64bit (.numeric base rows columns) then 2 * (rows * columns) else rows * columns
  | .sampler .. | .image .. => 2
  | .subroutine _ => 1
  | .atomicUint | .void | .error => 0
  | .array element length => length.toNat * componentSlots element
  | .struct _ _ fields | .interface _ fields _ _ => fieldComponentSlots fields

/-- `component_slots` of the fields. -/
def fieldComponentSlots : StructFields → ℕ
  | .nil => 0
  | .cons type _ _ rest => componentSlots type + fieldComponentSlots rest

end

mutual

/-- `count_attribute_slots` for what is not a vertex input. -/
def countAttributeSlots : GlslType → ℕ
  | .numeric base rows columns =>
    if isDualSlot (.numeric base rows columns) then columns * 2 else columns
  | .sampler .. | .image .. | .subroutine _ => 1
  | .atomicUint | .void | .error => 0
  | .array element length => length.toNat * countAttributeSlots element
  | .struct _ _ fields | .interface _ fields _ _ => fieldAttributeSlots fields

/-- `count_attribute_slots` of the fields. -/
def fieldAttributeSlots : StructFields → ℕ
  | .nil => 0
  | .cons type _ _ rest => countAttributeSlots type + fieldAttributeSlots rest

end

/-! ### The entries -/

/-- What `nir_variable` says about an output. -/
structure XfbVar where
  /-- The type. -/
  type : GlslType
  /-- The first location. -/
  location : ℕ
  /-- The component of it at which the variable starts. -/
  locationFrac : ℕ
  /-- The vertex stream. -/
  stream : ℕ
  /-- The first byte in the buffer. -/
  offset : ℕ
  /-- `xfb_buffer`. -/
  xfbBuffer : ℕ
  /-- The bytes of the buffer for one vertex. -/
  xfbStride : ℕ
  /-- `explicit_offset`. -/
  explicitOffset : Bool
  /-- `explicit_xfb_buffer`. -/
  explicitXfbBuffer : Bool
  /-- `explicit_xfb_stride`. -/
  explicitXfbStride : Bool

/-- `nir_xfb_output_info`. -/
structure XfbOutput where
  /-- The buffer. -/
  buffer : ℕ
  /-- The byte of the first component. -/
  offset : ℕ
  /-- The location. -/
  location : ℕ
  /-- The components of the location that are captured. -/
  componentMask : ℕ
deriving DecidableEq

/-- The parts of `nir_xfb_info` that are read again: the stride and the stream of each buffer whose
bit of `buffers_written` is set, and the outputs. -/
structure XfbInfo where
  /-- The stride and the stream of each buffer that is written. -/
  buffers : ℕ → Option (ℕ × ℕ) := fun _ => none
  /-- The outputs. -/
  outputs : List XfbOutput := []

/-- The info with the location and the offset of what comes next. -/
structure XfbState where
  /-- What was gathered. -/
  xfb : XfbInfo
  /-- The next location. -/
  location : ℕ
  /-- The next offset. -/
  offset : ℕ

/-- The entries of a scalar or vector with `compSlots` components. -/
def entries (var : XfbVar) (compSlots location offset : ℕ) : List XfbOutput :=
  let compMask := (((1 <<< compSlots) - 1) <<< var.locationFrac) % 2 ^ 8
  (range ((compSlots + 3) / 4)).map fun s =>
    ⟨var.xfbBuffer, (offset + s * (compSlots * 4)) % 2 ^ 16, (location + s) % 2 ^ 8,
      (compMask >>> (s * 4)) &&& 0xf⟩

/-- `add_var_xfb_outputs` for a scalar or vector. -/
def addLeaf (var : XfbVar) (s : XfbState) (type : GlslType) : Option XfbState :=
  let compSlots := componentSlots type
  let attribSlots := (compSlots + 3) / 4
  if var.xfbBuffer < 4 ∧ (∀ b ∈ s.xfb.buffers var.xfbBuffer, b = (var.xfbStride, var.stream)) ∧
      var.stream < 4 ∧
      attribSlots = countAttributeSlots type ∧
        (var.locationFrac + compSlots + 3) / 4 = attribSlots ∧
      var.locationFrac + compSlots ≤ 8 ∧ attribSlots ≤ 2 then
    some
      { xfb :=
          { buffers := update s.xfb.buffers var.xfbBuffer
              ((s.xfb.buffers var.xfbBuffer).or (some (var.xfbStride % 2 ^ 16, var.stream % 2 ^ 8)))
            outputs := s.xfb.outputs ++ entries var compSlots s.location s.offset }
        location := s.location + attribSlots
        offset := s.offset + attribSlots * (compSlots * 4) }
  else none

/-- A loop that does the same `n` times. -/
def times {α : Type} (f : α → Option α) : ℕ → α → Option α
  | 0, s => some s
  | n + 1, s => (f s).bind (times f n)

mutual

/-- `add_var_xfb_outputs`. -/
def addVarXfbOutputs (var : XfbVar) : GlslType → XfbState → Option XfbState
  | .array element length, s => times (addVarXfbOutputs var element) length.toNat s
  | .struct _ _ fields, s | .interface _ fields _ _, s => addFieldOutputs var fields s
  | .numeric base rows columns, s =>
    if isMatrix (.numeric base rows columns) then times
        (addLeaf var · (.numeric base rows 1)) columns s
    else addLeaf var s (.numeric base rows columns)
  | .sampler dim shadow array sampled, s => addLeaf var s (.sampler dim shadow array sampled)
  | .image dim array sampled, s => addLeaf var s (.image dim array sampled)
  | .subroutine name, s => addLeaf var s (.subroutine name)
  | .atomicUint, s => addLeaf var s .atomicUint
  | .void, s => addLeaf var s .void
  | .error, s => addLeaf var s .error

/-- The loop of `add_var_xfb_outputs` over the fields. -/
def addFieldOutputs (var : XfbVar) : StructFields → XfbState → Option XfbState
  | .nil, s => some s
  | .cons type _ _ rest, s => (addVarXfbOutputs var type s).bind (addFieldOutputs var rest)

end

/-! ### The whole list -/

/-- The variable is captured. -/
def XfbVar.captured (v : XfbVar) : Bool := v.explicitXfbBuffer || v.explicitXfbStride

/-- The number of outputs. -/
def numOutputs (vars : List XfbVar) : ℕ :=
  ((vars.filter XfbVar.captured).map fun v => countAttributeSlots v.type).sum

/-- The outputs of a variable. -/
def addVar (xfb : XfbInfo) (v : XfbVar) : Option XfbInfo :=
  (addVarXfbOutputs v v.type ⟨xfb, v.location, v.offset⟩).map XfbState.xfb

/-- The bits of a mask. -/
def bits (mask : ℕ) : List ℕ := (range 8).filter mask.testBit

/-- `util_bitcount`. -/
def utilBitcount (mask : ℕ) : ℕ := (bits mask).length

/-- The loop of the final check. -/
def sanityCheck : List XfbOutput → (ℕ → ℕ) → Bool
  | [], _ => true
  | o :: os, maxOffset => decide (maxOffset o.buffer ≤ o.offset) && decide (o.componentMask ≠ 0) &&
      sanityCheck os (update maxOffset o.buffer (o.offset + utilBitcount o.componentMask * 4))

/-- `nir_gather_xfb_info`, with the `qsort` of the outputs by their offsets. -/
def nirGatherXfbInfo (qsort : List XfbOutput → List XfbOutput) (vars : List XfbVar) :
    Option (Option XfbInfo) :=
  let captured := vars.filter XfbVar.captured
  if ∀ v ∈ captured, v.explicitXfbBuffer ∧ v.explicitXfbStride ∧ v.explicitOffset then
    if numOutputs vars = 0 then some none
    else do
      let xfb ← captured.foldlM addVar {}
      if xfb.outputs.length % 2 ^ 16 = numOutputs vars then
        let outputs := qsort xfb.outputs
        if sanityCheck outputs fun _ => 0 then some (some { xfb with outputs := outputs }) else none
      else none
  else none

/-! ### What is expected -/

mutual

/-- The scalars and vectors of a type, in order. -/
def leaves : GlslType → List GlslType
  | .array element length => (replicate length.toNat (leaves element)).flatten
  | .struct _ _ fields | .interface _ fields _ _ => fieldLeaves fields
  | .numeric base rows columns =>
    if isMatrix (.numeric base rows columns) then replicate columns (.numeric base rows 1)
    else [.numeric base rows columns]
  | t => [t]

/-- The leaves of the fields. -/
def fieldLeaves : StructFields → List GlslType
  | .nil => []
  | .cons type _ _ rest => leaves type ++ fieldLeaves rest

end

/-- The component slots of scalars and vectors from a location on, in order. -/
def slotsFrom (frac : ℕ) : ℕ → List GlslType → List ℕ
  | _, [] => []
  | location, t :: ts =>
    (range (componentSlots t)).map (4 * location + frac + ·) ++
      slotsFrom frac (location + countAttributeSlots t) ts

/-- The component slots that an entry writes, each with the buffer and its byte there. -/
def XfbOutput.writes (o : XfbOutput) : List (ℕ × ℕ × ℕ) :=
  (bits o.componentMask).zipIdx.map fun b => (4 * o.location + b.1, o.buffer, o.offset + 4 * b.2)

/-- The entries that are added for a variable, if it is the only one. -/
def XfbVar.outputs (v : XfbVar) : List XfbOutput := (addVar {} v).elim [] XfbInfo.outputs

/-- The entries of a variable write its component slots to its buffer in order, and the `n`-th one
at `offset + 4 * n`. -/
def XfbVar.Dense (v : XfbVar) : Prop :=
  (slotsFrom v.locationFrac v.location (leaves v.type)).length = componentSlots v.type ∧
    (addVar {} v).isSome ∧
      v.outputs.flatMap XfbOutput.writes =
        (slotsFrom v.locationFrac v.location (leaves v.type)).zipIdx.map fun c =>
          (c.1, v.xfbBuffer, v.offset + 4 * c.2)

/-- The base types of 32 and 64 bits. -/
def capturedBases : List GlslBaseType := [.float, .int, .uint, .bool, .double, .int64, .uint64]

/-- A scalar or vector of 32 or 64 bits at a component at which it needs no further location. -/
structure LegalLeaf (frac : ℕ) (t : GlslType) : Prop where
  /-- It is a vector of a type that can be captured. -/
  type : ∃ base ∈ capturedBases, ∃ rows, 1 ≤ rows ∧ rows ≤ 4 ∧ t = .numeric base rows 1
  /-- It does not cross more locations for its first component. -/
  frac : (frac + componentSlots t + 3) / 4 = (componentSlots t + 3) / 4

/-- What linking a program has checked for a captured variable. -/
structure XfbVar.Legal (v : XfbVar) : Prop where
  /-- Its leaves are legal. -/
  leaf : ∀ t ∈ leaves v.type, LegalLeaf v.locationFrac t
  /-- Buffer, stride and offset are explicit. -/
  explicit : v.explicitXfbBuffer = true ∧ v.explicitXfbStride = true ∧ v.explicitOffset = true
  /-- There are `NIR_MAX_XFB_BUFFERS` buffers. -/
  buffer : v.xfbBuffer < 4
  /-- There are `NIR_MAX_XFB_STREAMS` streams. -/
  stream : v.stream < 4
  /-- The locations fit the field of an entry. -/
  location : v.location + countAttributeSlots v.type ≤ 2 ^ 8
  /-- The variable lies inside the stride. -/
  fits : v.offset + 4 * componentSlots v.type ≤ v.xfbStride
  /-- The stride fits its field. -/
  stride : v.xfbStride < 2 ^ 16

/-- What linking a program has checked for the captured variables: a buffer has one stride and one
stream. -/
structure LegalVars (vars : List XfbVar) : Prop where
  /-- Every variable is legal. -/
  legal : ∀ v ∈ vars, v.Legal
  /-- Variables of one buffer agree on its stride and stream. -/
  buffers : ∀ v ∈ vars, ∀ w ∈ vars, v.xfbBuffer = w.xfbBuffer →
    v.xfbStride = w.xfbStride ∧ v.stream = w.stream
  /-- The outputs are counted in 16 bits. -/
  count : (vars.map fun v => countAttributeSlots v.type).sum < 2 ^ 16

/-- The declared ranges of two variables do not meet. -/
def XfbVar.Apart (v w : XfbVar) : Prop := v.xfbBuffer = w.xfbBuffer →
  v.offset + 4 * componentSlots v.type ≤ w.offset ∨ w.offset + 4 * componentSlots w.type ≤ v.offset

/-- The outputs are laid out densely, and if the declared ranges do not meet, then the check passes
on the entries of the variables, one for each location. -/
structure LaidOut (qsort : List XfbOutput → List XfbOutput) (vars : List XfbVar) : Prop where
  /-- The entries of each variable are dense. -/
  dense : ∀ v ∈ vars.filter XfbVar.captured, v.Dense
  /-- Variables that are apart pass the checks, and the outputs are theirs in order. -/
  checked : (vars.filter XfbVar.captured).Pairwise XfbVar.Apart →
    ∃ r, nirGatherXfbInfo qsort vars = some r ∧
      (r.elim [] XfbInfo.outputs).Perm ((vars.filter XfbVar.captured).flatMap XfbVar.outputs) ∧
      (r.elim [] XfbInfo.outputs).length = numOutputs vars

/-! ### Scalars and vectors -/

/-- A loop repeated is a loop over the repeated list. -/
theorem times_foldlM {α β : Type} (f : α → β → Option α) (l : List β) (n : ℕ) (s : α) :
    times (fun s => l.foldlM f s) n s = (replicate n l).flatten.foldlM f s := by
  induction n generalizing s with
  | zero => rfl
  | succ n ih =>
    rw [replicate_succ, flatten_cons, foldlM_append, times]
    exact congrArg _ (funext ih)

mutual

/-- The recursion over a type adds the outputs of its leaves in order. -/
theorem addVarXfbOutputs_eq (v : XfbVar) (t : GlslType) (s : XfbState) :
    addVarXfbOutputs v t s = (leaves t).foldlM (addLeaf v) s := by
  match t with
  | .array element length =>
    rw [addVarXfbOutputs, leaves, ← times_foldlM]
    exact congrArg (times · _ s) (funext (addVarXfbOutputs_eq v element))
  | .struct _ _ fields | .interface _ fields _ _ => exact addFieldOutputs_eq v fields s
  | .numeric base rows columns =>
    rw [addVarXfbOutputs, leaves]
    split_ifs
    · have hone : ∀ s, addLeaf v s (.numeric base rows 1) =
        [GlslType.numeric base rows 1].foldlM (addLeaf v) s := by
        simp
      simp only [hone, times_foldlM, flatten_replicate_singleton]
    · simp
  | .sampler .. | .image .. | .subroutine _ | .atomicUint | .void | .error =>
    simp [addVarXfbOutputs, leaves]

/-- The recursion over fields adds the outputs of their leaves in order. -/
theorem addFieldOutputs_eq (v : XfbVar) (fields : StructFields) (s : XfbState) :
    addFieldOutputs v fields s = (fieldLeaves fields).foldlM (addLeaf v) s := by
  match fields with
  | .nil => rfl
  | .cons type _ _ rest =>
    rw [addFieldOutputs, fieldLeaves, foldlM_append, addVarXfbOutputs_eq v type]
    exact congrArg _ (funext (addFieldOutputs_eq v rest))

end

/-- A legal scalar or vector has one location, or is the kind that has two. -/
theorem LegalLeaf.cases {frac : ℕ} {t : GlslType} (h : LegalLeaf frac t) :
    (isDualSlot t = false ∧ countAttributeSlots t = 1 ∧ 1 ≤ componentSlots t ∧
      frac + componentSlots t ≤ 4) ∨
    (isDualSlot t = true ∧ countAttributeSlots t = 2 ∧
      (componentSlots t = 6 ∧ frac ≤ 2 ∨ componentSlots t = 8 ∧ frac = 0)) := by
  obtain ⟨⟨base, hbase, rows, hpos, hle, rfl⟩, hfrac⟩ := h
  simp only [capturedBases, mem_cons, not_mem_nil, or_false] at hbase
  rcases hbase with rfl | rfl | rfl | rfl | rfl | rfl | rfl <;> interval_cases rows <;>
    simp [componentSlots, is64bit, isDualSlot, countAttributeSlots,
      GlslType.vectorElements] at hfrac ⊢ <;> omega

/-- A size that is added up along a type. -/
structure Additive (f : GlslType → ℕ) (g : StructFields → ℕ) : Prop where
  /-- An array has its elements. -/
  array : ∀ t n, f (.array t n) = n.toNat * f t
  /-- A structure has its fields. -/
  struct : ∀ b n fields, f (.struct b n fields) = g fields
  /-- An interface block has its fields. -/
  interface : ∀ n fields p r, f (.interface n fields p r) = g fields
  /-- No fields. -/
  nil : g .nil = 0
  /-- One field more. -/
  cons : ∀ t n d rest, g (.cons t n d rest) = f t + g rest
  /-- A matrix has its columns. -/
  matrix : ∀ base rows columns, f (.numeric base rows columns) = columns * f (.numeric base rows 1)

mutual

/-- It is the sum over the scalars and vectors. -/
theorem sum_leaves {f : GlslType → ℕ} {g : StructFields → ℕ} (h : Additive f g) (t : GlslType) :
    ((leaves t).map f).sum = f t := by
  match t with
  | .array element length => simp [leaves, map_flatten, sum_flatten, h.array, sum_leaves h element]
  | .struct _ _ fields => rw [leaves, h.struct, sum_fieldLeaves h fields]
  | .interface _ fields _ _ => rw [leaves, h.interface, sum_fieldLeaves h fields]
  | .numeric base rows columns =>
    rw [leaves]
    split_ifs
    · simp [h.matrix base rows columns]
    · simp
  | .sampler .. | .image .. | .subroutine _ | .atomicUint | .void | .error => simp [leaves]

/-- An additive measure of the fields is the sum over their leaves. -/
theorem sum_fieldLeaves {f : GlslType → ℕ} {g : StructFields → ℕ} (h : Additive f g)
    (fields : StructFields) :
    ((fieldLeaves fields).map f).sum = g fields := by
  match fields with
  | .nil => simp [fieldLeaves, h.nil]
  | .cons type _ _ rest => simp [fieldLeaves, h.cons, sum_leaves h type, sum_fieldLeaves h rest]

end

/-- Component slots add up over the leaves. -/
theorem additive_componentSlots : Additive componentSlots fieldComponentSlots := by
  refine ⟨fun _ _ => rfl, fun _ _ _ => rfl, fun _ _ _ _ => rfl, rfl, fun _ _ _ _ => rfl,
    fun base rows columns => ?_⟩
  rw [componentSlots, componentSlots, show is64bit (.numeric base rows 1) = is64bit
    (.numeric base rows columns) from rfl]
  split_ifs <;> ring

/-- Attribute slots add up over the leaves. -/
theorem additive_countAttributeSlots : Additive countAttributeSlots fieldAttributeSlots := by
  refine ⟨fun _ _ => rfl, fun _ _ _ => rfl, fun _ _ _ _ => rfl, rfl, fun _ _ _ _ => rfl,
    fun base rows columns => ?_⟩
  rw [countAttributeSlots, countAttributeSlots,
    show isDualSlot (.numeric base rows 1) = isDualSlot (.numeric base rows columns) from rfl]
  split_ifs <;> ring

/-- As many slots as components. -/
theorem length_slotsFrom (frac location : ℕ) (ts : List GlslType) :
    (slotsFrom frac location ts).length = (ts.map componentSlots).sum := by
  induction ts generalizing location with
  | nil => rfl
  | cons t ts ih => simp [slotsFrom, ih]

/-! ### The entries of a variable -/

/-- The entries of scalars and vectors from a location and a byte on. -/
def entriesFrom (v : XfbVar) : ℕ → ℕ → List GlslType → List XfbOutput
  | _, _, [] => []
  | location, offset, t :: ts =>
    entries v (componentSlots t) location offset ++
      entriesFrom v (location + countAttributeSlots t)
        (offset + countAttributeSlots t * (componentSlots t * 4)) ts

/-- The entries of a variable. -/
def XfbVar.entries (v : XfbVar) : List XfbOutput :=
  entriesFrom v v.location v.offset (leaves v.type)

variable {v : XfbVar} {s : XfbState} {xfb xfb' : XfbInfo} {t : GlslType} {ts : List GlslType}

/-- A buffer that is written has the stride and the stream of the variable. -/
def Agrees (v : XfbVar) (xfb : XfbInfo) : Prop := ∀ b ∈ xfb.buffers v.xfbBuffer,
    b = (v.xfbStride, v.stream)

/-- Only the buffer of the variable changes, and it gets the stride and the stream of the
variable. -/
def Sets (v : XfbVar) (xfb xfb' : XfbInfo) : Prop := ∀ b, xfb'.buffers b = xfb.buffers b ∨
  b = v.xfbBuffer ∧ xfb'.buffers b = some (v.xfbStride, v.stream)

/-- An empty record agrees with every variable. -/
theorem agrees_empty (v : XfbVar) : Agrees v {} := by
  rintro b ⟨⟩

/-- Changing the buffer of one variable, twice. -/
theorem Sets.trans {xfb'' : XfbInfo} (h : Sets v xfb xfb')
    (h' : Sets v xfb' xfb'') : Sets v xfb xfb'' := by
  intro b
  rcases h' b with hb | hb
  · exact hb ▸ h b
  · exact .inr hb

/-- Other variables still agree when they share the buffer's stride and stream. -/
theorem Agrees.sets {w : XfbVar} (h : Agrees w xfb) (hs : Sets v xfb xfb')
    (hvw : w.xfbBuffer = v.xfbBuffer → w.xfbStride = v.xfbStride ∧
      w.stream = v.stream) : Agrees w xfb' := by
  intro b hb
  rcases hs w.xfbBuffer with h' | ⟨hbuffer, h'⟩ <;> rw [h'] at hb
  · exact h b hb
  · rw [(hvw hbuffer).1, (hvw hbuffer).2]
    exact (Option.some.inj hb).symm

/-- A legal leaf adds its entries and advances location and offset. -/
theorem addLeaf_legal (hv : v.Legal) (ht : LegalLeaf v.locationFrac t) (h : Agrees v s.xfb) :
    ∃ s', addLeaf v s t = some s' ∧ Sets v s.xfb s'.xfb ∧
      s'.xfb.outputs = s.xfb.outputs ++ entries v (componentSlots t) s.location s.offset ∧
      s'.location = s.location + countAttributeSlots t ∧
      s'.offset = s.offset + countAttributeSlots t * (componentSlots t * 4) := by
  have hslots : (componentSlots t + 3) / 4 = countAttributeSlots t ∧
    v.locationFrac + componentSlots t ≤ 8 ∧
      countAttributeSlots t ≤ 2 := by
    rcases ht.cases with ⟨-, hc, h1, h4⟩ | ⟨-, hc, hmem⟩ <;> omega
  obtain ⟨hslots, h8, h2⟩ := hslots
  rw [addLeaf, if_pos ⟨hv.buffer, h, hv.stream, hslots, ht.frac, h8, hslots ▸ h2⟩, hslots]
  refine ⟨_, rfl, fun b => ?_, rfl, rfl, rfl⟩
  by_cases hb : b = v.xfbBuffer
  · subst hb
    cases hw : s.xfb.buffers v.xfbBuffer with
    | none =>
      have hstream := hv.stream
      have hstride := hv.stride
      simp only [Option.none_or, update_self]
      rw [Nat.mod_eq_of_lt hstride, Nat.mod_eq_of_lt (by omega)]
      simp
    | some b => simp
  · simp [hb]

/-- Legal leaves add their entries one after the other. -/
theorem addLeaves_legal (hv : v.Legal) (hts : ∀ t ∈ ts, LegalLeaf v.locationFrac t)
    (h : Agrees v s.xfb) :
    ∃ s', ts.foldlM (addLeaf v) s = some s' ∧ Sets v s.xfb s'.xfb ∧
      s'.xfb.outputs = s.xfb.outputs ++ entriesFrom v s.location s.offset ts := by
  induction ts generalizing s with
  | nil => exact ⟨s, rfl, fun _ => .inl rfl, by simp [entriesFrom]⟩
  | cons t ts ih =>
    obtain ⟨s1, hs1, hset, hout, hloc, hoff⟩ := addLeaf_legal hv (hts t mem_cons_self) h
    obtain ⟨s', hs', hset', hout'⟩ := ih (fun t ht => hts t (mem_cons_of_mem _ ht))
      (h.sets hset fun _ => ⟨rfl, rfl⟩)
    refine ⟨s', ?_, hset.trans hset', ?_⟩
    · rw [foldlM_cons, hs1]
      exact hs'
    · rw [hout', hout, hloc, hoff, append_assoc, entriesFrom]

/-- The assertions on a variable hold, and its entries are added. -/
theorem addVar_legal (hv : v.Legal) (h : Agrees v xfb) :
    ∃ s, addVarXfbOutputs v v.type ⟨xfb, v.location, v.offset⟩ = some s ∧ Sets v xfb s.xfb ∧
      s.xfb.outputs = xfb.outputs ++ v.entries := by
  rw [addVarXfbOutputs_eq]
  exact addLeaves_legal (s := ⟨xfb, v.location, v.offset⟩) hv hv.leaf h

/-! ### Density -/

variable {frac location offset : ℕ}

/-- The mask of a scalar or vector with one location. -/
theorem bits_single : ∀ c < 5, ∀ frac < 5, frac + c ≤ 4 →
    bits ((((1 <<< c) - 1) <<< frac) % 2 ^ 8 >>> (0 * 4) &&& 0xf) = (range c).map (frac + ·) := by
      decide

/-- The component masks that a legal output has. -/
theorem bits_dual : bits 3 = [0, 1] ∧ bits 7 = [0, 1, 2] ∧ bits 12 = [2, 3] ∧ bits 14 = [1, 2, 3] ∧
    bits 15 = [0, 1, 2, 3] := by decide

/-- The entry of a scalar or vector with one location. -/
theorem entries_single {c : ℕ} (hpos : 1 ≤ c) (hle : v.locationFrac + c ≤ 4)
    (hoffset : offset < 2 ^ 16)
    (hlocation : location < 2 ^ 8) : ∃ mask, entries v c location offset =
    [⟨v.xfbBuffer, offset, location, mask⟩] ∧
      bits mask = (range c).map (v.locationFrac + ·) := by
  refine ⟨_, ?_, bits_single c (by omega) v.locationFrac (by omega) hle⟩
  rw [entries, show (c + 3) / 4 = 1 by omega]
  simpa using ⟨hoffset, hlocation⟩

/-- The entries are dense exactly if no scalar or vector has two locations. -/
theorem writes_entriesFrom (hts : ∀ t ∈ ts, LegalLeaf v.locationFrac t) {k : ℕ}
    (hlocation : location + (ts.map countAttributeSlots).sum ≤ 2 ^ 8)
    (hoffset : offset + 4 * (k + (ts.map componentSlots).sum) < 2 ^ 16) :
    (entriesFrom v location (offset + 4 * k) ts).flatMap XfbOutput.writes =
        ((slotsFrom v.locationFrac location ts).zipIdx k).map (fun c =>
          (c.1, v.xfbBuffer, offset + 4 * c.2)) ↔
      ∀ t ∈ ts, isDualSlot t = false := by
  induction ts generalizing location k with
  | nil => simp [entriesFrom, slotsFrom]
  | cons t ts ih =>
    rw [map_cons, sum_cons] at hlocation hoffset
    rw [forall_mem_cons, entriesFrom, slotsFrom, flatMap_append, zipIdx_append, map_append]
    rcases (hts t mem_cons_self).cases with ⟨hdual, hcount, hpos, hle⟩ | ⟨hdual, hcount, hmem⟩
    · obtain ⟨mask, hentries, hbits⟩ :=
        entries_single hpos hle (show offset + 4 * k < 2 ^ 16 by omega)
        (show location < 2 ^ 8 by omega)
      have hwrites :
        (entries v (componentSlots t) location (offset + 4 * k)).flatMap XfbOutput.writes =
          (((range (componentSlots t)).map (4 * location + v.locationFrac + ·)).zipIdx k).map
            (fun c => (c.1, v.xfbBuffer, offset + 4 * c.2)) := by
        rw [hentries, flatMap_singleton, XfbOutput.writes, hbits, zipIdx_map, zipIdx_map,
          zipIdx_eq_map_add (i := k), map_map, map_map, map_map]
        refine map_congr_left fun c _ => ?_
        simp only [comp_apply, Prod.map_fst, Prod.map_snd, id_eq, Prod.mk.injEq, true_and]
        omega
      rw [hwrites, append_cancel_left_eq, hcount, length_map, length_range,
        show offset + 4 * k + 1 * (componentSlots t * 4) = offset + 4 * (k + componentSlots t) by
          ring,
        ih (fun t ht => hts t (mem_cons_of_mem _ ht)) (by omega) (by omega)]
      simp [hdual]
    · refine iff_of_false (fun h => ?_) (by simp [hdual])
      -- the first component of the second entry lies too far back
      have hle : v.locationFrac ≤ 2 := by omega
      interval_cases hf : v.locationFrac <;> rcases hmem with ⟨hc, -⟩ | ⟨hc, hzero⟩ <;>
        simp [entries, hc, hf, range_succ, XfbOutput.writes, bits_dual] at h hoffset <;> omega

/-- The locations and offsets of a legal variable stay in range. -/
theorem XfbVar.Legal.sums (hv : v.Legal) :
    v.location + ((leaves v.type).map countAttributeSlots).sum ≤ 2 ^ 8 ∧
    v.offset + 4 * (0 + ((leaves v.type).map componentSlots).sum) < 2 ^ 16 := by
  have hfits := hv.fits
  have hstride := hv.stride
  rw [sum_leaves additive_countAttributeSlots, sum_leaves additive_componentSlots]
  exact ⟨hv.location, by omega⟩

/-- The entries that are added for a legal variable. -/
theorem XfbVar.Legal.outputs (hv : v.Legal) : (addVar {} v).isSome ∧ v.outputs = v.entries := by
  obtain ⟨s, hs, -, hout⟩ := addVar_legal hv (agrees_empty v)
  rw [XfbVar.outputs, addVar, hs]
  exact ⟨rfl, hout⟩

/-- A legal variable is laid out densely if no scalar or vector of it has two locations. -/
theorem XfbVar.Legal.dense_iff (hv : v.Legal) : v.Dense ↔
    ∀ t ∈ leaves v.type, isDualSlot t = false := by
  rw [← writes_entriesFrom hv.leaf hv.sums.1 hv.sums.2]
  simp only [XfbVar.Dense, length_slotsFrom,
    sum_leaves additive_componentSlots, hv.outputs, true_and]
  rfl

/-! ### The final check -/

/-- The end of an entry. -/
def XfbOutput.stop (o : XfbOutput) : ℕ := o.offset + utilBitcount o.componentMask * 4

/-- Entries of one buffer do not meet. -/
def XfbOutput.Apart (a b : XfbOutput) : Prop := a.buffer = b.buffer →
    a.stop ≤ b.offset ∨ b.stop ≤ a.offset

/-- An entry that lies between two bytes of a buffer. -/
structure Within (buffer low high : ℕ) (o : XfbOutput) : Prop where
  /-- It is an output of the buffer. -/
  buffer : o.buffer = buffer
  /-- It starts in the range. -/
  low : low ≤ o.offset
  /-- It is not empty. -/
  pos : o.offset < o.stop
  /-- It ends in the range. -/
  high : o.stop ≤ high

/-- Without dual slots each attribute slot has one entry, inside the ranges. -/
theorem entriesFrom_within (hts : ∀ t ∈ ts, LegalLeaf v.locationFrac t)
    (hdual : ∀ t ∈ ts, isDualSlot t = false)
    (hlocation : location + (ts.map countAttributeSlots).sum ≤ 2 ^ 8)
    (hoffset : offset + 4 * (ts.map componentSlots).sum < 2 ^ 16) :
    (entriesFrom v location offset ts).length = (ts.map countAttributeSlots).sum ∧
      (entriesFrom v location offset ts).Pairwise XfbOutput.Apart ∧
      ∀ o ∈ entriesFrom v location offset ts,
        Within v.xfbBuffer offset (offset + 4 * (ts.map componentSlots).sum) o := by
  induction ts generalizing location offset with
  | nil => simp [entriesFrom]
  | cons t ts ih =>
    rw [forall_mem_cons] at hts hdual
    rw [map_cons, sum_cons] at hlocation hoffset
    obtain ⟨-, hcount, hpos, hle⟩ | ⟨hd, -⟩ := hts.1.cases
    · obtain ⟨mask, hentries, hbits⟩ := entries_single hpos hle (show offset < 2 ^ 16 by omega)
        (show location < 2 ^ 8 by omega)
      have hstop : XfbOutput.stop ⟨v.xfbBuffer, offset, location, mask⟩ =
        offset + componentSlots t * 4 := by
        simp [XfbOutput.stop, utilBitcount, hbits]
      obtain ⟨hlength, hpair, hwithin⟩ := ih hts.2 hdual.2 (show location + 1 + _ ≤ 2 ^ 8 by omega)
        (show offset + componentSlots t * 4 + 4 * _ < 2 ^ 16 by omega)
      rw [entriesFrom, hentries, hcount, one_mul, singleton_append]
      refine ⟨by simp [hlength, hcount]; omega, pairwise_cons.2 ⟨fun o ho _ => .inl ?_, hpair⟩, ?_⟩
      · exact hstop ▸ (hwithin o ho).low
      · simp only [forall_mem_cons, map_cons, sum_cons]
        refine ⟨⟨rfl, le_rfl, by rw [hstop]; simp; omega, by rw [hstop]; omega⟩, fun o ho => ?_⟩
        obtain ⟨hb, hl, hp, hh⟩ := hwithin o ho
        exact ⟨hb, by omega, hp, by omega⟩
    · rw [hdual.1] at hd
      cases hd

/-- Sorted outputs that are apart pass the final check. -/
theorem sanityCheck_of_sorted {os : List XfbOutput}
    (hsorted : os.Pairwise fun a b => a.offset ≤ b.offset)
    (hapart : os.Pairwise XfbOutput.Apart) (hpos : ∀ o ∈ os, o.offset < o.stop) {maxOffset : ℕ → ℕ}
    (hmax : ∀ o ∈ os, maxOffset o.buffer ≤ o.offset) : sanityCheck os maxOffset = true := by
  induction os generalizing maxOffset with
  | nil => rfl
  | cons o os ih =>
    rw [pairwise_cons] at hsorted hapart
    rw [forall_mem_cons] at hpos hmax
    have hmask : o.componentMask ≠ 0 := by
      intro h
      have := hpos.1
      simp [XfbOutput.stop, h, utilBitcount, bits] at this
    simp only [sanityCheck, hmax.1, hmask, decide_true, Bool.true_and, ne_eq, not_false_eq_true]
    refine ih hsorted.2 hapart.2 hpos.2 fun o' ho' => ?_
    by_cases hb : o'.buffer = o.buffer
    · rw [hb, update_self]
      rcases hapart.1 o' ho' hb.symm with h | h
      · exact h
      · have := hsorted.1 o' ho'
        have := hpos.2 o' ho'
        omega
    · rw [update_of_ne hb]
      exact hmax.2 o' ho'

/-! ### All variables -/

/-- Legal variables add their entries one after the other. -/
theorem addVars_legal {vars : List XfbVar} (h : LegalVars vars)
    (hagrees : ∀ v ∈ vars, Agrees v xfb) :
    ∃ xfb', vars.foldlM addVar xfb = some xfb' ∧
      xfb'.outputs = xfb.outputs ++ vars.flatMap XfbVar.entries := by
  induction vars generalizing xfb with
  | nil => exact ⟨xfb, rfl, by simp⟩
  | cons v vars ih =>
    obtain ⟨s, hs, hset, hout⟩ := addVar_legal (h.legal v mem_cons_self) (hagrees v mem_cons_self)
    have hcount := h.count
    rw [map_cons, sum_cons] at hcount
    have hagrees' : ∀ w ∈ vars, Agrees w s.xfb := fun w hw =>
      (hagrees w (mem_cons_of_mem _ hw)).sets hset
      (h.buffers w (mem_cons_of_mem _ hw) v mem_cons_self)
    obtain ⟨xfb', hxfb', hout'⟩ := ih ⟨fun w hw => h.legal w (mem_cons_of_mem _ hw),
      fun w hw w' hw' => h.buffers w (mem_cons_of_mem _ hw) w' (mem_cons_of_mem _ hw'), by
        omega⟩ hagrees'
    refine ⟨xfb', ?_, by simp [hout', hout]⟩
    rw [foldlM_cons, addVar, hs]
    exact hxfb'

/-- The outputs of a shader are laid out densely, and pass the check where the declared ranges allow
it, exactly if no captured variable has a vector of three or four components of 64 bits. -/
theorem nirGatherXfbInfo_laidOut_iff {vars : List XfbVar} {qsort : List XfbOutput → List XfbOutput}
    (hperm : ∀ l, (qsort l).Perm l)
    (hsorted : ∀ l, (qsort l).Pairwise fun a b => a.offset ≤ b.offset)
    (h : LegalVars (vars.filter XfbVar.captured)) :
    LaidOut qsort vars ↔ ∀ v ∈ vars.filter XfbVar.captured, ∀ t ∈ leaves v.type,
      isDualSlot t = false := by
  refine ⟨fun hlaid v hv => (h.legal v hv).dense_iff.1 (hlaid.dense v hv), fun hdual =>
    ⟨fun v hv => (h.legal v hv).dense_iff.2 (hdual v hv), fun hapart => ?_⟩⟩
  have hv : ∀ v ∈ vars.filter XfbVar.captured, v.entries.length = countAttributeSlots v.type ∧
      v.entries.Pairwise XfbOutput.Apart ∧ ∀ o ∈ v.entries,
        Within v.xfbBuffer v.offset (v.offset + 4 * componentSlots v.type) o := by
    intro v hv
    have hlegal := h.legal v hv
    obtain ⟨hlocation, hoffset⟩ := hlegal.sums
    rw [zero_add] at hoffset
    have hwithin := entriesFrom_within hlegal.leaf (hdual v hv) hlocation hoffset
    rwa [sum_leaves additive_countAttributeSlots, sum_leaves additive_componentSlots] at hwithin
  obtain ⟨xfb, hxfb, hout⟩ := addVars_legal h fun v _ => agrees_empty v
  rw [nil_append] at hout
  have houtputs : xfb.outputs = (vars.filter XfbVar.captured).flatMap XfbVar.outputs := by
    rw [hout]
    exact flatMap_congr fun v hmem => (h.legal v hmem).outputs.2.symm
  have hlength : xfb.outputs.length = numOutputs vars := by
    rw [hout, length_flatMap, numOutputs]
    exact congrArg _ (map_congr_left fun v hmem => (hv v hmem).1)
  have hpair : xfb.outputs.Pairwise XfbOutput.Apart := by
    rw [hout, pairwise_flatMap]
    refine ⟨fun v hmem => (hv v hmem).2.1, List.Pairwise.imp_of_mem ?_ hapart⟩
    intro v w hmem hmem' hvw a ha b hb heq
    obtain ⟨ha1, ha2, -, ha4⟩ := (hv v hmem).2.2 a ha
    obtain ⟨hb1, hb2, -, hb4⟩ := (hv w hmem').2.2 b hb
    rcases hvw (by rw [← ha1, heq, hb1]) with h | h
    · exact .inl (by omega)
    · exact .inr (by omega)
  have hcheck : sanityCheck (qsort xfb.outputs) (fun _ => 0) = true := by
    refine sanityCheck_of_sorted (hsorted _) ?_ (fun o ho => ?_) fun _ _ => Nat.zero_le _
    · refine ((hperm _).pairwise_iff fun hab heq => (hab heq.symm).symm).2 hpair
    · rw [(hperm _).mem_iff, hout, mem_flatMap] at ho
      obtain ⟨v, hmem, ho⟩ := ho
      exact ((hv v hmem).2.2 o ho).pos
  by_cases hzero : numOutputs vars = 0
  · refine ⟨none, ?_, ?_, by simp [hzero]⟩
    on_goal 2 =>
      rw [← houtputs, eq_nil_of_length_eq_zero (hlength.trans hzero)]
      exact .nil
    rw [nirGatherXfbInfo, if_pos fun v hmem => (h.legal v hmem).explicit, if_pos hzero]
  · refine ⟨some { xfb with outputs := qsort xfb.outputs }, ?_, houtputs ▸ hperm _,
      by simp [(hperm _).length_eq, hlength]⟩
    rw [nirGatherXfbInfo, if_pos fun v hmem => (h.legal v hmem).explicit, if_neg hzero]
    have hcount : xfb.outputs.length % 2 ^ 16 = numOutputs vars := by
      rw [hlength]
      exact Nat.mod_eq_of_lt h.count
    simpa [hxfb, hcheck] using hcount

/-- A `struct { vec3 p; mat2 m[2]; }` that starts at the second component of location 32 and at the
byte 4 of buffer 0. -/
def someStruct : XfbVar :=
  ⟨.struct false ⟨[83], by decide⟩ (.cons (.numeric .float 3 1) ⟨[112], by decide⟩ 0
    (.cons (.array (.numeric .float 2 2) 2) ⟨[109], by decide⟩ 0 .nil)),
      32, 1, 0, 4, 0, 48, true, true, true⟩

/-- A `double d[2]` at the third component of location 40, in buffer 1. -/
def someDoubles : XfbVar := ⟨.array (.numeric .double 1 1) 2, 40, 2, 1, 0, 1, 16, true, true, true⟩

/-- The two are laid out densely, each in its buffer. -/
theorem laidOut_struct_doubles :
    LaidOut (fun l => l.mergeSort fun a b => a.offset ≤ b.offset) [someStruct, someDoubles] := by
  have hstruct : someStruct.Legal := by
    refine ⟨fun t ht => ?_, ⟨rfl, rfl, rfl⟩, by decide, by decide, by decide, by decide, by decide⟩
    have ht : t = .numeric .float 3 1 ∨ t = .numeric .float 2 1 := by
      revert t
      decide
    obtain rfl | rfl := ht <;> exact ⟨⟨.float, by decide, _, by decide, by decide, rfl⟩, by decide⟩
  have hdoubles : someDoubles.Legal := by
    refine ⟨fun t ht => ?_, ⟨rfl, rfl, rfl⟩, by decide, by decide, by decide, by decide, by decide⟩
    obtain rfl : t = .numeric .double 1 1 := by
      revert t
      decide
    exact ⟨⟨.double, by decide, _, by decide, by decide, rfl⟩, by decide⟩
  refine (nirGatherXfbInfo_laidOut_iff (fun l => l.mergeSort_perm _)
    (fun l => ?_) ⟨?_, ?_, ?_⟩).2 (by decide)
  · have hsorted : (l.mergeSort fun a b => a.offset ≤ b.offset).Pairwise fun a b =>
      decide (a.offset ≤ b.offset) :=
      pairwise_mergeSort (fun _ _ _ hab hbc => by simp_all; omega) (fun _ _ => by simp; omega) l
    simpa using hsorted
  · simpa [XfbVar.captured, someStruct, someDoubles] using And.intro hstruct hdoubles
  · simp [XfbVar.captured, someStruct, someDoubles]
  · decide

/-- A captured `dvec3` at the start of buffer 0. -/
def someDvec3 : XfbVar := ⟨.numeric .double 3 1, 32, 0, 0, 0, 0, 48, true, true, true⟩

/-- A `dvec3` has its last two components eight bytes too far back. -/
theorem not_dense_dvec3 : ¬ someDvec3.Dense := by
  rintro ⟨-, -, h⟩
  revert h
  decide

end Mesa3D.Xfb
