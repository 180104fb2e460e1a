import Mesa3D.Glsl.Type
import Mesa3D.Layout.Placing
import Mathlib.Data.Nat.Bitwise
import Mathlib.Tactic.Ring

/-!
# The natural layout of types

`glsl_get_natural_size_align_bytes` (`nir_types.cpp`) gives a type its size and alignment, and
`type_get_array_stride` and `struct_type_get_field_offset` (`nir_deref.c`) place the elements and
members of a type by it, in the arithmetic of an `unsigned`. Booleans take four bytes.

`naturalPlacing` is the layout that these functions describe, in natural numbers, and
`naturalPlacing_sound` shows that it places parts inside their type and side by side, for the types
that are `laidOut`. A structure without members has alignment zero, and `ALIGN_POT` of anything to
zero is zero, so that such a member behind another one makes the members that follow start at the
front again. `laidOut` leaves these out, and the types that have no natural size. `toNat_pathOffset`
shows that the code computes the offsets of the layout for the types whose size is below `2^32`.
-/

namespace Mesa3D.Glsl

open Layout (Placing)
open Nat StructFields GlslType BitVec

/-! ### The functions of the source -/

/-- `ALIGN_POT` of `macros.h`. -/
def alignPot (x potAlign : BitVec 32) : BitVec 32 :=
  (x + potAlign - 1) &&& ~~~(potAlign - 1)

/-- `glsl_get_bit_size` of a scalar or vector. It is not defined on the other base types. -/
def glslGetBitSize : GlslBaseType → ℕ
  | .bool => 1
  | .int | .uint | .float | .subroutine => 32
  | .float16 | .uint16 | .int16 => 16
  | .uint8 | .int8 => 8
  | .double | .int64 | .uint64 => 64
  | .sampler | .image => 64
  | _ => 0

/-- The bytes of a component in `glsl_get_natural_size_align_bytes`. -/
def componentBytes : GlslBaseType → ℕ
  | .bool => 4
  | .uint8 => glslGetBitSize .uint8 / 8
  | .int8 => glslGetBitSize .int8 / 8
  | .uint16 => glslGetBitSize .uint16 / 8
  | .int16 => glslGetBitSize .int16 / 8
  | .float16 => glslGetBitSize .float16 / 8
  | .uint => glslGetBitSize .uint / 8
  | .int => glslGetBitSize .int / 8
  | .float => glslGetBitSize .float / 8
  | .double => glslGetBitSize .double / 8
  | .uint64 => glslGetBitSize .uint64 / 8
  | .int64 => glslGetBitSize .int64 / 8
  | _ => 0

mutual

/-- `glsl_get_natural_size_align_bytes`: the size and the alignment. The types of the last case are
`unreachable` (`hasNaturalSize`). -/
def glslGetNaturalSizeAlignBytes : GlslType → BitVec 32 × BitVec 32
  | .numeric base rows columns =>
    (BitVec.ofNat 32 (componentBytes base) * BitVec.ofNat 32 (rows * columns),
      BitVec.ofNat 32 (componentBytes base))
  | .array element length =>
    let (elemSize, elemAlign) := glslGetNaturalSizeAlignBytes element
    (length * alignPot elemSize elemAlign, elemAlign)
  | .struct _ _ fields => structNaturalSizeAlign fields 0 0
  | .sampler .. | .image .. | .atomicUint | .void | .error | .subroutine _ | .interface .. => (0, 0)

/-- The loop of `glsl_get_natural_size_align_bytes` over the members of a structure. -/
def structNaturalSizeAlign : StructFields → BitVec 32 → BitVec 32 → BitVec 32 × BitVec 32
  | .nil, size, align => (size, align)
  | .cons type _ _ rest, size, align =>
    let (elemSize, elemAlign) := glslGetNaturalSizeAlignBytes type
    structNaturalSizeAlign rest (alignPot size elemAlign + elemSize)
      (if elemAlign < align then align else elemAlign)

end

mutual

/-- `glsl_get_natural_size_align_bytes` is defined on the type. -/
def GlslType.hasNaturalSize : GlslType → Bool
  | .numeric base _ _ => decide (0 < componentBytes base)
  | .array element _ => element.hasNaturalSize
  | .struct _ _ fields => fields.haveNaturalSizes
  | _ => false

/-- It is defined on the types of all members. -/
def StructFields.haveNaturalSizes : StructFields → Bool
  | .nil => true
  | .cons type _ _ rest => type.hasNaturalSize && rest.haveNaturalSizes

end

/-- `type_get_array_stride`. It does not use the callback that it is given. -/
def typeGetArrayStride (elemType : GlslType) : BitVec 32 :=
  let (elemSize, elemAlign) := glslGetNaturalSizeAlignBytes elemType
  alignPot elemSize elemAlign

/-- The loop of `struct_type_get_field_offset`, from the offset that it has reached. -/
def fieldOffsetFrom : StructFields → ℕ → BitVec 32 → BitVec 32
  | .nil, _, offset => offset
  | .cons type _ _ rest, fieldIdx, offset =>
    let (elemSize, elemAlign) := glslGetNaturalSizeAlignBytes type
    match fieldIdx with
    | 0 => alignPot offset elemAlign
    | k + 1 => fieldOffsetFrom rest k (alignPot offset elemAlign + elemSize)

/-- `struct_type_get_field_offset`. It does not use the callback that it is given. -/
def structTypeGetFieldOffset (fields : StructFields) (fieldIdx : ℕ) : BitVec 32 :=
  fieldOffsetFrom fields fieldIdx 0

/-- `glsl_get_struct_field`. -/
def StructFields.type? : StructFields → ℕ → Option GlslType
  | .nil, _ => none
  | .cons type _ _ _, 0 => some type
  | .cons _ _ _ rest, k + 1 => rest.type? k

/-! ### The layout -/

/-- The first number at or above `x` that is aligned, and zero for the alignment zero. -/
def alignUp (x a : ℕ) : ℕ :=
  if a = 0 then 0 else (x + (a - 1)) - ((x + (a - 1)) &&& (a - 1))

mutual

/-- The size and the alignment of a type. -/
def GlslType.natural : GlslType → ℕ × ℕ
  | .numeric base rows columns => (componentBytes base * (rows * columns), componentBytes base)
  | .array element length =>
    (length.toNat * alignUp element.natural.1 element.natural.2, element.natural.2)
  | .struct _ _ fields => fields.naturalFrom 0 0
  | .sampler .. | .image .. | .atomicUint | .void | .error | .subroutine _ | .interface .. => (0, 0)

/-- The same for members that follow `size` bytes. -/
def StructFields.naturalFrom : StructFields → ℕ → ℕ → ℕ × ℕ
  | .nil, size, align => (size, align)
  | .cons type _ _ rest, size, align =>
    rest.naturalFrom (alignUp size type.natural.2 + type.natural.1) (max align type.natural.2)

end

/-- The size. -/
def GlslType.naturalSize (t : GlslType) : ℕ := t.natural.1

/-- The alignment. -/
def GlslType.naturalAlign (t : GlslType) : ℕ := t.natural.2

/-- The distance between elements. -/
def GlslType.naturalStride (t : GlslType) : ℕ := alignUp t.naturalSize t.naturalAlign

/-- Where a member starts that follows `offset` bytes of other members. -/
def StructFields.offsetFrom : StructFields → ℕ → ℕ → ℕ
  | .nil, _, offset => offset
  | .cons type _ _ _, 0, offset => alignUp offset type.naturalAlign
  | .cons type _ _ rest, k + 1, offset =>
    rest.offsetFrom k (alignUp offset type.naturalAlign + type.naturalSize)

/-- The element of an array, the column of a matrix, or the member of a structure or interface
block. -/
def GlslType.part : GlslType → ℕ → Option GlslType
  | .array element _, _ => some element
  | .numeric base rows columns, _ => if 1 < columns then some (.numeric base rows 1) else none
  | .struct _ _ fields, k | .interface _ fields _ _, k => fields.type? k
  | _, _ => none

/-- How many elements, columns or members a type has. -/
def GlslType.parts : GlslType → ℕ
  | .array _ length => length.toNat
  | .numeric _ _ columns => if 1 < columns then columns else 0
  | .struct _ _ fields | .interface _ fields _ _ => fields.length
  | _ => 0

/-- Where an element, a column or a member starts. -/
def GlslType.naturalOffset : GlslType → ℕ → ℕ
  | .struct _ _ fields, k | .interface _ fields _ _, k => fields.offsetFrom k 0
  | t, i => i * ((t.part i).map naturalStride).getD 0

/-- The natural layout. -/
def naturalPlacing : Placing GlslType where
  part := part
  length := parts
  offset := naturalOffset
  size := naturalSize

mutual

/-- The type has a natural size, and no structure in it has a member without alignment behind bytes
of other members. -/
def GlslType.laidOut : GlslType → Bool
  | .numeric base _ _ => decide (0 < componentBytes base)
  | .array element _ => element.laidOut
  | .struct _ _ fields => fields.laidOutFrom 0
  | _ => false

/-- The same for the members that follow `size` bytes. -/
def StructFields.laidOutFrom : StructFields → ℕ → Bool
  | .nil, _ => true
  | .cons type _ _ rest, size =>
    type.laidOut && (size == 0 || decide (0 < type.naturalAlign)) &&
      rest.laidOutFrom (alignUp size type.naturalAlign + type.naturalSize)

end

variable {size align a i : ℕ} {t u : GlslType} {rest : StructFields} {r : BitVec 32 × BitVec 32}

/-- Fields are laid out when the first is and the rest is behind it. -/
theorem laidOutFrom_cons {name data} : (cons t name data rest).laidOutFrom size = true ↔
    (t.laidOut = true ∧ (size = 0 ∨ 0 < t.naturalAlign)) ∧
      rest.laidOutFrom (alignUp size t.naturalAlign + t.naturalSize) = true := by
  simp [laidOutFrom]

/-- The size and alignment with one field more. -/
theorem naturalFrom_cons {name data} : (cons t name data rest).naturalFrom size align =
    rest.naturalFrom (alignUp size t.naturalAlign + t.naturalSize) (max align t.naturalAlign) := by
  simp only [naturalFrom, naturalSize, naturalAlign]

/-! ### Alignment -/

/-- Aligning does not go back. -/
theorem le_alignUp (x : ℕ) (ha : 0 < a) : x ≤ alignUp x a := by
  unfold alignUp
  rw [if_neg (by omega)]
  have : (x + (a - 1)) &&& (a - 1) ≤ a - 1 := and_le_right
  omega

/-- Aligning nothing, or anything to a real alignment, does not go back. -/
theorem le_alignUp_of_or {x : ℕ} (h : x = 0 ∨ 0 < a) : x ≤ alignUp x a := by
  rcases h with rfl | h
  · exact zero_le _
  · exact le_alignUp x h

/-- Multiples of a power of two are aligned to it. -/
theorem alignUp_mul (n k : ℕ) : alignUp (2 ^ n * k) (2 ^ n) = 2 ^ n * k := by
  have hpos : 0 < 2 ^ n := Nat.two_pow_pos n
  unfold alignUp
  rw [if_neg (by omega), and_two_pow_sub_one_eq_mod, mul_add_mod, mod_eq_of_lt (by omega)]
  omega

variable (base : GlslBaseType)

/-- The alignments of types: zero, or a power of two up to eight. -/
def IsAlignment (a : ℕ) : Prop := a = 0 ∨ ∃ n ≤ 3, a = 2 ^ n

/-- The larger of two alignments is one. -/
theorem IsAlignment.max {b : ℕ} (ha : IsAlignment a) (hb : IsAlignment b) :
    IsAlignment (max a b) := by
  rcases max_choice a b with h | h <;> rw [h] <;> assumption

/-- The size of a component is an alignment. -/
theorem isAlignment_componentBytes : IsAlignment (componentBytes base) := by
  cases base
  case bool | uint | int | float => exact .inr ⟨2, by omega, rfl⟩
  case uint8 | int8 => exact .inr ⟨0, by omega, rfl⟩
  case uint16 | int16 | float16 => exact .inr ⟨1, by omega, rfl⟩
  case double | uint64 | int64 => exact .inr ⟨3, by omega, rfl⟩
  all_goals exact .inl rfl

/-- Vectors need no padding between them. -/
theorem alignUp_componentBytes (k : ℕ) :
    alignUp (componentBytes base * k) (componentBytes base) = componentBytes base * k := by
  rcases isAlignment_componentBytes base with h | ⟨n, -, h⟩
  · simp [h, alignUp]
  · rw [h, alignUp_mul]

/-! ### The parts of a type -/

/-- The alignment of a structure only grows with its members. -/
theorem le_naturalFrom_snd (fields : StructFields) (size align : ℕ) :
    align ≤ (fields.naturalFrom size align).2 := by
  match fields with
  | .nil => simp [naturalFrom]
  | .cons type _ _ rest =>
    rw [naturalFrom_cons]
    exact le_trans (le_max_left _ _) (le_naturalFrom_snd rest _ _)

mutual

/-- The alignment of a type is zero or a power of two, and zero only if the type has no bytes. -/
theorem natural_spec (t : GlslType) :
    IsAlignment t.naturalAlign ∧ (t.laidOut = true → t.naturalAlign = 0 → t.naturalSize = 0) := by
  match t with
  | .numeric base rows columns =>
    simp only [naturalAlign, naturalSize, natural]
    exact ⟨isAlignment_componentBytes base, fun _ ha => by simp [ha]⟩
  | .array element length =>
    simp only [naturalAlign, naturalSize, natural]
    exact ⟨(natural_spec element).1, fun _ ha => by simp [ha, alignUp]⟩
  | .struct _ _ fields =>
    simp only [naturalAlign, naturalSize, natural, laidOut]
    have h := naturalFrom_spec fields (.inl rfl)
    exact ⟨h.1 0, h.2⟩
  | .sampler .. | .image .. | .atomicUint | .void | .error | .subroutine _ | .interface .. =>
    exact ⟨.inl (by simp [naturalAlign, natural]), fun _ _ => by simp [naturalSize, natural]⟩

/-- The same for members. -/
theorem naturalFrom_spec (fields : StructFields) {align : ℕ} (h : IsAlignment align) :
    (∀ size, IsAlignment (fields.naturalFrom size align).2) ∧ (fields.laidOutFrom 0 = true →
      (fields.naturalFrom 0 align).2 = 0 → (fields.naturalFrom 0 align).1 = 0) := by
  match fields with
  | .nil => simpa [naturalFrom] using h
  | .cons type name data rest =>
    obtain ⟨ha, hzero⟩ := natural_spec type
    have ih := naturalFrom_spec rest (h.max ha)
    refine ⟨fun size => by rw [naturalFrom_cons]; exact ih.1 _, fun hl hnone => ?_⟩
    rw [laidOutFrom_cons] at hl
    rw [naturalFrom_cons] at hnone ⊢
    have hmax := le_naturalFrom_snd rest (alignUp 0 type.naturalAlign + type.naturalSize)
      (max align type.naturalAlign)
    have halign : type.naturalAlign = 0 := by omega
    have hstart : alignUp 0 type.naturalAlign + type.naturalSize = 0 := by
      simp [halign, hzero hl.1.1 halign, alignUp]
    rw [hstart] at hl hnone ⊢
    exact ih.2 hl.2 hnone

end

/-- An element fits the stride. -/
theorem naturalSize_le_naturalStride (hl : t.laidOut = true) : t.naturalSize ≤ t.naturalStride := by
  apply le_alignUp_of_or
  rcases Nat.eq_zero_or_pos t.naturalAlign with ha | ha
  · exact .inl ((natural_spec t).2 hl ha)
  · exact .inr ha

/-- The natural size of vectors and matrices. -/
theorem naturalSize_numeric (rows columns : ℕ) :
    (numeric base rows columns).naturalSize = componentBytes base * (rows * columns) := by
  simp [naturalSize, natural]

/-- The natural size of arrays. -/
theorem naturalSize_array (element : GlslType) (length : BitVec 32) :
    (array element length).naturalSize = length.toNat * element.naturalStride := by
  simp [naturalSize, natural, naturalStride, naturalAlign]

/-- The columns of a matrix follow each other without padding. -/
theorem naturalStride_column (rows : ℕ) :
    (numeric base rows 1).naturalStride = componentBytes base * rows := by
  simp [naturalStride, naturalSize, naturalAlign, natural, alignUp_componentBytes]

/-- The parts of an array or a matrix follow each other at one distance. -/
structure Uniform (t u : GlslType) : Prop where
  /-- The part is laid out. -/
  laidOut : u.laidOut = true
  /-- The type is no structure. -/
  ne_struct : ∀ builtin name fields, t ≠ .struct builtin name fields
  /-- The parts are a stride apart. -/
  offset : ∀ k, t.naturalOffset k = k * u.naturalStride
  /-- They fill the type. -/
  size : t.naturalSize = t.parts * u.naturalStride

/-- A type with parts is an array, a matrix or a structure. -/
theorem part_cases (hl : t.laidOut = true) (hu : t.part i = some u) :
    Uniform t u ∨ ∃ builtin name fields, t = .struct builtin name fields := by
  match t with
  | .array element length =>
    obtain rfl : element = u := by simpa [part] using hu
    exact .inl ⟨by simpa [laidOut] using hl, nofun, fun _ => rfl, naturalSize_array _ _⟩
  | .numeric base rows columns =>
    simp only [part, Option.ite_none_right_eq_some] at hu
    obtain ⟨hc, h⟩ := hu
    cases h
    have hpart : ∀ k, (numeric base rows columns).part k = some (.numeric base rows 1) :=
      fun _ => if_pos hc
    refine .inl ⟨hl, nofun, fun k => by simp [naturalOffset, hpart], ?_⟩
    rw [naturalSize_numeric, naturalStride_column, parts, if_pos hc]
    ring
  | .struct builtin name fields => exact .inr ⟨builtin, name, fields, rfl⟩
  | .sampler .. | .image .. | .atomicUint | .void | .error | .subroutine _ | .interface .. =>
    simp [laidOut] at hl

/-- A part ends before the parts with larger numbers. -/
theorem Uniform.end_le {n : ℕ} (h : Uniform t u) (hi : i < n) :
    t.naturalOffset i + u.naturalSize ≤ n * u.naturalStride := by
  have hle := naturalSize_le_naturalStride h.laidOut
  calc t.naturalOffset i + u.naturalSize
      ≤ (i + 1) * u.naturalStride := by rw [h.offset, Nat.add_mul]; omega
    _ ≤ n * u.naturalStride := mul_le_mul_right _ hi

/-- The size of a structure only grows with its members. -/
theorem le_naturalFrom_fst {fields : StructFields} {size : ℕ} (align : ℕ)
    (hl : fields.laidOutFrom size = true) : size ≤ (fields.naturalFrom size align).1 := by
  match fields with
  | .nil => simp [naturalFrom]
  | .cons type _ _ rest =>
    rw [laidOutFrom_cons] at hl
    rw [naturalFrom_cons]
    have h1 := le_alignUp_of_or hl.1.2
    have h2 := le_naturalFrom_fst (max align type.naturalAlign) hl.2
    omega

/-- A member starts behind the bytes in front of it, ends inside the structure, and is laid out. -/
theorem offsetFrom_inside {fields : StructFields} {size k : ℕ} (align : ℕ)
    (hl : fields.laidOutFrom size = true) (hu : fields.type? k = some u) :
    size ≤ fields.offsetFrom k size ∧
      fields.offsetFrom k size + u.naturalSize ≤ (fields.naturalFrom size align).1 ∧
        u.laidOut = true := by
  match fields, k with
  | .nil, _ => simp [type?] at hu
  | .cons type _ _ rest, 0 =>
    obtain rfl : type = u := by simpa [type?] using hu
    rw [laidOutFrom_cons] at hl
    exact ⟨le_alignUp_of_or hl.1.2, le_naturalFrom_fst _ hl.2, hl.1.1⟩
  | .cons type _ _ rest, k + 1 =>
    rw [laidOutFrom_cons] at hl
    obtain ⟨h1, h2⟩ := offsetFrom_inside (max align type.naturalAlign) hl.2 hu
    have h3 := le_alignUp_of_or hl.1.2
    exact ⟨le_trans (le_trans h3 (le_add_right _ _)) h1, h2⟩

/-- Each number below the number of members is that of a member. -/
theorem exists_type? : ∀ (fields : StructFields) (k : ℕ), k < fields.length →
    ∃ u, fields.type? k = some u
  | .nil, _, h => by simp [length] at h
  | .cons type _ _ _, 0, _ => ⟨type, rfl⟩
  | .cons _ _ _ rest, k + 1, h => exists_type? rest k (by simpa [length] using h)

/-- A member ends before a later one starts. -/
theorem offsetFrom_apart {fields : StructFields} {size i j : ℕ}
    (hl : fields.laidOutFrom size = true)
    (hij : i < j) (hj : j < fields.length) (hu : fields.type? i = some u) :
    fields.offsetFrom i size + u.naturalSize ≤ fields.offsetFrom j size := by
  match fields, i, j with
  | .nil, _, _ => simp [type?] at hu
  | .cons type _ _ rest, 0, j + 1 =>
    obtain rfl : type = u := by simpa [type?] using hu
    rw [laidOutFrom_cons] at hl
    obtain ⟨w, hw⟩ := exists_type? rest j (by simpa [length] using hj)
    exact (offsetFrom_inside 0 hl.2 hw).1
  | .cons type _ _ rest, i + 1, j + 1 =>
    rw [laidOutFrom_cons] at hl
    have hlen : j < rest.length := by simpa [length] using hj
    have h := offsetFrom_apart hl.2 (lt_of_succ_lt_succ hij) hlen hu
    exact h

/-- The natural layout places parts inside their type, one behind the other. -/
theorem naturalPlacing_sound : naturalPlacing.Sound fun t => t.laidOut = true where
  ok_part {t u i} hl hu := by
    rcases part_cases hl hu with h | ⟨_, _, fields, rfl⟩
    · exact h.laidOut
    · exact (offsetFrom_inside 0 (by simpa [laidOut] using hl) hu).2.2
  inside {t u i} hl hi hu := by
    rcases part_cases hl hu with h | ⟨_, _, fields, rfl⟩
    · show t.naturalOffset i + u.naturalSize ≤ t.naturalSize
      rw [h.size]
      exact h.end_le hi
    · have h := (offsetFrom_inside 0 (by simpa [laidOut] using hl) hu).2.1
      show fields.offsetFrom i 0 + u.naturalSize ≤ _
      simpa [naturalPlacing, naturalSize, natural] using h
  apart {t u i j} hl hij hj hu := by
    rcases part_cases hl hu with h | ⟨_, _, fields, rfl⟩
    · show t.naturalOffset i + u.naturalSize ≤ t.naturalOffset j
      rw [h.offset j]
      exact h.end_le hij
    · exact offsetFrom_apart (by simpa [laidOut] using hl) hij hj hu

/-! ### The code computes the layout -/

/-- Clearing bits takes their value away. -/
theorem toNat_and_not (y m : BitVec 32) : (y &&& ~~~m).toNat = y.toNat - (y &&& m).toNat := by
  have hdisjoint : (y &&& ~~~m) &&& (y &&& m) = 0#32 := by
    ext i hi
    simp only [getElem_and, getElem_not, getElem_zero]
    cases y[i] <;> cases m[i] <;> rfl
  have hsplit : (y &&& ~~~m) + (y &&& m) = y := by
    rw [add_eq_or_of_and_eq_zero _ _ hdisjoint]
    ext i hi
    simp only [getElem_or, getElem_and, getElem_not]
    cases y[i] <;> cases m[i] <;> rfl
  have hsum := toNat_add_of_and_eq_zero hdisjoint
  rw [hsplit] at hsum
  omega

/-- `ALIGN_POT` aligns where its sum does not wrap around. -/
theorem toNat_alignPot {x a : BitVec 32} (h : x.toNat + (a.toNat - 1) < 2 ^ 32) :
    (alignPot x a).toNat = alignUp x.toNat a.toNat := by
  unfold alignPot alignUp
  split_ifs with h0
  · obtain rfl : a = 0#32 := eq_of_toNat_eq (by simpa using h0)
    simp
  · have hpred : (a - 1#32).toNat = a.toNat - 1 := by bv_omega
    have hsum : (x + a - 1#32).toNat = x.toNat + (a.toNat - 1) := by bv_omega
    rw [show (1 : BitVec 32) = 1#32 from rfl, toNat_and_not, toNat_and, hpred, hsum]

/-- Sums with powers of two wrap around only where the aligned number is too large. -/
theorem add_pred_lt_of_alignUp_lt {x n : ℕ} (hn : n ≤ 32) (h : alignUp x (2 ^ n) < 2 ^ 32) :
    x + (2 ^ n - 1) < 2 ^ 32 := by
  have hpos : 0 < 2 ^ n := Nat.two_pow_pos n
  unfold alignUp at h
  rw [if_neg (by omega), and_two_pow_sub_one_eq_mod] at h
  by_contra hge
  have hdiv := div_add_mod (x + (2 ^ n - 1)) (2 ^ n)
  have hpow : 2 ^ n * 2 ^ (32 - n) = 2 ^ 32 := by rw [← Nat.pow_add, Nat.add_sub_cancel' hn]
  have hquot : 2 ^ (32 - n) ≤ (x + (2 ^ n - 1)) / 2 ^ n := by
    rw [le_div_iff_mul_le hpos, mul_comm, hpow]
    omega
  have hmul := mul_le_mul_left (2 ^ n) hquot
  omega

/-- `ALIGN_POT` to the alignment of a type, where the aligned number is small enough. -/
theorem toNat_alignPot_of_isAlignment {x a : BitVec 32} (ha : IsAlignment a.toNat)
    (h : alignUp x.toNat a.toNat < 2 ^ 32) : (alignPot x a).toNat = alignUp x.toNat a.toNat := by
  apply toNat_alignPot
  rcases ha with h0 | ⟨n, hn, hpow⟩
  · have := x.isLt
    omega
  · rw [hpow] at h ⊢
    exact add_pred_lt_of_alignUp_lt (by omega) h

/-- The source computes the alignment of a type, and its size if that fits an `unsigned`. -/
structure Computes (r : BitVec 32 × BitVec 32) (size align : ℕ) : Prop where
  /-- The alignment. -/
  align : r.2.toNat = align
  /-- The size. -/
  size : size < 2 ^ 32 → r.1.toNat = size

/-- The stride follows from the size and the alignment. -/
theorem Computes.alignPot (h : Computes r t.naturalSize t.naturalAlign) (hl : t.laidOut = true)
    (hlt : t.naturalStride < 2 ^ 32) : (Glsl.alignPot r.1 r.2).toNat = t.naturalStride := by
  have hsize := h.size (lt_of_le_of_lt (naturalSize_le_naturalStride hl) hlt)
  have halign := h.align
  rw [toNat_alignPot_of_isAlignment (halign ▸ (natural_spec t).1)] <;>
    rw [hsize, halign]
  · rfl
  · exact hlt

/-- The offset of a member follows from the offset behind the one in front of it. -/
theorem Computes.offset (h : Computes r t.naturalSize t.naturalAlign) {size' : BitVec 32}
    (hl : size = 0 ∨ 0 < t.naturalAlign) (hs : size < 2 ^ 32 → size'.toNat = size)
    (hlt : alignUp size t.naturalAlign < 2 ^ 32) :
    (Glsl.alignPot size' r.2).toNat = alignUp size t.naturalAlign := by
  have halign := h.align
  have hle := le_alignUp_of_or hl
  have hsize := hs (by omega)
  rw [toNat_alignPot_of_isAlignment (halign ▸ (natural_spec t).1)] <;> rw [hsize, halign]
  exact hlt

/-- The offset behind a member follows from the offset in front of it. -/
theorem Computes.offsetAdd (h : Computes r t.naturalSize t.naturalAlign) {size' : BitVec 32}
    (hl : size = 0 ∨ 0 < t.naturalAlign) (hs : size < 2 ^ 32 → size'.toNat = size)
    (hlt : alignUp size t.naturalAlign + t.naturalSize < 2 ^ 32) :
    (Glsl.alignPot size' r.2 + r.1).toNat = alignUp size t.naturalAlign + t.naturalSize := by
  rw [toNat_add, h.offset hl hs (by omega), h.size (by omega), mod_eq_of_lt hlt]

mutual

/-- `glsl_get_natural_size_align_bytes` computes the natural size and alignment modulo `2 ^ 32`. -/
theorem computes_natural (t : GlslType) (hl : t.laidOut = true) :
    Computes (glslGetNaturalSizeAlignBytes t) t.naturalSize t.naturalAlign := by
  match t with
  | .numeric base rows columns =>
    have hbytes : componentBytes base < 2 ^ 32 := by cases base <;> decide
    simp only [naturalSize, naturalAlign, natural, glslGetNaturalSizeAlignBytes]
    refine ⟨by simpa using hbytes, fun hlt => ?_⟩
    rw [toNat_mul, toNat_ofNat, toNat_ofNat, ← mul_mod, mod_eq_of_lt hlt]
  | .array element length =>
    have hl' : element.laidOut = true := by simpa [laidOut] using hl
    have ih := computes_natural element hl'
    refine ⟨?_, fun hlt => ?_⟩
    · simpa [naturalAlign, natural, glslGetNaturalSizeAlignBytes] using ih.align
    · rw [naturalSize_array] at hlt ⊢
      simp only [glslGetNaturalSizeAlignBytes, toNat_mul]
      rcases Nat.eq_zero_or_pos length.toNat with h0 | hpos
      · simp [h0]
      · have hle := Nat.le_mul_of_pos_left element.naturalStride hpos
        rw [ih.alignPot hl' (by omega), Nat.mod_eq_of_lt hlt]
  | .struct _ _ fields =>
    have h := computes_naturalFrom fields (by simpa [laidOut] using hl) 0 0 rfl
      fun _ => rfl
    simpa [naturalSize, naturalAlign, natural, glslGetNaturalSizeAlignBytes] using h
  | .sampler .. | .image .. | .atomicUint | .void | .error | .subroutine _ | .interface .. =>
    constructor <;> simp [naturalSize, naturalAlign, natural, glslGetNaturalSizeAlignBytes]

/-- The loop over the fields computes the natural size and alignment modulo `2 ^ 32`. -/
theorem computes_naturalFrom (fields : StructFields) {size : ℕ}
    (hl : fields.laidOutFrom size = true) (size' align' : BitVec 32) {align : ℕ}
    (ha : align'.toNat = align) (hs : size < 2 ^ 32 → size'.toNat = size) :
    Computes (structNaturalSizeAlign fields size' align') (fields.naturalFrom size align).1
      (fields.naturalFrom size align).2 := by
  match fields with
  | .nil => exact ⟨by simpa [structNaturalSizeAlign, naturalFrom] using ha, by
      simpa [structNaturalSizeAlign, naturalFrom] using hs⟩
  | .cons type _ _ rest =>
    rw [laidOutFrom_cons] at hl
    have ih := computes_natural type hl.1.1
    simp only [structNaturalSizeAlign, naturalFrom]
    refine computes_naturalFrom rest hl.2 _ _ ?_ fun hlt => ?_
    · have halign : (glslGetNaturalSizeAlignBytes type).2.toNat = type.natural.2 := ih.align
      split
      all_goals
        rename_i h
        rw [lt_def, halign, ha] at h
        omega
    · exact ih.offsetAdd hl.1.2 hs hlt

end

/-- The stride that the source computes. -/
theorem toNat_typeGetArrayStride (hl : t.laidOut = true) (hlt : t.naturalStride < 2 ^ 32) :
    (typeGetArrayStride t).toNat = t.naturalStride := (computes_natural t hl).alignPot hl hlt

/-- The offset of a member that the source computes. -/
theorem toNat_fieldOffsetFrom {fields : StructFields} {size k : ℕ} {size' : BitVec 32}
    (hl : fields.laidOutFrom size = true) (hs : size < 2 ^ 32 → size'.toNat = size)
    (hu : fields.type? k = some u) (hlt : fields.offsetFrom k size < 2 ^ 32) :
    (fieldOffsetFrom fields k size').toNat = fields.offsetFrom k size := by
  match fields, k with
  | .nil, _ => simp [type?] at hu
  | .cons type _ _ rest, 0 =>
    rw [laidOutFrom_cons] at hl
    exact (computes_natural type hl.1.1).offset hl.1.2 hs hlt
  | .cons type _ _ rest, k + 1 =>
    rw [laidOutFrom_cons] at hl
    have hbehind := (computes_natural type hl.1.1).offsetAdd hl.1.2 hs
    have h := toNat_fieldOffsetFrom hl.2 hbehind hu hlt
    exact h

/-- The offset of a part as the source computes it: that of an element, a column or a member. -/
def partOffset : GlslType → ℕ → BitVec 32
  | .struct _ _ fields, k | .interface _ fields _ _, k => structTypeGetFieldOffset fields k
  | t, i => BitVec.ofNat 32 i * ((t.part i).map typeGetArrayStride).getD 0

/-- The sum of these offsets along a list of numbers. -/
def pathOffset : GlslType → List ℕ → BitVec 32
  | _, [] => 0
  | t, i :: p => partOffset t i + ((t.part i).map fun u => pathOffset u p).getD 0

/-- The offset of a part in bounds, if the type fits an `unsigned`. -/
theorem toNat_partOffset (hl : t.laidOut = true) (hsize : t.naturalSize < 2 ^ 32) (hi : i < t.parts)
    (hu : t.part i = some u) : (partOffset t i).toNat = t.naturalOffset i := by
  have hin := naturalPlacing_sound.inside hl hi hu
  rcases part_cases hl hu with h | ⟨_, _, fields, rfl⟩
  · have hoff : partOffset t i = BitVec.ofNat 32 i * typeGetArrayStride u := by
      have hne := h.ne_struct
      cases t <;> simp_all [partOffset, laidOut]
    have hend : i * u.naturalStride + u.naturalStride ≤ t.naturalSize := by
      rw [h.size, ← Nat.succ_mul]
      exact mul_le_mul_right _ hi
    rw [hoff, h.offset, toNat_mul, toNat_ofNat,
      toNat_typeGetArrayStride h.laidOut (by omega), mod_mul_mod, mod_eq_of_lt (by omega)]
  · refine toNat_fieldOffsetFrom (by simpa [laidOut] using hl) (fun _ => rfl) hu ?_
    have hoff : fields.offsetFrom i 0 + u.naturalSize ≤ _ := hin
    exact lt_of_le_of_lt (le_trans (le_add_right _ _) hoff) hsize

/-- The source computes the offsets of the layout. -/
theorem toNat_pathOffset {p : List ℕ} (hl : t.laidOut = true) (hsize : t.naturalSize < 2 ^ 32)
    (hp : naturalPlacing.inBounds t p = true) :
    (pathOffset t p).toNat = naturalPlacing.offsetAt t p := by
  induction p generalizing t with
  | nil => rfl
  | cons i p ih =>
    obtain ⟨hi, u, hu, hp'⟩ := Placing.inBounds_cons hp
    have hpart : t.part i = some u := hu
    have hu' := naturalPlacing_sound.ok_part hl hu
    have hin : t.naturalOffset i + u.naturalSize ≤ t.naturalSize :=
      naturalPlacing_sound.inside hl hi hu
    have htail := ih hu' (by omega) hp'
    have hle : naturalPlacing.offsetAt u p ≤ u.naturalSize :=
      naturalPlacing_sound.offsetAt_le hu' hp'
    rw [Placing.offsetAt_cons_of_part hu]
    simp only [pathOffset, hpart, Option.map_some, Option.getD_some, toNat_add, htail,
      toNat_partOffset hl hsize hi hu]
    exact mod_eq_of_lt (by
      show t.naturalOffset i + naturalPlacing.offsetAt u p < 2 ^ 32
      omega)

end Mesa3D.Glsl
