import Mesa3D.Glsl.Type
import Mesa3D.Util.BlobItems

/-!
# Types in a blob

`encode_type_to_blob` and `decode_type_from_blob` of `glsl_types.cpp`. Each type starts with one
word: the base type in the top byte, and bit fields that depend on it below. The encoder stops at
an assertion for the types that it has no case for, which `none` stands for; a decoder that reads a
word it has no case for, or a string that is not there or too long for `blob_read_string`, is `none`
as well.

Where the encoder returns, the decoder reads exactly the bytes that were written
(`decodeTypeFromBlob_encode`), but the type that it returns is another one if a field of the word is
too narrow for its value: sixteen components do not fit four bits, the dimensionalities of subpass
images do not fit three, and the `void` of the bare sampler does not fit two. `Serializable` is
what is left.
-/

namespace Mesa3D.Glsl

open Blob List BitVec
open BitVec (ofNat)
open Option

/-! ### Encoding -/

/-- The word of a scalar, a vector or a matrix. -/
def numericWord (base : GlslBaseType) (vectorElements matrixColumns : ℕ) : BitVec 32 :=
  ofNat 32 base.val <<< 24 ||| ofNat 32 vectorElements <<< 4 |||
    ofNat 32 matrixColumns

/-- The word of a sampler. -/
def samplerWord (dim : GlslSamplerDim) (shadow array : Bool) (sampled : GlslBaseType) : BitVec 32 :=
  ofNat 32 GlslBaseType.sampler.val <<< 24 ||| ofNat 32 dim.val <<< 4 |||
    ofNat 32 shadow.toNat <<< 3 ||| ofNat 32 array.toNat <<< 2 |||
    ofNat 32 sampled.val

/-- The word of an image. -/
def imageWord (dim : GlslSamplerDim) (array : Bool) (sampled : GlslBaseType) : BitVec 32 :=
  ofNat 32 GlslBaseType.image.val <<< 24 ||| ofNat 32 dim.val <<< 3 |||
    ofNat 32 array.toNat <<< 2 ||| ofNat 32 sampled.val

/-- The word of a type without bit fields. -/
def baseWord (base : GlslBaseType) : BitVec 32 :=
  ofNat 32 base.val <<< 24

mutual

/-- `encode_type_to_blob` on a type that is not `NULL`. -/
def encodeTypeToBlob : GlslType → Bytes → Option Bytes
  | .numeric base vectorElements matrixColumns, blob =>
    match base with
    | .uint | .int | .float | .bool | .double | .uint64 | .int64 =>
      some (blobWriteUint32 blob (numericWord base vectorElements matrixColumns))
    | _ => none
  | .sampler dim shadow array sampled, blob =>
    some (blobWriteUint32 blob (samplerWord dim shadow array sampled))
  | .subroutine name, blob =>
    some (blobWriteString (blobWriteUint32 blob (baseWord .subroutine)) name)
  | .image dim array sampled, blob => some (blobWriteUint32 blob (imageWord dim array sampled))
  | .atomicUint, blob => some (blobWriteUint32 blob (baseWord .atomicUint))
  | .array element length, blob =>
    encodeTypeToBlob element (blobWriteUint32 (blobWriteUint32 blob (baseWord .array)) length)
  | .struct _ name fields, blob =>
    encodeFields fields (blobWriteUint32 (blobWriteString
      (blobWriteUint32 blob (baseWord .struct)) name) (ofNat 32 fields.length))
  | .interface name fields packing rowMajor, blob => do
    let blob ← encodeFields fields (blobWriteUint32 (blobWriteString
      (blobWriteUint32 blob (baseWord .interface)) name) (ofNat 32 fields.length))
    some (blobWriteUint32 (blobWriteUint32 blob (packing.setWidth 32))
      (ofNat 32 rowMajor.toNat))
  | .void, blob => some (blobWriteUint32 blob (baseWord .void))
  | .error, _ => none

/-- The loop over the fields of a structure or interface block. -/
def encodeFields : StructFields → Bytes → Option Bytes
  | .nil, blob => some blob
  | .cons type name data rest, blob => do
    let blob ← encodeTypeToBlob type blob
    encodeFields rest (blobWriteBytes (blobWriteString blob name) (toBytes 24 data.toNat))

end

/-! ### Decoding -/

/-- Decoding moves the reader and may add types to the tables. -/
abbrev Decode := StateT (BlobReader × TypeTables) Option

/-- A read from the blob. -/
def readBlob {α : Type} (read : BlobReader → α × BlobReader) : Decode α :=
  fun (blob, tables) => some ((read blob).1, (read blob).2, tables)

/-- `blob_read_string`: no result if its assertion fails or it returns `NULL`, which no caller
checks. -/
def readString : Decode CString := fun (blob, tables) => do
  let (some name, blob) ← blob.blobReadString | failure
  return (name, blob, tables)

/-- A lookup in the tables. -/
def lookup (get : TypeTables → GlslType × TypeTables) : Decode (Option GlslType) :=
  fun (blob, tables) => some (some (get tables).1, blob, (get tables).2)

/-- The loop over the fields of a structure or interface block. -/
def decodeFields (decodeType : Decode (Option GlslType)) : ℕ → Decode StructFields
  | 0 => pure .nil
  | n + 1 => do
    let some type ← decodeType | failure
    let name ← readString
    let some data ← readBlob (blobCopyBytes 24) | failure
    let rest ← decodeFields decodeType n
    return .cons type name (ofNat 192 (ofBytes data)) rest

/-- The cases of `decode_type_from_blob` on the base type of the first word `u`. -/
def decodeCase (decodeType : Decode (Option GlslType)) (base : GlslBaseType) (u : BitVec 32) :
    Decode (Option GlslType) :=
  match base with
  | .uint | .int | .float | .bool | .double | .uint64 | .int64 =>
    return some (getInstance base ((u >>> 4) &&& 0x0f).toNat (u &&& 0x0f).toNat)
  | .sampler =>
    return some (getSamplerInstance (.ofBits (u.extractLsb' 4 3)) (u.getLsbD 3) (u.getLsbD 2)
      ((GlslBaseType.ofVal? (u &&& 0x03).toNat).getD .error))
  | .subroutine => do
    let name ← readString
    return some (.subroutine name)
  | .image =>
    return some (getImageInstance (.ofBits (u.extractLsb' 3 3)) (u.getLsbD 2)
      ((GlslBaseType.ofVal? (u &&& 0x03).toNat).getD .error))
  | .atomicUint => return some .atomicUint
  | .array => do
    let length ← readBlob blobReadUint32
    let some element ← decodeType | failure
    return some (.array element length)
  | .struct => do
    let name ← readString
    let numFields ← readBlob blobReadUint32
    let fields ← decodeFields decodeType numFields.toNat
    lookup fun tables => getRecordInstance tables fields name
  | .interface => do
    let name ← readString
    let numFields ← readBlob blobReadUint32
    let fields ← decodeFields decodeType numFields.toNat
    let packing ← readBlob blobReadUint32
    let rowMajor ← readBlob blobReadUint32
    lookup fun tables =>
      getInterfaceInstance tables fields (packing.setWidth 2) (rowMajor != 0) name
  | .void => return some .void
  | _ => failure

/-- `decode_type_from_blob`, nested at most `fuel` deep; `none` inside stands for `NULL`. -/
def decodeTypeFromBlob : ℕ → Decode (Option GlslType)
  | 0 => failure
  | fuel + 1 => do
    let u ← readBlob blobReadUint32
    if u = 0 then return none
    let some base := GlslBaseType.ofVal? (u >>> 24).toNat | failure
    decodeCase (decodeTypeFromBlob fuel) base u

/-! ### Composing reads -/

/-- Started at the end of `b`, the decoder returns `a`, stops at the end of `b'` whatever follows,
and turns the tables `T` into `T'`. -/
def Decodes {α : Type} (m : Decode α) (b b' : Bytes) (T T' : TypeTables) (a : α) : Prop :=
  b <+: b' ∧
    ∀ post, m (⟨b' ++ post, b.length, false⟩, T) = some (a, ⟨b' ++ post, b'.length, false⟩, T')

variable {base : GlslBaseType}

/-- The word is the first one of a type with the base type. -/
abbrev Starts (u : BitVec 32) (base : GlslBaseType) : Prop :=
  u ≠ 0 ∧ GlslBaseType.ofVal? (u >>> 24).toNat = some base

namespace Decodes

variable {α β : Type} {b b' b'' : Bytes} {T T' T'' : TypeTables}

/-- Decoding nothing. -/
theorem pure (a : α) : Decodes (Pure.pure a) b b T T a := ⟨prefix_rfl, fun _ => rfl⟩

/-- Decoding one thing after the other. -/
theorem bind {m : Decode α} {f : α → Decode β} {a : α} {c : β} (hm : Decodes m b b' T T' a)
    (hf : Decodes (f a) b' b'' T' T'' c) : Decodes (m >>= f) b b'' T T'' c := by
  refine ⟨hm.1.trans hf.1, fun post => ?_⟩
  obtain ⟨rest, rfl⟩ := hf.1
  have h1 := hm.2 (rest ++ post)
  have h2 := hf.2 post
  rw [← List.append_assoc] at h1
  simp only [Bind.bind, StateT.bind, h1]
  exact h2

/-- A read of the blob decodes what was written for it. -/
theorem readBlob {read : BlobReader → α × BlobReader} {a : α} (h : Reads read b b' a)
    (hpre : b <+: b') : Decodes (readBlob read) b b' T T a := by
  refine ⟨hpre, fun post => ?_⟩
  simp only [Glsl.readBlob, h post]

/-- A word comes back. -/
theorem uint32 (v : BitVec 32) :
    Decodes (Glsl.readBlob blobReadUint32) b (blobWriteUint32 b v) T T v :=
  readBlob (reads_uint32 b v) (prefix_writeUint32 b v)

/-- A string that fits comes back. -/
theorem string {name : CString} (h : name.Fits) :
    Decodes readString b (blobWriteString b name) T T name := by
  refine ⟨prefix_writeString b name, fun post => ?_⟩
  simp only [readString, blobReadString_write h]
  rfl

/-- Looking a type up reads nothing and may extend the tables. -/
theorem lookup (get : TypeTables → GlslType × TypeTables) :
    Decodes (lookup get) b b T (get T).2 (some (get T).1) := ⟨prefix_rfl, fun _ => rfl⟩

/-- After the first word the decoder goes on in the case of its base type. -/
theorem word {fuel : ℕ} {u : BitVec 32} {a : Option GlslType} (hu : Starts u base)
    (h : Decodes (decodeCase (decodeTypeFromBlob fuel) base u) (blobWriteUint32 b u) b' T T' a) :
    Decodes (decodeTypeFromBlob (fuel + 1)) b b' T T' a := by
  refine bind (uint32 u) ?_
  simp only [if_neg hu.1, hu.2]
  exact h

end Decodes

/-! ### The types that survive -/

mutual

/-- Encoding and decoding returns the type: no integer or floating-point type of eight or sixteen
bits, no vector of sixteen components, no bare sampler, no subpass image and no singleton structure
of `builtin_types.cpp` occurs in it. -/
def GlslType.Serializable : GlslType → Prop
  | .numeric base vectorElements _ =>
    base ∈ [.uint, .int, .float, .bool, .double, .uint64, .int64] ∧ vectorElements ≠ 16
  | .sampler _ _ _ sampled => sampled ≠ .void
  | .image dim _ _ => dim ≠ .subpass ∧ dim ≠ .subpassMs
  | .atomicUint | .void | .subroutine _ => True
  | .error => False
  | .array element _ => element.Serializable
  | .struct builtin _ fields => builtin = false ∧ fields.Serializable
  | .interface _ fields _ _ => fields.Serializable

/-- The fields can be encoded. -/
def StructFields.Serializable : StructFields → Prop
  | .nil => True
  | .cons type _ _ rest => type.Serializable ∧ rest.Serializable

end

mutual

/-- Every name in the type fits. -/
def GlslType.NamesFit : GlslType → Prop
  | .numeric .. | .sampler .. | .image .. | .atomicUint | .void | .error => True
  | .subroutine name => name.Fits
  | .array element _ => element.NamesFit
  | .struct _ name fields | .interface name fields _ _ => name.Fits ∧ fields.NamesFit

/-- Every name in the fields fits. -/
def StructFields.NamesFit : StructFields → Prop
  | .nil => True
  | .cons type name _ rest => type.NamesFit ∧ name.Fits ∧ rest.NamesFit

end

mutual

/-- How deep the type is nested. -/
def GlslType.depth : GlslType → ℕ
  | .numeric .. | .sampler .. | .image .. | .atomicUint | .void | .error | .subroutine _ => 1
  | .array element _ => element.depth + 1
  | .struct _ _ fields | .interface _ fields _ _ => fields.depth + 1

/-- How deep the fields are nested. -/
def StructFields.depth : StructFields → ℕ
  | .nil => 0
  | .cons type _ _ rest => max type.depth rest.depth

end

open GlslType (Serializable depth)

/-- Every declared vector or matrix is in the list of sizes. -/
theorem mem_numericSizes {r c : ℕ} (h : numericDeclared base r c = true) :
    (r, c) ∈ numericSizes := by
  rw [← contains_iff_mem]
  cases base <;> simp_all only [numericDeclared, Bool.and_eq_true, Bool.false_eq_true]

/-- The word of a number type decodes to that type unless it has sixteen components. -/
theorem numericWord_spec {r c : ℕ} (h : numericDeclared base r c = true)
    (hbase : base ∈ [.uint, .int, .float, .bool, .double, .uint64, .int64]) :
    let u := numericWord base r c
    Starts u base ∧
      (getInstance base ((u >>> 4) &&& 0x0f).toNat (u &&& 0x0f).toNat = .numeric base r c ↔
        r ≠ 16) := by
  have key : ∀ base ∈ [GlslBaseType.uint, .int, .float, .bool, .double, .uint64, .int64],
      ∀ s ∈ numericSizes, numericDeclared base s.1 s.2 = true →
      let u := numericWord base s.1 s.2
      Starts u base ∧ (getInstance base ((u >>> 4) &&& 0x0f).toNat (u &&& 0x0f).toNat =
        .numeric base s.1 s.2 ↔ s.1 ≠ 16) := by
    decide
  exact key base hbase (r, c) (mem_numericSizes h) h

/-- The word of a sampler decodes to that sampler unless it is the bare one. -/
theorem samplerWord_spec {dim : GlslSamplerDim} {shadow array : Bool} {sampled : GlslBaseType}
    (h : samplerDeclared dim shadow array sampled = true) :
    let u := samplerWord dim shadow array sampled
    Starts u .sampler ∧
      (getSamplerInstance (.ofBits (u.extractLsb' 4 3)) (u.getLsbD 3) (u.getLsbD 2)
        ((GlslBaseType.ofVal? (u &&& 0x03).toNat).getD .error) = .sampler dim shadow array sampled ↔
          sampled ≠ .void) := by
  dsimp only
  cases sampled <;> simp only [samplerDeclared, Bool.false_eq_true] at h <;>
    cases dim <;> cases shadow <;> cases array <;> first | decide | cases h

/-- The word of an image decodes to that image unless it is a subpass image. -/
theorem imageWord_spec {dim : GlslSamplerDim} {array : Bool} {sampled : GlslBaseType}
    (h : imageDeclared dim array sampled = true) :
    let u := imageWord dim array sampled
    Starts u .image ∧
      (getImageInstance (.ofBits (u.extractLsb' 3 3)) (u.getLsbD 2)
        ((GlslBaseType.ofVal? (u &&& 0x03).toNat).getD .error) = .image dim array sampled ↔
          dim ≠ .subpass ∧ dim ≠ .subpassMs) := by
  dsimp only
  cases sampled <;> simp only [imageDeclared, Bool.false_eq_true] at h <;>
    cases dim <;> cases array <;> first | decide | cases h

/-- The word of a type without bit fields decodes to its base type. -/
theorem baseWord_spec (base : GlslBaseType) (h : base ≠ .uint) : Starts (baseWord base) base := by
  revert h
  cases base <;> decide

/-! ### Decoding what was encoded -/

/-- Decoding the fields of a record returns the record if it returns its fields. -/
theorem getRecordInstance_eq_iff {T T' : TypeTables} (hext : T.Extends T') {name : CString}
    {fields fields' : StructFields} (hmem : ⟨name, fields, 0, false⟩ ∈ T.records.entries)
    (hcmp : fields'.compare fields = true → fields' = fields) :
    (getRecordInstance T' fields' name).1 = .struct false name fields ↔ fields' = fields := by
  unfold getRecordInstance
  constructor
  · intro h
    simp only [GlslType.struct.injEq, true_and] at h
    have hspec := (T'.records.intern_spec ⟨name, fields', 0, false⟩).1
    simp only [recordCompare, Bool.and_eq_true, h.2] at hspec
    exact hcmp hspec.2
  · rintro rfl
    rw [InternTable.intern_of_mem (hext.1 _ hmem)]

/-- An interned interface block is found again only with its own fields. -/
theorem getInterfaceInstance_eq_iff {T T' : TypeTables} (hext : T.Extends T') {name : CString}
    {fields fields' : StructFields} {packing : BitVec 2} {rowMajor : Bool}
    (hmem : ⟨name, fields, packing, rowMajor⟩ ∈ T.interfaces.entries)
    (hcmp : fields'.compare fields = true → fields' = fields) :
    (getInterfaceInstance T' fields' packing rowMajor name).1 =
      .interface name fields packing rowMajor ↔ fields' = fields := by
  unfold getInterfaceInstance
  constructor
  · intro h
    simp only [GlslType.interface.injEq] at h
    have hspec := (T'.interfaces.intern_spec ⟨name, fields', packing, rowMajor⟩).1
    simp only [recordCompare, Bool.and_eq_true, h.2.1] at hspec
    exact hcmp hspec.2
  · rintro rfl
    rw [InternTable.intern_of_mem (hext.2 _ hmem)]

/-- Looking up a structure extends the tables. -/
theorem getRecordInstance_extends (T : TypeTables) (fields : StructFields) (name : CString) :
    T.Extends (getRecordInstance T fields name).2 := ⟨(T.records.intern_spec _).2, fun _ h => h⟩

/-- Looking up an interface block extends the tables. -/
theorem getInterfaceInstance_extends (T : TypeTables) (fields : StructFields) (packing : BitVec 2)
    (rowMajor : Bool) (name : CString) :
    T.Extends (getInterfaceInstance T fields packing rowMajor name).2 :=
  ⟨fun _ h => h, (T.interfaces.intern_spec _).2⟩

/-- A word makes the blob longer. -/
theorem length_lt_writeUint32 (b : Bytes) (v : BitVec 32) :
    b.length < (blobWriteUint32 b v).length := by
  simp only [blobWriteUint32, blobWriteBytes, alignBlob, length_append, length_toBytes]
  omega

/-- A string makes the blob longer. -/
theorem length_lt_writeString (b : Bytes) (str : CString) :
    b.length < (blobWriteString b str).length := by
  simp only [blobWriteString, blobWriteBytes, length_append, length_singleton]
  omega

/-- What comes before the fields. -/
theorem length_lt_writeHeader (b : Bytes) (v n : BitVec 32) (name : CString) :
    b.length < (blobWriteUint32 (blobWriteString (blobWriteUint32 b v) name) n).length :=
  ((length_lt_writeUint32 b v).trans (length_lt_writeString _ name)).trans
  (length_lt_writeUint32 _ n)

mutual

/-- Where the encoder returns, the decoder reads what it wrote, and returns the same type exactly if
the type is serializable. Each level of nesting takes a byte at least. -/
theorem decodeTypeFromBlob_encode {t : GlslType} {fuel : ℕ} {b b' : Bytes} {T : TypeTables}
    (hfuel : t.depth ≤ fuel) (hdecl : t.Declared) (hfit : t.NamesFit) (hin : t.InternedIn T)
    (henc : encodeTypeToBlob t b = some b') :
    ∃ t' T', Decodes (decodeTypeFromBlob fuel) b b' T T' (some t') ∧ T.Extends T' ∧
      t.depth + b.length ≤ b'.length ∧ (t' = t ↔ t.Serializable) := by
  obtain ⟨fuel, rfl⟩ : ∃ n, fuel = n + 1 :=
    Nat.exists_eq_succ_of_ne_zero (by cases t <;> simp [depth] at hfuel <;> omega)
  have hword : ∀ u, 1 + b.length ≤ (blobWriteUint32 b u).length := fun u =>
    Nat.one_add_le_iff.mpr (length_lt_writeUint32 b u)
  match t with
  | .numeric base r c =>
    have hbase : base ∈ [.uint, .int, .float, .bool, .double, .uint64, .int64] := by
      cases base <;> simp_all [encodeTypeToBlob]
    obtain rfl : b' = blobWriteUint32 b (numericWord base r c) := by
      cases base <;> simp_all [encodeTypeToBlob]
    obtain ⟨hu, hinst⟩ := numericWord_spec hdecl hbase
    have hcase : decodeCase (decodeTypeFromBlob fuel) base (numericWord base r c) =
        pure (some (getInstance base ((numericWord base r c >>> 4) &&& 0x0f).toNat
          (numericWord base r c &&& 0x0f).toNat)) := by
      cases base <;> first | rfl | simp at hbase
    refine ⟨_, T, .word hu (hcase ▸ Decodes.pure _), .refl T, hword _, ?_⟩
    simp only [Serializable, hinst, hbase, true_and]
  | .sampler dim shadow array sampled =>
    cases henc
    obtain ⟨hu, hinst⟩ := samplerWord_spec hdecl
    exact ⟨_, T, .word hu (.pure _), .refl T, hword _, hinst⟩
  | .image dim array sampled =>
    cases henc
    obtain ⟨hu, hinst⟩ := imageWord_spec hdecl
    exact ⟨_, T, .word hu (.pure _), .refl T, hword _, hinst⟩
  | .atomicUint | .void =>
    cases henc
    exact ⟨_, T, .word (baseWord_spec _ (by decide)) (.pure _),
      .refl T, hword _, by simp [Serializable]⟩
  | .error => simp [encodeTypeToBlob] at henc
  | .subroutine name =>
    cases henc
    exact ⟨_, T, .word (baseWord_spec .subroutine (by decide)) (.bind (.string hfit) (.pure _)),
      .refl T,
      (hword _).trans (length_lt_writeString _ name).le, by simp [Serializable]⟩
  | .array element length =>
    obtain ⟨t', T', hdec, hext, hdepth, hiff⟩ := decodeTypeFromBlob_encode (t := element)
      (Nat.le_of_succ_le_succ hfuel) hdecl hfit hin henc
    refine ⟨_, T', .word (baseWord_spec .array (by decide))
      (.bind (.uint32 length) (.bind hdec (.pure _))),
      hext, ?_, ?_⟩
    · have h1 := hword (baseWord .array)
      have h2 := length_lt_writeUint32 (blobWriteUint32 b (baseWord .array)) length
      simp only [depth]
      omega
    · simp only [GlslType.array.injEq, and_true, hiff, Serializable]
  | .struct builtin name fields =>
    obtain ⟨fields', T', hdec, hext, hdepth, hiff, hcmp⟩ := decodeFields_encode
      (Nat.le_of_succ_le_succ hfuel) hdecl.1 hfit.2 (Nat.mod_eq_of_lt hdecl.2) hin.2 henc
    refine ⟨_, _, .word (baseWord_spec .struct (by decide))
      (.bind (.string hfit.1) (.bind (.uint32 _) (.bind hdec (.lookup _)))),
      hext.trans (getRecordInstance_extends _ _ _), ?_, ?_⟩
    · have h1 := length_lt_writeHeader b (baseWord .struct) (ofNat 32 fields.length) name
      simp only [depth]
      omega
    · cases builtin with
      | true => simp [getRecordInstance, Serializable]
      | false =>
        rw [getRecordInstance_eq_iff hext (hin.1 rfl) hcmp, hiff]
        simp [Serializable]
  | .interface name fields packing rowMajor =>
    simp only [encodeTypeToBlob, bind_eq_bind, bind_eq_some_iff, some.injEq] at henc
    obtain ⟨b₁, henc, rfl⟩ := henc
    obtain ⟨fields', T', hdec, hext, hdepth, hiff, hcmp⟩ := decodeFields_encode
      (Nat.le_of_succ_le_succ hfuel) hdecl.1 hfit.2 (Nat.mod_eq_of_lt hdecl.2) hin.2 henc
    refine ⟨_, _, .word (baseWord_spec .interface (by decide)) (.bind (.string hfit.1)
      (.bind (.uint32 _) (.bind hdec (.bind (.uint32 _) (.bind (.uint32 _) (.lookup _)))))),
      hext.trans (getInterfaceInstance_extends _ _ _ _ _), ?_, ?_⟩
    · have h1 := length_lt_writeHeader b (baseWord .interface) (ofNat 32 fields.length) name
      have h2 := length_lt_writeUint32 b₁ (packing.setWidth 32)
      have h3 := length_lt_writeUint32 (blobWriteUint32 b₁ (packing.setWidth 32))
        (ofNat 32 rowMajor.toNat)
      simp only [depth]
      omega
    · have hpacking : (packing.setWidth 32).setWidth 2 = packing :=
        setWidth_setWidth_of_le packing (by decide)
      have hrow : (ofNat 32 rowMajor.toNat != 0) = rowMajor := by cases rowMajor <;> rfl
      rw [hpacking, hrow, getInterfaceInstance_eq_iff hext hin.1 hcmp, hiff, Serializable]

/-- Encoded fields are decoded to what they were. -/
theorem decodeFields_encode {fields : StructFields} {fuel n : ℕ} {b b' : Bytes} {T : TypeTables}
    (hfuel : fields.depth ≤ fuel) (hdecl : fields.Declared) (hfit : fields.NamesFit)
    (hn : n = fields.length) (hin : fields.InternedIn T) (henc : encodeFields fields b = some b') :
    ∃ fields' T', Decodes (decodeFields (decodeTypeFromBlob fuel) n) b b' T T' fields' ∧
      T.Extends T' ∧ fields.depth + b.length ≤ b'.length ∧
        (fields' = fields ↔ fields.Serializable) ∧
      (fields'.compare fields = true → fields' = fields) := by
  subst hn
  match fields with
  | .nil =>
    cases henc
    exact ⟨.nil, T, .pure _, .refl T,
      (Nat.zero_add _).le, by simp [StructFields.Serializable], fun _ => rfl⟩
  | .cons type name data rest =>
    simp only [encodeFields, bind_eq_bind, bind_eq_some_iff] at henc
    obtain ⟨b₁, henc₁, henc₂⟩ := henc
    simp only [StructFields.depth, Nat.max_le, StructFields.Declared, StructFields.InternedIn]
      at hfuel hdecl hin
    obtain ⟨type', T₁, hdec₁, hext₁, hdepth₁, hiff₁⟩ := decodeTypeFromBlob_encode hfuel.1 hdecl.1
      hfit.1 hin.1 henc₁
    obtain ⟨rest', T₂, hdec₂, hext₂, hdepth₂, hiff₂, hcmp₂⟩ := decodeFields_encode hfuel.2 hdecl.2
      hfit.2.2 rfl (StructFields.InternedIn.mono hext₁ rest hin.2) henc₂
    have hdata : Decodes (readBlob (blobCopyBytes 24)) (blobWriteString b₁ name)
        (blobWriteBytes (blobWriteString b₁ name) (toBytes 24 data.toNat)) T₁ T₁
        (some (toBytes 24 data.toNat)) := by
      have h := reads_copyBytes (blobWriteString b₁ name) (toBytes 24 data.toNat)
      rw [length_toBytes] at h
      exact .readBlob h (prefix_writeBytes _ _)
    have hof : ofNat 192 (ofBytes (toBytes 24 data.toNat)) = data := by
      rw [ofBytes_toBytes data.isLt, ofNat_toNat, setWidth_eq]
    refine ⟨_, T₂, .bind hdec₁ (.bind (.string hfit.2.1) (.bind hdata (.bind hdec₂ (.pure _)))),
      hext₁.trans hext₂, ?_, ?_, ?_⟩
    · have h1 := length_lt_writeString b₁ name
      have h2 := hdec₂.1.length_le
      simp only [blobWriteBytes, length_append] at hdepth₂ h2
      simp only [StructFields.depth]
      omega
    · simp only [hof, StructFields.cons.injEq, hiff₁, hiff₂, true_and, StructFields.Serializable]
    · simp only [hof, StructFields.compare, Bool.and_eq_true, beq_iff_eq, StructFields.cons.injEq,
        true_and]
      exact fun h => ⟨h.1.1.1, hcmp₂ h.2⟩

end

/-! ### The round trip -/

mutual

/-- The encoder has a case for each serializable type. -/
theorem encodeTypeToBlob_isSome {t : GlslType} (h : t.Serializable) (b : Bytes) :
    ∃ b', encodeTypeToBlob t b = some b' := by
  match t with
  | .numeric base _ _ =>
    simp only [Serializable] at h
    cases base <;> first | exact ⟨_, rfl⟩ | simp at h
  | .sampler .. | .image .. | .atomicUint | .void | .subroutine _ => exact ⟨_, rfl⟩
  | .error => simp [Serializable] at h
  | .array element _ => exact encodeTypeToBlob_isSome (t := element) h _
  | .struct _ _ fields => exact encodeFields_isSome h.2 _
  | .interface name fields packing rowMajor =>
    simp only [encodeTypeToBlob]
    obtain ⟨b', hb'⟩ := encodeFields_isSome h (blobWriteUint32 (blobWriteString
      (blobWriteUint32 b (baseWord .interface)) name) (ofNat 32 fields.length))
    rw [hb']
    exact ⟨_, rfl⟩

/-- Fields that can be encoded are. -/
theorem encodeFields_isSome {fields : StructFields} (h : fields.Serializable) (b : Bytes) :
    ∃ b', encodeFields fields b = some b' := by
  match fields with
  | .nil => exact ⟨b, rfl⟩
  | .cons type name data rest =>
    obtain ⟨b₁, hb₁⟩ := encodeTypeToBlob_isSome h.1 b
    simp only [encodeFields, hb₁]
    exact encodeFields_isSome h.2 _

end

/-- One call of `decode_type_from_blob`. A type is not nested deeper than its encoding is long. -/
def decodeType (blob : BlobReader) (tables : TypeTables) :
    Option (Option GlslType × BlobReader × TypeTables) :=
  decodeTypeFromBlob blob.data.length (blob, tables)

/-- The round trip of a type whose names fit: encoding it succeeds, and decoding it from where it
was written returns the same pointer and consumes exactly the bytes written, exactly if the type is
serializable. -/
theorem decodeType_encodeTypeToBlob_iff (T : TypeTables) (t : GlslType) (hdecl : t.Declared)
    (hfit : t.NamesFit) (hin : t.InternedIn T) (blob post : Bytes) :
    (∃ blob', encodeTypeToBlob t blob = some blob' ∧
      ∃ T', decodeType ⟨blob' ++ post, blob.length, false⟩ T =
        some (some t, ⟨blob' ++ post, blob'.length, false⟩, T')) ↔ t.Serializable := by
  have hdecode : ∀ {blob'}, encodeTypeToBlob t blob = some blob' →
      ∃ t' T', decodeType ⟨blob' ++ post, blob.length, false⟩ T =
        some (some t', ⟨blob' ++ post, blob'.length, false⟩, T') ∧ (t' = t ↔ t.Serializable) := by
    intro blob' henc
    obtain ⟨-, -, -, -, hdepth, -⟩ := decodeTypeFromBlob_encode le_rfl hdecl hfit hin henc
    have hfuel : t.depth ≤ (blob' ++ post).length := by rw [length_append]; omega
    obtain ⟨t', T', hdec, -, -, hiff⟩ := decodeTypeFromBlob_encode hfuel hdecl hfit hin henc
    exact ⟨t', T', hdec.2 post, hiff⟩
  constructor
  · rintro ⟨blob', henc, T', hT'⟩
    obtain ⟨t', T'', hdec, hiff⟩ := hdecode henc
    rw [hdec] at hT'
    exact hiff.mp (by simp_all)
  · intro hser
    obtain ⟨blob', henc⟩ := encodeTypeToBlob_isSome hser blob
    obtain ⟨t', T', hdec, hiff⟩ := hdecode henc
    exact ⟨blob', henc, T', hiff.mpr hser ▸ hdec⟩

/-- A name of one character. -/
def letter (c : BitVec 8) (h : c ≠ 0) : CString :=
  ⟨[c], fun hmem => h (mem_singleton.mp hmem).symm⟩

/-- The fields of `struct { vec3 p; mat4 m[2]; }`. -/
def exampleFields : StructFields :=
  .cons (.numeric .float 3 1) (letter 112 (by decide)) 0 <|
    .cons (.array (.numeric .float 4 4) 2) (letter 109 (by decide)) 0 .nil

/-- Tables that hold one structure. -/
def exampleTables : TypeTables :=
  ⟨⟨fun _ => 0, [⟨letter 83 (by decide), exampleFields, 0, false⟩], by simp⟩,
    ⟨fun _ => 0, [], by simp⟩⟩

/-- A structure with a vector and an array of matrices comes back. -/
theorem decodeType_encodeTypeToBlob_struct :
    ∃ blob', encodeTypeToBlob (.struct false (letter 83 (by decide)) exampleFields)
      [] = some blob' ∧
      ∃ T', decodeType ⟨blob' ++ [], ([] : Bytes).length, false⟩ exampleTables =
        some (some (.struct false (letter 83 (by decide)) exampleFields),
          ⟨blob' ++ [], blob'.length, false⟩, T') :=
  (decodeType_encodeTypeToBlob_iff exampleTables
    (.struct false (letter 83 (by decide)) exampleFields)
    (by simp [GlslType.Declared, StructFields.Declared, exampleFields, numericDeclared,
      numericSizes, StructFields.length])
    (by simp [GlslType.NamesFit, StructFields.NamesFit, exampleFields, CString.Fits, letter])
    (by simp [GlslType.InternedIn, StructFields.InternedIn, exampleFields, exampleTables])
    [] []).mpr (by simp [Serializable, StructFields.Serializable, exampleFields])

/-- A subpass image of floats is read back as a one-dimensional image: its dimensionality, eight,
does not fit the three bits that the decoder reads. -/
theorem decodeType_encodeTypeToBlob_subpass :
    ∃ blob', encodeTypeToBlob (.image .subpass false .float) [] = some blob' ∧
      (decodeType ⟨blob', 0, false⟩ exampleTables).map Prod.fst =
        some (some (.image .dim1D false .float)) := ⟨_, rfl, rfl⟩

end Mesa3D.Glsl
