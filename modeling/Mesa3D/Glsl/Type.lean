import Mesa3D.Util.Blob

/-!
# GLSL types

The types of `glsl_types.cpp` and the functions that return the one instance of a type. The scalars,
vectors, matrices, samplers and images are the singletons that `builtin_type_macros.h` declares
(`Declared`). Arrays, structures, interface blocks and subroutine types are made on demand and kept
in hash tables, so that two of them are the same pointer exactly if the table holds them once
(`InternTable`). The structures of `builtin_types.cpp` such as `gl_DepthRangeParameters` are
singletons outside that table.

A value of `GlslType` stands for a pointer: two values are equal exactly if the pointers are. The
key of an array type is the pointer to its element type with the length, and the key of a subroutine
type is its name, so these two need no table here.
-/

namespace Mesa3D.Glsl

open Blob (CString)

/-- `enum glsl_base_type`. -/
inductive GlslBaseType
  | uint | int | float | float16 | double | uint8 | int8 | uint16 | int16 | uint64 | int64 | bool
  | sampler | image | atomicUint | struct | interface | array | void | subroutine | function | error
deriving DecidableEq

/-- The number of an enumerator. -/
def GlslBaseType.val : GlslBaseType → ℕ
  | uint => 0 | int => 1 | float => 2 | float16 => 3 | double => 4 | uint8 => 5 | int8 => 6
  | uint16 => 7 | int16 => 8 | uint64 => 9 | int64 => 10 | bool => 11 | sampler => 12 | image => 13
  | atomicUint => 14 | struct => 15 | interface => 16 | array => 17 | void => 18 | subroutine => 19
  | function => 20 | error => 21

/-- The enumerators in order. -/
def GlslBaseType.all : List GlslBaseType :=
  [uint, int, float, float16, double, uint8, int8, uint16, int16, uint64, int64, bool, sampler,
    image, atomicUint, struct, interface, array, void, subroutine, function, error]

/-- The enumerator of a number. -/
def GlslBaseType.ofVal? (n : ℕ) : Option GlslBaseType :=
  GlslBaseType.all[n]?

/-- `enum glsl_sampler_dim`. -/
inductive GlslSamplerDim
  | dim1D | dim2D | dim3D | cube | rect | buf | external | ms | subpass | subpassMs
deriving DecidableEq

/-- The number of an enumerator. -/
def GlslSamplerDim.val : GlslSamplerDim → ℕ
  | dim1D => 0 | dim2D => 1 | dim3D => 2 | cube => 3 | rect => 4 | buf => 5 | external => 6
  | ms => 7 | subpass => 8 | subpassMs => 9

/-- The enumerator of a number of three bits. -/
def GlslSamplerDim.ofBits (n : BitVec 3) : GlslSamplerDim :=
  match n.toNat with
  | 0 => dim1D | 1 => dim2D | 2 => dim3D | 3 => cube | 4 => rect | 5 => buf | 6 => external
  | _ => ms

/-! ### The fields of a structure -/

/-- What `glsl_struct_field` holds behind its two pointers: 24 bytes, the last four of them
padding. -/
abbrev StructFieldData := BitVec 192

namespace StructFieldData

variable (d : StructFieldData)

def location : BitVec 32 := d.extractLsb' 0 32
def offset : BitVec 32 := d.extractLsb' 32 32
def xfbBuffer : BitVec 32 := d.extractLsb' 64 32
def xfbStride : BitVec 32 := d.extractLsb' 96 32
def interpolation : BitVec 2 := d.extractLsb' 128 2
def centroid : BitVec 1 := d.extractLsb' 130 1
def sample : BitVec 1 := d.extractLsb' 131 1
def matrixLayout : BitVec 2 := d.extractLsb' 132 2
def patch : BitVec 1 := d.extractLsb' 134 1
def precision : BitVec 2 := d.extractLsb' 135 2
def memoryReadOnly : BitVec 1 := d.extractLsb' 137 1
def memoryWriteOnly : BitVec 1 := d.extractLsb' 138 1
def memoryCoherent : BitVec 1 := d.extractLsb' 139 1
def memoryVolatile : BitVec 1 := d.extractLsb' 140 1
def memoryRestrict : BitVec 1 := d.extractLsb' 141 1
def imageFormat : BitVec 16 := d.extractLsb' 142 16
def explicitXfbBuffer : BitVec 1 := d.extractLsb' 158 1

/-- The part of `record_compare` that compares these fields. `implicit_sized_array` (bit 159) and
the padding are not compared. -/
def compare (a b : StructFieldData) : Bool :=
  a.matrixLayout == b.matrixLayout && a.location == b.location && a.offset == b.offset &&
  a.interpolation == b.interpolation && a.centroid == b.centroid && a.sample == b.sample &&
  a.patch == b.patch && a.memoryReadOnly == b.memoryReadOnly &&
  a.memoryWriteOnly == b.memoryWriteOnly && a.memoryCoherent == b.memoryCoherent &&
  a.memoryVolatile == b.memoryVolatile && a.memoryRestrict == b.memoryRestrict &&
  a.imageFormat == b.imageFormat && a.precision == b.precision &&
  a.explicitXfbBuffer == b.explicitXfbBuffer && a.xfbBuffer == b.xfbBuffer &&
  a.xfbStride == b.xfbStride

/-- The data of a field equals itself. -/
theorem compare_refl (a : StructFieldData) : compare a a = true := by
  simp [compare]

/-- The comparison of field data is symmetric. -/
theorem compare_comm (a b : StructFieldData) : compare a b = compare b a := by
  simp only [compare, BEq.comm]

end StructFieldData

mutual

/-- A pointer to a `glsl_type`. A `struct` is `builtin` if it is one of the singletons of
`builtin_types.cpp`. -/
inductive GlslType
  | numeric (base : GlslBaseType) (vectorElements matrixColumns : ℕ)
  | sampler (dim : GlslSamplerDim) (shadow array : Bool) (sampled : GlslBaseType)
  | image (dim : GlslSamplerDim) (array : Bool) (sampled : GlslBaseType)
  | atomicUint
  | void
  | error
  | subroutine (name : CString)
  | array (element : GlslType) (length : BitVec 32)
  | struct (builtin : Bool) (name : CString) (fields : StructFields)
  | interface (name : CString) (fields : StructFields) (packing : BitVec 2) (rowMajor : Bool)

/-- The fields of a structure or interface block, in order. -/
inductive StructFields
  | nil
  | cons (type : GlslType) (name : CString) (data : StructFieldData) (rest : StructFields)

end

deriving instance DecidableEq for GlslType, StructFields

/-- `length` of a structure or an interface block. -/
def StructFields.length : StructFields → ℕ
  | nil => 0
  | cons _ _ _ rest => rest.length + 1

/-- `vector_elements`, as the constructors set it. -/
def GlslType.vectorElements : GlslType → ℕ
  | .numeric _ n _ => n
  | .sampler _ _ _ _ | .image _ _ _ | .atomicUint | .subroutine _ => 1
  | .void | .error | .array _ _ | .struct _ _ _ | .interface _ _ _ _ => 0

/-! ### The declared singletons -/

/-- `glsl_type::vec` on the types that `VECN` lists: one, two, three, four, eight and sixteen
components. -/
def vec (base : GlslBaseType) (components : ℕ) : GlslType :=
  let n := if components = 8 then 5 else if components = 16 then 6 else components
  if n = 0 ∨ 6 < n then .error else .numeric base ([1, 2, 3, 4, 8, 16].getD (n - 1) 0) 1

/-- `IDX` of `get_instance`, in unsigned arithmetic. -/
def matrixIdx (columns rows : ℕ) : BitVec 32 :=
  (BitVec.ofNat 32 columns - 1) * 3 + (BitVec.ofNat 32 rows - 1)

/-- The columns and rows of the matrix types. -/
def matrixSizes : List (ℕ × ℕ) :=
  [(2, 2), (2, 3), (2, 4), (3, 2), (3, 3), (3, 4), (4, 2), (4, 3), (4, 4)]

/-- `glsl_type::get_instance`. -/
def getInstance (base : GlslBaseType) (rows columns : ℕ) : GlslType :=
  if base = .void then .void
  else if columns = 1 then
    match base with
    | .uint | .int | .float | .float16 | .double | .bool | .uint64 | .int64 | .uint16 | .int16
    | .uint8 | .int8 => vec base rows
    | _ => .error
  else if (base ≠ .float ∧ base ≠ .double ∧ base ≠ .float16) ∨ rows = 1 then .error
  else
    match matrixSizes.find? (fun s => matrixIdx s.1 s.2 == matrixIdx columns rows) with
    | some (c, r) => .numeric base r c
    | none => .error

/-- `glsl_type::get_sampler_instance`. -/
def getSamplerInstance (dim : GlslSamplerDim) (shadow array : Bool) (type : GlslBaseType) :
    GlslType :=
  match type with
  | .float =>
    match dim with
    | .dim1D | .dim2D | .cube => .sampler dim shadow array .float
    | .dim3D | .buf | .external =>
      if shadow || array then .error else .sampler dim false false .float
    | .rect => if array then .error else .sampler .rect shadow false .float
    | .ms => if shadow then .error else .sampler .ms false array .float
    | .subpass | .subpassMs => .error
  | .int | .uint =>
    if shadow then .error
    else
      match dim with
      | .dim1D | .dim2D | .cube | .ms => .sampler dim false array type
      | .dim3D | .rect | .buf => if array then .error else .sampler dim false false type
      | .external | .subpass | .subpassMs => .error
  | _ => .error

/-- `glsl_type::get_image_instance`. It does not look at `array` for `image3D`. -/
def getImageInstance (dim : GlslSamplerDim) (array : Bool) (type : GlslBaseType) : GlslType :=
  match type with
  | .float =>
    match dim with
    | .dim1D | .dim2D | .cube | .ms => .image dim array .float
    | .dim3D => .image .dim3D false .float
    | .rect | .buf => if array then .error else .image dim false .float
    | .subpass | .subpassMs => .image dim false .float
    | .external => .error
  | .int | .uint =>
    match dim with
    | .dim1D | .dim2D | .cube | .ms => .image dim array type
    | .dim3D | .rect | .buf => if array then .error else .image dim false type
    | .subpass | .subpassMs => .image dim false type
    | .external => .error
  | _ => .error

/-- The components and columns of the scalars, vectors and matrices that `builtin_type_macros.h`
declares. -/
def numericSizes : List (ℕ × ℕ) :=
  [(1, 1), (2, 1), (3, 1), (4, 1), (8, 1), (16, 1), (2, 2), (3, 3), (4, 4), (3, 2), (4, 2), (2, 3),
    (4, 3), (2, 4), (3, 4)]

/-- The scalars, vectors and matrices that `builtin_type_macros.h` declares. Only floating-point
types have matrices. -/
def numericDeclared (base : GlslBaseType) (vectorElements matrixColumns : ℕ) : Bool :=
  match base with
  | .float | .float16 | .double => numericSizes.contains (vectorElements, matrixColumns)
  | .bool | .int | .uint | .int64 | .uint64 | .int16 | .uint16 | .int8 | .uint8 =>
    numericSizes.contains (vectorElements, matrixColumns) && matrixColumns == 1
  | _ => false

/-- The samplers that `builtin_type_macros.h` declares; the one of type `void` is the bare
`sampler`. -/
def samplerDeclared (dim : GlslSamplerDim) (shadow array : Bool) (sampled : GlslBaseType) : Bool :=
  match sampled with
  | .float =>
    match dim with
    | .dim1D | .dim2D | .cube => true
    | .dim3D | .buf | .external => !shadow && !array
    | .rect => !array
    | .ms => !shadow
    | .subpass | .subpassMs => false
  | .int | .uint =>
    match dim with
    | .dim1D | .dim2D | .cube | .ms => !shadow
    | .dim3D | .rect | .buf => !shadow && !array
    | .external | .subpass | .subpassMs => false
  | .void => dim == .dim1D && !shadow && !array
  | _ => false

/-- The images that `builtin_type_macros.h` declares. -/
def imageDeclared (dim : GlslSamplerDim) (array : Bool) (sampled : GlslBaseType) : Bool :=
  match sampled with
  | .float | .int | .uint =>
    match dim with
    | .dim1D | .dim2D | .cube | .ms => true
    | .dim3D | .rect | .buf | .subpass | .subpassMs => !array
    | .external => false
  | _ => false

mutual

/-- The type is built from declared types, and each length fits an `unsigned`. -/
def GlslType.Declared : GlslType → Prop
  | .numeric base r c => numericDeclared base r c = true
  | .sampler dim shadow array sampled => samplerDeclared dim shadow array sampled = true
  | .image dim array sampled => imageDeclared dim array sampled = true
  | .atomicUint | .void | .subroutine _ => True
  | .error => False
  | .array element _ => element.Declared
  | .struct _ _ fields | .interface _ fields _ _ => fields.Declared ∧ fields.length < 2 ^ 32

/-- The types of the fields are declared. -/
def StructFields.Declared : StructFields → Prop
  | .nil => True
  | .cons type _ _ rest => type.Declared ∧ rest.Declared

end

/-! ### Interned structures and interface blocks -/

/-- The parts of a structure or interface block that the hash tables compare. A structure has
packing zero and is not row major. -/
structure RecordKey where
  /-- The name. -/
  name : CString
  /-- The fields. -/
  fields : StructFields
  /-- The packing. -/
  packing : BitVec 2
  /-- `interface_row_major`. -/
  rowMajor : Bool
deriving DecidableEq

/-- The loop of `record_compare` over the fields. -/
def StructFields.compare : StructFields → StructFields → Bool
  | .nil, .nil => true
  | .cons t n d rest, .cons t' n' d' rest' =>
    t == t' && n == n' && StructFieldData.compare d d' && rest.compare rest'
  | _, _ => false

/-- `glsl_type::record_compare`, with locations. -/
def recordCompare (a b : RecordKey) : Bool :=
  a.fields.length == b.fields.length && a.packing == b.packing && a.rowMajor == b.rowMajor &&
    a.name == b.name && a.fields.compare b.fields

/-- The loop of `record_key_hash`, on the addresses of the field types. -/
def StructFields.hash (address : GlslType → BitVec 64) : StructFields → BitVec 64 → BitVec 64
  | .nil, h => h
  | .cons t _ _ rest, h => rest.hash address (h * 13 + address t)

/-- `glsl_type::record_key_hash`. -/
def recordKeyHash (address : GlslType → BitVec 64) (key : RecordKey) : BitVec 32 :=
  let hash := key.fields.hash address (BitVec.ofNat 64 key.fields.length)
  hash.setWidth 32 ^^^ (hash >>> 32).setWidth 32

/-- A list of fields equals itself. -/
theorem StructFields.compare_refl (a : StructFields) : a.compare a = true := by
  match a with
  | .nil => rfl
  | .cons t n d rest =>
    simp [StructFields.compare, StructFieldData.compare_refl, StructFields.compare_refl rest]

/-- The comparison of lists of fields is symmetric. -/
theorem StructFields.compare_comm (a b : StructFields) : a.compare b = b.compare a := by
  match a, b with
  | .nil, .nil => rfl
  | .nil, .cons .. => rfl
  | .cons .., .nil => rfl
  | .cons t n d rest, .cons t' n' d' rest' =>
    simp only [StructFields.compare, StructFields.compare_comm rest rest',
      StructFieldData.compare_comm d d', BEq.comm (a := t), BEq.comm (a := n)]

/-- A key equals itself. -/
theorem recordCompare_refl (a : RecordKey) : recordCompare a a = true := by
  simp [recordCompare, StructFields.compare_refl]

/-- The comparison of keys is symmetric. -/
theorem recordCompare_comm (a b : RecordKey) : recordCompare a b = recordCompare b a := by
  unfold recordCompare
  rw [StructFields.compare_comm, BEq.comm (a := a.name), BEq.comm (a := a.packing),
    BEq.comm (a := a.rowMajor), BEq.comm (a := a.fields.length)]

/-- Lists of fields that compare equal hash the same. -/
theorem StructFields.hash_eq_of_compare (address : GlslType → BitVec 64) {a b : StructFields}
    (h : a.compare b = true) (v : BitVec 64) : a.hash address v = b.hash address v := by
  match a, b with
  | .nil, .nil => rfl
  | .cons t n d rest, .cons t' n' d' rest' =>
    simp only [StructFields.compare, Bool.and_eq_true, beq_iff_eq] at h
    simp only [StructFields.hash, h.1.1.1]
    exact StructFields.hash_eq_of_compare address h.2 _

/-- Keys that compare equal have the same hash, so a search by hash misses none of them. -/
theorem recordKeyHash_eq_of_compare (address : GlslType → BitVec 64) {a b : RecordKey}
    (h : recordCompare a b = true) : recordKeyHash address a = recordKeyHash address b := by
  simp only [recordCompare, Bool.and_eq_true, beq_iff_eq] at h
  simp only [recordKeyHash, h.1.1.1.1, StructFields.hash_eq_of_compare address h.2]

/-- A hash table of interned types: no two entries compare equal. -/
structure InternTable where
  /-- The address of a type. -/
  address : GlslType → BitVec 64
  /-- The entries. -/
  entries : List RecordKey
  /-- No two entries are equal. -/
  unique : ∀ a ∈ entries, ∀ b ∈ entries, recordCompare a b = true → a = b

/-- The entry that `_mesa_hash_table_search` finds. -/
def InternTable.search (table : InternTable) (key : RecordKey) : Option RecordKey :=
  table.entries.find? fun e =>
    recordKeyHash table.address e == recordKeyHash table.address key && recordCompare key e

variable {table : InternTable} {key : RecordKey}

/-- What a search returns is in the table and equal to the key. -/
theorem InternTable.recordCompare_of_search {e : RecordKey} (h : table.search key = some e) :
    e ∈ table.entries ∧ recordCompare key e = true := by
  refine ⟨List.mem_of_find?_eq_some h, ?_⟩
  have := List.find?_some h
  simp only [Bool.and_eq_true] at this
  exact this.2

/-- A search that fails says that no entry is equal to the key. -/
theorem InternTable.recordCompare_of_search_none {e : RecordKey} (h : table.search key = none)
    (he : e ∈ table.entries) : recordCompare key e = false := by
  have hnone := List.find?_eq_none.mp h e he
  by_contra hne
  have hcmp : recordCompare key e = true := by simpa using hne
  exact hnone (by simp [hcmp, recordKeyHash_eq_of_compare table.address hcmp])

/-- A key that was not found can be added without a second equal entry. -/
theorem InternTable.unique_cons (h : table.search key = none) :
    ∀ a ∈ key :: table.entries, ∀ b ∈ key :: table.entries, recordCompare a b = true → a = b := by
  intro a ha b hb hab
  rcases List.mem_cons.mp ha with ha' | ha' <;> rcases List.mem_cons.mp hb with hb' | hb'
  · rw [ha', hb']
  · rw [ha', recordCompare_of_search_none h hb'] at hab
    cases hab
  · rw [hb', recordCompare_comm, recordCompare_of_search_none h ha'] at hab
    cases hab
  · exact table.unique a ha' b hb' hab

/-- Search the table and insert the key if it is not there, as `get_record_instance` and
`get_interface_instance` do. -/
def InternTable.intern (table : InternTable) (key : RecordKey) : RecordKey × InternTable :=
  match h : table.search key with
  | some e => (e, table)
  | none =>
    (key, ⟨table.address, key :: table.entries, unique_cons h⟩)

/-- An entry of the table is found again. -/
theorem InternTable.intern_of_mem (h : key ∈ table.entries) : table.intern key = (key, table) := by
  unfold InternTable.intern
  split
  · rename_i e he
    obtain ⟨hmem, hcmp⟩ := recordCompare_of_search he
    rw [table.unique key h e hmem hcmp]
  · rename_i hnone
    have := recordCompare_of_search_none hnone h
    rw [recordCompare_refl] at this
    cases this

/-- The type that comes back compares equal to the key, and the table keeps its entries. -/
theorem InternTable.intern_spec (table : InternTable) (key : RecordKey) :
    recordCompare key (table.intern key).1 = true ∧
      ∀ e ∈ table.entries, e ∈ (table.intern key).2.entries := by
  unfold InternTable.intern
  split
  · rename_i e he
    exact ⟨(recordCompare_of_search he).2, fun _ h => h⟩
  · exact ⟨recordCompare_refl key, fun _ h => List.mem_cons_of_mem _ h⟩

/-- `record_types` and `interface_types`. -/
structure TypeTables where
  /-- `record_types`. -/
  records : InternTable
  /-- `interface_types`. -/
  interfaces : InternTable

/-- `glsl_type::get_record_instance`. -/
def getRecordInstance (tables : TypeTables) (fields : StructFields) (name : CString) :
    GlslType × TypeTables :=
  let (e, records) := tables.records.intern ⟨name, fields, 0, false⟩
  (.struct false e.name e.fields, { tables with records })

/-- `glsl_type::get_interface_instance`. -/
def getInterfaceInstance (tables : TypeTables) (fields : StructFields) (packing : BitVec 2)
    (rowMajor : Bool) (name : CString) : GlslType × TypeTables :=
  let (e, interfaces) := tables.interfaces.intern ⟨name, fields, packing, rowMajor⟩
  (.interface e.name e.fields e.packing e.rowMajor, { tables with interfaces })

mutual

/-- Each structure and interface block in the type, the singletons of `builtin_types.cpp` apart, is
an entry of its table. -/
def GlslType.InternedIn (tables : TypeTables) : GlslType → Prop
  | .numeric .. | .sampler .. | .image .. | .atomicUint | .void | .error | .subroutine _ => True
  | .array element _ => element.InternedIn tables
  | .struct builtin name fields =>
    (builtin = false → ⟨name, fields, 0, false⟩ ∈ tables.records.entries) ∧ fields.InternedIn tables
  | .interface name fields packing rowMajor =>
    ⟨name, fields, packing, rowMajor⟩ ∈ tables.interfaces.entries ∧ fields.InternedIn tables

/-- The types of the fields are interned in the tables. -/
def StructFields.InternedIn (tables : TypeTables) : StructFields → Prop
  | .nil => True
  | .cons type _ _ rest => type.InternedIn tables ∧ rest.InternedIn tables

end

/-- The second pair of tables holds what the first one holds. -/
def TypeTables.Extends (tables tables' : TypeTables) : Prop :=
  (∀ e ∈ tables.records.entries, e ∈ tables'.records.entries) ∧
    ∀ e ∈ tables.interfaces.entries, e ∈ tables'.interfaces.entries

/-- Tables extend themselves. -/
theorem TypeTables.Extends.refl (tables : TypeTables) : tables.Extends tables :=
  ⟨fun _ h => h, fun _ h => h⟩

/-- Extension of tables composes. -/
theorem TypeTables.Extends.trans {t₁ t₂ t₃ : TypeTables} (h : t₁.Extends t₂) (h' : t₂.Extends t₃) :
    t₁.Extends t₃ := ⟨fun e he => h'.1 e (h.1 e he), fun e he => h'.2 e (h.2 e he)⟩

mutual

/-- An interned type stays interned when the tables grow. -/
theorem GlslType.InternedIn.mono {tables tables' : TypeTables} (hext : tables.Extends tables')
    (t : GlslType) (h : t.InternedIn tables) : t.InternedIn tables' := by
  match t with
  | .numeric .. | .sampler .. | .image .. | .atomicUint | .void | .error | .subroutine _ =>
    simp only [GlslType.InternedIn]
  | .array element _ =>
    exact GlslType.InternedIn.mono hext element h
  | .struct builtin name fields =>
    exact ⟨fun hb => hext.1 _ (h.1 hb), StructFields.InternedIn.mono hext fields h.2⟩
  | .interface name fields packing rowMajor =>
    exact ⟨hext.2 _ h.1, StructFields.InternedIn.mono hext fields h.2⟩

/-- Interned fields stay interned when the tables grow. -/
theorem StructFields.InternedIn.mono {tables tables' : TypeTables} (hext : tables.Extends tables')
    (fields : StructFields) (h : fields.InternedIn tables) : fields.InternedIn tables' := by
  match fields with
  | .nil => simp only [StructFields.InternedIn]
  | .cons t n d rest =>
    exact ⟨GlslType.InternedIn.mono hext t h.1, StructFields.InternedIn.mono hext rest h.2⟩

end

end Mesa3D.Glsl
