import Mesa3D.Util.Blob
import Mesa3D.Layout.ByteMem
import Mesa3D.Layout.RoundUp

/-!
# The buffer behind a blob

`struct blob` of `blob.c` as it is in memory, on a machine with addresses of 64 bits: the
allocation, which grows by `realloc`, a fixed allocation that the caller has made, or none at all
(`data` is `NULL`), where only the size is counted. `Util/Blob.lean` has what such a buffer is for:
the list of the bytes that were written. `Holds` relates the two, and each function of the buffer
that does not run out of memory does to it what the function of the same name does to the list.
-/

namespace Mesa3D.Blob

open Layout (ByteMem)
open List

/-- What `realloc` does with a request: whether it succeeds, and what is in the bytes that it adds.
No object is larger than `PTRDIFF_MAX`. -/
structure Heap where
  /-- `realloc` finds memory for the size. -/
  succeeds : ℕ → Bool
  /-- What new memory contains. -/
  garbage : ℕ → ByteMem
  /-- No object is larger than half of the addresses. -/
  fits : ∀ n, succeeds n = true → n < 2 ^ 63

/-- `realloc`: the bytes of the old allocation are kept. -/
def Heap.realloc (heap : Heap) (data : Option ByteMem) (allocated toAllocate : ℕ) : ByteMem :=
  fun x => match data with
  | none => heap.garbage toAllocate x
  | some m => if x < allocated then m x else heap.garbage toAllocate x

/-- `struct blob`. -/
structure Buffer where
  /-- The memory behind `data`, if that is not `NULL`. -/
  data : Option ByteMem
  /-- `allocated`. -/
  allocated : ℕ
  /-- `size`. -/
  size : ℕ
  /-- `fixed_allocation`. -/
  fixedAllocation : Bool
  /-- `out_of_memory`. -/
  outOfMemory : Bool

namespace Buffer

/-- `blob_init`. -/
def blobInit : Buffer := ⟨none, 0, 0, false, false⟩

/-- `blob_init_fixed`. -/
def blobInitFixed (data : Option ByteMem) (size : ℕ) : Buffer := ⟨data, size, 0, true, false⟩

variable (blob : Buffer)

/-- `grow_to_fit`. -/
def growToFit (heap : Heap) (additional : ℕ) : Bool × Buffer :=
  if blob.outOfMemory then (false, blob)
  else if (blob.size + additional) % 2 ^ 64 ≤ blob.allocated then (true, blob)
  else if blob.fixedAllocation then (false, { blob with outOfMemory := true })
  else
    let toAllocate := if blob.allocated = 0 then 4096 else blob.allocated * 2 % 2 ^ 64
    let toAllocate := max toAllocate ((blob.allocated + additional) % 2 ^ 64)
    if heap.succeeds toAllocate then
      (true, { blob with
        data := some (heap.realloc blob.data blob.allocated toAllocate)
        allocated := toAllocate })
    else (false, { blob with outOfMemory := true })

/-- `memcpy` to an offset of the blob, if there is memory. -/
def copyTo (offset : ℕ) (bytes : Bytes) : Buffer :=
  { blob with data := blob.data.map fun m => m.write offset bytes }

/-- `align_blob`. -/
def alignBlob (heap : Heap) (alignment : ℕ) : Bool × Buffer :=
  let newSize := align blob.size alignment % 2 ^ 64
  if blob.size < newSize then
    match blob.growToFit heap (newSize - blob.size) with
    | (false, blob) => (false, blob)
    | (true, blob) =>
      (true, { blob.copyTo blob.size (replicate (newSize - blob.size) 0) with size := newSize })
  else (true, blob)

/-- `blob_write_bytes`. -/
def blobWriteBytes (heap : Heap) (bytes : Bytes) : Bool × Buffer :=
  match blob.growToFit heap bytes.length with
  | (false, blob) => (false, blob)
  | (true, blob) => (true, { blob.copyTo blob.size bytes with size := blob.size + bytes.length })

/-- The functions that write a number of `n` bytes. -/
def writeWord (n : ℕ) (blob : Buffer) (heap : Heap) (value : BitVec (8 * n)) : Bool × Buffer :=
  (blob.alignBlob heap n).2.blobWriteBytes heap (toBytes n value.toNat)

/-- `blob_write_uint32`. -/
def blobWriteUint32 (heap : Heap) (value : BitVec 32) : Bool × Buffer :=
  writeWord 4 blob heap value

/-- `blob_write_uint64`. -/
def blobWriteUint64 (heap : Heap) (value : BitVec 64) : Bool × Buffer :=
  writeWord 8 blob heap value

/-- `blob_write_intptr`. -/
def blobWriteIntptr (heap : Heap) (value : BitVec 64) : Bool × Buffer :=
  writeWord 8 blob heap value

/-- `blob_write_string`. -/
def blobWriteString (heap : Heap) (str : CString) : Bool × Buffer :=
  blob.blobWriteBytes heap (str.bytes ++ [0])

/-- The data of a blob, which a reader is given with the size. -/
def bytes : Bytes :=
  match blob.data with
  | none => []
  | some m => m.read 0 blob.size

end Buffer

/-! ### What a buffer holds -/

/-- What a blob is: growable, with memory for what is allocated, or fixed without memory and without
a limit. -/
inductive Buffer.Valid (blob : Buffer) : Prop
  | growable (fixed : blob.fixedAllocation = false) (small : blob.allocated < 2 ^ 63)
      (memory : blob.data = none → blob.allocated = 0)
  | counting (fixed : blob.fixedAllocation = true) (unlimited : blob.allocated = 2 ^ 64 - 1)
      (memory : blob.data = none)

/-- The bytes of the list were written to the buffer. If there is no memory, only their number is
known. -/
structure Holds (blob : Buffer) (b : Bytes) : Prop where
  /-- The buffer is valid. -/
  valid : blob.Valid
  /-- The size is that of the bytes. -/
  size : blob.size = b.length
  /-- The bytes fit the memory. -/
  size_le : blob.size ≤ blob.allocated
  /-- The memory starts with the bytes. -/
  memory : ∀ m, blob.data = some m → m.read 0 b.length = b
  /-- Memory was found so far. -/
  outOfMemory : blob.outOfMemory = false

open Buffer (blobInit blobInitFixed copyTo)

variable {heap : Heap} {blob : Buffer} {b bytes : Bytes}

/-- A new blob holds nothing. -/
theorem holds_blobInit : Holds blobInit [] :=
  ⟨.growable rfl (by decide) fun _ => rfl, rfl, le_rfl, fun m hm => (by cases hm), rfl⟩

/-- A new fixed blob without storage holds nothing. -/
theorem holds_blobInitFixed : Holds (blobInitFixed none (2 ^ 64 - 1)) [] :=
  ⟨.counting rfl rfl rfl, rfl, Nat.zero_le _, fun m hm => (by cases hm), rfl⟩

/-- A larger allocation has the bytes that were in the old one. -/
theorem read_realloc {data : Option ByteMem} {allocated toAllocate : ℕ}
    (hdata : data = none → allocated = 0)
    (hle : b.length ≤ allocated) (hm : ∀ m, data = some m → m.read 0 b.length = b) :
    (heap.realloc data allocated toAllocate).read 0 b.length = b := by
  cases data with
  | none =>
    have hnil : b = [] := eq_nil_of_length_eq_zero (by have := hdata rfl; omega)
    rw [hnil]
    rfl
  | some m =>
    have hsame : (heap.realloc (some m) allocated toAllocate).read 0
      b.length = m.read 0 b.length := by
      apply map_congr_left
      intro k hk
      have hlt := mem_range.1 hk
      exact if_pos (by omega)
    rw [hsame, hm m rfl]

/-- What a call that succeeds leaves: the bytes that there were, and room. -/
structure Grown (blob blob' : Buffer) (b : Bytes) (additional : ℕ) : Prop where
  /-- The bytes are still there. -/
  holds : Holds blob' b
  /-- The kind of memory stays. -/
  fixed : blob'.fixedAllocation = blob.fixedAllocation
  /-- There is room for more. -/
  room : b.length + additional ≤ blob'.allocated

/-- A call that does not run out of memory makes room. A blob that only counts never runs out of
memory. -/
theorem Holds.growToFit (h : Holds blob b) (heap : Heap) {additional : ℕ}
    (hadd : additional < 2 ^ 63)
    (hmem : (blob.growToFit heap additional).2.outOfMemory = false ∨ blob.fixedAllocation = true)
    (hlen : blob.fixedAllocation = true → b.length + additional < 2 ^ 63) :
    ∃ blob', blob.growToFit heap additional = (true, blob') ∧ Grown blob blob' b additional := by
  have hsize := h.size
  have hle := h.size_le
  unfold Buffer.growToFit at hmem ⊢
  rw [if_neg (by simp [h.outOfMemory])] at hmem ⊢
  cases h.valid with
  | counting fixed unlimited memory =>
    have hlen := hlen fixed
    have hfit : (blob.size + additional) % 2 ^ 64 ≤ blob.allocated := by omega
    rw [if_pos hfit]
    exact ⟨blob, rfl, h, rfl, by omega⟩
  | growable fixed small memory =>
    -- sizes do not wrap
    have hsum : (blob.size + additional) % 2 ^ 64 = blob.size + additional :=
      Nat.mod_eq_of_lt (by omega)
    by_cases hfit : blob.size + additional ≤ blob.allocated
    · rw [hsum, if_pos hfit]
      exact ⟨blob, rfl, h, rfl, by omega⟩
    · rw [hsum, if_neg hfit, if_neg (by simp [fixed])] at hmem ⊢
      dsimp only at hmem ⊢
      have hgrow : (blob.allocated + additional) % 2 ^ 64 = blob.allocated + additional :=
        Nat.mod_eq_of_lt (by omega)
      rw [hgrow] at hmem ⊢
      generalize hto : max (if blob.allocated = 0 then 4096 else blob.allocated * 2 % 2 ^ 64)
        (blob.allocated + additional) = toAllocate at hmem ⊢
      by_cases hok : heap.succeeds toAllocate = true
      · rw [if_pos hok]
        have hsmall := heap.fits toAllocate hok
        refine ⟨_, rfl, ⟨.growable fixed hsmall fun hm => (by cases hm), hsize, ?_, ?_,
          h.outOfMemory⟩, rfl, ?_⟩
        · show blob.size ≤ toAllocate
          omega
        · intro m hm
          cases hm
          exact read_realloc memory (by omega) h.memory
        · show b.length + additional ≤ toAllocate
          omega
      · rw [if_neg hok, fixed] at hmem
        rcases hmem with hmem | hmem <;> cases hmem

/-- Bytes are written behind those that there are. -/
theorem Grown.append {blob' : Buffer} (h : Grown blob blob' b bytes.length) :
    Holds { blob'.copyTo blob'.size bytes with size := blob'.size + bytes.length }
      (b ++ bytes) := by
  have hsize := h.holds.size
  have hroom := h.room
  refine ⟨?_, ?_, ?_, ?_, h.holds.outOfMemory⟩
  · cases h.holds.valid with
    | growable fixed small memory =>
      exact .growable fixed small fun hm => memory (by simpa [copyTo] using hm)
    | counting fixed unlimited memory => exact .counting fixed unlimited (by simp [copyTo, memory])
  · simp [hsize]
  · show blob'.size + bytes.length ≤ blob'.allocated
    omega
  · intro m hm
    obtain ⟨m', hm', rfl⟩ := Option.map_eq_some_iff.1 hm
    have hold := h.holds.memory m' hm'
    rw [length_append, ByteMem.read_add, ByteMem.read_write_of_disjoint _ (by omega), hold, hsize,
      Int.zero_add, ByteMem.read_write_self]

/-! ### Running out of memory -/

/-- A blob that is out of memory does not grow. -/
theorem outOfMemory_growToFit (h : blob.outOfMemory = true) (additional : ℕ) :
    blob.growToFit heap additional = (false, blob) := if_pos h

/-- A write is out of memory when growing is. -/
theorem outOfMemory_blobWriteBytes (heap : Heap) (blob : Buffer) (bytes : Bytes) :
    (blob.blobWriteBytes heap bytes).2.outOfMemory =
    (blob.growToFit heap bytes.length).2.outOfMemory := by
  unfold Buffer.blobWriteBytes
  rcases blob.growToFit heap bytes.length with ⟨_ | _, blob'⟩ <;> rfl

/-- A write that succeeds found memory before. -/
theorem outOfMemory_of_blobWriteBytes (h : (blob.blobWriteBytes heap bytes).2.outOfMemory = false) :
    blob.outOfMemory = false := by
  rw [outOfMemory_blobWriteBytes] at h
  by_contra hne
  have htrue := Bool.eq_true_of_not_eq_false hne
  rw [outOfMemory_growToFit htrue] at h
  exact hne h

/-! ### The functions of a buffer and those of a list -/

/-- A write appends the bytes, if memory is found. -/
theorem Holds.write (h : Holds blob b) (heap : Heap) (hlt : bytes.length < 2 ^ 63)
    (hmem : (blob.blobWriteBytes heap bytes).2.outOfMemory = false ∨ blob.fixedAllocation = true)
    (hlen : blob.fixedAllocation = true → b.length + bytes.length < 2 ^ 63) :
    Holds (blob.blobWriteBytes heap bytes).2 (blobWriteBytes b bytes) ∧
      (blob.blobWriteBytes heap bytes).2.fixedAllocation = blob.fixedAllocation := by
  rw [outOfMemory_blobWriteBytes] at hmem
  obtain ⟨blob', hgrow, hgrown⟩ := h.growToFit heap hlt hmem hlen
  unfold Buffer.blobWriteBytes
  rw [hgrow]
  exact ⟨hgrown.append, hgrown.fixed⟩

/-- Aligning is out of memory when growing is. -/
theorem outOfMemory_alignBlob (heap : Heap) (blob : Buffer) {alignment : ℕ}
    (hlt : blob.size < align blob.size alignment % 2 ^ 64) :
    (blob.alignBlob heap alignment).2.outOfMemory =
      (blob.growToFit heap (align blob.size alignment % 2 ^ 64 - blob.size)).2.outOfMemory := by
  unfold Buffer.alignBlob
  rw [if_pos hlt]
  rcases blob.growToFit heap (align blob.size alignment % 2 ^ 64 - blob.size)
    with ⟨_ | _, blob'⟩ <;> rfl

/-- Aligning pads the bytes, if memory is found. -/
theorem Holds.alignBlob (h : Holds blob b) (heap : Heap) {alignment : ℕ}
    (hpos : 0 < alignment) (hle : alignment ≤ 8)
    (hmem : (blob.alignBlob heap alignment).2.outOfMemory = false ∨ blob.fixedAllocation = true)
    (hlen : blob.fixedAllocation = true → align b.length alignment < 2 ^ 63) :
    Holds (blob.alignBlob heap alignment).2 (alignBlob b alignment) ∧
      (blob.alignBlob heap alignment).2.fixedAllocation = blob.fixedAllocation := by
  have hsize := h.size
  have hge : b.length ≤ align b.length alignment := Layout.le_roundUp b.length hpos
  have hup : align b.length alignment < b.length + alignment := Layout.roundUp_lt b.length hpos
  -- the new size does not wrap
  have hmod : align b.length alignment % 2 ^ 64 = align b.length alignment := by
    apply Nat.mod_eq_of_lt
    have hroom := h.size_le
    cases h.valid with
    | growable fixed small memory => omega
    | counting fixed unlimited memory =>
      have := hlen fixed
      omega
  by_cases hlt : b.length < align b.length alignment
  · have hlt' : blob.size < align blob.size alignment % 2 ^ 64 := by rwa [hsize, hmod]
    rw [outOfMemory_alignBlob heap blob hlt', hsize, hmod] at hmem
    obtain ⟨blob', hgrow, hgrown⟩ := h.growToFit heap (show _ < 2 ^ 63 by omega) hmem fun hf => by
      have := hlen hf
      omega
    have hsize' : blob'.size = b.length := hgrown.holds.size
    unfold Buffer.alignBlob
    rw [if_pos hlt', hsize, hmod, hgrow]
    dsimp only
    refine ⟨?_, hgrown.fixed⟩
    have hgrown' :
      Grown blob blob' b (replicate (align b.length alignment - b.length) 0 : Bytes).length := by
      rwa [length_replicate]
    have happend := hgrown'.append
    rw [length_replicate, hsize', Nat.add_sub_cancel' hge] at happend
    rw [hsize']
    exact happend
  · have hstop : ¬ blob.size < align blob.size alignment % 2 ^ 64 := by rwa [hsize, hmod]
    have heq : align b.length alignment - b.length = 0 := by omega
    unfold Buffer.alignBlob Blob.alignBlob
    rw [if_neg hstop, heq, replicate_zero, append_nil]
    exact ⟨h, rfl⟩

end Mesa3D.Blob
