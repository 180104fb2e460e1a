import Mathlib.Algebra.GroupWithZero.Nat
import Mathlib.Data.List.Basic
import Mathlib.Data.List.TakeWhile

/-!
# Blobs

The growable byte buffer of `blob.c` and its reader. `blob_write_uint32` pads the buffer with zero
bytes up to a multiple of four first, and `blob_read_uint32` skips as many bytes; both count from
the start of the buffer. Strings and raw bytes are not aligned. A read beyond the end sets
`overrun`, and each read after that fails. Allocation does not fail here.

`Reads` says that a read started where a write started returns what was written and stops where the
write stopped, whatever is written behind it.
-/

namespace Mesa3D.Blob

open List

/-- The bytes of a blob, from the start of the buffer. -/
abbrev Bytes := List (BitVec 8)

/-- A C string: no byte of it is the terminating NUL. -/
structure CString where
  /-- The bytes in front of the terminator. -/
  bytes : Bytes
  /-- None of them is zero. -/
  noNul : 0 ∉ bytes
deriving DecidableEq

/-- `ALIGN` of `macros.h`. -/
def align (n alignment : ℕ) : ℕ :=
  (n + alignment - 1) / alignment * alignment

/-- The `n` low bytes of a number, the least significant one first. -/
def toBytes : ℕ → ℕ → Bytes
  | 0, _ => []
  | n + 1, v => BitVec.ofNat 8 v :: toBytes n (v / 256)

/-- The number that bytes stand for, the least significant one first. -/
def ofBytes : Bytes → ℕ
  | [] => 0
  | b :: bs => b.toNat + 256 * ofBytes bs

/-- The bytes of a number. -/
@[simp]
theorem length_toBytes (n v : ℕ) : (toBytes n v).length = n := by
  induction n generalizing v with
  | zero => rfl
  | succ n ih => simp [toBytes, ih]

/-- The bytes of a number give it back. -/
theorem ofBytes_toBytes {n v : ℕ} (h : v < 256 ^ n) : ofBytes (toBytes n v) = v := by
  induction n generalizing v with
  | zero => simp_all [toBytes, ofBytes]
  | succ n ih =>
    have hdiv : v / 256 < 256 ^ n := Nat.div_lt_of_lt_mul (by rwa [Nat.pow_succ, Nat.mul_comm] at h)
    simp only [toBytes, ofBytes, ih hdiv, BitVec.toNat_ofNat]
    omega

/-! ### Writing -/

/-- `align_blob`. -/
def alignBlob (blob : Bytes) (alignment : ℕ) : Bytes :=
  blob ++ replicate (align blob.length alignment - blob.length) 0

/-- `blob_write_bytes`. -/
def blobWriteBytes (blob bytes : Bytes) : Bytes :=
  blob ++ bytes

/-- `blob_write_uint32`. -/
def blobWriteUint32 (blob : Bytes) (value : BitVec 32) : Bytes :=
  blobWriteBytes (alignBlob blob 4) (toBytes 4 value.toNat)

/-- The functions that write a number of `n` bytes, of which `blob_write_uint32` is one. -/
def writeWord (n : ℕ) (blob : Bytes) (value : BitVec (8 * n)) : Bytes :=
  blobWriteBytes (alignBlob blob n) (toBytes n value.toNat)

/-- `blob_write_uint64`. -/
def blobWriteUint64 (blob : Bytes) (value : BitVec 64) : Bytes := writeWord 8 blob value

/-- `blob_write_intptr`. -/
def blobWriteIntptr (blob : Bytes) (value : BitVec 64) : Bytes := writeWord 8 blob value

/-- `blob_write_string`. -/
def blobWriteString (blob : Bytes) (str : CString) : Bytes :=
  blobWriteBytes blob (str.bytes ++ [0])

/-! ### Reading -/

/-- A reader: the whole buffer, the offset of the next byte, and whether a read failed before. -/
structure BlobReader where
  /-- The bytes. -/
  data : Bytes
  /-- The offset of the next read. -/
  current : ℕ
  /-- `overrun`. -/
  overrun : Bool
deriving DecidableEq

/-- `align_blob_reader`. -/
def alignBlobReader (blob : BlobReader) (alignment : ℕ) : BlobReader :=
  { blob with current := align blob.current alignment }

/-- `ensure_can_read`. -/
def ensureCanRead (blob : BlobReader) (size : ℕ) : Bool × BlobReader :=
  if blob.overrun then (false, blob)
  else if blob.current ≤ blob.data.length ∧ size ≤ blob.data.length - blob.current then (true, blob)
  else (false, { blob with overrun := true })

/-- `blob_copy_bytes`: the bytes copied, if any are. -/
def blobCopyBytes (size : ℕ) (blob : BlobReader) : Option Bytes × BlobReader :=
  match ensureCanRead blob size with
  | (false, blob) => (none, blob)
  | (true, blob) =>
    (some ((blob.data.drop blob.current).take size), { blob with current := blob.current + size })

/-- `blob_read_uint32`. -/
def blobReadUint32 (blob : BlobReader) : BitVec 32 × BlobReader :=
  match blobCopyBytes 4 (alignBlobReader blob 4) with
  | (none, blob) => (0, blob)
  | (some bytes, blob) => (BitVec.ofNat 32 (ofBytes bytes), blob)

/-- The functions that read a number of `n` bytes, of which `blob_read_uint32` is one. -/
def readWord (n : ℕ) (blob : BlobReader) : BitVec (8 * n) × BlobReader :=
  match blobCopyBytes n (alignBlobReader blob n) with
  | (none, blob) => (0, blob)
  | (some bytes, blob) => (BitVec.ofNat (8 * n) (ofBytes bytes), blob)

/-- `blob_read_uint64`. -/
def blobReadUint64 : BlobReader → BitVec 64 × BlobReader := readWord 8

/-- `blob_read_intptr`. -/
def blobReadIntptr : BlobReader → BitVec 64 × BlobReader := readWord 8

/-- The string in front of the first NUL. -/
def CString.untilNul (bytes : Bytes) : CString :=
  ⟨bytes.takeWhile (· ≠ 0), fun h => by simpa using mem_takeWhile_imp h⟩

/-- Bytes are compared by value. -/
scoped instance lawfulByte : LawfulBEq (BitVec 8) := inferInstance

/-! ### Reading what was written -/

/-- Started at the end of `b`, the read returns `a` and stops at the end of `b'`, whatever follows
`b'` in the buffer. -/
def Reads {α : Type} (read : BlobReader → α × BlobReader) (b b' : Bytes) (a : α) : Prop :=
  ∀ post, read ⟨b' ++ post, b.length, false⟩ = (a, ⟨b' ++ post, b'.length, false⟩)

/-- Aligning pads to the next multiple. -/
theorem length_alignBlob (b : Bytes) {alignment : ℕ} (h : 0 < alignment) :
    (alignBlob b alignment).length = align b.length alignment := by
  have hle : b.length ≤ align b.length alignment := by
    have h1 := Nat.div_add_mod (b.length + alignment - 1) alignment
    have h2 := Nat.mod_lt (b.length + alignment - 1) h
    unfold align
    rw [Nat.mul_comm]
    omega
  simp only [alignBlob, length_append, length_replicate]
  omega

/-- Copied bytes come back. -/
theorem reads_copyBytes (b bytes : Bytes) :
    Reads (blobCopyBytes bytes.length) b (blobWriteBytes b bytes) (some bytes) := by
  intro post
  simp [blobCopyBytes, ensureCanRead, blobWriteBytes]

/-- A word comes back. -/
theorem reads_word {n : ℕ} (hn : 0 < n) (b : Bytes) (value : BitVec (8 * n)) :
    Reads (readWord n) b (writeWord n b value) value := by
  intro post
  have h := reads_copyBytes (alignBlob b n) (toBytes n value.toNat) post
  rw [length_toBytes] at h
  have hlt : value.toNat < 256 ^ n := by
    rw [show 256 = 2 ^ 8 from rfl, ← Nat.pow_mul]
    exact value.isLt
  have hval : ofBytes (toBytes n value.toNat) = value.toNat := ofBytes_toBytes hlt
  have halign : alignBlobReader ⟨writeWord n b value ++ post, b.length, false⟩ n =
      ⟨writeWord n b value ++ post, (alignBlob b n).length, false⟩ := by
    rw [length_alignBlob b hn]
    rfl
  unfold readWord
  rw [halign, writeWord, h]
  simp only [hval, BitVec.ofNat_toNat, BitVec.setWidth_eq]

/-- A word of 32 bits comes back. -/
theorem reads_uint32 (b : Bytes) (value : BitVec 32) :
    Reads blobReadUint32 b (blobWriteUint32 b value) value :=
  reads_word (n := 4) (by decide) b value

/-- A string ends at its terminator. -/
theorem CString.untilNul_append (str : CString) (post : Bytes) :
    CString.untilNul (str.bytes ++ 0 :: post) = str := by
  obtain ⟨bytes, hbytes⟩ := str
  simp only [CString.untilNul, CString.mk.injEq]
  rw [takeWhile_append_of_pos]
  · simp
  · intro a ha
    simpa using fun h : a = 0 => hbytes (h ▸ ha)

/-! ### A write only appends -/

/-- Writing bytes only appends. -/
theorem prefix_writeBytes (b bytes : Bytes) : b <+: blobWriteBytes b bytes := prefix_append _ _

/-- Writing a word only appends. -/
theorem prefix_writeWord {n : ℕ} (b : Bytes) (value : BitVec (8 * n)) :
    b <+: writeWord n b value := by
  unfold writeWord blobWriteBytes alignBlob
  rw [append_assoc]
  exact prefix_append _ _

/-- Writing a word of 32 bits only appends. -/
theorem prefix_writeUint32 (b : Bytes) (value : BitVec 32) : b <+: blobWriteUint32 b value :=
  prefix_writeWord (n := 4) b value

/-- Writing a string only appends. -/
theorem prefix_writeString (b : Bytes) (str : CString) : b <+: blobWriteString b str :=
  prefix_append _ _

end Mesa3D.Blob
