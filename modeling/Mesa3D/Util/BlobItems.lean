import Mesa3D.Util.BlobBuffer
import Mathlib.Data.BitVec
import Mathlib.Algebra.Order.BigOperators.Group.List

/-!
# Sequences of items in a blob

Items of the types that `blob.h` has functions for are written to a blob one after another, and read
back by the corresponding reads. In a growable blob the writes leave the bytes of `Item.write`
(`Holds.writeItems`), whatever happens to the allocation meanwhile, and a fixed blob without memory
counts as many.

A read that begins where its item begins returns the item and stops where it stops, except for
strings: `blob_read_string` has the length in an `int`. A string of 2 GiB makes it negative, and one
of 4 GiB leaves the reader in front of the end of the string. A reader that has fallen back by a
multiple of 4 GiB never catches up (`readItem_place`), so that the items come back exactly if all
strings are shorter (`readItems_iff`).
-/

namespace Mesa3D.Blob

open List Option

/-! ### Reading a string -/

/-- `blob_read_string`, on a machine with an `int` of 32 bits. If the assertion fails there is no
result. -/
def BlobReader.blobReadString (blob : BlobReader) : Option (Option CString × BlobReader) :=
  let rest := blob.data.drop blob.current
  if blob.data.length ≤ blob.current then some (none, { blob with overrun := true })
  else if 0 ∈ rest then
    let str := CString.untilNul rest
    -- the `int` is converted to `size_t` in the call of `ensure_can_read`
    let size : BitVec 64 := (BitVec.ofNat 32 (str.bytes.length + 1)).signExtend 64
    if (ensureCanRead blob size.toNat).1 then
      some (some str, { blob with current := blob.current + size.toNat })
    else none
  else some (none, { blob with overrun := true })

/-- The size of a string, once it has passed through an `int`, if it is not negative then. -/
theorem toNat_intSize {n : ℕ} (h : ((BitVec.ofNat 32 n).signExtend 64).toNat < 2 ^ 63) :
    ((BitVec.ofNat 32 n).signExtend 64).toNat = n % 2 ^ 32 ∧ n % 2 ^ 32 < 2 ^ 31 := by
  rw [BitVec.toNat_signExtend] at h ⊢
  simp only [BitVec.toNat_setWidth, BitVec.toNat_ofNat, BitVec.msb_eq_decide] at h ⊢
  split_ifs at h ⊢ with hmsb
  · simp at h hmsb
    omega
  · simp at hmsb
    omega

/-- The size of a short string survives its way through `int`. -/
theorem toNat_intSize_of_lt {n : ℕ} (h : n < 2 ^ 31) :
    ((BitVec.ofNat 32 n).signExtend 64).toNat = n := by
  rw [BitVec.toNat_signExtend]
  simp only [BitVec.toNat_setWidth, BitVec.toNat_ofNat, BitVec.msb_eq_decide]
  rw [if_neg (by simp; omega)]
  omega

/-! ### Items -/

/-- What can be written to a blob. Arrays and strings are objects in memory. -/
inductive Item
  | bytes (value : Bytes) (fits : value.length < 2 ^ 63)
  | uint32 (value : BitVec 32)
  | uint64 (value : BitVec 64)
  | intptr (value : BitVec 64)
  | string (value : CString) (fits : value.bytes.length + 1 < 2 ^ 63)

/-- What is known about an item when it is read. -/
inductive Shape
  | bytes (size : ℕ)
  | uint32
  | uint64
  | intptr
  | string

/-- What is read. -/
inductive Value
  | bytes (value : Option Bytes)
  | uint32 (value : BitVec 32)
  | uint64 (value : BitVec 64)
  | intptr (value : BitVec 64)
  | string (value : Option CString)

namespace Item

/-- The shape that an item is read with. -/
def shape : Item → Shape
  | .bytes value _ => .bytes value.length
  | .uint32 _ => .uint32
  | .uint64 _ => .uint64
  | .intptr _ => .intptr
  | .string _ _ => .string

/-- The value that reading an item should return. -/
def value : Item → Value
  | .bytes value _ => .bytes (some value)
  | .uint32 value => .uint32 value
  | .uint64 value => .uint64 value
  | .intptr value => .intptr value
  | .string value _ => .string (some value)

/-- The item is put behind the bytes. -/
def write (b : Bytes) : Item → Bytes
  | .bytes value _ => blobWriteBytes b value
  | .uint32 value => blobWriteUint32 b value
  | .uint64 value => blobWriteUint64 b value
  | .intptr value => blobWriteIntptr b value
  | .string value _ => blobWriteString b value

/-- Where the item ends if it is written at an offset. -/
def place (p : ℕ) : Item → ℕ
  | .bytes value _ => p + value.length
  | .uint32 _ => align p 4 + 4
  | .uint64 _ => align p 8 + 8
  | .intptr _ => align p 8 + 8
  | .string value _ => p + (value.bytes.length + 1)

/-- The length of a string with its NUL fits into an `int`. -/
def Short : Item → Prop
  | .string value _ => value.bytes.length + 1 < 2 ^ 31
  | _ => True

end Item

/-- The call that writes an item. -/
def Buffer.writeItem (blob : Buffer) (heap : Heap) : Item → Bool × Buffer
  | .bytes value _ => blob.blobWriteBytes heap value
  | .uint32 value => blob.blobWriteUint32 heap value
  | .uint64 value => blob.blobWriteUint64 heap value
  | .intptr value => blob.blobWriteIntptr heap value
  | .string value _ => blob.blobWriteString heap value

/-- The calls that write a sequence of items. -/
def Buffer.writeItems (blob : Buffer) (heap : Heap) (items : List Item) : Buffer :=
  items.foldl (fun blob item => (blob.writeItem heap item).2) blob

/-- The items are put behind the bytes. -/
def writeItems (b : Bytes) (items : List Item) : Bytes := items.foldl Item.write b

/-- `blob_reader_init`. -/
def blobReaderInit (data : Bytes) : BlobReader := ⟨data, 0, false⟩

/-- The call that reads an item. -/
def readItem (blob : BlobReader) : Shape → Option (Value × BlobReader)
  | .bytes size => some ((blobCopyBytes size blob).map .bytes id)
  | .uint32 => some ((blobReadUint32 blob).map .uint32 id)
  | .uint64 => some ((blobReadUint64 blob).map .uint64 id)
  | .intptr => some ((blobReadIntptr blob).map .intptr id)
  | .string => blob.blobReadString.map fun r => r.map .string id

/-- The calls that read a sequence of items. -/
def readItems (blob : BlobReader) : List Shape → Option (List Value × BlobReader)
  | [] => some ([], blob)
  | shape :: shapes => do
    let (value, blob) ← readItem blob shape
    let (values, blob) ← readItems blob shapes
    some (value :: values, blob)

/-! ### Writing -/

variable {heap : Heap} {blob : Buffer} {b : Bytes} {n : ℕ}

/-- A word takes its size from the next aligned offset on. -/
theorem length_writeWord (hpos : 0 < n) (b : Bytes) (value : BitVec (8 * n)) :
    (writeWord n b value).length = align b.length n + n := by
  rw [writeWord, blobWriteBytes, length_append, length_alignBlob b hpos, length_toBytes]

/-- Writing a word to a buffer is writing it to the bytes, if memory is found. -/
theorem Holds.writeWord (h : Holds blob b) (heap : Heap) (hpos : 0 < n)
    (hle : n ≤ 8) (value : BitVec (8 * n))
    (hmem : (blob.writeWord n heap value).2.outOfMemory = false ∨ blob.fixedAllocation = true)
    (hlen : blob.fixedAllocation = true → (Blob.writeWord n b value).length < 2 ^ 63) :
    let r := (blob.writeWord n heap value).2
    Holds r (Blob.writeWord n b value) ∧ r.fixedAllocation = blob.fixedAllocation := by
  have hlength := length_writeWord hpos b value
  obtain ⟨halign, hfixed⟩ := h.alignBlob heap hpos hle
    (hmem.imp_left fun hm => outOfMemory_of_blobWriteBytes hm) (fun hf => by have := hlen hf; omega)
  have hbytes : (toBytes n value.toNat).length < 2 ^ 63 := by
    rw [length_toBytes]
    omega
  have hwrite := halign.write heap hbytes
    (by rw [hfixed]; exact hmem) (by
      rw [hfixed, length_alignBlob b hpos, length_toBytes]
      intro hf
      have := hlen hf
      omega)
  exact ⟨hwrite.1, hwrite.2.trans hfixed⟩

/-- Writing an item to a buffer is writing it to the bytes, if memory is found. -/
theorem Holds.writeItem (h : Holds blob b) (heap : Heap) (item : Item)
    (hmem : (blob.writeItem heap item).2.outOfMemory = false ∨ blob.fixedAllocation = true)
    (hlen : blob.fixedAllocation = true → (item.write b).length < 2 ^ 63) :
    let r := (blob.writeItem heap item).2
    Holds r (item.write b) ∧ r.fixedAllocation = blob.fixedAllocation := by
  cases item with
  | bytes value fits =>
    exact h.write heap fits hmem fun hf => by simpa [Item.write, blobWriteBytes] using hlen hf
  | uint32 value => exact h.writeWord (n := 4) heap (by decide) (by decide) value hmem hlen
  | uint64 value | intptr value =>
    exact h.writeWord (n := 8) heap (by decide) (by decide) value hmem hlen
  | string value fits =>
    refine h.write heap (by simpa using fits) hmem fun hf => ?_
    simpa [Item.write, blobWriteString, blobWriteBytes] using hlen hf

/-- An item ends where `Item.place` says. -/
theorem Item.length_write (item : Item) (b : Bytes) :
    (item.write b).length = item.place b.length := by
  cases item with
  | bytes value fits => exact length_append
  | uint32 value => exact length_writeWord (n := 4) (by decide) b value
  | uint64 value | intptr value => exact length_writeWord (n := 8) (by decide) b value
  | string value fits => simp [write, place, blobWriteString, blobWriteBytes]

/-- The bytes that are put behind others depend only on how many these are. -/
theorem Item.write_eq (item : Item) (k : ℕ) : ∃ back, ∀ b : Bytes, b.length = k →
    item.write b = b ++ back := by
  cases item with
  | bytes value fits => exact ⟨value, fun b _ => rfl⟩
  | uint32 value =>
    refine ⟨replicate (align k 4 - k) 0 ++ toBytes 4 value.toNat, fun b hb => ?_⟩
    rw [← append_assoc, ← hb]
    rfl
  | uint64 value | intptr value =>
    refine ⟨replicate (align k 8 - k) 0 ++ toBytes 8 value.toNat, fun b hb => ?_⟩
    rw [← append_assoc, ← hb]
    rfl
  | string value fits => exact ⟨value.bytes ++ [0], fun b _ => rfl⟩

/-- What items append depends on the length of the bytes before them only. -/
theorem writeItems_eq (items : List Item) (k : ℕ) :
    ∃ back, ∀ b : Bytes, b.length = k → writeItems b items = b ++ back := by
  induction items generalizing k with
  | nil => exact ⟨[], fun b _ => (append_nil b).symm⟩
  | cons item items ih =>
    obtain ⟨back, hback⟩ := item.write_eq k
    obtain ⟨rest, hrest⟩ := ih (item.place k)
    refine ⟨back ++ rest, fun b hb => ?_⟩
    calc writeItems b (item :: items) = writeItems (item.write b) items := rfl
      _ = item.write b ++ rest := hrest _ (by rw [item.length_write, hb])
      _ = b ++ (back ++ rest) := by rw [hback b hb, append_assoc]

/-- Writing does not shorten the bytes. -/
theorem length_writeItems_le (items : List Item) (b : Bytes) :
    b.length ≤ (writeItems b items).length := by
  obtain ⟨back, hback⟩ := writeItems_eq items b.length
  rw [hback b rfl, length_append]
  omega

variable {item : Item} {items : List Item} {blob' : BlobReader}

/-- An item written without running out of memory found none lost before. -/
theorem outOfMemory_of_writeItem (h : (blob.writeItem heap item).2.outOfMemory = false) :
    blob.outOfMemory = false := by
  -- the call of `align_blob` in front of a number
  have halign : ∀ n, (blob.alignBlob heap n).2.outOfMemory = false → blob.outOfMemory = false := by
    intro n hn
    by_cases hlt : blob.size < align blob.size n % 2 ^ 64
    · rw [outOfMemory_alignBlob heap blob hlt] at hn
      by_contra hne
      rw [outOfMemory_growToFit (Bool.eq_true_of_not_eq_false hne)] at hn
      exact hne hn
    · unfold Buffer.alignBlob at hn
      rwa [if_neg hlt] at hn
  cases item with
  | bytes value fits | string value fits => exact outOfMemory_of_blobWriteBytes h
  | uint32 value => exact halign 4 (outOfMemory_of_blobWriteBytes h)
  | uint64 value | intptr value => exact halign 8 (outOfMemory_of_blobWriteBytes h)

/-- Items written without running out of memory found none lost before. -/
theorem outOfMemory_of_writeItems (h : (blob.writeItems heap items).outOfMemory = false) :
    blob.outOfMemory = false := by
  induction items generalizing blob with
  | nil => exact h
  | cons item items ih => exact outOfMemory_of_writeItem (ih h)

/-- A sequence of items in a growable blob that does not run out of memory, or in one that only
counts. -/
theorem Holds.writeItems (h : Holds blob b) (heap : Heap) (items : List Item)
    (hmem : (blob.writeItems heap items).outOfMemory = false ∨ blob.fixedAllocation = true)
    (hlen : blob.fixedAllocation = true → (Blob.writeItems b items).length < 2 ^ 63) :
    let r := blob.writeItems heap items
    Holds r (Blob.writeItems b items) ∧ r.fixedAllocation = blob.fixedAllocation := by
  induction items generalizing blob b with
  | nil => exact ⟨h, rfl⟩
  | cons item items ih =>
    have hle := length_writeItems_le items (item.write b)
    obtain ⟨hitem, hfixed⟩ := h.writeItem heap item
      (hmem.imp_left fun hm => outOfMemory_of_writeItems hm) fun hf => hle.trans_lt (hlen hf)
    obtain ⟨hitems, hsame⟩ := ih hitem (hmem.imp_right fun hf => hfixed.trans hf)
      fun hf => hlen (hfixed.symm.trans hf)
    exact ⟨hitems, hsame.trans hfixed⟩

/-- A growable blob has fewer than `2 ^ 63` bytes. -/
theorem Holds.length_lt (h : Holds blob b)
    (hfixed : blob.fixedAllocation = false) : b.length < 2 ^ 63 := by
  have hsize := h.size
  have hle := h.size_le
  cases h.valid with
  | growable fixed small memory => omega
  | counting fixed unlimited memory => rw [fixed] at hfixed; cases hfixed

/-! ### Reading -/

/-- Reading a word back. -/
theorem readWord_short {value : BitVec (8 * n)} (hpos : 0 < n) {α : Type}
    (f : BitVec (8 * n) → α) (post : Bytes) :
    (readWord n ⟨writeWord n b value ++ post, b.length, false⟩).map f id =
      (f value, ⟨writeWord n b value ++ post, (writeWord n b value).length, false⟩) := by
  rw [reads_word hpos b value post]
  rfl

/-- A string that is short is read as without the conversion. -/
theorem blobReadString_of_short {blob : BlobReader} (hover : blob.overrun = false) {str : CString}
    (hshort : str.bytes.length + 1 < 2 ^ 31) {post : Bytes}
    (hrest : blob.data.drop blob.current = str.bytes ++ 0 :: post) :
    blob.blobReadString = some (some str,
      { blob with current := blob.current + (str.bytes.length + 1) }) := by
  have hlen := congrArg length hrest
  rw [length_drop, length_append, length_cons] at hlen
  have hcan : ensureCanRead blob (str.bytes.length + 1) = (true, blob) := by
    unfold ensureCanRead
    rw [if_neg (by simp [hover]), if_pos (by omega)]
  unfold BlobReader.blobReadString
  dsimp only
  rw [hrest, CString.untilNul_append, toNat_intSize_of_lt hshort,
    if_neg (by omega), if_pos (by simp), hcan]
  simp

/-- The size of the string fits the `int` of `blob_read_string`. -/
def CString.Fits (str : CString) : Prop := str.bytes.length + 1 < 2 ^ 31

/-- A string that fits is read where it was written. -/
theorem blobReadString_write {str : CString} (hshort : str.Fits) (b post : Bytes) :
    BlobReader.blobReadString ⟨blobWriteString b str ++ post, b.length, false⟩ =
      some (some str, ⟨blobWriteString b str ++ post, (blobWriteString b str).length, false⟩) := by
  have hrest : (blobWriteString b str ++ post).drop b.length = str.bytes ++ 0 :: post := by
    simp [blobWriteString, blobWriteBytes]
  rw [blobReadString_of_short rfl hshort hrest]
  simp [blobWriteString, blobWriteBytes]

/-- An item that is short is read where it was written. -/
theorem readItem_write (hshort : item.Short) (b post : Bytes) :
    readItem ⟨item.write b ++ post, b.length, false⟩ item.shape =
      some (item.value, ⟨item.write b ++ post, (item.write b).length, false⟩) := by
  cases item with
  | bytes value fits =>
    show some ((blobCopyBytes value.length _).map _ id) = _
    rw [Item.write, reads_copyBytes b value post]
    rfl
  | uint32 value => exact congrArg some (readWord_short (n := 4) (by decide) Value.uint32 post)
  | uint64 value => exact congrArg some (readWord_short (n := 8) (by decide) Value.uint64 post)
  | intptr value => exact congrArg some (readWord_short (n := 8) (by decide) Value.intptr post)
  | string value fits =>
    show (BlobReader.blobReadString ⟨blobWriteString b value ++ post, b.length, false⟩).map _ = _
    rw [blobReadString_write hshort]
    rfl

/-- Short items are read back as they were written. -/
theorem readItems_writeItems (hshort : ∀ item ∈ items, item.Short) (b : Bytes) :
    readItems ⟨writeItems b items, b.length, false⟩ (items.map Item.shape) =
      some (items.map Item.value, ⟨writeItems b items, (writeItems b items).length, false⟩) := by
  induction items generalizing b with
  | nil => rfl
  | cons item items ih =>
    have hrest := ih (fun i hi => hshort i (mem_cons_of_mem _ hi)) (item.write b)
    obtain ⟨back, hback⟩ := writeItems_eq items (item.write b).length
    have hitem := readItem_write (hshort item mem_cons_self) b back
    rw [← hback _ rfl] at hitem
    rw [map_cons, map_cons, readItems]
    show (readItem ⟨writeItems (item.write b) items, b.length, false⟩ item.shape).bind _ = _
    rw [hitem]
    show (readItems ⟨writeItems (item.write b) items, (item.write b).length, false⟩ _).bind _ = _
    rw [hrest]
    rfl

/-! ### A reader that has fallen back -/

section

variable {blob : BlobReader}

/-- How many times 4 GiB the reader falls back at an item. -/
def Item.wraps : Item → ℕ
  | .string value _ => (value.bytes.length + 1) / 2 ^ 32
  | _ => 0

/-- The size of the item does not become negative in an `int`. -/
def Item.NonNeg : Item → Prop
  | .string value _ => (value.bytes.length + 1) % 2 ^ 32 < 2 ^ 31
  | _ => True

/-- The places of items are the same from each multiple of 4 GiB on. -/
theorem Item.place_add (item : Item) (p k : ℕ) :
    item.place (p + 2 ^ 32 * k) = item.place p + 2 ^ 32 * k := by
  have halign : ∀ {a}, a ∣ 2 ^ 32 →
    align (p + 2 ^ 32 * k) a = align p a + 2 ^ 32 * k := fun ha => by
    rw [Nat.add_comm p, Nat.add_comm (align _ _)]
    exact Layout.roundUp_add (Dvd.dvd.mul_right ha k) p
  cases item with
  | bytes value fits | string value fits => show _ + _ = _ + _ + _; omega
  | uint32 value | uint64 value | intptr value =>
    show align _ _ + _ = align _ _ + _ + _
    rw [halign (by decide)]
    omega

/-- Zero or no pointer. -/
def Value.Failed : Value → Prop
  | .bytes value => value = none
  | .uint32 value => value = 0
  | .uint64 value | .intptr value => value = 0
  | .string value => value = none

/-- Where a read that does not fail stops. -/
def BlobReader.Stops (blob : BlobReader) : Shape → Value → ℕ → Prop
  | .bytes size, _, stop => stop = blob.current + size
  | .uint32, _, stop => stop = align blob.current 4 + 4
  | .uint64, _, stop | .intptr, _, stop => stop = align blob.current 8 + 8
  | .string, value, stop => ∃ str, value = .string (some str) ∧
    let size := ((BitVec.ofNat 32 (str.bytes.length + 1)).signExtend 64).toNat
    stop = blob.current + size ∧ size ≤ blob.data.length

/-- A read is in bounds when nothing overran before and the bytes are there. -/
theorem ensureCanRead_iff : (ensureCanRead blob n).1 = true ↔
    blob.overrun = false ∧ blob.current ≤ blob.data.length ∧
      n ≤ blob.data.length - blob.current := by
  unfold ensureCanRead
  split_ifs with hover hcan <;> simp_all

/-- Copying overruns or advances by the size. -/
theorem copyBytes_cases (n : ℕ) (blob : BlobReader) : blobCopyBytes n blob =
    (none, { blob with overrun := true }) ∨
    blob.overrun = false ∧
      ∃ bytes, blobCopyBytes n blob = (some bytes, { blob with current := blob.current + n }) := by
  unfold blobCopyBytes ensureCanRead
  split_ifs with hover hcan
  · exact .inl (by rw [← hover])
  · exact .inr ⟨by simpa using hover, _, rfl⟩
  · exact .inl rfl

/-- Reading a word overruns or advances past its alignment and size. -/
theorem readWord_cases (n : ℕ) (blob : BlobReader) :
    readWord n blob = (0, { alignBlobReader blob n with overrun := true }) ∨ blob.overrun = false ∧
      ∃ value, readWord n blob = (value, { blob with current := align blob.current n + n }) := by
  unfold readWord
  rcases copyBytes_cases n (alignBlobReader blob n) with h | ⟨hover, bytes, h⟩ <;> rw [h]
  · exact .inl rfl
  · exact .inr ⟨hover, _, rfl⟩

/-- What the two cases say of a value that is read. -/
theorem outcome {α : Type} {r : α × BlobReader} {z : α} {g : α → Value} {failed : BlobReader}
    {stop : ℕ} {value : Value}
    (hr : r = (z, failed) ∨ blob.overrun = false ∧ ∃ a, r = (a, { blob with current := stop }))
    (h : some (r.map g id) = some (value, blob')) (hz : (g z).Failed)
    (hfailed : failed.data = blob.data ∧ failed.overrun = true) :
    blob'.data = blob.data ∧ (value.Failed ∧
      blob'.overrun = true ∨ (blob.overrun = false ∧ blob'.overrun = false) ∧
        blob'.current = stop) := by
  rcases hr with rfl | ⟨hover, a, rfl⟩ <;> cases h
  · exact ⟨hfailed.1, .inl ⟨hz, hfailed.2⟩⟩
  · exact ⟨rfl, .inr ⟨⟨hover, hover⟩, rfl⟩⟩

/-- A read fails and leaves `overrun` set, or no read has failed. -/
theorem readItem_cases {shape : Shape} {value : Value}
    (h : readItem blob shape = some (value, blob')) :
    blob'.data = blob.data ∧ (value.Failed ∧ blob'.overrun = true ∨
      (blob.overrun = false ∧ blob'.overrun = false) ∧ blob.Stops shape value blob'.current) := by
  cases shape with
  | bytes size =>
    exact outcome ((copyBytes_cases size blob).imp_right
      (.imp_right (Exists.imp' some fun _ => id))) h rfl ⟨rfl, rfl⟩
  | uint32 => exact outcome (readWord_cases 4 blob) h rfl ⟨rfl, rfl⟩
  | uint64 | intptr => exact outcome (readWord_cases 8 blob) h rfl ⟨rfl, rfl⟩
  | string =>
    simp only [readItem, BlobReader.blobReadString] at h
    split_ifs at h with hend hnul hcan <;> cases h
    · exact ⟨rfl, .inl ⟨rfl, rfl⟩⟩
    · obtain ⟨hover, hle, hsize⟩ := ensureCanRead_iff.1 hcan
      exact ⟨rfl, .inr ⟨⟨hover, hover⟩, _, rfl, rfl, by omega⟩⟩
    · exact ⟨rfl, .inl ⟨rfl, rfl⟩⟩

/-- The check of a size that has passed through an `int`. -/
theorem ensureCanRead_intSize (hsmall : blob.data.length < 2 ^ 63)
    (hle : blob.current ≤ blob.data.length)
    (hn : n ≤ blob.data.length - blob.current) :
    (ensureCanRead blob ((BitVec.ofNat 32 n).signExtend 64).toNat).1 = true ↔
      blob.overrun = false ∧ n % 2 ^ 32 < 2 ^ 31 := by
  rw [ensureCanRead_iff]
  refine and_congr_right fun _ => ⟨fun h => (toNat_intSize (by omega)).2, fun h => ?_⟩
  have hmod : BitVec.ofNat 32 n = BitVec.ofNat 32 (n % 2 ^ 32) := BitVec.eq_of_toNat_eq (by simp)
  rw [hmod, toNat_intSize_of_lt h]
  omega

/-- The string ends before the rest of the bytes does. -/
theorem length_untilNul_lt {rest : Bytes} (h : 0 ∈ rest) :
    (CString.untilNul rest).bytes.length < rest.length := by
  refine (takeWhile_sublist _).length_le.lt_of_ne fun hlen => ?_
  simpa using takeWhile_eq_self_iff.1 ((takeWhile_sublist _).eq_of_length hlen) 0 h

/-- The assertion of `blob_read_string`. -/
theorem blobReadString_isSome_iff (hsmall : blob.data.length < 2 ^ 63) :
    blob.blobReadString.isSome ↔
    (0 ∈ blob.data.drop blob.current → blob.overrun = false ∧
      ((CString.untilNul (blob.data.drop blob.current)).bytes.length + 1) % 2 ^ 32 < 2 ^ 31) := by
  unfold BlobReader.blobReadString
  dsimp only
  by_cases hnul : 0 ∈ blob.data.drop blob.current
  · have hlt := length_untilNul_lt hnul
    rw [length_drop] at hlt
    rw [if_neg (by omega), if_pos hnul, imp_iff_right hnul,
      ← ensureCanRead_intSize hsmall (by omega) (by omega)]
    split_ifs with hcan <;> simp [hcan]
  · rw [if_neg hnul, ite_self]
    exact iff_of_true rfl fun h => (hnul h).elim

/-- A reader that has not overrun at the end had not overrun before. -/
theorem overrun_of_readItems {shapes : List Shape} {values : List Value}
    (h : readItems blob shapes = some (values, blob')) (hover : blob'.overrun = false) :
    blob.overrun = false := by
  induction shapes generalizing blob values with
  | nil =>
    obtain rfl := (Prod.mk.inj (some.inj h)).2
    exact hover
  | cons shape shapes ih =>
    obtain ⟨⟨value, blob₁⟩, hitem, h⟩ := bind_eq_some_iff.1 h
    obtain ⟨⟨rest, blob₂⟩, hitems, h⟩ := bind_eq_some_iff.1 h
    obtain rfl := (Prod.mk.inj (some.inj h)).2
    rcases (readItem_cases hitem).2 with ⟨-, hfail⟩ | ⟨hok, -⟩
    · rw [ih hitems] at hfail
      cases hfail
    · exact hok.1

/-- A reader after a read that has not failed. -/
structure Advanced (blob blob' : BlobReader) (item : Item) : Prop where
  /-- The bytes stay. -/
  data : blob'.data = blob.data
  /-- The reader is behind the item, but for what the size has lost. -/
  current : blob'.current + 2 ^ 32 * item.wraps = item.place blob.current
  /-- The size is not negative. -/
  nonNeg : item.NonNeg

/-- A read that returns the item, wherever it was made, goes as far as the item is long, but for
multiples of 4 GiB. -/
theorem readItem_place (hsmall : blob.data.length < 2 ^ 63)
    (h : readItem blob item.shape = some (item.value, blob')) (hover : blob'.overrun = false) :
    Advanced blob blob' item := by
  obtain ⟨hdata, ⟨-, hfail⟩ | ⟨-, hstop⟩⟩ := readItem_cases h
  · rw [hover] at hfail
    cases hfail
  · cases item with
    | string value fits =>
      obtain ⟨str, hstr, hstop, hle⟩ := hstop
      cases hstr
      -- the assertion has passed, so that the size is not negative
      obtain ⟨hsize, hnonNeg⟩ := toNat_intSize (n := value.bytes.length + 1) (by omega)
      refine ⟨hdata, ?_, hnonNeg⟩
      show _ + 2 ^ 32 * ((value.bytes.length + 1) / 2 ^ 32) =
        blob.current + (value.bytes.length + 1)
      rw [hstop, hsize]
      omega
    | _ => exact ⟨hdata, hstop, trivial⟩

/-- The reader falls back by as many times 4 GiB as the items say. -/
theorem readItems_place {b : Bytes} {k : ℕ} (hsmall : blob.data.length < 2 ^ 63)
    (h : readItems blob (items.map Item.shape) = some (items.map Item.value, blob'))
    (hover : blob'.overrun = false) (hplace : blob.current + 2 ^ 32 * k = b.length) :
    (∀ item ∈ items, item.NonNeg) ∧
      blob'.current + 2 ^ 32 * (k + (items.map Item.wraps).sum) = (writeItems b items).length := by
  induction items generalizing blob b k with
  | nil =>
    obtain rfl := (Prod.mk.inj (some.inj h)).2
    exact ⟨fun item hi => absurd hi not_mem_nil, hplace⟩
  | cons item items ih =>
    obtain ⟨⟨value, blob₁⟩, hitem, h⟩ := bind_eq_some_iff.1 h
    obtain ⟨⟨values, blob₂⟩, hitems, h⟩ := bind_eq_some_iff.1 h
    obtain ⟨hvalues, rfl⟩ := Prod.mk.inj (some.inj h)
    obtain ⟨rfl, rfl⟩ := cons.inj hvalues
    have hfirst := readItem_place hsmall hitem (overrun_of_readItems hitems hover)
    have hplace₁ : blob₁.current + 2 ^ 32 * (k + item.wraps) = (item.write b).length :=
      calc blob₁.current + 2 ^ 32 * (k + item.wraps)
          = blob₁.current + 2 ^ 32 * item.wraps + 2 ^ 32 * k := by ring
        _ = item.place blob.current + 2 ^ 32 * k := by rw [hfirst.current]
        _ = (item.write b).length := by rw [← item.place_add, hplace, item.length_write]
    obtain ⟨hnonNeg, hend⟩ := ih (hfirst.data ▸ hsmall) hitems hplace₁
    refine ⟨fun i hi => ?_, ?_⟩
    · rcases mem_cons.1 hi with rfl | hi
      · exact hfirst.nonNeg
      · exact hnonNeg i hi
    · rw [map_cons, sum_cons, ← Nat.add_assoc]
      exact hend

end

/-- An item whose size neither wraps nor turns negative is short. -/
theorem Item.short_of_wraps (hnonNeg : item.NonNeg) (hwraps : item.wraps = 0) : item.Short := by
  cases item with
  | string value fits =>
    have h₁ : (value.bytes.length + 1) % 2 ^ 32 < 2 ^ 31 := hnonNeg
    have h₂ : (value.bytes.length + 1) / 2 ^ 32 = 0 := hwraps
    show value.bytes.length + 1 < 2 ^ 31
    omega
  | _ => trivial

/-- Items come back exactly if all strings are short. -/
theorem readItems_iff (hsmall : (writeItems [] items).length < 2 ^ 63) :
    readItems (blobReaderInit (writeItems [] items)) (items.map Item.shape) =
        some (items.map Item.value, ⟨writeItems [] items, (writeItems [] items).length, false⟩) ↔
      ∀ item ∈ items, item.Short := by
  constructor
  · intro h item hi
    obtain ⟨hnonNeg, hend⟩ := readItems_place (b := []) (k := 0) hsmall h rfl rfl
    -- the reader is at the end, so that it has not fallen back
    have hsum : (items.map Item.wraps).sum = 0 := by
      simp only [Nat.zero_add] at hend
      omega
    have hwraps := sum_eq_zero_iff.1 hsum _ (mem_map_of_mem hi)
    exact Item.short_of_wraps (hnonNeg item hi) hwraps
  · exact fun hshort => readItems_writeItems hshort []

/-! ### The round trip -/

/-- The data of a growable blob are what was written. -/
theorem Holds.bytes_eq (h : Holds blob b)
    (hfixed : blob.fixedAllocation = false) : blob.bytes = b := by
  have hsize := h.size
  have hle := h.size_le
  unfold Buffer.bytes
  rw [hsize]
  cases hdata : blob.data with
  | some m => exact h.memory m hdata
  | none =>
    cases h.valid with
    | growable fixed small memory =>
      have hzero := memory hdata
      exact (eq_nil_of_length_eq_zero (by omega)).symm
    | counting fixed unlimited memory => rw [fixed] at hfixed; cases hfixed

/-- A blob after writes that have all succeeded, and one that has only counted them. -/
theorem writeItems_blobInit (hmem : (Buffer.blobInit.writeItems heap items).outOfMemory = false) :
    (Buffer.blobInit.writeItems heap items).bytes = writeItems [] items ∧
      (Buffer.blobInit.writeItems heap items).size = (writeItems [] items).length ∧
      (writeItems [] items).length < 2 ^ 63 ∧
      ((Buffer.blobInitFixed none (2 ^ 64 - 1)).writeItems heap items).size =
      (writeItems [] items).length := by
  obtain ⟨h, hfixed⟩ := holds_blobInit.writeItems heap items (.inl hmem) fun hf => by cases hf
  have hlt := h.length_lt hfixed
  obtain ⟨hcounted, -⟩ := holds_blobInitFixed.writeItems heap items (.inr rfl) fun _ => hlt
  exact ⟨h.bytes_eq hfixed, h.size, hlt, hcounted.size⟩

/-- Items are written to a growable blob, and no allocation fails. The corresponding reads return
the items and stop at the end without an overrun, and a fixed blob without data counts the same
size, exactly if the length of each string with its NUL fits into an `int`. -/
theorem blob_roundTrip_iff (heap : Heap) (items : List Item)
    (hmem : (Buffer.blobInit.writeItems heap items).outOfMemory = false) :
    (readItems (blobReaderInit (Buffer.blobInit.writeItems heap items).bytes)
      (items.map Item.shape) =
        some (items.map Item.value, ⟨(Buffer.blobInit.writeItems heap items).bytes,
          (Buffer.blobInit.writeItems heap items).size, false⟩) ∧
      ((Buffer.blobInitFixed none (2 ^ 64 - 1)).writeItems heap items).size =
        (Buffer.blobInit.writeItems heap items).size) ↔
      ∀ item ∈ items, item.Short := by
  obtain ⟨hbytes, hsize, hlt, hcounted⟩ := writeItems_blobInit hmem
  rw [hbytes, hsize, hcounted, readItems_iff hlt]
  exact and_iff_left rfl

/-- `realloc` succeeds for every object that there can be. -/
def plenty : Heap := ⟨fun n => decide (n < 2 ^ 63), fun _ _ => 0, fun _ h => of_decide_eq_true h⟩

/-- A string, a word of 64 bits, two bytes and a word of 32 bits take 24 bytes with their
alignment. -/
theorem blob_roundTrip_iff_aligned :
    (∀ item ∈ [Item.string ⟨[65], by decide⟩ (by decide), .uint64 7,
      .bytes [1, 2] (by decide), .uint32 9],
      item.Short) ∧
    ((Buffer.blobInitFixed none (2 ^ 64 - 1)).writeItems plenty
      [.string ⟨[65], by decide⟩ (by decide), .uint64 7,
      .bytes [1, 2] (by decide), .uint32 9]).size = 24 := by
  refine ⟨by simp [Item.Short], ?_⟩
  exact ((blob_roundTrip_iff plenty _ (by decide)).2 (by simp [Item.Short])).2.trans (by decide)

/-- A string of one byte, repeated. -/
def repeated (n : ℕ) : CString :=
  ⟨List.replicate n 1, fun h => absurd (List.eq_of_mem_replicate h) (by decide)⟩

/-- The length of a repeated byte. -/
theorem length_repeated (n : ℕ) : (repeated n).bytes.length = n := length_replicate

/-- One string in a growable blob. -/
theorem outOfMemory_plenty (str : CString) (fits : str.bytes.length + 1 < 2 ^ 63) :
    (Buffer.blobInit.writeItems plenty [.string str fits]).outOfMemory = false := by
  show (Buffer.blobInit.blobWriteBytes plenty (str.bytes ++ [0])).2.outOfMemory = false
  rw [outOfMemory_blobWriteBytes, length_append, length_singleton]
  have hmod : (str.bytes.length + 1) % 2 ^ 64 = str.bytes.length + 1 := Nat.mod_eq_of_lt (by omega)
  have hok : plenty.succeeds (max 4096 (str.bytes.length + 1)) = true := by
    simp only [plenty, decide_eq_true_eq]
    omega
  unfold Buffer.growToFit Buffer.blobInit
  simp only [Nat.zero_add, hmod, Bool.false_eq_true, if_false, if_true]
  rw [if_neg (by omega), if_pos hok]

/-- A string whose size is negative in an `int` has no result. -/
theorem blobReadString_of_negative {blob : BlobReader} {str : CString} {post : Bytes}
    (hsmall : blob.data.length < 2 ^ 63) (hneg : 2 ^ 31 ≤ (str.bytes.length + 1) % 2 ^ 32)
    (hrest : blob.data.drop blob.current = str.bytes ++ 0 :: post) :
    blob.blobReadString = none := by
  refine not_isSome_iff_eq_none.1 fun h => ?_
  rw [blobReadString_isSome_iff hsmall, hrest, CString.untilNul_append] at h
  have := (h (by simp)).2
  omega

/-- A string that takes 2 GiB with its NUL is written, but the size of the string that is read is
negative. -/
theorem blob_string_two_gib : ∃ str : CString, ∃ fits : str.bytes.length + 1 < 2 ^ 63,
    str.bytes.length = 2 ^ 31 - 1 ∧
      (Buffer.blobInit.writeItems plenty [.string str fits]).outOfMemory = false ∧
      readItems (blobReaderInit (Buffer.blobInit.writeItems plenty [.string str fits]).bytes)
        [.string] = none := by
  obtain ⟨str, hlen⟩ : ∃ str : CString, str.bytes.length = 2 ^ 31 - 1 :=
    ⟨repeated _, length_repeated _⟩
  have fits : str.bytes.length + 1 < 2 ^ 63 := by omega
  have hmem := outOfMemory_plenty str fits
  obtain ⟨hbytes, -, hlt, -⟩ := writeItems_blobInit hmem
  refine ⟨str, fits, hlen, hmem, ?_⟩
  rw [hbytes]
  have hneg : 2 ^ 31 ≤ (str.bytes.length + 1) % 2 ^ 32 := by rw [hlen]; decide
  have hread := @blobReadString_of_negative
    (blobReaderInit (writeItems [] [.string str fits])) str [] hlt hneg rfl
  rw [readItems, readItem, hread]
  rfl

end Mesa3D.Blob
