import Mesa3D.Util.BlobItems

/-!
# Reading a blob that may be corrupt

A reader may be given any bytes and asked for anything. Each function checks what it reads against
the end of the buffer, so that no byte outside is touched, and behind a failed read all reads fail.
But `blob_read_string` does not look at `overrun` until it has found a string, and asserts then that
it could be read. The assertion fails behind a failed read, and for a string whose length is
negative as an `int`.
-/

namespace Mesa3D.Blob

open List

/-- `blob_skip_bytes`. -/
def blobSkipBytes (size : ℕ) (blob : BlobReader) : BlobReader :=
  match ensureCanRead blob size with
  | (false, blob) => blob
  | (true, blob) => { blob with current := blob.current + size }

/-- The calls on a reader. `blob_read_bytes` returns a pointer to the bytes that `blob_copy_bytes`
copies. -/
inductive Call
  | read (shape : Shape)
  | skip (size : ℕ)

namespace BlobReader

/-- The value that a call returns, if it returns one. There is no result if an assertion fails. -/
def call (blob : BlobReader) : Call → Option (Option Value × BlobReader)
  | .read shape => (readItem blob shape).map fun r => r.map some id
  | .skip size => some (none, blobSkipBytes size blob)

/-- The end of the bytes that a call reads, which begin at `current` or the next aligned offset. -/
def touched (blob : BlobReader) : Call → ℕ
  | .read (.bytes size) => word size blob
  | .read .uint32 => word 4 (alignBlobReader blob 4)
  | .read .uint64 | .read .intptr => word 8 (alignBlobReader blob 8)
  -- `memchr` stops behind the NUL
  | .read .string =>
    let rest := blob.data.drop blob.current
    if blob.data.length ≤ blob.current then 0
    else blob.current + if 0 ∈ rest then (CString.untilNul rest).bytes.length + 1 else rest.length
  | .skip _ => 0
where
  word (size : ℕ) (blob : BlobReader) : ℕ :=
    if (ensureCanRead blob size).1 then blob.current + size else 0

/-- The calls that are made, with the readers that they are made on, up to an assertion that
fails. -/
def trace (blob : BlobReader) : List Call → List (BlobReader × Call)
  | [] => []
  | call :: calls => (blob, call) :: (blob.call call).elim [] fun r => r.2.trace calls

/-- A call reads inside the buffer, and fails if one has failed before. -/
structure Robust (blob : BlobReader) (call : Call) : Prop where
  /-- No byte behind the data is read. -/
  inside : blob.touched call ≤ blob.data.length
  /-- A reader that has failed goes on to fail. -/
  sticky : blob.overrun = true → ∀ r ∈ blob.call call, (∀ v ∈ r.1, v.Failed) ∧ r.2.overrun = true

/-- No string is found by a reader that has failed, and none with a negative length. -/
def Spared (blob : BlobReader) : Call → Prop
  | .read .string =>
    let rest := blob.data.drop blob.current
    0 ∈ rest → blob.overrun = false ∧ ((CString.untilNul rest).bytes.length + 1) % 2 ^ 32 < 2 ^ 31
  | _ => True

variable {blob : BlobReader}

/-- The bytes that a word touches are in the data. -/
theorem word_le (size : ℕ) (blob : BlobReader) : touched.word size blob ≤ blob.data.length := by
  unfold touched.word
  split_ifs with hcan
  · have := ensureCanRead_iff.1 hcan
    omega
  · exact Nat.zero_le _

/-- No call touches bytes behind the data. -/
theorem touched_le (blob : BlobReader) (call : Call) : blob.touched call ≤ blob.data.length := by
  rcases call with (size | _ | _ | _ | _) | size
  case read.bytes => exact word_le size blob
  case read.uint32 => exact word_le 4 (alignBlobReader blob 4)
  case read.uint64 | read.intptr => exact word_le 8 (alignBlobReader blob 8)
  case read.string =>
    unfold touched
    dsimp only
    split_ifs with hend hnul
    · exact Nat.zero_le _
    · have := length_untilNul_lt hnul
      rw [length_drop] at this
      omega
    · rw [length_drop]
      omega
  case skip => exact Nat.zero_le _

/-- The buffer stays, and a call behind a failed one fails if no assertion does. -/
theorem call_keeps {call : Call} {r : Option Value × BlobReader} (h : blob.call call = some r) :
    r.2.data = blob.data ∧ (blob.overrun = true → (∀ v ∈ r.1, v.Failed) ∧ r.2.overrun = true) := by
  cases call with
  | read shape =>
    obtain ⟨⟨value, blob'⟩, hread, rfl⟩ := Option.map_eq_some_iff.1 h
    obtain ⟨hdata, ⟨hvalue, hfail⟩ | ⟨hok, -⟩⟩ := readItem_cases hread
    · exact ⟨hdata, fun _ => ⟨by simpa using hvalue, hfail⟩⟩
    · exact ⟨hdata, fun ho => by simp [hok.1] at ho⟩
  | skip size =>
    cases h
    unfold blobSkipBytes ensureCanRead
    split_ifs <;> simp_all

/-- A call succeeds when no string is found by a failed reader or with a negative length. -/
theorem call_isSome_iff (hsmall : blob.data.length < 2 ^ 63) (call : Call) :
    (blob.call call).isSome ↔ blob.Spared call := by
  rcases call with (size | _ | _ | _ | _) | size
  case read.string =>
    refine Iff.trans ?_ (blobReadString_isSome_iff hsmall)
    simp [BlobReader.call, readItem]
  all_goals exact iff_of_true rfl trivial

/-- The data stays the same along a run. -/
theorem data_of_mem_trace {calls : List Call} {p : BlobReader × Call} (h : p ∈ blob.trace calls) :
    p.1.data = blob.data := by
  induction calls generalizing blob with
  | nil => cases h
  | cons call calls ih =>
    rcases mem_cons.1 h with rfl | h
    · rfl
    · cases hcall : blob.call call with
      | none => simp [hcall] at h
      | some r => exact (ih (by simpa [hcall] using h)).trans (call_keeps hcall).1

/-- Whatever the bytes are, nothing outside is read, and behind a failed call all calls fail. The
assertion of `blob_read_string` holds exactly if no string is found behind a failed call, and none
with a negative length. -/
theorem blobReader_robust_iff (data : Bytes) (hsmall : data.length < 2 ^ 63) (calls : List Call) :
    let run := (blobReaderInit data).trace calls
    (∀ p ∈ run, p.1.Robust p.2) ∧ ((∀ p ∈ run, (p.1.call p.2).isSome) ↔
      ∀ p ∈ run, p.1.Spared p.2) := by
  refine ⟨fun p _ => ⟨touched_le p.1 p.2, fun h r hr => (call_keeps hr).2 h⟩,
    forall₂_congr fun p hp => ?_⟩
  exact call_isSome_iff (data_of_mem_trace hp ▸ hsmall) p.2

/-- A number behind a string that has no NUL. -/
theorem blobReader_robust_truncated :
    let run := (blobReaderInit [97, 98]).trace [.read .string, .read .uint32]
    (∀ p ∈ run, p.1.Robust p.2) ∧ ∀ p ∈ run, (p.1.call p.2).isSome := by
  have h := blobReader_robust_iff [97, 98] (by decide) [.read .string, .read .uint32]
  have hrun : (blobReaderInit [97, 98]).trace [.read .string, .read .uint32] =
      [(⟨[97, 98], 0, false⟩, .read .string), (⟨[97, 98], 0, true⟩, .read .uint32)] := rfl
  exact ⟨h.1, h.2.2 (hrun ▸ by simp [Spared])⟩

/-- A number that does not fit, and then a string that is there. -/
theorem blobReadString_asserts :
    ¬∀ p ∈ (blobReaderInit [97, 0]).trace [.read .uint32, .read .string],
      (p.1.call p.2).isSome := by
  decide

end BlobReader

end Mesa3D.Blob
