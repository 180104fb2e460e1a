import Mathlib.Data.Nat.Prime.Basic
import Mesa3D.Concurrency.Ring
import Mesa3D.Structured.Fuel

/-!
# Growable circular buffers

`u_vector.c`. The counters of a vector are free-running, and their difference is the number of bytes
also after they have passed `2^32`. Two places compare them though: `u_vector_foreach`, and an
assertion where the buffer grows. So the vector agrees with a queue if and only if the head has
never passed a multiple of `2^32` that the tail had not passed (`uVector_agrees_iff`). Masks with a
power of two are written as remainders, and a failed assertion is `none`.
-/

namespace Mesa3D

/-- `u_vector`, with the bytes of the buffer. -/
structure UVector where
  /-- The bytes that were added, modulo `2^32`. -/
  head : ℕ
  /-- The bytes that were removed, modulo `2^32`. -/
  tail : ℕ
  /-- The bytes of an element. -/
  elementSize : ℕ
  /-- The bytes of the buffer. -/
  size : ℕ
  /-- The buffer. -/
  data : ℕ → UInt8

namespace UVector

open List
open Mesa3D.Ring (slots add_mod_inj)
open Fuel (Returns)

/-- `u_vector_init` with the bytes that `malloc` leaves in the buffer. Its assertions on the sizes
are hypotheses of the theorem. -/
def uVectorInit (elementSize size : ℕ) (data : ℕ → UInt8) : UVector :=
  ⟨0, 0, elementSize, size, data⟩

/-- `memcpy`. -/
def memcpy (dst : ℕ → UInt8) (dstOffset : ℕ) (src : ℕ → UInt8) (srcOffset n : ℕ) : ℕ → UInt8 :=
  fun i => if dstOffset ≤ i ∧ i < dstOffset + n then src (srcOffset + (i - dstOffset)) else dst i

/-- The bytes at an offset. -/
def read (data : ℕ → UInt8) (offset n : ℕ) : List UInt8 :=
  (range n).map fun i => data (offset + i)

/-- The difference of two counters. -/
def sub (a b : ℕ) : ℕ := (a + (2^32 - b)) % 2^32

/-- `u_align_u32`. -/
def uAlignU32 (v a : ℕ) : ℕ := (v + a - 1) % 2^32 / a * a

/-- The first part of `u_vector_add`, where `data` are the bytes that `malloc` leaves in a new
buffer. -/
def grow (vector : UVector) (data : ℕ → UInt8) : Option UVector :=
  if sub vector.head vector.tail = vector.size then
    let size := vector.size * 2 % 2^32
    let srcTail := vector.tail % vector.size
    let dstTail := vector.tail % size
    let split := uAlignU32 vector.tail vector.size
    if srcTail = 0 then
      some { vector with data := memcpy data dstTail vector.data 0 vector.size, size := size }
    else if vector.tail ≤ split ∧ split < vector.head then
      let data := memcpy data dstTail vector.data srcTail (sub split vector.tail)
      let data := memcpy data (split % size) vector.data 0 (sub vector.head split)
      some { vector with data := data, size := size }
    else none
  else some vector

/-- `u_vector_add`. -/
def uVectorAdd (vector : UVector) (data : ℕ → UInt8) : Option (ℕ × UVector) := do
  let vector ← grow vector data
  if sub vector.head vector.tail < vector.size then
    some (vector.head % vector.size,
      { vector with head := (vector.head + vector.elementSize) % 2^32 })
  else none

/-- `u_vector_remove`. -/
def uVectorRemove (vector : UVector) : Option (Option ℕ × UVector) :=
  if vector.head = vector.tail then some (none, vector)
  else if sub vector.head vector.tail ≤ vector.size then
    some (some (vector.tail % vector.size),
      { vector with tail := (vector.tail + vector.elementSize) % 2^32 })
  else none

/-- The elements that `u_vector_foreach` visits from an offset on. -/
def uVectorForeach (vector : UVector) : ℕ → ℕ → Option (List (List UInt8))
  | 0, _ => none
  | fuel + 1, offset =>
    if offset < vector.head then
      (uVectorForeach vector fuel ((offset + vector.elementSize) % 2^32)).map
        (read vector.data (offset % vector.size) vector.elementSize :: ·)
    else some []

/-- `u_vector_foreach` visits the elements. -/
def Visits (vector : UVector) (es : List (List UInt8)) : Prop :=
  Returns (fun fuel => uVectorForeach vector fuel vector.tail) es

/-- A call of a vector. -/
inductive Op
  /-- `u_vector_add`, with the bytes that the caller writes and those of a new buffer. -/
  | add (element data : ℕ → UInt8)
  /-- `u_vector_remove`, behind which the caller reads the element. -/
  | remove

/-- A call with the access to the element, and the bytes of an element that is removed. -/
def Op.exec (vector : UVector) : Op → Option (Option (List UInt8) × UVector)
  | .add element data => do
    let (offset, vector) ← uVectorAdd vector data
    some (none, { vector with data := memcpy vector.data offset element 0 vector.elementSize })
  | .remove => do
    let (offset, vector) ← uVectorRemove vector
    some (offset.map (read vector.data · vector.elementSize), vector)

/-! ### Queues -/

/-- A queue of elements. -/
structure Queue where
  /-- The bytes that were removed. -/
  removed : ℕ := 0
  /-- The elements, the oldest first. -/
  elements : List (List UInt8) := []

/-- The same for a queue of elements of `n` bytes. -/
def Op.ideal (n : ℕ) (q : Queue) : Op → Option (List UInt8) × Queue
  | .add element _ => (none, ⟨q.removed, q.elements ++ [read element 0 n]⟩)
  | .remove =>
    match q.elements with
    | [] => (none, q)
    | e :: es => (some e, ⟨q.removed + n, es⟩)

/-- The queue at each time. -/
def Queue.states (n : ℕ) (q : Queue) : List Op → List Queue
  | [] => [q]
  | op :: ops => q :: (op.ideal n q).2.states n ops

/-- The vector is visited as the queue and answers as the queue, at each time. -/
def Agrees (vector : UVector) (q : Queue) (ops : List Op) : Prop :=
  Visits vector q.elements ∧
    match ops with
    | [] => True
    | op :: ops => ∃ vector', op.exec vector = some ((op.ideal vector.elementSize q).1, vector') ∧
        Agrees vector' (op.ideal vector.elementSize q).2 ops

/-- The head has not passed a multiple of `2^32` that the tail has not passed. -/
def Queue.NoWrap (n : ℕ) (q : Queue) : Prop :=
  q.removed % 2^32 ≤ (q.removed + q.elements.length * n) % 2^32

/-- The vector has the elements of the queue. -/
structure Inv (n : ℕ) (vector : UVector) (q : Queue) : Prop where
  /-- The elements have `n` bytes. -/
  elementSize : vector.elementSize = n
  /-- They are not empty. -/
  pos : 0 < n
  /-- The size is a power of two. -/
  size : vector.size ∣ 2^31
  /-- No element lies across the end of the buffer. -/
  dvd_size : n ∣ vector.size
  /-- The elements are aligned. -/
  dvd_tail : n ∣ vector.tail
  /-- The tail counts the bytes that were removed. -/
  tail : vector.tail = q.removed % 2^32
  /-- The head is behind the elements. -/
  head : vector.head = (vector.tail + q.elements.length * n) % 2^32
  /-- There is room for the elements. -/
  le_size : q.elements.length * n ≤ vector.size
  /-- Those of the queue have `n` bytes. -/
  length : ∀ e ∈ q.elements, e.length = n
  /-- The bytes from the tail on are those of the elements. -/
  data : (slots vector.size vector.tail (q.elements.length * n)).map
    vector.data = q.elements.flatten

variable {n size start : ℕ} {d : ℕ → UInt8} {vector : UVector} {q : Queue}

/-- An element does not wrap around. -/
theorem add_mod_of_dvd {i : ℕ} (hsize : n ∣ size) (hstart : n ∣ start) (hi : i < n) :
    (start + i) % size = start % size + i := by
  obtain rfl | hpos := Nat.eq_zero_or_pos size
  · rw [Nat.mod_zero, Nat.mod_zero]
  have hlt := Nat.mod_lt start hpos
  have hle : start % size + n ≤ size := Nat.le_of_lt_add_of_dvd (Nat.add_lt_add_right hlt n)
    (Nat.dvd_add ((Nat.dvd_mod_iff hsize).2 hstart) (dvd_refl n)) hsize
  rw [← Nat.mod_add_mod, Nat.mod_eq_of_lt (by omega)]

/-- The bytes of an element are those of its slots. -/
theorem read_eq (hsize : n ∣ size) (hstart : n ∣ start) :
    read d (start % size) n = (slots size start n).map d := by
  rw [read, slots, map_map]
  exact map_congr_left fun i hi => congrArg d (add_mod_of_dvd hsize hstart (mem_range.1 hi)).symm

/-- The new buffer has the bytes of a full vector. -/
theorem grow_eq (hsize : vector.size ∣ 2^30)
    (hhead : vector.head = (vector.tail + vector.size) % 2^32)
    (htail : vector.tail < 2^32) (hwrap : vector.tail ≤ vector.head) :
    ∃ data', grow vector d = some { vector with data := data', size := vector.size * 2 } ∧
      (slots (vector.size * 2) vector.tail vector.size).map data' =
        (slots vector.size vector.tail vector.size).map vector.data := by
  obtain ⟨head, tail, elementSize, size, old⟩ := vector
  dsimp only at *
  have hpos : 0 < size := Nat.pos_of_dvd_of_pos hsize (by decide)
  have hle : size ≤ 2^30 := Nat.le_of_dvd (by decide) hsize
  have hlt := Nat.mod_lt tail hpos
  have hmod : tail % (size * 2) = tail % size ∨ tail % (size * 2) = tail % size + size := by
    rw [Nat.mod_mul]
    rcases Nat.mod_two_eq_zero_or_one (tail / size) with h | h <;> simp [h]
  have hadd : ∀ m, ∀ i < m, (tail + i) % m =
      if m ≤ tail % m + i then tail % m + i - m else tail % m + i := by
    intro m i hi
    rw [Nat.add_mod_eq_ite, Nat.mod_eq_of_lt hi]
  have hfull : sub head tail = size := by
    rw [sub]
    omega
  simp only [slots, map_map, grow, hfull, if_true, Nat.mod_eq_of_lt (by omega : size * 2 < 2^32)]
  split_ifs with hzero hassert
  · refine ⟨_, rfl, map_congr_left fun i hi => ?_⟩
    rw [mem_range] at hi
    simp only [Function.comp_apply, memcpy]
    rw [hadd size i hi, hadd (size * 2) i (by omega)]
    split_ifs <;> first | omega | (congr 1; omega)
  all_goals
    have hsplit : uAlignU32 tail size = tail + (size - tail % size) := by
      have hdiv := Nat.div_add_mod' (tail + (size - 1)) size
      rw [hadd size (size - 1) (by omega), if_pos (by omega)] at hdiv
      rw [uAlignU32, Nat.add_sub_assoc (show 1 ≤ size from hpos), Nat.mod_eq_of_lt (by omega)]
      omega
  · refine ⟨_, rfl, map_congr_left fun i hi => ?_⟩
    rw [mem_range] at hi
    simp only [Function.comp_apply, memcpy, sub]
    rw [hadd size i hi, hadd (size * 2) i (by omega), hsplit, hadd (size * 2) _ (by omega)]
    split_ifs <;> first | omega | (congr 1; omega)
  · omega

/-- Behind `m` bytes, an element is written. -/
theorem map_write {m : ℕ} (hsize : n ∣ size) (hstart : n ∣ start + m) (hle : m + n ≤ size)
    (element : ℕ → UInt8) :
    (slots size start (m + n)).map (memcpy d ((start + m) % size) element 0 n) =
      (slots size start m).map d ++ read element 0 n := by
  have hmod : ∀ i < n, (start + m + i) % size = (start + m) % size + i := fun i hi =>
    add_mod_of_dvd hsize hstart hi
  rw [Ring.slots_add, map_append]
  simp only [slots, map_map, read]
  congr 1
  · refine map_congr_left fun i hi => if_neg fun h => ?_
    rw [mem_range] at hi
    dsimp only at h
    have hinj := hmod ((start + i) % size - (start + m) % size) (by omega)
    rw [Nat.add_sub_cancel' h.1, Nat.add_assoc] at hinj
    have := add_mod_inj (by omega) (by omega) hinj
    omega
  · refine map_congr_left fun i hi => ?_
    rw [mem_range] at hi
    simp [memcpy, hmod i hi, hi]

/-- The counters differ by the number of bytes. -/
theorem Inv.sub_eq (h : Inv n vector q) : sub vector.head vector.tail = q.elements.length * n := by
  have hle := h.le_size.trans (Nat.le_of_dvd (by decide) h.size)
  have htail := h.tail
  have hhead := h.head
  rw [sub]
  omega

/-- The counters show whether the head has wrapped alone. -/
theorem Inv.noWrap_iff (h : Inv n vector q) : q.NoWrap n ↔ vector.tail ≤ vector.head := by
  rw [Queue.NoWrap, h.head, h.tail, Nat.mod_add_mod]

/-- The counters are equal if the queue is empty. -/
theorem Inv.head_eq_tail_iff (h : Inv n vector q) :
    vector.head = vector.tail ↔ q.elements = [] := by
  have htail := h.tail
  have hhead := h.head
  have hzero : q.elements = [] ↔ q.elements.length * n = 0 := by simp [h.pos.ne']
  rw [hzero, ← h.sub_eq, sub]
  omega

/-- The first element is at the tail, and the others are behind it. -/
theorem Inv.tail_spec {e : List UInt8} {es : List (List UInt8)} {removed : ℕ}
    (h : Inv n vector ⟨removed, e :: es⟩) :
    read vector.data (vector.tail % vector.size) n = e ∧
      Inv n { vector with tail := (vector.tail + n) % 2^32 } ⟨removed + n, es⟩ := by
  obtain ⟨he, hes⟩ := forall_mem_cons.1 h.length
  have hdvd : vector.size ∣ 2^32 := h.size.trans (by decide)
  have htail := h.tail
  have hhead := h.head
  have hle := h.le_size
  have hdata := h.data
  simp only [length_cons, Nat.succ_mul] at hhead htail hle hdata
  rw [Nat.add_comm, Ring.slots_add, map_append, flatten_cons] at hdata
  obtain ⟨hread, hdata⟩ := append_inj hdata (by simp [slots, he])
  refine ⟨(read_eq h.dvd_size h.dvd_tail).trans hread, { h with
    dvd_tail := (Nat.dvd_mod_iff (h.dvd_size.trans hdvd)).2 (Nat.dvd_add h.dvd_tail (dvd_refl n))
    tail := by simp only; omega
    head := by simp only; omega
    le_size := by simp only; omega
    length := hes
    data := ?_ }⟩
  rw [← Ring.slots_mod, Nat.mod_mod_of_dvd _ hdvd, Ring.slots_mod]
  exact hdata

/-- The loop does not look at the tail behind its start. -/
theorem uVectorForeach_tail (vector : UVector) (t fuel offset : ℕ) :
    uVectorForeach { vector with tail := t } fuel offset = uVectorForeach vector fuel offset := by
  induction fuel generalizing offset with
  | zero => rfl
  | succ fuel ih => simp only [uVectorForeach, ih]

/-- Up to the head, the loop visits the elements. -/
theorem Inv.visits {es : List (List UInt8)} {removed : ℕ} (h : Inv n vector ⟨removed, es⟩)
    (hwrap : vector.tail ≤ vector.head) :
    Visits vector es := by
  induction es generalizing vector removed with
  | nil => exact .of_succ fun _ => if_neg (h.head_eq_tail_iff.2 rfl).not_gt
  | cons e es ih =>
    obtain ⟨hread, h'⟩ := h.tail_spec
    have hne := mt h.head_eq_tail_iff.1 (cons_ne_nil e es)
    have hsub := h.sub_eq
    rw [length_cons, Nat.succ_mul, sub] at hsub
    have hnext := ih h' (by simp only; omega)
    simp only [Visits, uVectorForeach_tail] at hnext
    refine (hnext.map (e :: ·)).step fun fuel => ?_
    rw [uVectorForeach, if_pos (by omega), h.elementSize, hread]

/-- The loop visits the elements if it does not stop at once. -/
theorem Inv.visits_iff (h : Inv n vector q) : Visits vector q.elements ↔ q.NoWrap n := by
  rw [h.noWrap_iff]
  refine ⟨fun hvisits => ?_, h.visits⟩
  by_contra hlt
  have hnone : Visits vector [] := .of_succ fun _ => if_neg (by omega)
  exact hlt (h.head_eq_tail_iff.2 (hvisits.unique hnone)).ge

/-- Growing keeps the elements and makes room. -/
theorem Inv.grow (h : Inv n vector q) (hwrap : q.NoWrap n)
    (hfits : q.elements.length * n + n < 2^31) :
    ∃ v, grow vector d = some v ∧ Inv n v q ∧ q.elements.length * n < v.size := by
  have hpos := h.pos
  have hle := h.le_size
  by_cases hfull : q.elements.length * n = vector.size
  · have hsize : vector.size ∣ 2^30 := by
      obtain ⟨k, hk, hsize⟩ := (Nat.dvd_prime_pow Nat.prime_two).1 h.size
      have hk : k < 31 := (Nat.pow_lt_pow_iff_right Nat.one_lt_two).1 (by omega)
      exact hsize ▸ pow_dvd_pow 2 (by omega)
    have hhead := hfull ▸ h.head
    have htail : vector.tail < 2^32 := h.tail ▸ Nat.mod_lt _ (by decide)
    obtain ⟨data', hgrow, hdata⟩ := grow_eq (d := d) hsize hhead htail (h.noWrap_iff.1 hwrap)
    refine ⟨_, hgrow, { h with
      size := Nat.mul_dvd_mul_right hsize 2
      dvd_size := h.dvd_size.mul_right 2
      le_size := hle.trans (Nat.le_mul_of_pos_right _ Nat.two_pos)
      data := ?_ }, ?_⟩
    · rw [← h.data, hfull]
      exact hdata
    · have hpos := Nat.pos_of_dvd_of_pos hsize (by decide)
      dsimp only
      omega
  · exact ⟨vector, if_neg (h.sub_eq ▸ hfull), h, by omega⟩

/-- An element is added behind the others. -/
theorem Inv.add (h : Inv n vector q) (hwrap : q.NoWrap n) (hfits : q.elements.length * n + n < 2^31)
    (element data : ℕ → UInt8) :
    ∃ vector', (Op.add element data).exec vector = some (none, vector') ∧
      Inv n vector' ⟨q.removed, q.elements ++ [read element 0 n]⟩ := by
  obtain ⟨v, hgrow, h, hlt⟩ := h.grow (d := data) hwrap hfits
  have hdvd : n ∣ v.tail + q.elements.length * n := Nat.dvd_add h.dvd_tail (Nat.dvd_mul_left ..)
  have hle := Nat.le_of_lt_add_of_dvd (Nat.add_lt_add_right hlt n)
    (Nat.dvd_add (Nat.dvd_mul_left ..) (dvd_refl n)) h.dvd_size
  have hmod : v.head % v.size = (v.tail + q.elements.length * n) % v.size := by
    rw [h.head, Nat.mod_mod_of_dvd _ (h.size.trans (by decide))]
  have hwrite := map_write h.dvd_size hdvd hle element (d := v.data)
  rw [h.data] at hwrite
  refine ⟨{ v with
    head := (v.head + n) % 2^32, data := memcpy v.data (v.head % v.size) element 0 n }, ?_, { h with
    head := ?_
    le_size := ?_
    length := ?_
    data := ?_ }⟩
  · simp [Op.exec, uVectorAdd, hgrow, h.sub_eq, hlt, h.elementSize]
  · rw [h.head, Nat.mod_add_mod, length_append, length_singleton, Nat.succ_mul, Nat.add_assoc]
  · rw [length_append, length_singleton, Nat.succ_mul]
    exact hle
  · simpa [or_imp, forall_and, read] using h.length
  · rw [length_append, length_singleton, Nat.succ_mul, hmod]
    simpa using hwrite

/-- A call answers as the queue. -/
theorem Inv.exec {op : Op} (h : Inv n vector q) (hwrap : q.NoWrap n)
    (hfits : (op.ideal n q).2.elements.length * n < 2^31) :
    ∃ vector', op.exec vector = some ((op.ideal n q).1, vector') ∧
      Inv n vector' (op.ideal n q).2 := by
  cases op with
  | add element data =>
    refine h.add hwrap ?_ element data
    rw [← Nat.succ_mul]
    simpa [Op.ideal] using hfits
  | remove =>
    obtain ⟨removed, elements⟩ := q
    have hempty := h.head_eq_tail_iff
    cases elements with
    | nil => exact ⟨vector, by simp [Op.exec, uVectorRemove, hempty, Op.ideal], h⟩
    | cons e es =>
      obtain ⟨hread, h'⟩ := h.tail_spec
      have hsub := h.sub_eq.trans_le h.le_size
      exact ⟨_, by simp [Op.exec, uVectorRemove, hempty, hsub, h.elementSize, hread, Op.ideal], h'⟩

/-- A run agrees as long as the head has not wrapped alone. -/
theorem Inv.agrees_iff {ops : List Op} (h : Inv n vector q)
    (hfits : ∀ q' ∈ q.states n ops, q'.elements.length * n < 2^31) :
    Agrees vector q ops ↔ ∀ q' ∈ q.states n ops, q'.NoWrap n := by
  induction ops generalizing vector q with
  | nil =>
    rw [Agrees, h.visits_iff]
    simp [Queue.states]
  | cons op ops ih =>
    rw [Agrees, h.visits_iff, Queue.states, forall_mem_cons]
    rw [Queue.states, forall_mem_cons] at hfits
    refine and_congr_right fun hwrap => ?_
    have hfirst := hfits.2 (op.ideal n q).2 (by cases ops <;> simp [Queue.states])
    obtain ⟨vector', hexec, h'⟩ := h.exec hwrap hfirst
    rw [h.elementSize, hexec, ← ih h' hfits.2]
    simp

/-- A new vector is an empty queue. -/
theorem inv_uVectorInit {a b : ℕ} (hab : a < b) (hb : b < 32) :
    Inv (2^a) (uVectorInit (2^a) (2^b) d) {} where
  elementSize := rfl
  pos := Nat.two_pow_pos a
  size := pow_dvd_pow 2 (by omega)
  dvd_size := pow_dvd_pow 2 hab.le
  dvd_tail := dvd_zero _
  tail := rfl
  head := by simp [uVectorInit]
  le_size := by simp
  length := by simp
  data := by simp [slots]

/-- From `u_vector_init` on and with fewer than `2^31` bytes, a vector answers and is visited as a
queue of its elements, also where it grows, if and only if the head has never passed a multiple of
`2^32` that the tail had not passed. -/
theorem uVector_agrees_iff {a b : ℕ} (hab : a < b) (hb : b < 32) (ops : List Op)
    (hfits : ∀ q ∈ Queue.states (2^a) {} ops, q.elements.length * 2^a < 2^31) :
    Agrees (uVectorInit (2^a) (2^b) d) {} ops ↔
      ∀ q ∈ Queue.states (2^a) {} ops, q.NoWrap (2^a) :=
  (inv_uVectorInit hab hb).agrees_iff hfits

/-- An element of equal bytes is added, and a new buffer would be zero. -/
def Op.push (x : UInt8) : Op := .add (fun _ => x) fun _ => 0

/-- A vector for two elements grows while they lie across the end of the buffer. -/
theorem uVector_agrees_growing : Agrees (uVectorInit (2^2) (2^3) fun _ => 0) {}
    [.push 1, .push 2, .remove, .push 3, .push 4] :=
  (uVector_agrees_iff (by decide) (by decide) _ (by simp [Queue.states, Op.ideal, Op.push])).2
    (by simp [Queue.states, Op.ideal, Op.push, Queue.NoWrap])

/-- When the fourth element of `2^30` bytes is added, the head is zero again, and the loop stops at
the tail. -/
theorem uVector_not_agrees_wrapped : ¬ Agrees (uVectorInit (2^30) (2^31) fun _ => 0) {}
    [.push 1, .remove, .push 2, .remove, .push 3, .remove, .push 4] := by
  rw [(inv_uVectorInit (by decide) (by decide)).agrees_iff
    (by simp [Queue.states, Op.ideal, Op.push])]
  simp [Queue.states, Op.ideal, Op.push, Queue.NoWrap]

end UVector

end Mesa3D
