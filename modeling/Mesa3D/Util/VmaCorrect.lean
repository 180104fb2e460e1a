import Mesa3D.Util.Vma
import Mesa3D.Layout.Ranges
import Mathlib.Order.Bounds.Defs

/-!
# The virtual address heap is sound and complete

The holes of a heap go down and leave a gap between each two of them (`Descending`), and together
with the allocated ranges they tile the addresses that the heap was made of (`Ok`). Allocating and
freeing keep both (`alloc_spec`, `free_spec`), so that they hold of every state that calls lead to.
An allocation takes the highest address of the highest hole that it can (`alloc_split`).

Addresses are compared as numbers, so that a range may end at `2^64`.
-/

namespace Mesa3D.Vma

open Layout (Range)
open Hole
open BitVec (eq_of_toNat_eq lt_def toNat_add toNat_add_of_lt toNat_inj toNat_sub_of_le)
open List
open Layout.Range (hits hits_nil Tiles Apart)

/-- The addresses of a hole or of an allocated range. -/
def Hole.range (r : Hole) : Range := ⟨r.offset.toNat, r.size.toNat⟩

/-- The first address behind. -/
def Hole.stop (r : Hole) : ℕ := r.offset.toNat + r.size.toNat

/-- The holes are below `bound`, are not empty, do not start at zero, and each is below the one
before it without touching it. -/
def Descending : ℕ → Heap → Prop
  | _, [] => True
  | bound, hole :: rest =>
    0 < hole.offset.toNat ∧ 0 < hole.size.toNat ∧ hole.stop < bound ∧
      Descending hole.offset.toNat rest

variable {heap : Heap} {bound : ℕ}

/-- Holes below a bound are below a larger one. -/
theorem Descending.mono {b c : ℕ} (h : Descending b heap) (hbc : b ≤ c) : Descending c heap := by
  cases heap with
  | nil => trivial
  | cons hole rest => exact ⟨h.1, h.2.1, Nat.lt_of_lt_of_le h.2.2.1 hbc, h.2.2.2⟩

/-- The offset of the last hole, below which the next one has to end. -/
def lowest (bound : ℕ) (heap : Heap) : ℕ := (heap.getLast?.map (·.offset.toNat)).getD bound

/-- The lowest offset is that of the last hole. -/
theorem lowest_concat (bound : ℕ) (heap : Heap) (hole : Hole) :
    lowest bound (heap ++ [hole]) = hole.offset.toNat := by
  simp [lowest]

/-- The lowest offset behind the first hole. -/
theorem lowest_cons (bound : ℕ) (hole : Hole) (heap : Heap) :
    lowest bound (hole :: heap) = lowest hole.offset.toNat heap := by
  cases h : heap.getLast? <;> simp [lowest, getLast?_cons, h]

/-- The holes of two lists, one below the other. -/
theorem descending_append {l m : Heap} :
    Descending bound (l ++ m) ↔ Descending bound l ∧ Descending (lowest bound l) m := by
  induction l generalizing bound with
  | nil => simp [Descending, lowest]
  | cons hole l ih => simp [Descending, ih, lowest_cons, and_assoc]

/-- A hole of the heap starts above zero, is not empty and ends below the bound. -/
theorem Descending.mem (h : Descending bound heap) {hole : Hole} (hm : hole ∈ heap) :
    0 < hole.offset.toNat ∧ 0 < hole.size.toNat ∧ hole.stop < bound := by
  induction heap generalizing bound with
  | nil => simp at hm
  | cons first rest ih =>
    rcases mem_cons.1 hm with rfl | hm
    · exact ⟨h.1, h.2.1, h.2.2.1⟩
    · obtain ⟨h1, h2, h3⟩ := ih h.2.2.2 hm
      have := h.2.2.1
      unfold stop at this
      exact ⟨h1, h2, by omega⟩

/-- Each hole is above the later ones, with a gap between. -/
theorem Descending.pairwise (h : Descending bound heap) :
    heap.Pairwise fun high low => low.stop < high.offset.toNat := by
  induction heap generalizing bound with
  | nil => exact Pairwise.nil
  | cons hole rest ih => exact Pairwise.cons (fun low hm => (h.2.2.2.mem hm).2.2) (ih h.2.2.2)

/-- How often an address is free, with one hole more. -/
theorem hits_cons (r : Hole) (l : Heap) (x : ℕ) : hits ((r :: l).map range) x =
    hits (l.map range) x +
      if r.offset.toNat ≤ x ∧ x < r.offset.toNat + r.size.toNat then 1 else 0 :=
  Range.hits_cons ..

/-- How often an address is free in two lists. -/
theorem hits_append (l m : Heap) (x : ℕ) : hits ((l ++ m).map range) x =
    hits (l.map range) x + hits (m.map range) x := by
  rw [map_append, Range.hits_append]

/-- Zero as an address. -/
theorem toNat_zero64 : (0 : BitVec 64).toNat = 0 := rfl

/-! ### Allocation -/

section Alloc

variable {size : BitVec 64} {hole : Hole}

/-- The address that the allocation tries in a hole, as a number. -/
theorem toNat_tried (alignment : BitVec 64) (hsize : 0 < size.toNat)
    (hfits : size.toNat ≤ hole.size.toNat)
    (hstop : hole.stop ≤ 2 ^ 64) :
    (((hole.size - size) + hole.offset) / alignment * alignment).toNat =
      (hole.size.toNat - size.toNat + hole.offset.toNat) / alignment.toNat * alignment.toNat := by
  unfold stop at hstop
  have hsub : (hole.size - size).toNat = hole.size.toNat - size.toNat := toNat_sub_of_le hfits
  have hadd : ((hole.size - size) + hole.offset).toNat =
      hole.size.toNat - size.toNat + hole.offset.toNat := by
    rw [toNat_add_of_lt (by omega), hsub]
  have hle := Nat.div_mul_le_self (hole.size.toNat - size.toNat + hole.offset.toNat) alignment.toNat
  rw [BitVec.toNat_mul, BitVec.toNat_udiv, hadd, Nat.mod_eq_of_lt (by omega)]

/-- An aligned range of the size lies in the hole at the address. -/
def Hole.Holds (hole : Hole) (size alignment : BitVec 64) (x : ℕ) : Prop :=
  alignment.toNat ∣ x ∧ hole.offset.toNat ≤ x ∧ x + size.toNat ≤ hole.stop

/-- What is left of a hole in which a chunk is allocated at an address, and the holes below. -/
def allocAt (size offset : BitVec 64) (hole : Hole) (rest : Heap) : Heap :=
  if offset = hole.offset ∧ size = hole.size then rest
  else if (hole.size - size) - (offset - hole.offset) =
    0 then ⟨hole.offset, hole.size - size⟩ :: rest
  else if offset = hole.offset then ⟨hole.offset + size, hole.size - size⟩ :: rest
  else ⟨offset + size, (hole.size - size) - (offset - hole.offset)⟩ ::
    ⟨hole.offset, offset - hole.offset⟩ :: rest

/-- A hole is passed over if it does not hold the chunk, and the highest address is taken if it
does. -/
theorem alloc_cons (alignment : BitVec 64) (rest : Heap) (hsize : 0 < size.toNat)
    (hstop : hole.stop ≤ 2 ^ 64) :
    let p := utilVmaHeapAlloc size alignment (hole :: rest)
    let next := utilVmaHeapAlloc size alignment rest
    (∀ x, ¬hole.Holds size alignment x) ∧ p = (hole :: next.1, next.2) ∨
      IsGreatest {x | hole.Holds size alignment x} p.2.toNat ∧
        p.1 = allocAt size p.2 hole rest := by
  intro p next
  by_cases hbig : size > hole.size
  · refine .inl ⟨fun x hx => ?_, by simp only [p, utilVmaHeapAlloc, if_pos hbig, next]⟩
    obtain ⟨-, hlow, hhigh⟩ := hx
    rw [gt_iff_lt, lt_def] at hbig
    unfold stop at hhigh
    omega
  have hfits : size.toNat ≤ hole.size.toNat := by
    rw [gt_iff_lt, lt_def] at hbig
    omega
  have htried := toNat_tried alignment hsize hfits hstop
  simp only [p, utilVmaHeapAlloc, if_neg hbig]
  generalize ((hole.size - size) + hole.offset) / alignment * alignment = offset at htried ⊢
  have hmax : ∀ x, hole.Holds size alignment x → x ≤ offset.toNat := by
    rintro x ⟨hdvd, -, hx⟩
    rw [htried, ← Nat.div_mul_cancel hdvd]
    exact Nat.mul_le_mul_right _ (Nat.div_le_div_right (by unfold stop at hx; omega))
  by_cases hbelow : offset < hole.offset
  · refine .inl ⟨fun x hx => ?_, by rw [if_pos hbelow]⟩
    exact absurd (Nat.le_trans hx.2.1 (hmax x hx)) (Nat.not_le.2 (lt_def.1 hbelow))
  have hholds : hole.Holds size alignment offset.toNat := by
    rw [lt_def, Nat.not_lt] at hbelow
    have := Nat.div_mul_le_self (hole.size.toNat - size.toNat + hole.offset.toNat) alignment.toNat
    exact ⟨htried ▸ Nat.dvd_mul_left _ _, hbelow, by unfold stop; omega⟩
  rw [if_neg hbelow]
  unfold allocAt
  split_ifs <;> exact .inr ⟨⟨hholds, hmax⟩, rfl⟩

/-- An allocation in a hole takes its range out of the free addresses and nothing else. -/
theorem allocAt_spec {rest : Heap} {offset alignment : BitVec 64} (hsize : 0 < size.toNat)
    (hle : hole.stop ≤ 2 ^ 64) (hd : Descending bound (hole :: rest))
    (hholds : hole.Holds size alignment offset.toNat) :
    let heap := allocAt size offset hole rest
    Descending bound heap ∧ ∀ x, hits (heap.map range) x +
      (if offset.toNat ≤ x ∧ x < offset.toNat + size.toNat then 1 else 0) =
        hits ((hole :: rest).map range) x := by
  intro heap
  obtain ⟨-, hlow, hhigh⟩ := hholds
  obtain ⟨hpos, hspos, hstop, hrest⟩ := hd
  have hfits : size.toNat ≤ hole.size.toNat := by unfold stop at hhigh; omega
  have hsub : (hole.size - size).toNat = hole.size.toNat - size.toNat := toNat_sub_of_le hfits
  have hoff : (offset - hole.offset).toNat = offset.toNat - hole.offset.toNat :=
    toNat_sub_of_le hlow
  unfold stop at hstop hhigh hle
  have hwaste : ((hole.size - size) - (offset - hole.offset)).toNat =
      hole.size.toNat - size.toNat - (offset.toNat - hole.offset.toNat) := by
    rw [toNat_sub_of_le (by rw [BitVec.le_def, hsub, hoff]; omega), hsub, hoff]
  unfold heap allocAt
  split_ifs with hall hwz hbottom
  · -- the whole hole
    refine ⟨hrest.mono (by omega), fun x => ?_⟩
    have hz : size.toNat = hole.size.toNat := by rw [hall.2]
    have ho : offset.toNat = hole.offset.toNat := by rw [hall.1]
    simp only [hits_cons, ho, hz]
  · -- the top of the hole
    rw [← toNat_inj, hwaste, toNat_zero64] at hwz
    have hlt : size.toNat < hole.size.toNat := by
      refine Nat.lt_of_le_of_ne hfits fun hz => hall ⟨eq_of_toNat_eq ?_, eq_of_toNat_eq hz⟩
      omega
    refine ⟨⟨hpos, ?_, ?_, hrest⟩, fun x => ?_⟩
    · rw [hsub]; omega
    · simp only [stop, hsub]; omega
    · simp only [hits_cons, hsub]
      split_ifs <;> omega
  · -- the bottom of the hole
    rw [← toNat_inj, hwaste, toNat_zero64] at hwz
    have ho : offset.toNat = hole.offset.toNat := by rw [hbottom]
    have hadd := toNat_add_of_lt (x := hole.offset) (y := size) (by omega)
    refine ⟨⟨?_, ?_, ?_, hrest.mono ?_⟩, fun x => ?_⟩
    · rw [hadd]; omega
    · rw [hsub]; omega
    · simp only [stop, hadd, hsub]; omega
    · rw [hadd]; omega
    · simp only [hits_cons, hadd, hsub]
      split_ifs <;> omega
  · -- the middle of the hole
    rw [← toNat_inj, hwaste, toNat_zero64] at hwz
    rw [← toNat_inj] at hbottom
    have hadd := toNat_add_of_lt (x := offset) (y := size) (by omega)
    refine ⟨⟨?_, ?_, ?_, hpos, ?_, ?_, hrest⟩, fun x => ?_⟩
    · rw [hadd]; omega
    · rw [hwaste]; omega
    · simp only [stop, hadd, hwaste]; omega
    · rw [hoff]; omega
    · simp only [stop, hadd, hoff]; omega
    · simp only [hits_cons, hadd, hoff, hwaste]
      split_ifs <;> omega

/-- What an allocation does: it fails and changes nothing, or it takes an aligned range out of the
holes. -/
def Allocates (bound : ℕ) (size alignment : BitVec 64)
    (heap : Heap) (p : Heap × BitVec 64) : Prop :=
  Descending bound p.1 ∧
    (p.2 = 0 ∧ p.1 = heap ∨
      p.2 ≠ 0 ∧ alignment.toNat ∣ p.2.toNat ∧
        ∀ x, hits (p.1.map range) x +
          (if p.2.toNat ≤ x ∧ x < p.2.toNat + size.toNat then 1 else 0) = hits (heap.map range) x)

/-- An allocation fails and changes nothing if no hole holds the chunk. Otherwise it takes the
highest address of the highest hole that does. -/
theorem alloc_split (alignment : BitVec 64) (hsize : 0 < size.toNat) (hbound : bound ≤ 2 ^ 64 + 1)
    (hd : Descending bound heap) :
    let p := utilVmaHeapAlloc size alignment heap
    p = (heap, 0) ∧ (∀ hole ∈ heap, ∀ x, ¬hole.Holds size alignment x) ∨
      p.2 ≠ 0 ∧ ∃ above hole below, heap = above ++ hole :: below ∧
        (∀ high ∈ above, ∀ x, ¬high.Holds size alignment x) ∧
        IsGreatest {x | hole.Holds size alignment x} p.2.toNat ∧
          p.1 = above ++ allocAt size p.2 hole below := by
  induction heap generalizing bound with
  | nil => exact .inl ⟨rfl, by simp⟩
  | cons hole rest ih =>
    have hstop : hole.stop ≤ 2 ^ 64 := by have := hd.2.2.1; omega
    have hoffset : hole.offset.toNat ≤ 2 ^ 64 + 1 := by unfold stop at hstop; omega
    rcases alloc_cons alignment rest hsize hstop with ⟨hnot, heq⟩ | ⟨hgreatest, heq⟩
    · rw [heq]
      rcases ih hoffset hd.2.2.2 with ⟨hsame, hnone⟩ | ⟨hne, above,
        low, below, rfl, hnone, hgreatest, hp⟩
      · exact .inl ⟨by rw [hsame], forall_mem_cons.2 ⟨hnot, hnone⟩⟩
      · exact .inr ⟨hne, hole :: above, low, below, rfl, forall_mem_cons.2 ⟨hnot, hnone⟩, hgreatest,
          congrArg (hole :: ·) hp⟩
    · refine .inr ⟨fun h0 => ?_, [], hole, rest, rfl, by simp, hgreatest, heq⟩
      have hlow := hgreatest.1.2.1
      rw [h0, toNat_zero64] at hlow
      exact absurd hd.1 (Nat.not_lt.2 hlow)

/-- `util_vma_heap_alloc` returns the highest range that fits the first hole with room. -/
theorem alloc_spec (alignment : BitVec 64) (hsize : 0 < size.toNat) (hbound : bound ≤ 2 ^ 64 + 1)
    (hd : Descending bound heap) :
    Allocates bound size alignment heap (utilVmaHeapAlloc size alignment heap) := by
  rcases alloc_split alignment hsize hbound hd with ⟨heq, -⟩ | ⟨hne, above,
    hole, below, rfl, -, hgreatest, hp⟩
  · rw [heq]
    exact ⟨hd, .inl ⟨rfl, rfl⟩⟩
  · have hstop := (hd.mem (show hole ∈ above ++ hole :: below by simp)).2.2
    obtain ⟨hda, hdh⟩ := descending_append.1 hd
    obtain ⟨hd', hhits⟩ := allocAt_spec hsize (by omega) hdh hgreatest.1
    refine ⟨hp ▸ descending_append.2 ⟨hda, hd'⟩, .inr ⟨hne, hgreatest.1.1, fun x => ?_⟩⟩
    have := hhits x
    rw [hp, hits_append, hits_append]
    omega

end Alloc

/-! ### Freeing -/

section Free

variable {offset size : BitVec 64}

/-- The range is not empty, does not start at zero, and ends at `2^64` or below. -/
def Valid (offset size : BitVec 64) : Prop :=
  0 < offset.toNat ∧ 0 < size.toNat ∧ offset.toNat + size.toNat ≤ 2 ^ 64

/-- The hole does not share an address with the range. -/
def Hole.Clear (hole : Hole) (offset size : BitVec 64) : Prop :=
  hole.stop ≤ offset.toNat ∨ offset.toNat + size.toNat ≤ hole.offset.toNat

/-- A range ends where a hole above it starts exactly if the sum of the words says so. -/
theorem add_eq_iff {high : Hole} (hle : offset.toNat + size.toNat ≤ high.offset.toNat) :
    offset + size = high.offset ↔ offset.toNat + size.toNat = high.offset.toNat := by
  rw [← toNat_inj, toNat_add_of_lt (by omega)]

/-- A hole below the range ends where the range starts exactly if the sum of the words says so. -/
theorem stop_eq_iff {low : Hole} (hle : low.stop ≤ offset.toNat) :
    low.offset + low.size = offset ↔ low.stop = offset.toNat := by
  unfold stop at hle ⊢
  rw [← toNat_inj, toNat_add_of_lt (by omega)]

/-- A sum of at most `2^64` is that of the words, unless these wrap around to zero. -/
theorem add_eq_zero_or {r s : BitVec 64} (h : r.toNat + s.toNat ≤ 2 ^ 64) :
    r + s = 0 ∨ (r + s).toNat = r.toNat + s.toNat := by
  rcases Nat.lt_or_ge (r.toNat + s.toNat) (2 ^ 64) with hlt | hge
  · exact .inr (toNat_add_of_lt hlt)
  · refine .inl (eq_of_toNat_eq ?_)
    rw [toNat_add, show r.toNat + s.toNat = 2 ^ 64 by omega, Nat.mod_self]
    rfl

/-- The holes around a range: those above it, of which the last is the higher neighbour, and those
below it, of which the first is the lower one. -/
theorem clear_around (hd : Descending bound heap) (hv : Valid offset size)
    (hclear : ∀ hole ∈ heap, hole.Clear offset size) :
    (∀ high ∈ heap.takeWhile fun hole => decide (offset < hole.offset),
        offset.toNat + size.toNat ≤ high.offset.toNat) ∧
      ∀ low ∈ heap.dropWhile fun hole => decide (offset < hole.offset),
        low.stop ≤ offset.toNat := by
  induction heap generalizing bound with
  | nil => simp
  | cons hole rest ih =>
    obtain ⟨hup, hlo⟩ := ih hd.2.2.2 fun h hm => hclear h (mem_cons_of_mem _ hm)
    obtain ⟨-, hvs, -⟩ := hv
    by_cases h : offset < hole.offset
    · have hlt : offset.toNat < hole.offset.toNat := lt_def.1 h
      simp only [takeWhile_cons, dropWhile_cons, h, decide_true, ↓reduceIte]
      refine ⟨fun high hm => ?_, hlo⟩
      rcases mem_cons.1 hm with rfl | hm
      · have := hclear high mem_cons_self
        unfold Clear stop at this
        omega
      · exact hup high hm
    · have hle : hole.offset.toNat ≤ offset.toNat := by
        rw [lt_def] at h
        omega
      simp only [takeWhile_cons, dropWhile_cons, h, decide_false, Bool.false_eq_true,
        ↓reduceIte, not_mem_nil, false_imp_iff, implies_true, true_and]
      intro low hm
      rcases mem_cons.1 hm with rfl | hm
      · have hc := hclear low mem_cons_self
        have := hd.2.1
        unfold Clear at hc
        omega
      · have := (hd.2.2.2.mem hm).2.2
        omega

/-- The range becomes a hole, which joins the one below it if that ends at the range. -/
def joinLow (offset size : BitVec 64) : Heap → Heap
  | [] => [⟨offset, size⟩]
  | low :: lower =>
    if low.offset + low.size = offset then ⟨low.offset, low.size + size⟩ :: lower
    else ⟨offset, size⟩ :: low :: lower

/-- Freeing a range below every hole but those under it adds it to the free addresses. -/
theorem joinLow_spec (hv : Valid offset size) (hbound : offset.toNat + size.toNat < bound)
    (hd : Descending bound heap) (hlo : ∀ low ∈ heap, low.stop ≤ offset.toNat) :
    Descending bound (joinLow offset size heap) ∧
      ∀ x, hits ((joinLow offset size heap).map Hole.range) x = hits (heap.map Hole.range) x +
        (if offset.toNat ≤ x ∧ x < offset.toNat + size.toNat then 1 else 0) := by
  obtain ⟨hvo, hvs, hvt⟩ := hv
  cases heap with
  | nil =>
    refine ⟨⟨hvo, hvs, hbound, trivial⟩, fun x => ?_⟩
    simp [joinLow, Hole.range]
  | cons low lower =>
    have hl := hlo low mem_cons_self
    obtain ⟨hlp, hls, -, hlower⟩ := hd
    simp only [joinLow, stop_eq_iff hl]
    split_ifs with hadj
    · unfold Hole.stop at hadj hl
      have hsum := toNat_add_of_lt (x := low.size) (y := size) (by omega)
      refine ⟨⟨hlp, ?_, ?_, hlower⟩, fun x => ?_⟩
      · rw [hsum]; omega
      · simp only [Hole.stop, hsum]; omega
      · simp only [hits_cons, hsum]
        split_ifs <;> omega
    · refine ⟨⟨hvo, hvs, hbound, hlp, hls, by show low.stop < offset.toNat; omega, hlower⟩,
        fun x => ?_⟩
      simp only [hits_cons]

/-- The range joins the hole above it, and then the one below. -/
theorem utilVmaHeapFree_eq :
    let above := heap.takeWhile fun hole => decide (offset < hole.offset)
    let below := heap.dropWhile fun hole => decide (offset < hole.offset)
    utilVmaHeapFree heap offset size = match above.getLast? with
    | none => joinLow offset size below
    | some high =>
      if offset + size = high.offset then above.dropLast ++ joinLow offset (high.size + size) below
      else above ++ joinLow offset size below := by
  unfold utilVmaHeapFree
  dsimp only
  generalize heap.dropWhile _ = below
  cases (heap.takeWhile _).getLast? <;> cases below
  · rfl
  · rfl
  · rfl
  · rename_i high low lower
    simp only [joinLow, BitVec.add_comm size high.size]
    split_ifs <;> simp_all

/-- What freeing does: it adds the range to the holes. -/
theorem free_spec (hmax : bound ≤ 2 ^ 64 + 1) (hd : Descending bound heap) (hv : Valid offset size)
    (hbound : offset.toNat + size.toNat < bound) (hclear : ∀ hole ∈ heap, hole.Clear offset size) :
    Descending bound (utilVmaHeapFree heap offset size) ∧
      ∀ x, hits ((utilVmaHeapFree heap offset size).map Hole.range) x =
        hits (heap.map Hole.range) x +
          (if offset.toNat ≤ x ∧ x < offset.toNat + size.toNat then 1 else 0) := by
  obtain ⟨hup, hlo⟩ := clear_around hd hv hclear
  have hsplit := takeWhile_append_dropWhile (p := fun hole : Hole => decide (offset < hole.offset))
    (l := heap)
  rw [utilVmaHeapFree_eq]
  generalize hA : heap.takeWhile (fun hole => decide (offset < hole.offset)) = above at *
  generalize hB : heap.dropWhile (fun hole => decide (offset < hole.offset)) = below at *
  subst hsplit
  obtain ⟨hda, hdb⟩ := descending_append.1 hd
  rcases eq_nil_or_concat above with rfl | ⟨init, high, hconcat⟩
  · exact joinLow_spec hv hbound hdb hlo
  · rw [concat_eq_append] at hconcat
    subst hconcat
    have hh := hup high (by simp)
    have hvo := hv.1
    obtain ⟨hdi, hhp, hhs, hht, -⟩ := descending_append.1 hda
    have hhigh := (hda.mem (show high ∈ init ++ [high] by simp)).2.2
    rw [lowest_concat] at hdb
    simp only [getLast?_concat, dropLast_concat, add_eq_iff hh]
    unfold Hole.stop at hht hhigh
    split_ifs with hadj
    · have hsum := toNat_add_of_lt (x := high.size) (y := size) (by omega)
      obtain ⟨hdj, hhits⟩ := joinLow_spec (show Valid offset (high.size + size) from
        ⟨hvo, by omega, by omega⟩) (show _ < lowest bound init by omega) (hdb.mono (by omega)) hlo
      refine ⟨descending_append.2 ⟨hdi, hdj⟩, fun x => ?_⟩
      simp only [hits_append, hits_cons, map_nil, hits_nil, hhits, hsum]
      split_ifs <;> omega
    · obtain ⟨hdj, hhits⟩ := joinLow_spec hv (show _ < high.offset.toNat by omega) hdb hlo
      refine ⟨descending_append.2 ⟨hda, by rwa [lowest_concat]⟩, fun x => ?_⟩
      simp only [hits_append, hhits]
      omega

/-- The assertions of `util_vma_heap_free` hold. -/
theorem freeAsserts_eq_true (hd : Descending bound heap) (hv : Valid offset size)
    (hclear : ∀ hole ∈ heap, hole.Clear offset size) : freeAsserts heap offset size = true := by
  obtain ⟨hup, hlo⟩ := clear_around hd hv hclear
  obtain ⟨hvo, hvs, hvt⟩ := hv
  simp only [freeAsserts, Bool.and_eq_true, Bool.or_eq_true, beq_iff_eq, decide_eq_true_eq,
    Option.all_eq_true, gt_iff_lt, lt_def, BitVec.le_def]
  refine ⟨⟨⟨⟨hvo, hvs⟩, ?_⟩, fun high hm => ?_⟩, fun low hm => ?_⟩
  · exact (add_eq_zero_or hvt).imp_right fun hsum => by omega
  · have := hup high (mem_of_getLast? hm)
    rwa [toNat_add_of_lt (by omega)]
  · have hmem := mem_of_head? hm
    have hle := hlo low hmem
    have := (hd.mem ((dropWhile_suffix _).subset hmem)).2.1
    unfold stop at hle
    rw [toNat_add_of_lt (by omega)]
    omega

end Free

/-! ### Runs -/

/-- What holds of every state: the holes are in order, and with the allocated ranges they tile the
addresses of the heap. -/
structure Ok (start size : BitVec 64) (s : State) : Prop where
  /-- The holes descend. -/
  descending : Descending (2 ^ 64 + 1) s.heap
  /-- Allocations are not empty. -/
  live_pos : ∀ r ∈ s.live, 0 < r.size.toNat
  /-- Holes and allocations tile the heap. -/
  tiles : Tiles start.toNat (start.toNat + size.toNat) ((s.heap ++ s.live).map range)

variable {start size : BitVec 64} {s t : State}

/-- The assertions of `util_vma_heap_validate` behind a hole hold. -/
theorem validateBelow_eq_true {prevOffset : BitVec 64} (h : Descending prevOffset.toNat heap) :
    validateBelow prevOffset heap = true := by
  induction heap generalizing prevOffset with
  | nil => rfl
  | cons hole rest ih =>
    obtain ⟨hp, hs, ht, hrest⟩ := h
    unfold stop at ht
    have hsum := toNat_add_of_lt (x := hole.size) (y := hole.offset) (by omega)
    simp only [validateBelow, Bool.and_eq_true, decide_eq_true_eq, gt_iff_lt, lt_def, hsum]
    exact ⟨⟨⟨hp, hs⟩, by omega, by omega⟩, ih hrest⟩

/-- The assertions of `util_vma_heap_validate` hold. -/
theorem Descending.validate (h : Descending (2 ^ 64 + 1) heap) :
    utilVmaHeapValidate heap = true := by
  cases heap with
  | nil => rfl
  | cons hole rest =>
    obtain ⟨hp, hs, ht, hrest⟩ := h
    unfold stop at ht
    simp only [utilVmaHeapValidate, Bool.and_eq_true, Bool.or_eq_true, beq_iff_eq,
      decide_eq_true_eq, gt_iff_lt, lt_def]
    refine ⟨⟨⟨hp, hs⟩, ?_⟩, validateBelow_eq_true hrest⟩
    exact (add_eq_zero_or (by omega)).imp_right fun hsum => by omega

section

variable (hstart : 0 < start.toNat) (hle : start.toNat + size.toNat ≤ 2 ^ 64)
include hstart hle

/-- An allocated range lies in the heap, and no hole shares an address with it. -/
theorem Ok.live_valid (h : Ok start size s) {r : Hole} (hr : r ∈ s.live) :
    Valid r.offset r.size ∧ ∀ hole ∈ s.heap, hole.Clear r.offset r.size := by
  have hpos := h.live_pos r hr
  have hin := h.tiles.inside (r := r.range)
    (mem_map.2 ⟨r, mem_append_right _ hr, rfl⟩) hpos
  unfold Layout.Range.stop at hin
  simp only [Hole.range] at hin
  refine ⟨⟨by omega, hpos, by omega⟩, fun hole hm => ?_⟩
  have hapart := h.tiles.pairwise_apart
  rw [map_append, pairwise_append] at hapart
  have hno := hapart.2.2 _ (mem_map_of_mem hm) _ (mem_map_of_mem hr)
  have hposh := (h.descending.mem hm).2.1
  by_contra hc
  simp only [Hole.Clear, Hole.stop, not_or, Nat.not_le] at hc
  apply hno (max hole.offset.toNat r.offset.toNat)
  simp only [Layout.Range.has_iff, Hole.range]
  omega

/-- `util_vma_heap_init` makes one hole of all addresses. -/
theorem ok_init (hsize : 0 < size.toNat) : Ok start size ⟨utilVmaHeapInit start size, []⟩ where
  descending := ⟨hstart, hsize, by simp only [Hole.stop]; omega, trivial⟩
  live_pos := by simp
  tiles x := by simp [utilVmaHeapInit, utilVmaHeapFree, Hole.range]

/-- Each call keeps the heap sound. -/
theorem Ok.step (h : Ok start size s) (hst : Step s t) : Ok start size t := by
  cases hst with
  | alloc n a hn ha hok =>
    obtain ⟨hd, ⟨h0, -⟩ | ⟨-, -, hhits⟩⟩ := alloc_spec a (lt_def.1 hn) (Nat.le_refl _) h.descending
    · exact absurd h0 hok
    · refine ⟨hd, ?_, h.tiles.of_count_eq fun x => ?_⟩
      · intro r hr
        rcases mem_cons.1 hr with rfl | hr
        · exact lt_def.1 hn
        · exact h.live_pos r hr
      · have := hhits x
        simp only [hits_append, hits_cons] at this ⊢
        omega
  | fail n a hn ha hfail =>
    obtain ⟨hd, ⟨-, hsame⟩ | ⟨h0, -, -⟩⟩ := alloc_spec a (lt_def.1 hn) (Nat.le_refl _) h.descending
    · exact ⟨hd, h.live_pos, by rw [hsame]; exact h.tiles⟩
    · exact absurd hfail h0
  | free r hr =>
    obtain ⟨hv, hclear⟩ := h.live_valid hstart hle hr
    obtain ⟨hd, hhits⟩ :=
      free_spec (Nat.le_refl _) h.descending hv (by have := hv.2.2; omega) hclear
    refine ⟨hd, fun r' hr' => h.live_pos r' (mem_of_mem_erase hr'), h.tiles.of_count_eq fun x => ?_⟩
    have hperm := Layout.Range.hits_perm ((perm_cons_erase hr).map Hole.range) x
    have hfreed := hhits x
    simp only [hits_append, hits_cons] at hperm ⊢
    by_cases hx : r.offset.toNat ≤ x ∧ x < r.offset.toNat + r.size.toNat
    · rw [if_pos hx] at hperm hfreed
      omega
    · rw [if_neg hx] at hperm hfreed
      omega

/-- Every state that calls lead to is sound. -/
theorem Reachable.ok (hsize : 0 < size.toNat) (h : Reachable start size s) : Ok start size s := by
  induction h with
  | refl => exact ok_init hstart hle hsize
  | tail _ hst ih => exact ih.step hstart hle hst

end

/-- What is promised of a state: the holes go down and do not touch, no two of the holes and the
allocated ranges share an address, and together they are the addresses of the heap. -/
structure State.Sound (start size : BitVec 64) (s : State) : Prop where
  /-- Holes are not empty. -/
  nonempty : ∀ hole ∈ s.heap, 0 < hole.size.toNat
  /-- There is something between two holes. -/
  gaps : s.heap.Pairwise fun high low => low.stop < high.offset.toNat
  /-- Holes and allocations do not overlap. -/
  apart : ((s.heap ++ s.live).map Hole.range).Pairwise Apart
  /-- They cover the heap. -/
  covers : ∀ x : ℕ, (∃ r ∈ s.heap ++ s.live, r.range.has x = true) ↔
    start.toNat ≤ x ∧ x < start.toNat + size.toNat

/-- What is promised of a range that is newly allocated in a state. -/
structure State.Fresh (start size : BitVec 64) (s : State) (alignment : BitVec 64) (r : Hole) :
    Prop where
  /-- It is aligned. -/
  aligned : alignment.toNat ∣ r.offset.toNat
  /-- It is in the heap. -/
  inside : start.toNat ≤ r.offset.toNat ∧ r.stop ≤ start.toNat + size.toNat
  /-- It does not overlap another. -/
  apart : ∀ l ∈ s.live, Apart r.range l.range

/-- A range that is allocated is aligned, in the heap, and apart from the allocated ones. -/
theorem Ok.fresh (h : Ok start size s) (hstart : 0 < start.toNat)
    (hle : start.toNat + size.toNat ≤ 2 ^ 64) {n a : BitVec 64} (hn : 0 < n) (ha : 0 < a)
    (hok : (utilVmaHeapAlloc n a s.heap).2 ≠ 0) :
    s.Fresh start size a ⟨(utilVmaHeapAlloc n a s.heap).2, n⟩ := by
  have hnext := h.step hstart hle (Step.alloc n a hn ha hok)
  have hmem : (⟨(utilVmaHeapAlloc n a s.heap).2, n⟩ : Hole).range ∈
      ((utilVmaHeapAlloc n a s.heap).1 ++
        ⟨(utilVmaHeapAlloc n a s.heap).2, n⟩ :: s.live).map Hole.range := mem_map_of_mem (by simp)
  refine ⟨?_, hnext.tiles.inside hmem (lt_def.1 hn), fun l hl => ?_⟩
  · obtain ⟨-, ⟨h0, -⟩ | ⟨-, hdvd, -⟩⟩ := alloc_spec a (lt_def.1 hn) (Nat.le_refl _) h.descending
    · exact absurd h0 hok
    · exact hdvd
  · have hapart := hnext.tiles.pairwise_apart
    rw [map_append, pairwise_append, map_cons, pairwise_cons] at hapart
    exact hapart.2.1.1 _ (mem_map_of_mem hl)

/-- After any calls on a new heap, the holes and the allocated ranges are sound, the assertions of
the heap hold, and what is allocated next is aligned, inside, and apart from what is allocated. -/
theorem utilVmaHeap_sound (hstart : 0 < start) (hsize : 0 < size)
    (hle : start.toNat + size.toNat ≤ 2 ^ 64) (h : Reachable start size s) :
    s.Sound start size ∧ utilVmaHeapValidate s.heap = true ∧
      (∀ r ∈ s.live, freeAsserts s.heap r.offset r.size = true) ∧
      ∀ n a : BitVec 64, 0 < n → 0 < a → (utilVmaHeapAlloc n a s.heap).2 ≠ 0 →
        s.Fresh start size a ⟨(utilVmaHeapAlloc n a s.heap).2, n⟩ := by
  have hstart' := lt_def.1 hstart
  have hok := h.ok hstart' hle (lt_def.1 hsize)
  refine ⟨⟨fun hole hm => (hok.descending.mem hm).2.1, hok.descending.pairwise,
    hok.tiles.pairwise_apart, fun x => ?_⟩, hok.descending.validate, fun r hr => ?_,
    fun n a hn ha h0 => hok.fresh hstart' hle hn ha h0⟩
  · rw [← hok.tiles.exists_has_iff x]
    simp only [mem_map, exists_exists_and_eq_and]
  · obtain ⟨hv, hclear⟩ := hok.live_valid hstart' hle hr
    exact freeAsserts_eq_true hok.descending hv hclear

/-- A heap that ends at `2^64`, with an allocation at its top. -/
theorem utilVmaHeap_sound_top :
    State.Sound 4096 (-4096) ⟨(utilVmaHeapAlloc 64 48 (utilVmaHeapInit 4096 (-4096))).1,
      [⟨(utilVmaHeapAlloc 64 48 (utilVmaHeapInit 4096 (-4096))).2, 64⟩]⟩ :=
  (utilVmaHeap_sound (by decide) (by decide) (by decide)
    (Relation.ReflTransGen.single (Step.alloc 64 48 (by decide) (by decide) (by decide)))).1

/-- In every state that calls lead to, an allocation fails exactly if no hole holds an aligned range
of the size, and then leaves the heap alone. Otherwise it returns the highest aligned address in the
highest hole that holds such a range. -/
theorem utilVmaHeapAlloc_complete (hstart : 0 < start) (hsize : 0 < size)
    (hle : start.toNat + size.toNat ≤ 2 ^ 64) (h : Reachable start size s)
    {n : BitVec 64} (hn : 0 < n)
    (a : BitVec 64) :
    let p := utilVmaHeapAlloc n a s.heap
    (p.2 = 0 ↔ ∀ hole ∈ s.heap, ∀ x, ¬hole.Holds n a x) ∧
      (p.2 ≠ 0 → ∃ hole ∈ s.heap, IsGreatest {x | hole.Holds n a x} p.2.toNat ∧
        ∀ hole' ∈ s.heap, ∀ x, hole'.Holds n a x → hole'.offset ≤ hole.offset) ∧
      (p.2 = 0 → p.1 = s.heap) := by
  intro p
  have hd := (h.ok (lt_def.1 hstart) hle (lt_def.1 hsize)).descending
  rcases alloc_split a (lt_def.1 hn) (Nat.le_refl _) hd with
    ⟨heq, hnone⟩ | ⟨hne, above, hole, below, heq, hnone, hgreatest, -⟩
  · have h0 : p.2 = 0 := congrArg Prod.snd heq
    exact ⟨iff_of_true h0 hnone, fun hne => absurd h0 hne, fun _ => congrArg Prod.fst heq⟩
  · rw [heq] at hd ⊢
    refine ⟨iff_of_false hne fun h => h hole (by simp) _ hgreatest.1,
      fun _ => ⟨hole, by simp, hgreatest, fun hole' hm x hx => ?_⟩, fun h0 => absurd h0 hne⟩
    rcases mem_append.1 hm with hm | hm
    · exact absurd hx (hnone hole' hm x)
    · rcases mem_cons.1 hm with rfl | hm
      · exact Nat.le_refl _
      · have hlow := ((descending_append.1 hd).2.2.2.2.mem hm).2.2
        unfold stop at hlow
        exact BitVec.le_def.2 (by omega)

/-- The heap that ends at `2^64` has a place for a chunk that is aligned to 48. -/
theorem utilVmaHeapAlloc_complete_top :
    (utilVmaHeapAlloc 64 48 (utilVmaHeapInit 4096 (-4096))).2 ≠ 0 ∧
    ∃ hole ∈ utilVmaHeapInit 4096 (-4096),
      IsGreatest {x | hole.Holds 64 48 x}
        (utilVmaHeapAlloc 64 48 (utilVmaHeapInit 4096 (-4096))).2.toNat := by
  have hne : (utilVmaHeapAlloc 64 48 (utilVmaHeapInit 4096 (-4096))).2 ≠ 0 := by decide
  obtain ⟨-, hsome, -⟩ := utilVmaHeapAlloc_complete (s := ⟨utilVmaHeapInit 4096 (-4096), []⟩)
    (by decide) (by decide) (by decide) .refl (n := 64) (by decide) 48
  obtain ⟨hole, hmem, hgreatest, -⟩ := hsome hne
  exact ⟨hne, hole, hmem, hgreatest⟩

/-! ### The holes of allocated addresses -/

/-- No hole ends at the bound. -/
theorem Descending.hits_eq_zero (h : Descending bound heap) {x : ℕ} (hx : bound ≤ x + 1) :
    hits (heap.map range) x = 0 := by
  refine countP_eq_zero.2 fun r hr => ?_
  obtain ⟨hole, hm, rfl⟩ := mem_map.1 hr
  have hlt := (h.mem hm).2.2
  simp only [Layout.Range.has_iff, Hole.range, stop] at hlt ⊢
  omega

/-- A heap without a free address has no hole. -/
theorem Descending.eq_nil_of_hits (h : Descending bound heap)
    (hzero : ∀ x, hits (heap.map range) x = 0) :
    heap = [] := by
  cases heap with
  | nil => rfl
  | cons hole rest =>
    have hx := hzero hole.offset.toNat
    rw [hits_cons, if_pos ⟨Nat.le_refl _, Nat.lt_add_of_pos_right h.2.1⟩] at hx
    cases hx

/-- Holes that do not touch are determined by their addresses. -/
theorem Descending.eq_of_hits {heap' : Heap} {bound' : ℕ} (h : Descending bound heap)
    (h' : Descending bound' heap') (heq : ∀ x, hits (heap.map range) x = hits (heap'.map range) x) :
    heap = heap' := by
  induction heap generalizing bound heap' bound' with
  | nil => exact (h'.eq_nil_of_hits fun x => (heq x).symm).symm
  | cons hole rest ih =>
    cases heap' with
    | nil => exact h.eq_nil_of_hits heq
    | cons hole' rest' =>
      obtain ⟨-, hsize, -, hrest⟩ := h
      obtain ⟨-, hsize', -, hrest'⟩ := h'
      -- the highest address, and the one below each of the highest holes
      have htop := heq (max hole.stop hole'.stop - 1)
      have hlow := heq (hole.offset.toNat - 1)
      have hlow' := heq (hole'.offset.toNat - 1)
      simp only [hits_cons, stop] at htop hlow hlow'
      rw [hrest.hits_eq_zero (by omega), hrest'.hits_eq_zero (by omega)] at htop
      rw [hrest.hits_eq_zero (by omega)] at hlow
      rw [hrest'.hits_eq_zero (by omega)] at hlow'
      have heads : hole.offset.toNat = hole'.offset.toNat ∧ hole.size.toNat = hole'.size.toNat := by
        split_ifs at htop hlow hlow' <;> omega
      obtain ⟨offset, size⟩ := hole
      obtain ⟨offset', size'⟩ := hole'
      obtain ⟨rfl, rfl⟩ := heads.imp eq_of_toNat_eq eq_of_toNat_eq
      rw [ih hrest hrest' fun x => by simpa [hits_cons] using heq x]

/-- The holes depend on the addresses that are allocated, and not on the calls that led there. -/
theorem utilVmaHeap_canonical (hstart : 0 < start) (hsize : 0 < size)
    (hle : start.toNat + size.toNat ≤ 2 ^ 64) (hs : Reachable start size s)
    (ht : Reachable start size t)
    (hlive : ∀ x, (∃ r ∈ s.live, r.range.has x = true) ↔ ∃ r ∈ t.live, r.range.has x = true) :
    s.heap = t.heap := by
  have hs := hs.ok (lt_def.1 hstart) hle (lt_def.1 hsize)
  have ht := ht.ok (lt_def.1 hstart) hle (lt_def.1 hsize)
  refine hs.descending.eq_of_hits ht.descending fun x => ?_
  have hpos : 0 < hits (s.live.map range) x ↔ 0 < hits (t.live.map range) x := by
    simpa [hits, countP_pos_iff] using hlive x
  have hs := hs.tiles x
  have ht := ht.tiles x
  rw [hits_append] at hs ht
  split_ifs at hs ht <;> omega

/-- An allocation that is freed again leaves the heap as it was. -/
theorem utilVmaHeap_canonical_freed :
    utilVmaHeapFree (utilVmaHeapAlloc 64 48 (utilVmaHeapInit 4096 (-4096))).1
      (utilVmaHeapAlloc 64 48 (utilVmaHeapInit 4096 (-4096))).2 64 = utilVmaHeapInit 4096 (-4096) :=
  utilVmaHeap_canonical (t := ⟨utilVmaHeapInit 4096 (-4096), []⟩)
    (by decide) (by decide) (by decide)
    (.tail (.single (.alloc 64 48 (by decide) (by decide) (by decide)))
      (.free _ mem_cons_self)) .refl (by simp)

end Mesa3D.Vma
