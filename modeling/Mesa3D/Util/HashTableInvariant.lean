import Mesa3D.Util.HashTable
import Mesa3D.Tables.OpenAddressing
import Mathlib.Data.List.GetD

/-!
# What holds of every hash table

All sizes are prime, so that the loops look at every slot if their sums do not overflow (`FitsAt`),
and then they are the search and the insertion of open addressing (`searchLoop_eq`,
`insertLoop_eq`). Each present entry is reached by the probes of its key, no two have equal keys,
and the counters count (`Inv`).
-/

namespace Mesa3D.HashTable

open OpenAddressing List

/-! ### Sizes -/

/-- Each size of the table is a prime. -/
theorem prime_size : ∀ s ∈ hashSizes, s.size.Prime := by
  have hall : ∀ s ∈ hashSizes, s.size = 5 ∨ s.size = 7 ∨ 2 ≤ s.size ∧
    s.size % 2 = 1 ∧ ∃ k ∈ [0, 2, 4, 6, 13],
      s.size < (8 * 2 ^ k) * (8 * 2 ^ k) ∧ Nat.Coprime s.size (oddProduct k 3) := by decide +kernel
  intro s hs
  rcases hall s hs with h | h | ⟨h2, hodd, k, -, hlt, hc⟩
  · rw [h]
    exact Nat.prime_five
  · rw [h]
    decide
  · exact prime_of_coprime_oddProduct h2 hodd hlt hc

/-- The numbers that each row of the table is laid out with. -/
theorem sizes_spec : ∀ s ∈ hashSizes, s.rehash + 2 = s.size ∧ s.maxEntries < s.size ∧ 0 < s.rehash ∧
    s.size < 2^32 := by decide

variable {K D : Type} {hash : K → BitVec 32} {equals : K → K → Bool} {ht : Table K D}

/-- The sizes with an index. -/
def sizesAt (i : ℕ) : HashSize := hashSizes.getD i ⟨0, 0, 0⟩

/-- A size index of the table picks a row of it. -/
theorem sizesAt_mem {i : ℕ} (h : i < hashSizes.length) : sizesAt i ∈ hashSizes := by
  rw [sizesAt, getD_eq_getElem _ _ h]
  exact getElem_mem h

/-- The sums of the loops do not overflow, for all keys. -/
def FitsAt (hash : K → BitVec 32) (i : ℕ) : Prop :=
  ∀ k, 1 + (hash k).toNat % (sizesAt i).rehash + (sizesAt i).size ≤ 2^32

/-- Up to the last but one size, no sums overflow. -/
theorem fitsAt_of_lt {i : ℕ} (hi : i < 30) : FitsAt hash i := by
  intro k
  have hsmall : ∀ i < 30, 2 * (sizesAt i).size ≤ 2^32 := by decide
  obtain ⟨hre, -, hpos, -⟩ := sizes_spec _ (sizesAt_mem (show i < hashSizes.length by
    have : hashSizes.length = 31 := rfl
    omega))
  have := Nat.mod_lt (hash k).toNat hpos
  have := hsmall i hi
  omega

/-! ### Loops -/

namespace Table

/-- The slots that are looked at for a hash. -/
def probes (ht : Table K D) (h : BitVec 32) : List ℕ :=
  OpenAddressing.probes ht.size (ht.start h) (ht.doubleHash h)

/-- The slot was never used. -/
abbrev free (ht : Table K D) (a : ℕ) : Bool := (ht.table a).isFree

/-- The slot holds an entry. -/
abbrev taken (ht : Table K D) (a : ℕ) : Bool := (ht.table a).isPresent

/-- The slot holds the entry that is looked for. -/
abbrev equal (equals : K → K → Bool) (ht : Table K D) (h : BitVec 32) (key : K) (a : ℕ) : Bool :=
  (ht.table a).isEqual equals h key

section

variable (hi : ht.sizeIndex < hashSizes.length)
include hi

/-- The step of the probes is below the size. -/
theorem doubleHash_lt (h : BitVec 32) : ht.doubleHash h < ht.size := by
  obtain ⟨hre, -, hpos, -⟩ : ht.rehash + 2 = ht.size ∧ _ ∧ 0 < ht.rehash ∧
    _ := sizes_spec _ (sizesAt_mem hi)
  have := Nat.mod_lt h.toNat hpos
  rw [doubleHash]
  omega

/-- The size is prime, and the step is not a multiple of it. -/
theorem coprime_doubleHash (h : BitVec 32) : Nat.Coprime ht.size (ht.doubleHash h) :=
  coprime_of_lt (prime_size _ (sizesAt_mem hi))
    (Nat.add_pos_left Nat.one_pos _) (doubleHash_lt hi h)

/-- A table has a slot. -/
theorem size_pos : 0 < ht.size := (prime_size _ (sizesAt_mem hi)).pos

/-- The first probe is a slot. -/
theorem start_lt (h : BitVec 32) : ht.start h < ht.size := Nat.mod_lt _ (size_pos hi)

/-- The loops step from probe to probe. -/
theorem next_probe {h : BitVec 32} (hfits : ht.doubleHash h + ht.size ≤ 2^32) (i : ℕ) :
    ht.next h (probe ht.size (ht.start h) (ht.doubleHash h) i) =
      probe ht.size (ht.start h) (ht.doubleHash h) (i + 1) := by
  have hlt : probe ht.size (ht.start h) (ht.doubleHash h) i < ht.size := probe_lt (start_lt hi h)
  rw [next, probe_succ, Nat.mod_eq_of_lt (b := 2^32) (by omega)]

end

/-- Counting the entries of one slot more. -/
theorem countP_taken_succ (ht : Table K D) (m : ℕ) :
    (range (m + 1)).countP ht.taken = (range m).countP ht.taken + (ht.taken m).toNat := by
  rw [range_succ, countP_append, countP_singleton]
  cases ht.taken m <;> rfl

/-- The probes from the `i`-th on. -/
theorem drop_probes {h : BitVec 32} {i : ℕ} (hi : i < ht.size) :
    (ht.probes h).drop i = probe ht.size (ht.start h) (ht.doubleHash h) i ::
      (ht.probes h).drop (i + 1) := by
  have hlen : i < (ht.probes h).length := by rwa [probes, length_probes]
  rw [drop_eq_getElem_cons hlen]
  simp [probes, OpenAddressing.probes]

/-- After as many probes as there are slots none are left. -/
theorem drop_probes_size {h : BitVec 32} : (ht.probes h).drop ht.size = [] := by
  rw [drop_eq_nil_iff, probes, length_probes]

/-- What the loop of `hash_table_insert` finds, for a place of open addressing. -/
def found : Place → Found
  | .replace a => .equal a
  | .put a => .available a

/-- A free slot is not taken. -/
theorem taken_of_free {a : ℕ} (ha : ht.free a = true) : ht.taken a = false := by
  cases hentry : ht.table a <;> simp_all [Entry.isFree, Entry.isPresent]

/-- An insertion that finds no equal key finds a slot that is not taken, if there is one. -/
theorem exists_put (hi : ht.sizeIndex < hashSizes.length) {h : BitVec 32}
    {hit : ℕ → Bool} {x : Option ℕ}
    (hx : place ht.free ht.taken hit none (ht.probes h) = .put x)
    (hslot : ∃ a < ht.size, ht.taken a = false) :
    ∃ a < ht.size, x = some a ∧ ht.taken a = false ∧ Reaches ht.free (ht.probes h) a := by
  have hstart := start_lt hi h
  rcases place_put_none (fun _ => taken_of_free) hx with ⟨a, rfl, hta, hr⟩ | hall
  · exact ⟨a, lt_of_mem_probes hstart hr.mem, rfl, hta, hr⟩
  · obtain ⟨a, ha, hta⟩ := hslot
    have hmem := (perm_probes (coprime_doubleHash hi h) hstart).mem_iff.2 (mem_range.2 ha)
    rw [hall a hmem] at hta
    cases hta

section

variable (equals) (hi : ht.sizeIndex < hashSizes.length) {h : BitVec 32}
  (hfits : ht.doubleHash h + ht.size ≤ 2^32) (key : K) (fuel : ℕ) {i : ℕ}
include hi hfits

/-- The loop of a search, from the `i`-th probe on, is `find` over the rest of the probes. -/
theorem searchLoop_eq (hlt : i < ht.size) (hfuel : ht.size ≤ fuel + i) :
    ht.searchLoop equals h key fuel (probe ht.size (ht.start h) (ht.doubleHash h) i) =
      some (find ht.free (ht.equal equals h key) ((ht.probes h).drop i)) := by
  induction fuel generalizing i with
  | zero => omega
  | succ fuel ih =>
    rw [drop_probes hlt]
    simp only [searchLoop, find, free, equal, next_probe hi hfits,
      probe_eq_start_iff (coprime_doubleHash hi h) (start_lt hi h) hlt]
    split_ifs with hfree heq hend
    · rfl
    · rfl
    · rw [hend, drop_probes_size]
      rfl
    · exact ih (by omega) (by omega)

/-- The loop of an insertion, from the `i`-th probe on, is `place` over the rest of the probes. -/
theorem insertLoop_eq (avail : Option ℕ) (hlt : i < ht.size) (hfuel : ht.size ≤ fuel + i) :
    ht.insertLoop equals h key fuel (probe ht.size (ht.start h) (ht.doubleHash h) i) avail =
      some (found <| place ht.free ht.taken (ht.equal equals h key) avail
        ((ht.probes h).drop i)) := by
  induction fuel generalizing i avail with
  | zero => omega
  | succ fuel ih =>
    rw [drop_probes hlt]
    simp only [insertLoop, place, free, equal, next_probe hi hfits,
      probe_eq_start_iff (coprime_doubleHash hi h) (start_lt hi h) hlt]
    -- for a slot that is taken, and for one that is not
    split_ifs
    any_goals rfl
    any_goals exact ih _ (by omega) (by omega)
    all_goals
      rw [show i + 1 = ht.size from ‹_›, drop_probes_size]
      rfl

/-- A search is `find` over all probes. -/
theorem hashTableSearch_eq (hfuel : ht.size ≤ fuel) : hashTableSearch equals fuel ht h key =
    some (find ht.free (ht.equal equals h key) (ht.probes h)) := by
  have hloop := searchLoop_eq equals hi hfits key fuel (size_pos hi) hfuel
  rwa [probe_zero (start_lt hi h)] at hloop

/-- The loop of an insertion is `place` over all probes. -/
theorem insertLoop_start (hfuel : ht.size ≤ fuel) :
    ht.insertLoop equals h key fuel (ht.start h) none =
    some (found <| place ht.free ht.taken (ht.equal equals h key) none (ht.probes h)) := by
  have hloop := insertLoop_eq equals hi hfits key fuel none (size_pos hi) hfuel
  rwa [probe_zero (start_lt hi h)] at hloop

end

end Table

/-! ### The invariant -/

/-- `key_equals_function` is an equivalence, and equal keys have the same hash. -/
structure KeyOk (hash : K → BitVec 32) (equals : K → K → Bool) : Prop where
  /-- Keys equal themselves. -/
  refl : ∀ k, equals k k = true
  /-- Equality is symmetric. -/
  symm : ∀ {k k'}, equals k k' = true → equals k' k = true
  /-- Equality is transitive. -/
  trans : ∀ {k k' k''}, equals k k' = true → equals k' k'' = true → equals k k'' = true
  /-- Equal keys have equal hashes. -/
  hash_eq : ∀ {k k'}, equals k k' = true → hash k = hash k'

/-- The table has an entry with an equal key and the data. -/
def Table.Has (equals : K → K → Bool) (ht : Table K D) (k : K) (d : D) : Prop :=
  ∃ a < ht.size, ∃ h k', ht.table a = .present h k' d ∧ equals k k' = true

/-- What holds of every table. -/
structure Inv (hash : K → BitVec 32) (equals : K → K → Bool) (ht : Table K D) : Prop where
  /-- The size is one of the table. -/
  index : ht.sizeIndex < hashSizes.length
  /-- The probes do not overflow. -/
  fits : FitsAt hash ht.sizeIndex
  /-- Entries have the hash of their key. -/
  hash : ∀ {a h k d}, a < ht.size → ht.table a = .present h k d → h = hash k
  /-- Entries are found from their hash. -/
  reaches : ∀ {a h k d}, a < ht.size → ht.table a = .present h k d →
    Reaches ht.free (ht.probes h) a
  /-- No two entries have equal keys. -/
  unique : ∀ {a b h k d h' k' d'}, a < ht.size → b < ht.size → ht.table a = .present h k d →
    ht.table b = .present h' k' d' → equals k k' = true → a = b
  /-- The entries are counted. -/
  entries : ht.entries = (range ht.size).countP ht.taken
  /-- The deleted ones are counted. -/
  deletedEntries : ht.deletedEntries = (range ht.size).countP fun a => (ht.table a).isDeleted
  /-- The table is not overfull. -/
  load : ht.entries + ht.deletedEntries ≤ ht.maxEntries

/-- Changing a predicate at one element changes a count by that element. -/
theorem countP_update {list : List ℕ} {a : ℕ} {p q : ℕ → Bool} (hl : list.Nodup) (ha : a ∈ list)
    (h : ∀ b, b ≠ a → q b = p b) :
    list.countP q + (p a).toNat = list.countP p + (q a).toNat := by
  induction list with
  | nil => cases ha
  | cons b list ih =>
    obtain ⟨hb, hl⟩ := nodup_cons.1 hl
    rw [countP_cons, countP_cons]
    rcases mem_cons.1 ha with rfl | ha
    · have hcongr : list.countP q = list.countP p :=
        countP_congr fun b hmem => by rw [h b fun heq => hb (heq ▸ hmem)]
      cases hq : q a <;> cases hp : p a <;> simp [hcongr]
    · have := ih hl ha
      rw [h b fun heq => hb (heq ▸ ha)]
      omega

namespace Table

/-- What the slots hold after one is set. -/
@[simp] theorem setEntry_table (ht : Table K D) (a b : ℕ) (entry : Entry K D) :
    (ht.setEntry a entry).table b = if b = a then entry else ht.table b := by
  simp [setEntry, Function.update_apply]

/-- The entries that are present after a slot is set. -/
theorem setEntry_present {a b : ℕ} {e : Entry K D} {h : BitVec 32} {k : K} {d : D} :
    (ht.setEntry a e).table b = .present h k d ↔
      b = a ∧ e = .present h k d ∨ b ≠ a ∧ ht.table b = .present h k d := by
  rw [setEntry_table]
  split_ifs with hba <;> simp [hba]

/-- The numbers of entries of a kind, before and after a slot is changed. -/
theorem countP_setEntry (ht : Table K D) {list : List ℕ} {a : ℕ} (hl : list.Nodup) (ha : a ∈ list)
    (e : Entry K D) (f : Entry K D → Bool) :
    list.countP (fun b => f ((ht.setEntry a e).table b)) + (f (ht.table a)).toNat =
      list.countP (fun b => f (ht.table b)) + (f e).toNat := by
  have hcount := countP_update (p := fun b => f (ht.table b))
    (q := fun b => f ((ht.setEntry a e).table b))
    hl ha fun b hb => by rw [setEntry_table, if_neg hb]
  rwa [setEntry_table, if_pos rfl] at hcount

/-- The entry that is looked for is present, with the same hash and an equal key. -/
theorem isEqual_iff {entry : Entry K D} {h : BitVec 32} {k : K} :
    entry.isEqual equals h k = true ↔ ∃ k' d, entry = .present h k' d ∧ equals k k' = true := by
  cases entry with
  | present h' k' d =>
    simp only [Entry.isEqual, Bool.and_eq_true, beq_iff_eq, Entry.present.injEq]
    constructor
    · rintro ⟨rfl, he⟩
      exact ⟨k', d, ⟨rfl, rfl, rfl⟩, he⟩
    · rintro ⟨_, _, ⟨rfl, rfl, rfl⟩, he⟩
      exact ⟨rfl, he⟩
  | _ =>
    constructor
    · rintro ⟨⟩
    · rintro ⟨_, _, ⟨⟩, _⟩

end Table

namespace Inv

variable (hk : KeyOk hash equals) (h : Inv hash equals ht)

include h in
/-- The probes do not overflow 32 bits. -/
theorem doubleHash_le (k : K) : ht.doubleHash (hash k) + ht.size ≤ 2^32 := h.fits k

include h in
/-- There is always a free slot. -/
theorem exists_free : ∃ a < ht.size, ht.free a = true := by
  by_contra hall
  push Not at hall
  have hdeleted : ht.deletedEntries = (range ht.size).countP fun a => ¬ht.taken a = true := by
    rw [h.deletedEntries]
    refine countP_congr fun a ha => ?_
    have hfree := hall a (mem_range.1 ha)
    unfold Table.free Table.taken at *
    cases hx : ht.table a <;> simp [hx, Entry.isFree, Entry.isPresent, Entry.isDeleted] at hfree ⊢
  have hcount := length_eq_countP_add_countP ht.taken (l := range ht.size)
  have hlt : ht.maxEntries < ht.size := (sizes_spec _ (sizesAt_mem h.index)).2.1
  have hload := h.load
  rw [h.entries, hdeleted, ← hcount, length_range] at hload
  omega

include hk h in
/-- An entry with an equal key is found by the search for its hash. -/
theorem isEqual_of_equals {a : ℕ} {h' : BitVec 32} {k k' : K} {d : D} (ha : a < ht.size)
    (hentry : ht.table a = .present h' k' d) (he : equals k k' = true) :
    ht.equal equals (hash k) k a = true ∧ Reaches ht.free (ht.probes (hash k)) a ∧
      ht.free a = false := by
  have hh := h.hash ha hentry
  have hr := h.reaches ha hentry
  rw [hh, ← hk.hash_eq he] at hr
  refine ⟨Table.isEqual_iff.2 ⟨k', d, ?_, he⟩, hr, ?_⟩
  · rw [hentry, hh, hk.hash_eq he]
  · rw [Table.free, hentry]
    rfl

include hk h in
/-- `hash_table_search` returns, and finds the entry with an equal key. -/
theorem search (k : K) :
    ∃ x, (∀ fuel ≥ ht.size, ht.mesaHashTableSearch hash equals fuel k = some x) ∧
    (∀ a, x = some a → a < ht.size ∧ ∃ h' k' d, ht.table a = .present h' k' d ∧
      equals k k' = true) ∧ (x = none → ∀ d, ¬ht.Has equals k d) := by
  have hstart := Table.start_lt h.index (hash k)
  refine ⟨_, fun fuel => Table.hashTableSearch_eq equals h.index (h.doubleHash_le k) k fuel,
    fun a ha => ?_, fun hx d hd => ?_⟩
  · obtain ⟨hm, he⟩ := find_some ha
    obtain ⟨k', d, hentry, he⟩ := Table.isEqual_iff.1 he
    exact ⟨lt_of_mem_probes hstart hm, _, k', d, hentry, he⟩
  · obtain ⟨a, ha, h', k', hentry, he⟩ := hd
    obtain ⟨heq, hr, hf⟩ := h.isEqual_of_equals hk ha hentry he
    rw [find_none hx hr hf] at heq
    cases heq

end Inv

end Mesa3D.HashTable
