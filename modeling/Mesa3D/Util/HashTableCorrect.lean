import Mesa3D.Util.HashTableInvariant
import Mesa3D.Structured.Fuel

/-!
# The hash table is a finite map

Insertion, removal and rehashing keep the invariant of `HashTableInvariant`, and change the contents
as those of a finite map (`Table.Has`). The table is rehashed only to sizes for which the sums of
the loops do not overflow, as long as there are fewer than `2^30` entries at every insertion or the
hashes are small enough for the last size.
-/

namespace Mesa3D.HashTable

open OpenAddressing Table List
open Fuel (Returns)

variable {K D : Type} {hash : K → BitVec 32} {equals : K → K → Bool} {ht ht' : Table K D}

/-! ### Changing an entry -/

variable {a i limit : ℕ} {k : K} {d : D} {map : K → Option D}

/-- No other slot has an equal key. -/
def Table.Only (equals : K → K → Bool) (ht : Table K D) (k : K) (a : ℕ) : Prop :=
  ∀ b h' k' d', b < ht.size → b ≠ a → ht.table b = .present h' k' d' → equals k k' = false

/-- The bound on the entries fits 32 bits. -/
theorem Inv.maxEntries_lt (h : Inv hash equals ht) : ht.maxEntries < 2^32 :=
  have hspec := sizes_spec _ (sizesAt_mem h.index)
  hspec.2.1.trans hspec.2.2.2

/-- The counters do not overflow. -/
theorem Inv.mod_eq (h : Inv hash equals ht) :
    (ht.deletedEntries + ht.entries) % 2^32 = ht.entries + ht.deletedEntries := by
  have hmax := h.maxEntries_lt
  have hload := h.load
  rw [Nat.mod_eq_of_lt (by omega), Nat.add_comm]

/-- What an insertion does. -/
structure Inserted (hash : K → BitVec 32) (equals : K → K → Bool) (ht : Table K D) (k : K) (d : D)
    (ht' : Table K D) (a : ℕ) : Prop where
  /-- The invariant is kept. -/
  inv : Inv hash equals ht'
  /-- The entry is in the table. -/
  lt : a < ht'.size
  /-- It has the key and the data. -/
  entry : ht'.table a = .present (hash k) k d
  /-- The other keys keep their data. -/
  has : ∀ k' d', ht'.Has equals k' d' ↔ if equals k' k = true then d' = d else ht.Has equals k' d'
  /-- A new key is counted. -/
  entries : (∀ d, ¬ht.Has equals k d) → ht'.entries = ht.entries + 1

/-- An insertion into a table with the same entries. -/
theorem Inserted.of_has {ht0 : Table K D} (h : Inserted hash equals ht k d ht' a)
    (hhas : ∀ k d, ht.Has equals k d ↔ ht0.Has equals k d) (hentries : ht.entries = ht0.entries) :
    Inserted hash equals ht0 k d ht' a where
  inv := h.inv
  lt := h.lt
  entry := h.entry
  has k' d' := by
    rw [h.has]
    simp only [hhas]
  entries hno := by
    rw [h.entries fun d hd => hno d ((hhas k d).1 hd), hentries]

/-- The new table after the first `m` slots of the old one. -/
structure Rehashed (hash : K → BitVec 32) (equals : K → K → Bool) (ht : Table K D) (i m : ℕ)
    (new : Table K D) : Prop where
  /-- The invariant holds. -/
  inv : Inv hash equals new
  /-- The size is the one asked for. -/
  sizeIndex : new.sizeIndex = i
  /-- The entries were moved. -/
  entries : new.entries = (range m).countP ht.taken
  /-- Nothing was deleted. -/
  deletedEntries : new.deletedEntries = 0
  /-- The keys have the data that they had. -/
  has : ∀ k d, new.Has equals k d ↔
    ∃ a < m, ∃ h k', ht.table a = .present h k' d ∧ equals k k' = true

/-- The size of the new table is that of its row. -/
theorem Rehashed.sizes_eq {m : ℕ} {new : Table K D} (h : Rehashed hash equals ht i m new) :
    new.size = (sizesAt i).size ∧ new.maxEntries = (sizesAt i).maxEntries := by
  simp only [size, maxEntries, sizes, h.sizeIndex, sizesAt, and_self]

/-- The body of the loop of `_mesa_hash_table_rehash`. -/
def rehashEntry (equals : K → K → Bool) (ht : Table K D) (fuel : ℕ) (new : Table K D) (a : ℕ) :
    Option (Table K D) :=
  match ht.table a with
  | .present h key data => (new.hashTableInsert equals fuel h key data).map Prod.fst
  | _ => some new

/-- The new table starts empty. -/
theorem rehashed_init (hash : K → BitVec 32) (equals : K → K → Bool) (ht : Table K D)
    (hi : i < hashSizes.length) (hfits : FitsAt hash i) :
    Rehashed hash equals ht i 0 ⟨fun _ => .free, i, 0, 0⟩ := by
  refine ⟨⟨hi, hfits, fun _ h => ?_, fun _ h => ?_, fun _ _ h => ?_, ?_, ?_, Nat.zero_le _⟩, rfl,
    rfl, rfl, fun k d => ?_⟩
  · cases h
  · cases h
  · cases h
  · exact (countP_eq_zero.2 fun _ _ h => by cases h).symm
  · exact (countP_eq_zero.2 fun _ _ h => by cases h).symm
  · constructor
    · rintro ⟨a, -, h, k', hentry, -⟩
      cases hentry
    · rintro ⟨a, ha, -⟩
      omega

/-- Clearing a table keeps the invariant and leaves no entry. -/
theorem Inv.clear (h : Inv hash equals ht) : Inv hash equals ht.mesaHashTableClear ∧
    ∀ k d, ¬ht.mesaHashTableClear.Has equals k d := by
  have hempty := rehashed_init hash equals ht h.index h.fits
  refine ⟨hempty.inv, fun k d hd => ?_⟩
  obtain ⟨a, ha, -⟩ := (hempty.has k d).1 hd
  omega

/-- The bound on the entries is that of the row of the table. -/
theorem Table.maxEntries_eq (ht : Table K D) : ht.maxEntries = (sizesAt ht.sizeIndex).maxEntries :=
  rfl

/-- A larger size has room for more entries. -/
theorem maxEntries_lt_succ : ∀ i < 30, (sizesAt i).maxEntries < (sizesAt (i + 1)).maxEntries := by
  decide

section

variable (hk : KeyOk hash equals)
include hk

/-- A slot becomes a tombstone, or gets a key whose probes reach it and which no other slot has. -/
theorem Inv.update {e : Entry K D} {n m : ℕ} (h : Inv hash equals ht) (ha : a < ht.size)
    (hfree : e.isFree = false)
    (hkey : ∀ h' k d, e = .present h' k d →
      h' = hash k ∧ Reaches ht.free (ht.probes h') a ∧ ht.Only equals k a)
    (hentries : n + (ht.taken a).toNat = ht.entries + e.isPresent.toNat)
    (hdeleted : m + (ht.table a).isDeleted.toNat = ht.deletedEntries + e.isDeleted.toNat)
    (hload : n + m ≤ ht.maxEntries) :
    Inv hash equals { ht.setEntry a e with entries := n, deletedEntries := m } := by
  have hfree : ∀ b, (ht.setEntry a e).free b = true → ht.free b = true := by
    intro b hb
    rw [free, setEntry_table] at hb
    split_ifs at hb
    · cases hfree.symm.trans hb
    · exact hb
  have hcount := ht.countP_setEntry nodup_range (mem_range.2 ha) e
  refine ⟨h.index, h.fits, fun {b h' k' d'} hb he => ?_,
    fun {b h' k' d'} hb he => ?_, fun {b c h' k' d' h'' k'' d''} hb hc heb hec he => ?_,
    ?_, ?_, hload⟩
  · rcases setEntry_present.1 he with ⟨-, he⟩ | ⟨-, he⟩
    · exact (hkey _ _ _ he).1
    · exact h.hash hb he
  · replace he := setEntry_present.1 he
    rcases he with ⟨rfl, he⟩ | ⟨-, he⟩
    · exact (hkey _ _ _ he).2.1.mono hfree
    · exact (h.reaches hb he).mono hfree
  · replace heb := setEntry_present.1 heb
    replace hec := setEntry_present.1 hec
    rcases heb with ⟨rfl, heb⟩ | ⟨hba, heb⟩ <;> rcases hec with ⟨rfl, hec⟩ | ⟨hca, hec⟩
    · rfl
    · cases he.symm.trans ((hkey _ _ _ heb).2.2 c _ _ _ hc hca hec)
    · cases (hk.symm he).symm.trans ((hkey _ _ _ hec).2.2 b _ _ _ hb hba heb)
    · exact h.unique hb hc heb hec he
  · have hc := hcount Entry.isPresent
    rw [← h.entries] at hc
    exact Nat.add_right_cancel (hentries.trans hc.symm)
  · have hc := hcount Entry.isDeleted
    rw [← h.deletedEntries] at hc
    exact Nat.add_right_cancel (hdeleted.trans hc.symm)

/-- The contents after a key is put in a slot, in place of an equal key or of none. -/
theorem Table.has_set (ha : a < ht.size) (hne : ht.Only equals k a)
    (hold : ∀ h' k' d', ht.table a = .present h' k' d' → equals k k' = true) (k' : K) (d' : D) :
    (ht.setEntry a (.present (hash k) k d)).Has equals k' d' ↔
      if equals k' k = true then d' = d else ht.Has equals k' d' := by
  unfold Has
  simp only [setEntry_present]
  split_ifs with he
  · constructor
    · rintro ⟨b, hb, h', k'', ⟨-, ⟨⟩⟩ | ⟨hba, hentry⟩, he'⟩
      · rfl
      · cases (hk.trans (hk.symm he) he').symm.trans (hne b _ _ _ hb hba hentry)
    · rintro rfl
      exact ⟨a, ha, hash k, k, .inl ⟨rfl, rfl⟩, he⟩
  · constructor
    · rintro ⟨b, hb, h', k'', ⟨-, ⟨⟩⟩ | ⟨-, hentry⟩, he'⟩
      · exact absurd he' he
      · exact ⟨b, hb, h', k'', hentry, he'⟩
    · rintro ⟨b, hb, h', k'', hentry, he'⟩
      refine ⟨b, hb, h', k'', .inr ⟨?_, hentry⟩, he'⟩
      rintro rfl
      exact he (hk.trans he' (hk.symm (hold _ _ _ hentry)))

/-! ### Insertion without rehashing -/

section

variable (h : Inv hash equals ht) (hroom : ht.entries + ht.deletedEntries < ht.maxEntries)
  (k : K) (d : D)
include h hroom

/-- What is done with the entry that the loop of `hash_table_insert` finds. -/
theorem Inv.store {x : Place}
    (hx : place ht.free ht.taken (ht.equal equals (hash k) k) none (ht.probes (hash k)) = x) :
    ∃ ht' a, ht.store (hash k) k d (found x) = (ht', some a) ∧
      Inserted hash equals ht k d ht' a ∧ ht'.sizeIndex = ht.sizeIndex ∧
      ht'.deletedEntries ≤ ht.deletedEntries := by
  have hstart := start_lt h.index (hash k)
  have hmax := h.maxEntries_lt
  cases x with
  | replace a =>
    obtain ⟨hm, he⟩ := place_replace hx
    have ha : a < ht.size := lt_of_mem_probes hstart hm
    obtain ⟨k0, d0, hentry, he⟩ := isEqual_iff.1 he
    obtain ⟨-, hr, -⟩ := h.isEqual_of_equals hk ha hentry he
    have hne : ht.Only equals k a := by
      intro b h' k' d' hb hba hentry'
      by_contra hc
      exact hba (h.unique hb ha hentry' hentry (hk.trans (hk.symm (by simpa using hc)) he))
    refine ⟨_, a, rfl, ⟨?_, ha, ?_, ?_, ?_⟩, rfl, le_rfl⟩
    · refine h.update hk ha rfl ?_ ?_ ?_ h.load
      · rintro _ _ _ ⟨⟩
        exact ⟨rfl, hr, hne⟩
      · rw [taken, hentry]
        rfl
      · rw [hentry]
        rfl
    · rw [setEntry_table, if_pos rfl]
    · refine has_set hk ha hne fun h' k' d' hentry' => ?_
      rw [hentry] at hentry'
      obtain ⟨-, rfl, -⟩ := Entry.present.inj hentry'
      exact he
    · exact fun hno => absurd ⟨a, ha, _, k0, hentry, he⟩ (hno d0)
  | put y =>
    -- no entry has an equal key
    have hnone : ∀ b h' k' d', b < ht.size → ht.table b = .present h' k' d' →
        equals k k' = false := by
      intro b h' k' d' hb hentry
      by_contra he
      obtain ⟨heq, hr, hf⟩ := h.isEqual_of_equals hk hb hentry (by simpa using he)
      rw [place_put hx hr hf] at heq
      cases heq
    obtain ⟨a', ha', hfree⟩ := h.exists_free
    obtain ⟨a, ha, rfl, hta, hr⟩ := exists_put h.index hx ⟨a', ha', taken_of_free hfree⟩
    have hnotp : ∀ h' k' d', ht.table a ≠ .present h' k' d' := by
      intro h' k' d' hentry
      rw [taken, hentry] at hta
      cases hta
    have hdel : (if (ht.table a).isDeleted then (ht.deletedEntries + (2^32 - 1)) % 2^32
      else ht.deletedEntries) +
        (ht.table a).isDeleted.toNat = ht.deletedEntries := by
      split_ifs with hd
      · have hpos : 0 < ht.deletedEntries := by
          rw [h.deletedEntries, countP_pos_iff]
          exact ⟨a, mem_range.2 ha, hd⟩
        rw [hd, Bool.toNat_true]
        omega
      · simp [hd]
    refine ⟨_, a, rfl, ⟨?_, ha, ?_, ?_, fun _ => rfl⟩, rfl, ?_⟩
    · refine h.update hk ha rfl ?_ ?_ hdel ?_
      · rintro _ _ _ ⟨⟩
        exact ⟨rfl, hr, fun b h' k' d' hb _ => hnone b h' k' d' hb⟩
      · rw [hta]
        rfl
      · omega
    · exact (setEntry_table ht a a _).trans (if_pos rfl)
    · exact has_set hk ha (fun b h' k' d' hb _ => hnone b h' k' d' hb)
        fun h' k' d' hentry => absurd hentry (hnotp h' k' d')
    · dsimp only
      omega

/-- `hash_table_insert` in a table with room, which neither grows nor rehashes. -/
theorem Inv.insertPlain :
    ∃ ht' a, (∀ fuel > ht.size, ht.hashTableInsert equals fuel (hash k) k d = some (ht', some a)) ∧
      Inserted hash equals ht k d ht' a ∧ ht'.sizeIndex = ht.sizeIndex ∧
      ht'.deletedEntries ≤ ht.deletedEntries := by
  obtain ⟨ht', a, hstore, hspec⟩ := h.store hk hroom k d rfl
  refine ⟨ht', a, fun fuel hfuel => ?_, hspec⟩
  obtain ⟨n, rfl⟩ : ∃ n, fuel = n + 1 := ⟨fuel - 1, by omega⟩
  unfold hashTableInsert
  rw [h.mod_eq, if_neg (by omega), if_neg (by omega)]
  have hloop := insertLoop_start equals h.index (h.doubleHash_le k) k n (by omega)
  exact (congrArg (Option.map _) hloop).trans (congrArg some hstore)

end

/-! ### Rehashing -/

section

variable (h : Inv hash equals ht)
include h

/-- One slot of the old table moved to the new one. -/
theorem Rehashed.step {m : ℕ} {new : Table K D}
    (hnew : Rehashed hash equals ht i m new) (hm : m < ht.size)
    (hroom : ht.entries < (sizesAt i).maxEntries) :
    ∃ new', (∀ fuel > (sizesAt i).size, rehashEntry equals ht fuel new m = some new') ∧
      Rehashed hash equals ht i (m + 1) new' := by
  have hrange := countP_taken_succ ht m
  cases hentry : ht.table m with
  | present h' k d =>
    have hh := h.hash hm hentry
    subst hh
    have htaken : ht.taken m = true := by rw [taken, hentry]; rfl
    -- the key is not in the new table yet, as no other entry has an equal one
    have hnot : ∀ d', ¬new.Has equals k d' := by
      intro d' hd'
      obtain ⟨b, hb, h'', k'', hentry', he⟩ := (hnew.has k d').1 hd'
      have := h.unique (by omega) hm hentry' hentry (hk.symm he)
      omega
    have hsub : (range (m + 1)).countP ht.taken ≤ (range ht.size).countP ht.taken :=
      (range_sublist.2 (by omega)).countP_le
    obtain ⟨hsize, hmax⟩ := hnew.sizes_eq
    have hent := h.entries
    have hnent := hnew.entries
    have hndel := hnew.deletedEntries
    rw [htaken, Bool.toNat_true] at hrange
    obtain ⟨new', a, hins, hspec, hindex, hdel⟩ := hnew.inv.insertPlain hk (by omega) k d
    refine ⟨new', fun fuel hfuel => ?_, hspec.inv, hindex.trans hnew.sizeIndex, ?_, by omega,
      fun k' d' => ?_⟩
    · rw [rehashEntry, hentry]
      dsimp only
      rw [hins fuel (by omega)]
      rfl
    · rw [hspec.entries hnot, hnent, hrange]
    · have hlast : (∃ h'' k'', Entry.present (hash k) k d = .present h'' k'' d' ∧
        equals k' k'' = true) ↔
          equals k' k = true ∧ d' = d := by
        constructor
        · rintro ⟨_, _, ⟨⟩, he⟩
          exact ⟨he, rfl⟩
        · rintro ⟨he, rfl⟩
          exact ⟨_, k, rfl, he⟩
      rw [hspec.has, hnew.has, Nat.exists_lt_succ_right, hentry, hlast]
      split_ifs with he
      · have hother : ¬∃ b < m, ∃ h'' k'', ht.table b = .present h'' k'' d' ∧
          equals k' k'' = true := by
          rintro ⟨b, hb, h'', k'', hentry', he'⟩
          exact hnot d' ((hnew.has k d').2 ⟨b, hb, h'', k'', hentry', hk.trans (hk.symm he) he'⟩)
        simp [hother, he]
      · simp [he]
  | _ =>
    refine ⟨new, fun fuel _ => by rw [rehashEntry, hentry], hnew.inv, hnew.sizeIndex, ?_,
      hnew.deletedEntries, fun k d => ?_⟩
    · have htaken : ht.taken m = false := by rw [taken, hentry]; rfl
      rw [hnew.entries, hrange, htaken]
      rfl
    · rw [hnew.has, Nat.exists_lt_succ_right, hentry]
      simp

/-- Rehashing to a size with room keeps the entries. -/
theorem Inv.rehash (hi : i < hashSizes.length)
    (hfits : FitsAt hash i) (hroom : ht.entries < (sizesAt i).maxEntries) :
    ∃ new, (∀ fuel > (sizesAt i).size,
        mesaHashTableRehash (hashTableInsert equals fuel) ht i = some new) ∧
      Rehashed hash equals ht i ht.size new := by
  have hfold : ∀ m ≤ ht.size, ∃ new, (∀ fuel > (sizesAt i).size,
      (range m).foldlM (rehashEntry equals ht fuel) ⟨fun _ => .free, i, 0, 0⟩ = some new) ∧
      Rehashed hash equals ht i m new := by
    intro m hm
    induction m with
    | zero => exact ⟨_, fun _ _ => rfl, rehashed_init hash equals ht hi hfits⟩
    | succ m ih =>
      obtain ⟨new, heq, hnew⟩ := ih (by omega)
      obtain ⟨new', heq', hnew'⟩ := hnew.step hk h (by omega) hroom
      refine ⟨new', fun fuel hfuel => ?_, hnew'⟩
      rw [range_succ, foldlM_append, heq fuel hfuel]
      simpa using heq' fuel hfuel
  obtain ⟨new, heq, hnew⟩ := hfold ht.size le_rfl
  refine ⟨new, fun fuel hfuel => ?_, hnew⟩
  rw [mesaHashTableRehash, if_neg (by omega)]
  exact heq fuel hfuel

/-! ### Insertion -/

/-- `hash_table_insert` with rehashing. -/
theorem Inv.insertRehashed (hi : i < hashSizes.length)
    (hfits : FitsAt hash i) (hroom : ht.entries < (sizesAt i).maxEntries) (k : K) (d : D)
    (hinsert : ∀ n new, mesaHashTableRehash (hashTableInsert equals n) ht i = some new →
      ht.hashTableInsert equals (n + 1) (hash k) k d =
        (new.insertLoop equals (hash k) k n (new.start (hash k)) none).map
        (new.store (hash k) k d)) :
    ∃ ht' a, Returns (fun fuel => ht.mesaHashTableInsert hash equals fuel k d) (ht', some a) ∧
      Inserted hash equals ht k d ht' a ∧ ht'.sizeIndex = i := by
  obtain ⟨new, hre, hnew⟩ := h.rehash hk hi hfits hroom
  have hentries : new.entries = ht.entries := hnew.entries.trans h.entries.symm
  have hdel := hnew.deletedEntries
  obtain ⟨hsize, hmax⟩ := hnew.sizes_eq
  obtain ⟨ht', a, hstore, hins, hindex, -⟩ := hnew.inv.store hk (by omega) k d rfl
  refine ⟨ht', a, ⟨(sizesAt i).size + 2, fun fuel hfuel => ?_⟩, hins.of_has hnew.has hentries,
    hindex.trans hnew.sizeIndex⟩
  obtain ⟨n, rfl⟩ : ∃ n, fuel = n + 1 := ⟨fuel - 1, by omega⟩
  refine (hinsert n new (hre n (by omega))).trans ?_
  rw [insertLoop_start equals hnew.inv.index (hnew.inv.doubleHash_le k) k n (by omega),
    Option.map_some, hstore]

/-- `hash_table_insert`, with any rehashing. -/
theorem Inv.insert (hlt : ht.entries < 2^31)
    (hnext : ht.maxEntries ≤ ht.entries → ht.sizeIndex < 30 →
      FitsAt hash (ht.sizeIndex + 1)) (k : K) (d : D) :
    ∃ ht' a, Returns (fun fuel => ht.mesaHashTableInsert hash equals fuel k d) (ht', some a) ∧
      Inserted hash equals ht k d ht' a ∧
      ht'.sizeIndex = if ht.maxEntries ≤ ht.entries then ht.sizeIndex + 1 else ht.sizeIndex := by
  have hlen : hashSizes.length = 31 := rfl
  have hindex := h.index
  have hload := h.load
  by_cases hfull : ht.maxEntries ≤ ht.entries
  · -- to the next size
    have hi : ht.sizeIndex < 30 := by
      by_contra hge
      have heq : ht.sizeIndex = 30 := by omega
      have hmax : ht.maxEntries = 2^31 := by rw [maxEntries, sizes, heq]; rfl
      omega
    have hroom : ht.entries < (sizesAt (ht.sizeIndex + 1)).maxEntries := by
      have := maxEntries_lt_succ _ hi
      have hmax := ht.maxEntries_eq
      omega
    rw [if_pos hfull]
    refine h.insertRehashed hk (by omega) (hnext hfull hi) hroom k d fun n new hre => ?_
    rw [hashTableInsert, if_pos hfull, hre]
  · rw [if_neg hfull]
    by_cases hdel : ht.maxEntries ≤ ht.entries + ht.deletedEntries
    · -- to the same size
      refine h.insertRehashed hk hindex h.fits (not_le.1 hfull) k d fun n new hre => ?_
      rw [hashTableInsert, if_neg hfull, h.mod_eq, if_pos hdel, hre]
    · obtain ⟨ht', a, hplain, hins, hidx, -⟩ := h.insertPlain hk (not_le.1 hdel) k d
      exact ⟨ht', a, ⟨ht.size + 1, fun fuel hfuel => hplain fuel hfuel⟩, hins, hidx⟩

/-! ### Removal -/

/-- Removing an entry keeps the invariant and takes its key out. -/
theorem Inv.remove {h' : BitVec 32}
    (ha : a < ht.size) (hentry : ht.table a = .present h' k d) :
    Inv hash equals (ht.mesaHashTableRemove (some a)) ∧
    ∀ k' d', (ht.mesaHashTableRemove (some a)).Has equals k' d' ↔
      equals k' k = false ∧ ht.Has equals k' d' := by
  have hpos : 0 < ht.entries := by
    rw [h.entries, countP_pos_iff]
    exact ⟨a, mem_range.2 ha, by rw [taken, hentry]; rfl⟩
  refine ⟨h.update (e := .deleted) hk ha rfl nofun ?_ ?_ ?_, fun k' d' => ?_⟩
  · rw [taken, hentry]
    exact Nat.sub_add_cancel hpos
  · rw [hentry]
    rfl
  · have := h.load
    omega
  · constructor
    · rintro ⟨b, hb, h'', k'', hentry', he⟩
      obtain ⟨-, ⟨⟩⟩ | ⟨hba, hentry'⟩ := setEntry_present.1 hentry'
      refine ⟨?_, b, hb, h'', k'', hentry', he⟩
      by_contra hc
      exact hba (h.unique hb ha hentry' hentry (hk.trans (hk.symm he) (by simpa using hc)))
    · rintro ⟨hne, b, hb, h'', k'', hentry', he⟩
      refine ⟨b, hb, h'', k'', setEntry_present.2 (.inr ⟨?_, hentry'⟩), he⟩
      rintro rfl
      cases hentry.symm.trans hentry'
      cases hne.symm.trans he

end

/-! ### Runs -/

/-- The finite map after `insert`. -/
def insertMap (equals : K → K → Bool) (map : K → Option D) (k : K) (d : D) : K → Option D :=
  fun k' => if equals k' k then some d else map k'

/-- The finite map after a removal. -/
def removeMap (equals : K → K → Bool) (map : K → Option D) (k : K) : K → Option D :=
  fun k' => if equals k' k then none else map k'

/-- The tables after any calls, with fewer than `limit` entries at each insertion, and the finite
map that they stand for. `remove` gets an entry that is present. -/
inductive Reachable (hash : K → BitVec 32) (equals : K → K → Bool) (limit : ℕ) :
    Table K D → (K → Option D) → Prop
  | init : Reachable hash equals limit (mesaHashTableInit K D) fun _ => none
  | insert {ht ht' : Table K D} {map : K → Option D} {k : K} {d : D} {entry : Option ℕ} :
      Reachable hash equals limit ht map → ht.entries < limit →
      Returns (fun fuel => ht.mesaHashTableInsert hash equals fuel k d) (ht', entry) →
      Reachable hash equals limit ht' (insertMap equals map k d)
  | remove {ht : Table K D} {map : K → Option D} {a : ℕ} {h : BitVec 32} {k : K} {d : D} :
      Reachable hash equals limit ht map → a < ht.size → ht.table a = .present h k d →
      Reachable hash equals limit (ht.mesaHashTableRemove (some a)) (removeMap equals map k)
  | removeKey {ht ht' : Table K D} {map : K → Option D} {k : K} :
      Reachable hash equals limit ht map →
      Returns (fun fuel => ht.mesaHashTableRemoveKey hash equals fuel k) ht' →
      Reachable hash equals limit ht' (removeMap equals map k)
  | clear {ht : Table K D} {map : K → Option D} : Reachable hash equals limit ht map →
      Reachable hash equals limit ht.mesaHashTableClear fun _ => none

/-- No sums overflow: the last size is not reached, or the hashes are small enough for it. -/
def NoOverflow (hash : K → BitVec 32) (limit : ℕ) : Prop := limit ≤ 2^30 ∨ FitsAt hash 30

/-- The table stands for the map, and the last size is only reached if the hashes fit. -/
structure Refines (hash : K → BitVec 32) (equals : K → K → Bool) (limit : ℕ) (ht : Table K D)
    (map : K → Option D) : Prop where
  /-- The invariant holds. -/
  inv : Inv hash equals ht
  /-- The last size is not reached. -/
  index : limit ≤ 2^30 → ht.sizeIndex < 30
  /-- The table has what the map has. -/
  has : ∀ k d, map k = some d ↔ ht.Has equals k d

section

variable (h : Refines hash equals limit ht map)
include h

/-- An insertion returns, and inserts into the map. -/
theorem Refines.insert (hover : NoOverflow hash limit) (hlimit : limit ≤ 2^31)
    (hlt : ht.entries < limit)
    (k : K) (d : D) :
    ∃ ht' a, Returns (fun fuel => ht.mesaHashTableInsert hash equals fuel k d) (ht', some a) ∧
      Refines hash equals limit ht' (insertMap equals map k d) ∧
      ((∀ d, ¬ht.Has equals k d) → ht'.entries = ht.entries + 1) := by
  have hmono : ∀ i < 31, 29 ≤ i → 2^30 ≤ (sizesAt i).maxEntries := by decide
  have hlen : hashSizes.length = 31 := rfl
  have hindex := h.inv.index
  have hnext : ht.maxEntries ≤ ht.entries → ht.sizeIndex < 29 ∨ ¬limit ≤ 2^30 := by
    intro hfull
    by_contra hc
    have := hmono ht.sizeIndex (by omega) (by omega)
    have hmax := ht.maxEntries_eq
    omega
  obtain ⟨ht', a, hret, hins, hidx⟩ := h.inv.insert hk (by omega) (fun hfull hlt30 => by
    by_cases hi : ht.sizeIndex + 1 < 30
    · exact fitsAt_of_lt hi
    · have h30 : ht.sizeIndex + 1 = 30 := by omega
      rw [h30]
      have := hnext hfull
      exact hover.resolve_left (by omega)) k d
  refine ⟨ht', a, hret, ⟨hins.inv, fun hle => ?_, fun k' d' => ?_⟩, hins.entries⟩
  · have := h.index hle
    rw [hidx]
    split_ifs with hfull
    · have := hnext hfull
      omega
    · exact this
  · rw [hins.has, insertMap]
    split_ifs with he
    · simp [eq_comm]
    · exact h.has k' d'

/-- Removing an entry removes its key from the map. -/
theorem Refines.remove {h' : BitVec 32} (ha : a < ht.size) (hentry : ht.table a = .present h' k d) :
    Refines hash equals limit (ht.mesaHashTableRemove (some a)) (removeMap equals map k) := by
  obtain ⟨hinv, hhas⟩ := h.inv.remove hk ha hentry
  refine ⟨hinv, h.index, fun k' d' => ?_⟩
  rw [hhas, removeMap]
  split_ifs with he
  · simp [he]
  · simpa [he] using h.has k' d'

/-- Removing a key returns, and removes it from the map. -/
theorem Refines.removeKey (k : K) :
    ∃ ht', Returns (fun fuel => ht.mesaHashTableRemoveKey hash equals fuel k) ht' ∧
      Refines hash equals limit ht' (removeMap equals map k) := by
  obtain ⟨x, hx, hsome, hnone⟩ := h.inv.search hk k
  refine ⟨ht.mesaHashTableRemove x, ⟨ht.size, fun fuel hfuel => ?_⟩, ?_⟩
  · dsimp only
    rw [mesaHashTableRemoveKey, hx fuel hfuel]
    rfl
  · cases x with
    | none =>
      have heq : removeMap equals map k = map := by
        funext k'
        unfold removeMap
        split_ifs with he
        · cases hm : map k' with
          | none => rfl
          | some d =>
            obtain ⟨a, ha, h', k'', hentry, he'⟩ := (h.has k' d).1 hm
            exact absurd ⟨a, ha, h', k'', hentry, hk.trans (hk.symm he) he'⟩ (hnone rfl d)
        · rfl
      rw [heq]
      exact h
    | some a =>
      obtain ⟨ha, h', k', d, hentry, he⟩ := hsome a rfl
      have heq : removeMap equals map k = removeMap equals map k' := by
        funext k''
        unfold removeMap
        have : equals k'' k = equals k'' k' := by
          rw [Bool.eq_iff_iff]
          exact ⟨fun hc => hk.trans hc he, fun hc => hk.trans hc (hk.symm he)⟩
        rw [this]
      rw [heq]
      exact h.remove hk ha hentry

/-- The data of an entry. -/
def Table.data (ht : Table K D) (a : ℕ) : Option D :=
  match ht.table a with
  | .present _ _ d => some d
  | _ => none

/-- A search returns what the map has for the key. -/
theorem Refines.search (k : K) :
    ∃ x, Returns (fun fuel => ht.mesaHashTableSearch hash equals fuel k) x ∧
      x.bind ht.data = map k ∧
      ∀ a ∈ x, a < ht.size ∧ ∃ h' k' d, ht.table a = .present h' k' d ∧ equals k k' = true := by
  obtain ⟨x, hx, hsome, hnone⟩ := h.inv.search hk k
  refine ⟨x, ⟨ht.size, hx⟩, ?_, hsome⟩
  cases x with
  | none =>
    cases hm : map k with
    | none => rfl
    | some d => exact absurd ((h.has k d).1 hm) (hnone rfl d)
  | some a =>
    obtain ⟨ha, h', k', d, hentry, he⟩ := hsome a rfl
    rw [(h.has k d).2 ⟨a, ha, h', k', hentry, he⟩, Option.bind_some, data, hentry]

end

/-- Every table reached by the calls refines the map that they build. -/
theorem Reachable.refines (hover : NoOverflow hash limit) (hlimit : limit ≤ 2^31)
    (h : Reachable hash equals limit ht map) :
    Refines hash equals limit ht map := by
  induction h with
  | init =>
    have hinit := rehashed_init hash equals (mesaHashTableInit K D)
      (show 0 < hashSizes.length by decide) (fitsAt_of_lt (by omega))
    refine ⟨hinit.inv, fun _ => (show 0 < 30 by decide), fun k d => ?_⟩
    refine ⟨fun h => (by cases h), fun ⟨a, _, h', k', hentry, _⟩ => ?_⟩
    cases hentry
  | insert _ hlt hret ih =>
    obtain ⟨ht', a, hret', href, -⟩ := ih.insert hk hover hlimit hlt _ _
    obtain ⟨rfl, -⟩ := Prod.mk.inj (hret.unique hret')
    exact href
  | remove _ ha hentry ih => exact ih.remove hk ha hentry
  | removeKey _ hret ih =>
    obtain ⟨ht', hret', href⟩ := ih.removeKey hk _
    rw [hret.unique hret']
    exact href
  | clear _ ih =>
    obtain ⟨hinv, hhas⟩ := ih.inv.clear
    exact ⟨hinv, ih.index, fun k d => ⟨fun h => (by cases h), fun h => absurd h (hhas k d)⟩⟩

end

/-- The hash table is a finite map, after any calls with fewer than `limit` entries at each
insertion: a search returns the entry with an equal key and the data that was inserted last, if it
was not removed since; the counters are the numbers of present entries and of tombstones; no two
present entries have equal keys; and insertions and removals return, the former with an entry. The
limit is at most `2^31`, and no sums overflow. -/
theorem hashTable_refines (hash : K → BitVec 32) (equals : K → K → Bool) (hk : KeyOk hash equals)
    (limit : ℕ) (hlimit : limit ≤ 2^31) (hover : NoOverflow hash limit) (ht : Table K D)
    (map : K → Option D) (h : Reachable hash equals limit ht map) :
    (∀ k, ∃ x, Returns (fun fuel => ht.mesaHashTableSearch hash equals fuel k) x ∧
      x.bind ht.data = map k ∧
      ∀ a ∈ x, a < ht.size ∧ ∃ h' k' d, ht.table a = .present h' k' d ∧ equals k k' = true) ∧
    ht.entries = (range ht.size).countP (fun a => (ht.table a).isPresent) ∧
    ht.deletedEntries = (range ht.size).countP (fun a => (ht.table a).isDeleted) ∧
    (∀ a < ht.size, ∀ b < ht.size, ∀ h' k d h'' k' d', ht.table a = .present h' k d →
      ht.table b = .present h'' k' d' → equals k k' = true → a = b) ∧
    (ht.entries < limit → ∀ k d, ∃ ht' a,
      Returns (fun fuel => ht.mesaHashTableInsert hash equals fuel k d) (ht', some a)) ∧
    ∀ k, ∃ ht', Returns (fun fuel => ht.mesaHashTableRemoveKey hash equals fuel k) ht' := by
  have href := h.refines hk hover hlimit
  refine ⟨href.search hk, href.inv.entries, href.inv.deletedEntries,
    fun a ha b hb h' k d h'' k' d' hea heb he => href.inv.unique ha hb hea heb he,
    fun hlt k d => ?_, fun k => ?_⟩
  · obtain ⟨ht', a, hret, -⟩ := href.insert hk hover hlimit hlt k d
    exact ⟨ht', a, hret⟩
  · obtain ⟨ht', hret, -⟩ := href.removeKey hk k
    exact ⟨ht', hret⟩

/-- Equality of keys will do for any hash. -/
theorem keyOk_eq [DecidableEq K] (hash : K → BitVec 32) :
    KeyOk hash fun k k' => decide (k = k') where
  refl _ := decide_eq_true rfl
  symm h := decide_eq_true (of_decide_eq_true h).symm
  trans h h' := decide_eq_true ((of_decide_eq_true h).trans (of_decide_eq_true h'))
  hash_eq h := congrArg hash (of_decide_eq_true h)

/-- A table of numbers, with a number inserted. -/
theorem hashTable_refines_one :
    let hash : ℕ → BitVec 32 := BitVec.ofNat 32
    let equals : ℕ → ℕ → Bool := fun k k' => decide (k = k')
    ∃ ht : Table ℕ ℕ, Reachable hash equals (2^30) ht (insertMap equals (fun _ => none) 7 1) ∧
      ∃ x, Returns (fun fuel => ht.mesaHashTableSearch hash equals fuel 7) x ∧
        x.bind ht.data = some 1 := by
  intro hash equals
  have hk : KeyOk hash equals := keyOk_eq hash
  have hinit : Reachable hash equals (2^30) (mesaHashTableInit ℕ ℕ) fun _ => none := .init
  obtain ⟨ht, a, hret⟩ := (hashTable_refines hash equals hk (2^30) (by omega) (.inl le_rfl) _ _
    hinit).2.2.2.2.1 (show 0 < 2^30 by omega) 7 1
  have hreach := hinit.insert (show 0 < 2^30 by omega) hret
  obtain ⟨x, hx, hdata, -⟩ := (hashTable_refines hash equals hk (2^30) (by omega) (.inl le_rfl) _ _
    hreach).1 7
  exact ⟨ht, hreach, x, hx, hdata⟩

end Mesa3D.HashTable
