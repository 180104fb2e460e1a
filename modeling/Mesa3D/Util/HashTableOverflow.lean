import Mathlib.Dynamics.PeriodicPts.Defs
import Mesa3D.Util.HashTableCorrect

/-!
# An insertion that does not return

At the last size, the sum of an address and `double_hash` can overflow, and then the loops do not
look at all slots (`probesAll_iff`). For the hash `0x7fffffff` they get into a cycle of two slots
after nine, and the first address is in none of them. If all keys have this hash, the insertion
after `2^30` others does not return: it rehashes to the last size, where the twelfth entry does not
find a slot.
-/

namespace Mesa3D.HashTable

open OpenAddressing Option List Table

variable {K D : Type} {hash : K → BitVec 32} {equals : K → K →
  Bool} {ht new : Table K D} {h : BitVec 32}

/-! ### The slots that the loops look at -/

/-- For the hash, the loops look at every slot once, and then they are back at the first address.
They return, and an insertion that finds no equal key finds a slot that is not taken, if there is
one. -/
structure ProbesAll (equals : K → K → Bool) (ht : Table K D) (h : BitVec 32) : Prop where
  /-- The walk visits every slot once. -/
  perm : ((range ht.size).map fun i => (ht.next h)^[i] (ht.start h)).Perm (range ht.size)
  /-- It comes back to its start. -/
  back : (ht.next h)^[ht.size] (ht.start h) = ht.start h
  /-- A search ends after it. -/
  search : ∀ key, ∃ x, ∀ fuel ≥ ht.size, hashTableSearch equals fuel ht h key = some x
  /-- So does an insertion, with a slot if one is left. -/
  insert : ∀ key, ∃ f,
    (∀ fuel ≥ ht.size, ht.insertLoop equals h key fuel (ht.start h) none = some f) ∧
    ((∃ a < ht.size, ht.taken a = false) →
      (∃ a, f = .equal a) ∨ ∃ a < ht.size, f = .available (some a) ∧ ht.taken a = false)

section

variable (hi : ht.sizeIndex < hashSizes.length)
include hi

/-- If a sum can overflow, then slot 0 is the next one of two slots, which cannot both be in a
cycle. -/
theorem ProbesAll.fits (hall : ProbesAll equals ht h) : ht.doubleHash h + ht.size ≤ 2^32 := by
  by_contra hover
  have hsize : ht.size < 2^32 := (sizes_spec _ (sizesAt_mem hi)).2.2.2
  have hd := doubleHash_lt hi h
  have hperiodic : ∀ a < ht.size, Function.IsPeriodicPt (ht.next h) ht.size a := by
    intro a ha
    obtain ⟨i, -, rfl⟩ := mem_map.1 (hall.perm.mem_iff.2 (mem_range.2 ha))
    exact Function.IsPeriodicPt.apply_iterate hall.back i
  have heq := (hperiodic (2^32 - ht.doubleHash h) (by omega)).eq_of_apply_eq_same
    (hperiodic (ht.size - ht.doubleHash h) (by omega)) (size_pos hi) (by
      rw [Table.next, Table.next, Nat.sub_add_cancel (by omega), Nat.sub_add_cancel hd.le,
        Nat.mod_self, Nat.zero_mod,
        Nat.mod_eq_of_lt hsize, Nat.mod_self])
  omega

/-- Without overflow the loops look at every slot. -/
theorem ProbesAll.of_fits (equals : K → K → Bool) (hfits : ht.doubleHash h + ht.size ≤ 2^32) :
    ProbesAll equals ht h := by
  have hc := coprime_doubleHash hi h
  have hstart := start_lt hi h
  have hiterate : ∀ i, (ht.next h)^[i] (ht.start h) = probe ht.size (ht.start h)
    (ht.doubleHash h) i := by
    intro i
    induction i with
    | zero => exact (probe_zero hstart).symm
    | succ i ih => rw [Function.iterate_succ_apply', ih, next_probe hi hfits]
  refine ⟨?_, ?_, fun key => ⟨_, hashTableSearch_eq equals hi hfits key⟩,
    fun key => ⟨_, insertLoop_start equals hi hfits key, fun hslot => ?_⟩⟩
  · simp only [hiterate]
    exact perm_probes hc hstart
  · rw [hiterate, probe, Nat.add_mul_mod_self_left, Nat.mod_eq_of_lt hstart]
  · cases hx : place ht.free ht.taken (ht.equal equals h key) none (ht.probes h) with
    | replace a => exact .inl ⟨a, rfl⟩
    | put x =>
      obtain ⟨a, ha, rfl, hta, -⟩ := exists_put hi hx hslot
      exact .inr ⟨a, ha, rfl, hta⟩

end

/-- The loops look at every slot exactly if their sums do not overflow. -/
theorem probesAll_iff (equals : K → K → Bool) (ht : Table K D)
    (hi : ht.sizeIndex < hashSizes.length) (h : BitVec 32) :
    ProbesAll equals ht h ↔ 1 + h.toNat % ht.rehash + ht.size ≤ 2^32 :=
  ⟨ProbesAll.fits hi, ProbesAll.of_fits hi equals⟩

/-- In a new table the loops look at every slot for the hash that fails at the last size. -/
theorem probesAll_init : ProbesAll (fun k k' : ℕ => decide (k = k'))
    (mesaHashTableInit ℕ ℕ) 0x7fffffff#32 :=
  (probesAll_iff _ _ (by decide) _).2 (by decide)

/-- At the last size, the loops do not look at every slot for this hash. -/
theorem not_probesAll_last :
    ¬ProbesAll (fun k k' : ℕ => decide (k = k'))
      (⟨fun _ => .free, 30, 0, 0⟩ : Table ℕ ℕ) 0x7fffffff#32 :=
  fun hall => absurd (ProbesAll.fits (by decide) hall) (by decide)

/-! ### A cycle of two slots -/

/-- The hash of all keys. -/
def badHash : BitVec 32 := 0x7fffffff#32

/-- The slots that the loops look at for this hash at the last size. -/
def orbit : List ℕ :=
  [2147483647, 1932735062, 1717986477, 1503237892, 1288489307, 1073740722, 858992137, 644243552,
    429494967, 214746382, 2362230030]

/-- The loops stay in the orbit and do not come back to the first address. -/
theorem next_mem_orbit (hi : new.sizeIndex = 30) {a : ℕ} (ha : a ∈ orbit) :
    new.next badHash a ∈ orbit ∧ new.next badHash a ≠ new.start badHash := by
  have hnext : new.next badHash a = (a + 2147483648) % 2^32 % 2362232233 := by
    rw [Table.next, doubleHash, rehash, size, sizes, hi]
    rfl
  have hstart : new.start badHash = 2147483647 := by
    rw [start, size, sizes, hi]
    rfl
  have hall : ∀ a ∈ orbit, (a + 2147483648) % 2^32 % 2362232233 ∈ orbit ∧
      (a + 2147483648) % 2^32 % 2362232233 ≠ 2147483647 := by decide
  rw [hnext, hstart]
  exact hall a ha

/-- The first probe is in the orbit. -/
theorem start_mem_orbit (hi : new.sizeIndex = 30) : new.start badHash ∈ orbit := by
  rw [start, size, sizes, hi]
  decide

/-- The loop of an insertion only returns with a free slot of the orbit. -/
theorem insertLoop_orbit (hi : new.sizeIndex = 30) {k : K}
    (hdel : ∀ a, (new.table a).isDeleted = false)
    (hne : ∀ a, (new.table a).isEqual equals badHash k = false) {fuel a : ℕ} {f : Found}
    (ha : a ∈ orbit) (h : new.insertLoop equals badHash k fuel a none = some f) :
    ∃ b ∈ orbit, new.table b = .free ∧ f = .available (some b) := by
  induction fuel generalizing a with
  | zero => cases h
  | succ fuel ih =>
    obtain ⟨hmem, hstart⟩ := next_mem_orbit hi ha
    unfold insertLoop at h
    simp only [hne, Bool.false_eq_true, if_false, if_neg hstart] at h
    cases hentry : new.table a with
    | free =>
      rw [hentry] at h
      exact ⟨a, ha, hentry, (some.inj h).symm⟩
    | deleted =>
      have := hdel a
      rw [hentry] at this
      cases this
    | present h' k' d =>
      rw [hentry] at h
      exact ih hmem h

/-! ### Rehashing to the last size -/

/-- The new table after the first `m` slots of the old one: its entries are in the orbit. -/
structure InOrbit (ht : Table K D) (m : ℕ) (new : Table K D) : Prop where
  /-- It has the last size. -/
  sizeIndex : new.sizeIndex = 30
  /-- The entries were moved. -/
  entries : new.entries = (range m).countP ht.taken
  /-- Nothing was deleted. -/
  deletedEntries : new.deletedEntries = 0
  /-- The entries are in the orbit. -/
  inOrbit : new.entries = orbit.countP new.taken
  /-- No slot is marked as deleted. -/
  deleted : ∀ a, (new.table a).isDeleted = false
  /-- The keys are those of the old table. -/
  key : ∀ {a h k d}, new.table a = .present h k d → ∃ b < m, ∃ h' d', ht.table b = .present h' k d'

/-- The entries do not outnumber the slots of the orbit. -/
theorem InOrbit.entries_le {m : ℕ} (h : InOrbit ht m new) : new.entries ≤ 11 :=
  h.inOrbit.trans_le countP_le_length

/-- One slot of the old table: a key that is moved lands in the orbit. -/
theorem InOrbit.step (hbad : ∀ k, hash k = badHash) (h : Inv hash equals ht) {m fuel : ℕ}
    (hnew : InOrbit ht m new) (hm : m < ht.size) {new' : Table K D}
    (heq : rehashEntry equals ht fuel new m = some new') : InOrbit ht (m + 1) new' := by
  have hrange := countP_taken_succ ht m
  have hkey : ∀ {a h k d}, new.table a = .present h k d →
      ∃ b < m + 1, ∃ h' d', ht.table b = .present h' k d' := fun hentry => by
    obtain ⟨b, hb, rest⟩ := hnew.key hentry
    exact ⟨b, by omega, rest⟩
  cases hentry : ht.table m with
  | present h' k d =>
    obtain rfl : h' = badHash := (h.hash hm hentry).trans (hbad k)
    rw [rehashEntry, hentry] at heq
    cases fuel with
    | zero => cases heq
    | succ fuel =>
      have hle := hnew.entries_le
      have hdel := hnew.deletedEntries
      have hmax : new.maxEntries = 2147483648 := by
        rw [maxEntries, sizes, hnew.sizeIndex]
        rfl
      unfold hashTableInsert at heq
      rw [Nat.mod_eq_of_lt (by omega), if_neg (by omega), if_neg (by omega)] at heq
      obtain ⟨⟨t, r⟩, hins, rfl⟩ := map_eq_some_iff.1 heq
      obtain ⟨f, hf, hstore⟩ := map_eq_some_iff.1 hins
      -- no entry of the new table has an equal key
      have hne : ∀ a, (new.table a).isEqual equals badHash k = false := by
        intro a
        by_contra hc
        obtain ⟨k', d', hentry', he⟩ := isEqual_iff.1 (Bool.not_eq_false _ |>.mp hc)
        obtain ⟨b, hb, h'', d'', hentry''⟩ := hnew.key hentry'
        have := h.unique hm (by omega) hentry hentry'' he
        omega
      obtain ⟨b, hb, hfree, rfl⟩ := insertLoop_orbit hnew.sizeIndex hnew.deleted hne
        (start_mem_orbit hnew.sizeIndex) hf
      obtain ⟨rfl, -⟩ := Prod.mk.inj hstore
      have htaken : ht.taken m = true := by rw [taken, hentry]; rfl
      refine ⟨hnew.sizeIndex, ?_, ?_, ?_, fun a => ?_, fun {a h' k' d'} ha => ?_⟩
      · rw [hrange, htaken, ← hnew.entries]
        rfl
      · dsimp only
        rw [hfree]
        exact hdel
      · have hc := new.countP_setEntry (show orbit.Nodup by decide) hb
          (.present badHash k d) Entry.isPresent
        rw [hfree, ← hnew.inOrbit] at hc
        exact hc.symm
      · change ((new.setEntry b (.present badHash k d)).table a).isDeleted = false
        rw [setEntry_table]
        split_ifs
        · rfl
        · exact hnew.deleted a
      · obtain ⟨-, ⟨⟩⟩ | ⟨-, ha⟩ := setEntry_present.1 ha
        · exact ⟨m, Nat.lt_succ_self m, _, d, hentry⟩
        · exact hkey ha
  | _ =>
    rw [rehashEntry, hentry] at heq
    cases heq
    refine ⟨hnew.sizeIndex, ?_, hnew.deletedEntries, hnew.inOrbit, hnew.deleted, hkey⟩
    have htaken : ht.taken m = false := by rw [taken, hentry]; rfl
    rw [hnew.entries, hrange, htaken]
    rfl

/-- Rehashing more than eleven entries to the last size does not return. -/
theorem rehash_eq_none (hbad : ∀ k, hash k = badHash) (h : Inv hash equals ht)
    (hmany : 11 < ht.entries) (fuel : ℕ) :
    mesaHashTableRehash (hashTableInsert equals fuel) ht 30 = none := by
  have hfold : ∀ m ≤ ht.size, ∀ new,
      (range m).foldlM (rehashEntry equals ht fuel) ⟨fun _ => .free, 30, 0, 0⟩ = some new →
      InOrbit ht m new := by
    intro m hm
    induction m with
    | zero =>
      intro new heq
      cases heq
      exact ⟨rfl, rfl, rfl, rfl, fun _ => rfl, fun h => by cases h⟩
    | succ m ih =>
      intro new' heq
      rw [range_succ, foldlM_append] at heq
      obtain ⟨new, hnew, hstep⟩ := bind_eq_some_iff.1 heq
      exact (ih (by omega) new hnew).step hbad h (by omega) (by simpa using hstep)
  rw [mesaHashTableRehash, if_neg (by decide)]
  by_contra hsome
  obtain ⟨new, hnew⟩ := ne_none_iff_exists'.1 hsome
  have horbit := hfold ht.size le_rfl new hnew
  have := horbit.entries_le
  rw [horbit.entries, ← h.entries] at this
  omega

/-! ### The insertion -/

/-- What is reached with a smaller limit is reached with a larger one. -/
theorem Reachable.mono {limit limit' : ℕ} {map : K → Option D} (hle : limit ≤ limit')
    (h : Reachable hash equals limit ht map) : Reachable hash equals limit' ht map := by
  induction h with
  | init => exact .init
  | insert _ hlt hret ih => exact .insert ih (by omega) hret
  | remove _ ha hentry ih => exact .remove ih ha hentry
  | removeKey _ hret ih => exact .removeKey ih hret
  | clear _ ih => exact .clear ih

/-- Tables with `n` entries are reachable. -/
theorem exists_entries (hash : ℕ → BitVec 32) {n : ℕ} (hn : n ≤ 2^30) :
    ∃ (ht : Table ℕ ℕ) (map : ℕ → Option ℕ),
      Reachable hash (fun k k' => decide (k = k')) (2^30) ht map ∧ ht.entries = n ∧
      ∀ k ≥ n, map k = none := by
  have hk := keyOk_eq hash
  induction n with
  | zero => exact ⟨_, _, .init, rfl, fun _ _ => rfl⟩
  | succ n ih =>
    obtain ⟨ht, map, hreach, hentries, hnone⟩ := ih (by omega)
    have href := hreach.refines hk (.inl le_rfl) (by omega)
    obtain ⟨ht', a, hret, -, hnew⟩ := href.insert hk (.inl le_rfl) (by omega) (by omega) n 0
    refine ⟨ht', _, hreach.insert (by omega) hret, ?_, fun k hkn => ?_⟩
    · rw [hnew fun d hd => ?_, hentries]
      have := (href.has n d).2 hd
      rw [hnone n le_rfl] at this
      cases this
    · rw [insertMap, if_neg (by simp; omega)]
      exact hnone k (by omega)

/-- With the hash `0x7fffffff` for all keys, there is a table with `2^30` entries such that no
further insertion returns. -/
theorem insert_does_not_return :
    let hash : ℕ → BitVec 32 := fun _ => 0x7fffffff#32
    let equals : ℕ → ℕ → Bool := fun k k' => decide (k = k')
    KeyOk hash equals ∧ ∃ (ht : Table ℕ ℕ) (map : ℕ → Option ℕ),
      Reachable hash equals (2^31) ht map ∧ ht.entries = 2^30 ∧
      ∀ fuel k d, ht.mesaHashTableInsert hash equals fuel k d = none := by
  intro hash equals
  have hk : KeyOk hash equals := keyOk_eq hash
  obtain ⟨ht, map, hreach, hentries, -⟩ := exists_entries hash le_rfl
  have href := hreach.refines hk (.inl le_rfl) (by omega)
  refine ⟨hk, ht, map, hreach.mono (by omega), hentries, fun fuel k d => ?_⟩
  cases fuel with
  | zero => rfl
  | succ fuel =>
    have hsmall : ∀ i < 29, (sizesAt i).maxEntries < 2^30 := by decide
    have hindex : ht.sizeIndex = 29 := by
      have hlt := href.index le_rfl
      have hload := href.inv.load
      by_contra hne
      have := hsmall ht.sizeIndex (by omega)
      have hmax := ht.maxEntries_eq
      omega
    have hmax : ht.maxEntries = 2^30 := by
      rw [maxEntries, sizes, hindex]
      rfl
    have hre := rehash_eq_none (fun _ => rfl) href.inv (by omega) fuel
    change ht.hashTableInsert equals (fuel + 1) (hash k) k d = none
    unfold hashTableInsert
    rw [if_pos (by omega), hindex, hre]

end Mesa3D.HashTable
