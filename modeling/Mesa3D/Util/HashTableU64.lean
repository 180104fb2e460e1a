import Mesa3D.Util.HashTableCorrect

/-!
# The hash table with keys of 64 bits

The wrapper of `hash_table.c`, where pointers have 8 bytes: a key is cast to a pointer. One key is
the `deleted_key` of the table, so its data is kept beside the table. The key 0 is `NULL`, for which
the assertion of `hash_table_insert` fails.
-/

namespace Mesa3D.HashTable

open Fuel (Returns)
open Function

/-- `_mesa_hash_pointer`. -/
def mesaHashPointer (num : BitVec 64) : BitVec 32 :=
  (num >>> 2 ^^^ num >>> 6 ^^^ num >>> 10 ^^^ num >>> 14).setWidth 32

/-- `_mesa_key_pointer_equal`. -/
def mesaKeyPointerEqual (a b : BitVec 64) : Bool := decide (a = b)

/-- `DELETED_KEY_VALUE`. -/
def deletedKeyValue : BitVec 64 := 1

/-- `struct hash_table_u64`. The data is a pointer, and `none` is `NULL`. -/
structure TableU64 (D : Type) where
  /-- `table`. -/
  table : Table (BitVec 64) D
  /-- `deleted_key_data`. -/
  deletedKeyData : Option D

/-- `_mesa_hash_table_u64_create`. -/
def mesaHashTableU64Create (D : Type) : TableU64 D := ⟨mesaHashTableInit _ D, none⟩

variable {D : Type}

namespace TableU64

/-- `_mesa_hash_table_u64_insert`. -/
def mesaHashTableU64Insert (fuel : ℕ) (ht : TableU64 D) (key : BitVec 64) (data : D) :
    Option (TableU64 D) :=
  if key = deletedKeyValue then some { ht with deletedKeyData := some data }
  -- `assert(key != NULL)` of `hash_table_insert`
  else if key = 0 then none
  else (ht.table.mesaHashTableInsert mesaHashPointer mesaKeyPointerEqual fuel key data).map
    fun r => { ht with table := r.1 }

/-- `hash_table_u64_search`. -/
def hashTableU64Search (fuel : ℕ) (ht : TableU64 D) (key : BitVec 64) : Option (Option ℕ) :=
  ht.table.mesaHashTableSearch mesaHashPointer mesaKeyPointerEqual fuel key

/-- `_mesa_hash_table_u64_search`. -/
def mesaHashTableU64Search (fuel : ℕ) (ht : TableU64 D) (key : BitVec 64) : Option (Option D) :=
  if key = deletedKeyValue then some ht.deletedKeyData
  else (ht.hashTableU64Search fuel key).map fun entry => entry.bind ht.table.data

/-- `_mesa_hash_table_u64_remove`. -/
def mesaHashTableU64Remove (fuel : ℕ) (ht : TableU64 D) (key : BitVec 64) : Option (TableU64 D) :=
  if key = deletedKeyValue then some { ht with deletedKeyData := none }
  else (ht.hashTableU64Search fuel key).map fun entry =>
    { ht with table := ht.table.mesaHashTableRemove entry }

/-- The tables after any calls that return, with fewer than `2^30` entries at each insertion, and
the map from all keys that they stand for. -/
inductive Reachable : TableU64 D → (BitVec 64 → Option D) → Prop
  | create : Reachable (mesaHashTableU64Create D) fun _ => none
  | insert {ht ht' : TableU64 D} {map : BitVec 64 → Option D} {key : BitVec 64} {data : D} :
      Reachable ht map → ht.table.entries < 2^30 →
      Returns (fun fuel => ht.mesaHashTableU64Insert fuel key data) ht' →
      Reachable ht' (update map key (some data))
  | remove {ht ht' : TableU64 D} {map : BitVec 64 → Option D} {key : BitVec 64} :
      Reachable ht map → Returns (fun fuel => ht.mesaHashTableU64Remove fuel key) ht' →
      Reachable ht' (update map key none)

/-- The table has the keys other than `DELETED_KEY_VALUE`. -/
structure Refines (ht : TableU64 D) (map : BitVec 64 → Option D) : Prop where
  /-- The table has all keys but one. -/
  table : HashTable.Refines mesaHashPointer mesaKeyPointerEqual (2^30) ht.table
    (update map deletedKeyValue none)
  /-- The data of that one is beside it. -/
  deleted : ht.deletedKeyData = map deletedKeyValue

variable {ht : TableU64 D} {map : BitVec 64 → Option D} {key : BitVec 64} {data : D} {x : Option D}
  {t : Table (BitVec 64) D}

/-- Inserting an address updates the map at it. -/
theorem insertMap_eq_update (map : BitVec 64 → Option D) (key : BitVec 64) (data : D) :
    insertMap mesaKeyPointerEqual map key data = update map key (some data) := by
  funext k
  simp [insertMap, mesaKeyPointerEqual, update_apply]

/-- Removing an address updates the map at it. -/
theorem removeMap_eq_update (map : BitVec 64 → Option D) (key : BitVec 64) :
    removeMap mesaKeyPointerEqual map key = update map key none := by
  funext k
  simp [removeMap, mesaKeyPointerEqual, update_apply]

/-- Addresses are equal keys only when they have the same hash. -/
theorem keyOk_pointer : KeyOk mesaHashPointer mesaKeyPointerEqual := keyOk_eq _

/-- The deleted key is kept beside the table. -/
theorem Refines.setDeleted (h : Refines ht map) (x : Option D) :
    Refines { ht with deletedKeyData := x } (update map deletedKeyValue x) := by
  refine ⟨?_, ?_⟩
  · rw [update_idem]
    exact h.table
  · rw [update_self]

/-- Every other key is in the table. -/
theorem Refines.setTable (h : Refines ht map) (hkey : key ≠ deletedKeyValue)
    (ht' : HashTable.Refines mesaHashPointer mesaKeyPointerEqual (2^30) t
      (update (update map deletedKeyValue none) key x)) :
    Refines { ht with table := t } (update map key x) := by
  refine ⟨?_, ?_⟩
  · rw [update_comm hkey]
    exact ht'
  · rw [update_of_ne hkey.symm]
    exact h.deleted

/-- An insertion returns, and updates the map. -/
theorem Refines.insert (h : Refines ht map) (hlt : ht.table.entries < 2^30) (hkey : key ≠ 0)
    (data : D) :
    ∃ ht', Returns (fun fuel => ht.mesaHashTableU64Insert fuel key data) ht' ∧
      Refines ht' (update map key (some data)) := by
  by_cases hdel : key = deletedKeyValue
  · exact ⟨_, .of_eq fun fuel => if_pos hdel, hdel ▸ h.setDeleted _⟩
  · obtain ⟨t, a, hret, href, -⟩ :=
      h.table.insert keyOk_pointer (.inl le_rfl) (by decide) hlt key data
    rw [insertMap_eq_update] at href
    simp only [mesaHashTableU64Insert, if_neg hdel, if_neg hkey]
    exact ⟨_, hret.map _, h.setTable hdel href⟩

/-- A removal returns, and updates the map. -/
theorem Refines.remove (h : Refines ht map) (key : BitVec 64) :
    ∃ ht', Returns (fun fuel => ht.mesaHashTableU64Remove fuel key) ht' ∧
      Refines ht' (update map key none) := by
  by_cases hdel : key = deletedKeyValue
  · exact ⟨_, .of_eq fun fuel => if_pos hdel, hdel ▸ h.setDeleted _⟩
  · obtain ⟨t, hret, href⟩ := h.table.removeKey keyOk_pointer key
    rw [removeMap_eq_update] at href
    have hmap := hret.map fun t => { ht with table := t }
    simp only [Table.mesaHashTableRemoveKey, Option.map_map] at hmap
    simp only [mesaHashTableU64Remove, if_neg hdel]
    exact ⟨_, hmap, h.setTable hdel href⟩

/-- A search returns what the map has for the key. -/
theorem Refines.search (h : Refines ht map) (key : BitVec 64) :
    Returns (fun fuel => ht.mesaHashTableU64Search fuel key) (map key) := by
  by_cases hdel : key = deletedKeyValue
  · refine .of_eq fun fuel => ?_
    rw [mesaHashTableU64Search, if_pos hdel, h.deleted, hdel]
  · obtain ⟨x, hret, hx, -⟩ := h.table.search keyOk_pointer key
    rw [update_of_ne hdel] at hx
    simp only [mesaHashTableU64Search, if_neg hdel, ← hx]
    exact hret.map _

/-- The key zero cannot be inserted: an assertion fails. -/
theorem insert_zero (ht' : TableU64 D) :
    ¬ Returns (fun fuel => ht.mesaHashTableU64Insert fuel 0 data) ht' := by
  rintro ⟨n, hn⟩
  cases hn n le_rfl

/-- Every table reached by the calls refines the map that they build. -/
theorem Reachable.refines (h : Reachable ht map) : Refines ht map := by
  induction h with
  | create =>
    refine ⟨?_, rfl⟩
    rw [update_eq_self_iff.2 rfl]
    exact HashTable.Reachable.init.refines keyOk_pointer (.inl le_rfl) (by decide)
  | @insert ht ht' map key data _ hlt hret ih =>
    have hkey : key ≠ 0 := by
      rintro rfl
      exact insert_zero ht' hret
    obtain ⟨t, hret', href⟩ := ih.insert hlt hkey data
    rw [hret.unique hret']
    exact href
  | remove _ hret ih =>
    obtain ⟨t, hret', href⟩ := ih.remove _
    rw [hret.unique hret']
    exact href

/-- The table of 64-bit keys is a map from the keys, after any calls that return: a search for a key
returns the data that was inserted last and not removed since; a removal returns; and an insertion
returns unless its key is 0, which is `NULL`. There are fewer than `2^30` entries at each insertion,
since the sums of the table's addresses overflow for more. -/
theorem hashTableU64_refines (h : Reachable ht map) :
    (∀ key, Returns (fun fuel => ht.mesaHashTableU64Search fuel key) (map key)) ∧
    (∀ key, ∃ ht', Returns (fun fuel => ht.mesaHashTableU64Remove fuel key) ht') ∧
    (ht.table.entries < 2^30 → ∀ key data,
      (∃ ht', Returns (fun fuel => ht.mesaHashTableU64Insert fuel key data) ht') ↔ key ≠ 0) := by
  refine ⟨h.refines.search, fun key => ?_, fun hlt key data => ⟨?_, fun hkey => ?_⟩⟩
  · obtain ⟨ht', hret, -⟩ := h.refines.remove key
    exact ⟨ht', hret⟩
  · rintro ⟨ht', hret⟩ rfl
    exact insert_zero ht' hret
  · obtain ⟨ht', hret, -⟩ := h.refines.insert hlt hkey data
    exact ⟨ht', hret⟩

/-- Data inserted for the keys 7 and `DELETED_KEY_VALUE`, and the latter removed. -/
theorem hashTableU64_refines_two : ∃ ht : TableU64 ℕ,
    Returns (fun fuel => ht.mesaHashTableU64Search fuel 7) (some 5) ∧
    Returns (fun fuel => ht.mesaHashTableU64Search fuel 1) none := by
  have hcreate : Reachable (mesaHashTableU64Create ℕ) _ := .create
  obtain ⟨ht, hret⟩ :=
    ((hashTableU64_refines hcreate).2.2 (show 0 < 2^30 by decide) 7 5).2 (by decide)
  have h7 := hcreate.insert (show 0 < 2^30 by decide) hret
  obtain ⟨ht', hret'⟩ := (hashTableU64_refines h7).2.1 1
  have hsearch := (hashTableU64_refines (h7.remove hret')).1
  exact ⟨ht', hsearch 7, hsearch 1⟩

/-- An insertion with the key 0 into the new table fails the assertion. -/
theorem mesaHashTableU64Insert_zero :
    ¬ ∃ ht, Returns (fun fuel => (mesaHashTableU64Create ℕ).mesaHashTableU64Insert fuel 0 5) ht :=
  fun ⟨ht, hret⟩ => insert_zero ht hret

end TableU64

end Mesa3D.HashTable
