import Mathlib.Logic.Function.Basic
import Mathlib.Algebra.Group.Nat.Defs

/-!
# The hash table

`hash_table.c`: open addressing with double hashing. A removed entry stays as a tombstone, and the
table is rehashed to the next size when it has too many entries, or to the same size when it has too
many tombstones.

Keys are pointers other than `NULL` and `deleted_key`, so an entry is free, deleted or present. A
pointer to an entry is its address in the table. Sums of addresses and counters are of 32 bits. The
loops go on until they are back at the first address; they take `fuel` and return `none` if it is
not enough.
-/

namespace Mesa3D.HashTable

/-- An element of `hash_sizes`. -/
structure HashSize where
  /-- `max_entries`. -/
  maxEntries : ℕ
  /-- `size`. -/
  size : ℕ
  /-- `rehash`. -/
  rehash : ℕ
deriving DecidableEq

/-- `hash_sizes`. -/
def hashSizes : List HashSize :=
  [⟨2, 5, 3⟩, ⟨4, 7, 5⟩, ⟨8, 13, 11⟩, ⟨16, 19, 17⟩, ⟨32, 43, 41⟩, ⟨64, 73, 71⟩, ⟨128, 151, 149⟩,
    ⟨256, 283, 281⟩, ⟨512, 571, 569⟩, ⟨1024, 1153, 1151⟩, ⟨2048, 2269, 2267⟩, ⟨4096, 4519, 4517⟩,
    ⟨8192, 9013, 9011⟩, ⟨16384, 18043, 18041⟩, ⟨32768, 36109, 36107⟩, ⟨65536, 72091, 72089⟩,
    ⟨131072, 144409, 144407⟩, ⟨262144, 288361, 288359⟩, ⟨524288, 576883, 576881⟩,
    ⟨1048576, 1153459, 1153457⟩, ⟨2097152, 2307163, 2307161⟩, ⟨4194304, 4613893, 4613891⟩,
    ⟨8388608, 9227641, 9227639⟩, ⟨16777216, 18455029, 18455027⟩, ⟨33554432, 36911011, 36911009⟩,
    ⟨67108864, 73819861, 73819859⟩, ⟨134217728, 147639589, 147639587⟩,
    ⟨268435456, 295279081, 295279079⟩, ⟨536870912, 590559793, 590559791⟩,
    ⟨1073741824, 1181116273, 1181116271⟩, ⟨2147483648, 2362232233, 2362232231⟩]

/-- `struct hash_entry`. -/
inductive Entry (K D : Type)
  | free
  | deleted
  | present (hash : BitVec 32) (key : K) (data : D)

variable {K D : Type}

/-- `entry_is_free`. -/
def Entry.isFree : Entry K D → Bool
  | .free => true
  | _ => false

/-- `entry_is_deleted`. -/
def Entry.isDeleted : Entry K D → Bool
  | .deleted => true
  | _ => false

/-- `entry_is_present`. -/
def Entry.isPresent : Entry K D → Bool
  | .present .. => true
  | _ => false

/-- `struct hash_table`. The fields `size`, `rehash` and `max_entries` are those of `size_index`. -/
structure Table (K D : Type) where
  /-- `table`. -/
  table : ℕ → Entry K D
  /-- `size_index`. -/
  sizeIndex : ℕ
  /-- `entries`. -/
  entries : ℕ
  /-- `deleted_entries`. -/
  deletedEntries : ℕ

/-- `_mesa_hash_table_init`. -/
def mesaHashTableInit (K D : Type) : Table K D := ⟨fun _ => .free, 0, 0, 0⟩

variable (ht : Table K D)

namespace Table

/-- The row of `hash_sizes` of a table. -/
def sizes : HashSize := hashSizes.getD ht.sizeIndex ⟨0, 0, 0⟩

/-- The number of slots. -/
def size (ht : Table K D) : ℕ := ht.sizes.size

/-- The modulus of the second hash. -/
def rehash (ht : Table K D) : ℕ := ht.sizes.rehash

/-- The number of entries from which on the table grows. -/
def maxEntries (ht : Table K D) : ℕ := ht.sizes.maxEntries

/-- `start_hash_address`. -/
def start (hash : BitVec 32) : ℕ := hash.toNat % ht.size

/-- `double_hash`. -/
def doubleHash (hash : BitVec 32) : ℕ := 1 + hash.toNat % ht.rehash

/-- The step of the loops to the next address. -/
def next (hash : BitVec 32) (a : ℕ) : ℕ :=
  (a + ht.doubleHash hash) % 2^32 % ht.size

/-- Changes an entry. -/
def setEntry (a : ℕ) (entry : Entry K D) : Table K D :=
  { ht with table := Function.update ht.table a entry }

/-- `_mesa_hash_table_clear`. -/
def mesaHashTableClear : Table K D :=
  { ht with table := fun _ => .free, entries := 0, deletedEntries := 0 }

/-- `_mesa_hash_table_remove`. -/
def mesaHashTableRemove : Option ℕ → Table K D
  | none => ht
  | some a =>
    { ht.setEntry a .deleted with
      entries := ht.entries - 1, deletedEntries := ht.deletedEntries + 1 }

end Table

/-- What the loop of `hash_table_insert` finds: an entry with an equal key, or `available_entry`. -/
inductive Found
  | equal (a : ℕ)
  | available (a : Option ℕ)

section Keys

-- `key_hash_function` and `key_equals_function`
variable (hash : K → BitVec 32) (equals : K → K → Bool)

/-- The entry has the hash, and `key_equals_function` holds of its key. -/
def Entry.isEqual (h : BitVec 32) (key : K) : Entry K D → Bool
  | .present h' key' _ => h' == h && equals key key'
  | _ => false

namespace Table

/-- The loop of `hash_table_search`. -/
def searchLoop (ht : Table K D) (h : BitVec 32) (key : K) : ℕ → ℕ → Option (Option ℕ)
  | 0, _ => none
  | fuel + 1, a =>
    if (ht.table a).isFree then some none
    else if (ht.table a).isEqual equals h key then some (some a)
    else if ht.next h a = ht.start h then some none
    else searchLoop ht h key fuel (ht.next h a)

/-- `hash_table_search`. -/
def hashTableSearch (fuel : ℕ) (ht : Table K D) (h : BitVec 32) (key : K) : Option (Option ℕ) :=
  ht.searchLoop equals h key fuel (ht.start h)

/-- `_mesa_hash_table_search`. -/
def mesaHashTableSearch (fuel : ℕ) (ht : Table K D) (key : K) : Option (Option ℕ) :=
  hashTableSearch equals fuel ht (hash key) key

/-- The loop of `hash_table_insert`. -/
def insertLoop (ht : Table K D) (h : BitVec 32) (key : K) : ℕ → ℕ → Option ℕ → Option Found
  | 0, _, _ => none
  | fuel + 1, a, availableEntry =>
    let availableEntry :=
      if (ht.table a).isPresent then availableEntry else availableEntry.or (some a)
    if (ht.table a).isFree then some (.available availableEntry)
    else if (ht.table a).isEqual equals h key then some (.equal a)
    else if ht.next h a = ht.start h then some (.available availableEntry)
    else insertLoop ht h key fuel (ht.next h a) availableEntry

/-- What `hash_table_insert` does with the entry that it finds. -/
def store (h : BitVec 32) (key : K) (data : D) : Found → Table K D × Option ℕ
  | .equal a => (ht.setEntry a (.present h key data), some a)
  | .available (some a) =>
    ({ ht.setEntry a (.present h key data) with
        entries := ht.entries + 1
        deletedEntries :=
          if (ht.table a).isDeleted then (ht.deletedEntries + (2^32 - 1)) % 2^32
              else ht.deletedEntries }, some a)
  | .available none => (ht, none)

/-- `_mesa_hash_table_rehash`, with the function that inserts. -/
def mesaHashTableRehash (insert : Table K D → BitVec 32 → K → D → Option (Table K D × Option ℕ))
    (ht : Table K D) (newSizeIndex : ℕ) : Option (Table K D) :=
  if newSizeIndex ≥ hashSizes.length then some ht
  else
    (List.range ht.size).foldlM (fun new a =>
      match ht.table a with
      | .present h key data => (insert new h key data).map Prod.fst
      | _ => some new) ⟨fun _ => .free, newSizeIndex, 0, 0⟩

/-- `hash_table_insert`. -/
def hashTableInsert : ℕ → Table K D → BitVec 32 → K → D → Option (Table K D × Option ℕ)
  | 0, _, _, _, _ => none
  | fuel + 1, ht, h, key, data =>
    let rehashed :=
      if ht.entries ≥ ht.maxEntries then
        mesaHashTableRehash (hashTableInsert fuel) ht (ht.sizeIndex + 1)
      else if (ht.deletedEntries + ht.entries) % 2^32 ≥ ht.maxEntries then
        mesaHashTableRehash (hashTableInsert fuel) ht ht.sizeIndex
      else some ht
    match rehashed with
    | none => none
    | some ht => (ht.insertLoop equals h key fuel (ht.start h) none).map (ht.store h key data)

/-- `_mesa_hash_table_insert`. -/
def mesaHashTableInsert (fuel : ℕ) (ht : Table K D) (key : K) (data : D) :
    Option (Table K D × Option ℕ) :=
  hashTableInsert equals fuel ht (hash key) key data

/-- `_mesa_hash_table_remove_key`. -/
def mesaHashTableRemoveKey (fuel : ℕ) (ht : Table K D) (key : K) : Option (Table K D) :=
  (mesaHashTableSearch hash equals fuel ht key).map ht.mesaHashTableRemove

end Table

end Keys

end Mesa3D.HashTable
