import Mesa3D.Util.HashTableCorrect

/-!
# The counters of a set

`set.c` is `hash_table.c` without data, except that `_mesa_set_clear` makes tombstones and does not
count them. If only sets without keys and tombstones are cleared, a set is a hash table, and its
counters are right.
-/

namespace Mesa3D.HashTable

open List
open Fuel (Returns)

variable {K : Type} (hash : K → BitVec 32) (equals : K → K → Bool) (ht : Table K Unit)

/-- `_mesa_set_create`. -/
def mesaSetCreate (K : Type) : Table K Unit := mesaHashTableInit K Unit

namespace Table

/-- `_mesa_set_clear`. -/
def mesaSetClear : Table K Unit :=
  ⟨fun a => if a < ht.size ∧ (ht.table a).isPresent then .deleted
    else ht.table a, ht.sizeIndex, 0, 0⟩

/-- `_mesa_set_add`. -/
def mesaSetAdd (fuel : ℕ) (key : K) : Option (Table K Unit × Option ℕ) :=
  ht.mesaHashTableInsert hash equals fuel key ()

/-- `_mesa_set_remove`. -/
def mesaSetRemove (entry : Option ℕ) : Table K Unit := ht.mesaHashTableRemove entry

/-- `_mesa_set_remove_key`. -/
def mesaSetRemoveKey (fuel : ℕ) (key : K) : Option (Table K Unit) :=
  ht.mesaHashTableRemoveKey hash equals fuel key

/-- The counters are the numbers of present entries and of tombstones. -/
def Truthful : Prop :=
  ht.entries = (range ht.size).countP (fun a => (ht.table a).isPresent) ∧
    ht.deletedEntries = (range ht.size).countP fun a => (ht.table a).isDeleted

end Table

/-- The sets after any calls that return, with fewer than `limit` keys at each insertion, if only
sets without keys and tombstones are cleared. -/
inductive SetReachable (limit : ℕ) : Table K Unit → Prop
  | create : SetReachable limit (mesaSetCreate K)
  | add {ht ht' : Table K Unit} {key : K} {entry : Option ℕ} :
    SetReachable limit ht → ht.entries < limit →
      Returns (fun fuel => ht.mesaSetAdd hash equals fuel key) (ht', entry) → SetReachable limit ht'
  | remove {ht : Table K Unit} {a : ℕ} {h : BitVec 32} {key : K} :
    SetReachable limit ht → a < ht.size →
      ht.table a = .present h key () → SetReachable limit (ht.mesaSetRemove (some a))
  | removeKey {ht ht' : Table K Unit} {key : K} : SetReachable limit ht →
      Returns (fun fuel => ht.mesaSetRemoveKey hash equals fuel key) ht' → SetReachable limit ht'
  | clear {ht : Table K Unit} : SetReachable limit ht → ht.entries = 0 → ht.deletedEntries = 0 →
      SetReachable limit ht.mesaSetClear

variable {hash equals ht} {limit : ℕ}

/-- The counters are right after a set is cleared only if it had neither keys nor tombstones. -/
theorem truthful_mesaSetClear (h : ht.Truthful) :
    ht.mesaSetClear.Truthful ↔ ht.entries = 0 ∧ ht.deletedEntries = 0 := by
  have hentry : ∀ a ∈ range ht.size, (ht.mesaSetClear.table a).isPresent = false ∧
      (ht.mesaSetClear.table a).isDeleted = ((ht.table a).isPresent || (ht.table a).isDeleted) := by
    intro a ha
    cases hx : ht.table a <;> simp [Table.mesaSetClear, hx, mem_range.1 ha,
      Entry.isPresent, Entry.isDeleted]
  have hp : (range ht.size).countP (fun a => (ht.mesaSetClear.table a).isPresent) = 0 :=
    countP_eq_zero.2 fun a ha => by rw [(hentry a ha).1]; exact Bool.false_ne_true
  rw [h.1, h.2, countP_eq_zero, countP_eq_zero, ← forall₂_and]
  refine (and_iff_right hp.symm).trans
    (eq_comm.trans (countP_eq_zero.trans (forall₂_congr fun a ha => ?_)))
  rw [(hentry a ha).2, Bool.or_eq_true, not_or]

/-- Without keys and tombstones there is nothing to clear. -/
theorem mesaSetClear_eq (h : ht.Truthful) (he : ht.entries = 0) (hd : ht.deletedEntries = 0) :
    ht.mesaSetClear = ht := by
  have htable : ht.mesaSetClear.table = ht.table := by
    funext a
    refine if_neg fun ha => ?_
    rw [h.1, countP_eq_zero] at he
    exact he a (mem_range.2 ha.1) ha.2
  show (⟨ht.mesaSetClear.table, _, 0, 0⟩ : Table K Unit) = ht
  rw [htable]
  cases ht
  simp_all

section

variable (hk : KeyOk hash equals) (hlimit : limit ≤ 2^31) (hover : NoOverflow hash limit)
  (h : SetReachable hash equals limit ht)
include hk hlimit hover h

/-- A set is a table with keys only. -/
theorem SetReachable.reachable : ∃ map, Reachable hash equals limit ht map := by
  induction h with
  | create => exact ⟨_, .init⟩
  | add _ hlt hret ih =>
    obtain ⟨map, hmap⟩ := ih
    exact ⟨_, hmap.insert hlt hret⟩
  | remove _ ha hentry ih =>
    obtain ⟨map, hmap⟩ := ih
    exact ⟨_, hmap.remove ha hentry⟩
  | removeKey _ hret ih =>
    obtain ⟨map, hmap⟩ := ih
    exact ⟨_, hmap.removeKey hret⟩
  | clear _ he hd ih =>
    obtain ⟨map, hmap⟩ := ih
    have hinv := (hmap.refines hk hover hlimit).inv
    rw [mesaSetClear_eq ⟨hinv.entries, hinv.deletedEntries⟩ he hd]
    exact ⟨map, hmap⟩

/-- The counters of a set are right after any calls that return, if only sets without keys and
tombstones are cleared: the sum that is compared with `max_entries` does not overflow and stays
within it, so a free entry remains. A clear keeps the counters right only of such a set. -/
theorem mesaSet_counters : ht.Truthful ∧
    (ht.deletedEntries + ht.entries) % 2^32 = ht.entries + ht.deletedEntries ∧
    ht.entries + ht.deletedEntries ≤ ht.maxEntries ∧ (∃ a < ht.size, (ht.table a).isFree = true) ∧
    (ht.mesaSetClear.Truthful ↔ ht.entries = 0 ∧ ht.deletedEntries = 0) := by
  obtain ⟨map, hmap⟩ := h.reachable hk hlimit hover
  have hinv := (hmap.refines hk hover hlimit).inv
  have htruthful : ht.Truthful := ⟨hinv.entries, hinv.deletedEntries⟩
  exact ⟨htruthful, hinv.mod_eq, hinv.load, hinv.exists_free, truthful_mesaSetClear htruthful⟩

end

/-- A key is added. -/
theorem mesaSet_counters_one : ∃ ht : Table ℕ Unit, ht.entries = 1 ∧
    ht.Truthful ∧ ¬ht.mesaSetClear.Truthful := by
  let r := ((mesaSetCreate ℕ).mesaSetAdd (fun _ => 1) (fun k k' => decide (k = k')) 9 1).get rfl
  have hret : Returns (fun fuel => (mesaSetCreate ℕ).mesaSetAdd (fun _ => 1)
    (fun k k' => decide (k = k')) fuel 1) r := by
    refine ⟨2, fun fuel hfuel => ?_⟩
    obtain ⟨n, rfl⟩ := Nat.exists_eq_add_of_le' hfuel
    rfl
  have hadd := SetReachable.add .create (show 0 < 1 from Nat.one_pos) hret
  obtain ⟨htruthful, -, -, -, hclear⟩ := mesaSet_counters (keyOk_eq _)
    (by decide) (.inl (by decide)) hadd
  exact ⟨r.1, rfl, htruthful, fun hc => absurd (hclear.1 hc).1 (by decide)⟩

/-- A key is added, the set is cleared, and the key is added again: the only tombstone is used, and
`deleted_entries` goes below zero. -/
theorem mesaSetClear_underflow :
    (((mesaSetCreate ℕ).mesaSetAdd (fun _ => 1) (fun k k' => decide (k = k')) 9 1).bind fun r =>
        r.1.mesaSetClear.mesaSetAdd (fun _ => 1) (fun k k' => decide (k = k')) 9 1).map
      (fun r => (r.1.deletedEntries, (range r.1.size).countP fun a => (r.1.table a).isDeleted)) =
    some (2^32 - 1, 0) := by decide

end Mesa3D.HashTable
