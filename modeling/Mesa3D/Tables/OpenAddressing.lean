import Mathlib.Data.Nat.Prime.Basic
import Mathlib.Data.Nat.ModEq
import Mathlib.Data.List.Range
import Mathlib.Data.List.Nodup
import Mathlib.Data.List.Perm.Subperm

/-!
# Open addressing with double hashing

A key is looked for in the slots `s`, `s + d`, `s + 2 d` and so on modulo the size of the table. If
the size is prime and `d` is not a multiple of it, these are all slots, each once, and then `s`
again (`perm_probes`, `probe_eq_start_iff`).

A search stops at the first slot that is free or has the key (`find`), and an insertion also keeps
the first slot that does not have another key (`place`). Both see a slot if no slot in front of it
is free (`Reaches`).
-/

namespace Mesa3D.OpenAddressing

open List Nat

/-! ### Prime sizes -/

/-- The product of the odd numbers from `a` on, `4 * 2^k` of them. -/
def oddProduct : ℕ → ℕ → ℕ
  | 0, a => a * (a + 2) * ((a + 4) * (a + 6))
  | k + 1, a => oddProduct k a * oddProduct k (a + 8 * 2 ^ k)

variable {a : ℕ} {list : List ℕ} {x : Option ℕ}

/-- Each of its factors divides the product. -/
theorem dvd_oddProduct {k i : ℕ} (hi : i < 4 * 2 ^ k) : a + 2 * i ∣ oddProduct k a := by
  induction k generalizing a i with
  | zero =>
    have hcases : i = 0 ∨ i = 1 ∨ i = 2 ∨ i = 3 := by omega
    rcases hcases with rfl | rfl | rfl | rfl
    · exact (dvd_mul_right a (a + 2)).mul_right _
    · exact (dvd_mul_left (a + 2) a).mul_right _
    · exact (dvd_mul_right (a + 4) (a + 6)).mul_left _
    · exact (dvd_mul_left (a + 6) (a + 4)).mul_left _
  | succ k ih =>
    rw [pow_succ] at hi
    by_cases h : i < 4 * 2 ^ k
    · exact (ih h).mul_right _
    · have := ih (a := a + 8 * 2 ^ k) (i := i - 4 * 2 ^ k) (by omega)
      have heq : a + 8 * 2 ^ k + 2 * (i - 4 * 2 ^ k) = a + 2 * i := by omega
      rw [heq] at this
      exact this.mul_left _

/-- An odd number is prime if it has no common divisor with the odd numbers up to its root. -/
theorem prime_of_coprime_oddProduct {n k : ℕ} (hn : 2 ≤ n) (hodd : n % 2 = 1)
    (hk : n < (8 * 2 ^ k) * (8 * 2 ^ k)) (h : Coprime n (oddProduct k 3)) : n.Prime := by
  by_contra hnot
  have hfac := minFac_prime (show n ≠ 1 by omega)
  have hsq := minFac_sq_le_self (by omega) hnot
  have hdvd := minFac_dvd n
  set m := n.minFac with hm
  have hlt : m < 8 * 2 ^ k := by
    by_contra hge
    have := Nat.mul_le_mul (not_lt.1 hge) (not_lt.1 hge)
    rw [sq] at hsq
    omega
  have hmodd : m % 2 = 1 := by
    obtain ⟨c, hc⟩ := hdvd
    by_contra heven
    have : m % 2 = 0 := by omega
    rw [hc, mul_mod, this] at hodd
    simp at hodd
  have hge : 3 ≤ m := by
    have := hfac.two_le
    omega
  have hprod : m ∣ oddProduct k 3 := by
    have := dvd_oddProduct (k := k) (a := 3) (i := (m - 3) / 2) (by omega)
    rwa [show 3 + 2 * ((m - 3) / 2) = m by omega] at this
  have := Nat.dvd_gcd hdvd hprod
  rw [h] at this
  exact hfac.one_lt.ne' (dvd_one.1 this)

/-! ### Probes -/

/-- The slot that is looked at after `i` steps. -/
def probe (size s d i : ℕ) : ℕ := (s + i * d) % size

/-- The slots in the order in which they are looked at. -/
def probes (size s d : ℕ) : List ℕ := (range size).map (probe size s d)

section Probes

variable {size s d i j : ℕ}

/-- The next probe. -/
theorem probe_succ : probe size s d (i + 1) = (probe size s d i + d) % size := by
  rw [probe, probe, mod_add_mod, succ_mul, add_assoc]

/-- The first probe. -/
theorem probe_zero (hs : s < size) : probe size s d 0 = s := by
  rw [probe, zero_mul, add_zero, mod_eq_of_lt hs]

/-- A probe is a slot. -/
theorem probe_lt (hs : s < size) : probe size s d i < size := mod_lt _ (by omega)

/-- Every step below a prime size is coprime to it. -/
theorem coprime_of_lt (hp : size.Prime) (hd : 0 < d) (hlt : d < size) : Coprime size d :=
  (Nat.Prime.coprime_iff_not_dvd hp).2 (not_dvd_of_pos_of_lt hd hlt)

/-- Different steps of less than a round lead to different slots. -/
theorem probe_inj (hc : Coprime size d) (hi : i < size) (hj : j < size)
    (h : probe size s d i = probe size s d j) : i = j := by
  have h' : i * d ≡ j * d [MOD size] := ModEq.add_left_cancel' s h
  exact (ModEq.cancel_right_of_coprime hc h').eq_of_lt_of_lt hi hj

/-- The first slot is reached again after a whole round. -/
theorem probe_eq_start_iff (hc : Coprime size d) (hs : s < size) (hi : i < size) :
    probe size s d (i + 1) = s ↔ i + 1 = size := by
  constructor
  · intro h
    by_contra hne
    have := probe_inj (s := s) hc (show i + 1 < size by omega) (show 0 < size by omega)
      (by rw [h, probe_zero hs])
    omega
  · intro h
    rw [h, probe, add_mul_mod_self_left, mod_eq_of_lt hs]

/-- Probes with a coprime step do not repeat. -/
theorem nodup_probes (hc : Coprime size d) : (probes size s d).Nodup :=
  Nodup.map_on (fun _ hi _ hj h => probe_inj hc (mem_range.1 hi) (mem_range.1 hj) h)
    nodup_range

/-- There are as many probes as slots. -/
theorem length_probes : (probes size s d).length = size := by simp [probes]

/-- The probes are slots. -/
theorem lt_of_mem_probes (hs : s < size) (ha : a ∈ probes size s d) : a < size := by
  obtain ⟨i, -, rfl⟩ := mem_map.1 ha
  exact probe_lt hs

/-- All slots are looked at. -/
theorem perm_probes (hc : Coprime size d) (hs : s < size) :
    (probes size s d).Perm (range size) := by
  have hsub : probes size s d ⊆ range size := fun b hb =>
    mem_range.2 (lt_of_mem_probes hs hb)
  exact (subperm_of_subset (nodup_probes hc) hsub).perm_of_length_le (by simp [length_probes])

end Probes

/-! ### Search and insertion -/

section Search

variable {free taken hit : ℕ → Bool}

/-- A slot of the list without a free one in front of it. -/
def Reaches (free : ℕ → Bool) : List ℕ → ℕ → Prop
  | [], _ => False
  | b :: list, a => a = b ∨ free b = false ∧ Reaches free list a

/-- The first slot that has the key, up to the first free one. -/
def find (free hit : ℕ → Bool) : List ℕ → Option ℕ
  | [] => none
  | a :: list => if free a then none else if hit a then some a else find free hit list

/-- Where an insertion puts a key: over an equal one, or in the first slot that is not taken. -/
inductive Place
  | replace (a : ℕ)
  | put (a : Option ℕ)

/-- The walk of an insertion, with the first slot so far that is not taken. -/
def place (free taken hit : ℕ → Bool) : Option ℕ → List ℕ → Place
  | avail, [] => .put avail
  | avail, a :: list =>
    let avail := if taken a then avail else avail.or (some a)
    if free a then .put avail
    else if hit a then .replace a
    else place free taken hit avail list

/-- With fewer free slots more is reached. -/
theorem Reaches.mono {free free' : ℕ → Bool} (h : ∀ a, free' a = true → free a = true)
    (hr : Reaches free list a) : Reaches free' list a := by
  induction list with
  | nil => exact hr
  | cons b list ih =>
    refine hr.imp_right fun hr => ⟨?_, ih hr.2⟩
    by_contra hb
    have := h b (by simpa using hb)
    rw [hr.1] at this
    cases this

/-- What is reached is in the list. -/
theorem Reaches.mem (h : Reaches free list a) : a ∈ list := by
  induction list with
  | nil => exact h.elim
  | cons b list ih =>
    rcases h with rfl | ⟨-, h⟩
    · exact mem_cons_self
    · exact mem_cons_of_mem _ (ih h)

/-- What is found is in the list and has the key. -/
theorem find_some (h : find free hit list = some a) : a ∈ list ∧ hit a = true := by
  induction list with
  | nil => cases h
  | cons b list ih =>
    unfold find at h
    split_ifs at h with hf hh
    · cases h
      exact ⟨mem_cons_self, hh⟩
    · exact (ih h).imp_left (mem_cons_of_mem b)

/-- A search without a result has looked at all slots that it reaches. -/
theorem find_none (h : find free hit list = none) (hr : Reaches free list a) (hf : free a = false) :
    hit a = false := by
  induction list with
  | nil => exact hr.elim
  | cons b list ih =>
    unfold find at h
    split_ifs at h with hfb hhb
    · rcases hr with rfl | ⟨hb, -⟩
      · rw [hfb] at hf
        cases hf
      · rw [hfb] at hb
        cases hb
    · rcases hr with rfl | ⟨-, hr⟩
      · simpa using hhb
      · exact ih h hr

/-- An insertion replaces the key that a search finds. -/
theorem find_eq_place (avail : Option ℕ) : find free hit list =
    match place free taken hit avail list with | .replace a => some a | .put _ => none := by
  induction list generalizing avail with
  | nil => rfl
  | cons b list ih =>
    unfold find place
    dsimp only
    split_ifs <;> first | rfl | exact ih _

/-- A key is replaced only where it is. -/
theorem place_replace {avail : Option ℕ} (h : place free taken hit avail list = .replace a) :
    a ∈ list ∧ hit a = true :=
  find_some (by rw [find_eq_place avail, h])

/-- An insertion that does not find an equal key has looked at all slots that it reaches. -/
theorem place_put {avail : Option ℕ} (h : place free taken hit avail list = .put x)
    (hr : Reaches free list a) (hf : free a = false) : hit a = false :=
  find_none (by rw [find_eq_place avail, h]) hr hf

/-- The slot that an insertion has found stays. -/
theorem place_put_avail (h : place free taken hit (some a) list = .put x) : x = some a := by
  induction list with
  | nil => exact (Place.put.inj h).symm
  | cons b list ih =>
    unfold place at h
    simp only [Option.some_or, ite_self] at h
    split_ifs at h
    · exact (Place.put.inj h).symm
    · exact ih h

/-- An insertion finds the first slot that is not taken, if there is one. -/
theorem place_put_none (htaken : ∀ a, free a = true → taken a = false)
    (h : place free taken hit none list = .put x) :
    (∃ a, x = some a ∧ taken a = false ∧ Reaches free list a) ∨ ∀ a ∈ list, taken a = true := by
  induction list with
  | nil => exact .inr fun a ha => by cases ha
  | cons b list ih =>
    unfold place at h
    dsimp only at h
    by_cases htb : taken b = true
    · have hfb : free b = false := by
        by_contra hfb
        rw [htaken b (by simpa using hfb)] at htb
        cases htb
      rw [if_pos htb, hfb] at h
      simp only [Bool.false_eq_true, if_false] at h
      split_ifs at h
      rcases ih h with ⟨a, hx, hta, hr⟩ | hall
      · exact .inl ⟨a, hx, hta, .inr ⟨hfb, hr⟩⟩
      · refine .inr fun a ha => ?_
        rcases mem_cons.1 ha with rfl | ha
        · exact htb
        · exact hall a ha
    · rw [if_neg htb, Option.none_or] at h
      have hb : taken b = false := by simpa using htb
      refine .inl ⟨b, ?_, hb, .inl rfl⟩
      split_ifs at h
      · exact (Place.put.inj h).symm
      · exact place_put_avail h

end Search

end Mesa3D.OpenAddressing
