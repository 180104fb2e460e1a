import Mesa3D.Nir.ParallelCopy
import Mathlib.Data.List.Nodup
import Mathlib.Data.List.Range
import Mathlib.Data.List.Perm.Subperm

/-!
# The arrays of a parallel copy

What the first loops of `resolve_parallel_copy` leave in the arrays: each source and each
destination has one index, `loc` says of the sources that they are where they are, and `pred` has
the source of each destination (`SetUp`). The destinations that are not sources are ready
(`markReady_eq`).
-/

namespace Mesa3D.Nir.ParallelCopy

open List Option
open Function (update update_of_ne update_self)

variable {s s' : State} {size i j : ℕ} {x y : Src}

/-- The source has the index. -/
def State.At (s : State) (i : ℕ) (x : Src) : Prop := i < s.numVals ∧ s.values i = x

/-- A source has only one index. -/
def State.Inj (s : State) : Prop := ∀ i j x, s.At i x → s.At j x → i = j

/-- A value that is found is at the index. -/
theorem findValue_some {values : ℕ → Src} {n : ℕ} (h : findValue values x n = some i) :
    i < n ∧ values i = x := by
  induction n with
  | zero => cases h
  | succ n ih =>
    rw [findValue] at h
    split_ifs at h with heq
    · cases h
      exact ⟨Nat.lt_succ_self _, heq⟩
    · exact ⟨Nat.lt_succ_of_lt (ih h).1, (ih h).2⟩

/-- A value that is not found is at no index. -/
theorem findValue_none {values : ℕ → Src} {n : ℕ} (h : findValue values x n = none) :
    ∀ i < n, values i ≠ x := by
  induction n with
  | zero => exact fun i hi => absurd hi (Nat.not_lt_zero i)
  | succ n ih =>
    rw [findValue] at h
    split_ifs at h with heq
    intro i hi
    rcases Nat.lt_succ_iff_lt_or_eq.1 hi with hi | rfl
    · exact ih h i hi
    · exact heq

/-- The source was given an index, if it had none. -/
structure Indexed (s s' : State) (i : ℕ) (x : Src) : Prop where
  /-- The value is at the index. -/
  here : s'.At i x
  /-- The values from before stay. -/
  old : ∀ j y, s.At j y → s'.At j y
  /-- Only this value is new. -/
  new : ∀ j y, s'.At j y → s.At j y ∨ y = x
  /-- Values still have different places. -/
  inj : s.Inj → s'.Inj
  /-- At most one index is added. -/
  numVals_le : s'.numVals ≤ s.numVals + 1
  /-- The locations stay. -/
  loc : s'.loc = s.loc
  /-- The copies stay. -/
  pred : s'.pred = s.pred
  /-- What is to do stays. -/
  toDo : s'.toDo = s.toDo
  /-- What is ready stays. -/
  ready : s'.ready = s.ready
  /-- The registers stay. -/
  regAlloc : s'.regAlloc = s.regAlloc
  /-- The moves stay. -/
  movs : s'.movs = s.movs

/-- Nothing changes for a value that has an index. -/
theorem indexed_self (h : s.At i x) : Indexed s s i x :=
  ⟨h, fun _ _ h => h, fun _ _ h => .inl h, id, Nat.le_succ _, rfl, rfl, rfl, rfl, rfl, rfl⟩

/-- A new value gets the next index. -/
theorem indexed_addValue (hnew : ∀ i < s.numVals, s.values i ≠ x) (hsize : s.numVals < size) :
    ∃ s', addValue size s x = some (s.numVals, s') ∧ Indexed s s' s.numVals x := by
  refine ⟨_, if_pos hsize, ?_⟩
  have hkeep : ∀ j, j < s.numVals → update s.values s.numVals x j = s.values j := fun j hj =>
    update_of_ne (Nat.ne_of_lt hj) _ _
  have hcases : ∀ j y, (j < s.numVals + 1 ∧ update s.values s.numVals x j = y) →
      s.At j y ∨ j = s.numVals ∧ y = x := by
    rintro j y ⟨hj, hy⟩
    rcases Nat.lt_succ_iff_lt_or_eq.1 hj with hj | rfl
    · exact .inl ⟨hj, (hkeep j hj).symm.trans hy⟩
    · exact .inr ⟨rfl, hy.symm.trans (update_self _ _ _)⟩
  constructor
  case here => exact ⟨Nat.lt_succ_self _, update_self _ _ _⟩
  case old => exact fun j y h => ⟨Nat.lt_succ_of_lt h.1, (hkeep j h.1).trans h.2⟩
  case new => exact fun j y h => (hcases j y h).imp_right And.right
  case inj =>
    intro hinj i j y hi hj
    rcases hcases i y hi with hi | ⟨rfl, rfl⟩ <;> rcases hcases j y hj with hj | ⟨rfl, hy⟩
    · exact hinj i j y hi hj
    · exact absurd (hi.2.trans hy) (hnew i hi.1)
    · exact absurd hj.2 (hnew j hj.1)
    · rfl
  case numVals_le => exact le_rfl
  all_goals rfl

/-- A source gets an index. -/
theorem srcIndex_spec (s : State) (x : Src) (hsize : s.numVals < size) :
    ∃ i s', srcIndex size s x = some (i, s') ∧ Indexed s s' i x := by
  unfold srcIndex
  cases h : findValue s.values x s.numVals with
  | some i => exact ⟨i, s, rfl, indexed_self (findValue_some h)⟩
  | none =>
    obtain ⟨s', heq, hs'⟩ := indexed_addValue (findValue_none h) hsize
    exact ⟨_, s', heq, hs'⟩

/-- A destination that is not one yet gets an index. -/
theorem destIndex_spec {r : ℕ} (hpred : ∀ i, s.At i (.reg r) →
    s.pred i = none) (hsize : s.numVals < size) :
    ∃ i s', destIndex size s r = some (i, s') ∧ Indexed s s' i (.reg r) := by
  unfold destIndex
  cases h : findValue s.values (.reg r) s.numVals with
  | some i =>
    have hi : s.At i (.reg r) := findValue_some h
    exact ⟨i, s, if_pos (hpred i hi), indexed_self hi⟩
  | none =>
    obtain ⟨s', heq, hs'⟩ := indexed_addValue (findValue_none h) hsize
    exact ⟨_, s', heq, hs'⟩

/-! ### The entries -/

/-- The arrays after some entries, none of which is skipped. -/
structure SetUp (done : List Entry) (regAlloc : ℕ) (s : State) : Prop where
  /-- Values have different places. -/
  inj : s.Inj
  /-- There are at most two values for each entry. -/
  numVals_le : s.numVals ≤ 2 * done.length
  /-- Every source has an index. -/
  src_at : ∀ e ∈ done, ∃ i, s.At i e.src
  /-- Every destination has an index. -/
  dest_at : ∀ e ∈ done, ∃ i, s.At i (.reg e.dest)
  /-- Every index is of a source or a destination. -/
  covered : ∀ i x, s.At i x → ∃ e ∈ done, x = e.src ∨ x = .reg e.dest
  /-- The sources are where they are. -/
  loc : ∀ i j, s.loc i = some j ↔ i = j ∧ ∃ e ∈ done, s.At i e.src
  /-- The copies are those of the entries. -/
  pred : ∀ i j, s.pred i = some j ↔ ∃ e ∈ done, s.At i (.reg e.dest) ∧ s.At j e.src
  /-- What is to do are the destinations. -/
  toDo : ∀ i, i ∈ s.toDo ↔ s.pred i ≠ none
  /-- Nothing is twice to do. -/
  toDo_nodup : s.toDo.Nodup
  /-- There is one for each entry. -/
  toDo_length : s.toDo.length = done.length
  /-- Nothing is ready yet. -/
  ready : s.ready = []
  /-- Nothing is moved yet. -/
  movs : s.movs = []
  /-- No register is taken yet. -/
  regAlloc : s.regAlloc = regAlloc

/-- Before the first entry nothing is set up. -/
theorem setUp_init (regAlloc : ℕ) : SetUp [] regAlloc (State.init regAlloc) := by
  have hat : ∀ i x, ¬ (State.init regAlloc).At i x := fun i x h => Nat.not_lt_zero i h.1
  constructor
  case inj => exact fun i j x hi => absurd hi (hat i x)
  case covered => exact fun i x hi => absurd hi (hat i x)
  all_goals simp [State.init]

/-- The indices of sources that there were are the same after others were added. -/
theorem Indexed.at_iff {k : ℕ} (h : Indexed s s' i x) (hinj : s.Inj) (hk : s.At k y) :
    s'.At j y ↔ s.At j y := by
  constructor
  · intro hj
    rw [h.inj hinj j k y hj (h.old k y hk)]
    exact hk
  · exact h.old j y

variable {done : List Entry} {regAlloc : ℕ}

/-- One entry more. -/
theorem exists_mem_snoc {entry : Entry} {P : Entry → Prop} :
    (∃ e ∈ done ++ [entry], P e) ↔ (∃ e ∈ done, P e) ∨ P entry := by
  simp [or_and_right, exists_or]

/-- One more entry that is not skipped. -/
theorem SetUp.addEntry (h : SetUp done regAlloc s) {entry : Entry} (hskip : ¬ entry.Skipped)
    (hdest : entry.dest ∉ done.map Entry.dest)
    (hsize : 2 * (done.length + 1) ≤ size) :
    ∃ s', setUpEntry size s entry = some s' ∧ SetUp (done ++ [entry]) regAlloc s' := by
  have hle := h.numVals_le
  obtain ⟨a, s₁, heq₁, h₁⟩ := srcIndex_spec s entry.src (show s.numVals < size by omega)
  have hle₁ := h₁.numVals_le
  -- the destination has no predecessor yet, since no other entry has it
  have hpred : ∀ i {t : State}, (∀ j y, s.At j y → t.At j y) →
    t.At i (.reg entry.dest) → s.pred i = none := by
    intro i t hold hi
    by_contra hne
    obtain ⟨j, hj⟩ := ne_none_iff_exists'.1 hne
    obtain ⟨e, he, hie, -⟩ := (h.pred i j).1 hj
    exact hdest (mem_map.2 ⟨e, he, Src.reg.inj ((hold i _ hie).2.symm.trans hi.2)⟩)
  obtain ⟨b, s₂, heq₂, h₂⟩ := destIndex_spec (fun i hi => h₁.pred ▸ hpred i h₁.old hi)
    (show s₁.numVals < size by omega)
  have hle₂ := h₂.numVals_le
  have hinj₁ := h₁.inj h.inj
  have hinj₂ := h₂.inj hinj₁
  have hsrc : s₂.At a entry.src := h₂.old a _ h₁.here
  have hlen : s₂.toDo.length < size := by
    rw [h₂.toDo, h₁.toDo, h.toDo_length]
    omega
  -- the indices of the entries that there were are the same
  have hsame : ∀ {k y} i, s.At k y → (s₂.At i y ↔ s.At i y) := fun i hk =>
    (h₂.at_iff hinj₁ (h₁.old _ _ hk)).trans (h₁.at_iff h.inj hk)
  have hsame_src : ∀ e ∈ done, ∀ i, s₂.At i e.src ↔ s.At i e.src := fun e he i => by
    obtain ⟨k, hk⟩ := h.src_at e he
    exact hsame i hk
  have hsame_dest : ∀ e ∈ done, ∀ i, s₂.At i (.reg e.dest) ↔
    s.At i (.reg e.dest) := fun e he i => by
    obtain ⟨k, hk⟩ := h.dest_at e he
    exact hsame i hk
  have hat_src : ∀ i, s₂.At i entry.src ↔ i = a := fun i =>
    ⟨fun hi => hinj₂ i a _ hi hsrc, fun hi => hi ▸ hsrc⟩
  have hat_dest : ∀ i, s₂.At i (.reg entry.dest) ↔ i = b := fun i =>
    ⟨fun hi => hinj₂ i b _ hi h₂.here, fun hi => hi ▸ h₂.here⟩
  -- the predecessors that there were
  have hold : ∀ i j, s₂.pred i = some j ↔ ∃ e ∈ done, s₂.At i (.reg e.dest) ∧
    s₂.At j e.src := fun i j => by
    rw [h₂.pred, h₁.pred, h.pred]
    exact exists_congr fun e => and_congr_right fun he => by rw [hsame_dest e he, hsame_src e he]
  have hfresh : s₂.pred b = none := by
    rw [h₂.pred, h₁.pred]
    exact hpred b (fun j y hj => h₂.old j y (h₁.old j y hj)) h₂.here
  have hset : setUpEntry size s entry = some { s₂ with
      loc := update s₂.loc a (some a)
      pred := update s₂.pred b (some a)
      toDo := b :: s₂.toDo } := by
    unfold setUpEntry push
    rw [if_neg hskip]
    simp only [heq₁, heq₂, bind_eq_bind, bind_some, if_pos hlen]
  refine ⟨_, hset, ?_⟩
  constructor
  case inj => exact hinj₂
  case numVals_le =>
    rw [length_append, length_singleton]
    show s₂.numVals ≤ _
    omega
  case src_at =>
    refine forall_mem_append.2 ⟨fun e he => ?_, by simpa using ⟨a, hsrc⟩⟩
    obtain ⟨i, hi⟩ := h.src_at e he
    exact ⟨i, (hsame_src e he i).2 hi⟩
  case dest_at =>
    refine forall_mem_append.2 ⟨fun e he => ?_, by simpa using ⟨b, h₂.here⟩⟩
    obtain ⟨i, hi⟩ := h.dest_at e he
    exact ⟨i, (hsame_dest e he i).2 hi⟩
  case covered =>
    intro i x hi
    rw [exists_mem_snoc]
    rcases h₂.new i x hi with hi | rfl
    · rcases h₁.new i x hi with hi | rfl
      · exact .inl (h.covered i x hi)
      · exact .inr (.inl rfl)
    · exact .inr (.inr rfl)
  case loc =>
    intro i j
    show update s₂.loc a (some a) i = some j ↔ i = j ∧ ∃ e ∈ done ++ [entry], s₂.At i e.src
    rw [exists_mem_snoc, hat_src]
    by_cases hia : i = a
    · subst hia
      rw [update_self, some.injEq, and_iff_left (.inr rfl)]
    · rw [update_of_ne hia, h₂.loc, h₁.loc, h.loc, or_iff_left hia]
      exact and_congr_right fun _ => exists_congr fun e =>
        and_congr_right fun he => (hsame_src e he i).symm
  case pred =>
    intro i j
    show update s₂.pred b (some a) i = some j ↔
      ∃ e ∈ done ++ [entry], s₂.At i (.reg e.dest) ∧ s₂.At j e.src
    rw [exists_mem_snoc, ← hold, hat_dest, hat_src]
    by_cases hib : i = b
    · -- there is no second predecessor
      subst hib
      rw [update_self, some.injEq, hfresh]
      simp [eq_comm]
    · rw [update_of_ne hib, or_iff_left fun h => hib h.1]
  case toDo =>
    intro i
    show i ∈ b :: s₂.toDo ↔ update s₂.pred b (some a) i ≠ none
    by_cases hib : i = b
    · subst hib
      simp
    · rw [update_of_ne hib, mem_cons, h₂.toDo, h₁.toDo, h.toDo, h₂.pred, h₁.pred]
      exact or_iff_right hib
  case toDo_nodup =>
    refine nodup_cons.2 ⟨fun hb => ?_, ?_⟩
    · rw [h₂.toDo, h₁.toDo, h.toDo, ← h₁.pred, ← h₂.pred] at hb
      exact hb hfresh
    · rw [h₂.toDo, h₁.toDo]
      exact h.toDo_nodup
  case toDo_length =>
    show s₂.toDo.length + 1 = _
    rw [h₂.toDo, h₁.toDo, h.toDo_length, length_append, length_singleton]
  case ready => exact (h₂.ready.trans h₁.ready).trans h.ready
  case movs => exact (h₂.movs.trans h₁.movs).trans h.movs
  case regAlloc => exact (h₂.regAlloc.trans h₁.regAlloc).trans h.regAlloc

/-- The entries that are not skipped. -/
def copies (entries : List Entry) : List Entry := entries.filter fun entry => ¬ entry.Skipped

/-- The copies are counted by `num_copies`. -/
theorem length_copies (entries : List Entry) : (copies entries).length = numCopies entries :=
  (countP_eq_length_filter ..).symm

/-- The loop over the entries sets up every copy. -/
theorem SetUp.entries (entries : List Entry) (h : SetUp done regAlloc s)
    (hnodup : ((done ++ copies entries).map Entry.dest).Nodup)
    (hsize : 2 * (done.length + numCopies entries) ≤ size) :
    ∃ s', entries.foldlM (setUpEntry size) s = some s' ∧
      SetUp (done ++ copies entries) regAlloc s' := by
  induction entries generalizing done s with
  | nil => exact ⟨s, rfl, by rwa [copies, filter_nil, append_nil]⟩
  | cons entry entries ih =>
    by_cases hskip : entry.Skipped
    · have hcopies : copies (entry :: entries) = copies entries :=
        filter_cons_of_neg (by simpa using hskip)
      rw [hcopies] at hnodup ⊢
      obtain ⟨s', hs', hset⟩ := ih h hnodup (by
        rw [← length_copies, hcopies, length_copies] at hsize
        exact hsize)
      refine ⟨s', ?_, hset⟩
      rw [foldlM_cons, setUpEntry, if_pos hskip]
      exact hs'
    · have hcopies : copies (entry :: entries) = entry :: copies entries :=
        filter_cons_of_pos (by simpa using hskip)
      have hsplit : done ++ copies (entry :: entries) = (done ++ [entry]) ++ copies entries := by
        rw [hcopies, append_assoc, singleton_append]
      rw [← length_copies, hcopies, length_cons, length_copies] at hsize
      rw [hsplit] at hnodup ⊢
      have hdest : entry.dest ∉ done.map Entry.dest := by
        rw [map_append, map_append] at hnodup
        have hdone := nodup_append.1 (nodup_append.1 hnodup).1
        exact fun hmem => hdone.2.2 _ hmem _ mem_cons_self rfl
      have hroom : 2 * (done.length + 1) ≤ size := by omega
      obtain ⟨s₁, heq, hs₁⟩ := h.addEntry hskip hdest hroom
      obtain ⟨s', hs', hset⟩ := ih hs₁ hnodup (by
        rw [length_append, length_singleton]
        omega)
      refine ⟨s', ?_, hset⟩
      rw [foldlM_cons, heq]
      exact hs'

/-! ### Destinations that are ready -/

/-- Pushing the indices that satisfy a condition. -/
theorem foldlM_push (p : ℕ → Prop) [DecidablePred p] (l ready : List ℕ)
    (hsize : ready.length + l.countP p ≤ size) :
    l.foldlM (fun ready i => if p i then push size ready i else some ready) ready =
      some ((l.filter p).reverse ++ ready) := by
  induction l generalizing ready with
  | nil => rfl
  | cons i l ih =>
    by_cases hi : p i
    · rw [countP_cons_of_pos (by simpa using hi)] at hsize
      have hpush : push size ready i = some (i :: ready) := if_pos (by omega)
      rw [foldlM_cons, if_pos hi, hpush]
      show l.foldlM _ (i :: ready) = _
      rw [ih (i :: ready) (by rw [length_cons]; omega), filter_cons_of_pos (by simpa using hi)]
      simp
    · rw [countP_cons_of_neg (by simpa using hi)] at hsize
      rw [foldlM_cons, if_neg hi]
      show l.foldlM _ ready = _
      rw [ih ready hsize, filter_cons_of_neg (by simpa using hi)]

/-- The ready destinations are those that no copy reads. -/
theorem SetUp.markReady_eq (h : SetUp done regAlloc s) (hsize : done.length ≤ size) :
    ∃ ready, markReady size s = some ready ∧ ready.Nodup ∧
      ∀ i, i ∈ ready ↔ s.pred i ≠ none ∧ s.loc i = none := by
  have hpred_lt : ∀ i, s.pred i ≠ none → i < s.numVals := fun i hi => by
    obtain ⟨j, hj⟩ := ne_none_iff_exists'.1 hi
    obtain ⟨e, -, he, -⟩ := (h.pred i j).1 hj
    exact he.1
  -- there are not more of them than entries
  have hcount : (range s.numVals).countP (fun i => s.pred i ≠ none ∧
    s.loc i = none) ≤ done.length := by
    rw [countP_eq_length_filter, ← h.toDo_length]
    refine (List.Nodup.subperm (nodup_range.filter _) fun i hi => ?_).length_le
    have := of_decide_eq_true (mem_filter.1 hi).2
    exact (h.toDo i).2 this.1
  refine ⟨((range s.numVals).filter fun i => s.pred i ≠ none ∧ s.loc i = none).reverse, ?_, ?_, ?_⟩
  · have hroom : ([] : List ℕ).length +
        (range s.numVals).countP (fun i => s.pred i ≠ none ∧ s.loc i = none) ≤ size := by
      simpa using hcount.trans hsize
    have hpush := foldlM_push (fun i => s.pred i ≠ none ∧ s.loc i = none) (range s.numVals) [] hroom
    rwa [append_nil] at hpush
  · exact nodup_reverse.2 (nodup_range.filter _)
  · intro i
    rw [mem_reverse, mem_filter, decide_eq_true_eq]
    exact ⟨And.right, fun hi => ⟨mem_range.2 (hpred_lt i hi.1), hi⟩⟩

end Mesa3D.Nir.ParallelCopy
