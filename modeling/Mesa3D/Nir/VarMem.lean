import Mesa3D.Nir.VarSem

/-!
# Cells, loads and copies

What the proofs about passes over derefs need to know about the memory: which cells an access reads
and writes, that these depend on the values of its own indices only, and that copying a deref to an
equal one changes nothing.
-/

namespace Mesa3D.Nir

/-- The SSA defs that a chain uses as indices. -/
def indexDefs : List Link → List ℕ
  | .array (.ssa d) :: ls => d :: indexDefs ls
  | _ :: ls => indexDefs ls
  | [] => []

/-- The SSA def that an operation writes. -/
def Op.dest : Op → Option ℕ
  | .loadDeref dest _ => some dest
  | .derefAtomic _ dest _ _ => some dest
  | .interpDeref _ dest _ _ => some dest
  | .vec dest _ => some dest
  | .alu _ dest _ => some dest
  | .other _ dest _ => dest
  | _ => none

/-- The SSA defs that an operation reads, as operands or as indices of its derefs. -/
def Op.uses : Op → List ℕ
  | .loadDeref _ src => indexDefs src.path
  | .storeDeref dst value _ => value :: indexDefs dst.path
  | .copyDeref dst src => indexDefs dst.path ++ indexDefs src.path
  | .derefAtomic _ _ dst args => indexDefs dst.path ++ args
  | .interpDeref _ _ src args => indexDefs src.path ++ args
  | .call _ params => params
  | .barrier _ => []
  | .emitVertex args => args
  | .discard => []
  | .discardIf cond => [cond]
  | .vec _ srcs => srcs.map Prod.fst
  | .alu _ _ srcs => srcs
  | .other _ _ srcs => srcs

/-- In a block of SSA code no instruction writes a def that an instruction before it reads: the def
would not dominate that use. -/
def DefsBeforeUses : List Instr → Prop
  | [] => True
  | i :: is => (∀ j ∈ is, ∀ d, j.op.dest = some d → d ∉ i.op.uses) ∧ DefsBeforeUses is

/-- An instruction changes no other value than the one it defines. -/
theorem Instr.run_env (W : World) (vars : ℕ → VarInfo) (i : Instr) (s : VarState) {d : ℕ}
    (h : i.op.dest ≠ some d) : (i.run W vars s).1.env d = s.env d := by
  obtain ⟨id, op⟩ := i
  have hne : ∀ e, op.dest = some e → d ≠ e := fun e he hde => h (by rw [hde]; exact he)
  cases op with
  | loadDeref dest src | derefAtomic op dest dst args | interpDeref op dest src args | vec dest srcs
  | alu op dest srcs => exact Env.set_of_ne _ _ (hne dest rfl)
  | other op dest srcs =>
    cases dest with
    | none => rfl
    | some e => exact Env.set_of_ne _ _ (hne e rfl)
  | _ => rfl

section

variable {ρ ρ' : ℕ → ℕ}

/-- The cells that a chain covers depend on the values of its indices only. -/
theorem covers_congr : ∀ (ls : List Link) (_ : ∀ d ∈ indexDefs ls, ρ d = ρ' d) (p : List ℕ),
    Covers ρ ls p = Covers ρ' ls p
  | [], _, _ => rfl
  | _ :: _, _, [] => rfl
  | .array (.const _) :: ls, h, i :: p | .arrayWildcard :: ls, h, i :: p
  | .struct _ :: ls, h, i :: p => by
    simp [Covers, Link.Selects, Index.eval, covers_congr ls h p]
  | .array (.ssa d) :: ls, h, i :: p => by
    have hd : ρ d = ρ' d := h d (by simp [indexDefs])
    have ht := covers_congr ls (fun e he => h e (by simp [indexDefs, he])) p
    simp [Covers, Link.Selects, Index.eval, ht, hd]

/-- A filled chain leads to a cell that the chain covers. -/
theorem covers_fillPath : ∀ (ls : List Link) (ws t : List ℕ),
    Covers ρ ls (fillPath ρ ls ws ++ t) = true
  | [], _, _ => rfl
  | .array _ :: ls, ws, t | .struct _ :: ls, ws, t => by
    simp [Covers, fillPath, Link.Selects, covers_fillPath ls ws t]
  | .arrayWildcard :: ls, ws, t => by
    simp [Covers, fillPath, Link.Selects, covers_fillPath ls ws.tail t]

/-- Links that agree in both directions fill in the same number. -/
theorem compareLinks_equal {a b : Link} (h : compareLinks a b = some (true, true)) : a = b := by
  unfold compareLinks at h
  split at h <;> (try split at h) <;> simp_all

/-- Chains that compare equal are the same chain. -/
theorem comparePaths_equal : ∀ {as bs : List Link} {ab ba : Bool},
    (comparePaths as bs ab ba).equal = true → as = bs ∧ ab = true ∧ ba = true
  | [], [], ab, ba, h => by simpa [comparePaths] using h
  | [], _ :: _, _, _, h | _ :: _, [], _, _, h => by simp [comparePaths] at h
  | a :: as, b :: bs, ab, ba, h => by
    unfold comparePaths at h
    split at h
    · simp [CompareResult.doNotAlias] at h
    · rename_i x y hxy
      obtain ⟨rfl, hx, hy⟩ := comparePaths_equal h
      simp only [Bool.and_eq_true] at hx hy
      obtain ⟨hab, rfl⟩ := hx
      obtain ⟨hba, rfl⟩ := hy
      exact ⟨by rw [compareLinks_equal hxy], hab, hba⟩

variable {a b : Deref} {vars : ℕ → VarInfo} {v : ℕ} {p : List ℕ} {t u : GlslType}

/-- Derefs that compare equal are equal. -/
theorem compareDerefs_equal (h : (compareDerefs a b).equal = true) : a = b := by
  unfold compareDerefs at h
  split_ifs at h with hv
  · obtain ⟨av, ap⟩ := a
    obtain ⟨bv, bp⟩ := b
    obtain ⟨rfl, -, -⟩ := comparePaths_equal h
    simp_all
  · simp [CompareResult.doNotAlias] at h

/-- A deref that contains another has the same variable. -/
theorem compareDerefs_var (h : (compareDerefs a b).aContainsB = true) : a.var = b.var := by
  unfold compareDerefs at h
  split at h
  · assumption
  · simp [CompareResult.doNotAlias] at h

/-- The named cells are cells of the variable that the chain covers. -/
theorem names_iff {d : Deref} :
    d.Names vars ρ v p = true ↔
      v = d.var ∧ Covers ρ d.path p = true ∧ (vars v).type.HasCell p = true := by
  simp [Deref.Names]

/-- A deref that contains another names its cells. -/
theorem names_of_contains (h : (compareDerefs a b).aContainsB = true)
    (hb : b.Names vars ρ v p = true) : a.Names vars ρ v p = true := by
  have hv := compareDerefs_var h
  unfold compareDerefs at h
  rw [if_pos hv] at h
  rw [names_iff] at hb ⊢
  exact ⟨by rw [hb.1, hv], (comparePaths_aContainsB h hb.2.1).2, hb.2.2⟩

/-- A chain that contains another is not longer. -/
theorem comparePaths_length : ∀ {as bs : List Link} {ab ba : Bool},
    (comparePaths as bs ab ba).aContainsB = true → as.length ≤ bs.length
  | [], _, _, _, _ => by simp
  | _ :: _, [], _, _, h => by simp [comparePaths] at h
  | a :: as, b :: bs, ab, ba, h => by
    unfold comparePaths at h
    split at h
    · simp [CompareResult.doNotAlias] at h
    · simpa using comparePaths_length h

/-- Derefs that do not alias cover no cell in common. -/
theorem not_names_of_disjoint (h : (compareDerefs a b).mayAlias = false) (hv : v = a.var)
    (ha : Covers ρ a.path p = true) : b.Names vars ρ v p = false := by
  unfold compareDerefs at h
  split_ifs at h with hne
  · have hb := comparePaths_disjoint h ha
    simp [Deref.Names, hb]
  · simp [Deref.Names, hv, hne]

/-- Exchanging two links exchanges the containment bits. -/
theorem compareLinks_swap (a b : Link) : compareLinks b a = (compareLinks a b).map Prod.swap := by
  rcases a with (i | i) | _ | i <;> rcases b with (j | j) | _ | j <;>
    simp [compareLinks, eq_comm]; grind

/-- Exchanging two paths exchanges the containment bits. -/
theorem comparePaths_swap : ∀ (as bs : List Link) (ab ba : Bool),
    (comparePaths bs as ba ab).aContainsB =
    (comparePaths as bs ab ba).bContainsA
  | [], [], _, _ | [], _ :: _, _, _ | _ :: _, [], _, _ => by simp [comparePaths]
  | a :: as, b :: bs, ab, ba => by
    simp only [comparePaths, compareLinks_swap a b]
    cases compareLinks a b with
    | none => rfl
    | some bits => exact comparePaths_swap as bs _ _

/-- `nir_compare_derefs` is sound for all values of the indices. -/
theorem compareDerefs_sound (vars : ℕ → VarInfo) (a b : Deref) (ρ : ℕ → ℕ) :
    ((compareDerefs a b).mayAlias = false → ∀ v p, ¬ (a.Names vars ρ v p = true ∧
      b.Names vars ρ v p = true)) ∧
      ((compareDerefs a b).aContainsB = true → ∀ v p, b.Names vars ρ v p = true →
        a.Names vars ρ v p = true) ∧
      ((compareDerefs a b).bContainsA = true → ∀ v p, a.Names vars ρ v p = true →
        b.Names vars ρ v p = true) ∧
      ((compareDerefs a b).equal = true → ∀ v p, a.Names vars ρ v p = b.Names vars ρ v p) := by
  refine ⟨fun h v p hnames => ?_, fun h v p hb => names_of_contains h hb,
    fun h v p ha => ?_, fun h v p => ?_⟩
  · obtain ⟨hv, hcovers, -⟩ := names_iff.mp hnames.1
    simp [not_names_of_disjoint h hv hcovers] at hnames
  · refine names_of_contains (?_ : (compareDerefs b a).aContainsB = true) ha
    unfold compareDerefs at h ⊢
    by_cases hv : a.var = b.var
    · rw [if_pos hv] at h
      rwa [if_pos hv.symm, comparePaths_swap]
    · simp [if_neg hv, CompareResult.doNotAlias] at h
  · rw [compareDerefs_equal h]

/-- The cells that a deref names depend on the values of its indices only. -/
theorem names_congr {d : Deref} (h : ∀ x ∈ indexDefs d.path, ρ x = ρ' x) (v : ℕ) (p : List ℕ) :
    d.Names vars ρ v p = d.Names vars ρ' v p := by
  simp [Deref.Names, covers_congr _ h p]

/-- Filling a chain with the numbers that a covered cell has at its wildcards gives the cell
back. -/
theorem copyCell_self : ∀ {ls : List Link} {p : List ℕ}, Covers ρ ls p = true →
    copyCell ρ ls ls p = p
  | [], p, _ => by simp [copyCell, fillPath]
  | _ :: _, [], h => by simp [Covers] at h
  | l :: ls, i :: p, h => by
    simp only [Covers, Bool.and_eq_true] at h
    have ih := copyCell_self h.2
    cases l <;> simp_all [copyCell, fillPath, wildcards, Link.Selects]

/-- A cell after a store. -/
theorem Mem.store_apply (vars : ℕ → VarInfo) (m : Mem) (dst : Deref) (value : Value)
    (mask : ComponentMask) (v : ℕ) (p : List ℕ) :
    m.store vars ρ dst value mask v p =
      if dst.Names vars ρ v p && mask.getLsbD (component dst.path p) then
        value (component dst.path p)
      else m v p := by
  simp only [Mem.store, Mem.update]
  split <;> rfl

/-- A cell after a copy. -/
theorem Mem.copy_apply (vars : ℕ → VarInfo) (m : Mem) (dst src : Deref) (v : ℕ) (p : List ℕ) :
    m.copy vars ρ dst src v p =
      if dst.Names vars ρ v p then m src.var (copyCell ρ dst.path src.path p) else m v p := by
  simp only [Mem.copy, Mem.update]
  split <;> rfl

/-- A self-copy changes nothing. -/
theorem Mem.copy_self (vars : ℕ → VarInfo) (m : Mem) (d : Deref) : m.copy vars ρ d d = m := by
  funext v p
  rw [Mem.copy_apply]
  split
  · obtain ⟨rfl, hc, -⟩ := names_iff.mp ‹_›
    rw [copyCell_self hc]
  · rfl

/-- A load reads cells that its deref covers. -/
theorem Mem.load_congr (vars : ℕ → VarInfo) {m m' : Mem} (src : Deref)
    (h : ∀ p, Covers ρ src.path p = true → m' src.var p = m src.var p) :
    m'.load vars ρ src = m.load vars ρ src := by
  funext c
  unfold Mem.load
  have h₁ := h (fillPath ρ src.path []) (by simpa using covers_fillPath (ρ := ρ) src.path [] [])
  have h₂ := h (fillPath ρ src.path [] ++ [c]) (covers_fillPath _ _ _)
  split
  · rw [h₁]
  · exact h₂

/-- The type that a list of numbers leads to agrees with the type that a chain leads to. -/
theorem follow_child {w : GlslType} {l : Link} {i : ℕ} (hl : t.follow l = some u)
    (hs : l.Selects ρ i = true) (hc : t.child i = some w) : w = u := by
  unfold GlslType.follow at hl
  split at hl <;> simp_all [GlslType.child, Link.Selects]

/-- The rest of a cell that a chain covers is a cell of the type that the chain leads to. -/
theorem hasCell_drop : ∀ {ls : List Link} {t u : GlslType} {p : List ℕ},
    t.followPath ls = some u → Covers ρ ls p = true → t.HasCell p = true →
      u.HasCell (p.drop ls.length) = true
  | [], t, u, p, hu, _, hp => by
    cases hu
    exact hp
  | _ :: _, _, _, [], _, h, _ => by simp [Covers] at h
  | l :: ls, t, u, i :: p, hu, h, hp => by
    simp only [Covers, Bool.and_eq_true] at h
    simp only [GlslType.followPath, Option.bind_eq_some_iff] at hu
    obtain ⟨w, hw, hu⟩ := hu
    cases hc : t.child i with
    | none => simp [GlslType.HasCell, GlslType.at, hc] at hp
    | some w' =>
      have hcw : t.child i = some w := by rw [hc, follow_child hw h.1 hc]
      have hp' : w.HasCell p = true := by
        simpa [GlslType.HasCell, GlslType.at, hcw] using hp
      have ih := hasCell_drop hu h.2 hp'
      exact ih

/-- A cell of a vector or scalar is one of its components. -/
theorem cell_of_isVectorOrScalar (hv : t.isVectorOrScalar = true) (hp : t.HasCell p = true) :
    p.headD 0 < t.vectorElements ∧ p.length ≤ 1 := by
  cases t with
  | scalar =>
    cases p with
    | nil => simp [GlslType.vectorElements]
    | cons i p => simp [GlslType.HasCell, GlslType.at, GlslType.child] at hp
  | vector n =>
    rcases p with _ | ⟨i, p⟩
    · simp [GlslType.HasCell, GlslType.at] at hp
    · by_cases hi : i < n
      · cases p <;> simp_all [GlslType.HasCell, GlslType.at, GlslType.child,
          GlslType.vectorElements]
      · simp [GlslType.HasCell, GlslType.at, GlslType.child, hi] at hp
  | array t n | struct fs => simp [GlslType.isVectorOrScalar] at hv

/-- A cell that a chain to a vector or scalar covers is one of its components. -/
theorem component_lt {ls : List Link} (hu : t.followPath ls = some u)
    (hv : u.isVectorOrScalar = true) (h : Covers ρ ls p = true) (hp : t.HasCell p = true) :
    component ls p < u.vectorElements := (cell_of_isVectorOrScalar hv (hasCell_drop hu h hp)).1

/-- Such a cell is at most one number longer than the chain. -/
theorem cell_length_le {ls : List Link} (hu : t.followPath ls = some u)
    (hv : u.isVectorOrScalar = true) (h : Covers ρ ls p = true) (hp : t.HasCell p = true) :
    p.length ≤ ls.length + 1 := by
  have hlen := (cell_of_isVectorOrScalar hv (hasCell_drop hu h hp)).2
  rw [List.length_drop] at hlen
  omega

end

/-- The full mask has the components below its width. -/
theorem fullMask_getLsbD {n c : ℕ} (hn : n ≤ 8) (hc : c < n) : (fullMask n).getLsbD c = true := by
  simp only [fullMask, BitVec.getLsbD_ofNat, Nat.testBit_two_pow_sub_one, Bool.and_eq_true,
    decide_eq_true_eq]
  omega

end Mesa3D.Nir
