import Mesa3D.Nir.VarMem

/-!
# Lowering of indirect derefs

`nir_lower_indirect_derefs.c`. A load, an interpolation or a store whose deref has array indices
that are not constant becomes a binary search on each of these indices, with the access to an
element at every leaf, and a phi for the result at every if. The indices are compared as signed
numbers of 32 bits, so any value of an index ends at some element.

An assertion that fails is `none`.
-/

namespace Mesa3D.Nir

/-! ### The pass -/

/-- What is emitted in place of an access: the access to an element, or an if on `index < mid` and,
for a load, the phi behind it with its destination and its two sources. -/
inductive Ladder
  | access (i : Instr)
  | ifLt (index mid : ℕ) (thenCode elseCode : Ladder) (phi : Option (ℕ × ℕ × ℕ))

/-- `glsl_get_length`. -/
def glslGetLength : GlslType → ℕ
  | .array _ length => length
  | .struct fields => fields.length
  | .scalar | .vector _ => 0

/-- The deref of the instructions that are lowered. -/
def Op.indirect? : Op → Option Deref
  | .loadDeref _ src => some src
  | .interpDeref _ _ src _ => some src
  | .storeDeref dst _ _ => some dst
  | _ => none

/-- The instruction on another chain. A load gets another destination. -/
def Instr.onDeref (i : Instr) (dest : ℕ) (path : List Link) : Instr :=
  match i.op with
  | .loadDeref _ src => { i with op := .loadDeref dest ⟨src.var, path⟩ }
  | .interpDeref op _ src args => { i with op := .interpDeref op dest ⟨src.var, path⟩ args }
  | .storeDeref dst value writeMask => { i with op := .storeDeref ⟨dst.var, path⟩ value writeMask }
  | _ => i

/-- The code that is emitted, the def of its result, and the next def. -/
abbrev Emitted := Ladder × ℕ × ℕ

/-- `emit_indirect_load_store_deref`, where `k` emits the access to an element. -/
def emitIndirectLoadStoreDeref (isLoad : Bool) (index : ℕ) (k : ℕ → ℕ → Option Emitted)
    (start stop next : ℕ) : Option Emitted :=
  if start + 1 = stop then k start next
  else if start < stop then do
    let mid := start + (stop - start) / 2
    let (thenCode, thenDest, next) ← emitIndirectLoadStoreDeref isLoad index k start mid next
    let (elseCode, elseDest, next) ← emitIndirectLoadStoreDeref isLoad index k mid stop next
    if isLoad then
      some (.ifLt index mid thenCode elseCode (some (next, thenDest, elseDest)), next, next + 1)
    else some (.ifLt index mid thenCode elseCode none, next, next)
  else none
termination_by stop - start

/-- `emit_load_store_deref` from a type and the links that lead to it on. -/
def emitLoadStoreDeref (i : Instr) : GlslType → List Link → List Link → ℕ → Option Emitted
  | _, parent, [], next =>
    some (.access (i.onDeref next parent), next, if i.op.dest.isSome then next + 1 else next)
  | type, parent, .array (.ssa index) :: links, next => do
    let element ← type.follow (.array (.ssa index))
    emitIndirectLoadStoreDeref i.op.dest.isSome index
      (fun n next => emitLoadStoreDeref i element (parent ++ [.array (.const n)]) links next)
      0 (glslGetLength type) next
  | type, parent, link :: links, next => do
    let child ← type.follow link
    emitLoadStoreDeref i child (parent ++ [link]) links next

/-- The link is an array index that is not constant. -/
def Link.isIndirect : Link → Bool
  | .array (.ssa _) => true
  | _ => false

/-- `lower_indirect_derefs_block` for one instruction: what is emitted if the instruction is
lowered. The variables that are `compact` are lowered in all modes. -/
def lowerIndirectDeref (vars : ℕ → VarInfo) (compact : ℕ → Bool) (modes : List VarMode)
    (i : Instr) (next : ℕ) :
    Option (Option Emitted) :=
  match i.op.indirect? with
  | none => some none
  | some d =>
    if d.path.any Link.isIndirect && (modes.contains (vars d.var).mode || compact d.var) then
      (emitLoadStoreDeref i (vars d.var).type [] d.path next).map some
    else some none

/-! ### What the code does -/

section

variable (W : World) (vars : ℕ → VarInfo)

/-- A run of the emitted code. -/
def Ladder.run : Ladder → VarState → VarState
  | .access i, s => (i.run W vars s).1
  | .ifLt index mid thenCode elseCode phi, s =>
    let taken := (BitVec.ofNat 32 (s.index index)).slt (BitVec.ofNat 32 mid)
    let s' := if taken then thenCode.run s else elseCode.run s
    match phi with
    | none => s'
    | some (dest, thenSrc, elseSrc) => s'.setDef dest (s'.env (if taken then thenSrc else elseSrc))

/-- The instruction on another chain. -/
def Instr.onPath (i : Instr) (path : List Link) : Instr := i.onDeref (i.op.dest.getD 0) path

/-- The code that was emitted from the def `next` on has the effect of the instruction on the
chain. -/
structure Does (i : Instr) (next : ℕ) (e : Emitted) (s : VarState) (path : List Link) : Prop where
  /-- Everything but the defs is as after the access. -/
  rest : { e.1.run W vars s with env := s.env } =
    { ((i.onPath path).run W vars s).1 with env := s.env }
  /-- The result is where it is expected. -/
  result : ∀ d ∈ i.op.dest, (e.1.run W vars s).env e.2.1 = ((i.onPath path).run W vars s).1.env d
  /-- The defs from before stay. -/
  frame : ∀ x < next, (e.1.run W vars s).env x = s.env x

end

/-- The chain fits the type, and what is indexed by a value that is not constant is an array that
has elements, and not more than an `int` counts. -/
inductive Indexable : GlslType → List Link → Prop
  | nil (type : GlslType) : Indexable type []
  | element {element : GlslType} {length x : ℕ} {links : List Link}
    (hpos : 0 < length) (hlt : length < 2 ^ 31)
      (h : Indexable element links) : Indexable (.array element length) (.array (.ssa x) :: links)
  | other {type child : GlslType} {link : Link} {links : List Link}
    (hlink : link.isIndirect = false)
      (hchild : type.follow link = some child) (h : Indexable child links) :
      Indexable type (link :: links)

/-- The second chain has an element of the array at each index of the first one that is not
constant, and the element that the index selects if it selects one. The other links are the same. -/
inductive Reaches (ρ : ℕ → ℕ) : GlslType → List Link → List Link → Prop
  | nil (type : GlslType) : Reaches ρ type [] []
  | element {element : GlslType} {length x n : ℕ} {links path : List Link} (hn : n < length)
      (hsel : ρ x < length → n = ρ x) (h : Reaches ρ element links path) :
      Reaches ρ (.array element length) (.array (.ssa x) :: links) (.array (.const n) :: path)
  | other {type child : GlslType} {link : Link} {links path : List Link}
    (hlink : link.isIndirect = false)
      (hchild : type.follow link = some child) (h : Reaches ρ child links path) :
      Reaches ρ type (link :: links) (link :: path)

/-- All indices that are not constant select an element. -/
def InBounds (ρ : ℕ → ℕ) : GlslType → List Link → Prop
  | _, [] => True
  | type, link :: links => (∀ x, link = .array (.ssa x) → ρ x < glslGetLength type) ∧
      ∀ child ∈ type.follow link, InBounds ρ child links

/-! ### The search -/

variable {W : World} {vars : ℕ → VarInfo} {i : Instr} {s : VarState} {next : ℕ}
  {d : Deref} {type child : GlslType}
  {link : Link} {links path parent : List Link}

/-- A signed comparison with a number that an `int` counts. -/
theorem slt_ofNat {x mid : ℕ} (hx : x < 2 ^ 32) (hmid : mid < 2 ^ 31) :
    (BitVec.ofNat 32 x).slt (BitVec.ofNat 32 mid) = true ↔ x < mid ∨ 2 ^ 31 ≤ x := by
  rw [BitVec.slt_iff_toInt_lt, BitVec.toInt_eq_toNat_cond,
    BitVec.toInt_eq_toNat_cond, BitVec.toNat_ofNat,
    BitVec.toNat_ofNat, Nat.mod_eq_of_lt hx, Nat.mod_eq_of_lt (by omega)]
  split_ifs <;> omega

/-- A single access does what the instruction does on its path. -/
theorem Does.access (hd : i.op.indirect? = some d) (path : List Link) :
    Does W vars i next (.access (i.onDeref next path), next,
      if i.op.dest.isSome then next + 1 else next) s path := by
  obtain ⟨id, op⟩ := i
  refine ⟨?_, ?_, fun x hx => Instr.run_env W vars _ s ?_⟩ <;> cases op <;> cases hd <;>
    simp [Op.dest, Ladder.run, Instr.onPath, Instr.onDeref, Instr.run, VarState.setDef,
      VarState.observe] <;> omega

/-- An if around code with the effect. -/
theorem Does.ifLt {c L : Ladder} {dest m next' stop : ℕ}
    (h : Does W vars i m (c, dest, next') s path) (hle : next ≤ m)
    (hstop : m ≤ stop) (hrun : L.run W vars s =
      if i.op.dest.isSome then (c.run W vars s).setDef stop
          ((c.run W vars s).env dest) else c.run W vars s) :
    Does W vars i next (L, stop, if i.op.dest.isSome then stop + 1 else stop) s path := by
  have hframe : ∀ x < next, (c.run W vars s).env x = s.env x := fun x hx => h.frame x (by omega)
  cases hd : i.op.dest with
  | none =>
    simp only [hd, Option.isSome_none, Bool.false_eq_true, if_false] at hrun
    exact ⟨hrun ▸ h.rest, by simp [hd], hrun ▸ hframe⟩
  | some d =>
    simp only [hd, Option.isSome_some, if_true] at hrun
    refine ⟨hrun ▸ h.rest, fun e he => ?_, fun x hx => ?_⟩ <;> rw [hrun, VarState.setDef]
    · exact (Env.set_self _ _ _).trans (h.result e he)
    · exact (Env.set_of_ne _ _ (by omega)).trans (hframe x hx)

/-- The binary search ends at an element, and at the one that the index selects if it is one of
them. -/
theorem emitIndirectLoadStoreDeref_does {index start stop : ℕ} {k : ℕ → ℕ →
    Option Emitted} {S : VarState → Prop}
    {R : VarState → ℕ → List Link → Prop} (hS : ∀ s, S s → s.index index < 2 ^ 32)
    (hk : ∀ n next, ∃ e, k n next = some e ∧ next ≤ e.2.2 ∧ ∀ s, S s → ∃ path, R s n path ∧
      Does W vars i next e s path)
    (hlt : start < stop) (hstop : stop < 2 ^ 31) (next : ℕ) :
    ∃ e, emitIndirectLoadStoreDeref i.op.dest.isSome index k start stop next = some e ∧
      next ≤ e.2.2 ∧
      ∀ s, S s → ∃ n path, n < stop ∧ start ≤ n ∧ (start ≤ s.index index →
        s.index index < stop → n = s.index index) ∧
        R s n path ∧ Does W vars i next e s path := by
  induction hm : stop - start using Nat.strongRecOn generalizing start stop next with
  | ind m ih =>
    rw [emitIndirectLoadStoreDeref]
    by_cases hone : start + 1 = stop
    · rw [if_pos hone]
      obtain ⟨e, he, hle, hdoes⟩ := hk start next
      refine ⟨e, he, hle, fun s hs => ?_⟩
      obtain ⟨path, hR, hpath⟩ := hdoes s hs
      exact ⟨start, path, hlt, Nat.le_refl _, by omega, hR, hpath⟩
    · rw [if_neg hone, if_pos hlt]
      obtain ⟨mid, hmid⟩ : ∃ mid, mid = start + (stop - start) / 2 := ⟨_, rfl⟩
      have h1 : start < mid := by omega
      have h2 : mid < stop := by omega
      obtain ⟨⟨c, dest, n1⟩, hthen, hle1, hdoes1⟩ :=
        ih (mid - start) (by omega) h1 (by omega) next rfl
      obtain ⟨⟨c', dest', n2⟩, helse, hle2, hdoes2⟩ := ih (stop - mid) (by omega) h2 hstop n1 rfl
      dsimp only at hle1 hle2
      refine ⟨(.ifLt index mid c c' (if i.op.dest.isSome then some (n2, dest, dest') else none), n2,
        if i.op.dest.isSome then n2 + 1 else n2), ?_, ?_, fun s hs => ?_⟩
      · simp only [← hmid, hthen, helse, Option.bind_eq_bind, Option.bind_some]
        cases i.op.dest <;> rfl
      · dsimp only
        split_ifs <;> omega
      · have hslt := slt_ofNat (hS s hs) (show mid < 2 ^ 31 by omega)
        by_cases htaken : (BitVec.ofNat 32 (s.index index)).slt (BitVec.ofNat 32 mid) = true
        · have hcmp := hslt.1 htaken
          obtain ⟨n, path, hn, hn', hsel, hR, hdoes⟩ := hdoes1 s hs
          refine ⟨n, path, by omega, hn', by omega, hR, hdoes.ifLt (Nat.le_refl _) (by omega) ?_⟩
          simp only [Ladder.run, htaken, if_true]
          cases i.op.dest <;> rfl
        · have hcmp := mt hslt.2 htaken
          obtain ⟨n, path, hn, hn', hsel, hR, hdoes⟩ := hdoes2 s hs
          refine ⟨n, path, hn, by omega, by omega, hR, hdoes.ifLt hle1 hle2 ?_⟩
          simp only [Ladder.run, htaken]
          cases i.op.dest <;> rfl

/-! ### The chain -/

/-- The code that is emitted for a chain ends at an access that the chain reaches. -/
theorem emitLoadStoreDeref_does (hd : i.op.indirect? = some d)
    (h : Indexable type links) (parent : List Link)
    (next : ℕ) : ∃ e, emitLoadStoreDeref i type parent links next = some e ∧ next ≤ e.2.2 ∧
      ∀ s : VarState, (∀ x ∈ indexDefs links, s.index x < 2 ^ 32) →
        ∃ path, Reaches s.index type links path ∧ Does W vars i next e s (parent ++ path) := by
  induction h generalizing parent next with
  | nil type =>
    refine ⟨_, rfl, ?_, fun s _ => ⟨[], .nil _, ?_⟩⟩
    · dsimp only
      split_ifs <;> omega
    · rw [List.append_nil]
      exact .access hd parent
  | @element element length x links hpos hlt h ih =>
    have hk : ∀ n next, ∃ e, emitLoadStoreDeref i element
      (parent ++ [.array (.const n)]) links next = some e ∧
        next ≤ e.2.2 ∧
          ∀ s : VarState, (∀ y ∈ indexDefs (.array (.ssa x) :: links), s.index y < 2 ^ 32) →
          ∃ path, (∃ rest, path = parent ++ .array (.const n) :: rest ∧
            Reaches s.index element links rest) ∧
            Does W vars i next e s path := by
      intro n next
      obtain ⟨e, he, hle, hdoes⟩ := ih (parent ++ [.array (.const n)]) next
      refine ⟨e, he, hle, fun s hs => ?_⟩
      obtain ⟨rest, hrest, hpath⟩ := hdoes s fun y hy => hs y (List.mem_cons_of_mem _ hy)
      exact ⟨_, ⟨rest, rfl, hrest⟩, by simpa using hpath⟩
    obtain ⟨e, he, hle, hdoes⟩ := emitIndirectLoadStoreDeref_does (fun s hs =>
      hs x List.mem_cons_self) hk hpos hlt next
    refine ⟨e, he, hle, fun s hs => ?_⟩
    obtain ⟨n, path, hn, -, hsel, ⟨rest, rfl, hrest⟩, hpath⟩ := hdoes s hs
    exact ⟨_, .element hn (hsel (Nat.zero_le _)) hrest, hpath⟩
  | @other type child link links hlink hchild h ih =>
    have hother : emitLoadStoreDeref i type parent (link :: links) next =
        emitLoadStoreDeref i child (parent ++ [link]) links next ∧
          indexDefs (link :: links) = indexDefs links := by
      obtain (_ | _) | _ | _ :=
        link <;> first | (simp [emitLoadStoreDeref, hchild, indexDefs]; done) | cases hlink
    obtain ⟨e, he, hle, hdoes⟩ := ih (parent ++ [link]) next
    rw [hother.1, hother.2]
    refine ⟨e, he, hle, fun s hs => ?_⟩
    obtain ⟨path, hpath, hp⟩ := hdoes s hs
    exact ⟨_, .other hlink hchild hpath, by simpa using hp⟩

/-- A chain that is reached with all indices in bounds names what the chain names. -/
theorem Reaches.same {ρ : ℕ → ℕ} (h : Reaches ρ type links path) (hb : InBounds ρ type links) :
    path.length = links.length ∧ type.followPath path = type.followPath links ∧
      fillPath ρ path [] = fillPath ρ links [] ∧ ∀ p, Covers ρ path p = Covers ρ links p := by
  induction h with
  | nil => exact ⟨rfl, rfl, rfl, fun _ => rfl⟩
  | @element element length x n links path hn hsel h ih =>
    obtain rfl := hsel (hb.1 x rfl)
    obtain ⟨h1, h2, h3, h4⟩ := ih (hb.2 _ rfl)
    refine ⟨by simp [h1], by simpa [GlslType.followPath, GlslType.follow] using h2,
      by simp [fillPath, Index.eval, h3], fun p => ?_⟩
    cases p <;> simp [Covers, Link.Selects, Index.eval, h4]
  | @other type child link links path hlink hchild h ih =>
    obtain ⟨h1, h2, h3, h4⟩ := ih (hb.2 _ hchild)
    refine ⟨by simp [h1], by simp [GlslType.followPath, hchild, h2], ?_, fun p => ?_⟩
    · obtain _ | _ | _ := link <;> simp [fillPath, h3]
    · cases p <;> simp [Covers, h4]

/-- An indirect access is the access on the path that its indices reach. -/
theorem run_onPath (hd : i.op.indirect? = some d)
    (h : Reaches s.index (vars d.var).type d.path path)
    (hb : InBounds s.index (vars d.var).type d.path) :
    (i.onPath path).run W vars s = i.run W vars s := by
  obtain ⟨h1, h2, h3, h4⟩ := h.same hb
  have hnames : Deref.Names vars ⟨d.var, path⟩ s.index = d.Names vars s.index := by
    funext v p
    simp [Deref.Names, h4]
  have hload : s.mem.load vars s.index ⟨d.var, path⟩ = s.mem.load vars s.index d := by
    funext c
    simp only [Mem.load, h2, h3]
  obtain ⟨id, op⟩ := i
  cases op <;> cases hd <;>
    simp [Instr.onPath, Instr.onDeref, Instr.run, Op.dest, hnames, hload, Mem.store, component, h1]

/-- What is emitted for an instruction accesses one element, which is in bounds wherever the index
was not constant, and if all these indices were in bounds it does what the instruction did. -/
theorem lowerIndirectDeref_correct (W : World) (vars : ℕ → VarInfo) (compact : ℕ → Bool)
    (modes : List VarMode) (i : Instr) (next : ℕ) {d : Deref} (hd : i.op.indirect? = some d)
    (hpath : Indexable (vars d.var).type d.path)
    (hlower :
      (d.path.any Link.isIndirect && (modes.contains (vars d.var).mode || compact d.var)) = true) :
    ∃ e, lowerIndirectDeref vars compact modes i next = some (some e) ∧
      ∀ s : VarState, (∀ x ∈ indexDefs d.path, s.index x < 2 ^ 32) →
        ∃ path, Reaches s.index (vars d.var).type d.path path ∧ Does W vars i next e s path ∧
          (InBounds s.index (vars d.var).type d.path →
            (i.onPath path).run W vars s = i.run W vars s) := by
  obtain ⟨e, he, -, hdoes⟩ := emitLoadStoreDeref_does hd hpath [] next
  refine ⟨e, by simp only [lowerIndirectDeref, hd, hlower, if_true, he, Option.map_some],
    fun s hs => ?_⟩
  obtain ⟨path, hreach, hp⟩ := hdoes s hs
  exact ⟨path, hreach, hp, run_onPath hd hreach⟩

/-- An element of an array of two scalars, at the index `-1`. -/
theorem lowerIndirectDeref_negative : ∃ path, Reaches (fun _ => 2 ^ 32 - 1) (.array .scalar 2)
    [.array (.ssa 0)] path := by
  obtain ⟨_, -, h⟩ := lowerIndirectDeref_correct ⟨fun _ _ _ => 0, fun _ _ _ => 0,
    fun _ _ => 0, fun _ _ _ => 0⟩
    (fun _ => ⟨.local, .array .scalar 2⟩) (fun _ => false) [.local]
      ⟨0, .loadDeref 1 ⟨0, [.array (.ssa 0)]⟩⟩ 2 rfl
    (.element (by decide) (by decide) (.nil _)) rfl
  obtain ⟨path, hpath, -⟩ := h ⟨fun _ _ => 2 ^ 32 - 1, fun _ _ => 0, [], []⟩
    (by simp [VarState.index])
  exact ⟨path, hpath⟩

/-- The pass on a load of `x[i]` for a shared variable of the given type. -/
def lowerElement (type : GlslType) : Option (Option Emitted) :=
  lowerIndirectDeref (fun _ => ⟨.shared, type⟩) (fun _ => false) [.shared]
    ⟨0, .loadDeref 1 ⟨0, [.array (.ssa 0)]⟩⟩ 2

/-- A component of a shared vector and an element of an array that has none: the length is zero, and
the assertion fails although the chain has a type. -/
theorem lowerIndirectDeref_of_no_length :
    ((GlslType.vector 4).followPath [.array (.ssa 0)] = some .scalar ∧
      lowerElement (.vector 4) = none) ∧
      (GlslType.array .scalar 0).followPath [.array (.ssa 0)] = some .scalar ∧
      lowerElement (.array .scalar 0) = none := by
  have hnone : ∀ k, emitIndirectLoadStoreDeref true 0 k 0 0 2 = none := fun k => by
    rw [emitIndirectLoadStoreDeref, if_neg (by decide), if_neg (by decide)]
  exact ⟨⟨rfl, congrArg (Option.map some) (hnone _)⟩, rfl, congrArg (Option.map some) (hnone _)⟩

end Mesa3D.Nir
