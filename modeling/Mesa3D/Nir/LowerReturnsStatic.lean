import Mathlib.Data.List.Flatten
import Mesa3D.Nir.LowerReturns

/-!
# What return lowering does to the blocks of a function

The pass moves code around and adds flag instructions, but it neither duplicates a block or a def
nor invents one: `Edited` counts the names of the blocks and the defs of a list before and after,
and says where its phis, instructions and conditions come from. Every step of the pass is an edit,
edits compose, and an edit of a part of a list is one of the list.
-/

namespace Mesa3D.Nir

open Structured CfList
open Block (label phisOnly)
open Option List

/-- The defs of a list, in source order. -/
def allDefs (l : SsaList) : List ℕ := l.blocks.flatMap Block.defs

/-- The definitions of an `if` and what follows. -/
@[simp] theorem allDefs_ite (b : Block SsaInstr) (c : ℕ) (t e rest : SsaList) :
    allDefs (.ite b c t e rest) = b.defs ++ (allDefs t ++ allDefs e ++ allDefs rest) := by
  simp [allDefs, blocks]

/-- The definitions of a loop and what follows. -/
@[simp] theorem allDefs_loop (b : Block SsaInstr) (body rest : SsaList) :
    allDefs (.loop b body rest) = b.defs ++ (allDefs body ++ allDefs rest) := by
  simp [allDefs, blocks]

/-- The names of a single block. -/
@[simp] theorem labels_last (b : Block SsaInstr) :
    (CfList.last b : SsaList).labels label = [b.label] := rfl

/-- An instruction that the pass adds: it uses the flag, reads no def, and writes a new one if
any. -/
def FlagInstr (flag base : ℕ) (i : SsaInstr) : Prop :=
  i.op.vars = [flag] ∧ i.srcs = [] ∧ ∀ d, i.dest = some d → base ≤ d

/-- One, for the names of an interval. -/
def within (lo hi y : ℕ) : ℕ := if lo ≤ y ∧ y < hi then 1 else 0

/-- What the code of a list is made of. -/
inductive Item
  | phi (φ : Phi)
  | instr (i : SsaInstr)
  | jump (j : Option Jump)
  | cond (c : ℕ)
  deriving DecidableEq

/-- The defs that an item writes. -/
def Item.defs : Item → List ℕ
  | .phi φ => [φ.dest]
  | .instr i => i.dest.toList
  | .jump _ => []
  | .cond _ => []

/-- The items of a block. -/
def Block.items (b : Block SsaInstr) : List Item :=
  b.phis.map .phi ++ (b.instrs.map .instr ++ [.jump b.jump])

/-- The items of a list. -/
def items (l : SsaList) : List Item := l.blocks.flatMap Block.items ++ l.conds.map .cond

/-- An item that the pass adds. -/
def NewItem (flag : ℕ) (st st' : LowerState) : Item → Prop
  | .phi _ => False
  | .instr i => FlagInstr flag st.nextDef i ∧ st'.returnFlag = true
  | .jump j => j ≠ some .ret
  | .cond c => st.nextDef ≤ c ∧ st'.returnFlag = true

/-- The list `l'` and the state `st'` are what the pass makes of `l` and `st`. -/
structure Edited (flag : ℕ) (l : SsaList) (st : LowerState) (l' : SsaList)
    (st' : LowerState) : Prop where
  /-- Every block stays or is deleted, and new blocks have new names. -/
  labels : ∀ y, (l'.labels label).count y + st'.deleted.count y =
    (l.labels label).count y + st.deleted.count y + within st.nextBlock st'.nextBlock y
  /-- No item is duplicated, and the new ones have new defs. -/
  code : ∃ new : List Item, (∀ a ∈ new, NewItem flag st st' a) ∧
    (∀ d, (new.flatMap Item.defs).count d ≤ within st.nextDef st'.nextDef d) ∧
    ∀ a, (items l').count a ≤ (items l).count a + new.count a
  /-- Blocks are handed out in order. -/
  block_le : st.nextBlock ≤ st'.nextBlock
  /-- Defs are handed out in order. -/
  def_le : st.nextDef ≤ st'.nextDef
  /-- The flag stays. -/
  returnFlag : st.returnFlag = true → st'.returnFlag = true

section

variable {flag : ℕ} {l l' l'' t e body rest : SsaList}
  {b : Block SsaInstr} {c : ℕ}
  {st st' st'' : LowerState}

/-- The items of the last block, counted. -/
theorem count_items_last (b : Block SsaInstr) (a : Item) :
    (items (.last b)).count a = b.items.count a := by
  simp [items, blocks, conds]

/-- The items of an `if`, counted. -/
theorem count_items_ite (a : Item) : (items (.ite b c t e rest)).count a =
    b.items.count a + [Item.cond c].count a + (items t).count a + (items e).count a +
      (items rest).count a := by
  simp only [items, blocks, conds, flatMap_cons, flatMap_append, map_cons, map_append,
    count_append, count_cons, count_nil]
  omega

/-- The items of a loop, counted. -/
theorem count_items_loop (a : Item) : (items (.loop b body rest)).count a =
    b.items.count a + (items body).count a + (items rest).count a := by
  simp only [items, blocks, conds, flatMap_cons, flatMap_append, map_append, count_append]
  omega

/-- The phis of a list are those of its blocks. -/
@[simp] theorem phi_mem_items {φ : Phi} : .phi φ ∈ items l ↔ ∃ b ∈ l.blocks, φ ∈ b.phis := by
  simp [items, Block.items]

/-- The instructions of a list are those of its blocks. -/
@[simp] theorem instr_mem_items {i : SsaInstr} : .instr i ∈ items l ↔
    ∃ b ∈ l.blocks, i ∈ b.instrs := by
  simp [items, Block.items]

/-- The conditions of a list are those of its `if`s. -/
@[simp] theorem cond_mem_items : .cond c ∈ items l ↔ c ∈ l.conds := by
  simp [items, Block.items]

/-- The items define what the list defines. -/
theorem flatMap_items (l : SsaList) : (items l).flatMap Item.defs = allDefs l := by
  have hblock : ∀ b : Block SsaInstr, b.items.flatMap Item.defs = b.defs := by
    intro b
    simp only [Block.items, Block.defs, flatMap_append, flatMap_map, filterMap_eq_flatMap_toList]
    simp [Item.defs, map_eq_flatMap]
  simp [items, allDefs, flatMap_append, flatMap_assoc, hblock, flatMap_map, Item.defs]

/-- Consecutive intervals. -/
theorem within_add {lo mid hi : ℕ} (h₁ : lo ≤ mid) (h₂ : mid ≤ hi) (y : ℕ) :
    within lo mid y + within mid hi y = within lo hi y := by
  unfold within
  split <;> split <;> split <;> omega

variable {a : Item} {inLoop : Bool} {r : SsaList × LowerState} {x : ListCtx}

section

variable (h : Edited flag l st l' st')
include h

/-- An item of the edited list is one of the list, or new. -/
theorem Edited.mem_items (ha : a ∈ items l') : a ∈ items l ∨ NewItem flag st st' a := by
  obtain ⟨new, hnew, -, hle⟩ := h.code
  have hpos := Nat.lt_of_lt_of_le (count_pos_iff.mpr ha) (hle a)
  by_cases hmem : a ∈ new
  · exact .inr (hnew a hmem)
  · rw [count_eq_zero.mpr hmem] at hpos
    exact .inl (count_pos_iff.mp hpos)

/-- There are no new phis. -/
theorem Edited.phis : ∀ b' ∈ l'.blocks, ∀ φ ∈ b'.phis, ∃ b ∈ l.blocks, φ ∈ b.phis :=
  fun b' hb' _ hφ => phi_mem_items.mp
    ((h.mem_items (phi_mem_items.mpr ⟨b', hb', hφ⟩)).resolve_right id)

/-- The new instructions are those of the flag. -/
theorem Edited.instrs : ∀ b' ∈ l'.blocks, ∀ i ∈ b'.instrs,
    (∃ b ∈ l.blocks, i ∈ b.instrs) ∨ FlagInstr flag st.nextDef i ∧ st'.returnFlag = true :=
  fun b' hb' _ hi => (h.mem_items (instr_mem_items.mpr ⟨b', hb', hi⟩)).imp_left instr_mem_items.mp

/-- The new conditions are new defs. -/
theorem Edited.conds : ∀ c ∈ l'.conds, c ∈ l.conds ∨ st.nextDef ≤ c ∧ st'.returnFlag = true :=
  fun _ hc => (h.mem_items (cond_mem_items.mpr hc)).imp_left cond_mem_items.mp

/-- No def is duplicated, and new defs have new names. -/
theorem Edited.defs (d : ℕ) :
    (allDefs l').count d ≤ (allDefs l).count d + within st.nextDef st'.nextDef d := by
  obtain ⟨new, -, hdefs, hle⟩ := h.code
  obtain ⟨m, hperm, hsub⟩ : (items l').Subperm (items l ++ new) :=
    subperm_ext_iff.mpr fun a _ => by simpa only [count_append] using hle a
  have hcount := (hsub.flatMap Item.defs).count_le d
  have hnew := hdefs d
  rw [(hperm.flatMap_right _).count_eq, flatMap_append, count_append, flatMap_items,
    flatMap_items] at hcount
  omega

end

/-- Nothing is edited. -/
theorem Edited.refl : Edited flag l st l st where
  labels y := by simp [within]
  code := ⟨[], by simp, by simp, by simp⟩
  block_le := Nat.le_refl _
  def_le := Nat.le_refl _
  returnFlag h := h

/-- An item that is new stays so for an earlier state. -/
theorem NewItem.mono {new new' : LowerState} (h : NewItem flag st' new a)
    (hdef : st.nextDef ≤ st'.nextDef) (hflag : new.returnFlag = true → new'.returnFlag = true) :
    NewItem flag st new' a := by
  cases a with
  | phi | jump => exact h
  | instr i => exact ⟨⟨h.1.1, h.1.2.1, fun d hd => Nat.le_trans hdef (h.1.2.2 d hd)⟩, hflag h.2⟩
  | cond c => exact ⟨Nat.le_trans hdef h.1, hflag h.2⟩

/-- Edits compose. -/
theorem Edited.trans (h : Edited flag l st l' st') (h' : Edited flag l' st' l'' st'') :
    Edited flag l st l'' st'' where
  labels y := by
    have h₁ := h.labels y
    have h₂ := h'.labels y
    have h₃ := within_add h.block_le h'.block_le y
    omega
  code := by
    obtain ⟨new, hnew, hdefs, hle⟩ := h.code
    obtain ⟨new', hnew', hdefs', hle'⟩ := h'.code
    refine ⟨new ++ new', fun a ha => ?_, fun d => ?_, fun a => ?_⟩
    · rcases mem_append.mp ha with ha | ha
      · exact (hnew a ha).mono (Nat.le_refl _) h'.returnFlag
      · exact (hnew' a ha).mono h.def_le id
    · have h₁ := hdefs d
      have h₂ := hdefs' d
      have h₃ := within_add h.def_le h'.def_le d
      rw [flatMap_append, count_append]
      omega
    · have h₁ := hle a
      have h₂ := hle' a
      rw [count_append]
      omega
  block_le := Nat.le_trans h.block_le h'.block_le
  def_le := Nat.le_trans h.def_le h'.def_le
  returnFlag hf := h'.returnFlag (h.returnFlag hf)

/-- A part `p` of a list is edited, and the rest of the list stays. -/
theorem Edited.of_part {p p' : SsaList} (h : Edited flag p st p' st')
    (hlabels : ∀ y, (l'.labels label).count y + (p.labels label).count y =
        (l.labels label).count y + (p'.labels label).count y := by
      intro y; simp only [labels_ite, labels_loop, count_append, count_cons]; omega)
    (hitems : ∀ a, (items l').count a + (items p).count a =
        (items l).count a + (items p').count a := by
      intro a; simp only [count_items_ite, count_items_loop]; omega) :
    Edited flag l st l' st' where
  labels y := by
    have h₁ := h.labels y
    have h₂ := hlabels y
    omega
  code := by
    obtain ⟨new, hnew, hdefs, hle⟩ := h.code
    refine ⟨new, hnew, hdefs, fun a => ?_⟩
    have h₁ := hle a
    have h₂ := hitems a
    omega
  block_le := h.block_le
  def_le := h.def_le
  returnFlag := h.returnFlag

/-! ## The ends of lists -/

/-- The names of a list whose first block is replaced by one of the same name. -/
theorem labels_setFirst (b : Block SsaInstr) (l : SsaList) (h : b.label = l.first.label) :
    (l.setFirst b).labels label = l.labels label := by
  rw [labels, labels, blocks_setFirst, l.blocks_eq_cons]
  simp [h]

/-- The items of a list whose first block is replaced. -/
theorem items_setFirst (b : Block SsaInstr) (l : SsaList) (a : Item) :
    (items (l.setFirst b)).count a + l.first.items.count a =
    (items l).count a + b.items.count a := by
  rw [items, items, blocks_setFirst, conds_setFirst, l.blocks_eq_cons]
  simp only [flatMap_cons, count_append, tail_cons]
  omega

/-- The defs of a list whose first block is replaced. -/
theorem allDefs_setFirst (b : Block SsaInstr) (l : SsaList) (d : ℕ) :
    (allDefs (l.setFirst b)).count d + l.first.defs.count d =
      (allDefs l).count d + b.defs.count d := by
  rw [allDefs, allDefs, blocks_setFirst, l.blocks_eq_cons]
  simp only [flatMap_cons, count_append, tail_cons]
  omega

/-- The names of a list without the phis of its first block. -/
@[simp] theorem labels_dropPhis (l : SsaList) :
    (dropPhis l).labels label = l.labels label := labels_setFirst _ l rfl

/-- The items of a list without the phis of its first block. -/
theorem items_dropPhis (l : SsaList) (a : Item) :
    (items (dropPhis l)).count a + (l.first.phis.map Item.phi).count a = (items l).count a := by
  have h := items_setFirst l.first.dropPhis l a
  simp only [Block.items, Block.dropPhis, map_nil, nil_append, count_append] at h
  rw [dropPhis, Block.dropPhis]
  omega

/-- The defs of a list without the phis of its first block. -/
theorem allDefs_dropPhis (l : SsaList) (d : ℕ) :
    (allDefs (dropPhis l)).count d + (l.first.phis.map Phi.dest).count d = (allDefs l).count d := by
  have h := allDefs_setFirst l.first.dropPhis l d
  simp only [Block.defs, Block.dropPhis, map_nil, nil_append, count_append] at h
  rw [dropPhis, Block.dropPhis]
  omega

/-- The conditions of a list without the phis of its first block. -/
@[simp] theorem conds_dropPhis (l : SsaList) : (dropPhis l).conds = l.conds := by
  rw [dropPhis, conds_setFirst]

/-- An edit that keeps the phis of the first block is one behind them. -/
theorem Edited.dropPhis (h : Edited flag l st l' st') (hphis : l'.first.phis = l.first.phis) :
    Edited flag (dropPhis l) st (dropPhis l') st' := by
  refine h.of_part (fun y => ?_) fun a => ?_
  · rw [labels_dropPhis, labels_dropPhis, Nat.add_comm]
  · have h₁ := items_dropPhis l a
    have h₂ := items_dropPhis l' a
    rw [hphis] at h₂
    omega

/-- The last block of a list without the phis of its first block. -/
theorem final_label_dropPhis (l : SsaList) : (dropPhis l).final.label = l.final.label := by
  rw [dropPhis, final_setFirst]
  cases l <;> rfl

/-- The names of a list whose last block is renamed. -/
theorem labels_renameFinal (y : ℕ) (l : SsaList) (z : ℕ) :
    ((renameFinal y l).labels label).count z + [l.final.label].count z =
      (l.labels label).count z + [y].count z := by
  obtain ⟨init, h₁, h₂⟩ := l.blocks_graft fun b => .last { b with label := y }
  rw [renameFinal, labels, labels, h₁, h₂]
  simp only [blocks, map_append, map_cons, map_nil, count_append]
  omega

/-- The items of a list whose last block is renamed. -/
theorem items_renameFinal (y : ℕ) (l : SsaList) : items (renameFinal y l) = items l := by
  obtain ⟨init, h₁, h₂⟩ := l.blocks_graft fun b => .last { b with label := y }
  rw [renameFinal, items, items, h₁, h₂, conds_graft]
  simp [blocks, conds, Block.items]

/-- The name of the renamed block. -/
theorem final_label_renameFinal (y : ℕ) (l : SsaList) : (renameFinal y l).final.label = y := by
  rw [renameFinal, final_graft]
  rfl

/-- The names of a list with another one at its end. -/
theorem labels_reinsertAtEnd (rest l : SsaList) (z : ℕ) :
    ((reinsertAtEnd rest l).labels label).count z + [rest.final.label].count z =
      (l.labels label).count z + (rest.labels label).count z := by
  obtain ⟨init, h₁, h₂⟩ := l.blocks_graft (stitch rest)
  have h₃ := labels_renameFinal l.final.label rest z
  have h₄ : (stitch rest l.final).labels label = (renameFinal l.final.label rest).labels label :=
    labels_setFirst _ _ rfl
  rw [← h₄, labels] at h₃
  rw [reinsertAtEnd, labels, h₂, labels, h₁]
  simp only [map_append, count_append, map_cons, map_nil]
  omega

/-- The items of a block stitched to a list: the phis of the list and the jump of the block are
gone. -/
theorem items_stitch (rest : SsaList) (b : Block SsaInstr) (a : Item) :
    (items (stitch rest b)).count a + (rest.first.phis.map Item.phi).count a +
    [Item.jump b.jump].count a =
      b.items.count a + (items rest).count a := by
  have hfirst : (renameFinal b.label rest).first.items = rest.first.items := by
    rw [renameFinal, first_graft]
    cases rest <;> rfl
  have h := items_setFirst ⟨(renameFinal b.label rest).first.label, b.phis,
    b.instrs ++ rest.first.instrs, rest.first.jump⟩ (renameFinal b.label rest) a
  rw [items_renameFinal, hfirst] at h
  rw [stitch]
  simp only [Block.items, map_append, count_append] at h ⊢
  omega

/-- The items of a list with another one at its end. -/
theorem items_reinsertAtEnd (rest l : SsaList) (a : Item) :
    (items (reinsertAtEnd rest l)).count a + (rest.first.phis.map Item.phi).count a +
      [Item.jump l.final.jump].count a = (items l).count a + (items rest).count a := by
  obtain ⟨init, h₁, h₂⟩ := l.blocks_graft (stitch rest)
  have h₃ := items_stitch rest l.final a
  rw [reinsertAtEnd, items, h₂, conds_graft]
  rw [items] at h₃ ⊢
  simp only [h₁, flatMap_append, map_append, count_append, flatMap_cons, flatMap_nil,
    append_nil] at h₃ ⊢
  omega

/-- The names of a list without its last one. -/
theorem count_labels_dropLast (l : SsaList) (z : ℕ) :
    ((l.labels label).dropLast).count z + [l.final.label].count z =
      (l.labels label).count z := by
  obtain ⟨init, h, -⟩ := l.blocks_graft last
  rw [labels, h, map_append, map_cons, map_nil, dropLast_concat, count_append]

/-! ## The steps of the pass -/

/-- The items of a block with phis only, counted. -/
theorem count_items_phisOnly (label : ℕ) (phis : List Phi) (j : Option Jump) (a : Item) :
    (phisOnly label phis j).items.count a = (phis.map Item.phi).count a +
    [Item.jump j].count a := by
  simp [phisOnly, Block.items]

/-- `predicate_following` is an edit. -/
theorem predicateFollowing_edited (h : predicateFollowing flag inLoop rest st = some r) :
    Edited flag rest st r.1 r.2 := by
  unfold predicateFollowing at h
  split at h
  · cases h
    exact .refl
  split at h
  · simp at h
  rename_i hflag
  have hflag : st.returnFlag = true := by simpa using hflag
  -- The load, the condition and three jumps are new.
  have hnew : ∀ j : Option Jump, j ≠ some .ret →
    ∀ a ∈ [Item.instr ⟨.loadVar flag, some st.nextDef, []⟩,
      .cond st.nextDef, .jump none, .jump j, .jump none], NewItem flag st
        { st with nextBlock := st.nextBlock + 3, nextDef := st.nextDef + 1 } a := by
    intro j hj a ha
    simp only [mem_cons, not_mem_nil, or_false] at ha
    rcases ha with rfl | rfl | rfl | rfl | rfl
    · exact ⟨⟨rfl, rfl, fun d hd => Nat.le_of_eq (by simpa using hd)⟩, hflag⟩
    · exact ⟨Nat.le_refl _, hflag⟩
    · exact nofun
    · exact hj
    · exact nofun
  have hdefs : ∀ j d, ([Item.instr ⟨.loadVar flag, some st.nextDef, []⟩,
    .cond st.nextDef, .jump none, .jump j,
      .jump none].flatMap Item.defs).count d ≤ within st.nextDef (st.nextDef + 1) d := by
    intro j d
    simp only [Item.defs, flatMap_cons, flatMap_nil, toList_some, append_nil,
      count_cons, count_nil, within, beq_iff_eq]
    split <;> split <;> omega
  have hphis := items_dropPhis rest
  cases inLoop with
  | true =>
    cases h
    refine ⟨fun y => ?_, ⟨_, hnew (some .brk) (by simp), hdefs _,
      fun a => ?_⟩, by simp, by simp, id⟩
    · simp only [labels_ite, labels_last, phisOnly, labels_dropPhis, count_append,
        count_cons, count_nil, within, beq_iff_eq]
      split <;> split <;> split <;> split <;> omega
    · have h₁ := hphis a
      simp only [count_items_ite, count_items_last, phisOnly, Block.items, count_append, count_cons,
        map_cons, map_nil, count_nil]
      omega
  | false =>
    cases h
    refine ⟨fun y => ?_, ⟨_, hnew none (by simp), hdefs _, fun a => ?_⟩, by simp, by simp, id⟩
    · have h₁ := labels_renameFinal (st.nextBlock + 2) (dropPhis rest) y
      rw [final_label_dropPhis, labels_dropPhis] at h₁
      simp only [labels_ite, labels_last, phisOnly,
        count_append, count_cons, count_nil, within, beq_iff_eq] at h₁ ⊢
      split <;> split <;> split <;> split at h₁ <;> split at h₁ <;> split <;> omega
    · have h₁ := hphis a
      simp only [count_items_ite, count_items_last, phisOnly, items_renameFinal, Block.items,
        count_append, count_cons, map_cons, map_nil, count_nil]
      omega

/-- An edit that hands out no names: it adds jumps and instructions without a def. -/
theorem Edited.of_moved (deleted : List ℕ) (new : List Item) (hblock : st'.nextBlock = st.nextBlock)
    (hdef : st'.nextDef = st.nextDef) (hflag : st.returnFlag = true → st'.returnFlag = true)
    (hdeleted : st'.deleted = st.deleted ++ deleted)
    (hlabels : ∀ y, (l'.labels label).count y + deleted.count y = (l.labels label).count y)
    (hnew : ∀ a ∈ new, NewItem flag st st' a ∧ a.defs = [])
    (hitems : ∀ a, (items l').count a ≤ (items l).count a + new.count a) :
    Edited flag l st l' st' where
  labels y := by
    have := hlabels y
    rw [hdeleted, hblock, count_append, within, if_neg (by omega)]
    omega
  code := by
    refine ⟨new, fun a ha => (hnew a ha).1, fun d => ?_, hitems⟩
    rw [flatMap_eq_nil_iff.mpr fun a ha => (hnew a ha).2]
    exact Nat.zero_le _
  block_le := Nat.le_of_eq hblock.symm
  def_le := Nat.le_of_eq hdef.symm
  returnFlag := hflag

/-- What is left of deleted code is a block with its phis, which has no jump. -/
theorem newItem_jump_none : ∀ a ∈ [Item.jump none], NewItem flag st st' a ∧ a.defs = [] := by
  intro a ha
  obtain rfl := mem_singleton.mp ha
  exact ⟨nofun, rfl⟩

/-- The end of `lower_returns_in_if` is an edit. -/
theorem lowerReturnsInIf_edited {pt pe : Bool}
    (h : lowerReturnsInIf flag inLoop b c t e rest pt pe st = some r) :
    Edited flag (.ite b c t e rest) st r.1 r.2 := by
  unfold lowerReturnsInIf at h
  split at h
  · cases h
    exact .refl
  split at h
  · obtain ⟨a, ha, rfl⟩ := map_eq_some_iff.mp h
    exact (predicateFollowing_edited ha).of_part
  simp only at h
  split at h
  · -- Both branches return, and the rest is deleted.
    cases h
    refine Edited.of_moved _ [.jump none] rfl rfl id rfl (fun y => ?_) newItem_jump_none fun a => ?_
    · have := count_labels_dropLast rest y
      simp only [labels_ite, labels_last, phisOnly, count_append, count_cons,
        count_nil] at this ⊢
      omega
    · have := items_dropPhis rest a
      simp only [count_items_ite, count_items_last, count_items_phisOnly]
      omega
  split at h
  all_goals
    cases h
    refine Edited.of_moved [] [.jump none] rfl rfl id (by simp)
      (fun y => ?_) newItem_jump_none fun a => ?_
    · have ht := labels_reinsertAtEnd rest t y
      have he := labels_reinsertAtEnd rest e y
      simp only [labels_ite, labels_last, phisOnly, count_append, count_cons,
        count_nil] at ht he ⊢
      omega
    · have ht := items_reinsertAtEnd rest t a
      have he := items_reinsertAtEnd rest e a
      simp only [count_items_ite, count_items_last, count_items_phisOnly]
      omega

/-- The jump of the first block is replaced, and flag instructions without a def are added before
it. -/
theorem Edited.setFirst (is : List SsaInstr) {j : Option Jump} (hj : j ≠ some .ret)
    (his : ∀ i ∈ is, FlagInstr flag st.nextDef i ∧ i.dest = none ∧ st'.returnFlag = true)
    (hblock : st'.nextBlock = st.nextBlock) (hdef : st'.nextDef = st.nextDef)
    (hdeleted : st'.deleted = st.deleted) (hflag : st.returnFlag = true → st'.returnFlag = true) :
    Edited flag l st
      (l.setFirst ⟨l.first.label, l.first.phis, l.first.instrs ++ is, j⟩) st' := by
  refine Edited.of_moved [] (.jump j :: is.map .instr) hblock hdef hflag
    (by simp [hdeleted]) (fun y => ?_)
    (fun a ha => ?_) fun a => ?_
  · rw [labels_setFirst]
    · rfl
    · rfl
  · rcases mem_cons.mp ha with rfl | ha
    · exact ⟨hj, rfl⟩
    · obtain ⟨i, hi, rfl⟩ := mem_map.mp ha
      exact ⟨⟨(his i hi).1, (his i hi).2.2⟩, by simp [Item.defs, (his i hi).2.1]⟩
  · have := items_setFirst ⟨l.first.label, l.first.phis, l.first.instrs ++ is, j⟩ l a
    simp only [Block.items, map_append, count_append, count_cons, count_nil] at this ⊢
    omega

/-- `lower_returns_in_block` is an edit. -/
theorem lowerReturnsInBlock_edited {r : SsaList × Bool × LowerState}
    (h : lowerReturnsInBlock flag x l st = some r) : Edited flag l st r.1 r.2.2 := by
  -- The phis of the first block are what is left of deleted code.
  have hitems : ∀ label a, (items (.last (.phisOnly label l.first.phis none))).count a ≤
      (items l).count a + [Item.jump none].count a := by
    intro label a
    have h₁ := items_dropPhis l a
    rw [count_items_last, count_items_phisOnly]
    omega
  have hstore : ∀ i ∈ [(⟨.storeVar flag true, none, []⟩ : SsaInstr)],
      FlagInstr flag st.nextDef i ∧ i.dest = none ∧ true = true := by
    intro i hi
    rw [mem_singleton] at hi
    subst hi
    exact ⟨⟨rfl, rfl, by simp⟩, rfl, rfl⟩
  simp only [lowerReturnsInBlock] at h
  split_ifs at h <;> cases h
  · exact .refl
  · refine Edited.of_moved _ [.jump none] rfl rfl id rfl (fun y => ?_) newItem_jump_none (hitems _)
    have := count_labels_dropLast l y
    simp only [labels_last, phisOnly] at this ⊢
    omega
  · refine ⟨fun y => ?_,
      ⟨_, fun a ha => (newItem_jump_none a ha).1, by simp [Item.defs], hitems _⟩, by simp,
      Nat.le_refl _, id⟩
    simp only [labels_last, phisOnly, count_append, count_cons, count_nil,
      within, beq_iff_eq]
    split <;> split <;> omega
  · exact .refl
  · have hedit : Edited flag l st (l.setFirst ⟨_, _, _, none⟩) st :=
      .setFirst [] (by simp) (by simp) rfl rfl rfl id
    simpa using hedit
  all_goals exact .setFirst _ (by simp) hstore rfl rfl rfl fun _ => rfl

/-- The states differ in `has_predicated_return` only. -/
theorem Edited.congr_state {p q : Bool}
    (h : Edited flag l { st with hasPredicatedReturn := p } l' st') :
    Edited flag l st l' { st' with hasPredicatedReturn := q } :=
  ⟨h.labels, h.code, h.block_le, h.def_le, h.returnFlag⟩

/-- The end of `lower_returns_in_loop` is an edit of what follows the loop. -/
theorem lowerReturnsInLoop_edited {progress : Bool}
    (h : lowerReturnsInLoop flag inLoop rest progress st = some r) :
    Edited flag rest st r.1 r.2 := by
  unfold lowerReturnsInLoop at h
  split at h
  · obtain ⟨a, ha, rfl⟩ := map_eq_some_iff.mp h
    have hedit :
      Edited flag rest { st with hasPredicatedReturn := st.hasPredicatedReturn } a.1 a.2 :=
      predicateFollowing_edited ha
    exact hedit.congr_state
  · cases h
    exact .refl

/-- `lower_returns_in_cf_list` is an edit. -/
theorem lowerReturnsInCfList_edited : ∀ (l : SsaList) (x : ListCtx) (st : LowerState)
    (r : SsaList × Bool × LowerState), lowerReturnsInCfList flag l x st = some r →
      Edited flag l st r.1 r.2.2 := by
  intro l
  induction l with
  | last b => exact fun x st r h => lowerReturnsInBlock_edited h
  | ite b c t e rest iht ihe ihr =>
    intro x st r h
    simp only [lowerReturnsInCfList, bind_eq_bind, bind_eq_some_iff] at h
    obtain ⟨r₁, h₁, r₂, h₂, r₃, h₃, r₄, h₄, r₅, h₅, hr⟩ := h
    cases hr
    have e₁ : Edited flag (.ite b c t e rest) st (.ite b c t e r₁.1) _ := (ihr _ _ _ h₁).of_part
    have e₂ : Edited flag (.ite b c t e r₁.1) _ (.ite b c r₂.1 e r₁.1) _ := (iht _ _ _ h₂).of_part
    have e₃ : Edited flag (.ite b c r₂.1 e r₁.1) _ (.ite b c r₂.1 r₃.1 r₁.1) _ :=
      (ihe _ _ _ h₃).of_part
    have e₄ := lowerReturnsInIf_edited h₄
    have e₅ := lowerReturnsInBlock_edited h₅
    exact e₁.trans ((e₂.trans (e₃.trans e₄)).congr_state.trans e₅)
  | loop b body rest ihb ihr =>
    intro x st r h
    simp only [lowerReturnsInCfList, bind_eq_bind, bind_eq_some_iff] at h
    obtain ⟨r₁, h₁, r₂, h₂, r₃, h₃, r₄, h₄, hr⟩ := h
    cases hr
    have e₁ : Edited flag (.loop b body rest) st (.loop b body r₁.1) _ := (ihr _ _ _ h₁).of_part
    have e₂ : Edited flag (.loop b body r₁.1) _ (.loop b r₂.1 r₁.1) _ := (ihb _ _ _ h₂).of_part
    have e₃ : Edited flag (.loop b r₂.1 r₁.1) _ (.loop b r₂.1 r₃.1) _ :=
      (lowerReturnsInLoop_edited h₃).of_part
    have e₄ := lowerReturnsInBlock_edited h₄
    exact e₁.trans (e₂.trans (e₃.trans e₄))

/-! ## Returns that are lowered -/

/-- The list has a return in a block with a predecessor, where `entry` says that the first one has
one. -/
def lowersReturn (entry : Bool) : SsaList → Bool
  | .last b => entry && b.jump == some .ret
  | .ite b _ t e rest =>
    lowersReturn (t.final.jump == none || e.final.jump == none) rest ||
      lowersReturn (b.jump == none) t || lowersReturn (b.jump == none) e ||
      entry && b.jump == some .ret
  | .loop b body rest =>
    lowersReturn (body.hasJump Block.jump .brk) rest || lowersReturn (b.jump == none) body ||
      entry && b.jump == some .ret

/-- An if or a loop of the list has such a return. -/
def nestedReturn : SsaList → Bool
  | .last _ => false
  | .ite b _ t e rest =>
    nestedReturn rest || lowersReturn (b.jump == none) t || lowersReturn (b.jump == none) e
  | .loop b body rest => nestedReturn rest || lowersReturn (b.jump == none) body

/-- What `lower_returns_in_block` does to the first block of a list. -/
theorem lowerReturnsInBlock_cases {r : SsaList × Bool × LowerState}
    (h : lowerReturnsInBlock flag x l st = some r) :
    (hasPredecessor x l = false ∧ r.2.1 = false ∧ nothingFollows r.1 = true ∧
        r.2.2.hasPredicatedReturn = st.hasPredicatedReturn ∧ r.2.2.returnFlag = st.returnFlag) ∨
      (hasPredecessor x l = true ∧ l.first.jump ≠ some .ret ∧ r = (l, false, st)) ∨
      (hasPredecessor x l = true ∧ l.first.jump = some .ret ∧ x.top = true ∧ l.isLast = true ∧
        r = (l.setFirst ⟨l.first.label, l.first.phis, l.first.instrs, none⟩, true, st)) ∨
      (hasPredecessor x l = true ∧ l.first.jump = some .ret ∧ (x.top && l.isLast) = false ∧
        (x.inLoop = true ∨ l.isLast = true) ∧
        r = (l.setFirst ⟨l.first.label, l.first.phis,
            l.first.instrs ++ [⟨.storeVar flag true, none, []⟩],
              if x.inLoop then some .brk else none⟩,
          true, { st with returnFlag := true })) := by
  simp only [lowerReturnsInBlock] at h
  split_ifs at h with hp hn _ hj ht hl hlast
  all_goals cases h
  · exact .inl ⟨by simpa using hp, rfl, (Bool.and_eq_true _ _ ▸ hn).1, rfl, rfl⟩
  iterate 2 exact .inl ⟨by simpa using hp, rfl, rfl, rfl, rfl⟩
  all_goals have hp : hasPredecessor x l = true := by simpa using hp
  · exact .inr (.inl ⟨hp, by simpa using hj, rfl⟩)
  all_goals have hj : l.first.jump = some .ret := by simpa using hj
  · simp only [Bool.and_eq_true] at ht
    exact .inr (.inr (.inl ⟨hp, hj, ht.1, ht.2, rfl⟩))
  · exact .inr (.inr (.inr ⟨hp, hj, by simpa using ht, .inl hl, by rw [if_pos hl]⟩))
  · exact .inr (.inr (.inr ⟨hp, hj, by simpa using ht, .inr hlast, by rw [if_neg hl]⟩))

/-- No block of the list returns. -/
def NoReturn (l : SsaList) : Prop := ∀ b ∈ l.blocks, b.jump ≠ some .ret

/-- No return is left when no block ends in one. -/
theorem ret_notMem_items {bs : List (Block SsaInstr)} :
    .jump (some .ret) ∉ bs.flatMap Block.items ↔ ∀ b ∈ bs, b.jump ≠ some .ret := by
  simp [Block.items, eq_comm]

/-- Edits bring no return behind a first block that stays. -/
theorem Edited.noReturn_tail (h : Edited flag l st l' st') (hfirst : l'.first = l.first)
    (hl : ∀ b ∈ l.blocks.tail, b.jump ≠ some .ret) : ∀ b ∈ l'.blocks.tail, b.jump ≠ some .ret := by
  obtain ⟨new, hnew, -, hle⟩ := h.code
  have hcount : ∀ l : SsaList, (items l).count (.jump (some .ret)) =
    l.first.items.count (.jump (some .ret)) +
      (l.blocks.tail.flatMap Block.items).count (.jump (some .ret)) := by
    intro l
    have hconds : (l.conds.map Item.cond).count (.jump (some .ret)) = 0 :=
      count_eq_zero.mpr (by simp)
    rw [items, count_append, hconds, l.blocks_eq_cons, flatMap_cons, count_append, tail_cons]
    rfl
  have hnot : Item.jump (some .ret) ∉ new := fun hmem => hnew _ hmem rfl
  have hret := hle (.jump (some .ret))
  rw [hcount, hcount, hfirst, count_eq_zero.mpr (ret_notMem_items.mpr hl),
    count_eq_zero.mpr hnot] at hret
  exact ret_notMem_items.mp (count_eq_zero.mp (by omega))

/-- Edits bring no return. -/
theorem Edited.noReturn (h : Edited flag l st l' st') (hl : NoReturn l) : NoReturn l' := by
  refine ret_notMem_items.mp fun hmem => ?_
  rcases h.mem_items (mem_append_left _ hmem) with hmem | hnew
  · exact (mem_append.mp hmem).elim (ret_notMem_items.mpr hl) (by simp)
  · exact hnew rfl

/-- Predicating leaves no jump at the end of a list outside of loops. -/
theorem predicateFollowing_final (h : predicateFollowing flag inLoop rest st = some r) :
    (inLoop = false → rest.final.jump = none → r.1.final.jump = none) ∧
      r.2.returnFlag = st.returnFlag := by
  unfold predicateFollowing at h
  split_ifs at h with _ _ hl <;> cases h
  · exact ⟨fun _ h => h, rfl⟩
  · exact ⟨fun hl' => by simp [hl] at hl', rfl⟩
  · exact ⟨fun _ _ => rfl, rfl⟩

/-- What the end of `lower_returns_in_if` leaves. -/
theorem lowerReturnsInIf_shape {pt pe : Bool}
    (h : lowerReturnsInIf flag inLoop b c t e rest pt pe st = some r) :
    r.1.first = b ∧ r.1.isLast = false ∧ (inLoop = false → rest.final.jump = none →
      r.1.final.jump = none) ∧
      r.2.returnFlag = st.returnFlag := by
  unfold lowerReturnsInIf at h
  split at h
  · cases h
    exact ⟨rfl, rfl, fun _ h => h, rfl⟩
  split at h
  · obtain ⟨a, ha, rfl⟩ := map_eq_some_iff.mp h
    obtain ⟨hfinal, hflag⟩ := predicateFollowing_final ha
    exact ⟨rfl, rfl, hfinal, hflag⟩
  simp only at h
  split_ifs at h <;> cases h <;> exact ⟨rfl, rfl, fun _ _ => rfl, rfl⟩

/-- What the pass does to a list, apart from its code. -/
structure LowerFacts (x : ListCtx) (l : SsaList) (st : LowerState)
    (r : SsaList × Bool × LowerState) :
    Prop where
  /-- Where a return is lowered, the flag has been created. -/
  flag : x.top = false → r.2.1 = true → r.2.2.returnFlag = true
  /-- No return is left. -/
  noReturn : NoReturn r.1
  /-- Outside of loops, a lowered return is predicated or ends the list. -/
  predicated : x.inLoop = false → r.2.1 = true →
    r.2.2.hasPredicatedReturn = true ∨ l.final.jump = some .ret
  /-- Returns that are come across are lowered. -/
  lowers : lowersReturn x.entry l = true → r.2.1 = true
  /-- Nested ones are predicated. -/
  nested : nestedReturn l = true ∨ st.hasPredicatedReturn = true → r.2.2.hasPredicatedReturn = true
  /-- Outside of loops, control falls off the end of the list. -/
  final : x.inLoop = false → l.final.jump = none ∨ l.final.jump = some .ret → r.1.final.jump = none
  /-- A list that is entered keeps its phis. -/
  phis : x.entry = true → r.1.first.phis = l.first.phis
  /-- A list that is not entered is deleted. -/
  dead : x.entry = false → x.header = false → nothingFollows r.1 = true
  /-- In a loop, a list that is entered does not become empty. -/
  kept : x.entry = true → x.inLoop = true → x.top = false → nothingFollows r.1 = true →
    nothingFollows l = true

/-- Without a predicated return there was none nested. -/
theorem LowerFacts.not_nested {r : SsaList × Bool × LowerState} (h : LowerFacts x l st r)
    (hst : r.2.2.hasPredicatedReturn = false) : nestedReturn l = false ∧
      st.hasPredicatedReturn = false := by
  have hnot := mt h.nested (by simp [hst])
  simpa using hnot

/-- The last step, for the first block: the list `m` is `l` with what follows its first block
lowered. -/
theorem lowerReturnsInBlock_facts {m : SsaList} (progress : Bool) {r : SsaList × Bool × LowerState}
    (h : lowerReturnsInBlock flag x m st' = some r) (hfirst : m.first = l.first)
    (hlast : m.isLast = l.isLast) (hm : l.isLast = true → m = l)
    (hflag : x.top = false → progress = true → st'.returnFlag = true)
    (hno : ∀ b ∈ m.blocks.tail, b.jump ≠ some .ret)
    (hpred : x.inLoop = false → progress = true → st'.hasPredicatedReturn = true ∨
      l.final.jump = some .ret)
    (hlow : lowersReturn x.entry l = true → progress = true ∨ x.entry = true ∧
      l.first.jump = some .ret)
    (hnest : nestedReturn l = true ∨ st.hasPredicatedReturn = true → st'.hasPredicatedReturn = true)
    (hfinal : x.inLoop = false → l.isLast = false → l.final.jump = none ∨
      l.final.jump = some .ret → m.final.jump = none) :
    LowerFacts x l st (r.1, progress || r.2.1, r.2.2) := by
  have hdead : x.entry = false → x.header = false → hasPredecessor x m ≠ true := by
    intro he hh
    simp [hasPredecessor, he, hh]
  -- The only block of a list is its last.
  have honly : l.isLast = true → l.final = l.first := by
    cases l <;> simp [isLast, final, first]
  have hset : ∀ b' : Block SsaInstr, b'.jump ≠ some .ret → NoReturn (m.setFirst b') := by
    intro b' hb' a ha
    rw [blocks_setFirst] at ha
    rcases mem_cons.mp ha with rfl | ha
    · exact hb'
    · exact hno a ha
  have hempty : ∀ l : SsaList, nothingFollows l = true → NoReturn l ∧ l.final.jump = none := by
    intro l hl
    cases l with
    | last b =>
      simp only [nothingFollows, Bool.and_eq_true, beq_iff_eq] at hl
      refine ⟨fun b' hb' => ?_, hl.2⟩
      rw [blocks, mem_singleton] at hb'
      simp [hb', hl.2]
    | ite | loop => simp [nothingFollows] at hl
  rcases lowerReturnsInBlock_cases h with ⟨hp, hpr, hnothing, hhpr, hrf⟩ | ⟨hp, hj, rfl⟩ |
    ⟨hp, hj, htop, hl, rfl⟩ | ⟨hp, hj, htop, hl, rfl⟩
  · -- The list is deleted.
    have hx : x.entry = false := by
      by_contra hx
      simp [hasPredecessor, hx] at hp
    refine ⟨fun ht hprog => ?_, (hempty _ hnothing).1, fun hin hprog => ?_,
      fun hlr => ?_, fun hn => ?_,
      fun _ _ => (hempty _ hnothing).2, fun he => ?_, fun _ _ => hnothing, fun he => ?_⟩
    · rw [hpr, Bool.or_false] at hprog
      exact hrf ▸ hflag ht hprog
    · rw [hpr, Bool.or_false] at hprog
      exact hhpr ▸ hpred hin hprog
    · rcases hlow hlr with h | h
      · simp [h]
      · simp [hx] at h
    · exact hhpr ▸ hnest hn
    · simp [hx] at he
    · simp [hx] at he
  · refine ⟨fun ht hprog => hflag ht (by simpa using hprog), ?_, fun hin hprog =>
      hpred hin (by simpa using hprog), fun hlr => ?_, hnest, fun hin hfin => ?_, fun _ => ?_,
      fun he hh => absurd hp (hdead he hh), fun _ _ _ hn => ?_⟩
    · intro a ha
      rw [m.blocks_eq_cons] at ha
      rcases mem_cons.mp ha with rfl | ha
      · exact hj
      · exact hno a ha
    · rcases hlow hlr with h | ⟨-, h⟩
      · simp [h]
      · rw [hfirst] at hj
        exact absurd h hj
    · cases hl : l.isLast with
      | true =>
        rw [hm hl, honly hl]
        rw [honly hl] at hfin
        rw [hfirst] at hj
        exact hfin.resolve_right hj
      | false => exact hfinal hin hl hfin
    · rw [hfirst]
    · cases hl : l.isLast with
      | true => rwa [hm hl] at hn
      | false =>
        rw [hl] at hlast
        cases m <;> simp [isLast, nothingFollows] at hlast hn
  · have hl' : l.isLast = true := hlast ▸ hl
    refine ⟨fun ht => ?_, hset _ (by simp), fun _ _ => .inr ?_,
      fun _ => by simp, hnest, fun _ _ => ?_,
      fun _ => ?_, fun he hh => absurd hp (hdead he hh), fun _ _ ht => ?_⟩
    · simp [htop] at ht
    · rw [honly hl', ← hfirst, hj]
    · rw [final_setFirst]
      cases m <;> simp [isLast] at hl ⊢
    · rw [first_setFirst, hfirst]
    · simp [htop] at ht
  · refine ⟨fun _ _ => rfl, hset _ (by cases x.inLoop <;> simp), fun hin _ => .inr ?_,
      fun _ => by simp, hnest, fun hin _ => ?_, fun _ => ?_, fun he hh => absurd hp (hdead he hh),
      fun _ _ _ hn => ?_⟩
    · have hl' : l.isLast = true := hlast ▸ hl.resolve_left (by simp [hin])
      rw [honly hl', ← hfirst, hj]
    · rw [final_setFirst]
      have hl' := hl.resolve_left (by simp [hin])
      cases m <;> simp [isLast, hin] at hl' ⊢
    · rw [first_setFirst, hfirst]
    · cases m <;> simp [setFirst, nothingFollows] at hn

/-- The facts hold of every list. -/
theorem lowerReturnsInCfList_facts : ∀ (l : SsaList) (x : ListCtx) (st : LowerState)
    (r : SsaList × Bool × LowerState), lowerReturnsInCfList flag l x st = some r →
      LowerFacts x l st r := by
  intro l
  induction l with
  | last b =>
    intro x st r h
    have : LowerFacts x (.last b) st (r.1, false || r.2.1, r.2.2) :=
      lowerReturnsInBlock_facts false h rfl rfl (fun _ => rfl) (by simp)
        (by simp [blocks]) (by simp)
        (fun hlr => .inr (by simpa [lowersReturn, first] using hlr))
        (fun hn => hn.resolve_left (by simp [nestedReturn])) (by simp [isLast])
    simpa using this
  | ite b c t e rest iht ihe ihr =>
    intro x st r h
    simp only [lowerReturnsInCfList, bind_eq_bind, bind_eq_some_iff] at h
    obtain ⟨r₁, h₁, r₂, h₂, r₃, h₃, r₄, h₄, r₅, h₅, hr⟩ := h
    cases hr
    have f₁ := ihr _ _ _ h₁
    have f₂ := iht _ _ _ h₂
    have f₃ := ihe _ _ _ h₃
    have e₂ := lowerReturnsInCfList_edited _ _ _ _ h₂
    have e₃ := lowerReturnsInCfList_edited _ _ _ _ h₃
    obtain ⟨hfirst, hlast, hfin, hrf⟩ := lowerReturnsInIf_shape h₄
    refine lowerReturnsInBlock_facts (l := .ite b c t e rest)
      (r₁.2.1 || r₂.2.1 || r₃.2.1) h₅ hfirst hlast (by simp [isLast]) ?_ ?_ ?_ ?_ ?_ ?_
    · intro ht hprog
      simp only [Bool.or_eq_true] at hprog
      refine hrf.trans ?_
      rcases hprog with (h | h) | h
      · exact e₃.returnFlag (e₂.returnFlag (f₁.flag ht h))
      · exact e₃.returnFlag (f₂.flag rfl h)
      · exact f₃.flag rfl h
    · refine (lowerReturnsInIf_edited h₄).noReturn_tail hfirst fun a ha => ?_
      simp only [blocks, tail_cons, mem_append] at ha
      rcases ha with (ha | ha) | ha
      · exact f₂.noReturn a ha
      · exact f₃.noReturn a ha
      · exact f₁.noReturn a ha
    · intro hin hprog
      simp only [Bool.or_eq_true] at hprog ⊢
      rcases hprog with (h | h) | h
      · exact (f₁.predicated hin h).imp_left fun h => .inr h
      · exact .inl (.inl (.inl h))
      · exact .inl (.inl (.inr h))
    · intro hlr
      simp only [lowersReturn, Bool.or_eq_true, Bool.and_eq_true, beq_iff_eq] at hlr
      rcases hlr with ((h | h) | h) | h
      · exact .inl (by simp [f₁.lowers h])
      · exact .inl (by simp [f₂.lowers h])
      · exact .inl (by simp [f₃.lowers h])
      · exact .inr h
    · intro hn
      simp only [nestedReturn, Bool.or_eq_true] at hn ⊢
      rcases hn with ((h | h) | h) | h
      · exact .inr (f₁.nested (.inl h))
      · exact .inl (.inl (f₂.lowers h))
      · exact .inl (.inr (f₃.lowers h))
      · exact .inr (f₁.nested (.inr h))
    · exact fun hin _ hj => hfin hin (f₁.final hin hj)
  | loop b body rest ihb ihr =>
    intro x st r h
    simp only [lowerReturnsInCfList, bind_eq_bind, bind_eq_some_iff] at h
    obtain ⟨r₁, h₁, r₂, h₂, r₃, h₃, r₄, h₄, hr⟩ := h
    cases hr
    have f₁ := ihr _ _ _ h₁
    have f₂ := ihb _ _ _ h₂
    have e₂ := lowerReturnsInCfList_edited _ _ _ _ h₂
    have hafter : (x.inLoop = false → r₁.1.final.jump = none → r₃.1.final.jump = none) ∧
        r₃.2.returnFlag = r₂.2.2.returnFlag ∧
        (r₂.2.1 = true ∨ r₂.2.2.hasPredicatedReturn = true → r₃.2.hasPredicatedReturn = true) := by
      unfold lowerReturnsInLoop at h₃
      split_ifs at h₃ with hp
      · obtain ⟨a, ha, rfl⟩ := map_eq_some_iff.mp h₃
        obtain ⟨hfinal, hflag⟩ := predicateFollowing_final ha
        exact ⟨hfinal, hflag, fun _ => rfl⟩
      · cases h₃
        exact ⟨fun _ h => h, rfl, fun h => h.resolve_left hp⟩
    obtain ⟨hfin, hrf, hhpr⟩ := hafter
    refine lowerReturnsInBlock_facts (l := .loop b body rest) (r₁.2.1 || r₂.2.1) h₄ rfl rfl
      (by simp [isLast]) ?_ ?_ ?_ ?_ ?_ ?_
    · intro ht hprog
      simp only [Bool.or_eq_true] at hprog
      refine hrf.trans ?_
      rcases hprog with h | h
      · exact e₂.returnFlag (f₁.flag ht h)
      · exact f₂.flag rfl h
    · intro a ha
      simp only [blocks, tail_cons, mem_append] at ha
      exact ha.elim (f₂.noReturn a) ((lowerReturnsInLoop_edited h₃).noReturn f₁.noReturn a)
    · intro hin hprog
      simp only [Bool.or_eq_true] at hprog
      rcases hprog with h | h
      · exact (f₁.predicated hin h).imp_left fun h => hhpr (.inr (f₂.nested (.inr h)))
      · exact .inl (hhpr (.inl h))
    · intro hlr
      simp only [lowersReturn, Bool.or_eq_true, Bool.and_eq_true, beq_iff_eq] at hlr
      rcases hlr with (h | h) | h
      · exact .inl (by simp [f₁.lowers h])
      · exact .inl (by simp [f₂.lowers h])
      · exact .inr h
    · intro hn
      simp only [nestedReturn, Bool.or_eq_true] at hn
      rcases hn with (h | h) | h
      · exact hhpr (.inr (f₂.nested (.inr (f₁.nested (.inl h)))))
      · exact hhpr (.inl (f₂.lowers h))
      · exact hhpr (.inr (f₂.nested (.inr (f₁.nested (.inr h)))))
    · exact fun hin _ hj => hfin hin (f₁.final hin hj)

end

end Mesa3D.Nir
