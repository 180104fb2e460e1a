import Mesa3D.Nir.LowerReturnsFollows

/-!
# Lowering returns preserves runs

The pass is right for the functions in which every lowered return is guarded. Three things can go
wrong elsewhere.

* A loop in a loop, with returns, and with nothing behind it: `predicate_following` sees that there
  is nothing to predicate, and the outer loop goes on where the function has returned.
* A return outside of loops that does not end its list, which fails an assertion.
* An if outside of loops that has returns at the ends of one branch, and is followed by a block
  whose phis are read: the block is moved to the end of the other branch, and its phis are not.
-/

namespace Mesa3D.Nir

open Structured
open SsaState (init)
open Option (bind_eq_bind bind_some some.inj)
open Block
open Bool (not_eq_true and_eq_true or_eq_true or_eq_false_iff)
open CfList List

/-! ## Guarded returns -/

/-- Outside of loops, a return in a block with a predecessor ends its list. Otherwise
`lower_returns_in_block` fails an assertion. -/
def returnsLast (inLoop entry : Bool) : SsaList → Bool
  | .last _ => true
  | .ite b _ t e rest =>
    returnsLast inLoop (t.final.jump == none || e.final.jump == none) rest &&
      returnsLast inLoop (b.jump == none) t && returnsLast inLoop (b.jump == none) e &&
      (inLoop || !(entry && b.jump == some .ret))
  | .loop b body rest =>
    returnsLast inLoop (body.hasJump jump .brk) rest && returnsLast true (b.jump == none) body &&
      (inLoop || !(entry && b.jump == some .ret))

/-- What follows in the loop is a break or nothing, where `quiet` says this of what follows the
list, and `entry` that the list is entered. -/
def quietRest (entry quiet : Bool) (rest : SsaList) : Bool :=
  if entry then
    match rest with
    | .last b => b.instrs.isEmpty && (b.jump == some .brk || b.jump == none && quiet)
    | _ => false
  else quiet

/-- What follows an if is moved into one of its branches. -/
def movesRest (t e : SsaList) : Bool :=
  !(nestedReturn t || nestedReturn e) && (t.final.jump == some .ret) != (e.final.jump == some .ret)

/-- The phis of the first block are not read by the code behind them, and their sources are not
written by it. -/
def phisUnread (rest : SsaList) : Bool :=
  rest.first.phis.all fun φ =>
    ((dropPhis rest).blocks.all fun b => !b.reads.contains φ.dest) && !rest.conds.contains φ.dest &&
      φ.srcs.all fun s => !(allDefs (dropPhis rest)).contains s.2

/-- Every return that is lowered in the list is guarded. -/
def returnsGuarded (inLoop quiet : Bool) : SsaList → Bool
  | .last _ => true
  | .ite b _ t e rest =>
    let entry := t.final.jump == none || e.final.jump == none
    (!entry || returnsGuarded inLoop quiet rest) &&
      (b.jump != none ||
        returnsGuarded inLoop (quietRest entry quiet rest) t &&
          returnsGuarded inLoop (quietRest entry quiet rest) e &&
          (inLoop || !movesRest t e || phisUnread rest))
  | .loop b body rest =>
    let entry := body.hasJump jump .brk
    (!entry || returnsGuarded inLoop quiet rest) &&
      (b.jump != none ||
        returnsGuarded true false body &&
          (!inLoop || !lowersReturn true body || quiet || entry && !nothingFollows rest))

section

variable {W : SsaWorld} {flag base : ℕ} {inLoop top quiet : Bool} {s s' : SsaState}
  {b : Block SsaInstr} {l l' t t' e e' rest rest' : SsaList} {st st' : LowerState} {n : ℕ}

/-- The phis of a clean block use old defs. -/
theorem CleanBlock.phis (h : CleanBlock flag base b) : OldPhis base b.phis := fun φ hφ =>
  ⟨h.names _ (mem_names.mpr (.inl (mem_append_left _ (mem_map_of_mem hφ)))), fun e he =>
    h.names _ (mem_names.mpr (.inr (.inl ⟨φ, hφ, e, he, rfl⟩)))⟩

/-- The condition on phis carries over from the list to the lowered list. -/
theorem PhisKept.of_edited (h : phisUnread rest = true) (hedit : Edited flag rest st rest' st')
    (hphis : rest'.first.phis = rest.first.phis) (hclean : Clean flag base rest)
    (hbase : base ≤ st.nextDef) (hnodup : (allDefs rest).Nodup) : PhisKept rest' := by
  simp only [phisUnread, all_eq_true, and_eq_true, Bool.not_eq_true',
    contains_eq_mem, decide_eq_false_iff_not] at h
  have hdrop := hedit.dropPhis hphis
  have holdPhis := (hclean.blocks _ rest.first_mem_blocks).phis
  -- Old defs that are not written behind the phis of the list are not written there.
  have hdef : ∀ d < base, (allDefs (dropPhis rest)).count d = 0 →
    ∀ b ∈ (dropPhis rest').blocks, d ∉ b.defs := by
    intro d hd hzero b hb hmem
    have hle := hdrop.defs d
    rw [hzero, within, if_neg (by omega)] at hle
    exact count_eq_zero.mp (Nat.le_zero.mp hle) (mem_flatMap.mpr ⟨b, hb, hmem⟩)
  rw [← hphis] at h holdPhis
  refine ⟨fun φ hφ b hb hmem => ?_, fun φ hφ hmem => ?_, fun φ hφ => hdef _ (holdPhis φ hφ).1 ?_,
    fun φ hφ e he => hdef _ ((holdPhis φ hφ).2 e he) (count_eq_zero.mpr ((h φ hφ).2 e he))⟩
  · simp only [Block.reads, mem_append, mem_flatMap, mem_map] at h hmem
    rcases hmem with ⟨ψ, hψ, hd⟩ | ⟨i, hi, hd⟩
    · obtain ⟨a, ha, hin⟩ := hdrop.phis b hb ψ hψ
      exact (h φ hφ).1.1 a ha (.inl ⟨ψ, hin, hd⟩)
    · rcases hdrop.instrs b hb i hi with ⟨a, ha, hin⟩ | ⟨hflag, -⟩
      · exact (h φ hφ).1.1 a ha (.inr ⟨i, hin, hd⟩)
      · simp [hflag.2.1] at hd
  · rcases hedit.conds _ hmem with hmem | ⟨hle, -⟩
    · exact (h φ hφ).1.2 hmem
    · have := (holdPhis φ hφ).1
      omega
  · -- A def is written once, and this one by the phi.
    have h₁ := allDefs_dropPhis rest φ.dest
    have h₂ := nodup_iff_count_le_one.mp hnodup φ.dest
    have h₃ : 0 < (rest.first.phis.map Phi.dest).count φ.dest :=
      count_pos_iff.mpr (mem_map.mpr ⟨φ, hphis ▸ hφ, rfl⟩)
    omega

/-! ## Ifs -/

/-- What becomes of the branch `a` of an if, and of what follows the if. Whether returns were
lowered in the branch and in the other one is `pa` and `po`. -/
inductive IfBranch (flag : ℕ) (inLoop : Bool) (st : LowerState) (rest a : SsaList) (pa po : Bool) :
    SsaList → SsaList → Prop
  /-- Both stay. -/
  | kept (h : inLoop = true ∨ pa = false) : IfBranch flag inLoop st rest a pa po a rest
  /-- What follows is predicated. -/
  | predicated (h : inLoop = false) {r : SsaList × LowerState}
    (hr : predicateFollowing flag inLoop rest st = some r) :
    IfBranch flag inLoop st rest a pa po a r.1
  /-- The branch returns. -/
  | returns (h : inLoop = false) (hst : st.hasPredicatedReturn = false) (hpa : pa = true) :
    IfBranch flag inLoop st rest a pa po a (.last (.phisOnly rest.final.label rest.first.phis none))
  /-- The other branch returns, and what follows is moved into this one. -/
  | moved (h : inLoop = false) (hst : st.hasPredicatedReturn = false) (hpa : pa = false)
    (hpo : po = true) :
    IfBranch flag inLoop st rest a pa po (reinsertAtEnd rest a)
      (.last (.phisOnly rest.final.label rest.first.phis none))

/-- What the end of `lower_returns_in_if` does to the branches. -/
theorem lowerReturnsInIf_branches {c : ℕ} {pt pe : Bool} {r : SsaList × LowerState}
    (h : lowerReturnsInIf flag inLoop b c t e rest pt pe st = some r) :
    ∃ t' e' rest', r.1 = .ite b c t' e' rest' ∧ IfBranch flag inLoop st rest t pt pe t' rest' ∧
      IfBranch flag inLoop st rest e pe pt e' rest' := by
  simp only [lowerReturnsInIf] at h
  split_ifs at h with hkept hst hboth hpt
  · cases h
    simp only [or_eq_true, Bool.not_eq_true', or_eq_false_iff] at hkept
    exact ⟨t, e, rest, rfl, .kept (by tauto), .kept (by tauto)⟩
  all_goals
    simp only [or_eq_true, Bool.not_eq_true', or_eq_false_iff, not_or, not_eq_true] at hkept
  · obtain ⟨a, ha, rfl⟩ := Option.map_eq_some_iff.mp h
    exact ⟨t, e, a.1, rfl, .predicated hkept.2 ha, .predicated hkept.2 ha⟩
  all_goals
    rw [not_eq_true] at hst
    cases h
  · rw [and_eq_true] at hboth
    exact ⟨t, e, _, rfl, .returns hkept.2 hst hboth.1, .returns hkept.2 hst hboth.2⟩
  · have hpe : pe = false := by simpa [hpt] using hboth
    exact ⟨t, _, _, rfl, .returns hkept.2 hst hpt, .moved hkept.2 hst hpe hpt⟩
  · rw [not_eq_true] at hpt
    have hpe : pe = true := by simpa [hpt] using hkept.1
    exact ⟨_, e, _, rfl, .moved hkept.2 hst hpt hpe, .returns hkept.2 hst hpe⟩

/-- A list that has no break or continue outside of its loops is not left by one. -/
theorem exec_out_of_no_jump {l : SsaList} (h : ∀ j, j ≠ .ret → l.hasJump jump j = false) (p : ℕ)
    (s : SsaState) : (exec (ssaMachine W) n l p s).out ≠ .brk ∧
      (exec (ssaMachine W) n l p s).out ≠ .cont := by
  have hne : ∀ j, j ≠ .ret →
    (exec (ssaMachine W) n l p s).out ≠ Jump.outcome (some j) := fun j hj hout =>
    absurd ((h j hj).symm.trans (hasJump_of_exec hj hout)) Bool.false_ne_true
  exact ⟨hne .brk (by simp), hne .cont (by simp)⟩

/-- The last block of a list without breaks and continues outside of its loops. -/
theorem final_jump_of_no_jump (h : ∀ j, j ≠ .ret → l.hasJump jump j = false) :
    l.final.jump = none ∨ l.final.jump = some .ret := by
  induction l with
  | last b =>
    have h₁ := h .brk (by simp)
    have h₂ := h .cont (by simp)
    simp only [hasJump, beq_eq_false_iff_ne] at h₁ h₂
    change b.jump = none ∨ b.jump = some .ret
    cases hj : b.jump with
    | none => exact .inl rfl
    | some j => cases j <;> simp [hj] at h₁ h₂ ⊢
  | ite b c t e rest _ _ ih | loop b body rest _ ih =>
    refine ih fun j hj => ?_
    have := h j hj
    simp only [hasJump, or_eq_false_iff] at this
    exact this.2

/-- A branch of an if, and what follows. -/
theorem IfBranch.follows {a T R : SsaList} {ra r : SsaList × Bool × LowerState} {po q entry : Bool}
    (h : IfBranch flag inLoop st r.1 ra.1 ra.2.1 po T R) (hbase : base ≤ st.nextDef)
    (fa : LowerFacts ⟨inLoop, false, true, false⟩ a st' ra) {st₁ : LowerState}
    (fr : LowerFacts ⟨inLoop, top, entry, false⟩ rest st₁ r)
    (ha : Tracks flag base inLoop false q (exec (ssaMachine W) n a) (exec (ssaMachine W) n ra.1))
    (hquiet : inLoop = true → q = true → ∀ p (s : SsaState), s.vars flag = true →
      Returned flag inLoop top quiet s.trace (exec (ssaMachine W) n r.1 p s))
    (hentry : a.final.jump = none → entry = true)
    (hrest : entry = true →
      Tracks flag base inLoop top quiet (exec (ssaMachine W) n rest) (exec (ssaMachine W) n r.1))
    (hphis : OldPhis base rest.first.phis)
    (hkept : inLoop = false → st.hasPredicatedReturn = false → po = true → a.final.jump = none →
      PhisKept r.1)
    (hret : inLoop = false → st.hasPredicatedReturn = false → ra.2.1 = true → a.final.jump ≠ none)
    (hloop : inLoop = false → ∀ j, j ≠ .ret → a.hasJump jump j = false ∧
      rest.hasJump jump j = false)
    (p : ℕ) (hs : Agree flag base s s') :
    Follows flag base inLoop top quiet
      ((exec (ssaMachine W) n a p s).andThen (exec (ssaMachine W) n rest))
      ((exec (ssaMachine W) n T p s').andThen (exec (ssaMachine W) n R)) := by
  have hfollows := ha p s s' hs
  have hnext : (exec (ssaMachine W) n a p s).out = .next → a.final.jump = none := fun h =>
    (exec_next h).1
  cases h with
  | kept h =>
    refine hfollows.kept (fun hr => ?_) fun hn => hrest (hentry (hnext hn))
    have hl := h.resolve_right (by simp [fa.lowers (lowersReturn_of_exec hr)])
    exact ⟨hl, hquiet hl⟩
  | predicated h hr =>
    subst h
    refine hfollows.andThen (fun hn => ?_) fun hret hn => ?_
    · obtain ⟨hp, hagree⟩ := hfollows.goes (.inl hn)
      rw [hp]
      have hin := hentry (hnext hn)
      exact predicateFollowing_follows hr hbase (fr.phis hin ▸ hphis)
        (fun _ => exec_out_of_no_jump (fun j hj => (hloop rfl j hj).2) _ _) (hrest hin) hagree
    · have hret' := hfollows.ret hret
      rw [← hret'.trace]
      exact predicateFollowing_returned hr (by simp) _ (hret'.flag rfl)
  | returns h hst hpa =>
    subst h
    exact hfollows.returns fun hn => hret rfl hst hpa (hnext hn)
  | moved h hst hpa' hpo =>
    subst h
    refine reinsertAtEnd_follows (fun hn => hkept rfl hst hpo (hnext hn))
      (fa.final rfl (final_jump_of_no_jump fun j hj => (hloop rfl j hj).1)) hfollows
      (fun hr => ?_) (exec_out_of_no_jump (fun j hj => (hloop rfl j hj).1) _ _)
      (exec_out_of_no_jump fun j hj => (hloop rfl j hj).2) fun hn => hrest (hentry (hnext hn))
    simp [fa.lowers (lowersReturn_of_exec hr)] at hpa'

/-- What follows an if in a loop, where the function has returned in the if: nothing, or a break. -/
theorem quietRest_returned {x : ListCtx} {r : SsaList × Bool × LowerState}
    (h : lowerReturnsInCfList flag rest x st = some r) (hx : x.header = false)
    (hq : quietRest x.entry quiet rest = true) (p : ℕ) (hs : s.vars flag = true) :
    Returned flag true top quiet s.trace (exec (ssaMachine W) n r.1 p s) := by
  unfold quietRest at hq
  split_ifs at hq with hentry
  · cases rest with
    | last b =>
      simp only [and_eq_true, List.isEmpty_iff, or_eq_true, beq_iff_eq] at hq
      have hj : b.jump ≠ some .ret := by
        rcases hq.2 with hj | ⟨hj, -⟩ <;> simp [hj]
      have hr : r.1 = .last b := by
        rcases lowerReturnsInBlock_cases h with ⟨hp, -⟩ | ⟨-, -, rfl⟩ | ⟨-, hj', -⟩ | ⟨-, hj', -⟩
        · simp [hasPredecessor, hentry] at hp
        · rfl
        · exact absurd hj' hj
        · exact absurd hj' hj
      rw [hr, exec, step_of_isEmpty hq.1]
      refine ⟨rfl, fun _ => hs, ?_⟩
      rcases hq.2 with hj | ⟨hj, hq⟩
      · exact .inr ⟨by simp [hj, Jump.outcome], rfl⟩
      · exact .inl ⟨by simp [hj, Jump.outcome], fun _ => hq⟩
    | ite => simp at hq
    | loop => simp at hq
  · have hdead := (lowerReturnsInCfList_facts _ _ _ _ h).dead (by simpa using hentry) hx
    obtain ⟨hout, htrace, hvars⟩ := exec_nothingFollows (W := W) (n := n) hdead p s
    exact ⟨htrace, fun _ => hvars ▸ hs, .inl ⟨hout, fun _ => hq⟩⟩

/-! ## Lists -/

/-- The parts of a clean if. -/
theorem Clean.ofIte {c : ℕ} (h : Clean flag base (.ite b c t e rest)) :
    CleanBlock flag base b ∧ c < base ∧ Clean flag base t ∧ Clean flag base e ∧
      Clean flag base rest := by
  obtain ⟨hb, hc⟩ := h
  simp only [CfList.blocks, CfList.conds, mem_cons, mem_append, forall_eq_or_imp] at hb hc
  exact ⟨hb.1, hc.1, ⟨fun b h => hb.2 b (.inl (.inl h)), fun c h => hc.2 c (.inl (.inl h))⟩,
    ⟨fun b h => hb.2 b (.inl (.inr h)), fun c h => hc.2 c (.inl (.inr h))⟩,
    ⟨fun b h => hb.2 b (.inr h), fun c h => hc.2 c (.inr h)⟩⟩

/-- The parts of a clean loop. -/
theorem Clean.ofLoop {body : SsaList} (h : Clean flag base (.loop b body rest)) :
    CleanBlock flag base b ∧ Clean flag base body ∧ Clean flag base rest := by
  obtain ⟨hb, hc⟩ := h
  simp only [CfList.blocks, CfList.conds, mem_cons, mem_append, forall_eq_or_imp] at hb hc
  exact ⟨hb.1, ⟨fun b h => hb.2 b (.inl h), fun c h => hc c (.inl h)⟩,
    ⟨fun b h => hb.2 b (.inr h), fun c h => hc c (.inr h)⟩⟩

/-- A list that is entered and the lowered list, by induction over the list: what follows a node is
lowered before the node is. -/
theorem lowerReturnsInCfList_follows : ∀ (l : SsaList) (x : ListCtx) (st : LowerState)
    (r : SsaList × Bool × LowerState) (quiet : Bool), lowerReturnsInCfList flag l x st = some r →
    Clean flag base l → base ≤ st.nextDef → (allDefs l).Nodup → (x.top = true → x.inLoop = false) →
    (x.inLoop = false → ∀ j, j ≠ .ret → l.hasJump jump j = false) →
    returnsGuarded x.inLoop quiet l = true → x.entry = true →
    Tracks flag base x.inLoop x.top quiet (exec (ssaMachine W) n l)
      (exec (ssaMachine W) n r.1) := by
  intro l
  induction l with
  | last b =>
    intro x st r quiet h hclean _ _ htop _ _ hentry p s s' hs
    rw [exec_eq_tail]
    refine lowerReturnsInBlock_follows h hentry htop (hclean.blocks b (by simp [blocks]))
      (fun _ q s s' hs => ?_) p hs
    exact ⟨by simp [execTail], fun _ => rfl, fun _ => hs.trace, fun _ => ⟨rfl, hs⟩⟩
  | ite b c t e rest iht ihe ihr =>
    intro x st r quiet h hclean hbase hnodup htop hloop hg hentry p s s' hs
    simp only [lowerReturnsInCfList, bind_eq_bind, Option.bind_eq_some_iff] at h
    obtain ⟨r₁, h₁, r₂, h₂, r₃, h₃, r₄, h₄, r₅, h₅, hr⟩ := h
    cases hr
    have e₁ := lowerReturnsInCfList_edited _ _ _ _ h₁
    have e₂ := lowerReturnsInCfList_edited _ _ _ _ h₂
    have e₃ := lowerReturnsInCfList_edited _ _ _ _ h₃
    have hbase₁ := Nat.le_trans hbase e₁.def_le
    have hbase₂ := Nat.le_trans hbase₁ e₂.def_le
    have hbase₃ := Nat.le_trans hbase₂ e₃.def_le
    obtain ⟨hb, hc, hct, hce, hcr⟩ := hclean.ofIte
    simp only [allDefs_ite, nodup_append] at hnodup
    obtain ⟨t', e', rest', hr₄, hthen, helse⟩ := lowerReturnsInIf_branches h₄
    rw [hr₄] at h₅
    rw [exec_eq_tail]
    refine lowerReturnsInBlock_follows h₅ hentry htop hb (fun hj q s s' hs => ?_) p hs
    change b.jump = none at hj
    rw [hj] at h₂ h₃
    have f₁ := lowerReturnsInCfList_facts _ _ _ _ h₁
    have f₂ := lowerReturnsInCfList_facts _ _ _ _ h₂
    have f₃ := lowerReturnsInCfList_facts _ _ _ _ h₃
    simp only [returnsGuarded, hj, bne_self_eq_false, Bool.false_or, and_eq_true, or_eq_true,
      Bool.not_eq_true'] at hg
    obtain ⟨hgr, ⟨hgt, hge⟩, hgm⟩ := hg
    simp only [hasJump, or_eq_false_iff] at hloop
    -- Nested returns are not there where the state says that none has been predicated.
    have hnested : r₃.2.2.hasPredicatedReturn = false → r₂.2.2.hasPredicatedReturn = false ∧
        nestedReturn t = false ∧ nestedReturn e = false := by
      intro hst
      obtain ⟨he, hst₂⟩ := f₃.not_nested hst
      exact ⟨hst₂, (f₂.not_nested hst₂).1, he⟩
    have hrett : x.inLoop = false → r₃.2.2.hasPredicatedReturn = false → r₂.2.1 = true →
        t.final.jump = some .ret := fun hl hst hp =>
      (f₂.predicated hl hp).resolve_left (by simp [(hnested hst).1])
    have hrete : x.inLoop = false → r₃.2.2.hasPredicatedReturn = false → r₃.2.1 = true →
        e.final.jump = some .ret := fun hl hst hp =>
      (f₃.predicated hl hp).resolve_left (by simp [hst])
    have hkept : x.inLoop = false → r₃.2.2.hasPredicatedReturn = false → movesRest t e = true →
        (t.final.jump == none || e.final.jump == none) = true → PhisKept r₁.1 := by
      intro hl hst hm hentry
      refine PhisKept.of_edited ?_ e₁ (f₁.phis hentry) hcr hbase hnodup.2.1.2.1
      simpa [hl, hm] using hgm
    have hphis := (hcr.blocks _ rest.first_mem_blocks).phis
    have hrest := ihr _ _ _ quiet h₁ hcr hbase hnodup.2.1.2.1 htop fun hl j hj => (hloop hl j hj).2
    have hrest : (t.final.jump == none || e.final.jump == none) = true → Tracks flag base x.inLoop
        x.top quiet (exec (ssaMachine W) n rest) (exec (ssaMachine W) n r₁.1) := fun hentry =>
      hrest (hgr.resolve_left (ne_false_of_eq_true hentry)) hentry
    have hquiet : x.inLoop = true →
      quietRest (t.final.jump == none || e.final.jump == none) quiet rest →
        ∀ p (s : SsaState), s.vars flag = true →
          Returned flag x.inLoop x.top quiet s.trace (exec (ssaMachine W) n r₁.1 p s) := by
      intro hl hq p s hs
      rw [hl]
      exact quietRest_returned h₁ rfl hq p hs
    have hcond : (ssaMachine W).cond c s' = (ssaMachine W).cond c s := by
      simp only [ssaMachine, hs.env c (Nat.not_le.mpr hc)]
    simp only [execTail, hcond]
    split
    · refine hthen.follows hbase₃ f₂ f₁ (iht _ _ _ _ h₂ hct hbase₁ hnodup.2.1.1.1 (by simp)
        (fun hl j hj => (hloop hl j hj).1.1.2) hgt rfl) hquiet (fun hf => by simp [hf]) hrest hphis
        (fun hl hst hpe hf => hkept hl hst ?_ (by simp [hf]))
        (fun hl hst hpt => by simp [hrett hl hst hpt])
        (fun hl j hj => ⟨(hloop hl j hj).1.1.2, (hloop hl j hj).2⟩) q hs
      simp [movesRest, (hnested hst).2, hf, hrete hl hst hpe]
    · refine helse.follows hbase₃ f₃ f₁ (ihe _ _ _ _ h₃ hce hbase₂ hnodup.2.1.1.2.1 (by simp)
        (fun hl j hj => (hloop hl j hj).1.2) hge rfl) hquiet (fun hf => by simp [hf]) hrest hphis
        (fun hl hst hpt hf => hkept hl hst ?_ (by simp [hf]))
        (fun hl hst hpe => by simp [hrete hl hst hpe])
        (fun hl j hj => ⟨(hloop hl j hj).1.2, (hloop hl j hj).2⟩) q hs
      simp [movesRest, (hnested hst).2, hf, hrett hl hst hpt]
  | loop b body rest ihb ihr =>
    intro x st r quiet h hclean hbase hnodup htop hloop hg hentry p s s' hs
    simp only [lowerReturnsInCfList, bind_eq_bind, Option.bind_eq_some_iff] at h
    obtain ⟨r₁, h₁, r₂, h₂, r₃, h₃, r₄, h₄, hr⟩ := h
    cases hr
    have f₁ := lowerReturnsInCfList_facts _ _ _ _ h₁
    have f₂ := lowerReturnsInCfList_facts _ _ _ _ h₂
    have e₁ := lowerReturnsInCfList_edited _ _ _ _ h₁
    have e₂ := lowerReturnsInCfList_edited _ _ _ _ h₂
    have hbase₁ := Nat.le_trans hbase e₁.def_le
    have hbase₂ := Nat.le_trans hbase₁ e₂.def_le
    obtain ⟨hb, hcb, hcr⟩ := hclean.ofLoop
    simp only [allDefs_loop, nodup_append] at hnodup
    rw [exec_eq_tail]
    refine lowerReturnsInBlock_follows h₄ hentry htop hb (fun hj q s s' hs => ?_) p hs
    change b.jump = none at hj
    simp only [returnsGuarded, hj, bne_self_eq_false, Bool.false_or, and_eq_true, or_eq_true,
      Bool.not_eq_true'] at hg
    obtain ⟨hgr, hgb, hgl⟩ := hg
    simp only [hasJump, or_eq_false_iff] at hloop
    have hrest := ihr _ _ _ quiet h₁ hcr hbase hnodup.2.1.2.1 htop fun hl j hj => (hloop hl j hj).2
    have hrest : body.hasJump jump .brk = true → Tracks flag base x.inLoop x.top quiet
        (exec (ssaMachine W) n rest) (exec (ssaMachine W) n r₁.1) := fun hentry =>
      hrest (hgr.resolve_left (ne_false_of_eq_true hentry)) hentry
    have hiter : Follows flag base x.inLoop false true (iterate (exec (ssaMachine W) n body) n q s)
        (iterate (exec (ssaMachine W) n r₂.1) n q s') :=
      iterate_follows (ihb _ _ _ false h₂ hcb hbase₁ hnodup.2.1.1 (by simp)
        (by simp) hgb (by simp [hj]))
        n q s s' hs
    have hentry' : (iterate (exec (ssaMachine W) n body) n q s).out = .next →
        body.hasJump jump .brk = true := fun hn => hasJump_of_iterate (M := ssaMachine W) hn
    have hlowers : (iterate (exec (ssaMachine W) n body) n q s).out = .ret →
        lowersReturn true body = true := by
      intro hr
      obtain ⟨q, s, hr⟩ := exists_ret_of_iterate hr
      exact lowersReturn_of_exec hr
    simp only [execTail]
    unfold lowerReturnsInLoop at h₃
    split_ifs at h₃ with hprogress
    · obtain ⟨a, ha, rfl⟩ := Option.map_eq_some_iff.mp h₃
      dsimp only
      refine hiter.andThen (fun hn => ?_) fun hret hn => ?_
      · obtain ⟨hp, hagree⟩ := hiter.goes (.inl hn)
        rw [hp]
        refine predicateFollowing_follows ha hbase₂ ?_
          (fun hl => exec_out_of_no_jump (fun j hj => (hloop hl j hj).2) _ _)
          (hrest (hentry' hn)) hagree
        rw [f₁.phis (hentry' hn)]
        exact (hcr.blocks _ rest.first_mem_blocks).phis
      · -- Where there is nothing to predicate in a loop, what follows must be a break anyway.
        have hret' := hiter.ret hret
        rw [← hret'.trace]
        refine predicateFollowing_returned ha (fun hnothing hl => ?_) _ (hret'.flag rfl)
        have htop' : x.top = false := by
          by_contra hc
          simp [htop (by simpa using hc)] at hl
        rcases hgl with ((hgl | hgl) | hgl) | ⟨hgl, hfollows⟩
        · simp [hl] at hgl
        · simp [hlowers hret] at hgl
        · exact hgl
        · simp [f₁.kept hgl hl htop' hnothing] at hfollows
    · cases h₃
      refine hiter.andThen (fun hn => ?_) fun hret => ?_
      · obtain ⟨hp, hagree⟩ := hiter.goes (.inl hn)
        rw [hp]
        exact hrest (hentry' hn) _ _ _ hagree
      · exact absurd (f₂.lowers (by rw [hj]; exact hlowers hret)) hprogress

/-! ## No assertion fails -/

/-- `lower_returns_in_block` succeeds where its assertion holds. -/
theorem lowerReturnsInBlock_isSome {x : ListCtx} (hx : x.header = true → x.inLoop = true)
    (h : l.isLast = true ∨ (x.inLoop || !(x.entry && l.first.jump == some .ret)) = true) :
    ∃ r, lowerReturnsInBlock flag x l st = some r := by
  rw [← Option.ne_none_iff_exists']
  intro hnone
  simp only [lowerReturnsInBlock] at hnone
  split_ifs at hnone with hpred _ _ hj _ hl hlast
  -- Outside of loops the list is entered from outside of it, so that the condition applies.
  have hl : x.inLoop = false := by simpa using hl
  have hheader : x.header = false := by
    by_contra hc
    simp [hx (by simpa using hc)] at hl
  simp only [hasPredecessor, hheader, Bool.false_and, Bool.or_false, Bool.not_eq_true',
    Bool.not_eq_false] at hpred
  have hj : l.first.jump = some .ret := by simpa using hj
  simp [hl, hlast, hpred, hj] at h

/-- `predicate_following` succeeds when the flag exists. -/
theorem predicateFollowing_isSome (h : st.returnFlag = true) :
    ∃ r, predicateFollowing flag inLoop rest st = some r := by
  rw [← Option.ne_none_iff_exists', predicateFollowing, h]
  intro hnone
  simp only [Bool.not_true, Bool.false_eq_true, if_false] at hnone
  split_ifs at hnone

/-- The pass succeeds where outside of loops every return ends its list. -/
theorem lowerReturnsInCfList_isSome : ∀ (l : SsaList) (x : ListCtx) (st : LowerState),
    (x.header = true → x.inLoop = true) → returnsLast x.inLoop x.entry l = true →
    ∃ r, lowerReturnsInCfList flag l x st = some r := by
  intro l
  induction l with
  | last b =>
    intro x st hx _
    exact lowerReturnsInBlock_isSome hx (.inl rfl)
  | ite b c t e rest iht ihe ihr =>
    intro x st hx h
    simp only [returnsLast, and_eq_true] at h
    obtain ⟨⟨⟨hr, ht⟩, he⟩, hb⟩ := h
    obtain ⟨r₁, h₁⟩ := ihr ⟨x.inLoop, x.top, t.final.jump == none || e.final.jump == none, false⟩ st
      (by simp) hr
    obtain ⟨r₂, h₂⟩ := iht ⟨x.inLoop, false, b.jump == none, false⟩
      { r₁.2.2 with hasPredicatedReturn := false } (by simp) ht
    obtain ⟨r₃, h₃⟩ := ihe ⟨x.inLoop, false, b.jump == none, false⟩ r₂.2.2 (by simp) he
    -- A return that was lowered in a branch has created the flag.
    have hflag : (r₂.2.1 || r₃.2.1) = true → r₃.2.2.returnFlag = true := by
      intro h
      rcases or_eq_true _ _ ▸ h with h | h
      · exact (lowerReturnsInCfList_edited _ _ _ _ h₃).returnFlag
          ((lowerReturnsInCfList_facts _ _ _ _ h₂).flag rfl h)
      · exact (lowerReturnsInCfList_facts _ _ _ _ h₃).flag rfl h
    obtain ⟨r₄, h₄⟩ : ∃ r, lowerReturnsInIf flag x.inLoop b c r₂.1 r₃.1 r₁.1 r₂.2.1 r₃.2.1 r₃.2.2 =
        some r := by
      rw [← Option.ne_none_iff_exists']
      intro hnone
      simp only [lowerReturnsInIf] at hnone
      split_ifs at hnone with hkept
      have hprogress : (r₂.2.1 || r₃.2.1) = true := by
        by_contra hc
        rw [not_eq_true] at hc
        simp [-or_eq_false_iff, hc] at hkept
      obtain ⟨a, ha⟩ : ∃ r, predicateFollowing flag x.inLoop r₁.1 r₃.2.2 = some r :=
        predicateFollowing_isSome (hflag hprogress)
      rw [ha] at hnone
      cases hnone
    obtain ⟨t', e', rest', hr₄, -⟩ := lowerReturnsInIf_branches h₄
    obtain ⟨r₅, h₅⟩ : ∃ r, lowerReturnsInBlock flag x r₄.1
        { r₄.2 with hasPredicatedReturn := r₂.2.1 || r₃.2.1 || r₁.2.2.hasPredicatedReturn } =
          some r :=
      lowerReturnsInBlock_isSome hx (.inr (by rw [hr₄]; exact hb))
    refine ⟨(r₅.1, r₁.2.1 || r₂.2.1 || r₃.2.1 || r₅.2.1, r₅.2.2), ?_⟩
    simp only [lowerReturnsInCfList, h₁, h₂, h₃, h₄, h₅, bind_eq_bind, bind_some]
  | loop b body rest ihb ihr =>
    intro x st hx h
    simp only [returnsLast, and_eq_true] at h
    obtain ⟨⟨hr, hbody⟩, hb⟩ := h
    obtain ⟨r₁, h₁⟩ := ihr ⟨x.inLoop, x.top, body.hasJump jump .brk, false⟩ st (by simp) hr
    obtain ⟨r₂, h₂⟩ := ihb ⟨true, false, b.jump == none, true⟩ r₁.2.2 (by simp) hbody
    obtain ⟨r₃, h₃⟩ : ∃ r, lowerReturnsInLoop flag x.inLoop r₁.1 r₂.2.1 r₂.2.2 = some r := by
      unfold lowerReturnsInLoop
      split_ifs with hprogress
      · obtain ⟨a, ha⟩ : ∃ r, predicateFollowing flag x.inLoop r₁.1 r₂.2.2 = some r :=
          predicateFollowing_isSome ((lowerReturnsInCfList_facts _ _ _ _ h₂).flag rfl hprogress)
        rw [ha]
        exact ⟨_, rfl⟩
      · exact ⟨_, rfl⟩
    obtain ⟨r₄, h₄⟩ : ∃ r, lowerReturnsInBlock flag x (.loop b r₂.1 r₃.1) r₃.2 = some r :=
      lowerReturnsInBlock_isSome hx (.inr hb)
    refine ⟨(r₄.1, r₁.2.1 || r₂.2.1 || r₄.2.1, r₄.2.2), ?_⟩
    simp only [lowerReturnsInCfList, h₁, h₂, h₃, h₄, bind_eq_bind, bind_some]

end

/-! ## Functions -/

/-- A function in SSA form, with breaks and continues in loops only. -/
structure ValidSsa (f : SsaList) : Prop extends SsaForm f where
  /-- Every def is written once. -/
  defs : (allDefs f).Nodup
  /-- Breaks and continues stand in loops. -/
  jumps : ∀ j, j ≠ .ret → f.hasJump jump j = false

section

variable {W : SsaWorld} {f l : SsaList} {flag n : ℕ} {st : LowerState}

/-- A def that is written once is written in one block. -/
theorem unique_of_nodup (h : (allDefs l).Nodup) :
    ∀ b ∈ l.blocks, ∀ b' ∈ l.blocks, ∀ d ∈ b.defs, d ∈ b'.defs → b'.label = b.label := by
  intro b hb b' hb' d hd hd'
  by_contra hne
  have hne' : b ≠ b' := by
    rintro rfl
    exact hne rfl
  have : Std.Symm (Function.onFun Disjoint defs) := ⟨fun _ _ h _ hd hd' => h hd' hd⟩
  exact (nodup_flatMap.mp h).2.forall hb hb' hne' hd hd'

/-- A function is clean of what is fresh for it. -/
theorem clean_of_fresh (f : SsaList) : Clean (freshName (ssaVars f))
    (freshName (ssaNames f)) f where
  blocks b hb := {
    names := fun _ hd => lt_freshName (mem_append_left _ (mem_flatMap.mpr ⟨b, hb, hd⟩))
    vars := fun h => absurd (lt_freshName (mem_flatMap.mpr ⟨b, hb, h⟩)) (Nat.lt_irrefl _) }
  conds _ hc := lt_freshName (mem_append_right _ hc)

/-- The function with a store that clears the flag at its start, where the flag was created. -/
def clearFlag (flag : ℕ) (st : LowerState) (l : SsaList) : SsaList :=
  if st.returnFlag then
    l.setFirst ⟨l.first.label, l.first.phis, ⟨.storeVar flag false, none, []⟩ :: l.first.instrs,
      l.first.jump⟩
  else l

/-- The blocks with the store. -/
theorem mem_blocks_clearFlag {b : Block SsaInstr} (hb : b ∈ (clearFlag flag st l).blocks) :
    ∃ a ∈ l.blocks, b.phis = a.phis ∧ b.jump = a.jump := by
  unfold clearFlag at hb
  split at hb
  · rw [blocks_setFirst] at hb
    rcases mem_cons.mp hb with rfl | hb
    · exact ⟨_, l.first_mem_blocks, rfl, rfl⟩
    · exact ⟨b, mem_of_mem_tail hb, rfl, rfl⟩
  · exact ⟨b, hb, rfl, rfl⟩

/-- With the store, the function runs as if the flag was clear at its start. Without it, nothing
uses the flag. -/
theorem exec_clearFlag (hvars : st.returnFlag = false → ∀ b ∈ l.blocks, flag ∉ b.vars) (p : ℕ)
    (s : SsaState) :
    let r := exec (ssaMachine W) n l p
      { s with vars := fun w => if w = flag then false else s.vars w }
    let r' := exec (ssaMachine W) n (clearFlag flag st l) p s
    r'.out = r.out ∧ r'.st.trace = r.st.trace := by
  dsimp only
  unfold clearFlag
  cases hst : st.returnFlag with
  | true =>
    rw [if_pos rfl, exec_setFirst, exec_eq_tail (l := l)]
    exact ⟨rfl, rfl⟩
  | false =>
    rw [if_neg (by simp)]
    have hagree : AgreeOff (fun _ => False) (fun w => w = flag)
        { s with vars := fun w => if w = flag then false else s.vars w } s :=
      ⟨rfl, fun _ _ => rfl, fun w hw => (if_neg hw).symm⟩
    obtain ⟨hout, h⟩ := exec_frame (W := W) (X := fun _ => False) (Y := fun w => w = flag) (l := l)
      (fun _ _ _ _ => id) (fun b hb w hw hwf => hvars hst b hb (hwf ▸ hw))
      (fun _ _ => id) n p hagree
    exact ⟨hout, h.trace⟩

/-- The phis of the list have no source for the block `q`, or it is not deleted. -/
def SourcesKept (gone : List ℕ) (l : SsaList) (q : ℕ) : Prop :=
  ∀ b ∈ l.blocks, ∀ φ ∈ b.phis, ∀ e ∈ φ.srcs, e.1 = q → q ∉ gone

/-- The sources of a phi without those for deleted blocks. -/
theorem lookup_dropSources {gone : List ℕ} {q : ℕ} : ∀ {srcs : List (ℕ × ℕ)},
    (∀ e ∈ srcs, e.1 = q → q ∉ gone) →
      (srcs.filter fun e => !gone.contains e.1).lookup q = srcs.lookup q
  | [], _ => rfl
  | e :: es, h => by
    have ih := lookup_dropSources fun e he => h e (mem_cons_of_mem _ he)
    rw [lookup_cons]
    by_cases he : e.1 ∈ gone
    · have hne : (q == e.1) = false := by
        rw [beq_eq_false_iff_ne]
        rintro rfl
        exact h e mem_cons_self rfl he
      rw [filter_cons_of_neg (by simpa using he), ih, hne]
    · rw [filter_cons_of_pos (by simpa using he), lookup_cons, ih]

/-- The phis of a block without the sources for deleted blocks. -/
theorem evalPhis_dropSources {gone : List ℕ} {q : ℕ} (ρ : Env) {phis : List Phi}
    (h : ∀ φ ∈ phis, ∀ e ∈ φ.srcs, e.1 = q → q ∉ gone) :
    evalPhis (phis.map fun φ => ⟨φ.dest, φ.srcs.filter fun e => !gone.contains e.1⟩) q ρ =
      evalPhis phis q ρ := by
  refine funext fun d => evalPhis_map (fun _ => rfl) (fun φ hφ _ => ?_) rfl
  simp only [Phi.eval, lookup_dropSources (h φ hφ)]

/-- The sources of phis for deleted blocks are not read. -/
theorem exec_dropSources {gone : List ℕ} (hl : ∀ b ∈ l.blocks, b.label ∉ gone) {p : ℕ}
    (hp : SourcesKept gone l p) (s : SsaState) :
    (exec (ssaMachine W) n (l.map (dropSources gone) id) p s).out =
        (exec (ssaMachine W) n l p s).out ∧
      (exec (ssaMachine W) n (l.map (dropSources gone) id) p s).st =
        (exec (ssaMachine W) n l p s).st := by
  have hsim : Simulation (ssaMachine W) (ssaMachine W) (fun _ _ => True)
      (fun b b' => b ∈ l.blocks ∧ b' = dropSources gone b) (fun _ c c' => c' = c)
      (fun _ q s s' => SourcesKept gone l q ∧ s' = s) := by
    refine ⟨fun b b' q s s' hb _ h => ?_, fun b c c' s s' hc h => ?_, fun _ _ _ h => h,
      fun _ _ _ h => h, fun _ _ _ h => h⟩
    · obtain ⟨hb, rfl⟩ := hb
      obtain ⟨hq, rfl⟩ := h
      have hrun : runSsaBlock W (dropSources gone b) q s' = runSsaBlock W b q s' := by
        simp only [runSsaBlock, dropSources, evalPhis_dropSources s'.env (hq b hb)]
      refine ⟨rfl, ?_, fun _ _ _ _ _ _ _ => hl b hb, ?_⟩
      · simp only [Machine.step, ssaMachine, hrun]
        rfl
      · simp only [Machine.step, ssaMachine, hrun]
    · rw [hc, h.2]
  have hsame : Same (fun b b' => b ∈ l.blocks ∧ b' = dropSources gone b) (fun _ c c' => c' = c) l
      (l.map (dropSources gone) id) := same_map _ _ _ _ l (fun b hb => ⟨hb, rfl⟩) fun _ _ _ => rfl
  obtain ⟨⟨-, hout, -, hst⟩, -⟩ :=
    exec_lockstep hsim n hsame ⟨0, 0, 0, 0⟩ (fun _ _ => trivial) p s s trivial ⟨hp, rfl⟩
  exact ⟨hout, hst⟩

/-- Names that are different, together with those of an interval behind them. -/
theorem count_add_within_le_one {ys : List ℕ} (hnodup : ys.Nodup) {lo : ℕ} (hlt : ∀ y ∈ ys, y < lo)
    (hi y : ℕ) : ys.count y + within lo hi y ≤ 1 := by
  have h := nodup_iff_count_le_one.mp hnodup y
  by_cases hy : y ∈ ys
  · rw [within, if_neg fun hw => Nat.not_le.mpr (hlt y hy) hw.1]
    exact h
  · rw [count_eq_zero.mpr hy, within]
    split <;> omega

/-- The lowered function is in SSA form, and has no deleted block. -/
theorem Edited.ssaForm {st' : LowerState} (h : Edited flag f st l st') (hf : ValidSsa f)
    (hdeleted : st.deleted = []) (hlabels : ∀ y ∈ f.labels label, y < st.nextBlock)
    (hdefs : ∀ d ∈ allDefs f, d < st.nextDef) :
    SsaForm ((clearFlag flag st' l).map (dropSources st'.deleted) id) ∧
      ∀ b ∈ (clearFlag flag st' l).blocks, b.label ∉ st'.deleted := by
  -- The store keeps names, defs, and phis.
  have hnames : (clearFlag flag st' l).labels label = l.labels label := by
    unfold clearFlag
    split
    · rw [labels_setFirst]
      rfl
    · rfl
  have hdef : ∀ d, (allDefs (clearFlag flag st' l)).count d = (allDefs l).count d := by
    intro d
    unfold clearFlag
    split
    · have := allDefs_setFirst ⟨l.first.label, l.first.phis,
        ⟨.storeVar flag false, none, []⟩ :: l.first.instrs, l.first.jump⟩ l d
      simp only [Block.defs, filterMap_cons] at this
      omega
    · rfl
  have hphis : ∀ b ∈ (clearFlag flag st' l).blocks, ∀ φ ∈ b.phis, ∃ b₀ ∈ f.blocks, φ ∈ b₀.phis := by
    intro b hb φ hφ
    obtain ⟨a, ha, hphis, -⟩ := mem_blocks_clearFlag hb
    exact h.phis a ha φ (hphis ▸ hφ)
  -- Every name is counted at most once.
  have hcount : ∀ y, (l.labels label).count y + st'.deleted.count y ≤ 1 := by
    intro y
    have h₁ := h.labels y
    rw [hdeleted, count_nil, Nat.add_zero] at h₁
    exact h₁ ▸ count_add_within_le_one hf.nodup hlabels _ y
  have hcount' : ∀ d, (allDefs (clearFlag flag st' l)).count d ≤ 1 := by
    intro d
    rw [hdef]
    exact Nat.le_trans (h.defs d) (count_add_within_le_one hf.defs hdefs _ d)
  have hlabel : ∀ b ∈ (clearFlag flag st' l).blocks, b.label ∈ l.labels label := fun b hb =>
    hnames ▸ mem_map.mpr ⟨b, hb, rfl⟩
  have hmap : ((clearFlag flag st' l).map (dropSources st'.deleted) id).labels label =
      l.labels label := by
    rw [labels_map (f := dropSources st'.deleted) (fun _ => rfl), hnames]
  have hdropped : ∀ b : Block SsaInstr, (dropSources st'.deleted b).defs = b.defs := by
    intro b
    simp [Block.defs, dropSources, Function.comp_def]
  refine ⟨⟨?_, fun b hb φ hφ e he => ?_, fun b hb b' hb' d hd hd' => ?_⟩, fun b hb hmem => ?_⟩
  · rw [hmap, nodup_iff_count_le_one]
    intro y
    have := hcount y
    omega
  · rw [blocks_map, mem_map] at hb
    obtain ⟨b, hb, rfl⟩ := hb
    simp only [dropSources, mem_map] at hφ
    obtain ⟨φ, hφ, rfl⟩ := hφ
    simp only [mem_filter, Bool.not_eq_true', contains_eq_mem, decide_eq_false_iff_not] at he
    obtain ⟨b₀, hb₀, hφ₀⟩ := hphis b hb φ hφ
    have h₁ := count_pos_iff.mpr (hf.preds b₀ hb₀ φ hφ₀ e he.1)
    have h₂ := h.labels e.1
    rw [count_eq_zero.mpr he.2] at h₂
    rw [hmap, ← count_pos_iff]
    omega
  · rw [blocks_map, mem_map] at hb hb'
    obtain ⟨b, hb, rfl⟩ := hb
    obtain ⟨b', hb', rfl⟩ := hb'
    rw [hdropped] at hd hd'
    exact unique_of_nodup (nodup_iff_count_le_one.mpr hcount') b hb b' hb' d hd hd'
  · have h₁ := count_pos_iff.mpr (hlabel b hb)
    have h₂ := count_pos_iff.mpr hmem
    have := hcount b.label
    omega

/-- Lowering the returns of a function. -/
theorem lowerReturnsImpl_eq (f : SsaList) {r : SsaList × Bool × LowerState}
    (h : lowerReturnsInCfList (freshName (ssaVars f)) f ⟨false, true, true, false⟩
      ⟨false, false, false, freshName (f.labels label), freshName (ssaNames f), []⟩ = some r) :
    lowerReturnsImpl f =
      let l := (clearFlag (freshName (ssaVars f)) r.2.2 r.1).map (dropSources r.2.2.deleted) id
      if r.2.1 || r.2.2.removedUnreachableCode then repairSsaImpl l else some l := by
  unfold lowerReturnsImpl
  simp only [h, bind_eq_bind, bind_some]
  rfl

/-- The returns of a function are removed, and its runs stay the same: at every bound on iterations
the same instructions are observed with the same operands, and control falls off the end of the
function where it returned. -/
theorem lowerReturnsImpl_preserves_runs {f : SsaList} (hf : ValidSsa f)
    (hlast : returnsLast false true f = true) (hguarded : returnsGuarded false false f = true) :
    ∃ g, lowerReturnsImpl f = some g ∧ NoReturn g ∧
      ∀ (W : SsaWorld) (n p : ℕ), p ∉ f.labels label → p ∉ g.labels label →
        (exec (ssaMachine W) n g p (init W)).st.trace =
            (exec (ssaMachine W) n f p (init W)).st.trace ∧
          (exec (ssaMachine W) n g p (init W)).out =
            if (exec (ssaMachine W) n f p (init W)).out = .ret then .next
            else (exec (ssaMachine W) n f p (init W)).out := by
  have hclean := clean_of_fresh f
  obtain ⟨r, hr⟩ : ∃ r, lowerReturnsInCfList (freshName (ssaVars f)) f ⟨false, true, true, false⟩
      ⟨false, false, false, freshName (f.labels label), freshName (ssaNames f), []⟩ = some r :=
    lowerReturnsInCfList_isSome _ _ _ (by simp) hlast
  have hfacts := lowerReturnsInCfList_facts _ _ _ _ hr
  have hedit := lowerReturnsInCfList_edited _ _ _ _ hr
  have hdefs : ∀ d ∈ allDefs f, d < freshName (ssaNames f) := by
    intro d hd
    obtain ⟨b, hb, hd⟩ := mem_flatMap.mp hd
    exact (hclean.blocks b hb).names d (mem_names.mpr (.inl hd))
  obtain ⟨hssa, hgone⟩ := hedit.ssaForm hf rfl (fun y hy => lt_freshName hy) hdefs
  have heq := lowerReturnsImpl_eq f hr
  generalize hl : (clearFlag (freshName (ssaVars f)) r.2.2 r.1).map
    (dropSources r.2.2.deleted) id = l
    at hssa heq
  -- Repairing the defs keeps jumps and runs.
  obtain ⟨g, hg, hjumps, hlabels, hruns⟩ : ∃ g, lowerReturnsImpl f = some g ∧
      g.blocks.map jump = l.blocks.map jump ∧ g.labels label = l.labels label ∧
      ∀ (W : SsaWorld) (n p : ℕ), p ∉ l.labels label →
        (exec (ssaMachine W) n g p (init W)).st.trace =
            (exec (ssaMachine W) n l p (init W)).st.trace ∧
          (exec (ssaMachine W) n g p (init W)).out =
            (exec (ssaMachine W) n l p (init W)).out := by
    rw [heq]
    simp only
    split
    · obtain ⟨g, next, hg, hrep⟩ := repairSsaImpl_repaired hssa
      exact ⟨g, hg, hrep.jumps_eq, hrep.labels_eq, fun W n p hp =>
        ⟨(hrep.runs W n p hp).trace, (hrep.runs W n p hp).out⟩⟩
    · exact ⟨l, rfl, rfl, rfl, fun _ _ _ _ => ⟨rfl, rfl⟩⟩
  refine ⟨g, hg, fun b hb => ?_, fun W n p hpf hpg => ?_⟩
  · have hmem : b.jump ∈ l.blocks.map jump := hjumps ▸ mem_map.mpr ⟨b, hb, rfl⟩
    obtain ⟨b', hb', hj⟩ := mem_map.mp hmem
    rw [← hl, blocks_map, mem_map] at hb'
    obtain ⟨b'', hb'', rfl⟩ := hb'
    obtain ⟨a, ha, -, hj'⟩ := mem_blocks_clearFlag hb''
    rw [← hj, show (dropSources r.2.2.deleted b'').jump = b''.jump from rfl, hj']
    exact hfacts.noReturn a ha
  · have hkept : SourcesKept r.2.2.deleted (clearFlag (freshName (ssaVars f)) r.2.2 r.1) p := by
      intro b hb φ hφ e he hep
      obtain ⟨a, ha, hphis, -⟩ := mem_blocks_clearFlag hb
      obtain ⟨a', ha', hφ'⟩ := hedit.phis a ha φ (hphis ▸ hφ)
      exact absurd (hep ▸ hf.preds a' ha' φ hφ' e he) hpf
    have hvars : r.2.2.returnFlag = false → ∀ b ∈ r.1.blocks, freshName (ssaVars f) ∉ b.vars := by
      intro hst b hb hmem
      obtain ⟨i, hi, hmem⟩ := mem_flatMap.mp hmem
      rcases hedit.instrs b hb i hi with ⟨a, ha, hi⟩ | ⟨-, hflag⟩
      · exact (hclean.blocks a ha).vars (mem_flatMap.mpr ⟨i, hi, hmem⟩)
      · simp [hst] at hflag
    obtain ⟨htrace₁, hout₁⟩ := hruns W n p (hlabels ▸ hpg)
    obtain ⟨hout₂, hst₂⟩ := exec_dropSources (W := W) (n := n) hgone hkept (init W)
    obtain ⟨hout₃, htrace₃⟩ := exec_clearFlag (W := W) (n := n) hvars p (init W)
    rw [← hl] at htrace₁ hout₁
    rw [htrace₁, hst₂, htrace₃, hout₁, hout₂, hout₃]
    have hagree : Agree (freshName (ssaVars f)) (freshName (ssaNames f)) (init W)
        { init W with
          vars := fun w => if w = freshName (ssaVars f) then false else (init W).vars w } :=
      ⟨⟨rfl, fun _ _ => rfl, fun w hw => if_neg hw⟩, if_pos rfl⟩
    have hfollows := lowerReturnsInCfList_follows (W := W) (n := n) f _ _ r false hr hclean
      (Nat.le_refl _) hf.defs (fun _ => rfl) (fun _ => hf.jumps) hguarded rfl p _ _ hagree
    by_cases hret : (exec (ssaMachine W) n f p (init W)).out = .ret
    · have hreturned := hfollows.ret hret
      rw [if_pos hret]
      exact ⟨hreturned.trace, (hreturned.out.resolve_right (by simp)).1⟩
    · rw [if_neg hret]
      exact ⟨hfollows.trace hret, hfollows.out hret⟩

end

/-- A world in which nothing is computed and nothing ends. -/
def idleWorld : SsaWorld := ⟨fun _ _ _ => 0, fun _ _ => 0, fun _ =>
    false, fun _ => 0, fun _ => false⟩

/-- A loop with two loops around a return that is guarded: the code behind the inner loop is
predicated on the flag, and so is the code behind the outer one. -/
def guardedReturn : SsaList :=
  .loop ⟨0, [], [⟨.pure 0, some 0, []⟩], none⟩
    (.loop ⟨1, [], [⟨.effect 0, some 1, [0]⟩], none⟩
      (.ite ⟨2, [], [⟨.effect 1, some 2, [1]⟩], none⟩ 2 (.last ⟨3, [], [], some .ret⟩)
        (.last ⟨4, [], [], some .brk⟩) (.last ⟨5, [], [], none⟩))
      (.ite ⟨6, [], [⟨.effect 2, some 3, []⟩], none⟩ 3 (.last ⟨7, [], [], some .brk⟩)
        (.last ⟨8, [], [], none⟩) (.last ⟨9, [], [], none⟩)))
    (.last ⟨10, [], [⟨.effect 3, none, [1]⟩], none⟩)

/-- A function without phis is valid where its names and defs are different. -/
theorem validSsa_of_no_phis {f : SsaList} (hlabels : (f.labels label).Nodup)
    (hphis : ∀ b ∈ f.blocks, b.phis = []) (hdefs : (allDefs f).Nodup)
    (hbrk : f.hasJump jump .brk = false) (hcont : f.hasJump jump .cont = false) :
    ValidSsa f := by
  refine ⟨⟨hlabels, fun b hb φ hφ => ?_, unique_of_nodup hdefs⟩, hdefs, fun j hj => ?_⟩
  · simp [hphis b hb] at hφ
  · cases j with
    | brk => exact hbrk
    | cont => exact hcont
    | ret => exact absurd rfl hj

/-- The returns of this function are lowered. -/
theorem lowerReturnsImpl_guardedReturn : ∃ g, lowerReturnsImpl guardedReturn = some g ∧ NoReturn g ∧
    ∀ (W : SsaWorld) (n p : ℕ), p ∉ guardedReturn.labels label → p ∉ g.labels label →
      (exec (ssaMachine W) n g p (init W)).st.trace =
          (exec (ssaMachine W) n guardedReturn p (init W)).st.trace ∧
        (exec (ssaMachine W) n g p (init W)).out =
          if (exec (ssaMachine W) n guardedReturn p (init W)).out = .ret then .next
          else (exec (ssaMachine W) n guardedReturn p (init W)).out :=
  lowerReturnsImpl_preserves_runs
    (validSsa_of_no_phis (by decide) (by decide) (by decide) (by decide)
      (by decide)) (by decide) (by decide)

/-- A return in a loop that is all there is in another loop. -/
def nestedLoopReturn : SsaList :=
  .loop ⟨0, [], [], none⟩
    (.loop ⟨1, [], [], none⟩ (.last ⟨2, [], [⟨.effect 0, none, []⟩], some .ret⟩)
      (.last ⟨3, [], [], none⟩))
    (.last ⟨4, [], [], none⟩)

/-- The function returns after one instruction. The lowered one executes the instruction in every
iteration of the outer loop, which it does not leave: there is no break behind the inner loop. -/
theorem lowerReturnsImpl_nestedLoopReturn : ValidSsa nestedLoopReturn ∧
    ∃ g, lowerReturnsImpl nestedLoopReturn = some g ∧
      (exec (ssaMachine idleWorld) 2 nestedLoopReturn 5 (init idleWorld)).out = .ret ∧
      (exec (ssaMachine idleWorld) 2 nestedLoopReturn 5 (init idleWorld)).st.trace.length = 1 ∧
      (exec (ssaMachine idleWorld) 2 g 5 (init idleWorld)).out = .timeout ∧
      (exec (ssaMachine idleWorld) 2 g 5 (init idleWorld)).st.trace.length = 2 :=
  ⟨validSsa_of_no_phis (by decide) (by decide) (by decide) (by decide) (by decide),
    _, rfl, rfl, rfl, rfl, rfl⟩

end Mesa3D.Nir
