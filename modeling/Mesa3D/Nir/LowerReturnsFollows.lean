import Mesa3D.Nir.LowerReturnsStatic
import Mesa3D.Nir.RepairSsaCorrect

/-!
# The runs of lowered lists

The runs of a list and of the lowered list are related by `Follows`: where the list returns, the
lowered one leaves with the return flag set, by a break in a loop and by falling off its end
elsewhere, and otherwise both leave in the same way and with the flag clear. There is one lemma for
the first block of a list, and one for each way in which the pass rewrites what follows a node:
predicated on the flag, moved into a branch, or left alone.
-/

namespace Mesa3D.Nir

open Structured Bool

/-! ## Related states and results -/

/-- The states of the two runs while no return was reached. -/
structure Agree (flag base : ℕ) (s s' : SsaState) : Prop extends
    AgreeOff (fun d => base ≤ d) (fun w => w = flag) s s' where
  /-- The flag is clear. -/
  clear : s'.vars flag = false

/-- How a lowered list leaves where the list returns with the given trace. -/
structure Returned (flag : ℕ) (inLoop top quiet : Bool)
    (trace : List SsaEvent) (r' : Res SsaState) :
    Prop where
  /-- The same instructions have been observed. -/
  trace : r'.st.trace = trace
  /-- The flag is set, except at the end of the function. -/
  flag : top = false → r'.st.vars flag = true
  /-- In a loop control breaks, unless what follows is a break anyway. Elsewhere it falls off the
  end. -/
  out : r'.out = .next ∧ (inLoop = true → quiet = true) ∨ r'.out = .brk ∧ inLoop = true

/-- The results of a list and of the lowered list. -/
structure Follows (flag base : ℕ) (inLoop top quiet : Bool) (r r' : Res SsaState) : Prop where
  /-- Where the list returns. -/
  ret : r.out = .ret → Returned flag inLoop top quiet r.st.trace r'
  /-- Otherwise both leave in the same way. -/
  out : r.out ≠ .ret → r'.out = r.out
  /-- The same instructions have been observed. -/
  trace : r.out ≠ .ret → r'.st.trace = r.st.trace
  /-- Where control goes on, it comes from the same block and the states agree. -/
  goes : r.out = .next ∨ r.out = .brk ∨ r.out = .cont →
    r'.prev = r.prev ∧ Agree flag base r.st r'.st

/-- From states that agree, what follows in the list and in the lowered one has related results. -/
def Tracks (flag base : ℕ) (inLoop top quiet : Bool) (k k' : ℕ → SsaState → Res SsaState) : Prop :=
  ∀ p s s', Agree flag base s s' → Follows flag base inLoop top quiet (k p s) (k' p s')

/-- The phis use old defs. -/
def OldPhis (base : ℕ) (phis : List Phi) : Prop :=
  ∀ φ ∈ phis, φ.dest < base ∧ ∀ e ∈ φ.srcs, e.2 < base

/-- A block that does not use new defs and the flag. -/
structure CleanBlock (flag base : ℕ) (b : Block SsaInstr) : Prop where
  /-- The defs are old. -/
  names : ∀ d ∈ b.names, d < base
  /-- The flag is not used. -/
  vars : flag ∉ b.vars

/-- A list that does not use new defs and the flag. -/
structure Clean (flag base : ℕ) (l : SsaList) : Prop where
  /-- The blocks do not. -/
  blocks : ∀ b ∈ l.blocks, CleanBlock flag base b
  /-- The conditions are old. -/
  conds : ∀ c ∈ l.conds, c < base

section

variable {W : SsaWorld} {flag base : ℕ} {inLoop top quiet : Bool} {s s' : SsaState}
  {b : Block SsaInstr} {l l' t e rest rest' : SsaList} {st : LowerState} {n : ℕ}

variable {d p : ℕ} {k : ℕ → SsaState → Res SsaState} {phis : List Phi} {q : Bool}

/-- What a block reads is one of its names. -/
theorem Block.reads_subset_names (b : Block SsaInstr) (h : d ∈ b.reads) : d ∈ b.names := by
  simp only [Block.reads, Block.names, List.mem_append] at h ⊢
  tauto

/-- A clean block runs the same from states that agree. -/
theorem Agree.step (h : Agree flag base s s') (hb : CleanBlock flag base b) (p : ℕ) :
    ((ssaMachine W).step b p s').out = ((ssaMachine W).step b p s).out ∧
      Agree flag base ((ssaMachine W).step b p s).st ((ssaMachine W).step b p s').st := by
  obtain ⟨hstop, h'⟩ := h.toAgreeOff.block (W := W) (b := b) p
    (fun d hd => Nat.not_le.mpr (hb.names d (b.reads_subset_names hd)))
    (fun w hw hwf => hb.vars (hwf ▸ hw))
  refine ⟨?_, h', (runSsaBlock_vars hb.vars p s').trans h.clear⟩
  simp only [Machine.step, ssaMachine, hstop]
  rfl

/-- Related results stay related when related continuations follow. -/
theorem Follows.andThen {q : Bool} {r r' : Res SsaState} {k k' : ℕ → SsaState → Res SsaState}
    (h : Follows flag base inLoop false q r r')
    (hnext : r.out = .next → Follows flag base inLoop top quiet (k r.prev r.st) (k' r'.prev r'.st))
    (hret : r.out = .ret → r'.out = .next →
      Returned flag inLoop top quiet r.st.trace (k' r'.prev r'.st)) :
    Follows flag base inLoop top quiet (r.andThen k) (r'.andThen k') := by
  by_cases hn : r.out = .next
  · have hn' : r'.out = .next := (h.out (by simp [hn])).trans hn
    rw [Res.andThen_next k hn, Res.andThen_next k' hn']
    exact hnext hn
  · rw [Res.andThen_of_ne k hn]
    by_cases hr : r.out = .ret
    · have hret' := h.ret hr
      have hret'' : Returned flag inLoop top quiet r.st.trace (r'.andThen k') := by
        rcases hret'.out with ⟨ho, -⟩ | ⟨ho, hl⟩
        · rw [Res.andThen_next k' ho]
          exact hret hr ho
        · rw [Res.andThen_of_ne k' (by simp [ho])]
          exact ⟨hret'.trace, fun _ => hret'.flag rfl, .inr ⟨ho, hl⟩⟩
      exact ⟨fun _ => hret'', fun h => absurd hr h, fun h => absurd hr h,
        fun h => by simp [hr] at h⟩
    · rw [Res.andThen_of_ne k' (by rw [h.out hr]; exact hn)]
      exact ⟨fun h => absurd h hr, h.out, h.trace, h.goes⟩

/-! ## The first block of a list -/

/-- A step of the machine is a run of the block and its jump. -/
theorem ssaMachine_step (b : Block SsaInstr) (p : ℕ) (s : SsaState) : (ssaMachine W).step b p s =
    ⟨b.label, (runSsaBlock W b p s).1, if (runSsaBlock W b p s).2 then .halt
      else Jump.outcome b.jump⟩ := rfl

/-- A block without instructions. -/
theorem step_of_isEmpty (h : b.instrs = []) (p : ℕ) (s : SsaState) : (ssaMachine W).step b p s =
    ⟨b.label, { s with env := evalPhis b.phis p s.env }, Jump.outcome b.jump⟩ := by
  rw [ssaMachine_step, runSsaBlock, h]
  rfl

/-- A block with a store to the flag at its end. -/
theorem runSsaBlock_store (flag : ℕ) (b : Block SsaInstr) (label : ℕ) (j : Option Jump)
    (p : ℕ) (s : SsaState) :
    runSsaBlock W ⟨label, b.phis, b.instrs ++ [⟨.storeVar flag true, none, []⟩], j⟩ p s =
      if (runSsaBlock W b p s).2 then runSsaBlock W b p s
      else ({ (runSsaBlock W b p s).1 with
        vars := fun w => if w = flag then true else (runSsaBlock W b p s).1.vars w }, false) :=
  runInstrs_append _ _ _

/-- A block that returns and the lowered block: both end the run, or the lowered one leaves by its
own jump. -/
theorem step_returned {b : Block SsaInstr} (b' : Block SsaInstr) (hj : b.jump = some .ret)
    (hs : Agree flag base s s') (hb : CleanBlock flag base b)
    (hstop : (runSsaBlock W b p s').2 = true → runSsaBlock W b' p s' = runSsaBlock W b p s')
    (hgo : (runSsaBlock W b p s').2 = false → (runSsaBlock W b' p s').2 = false ∧
      (runSsaBlock W b' p s').1.trace = (runSsaBlock W b p s').1.trace ∧
      (top = false → (runSsaBlock W b' p s').1.vars flag = true))
    (hout : b'.jump = none ∧ (inLoop = true → quiet = true) ∨ b'.jump = some .brk ∧ inLoop = true)
    {k' : ℕ → SsaState → Res SsaState} (hk' : b'.jump = none → ∀ q s, k' q s = ⟨q, s, .next⟩) :
    Follows flag base inLoop top quiet (((ssaMachine W).step b p s).andThen k)
      (((ssaMachine W).step b' p s').andThen k') := by
  obtain ⟨hsame, hagree⟩ := hs.step (W := W) hb p
  rw [ssaMachine_step, ssaMachine_step] at hsame
  rw [ssaMachine_step, ssaMachine_step] at hagree
  rw [ssaMachine_step, ssaMachine_step b']
  cases hr : (runSsaBlock W b p s').2 with
  | true =>
    -- The run ends inside of the block.
    have hr₀ : (runSsaBlock W b p s).2 = true := by
      by_contra hc
      simp [hr, hc, hj, Jump.outcome] at hsame
    rw [hstop hr, hr, hr₀, if_pos rfl, Res.andThen_of_ne k (by simp),
      Res.andThen_of_ne k' (by simp)]
    exact ⟨by simp, fun _ => rfl, fun _ => hagree.trace, by simp⟩
  | false =>
    have hr₀ : (runSsaBlock W b p s).2 = false := by
      by_contra hc
      simp [hr, hc, hj, Jump.outcome] at hsame
    obtain ⟨hgo, htrace, hflag⟩ := hgo hr
    have hret : Returned flag inLoop top quiet (runSsaBlock W b p s).1.trace
        (Res.andThen ⟨b'.label, (runSsaBlock W b' p s').1, Jump.outcome b'.jump⟩ k') := by
      rcases hout with ⟨hj', hq⟩ | ⟨hj', hl⟩
      · rw [Res.andThen_next k' (by simp [hj', Jump.outcome]), hk' hj']
        exact ⟨htrace.trans hagree.trace, hflag, .inl ⟨rfl, hq⟩⟩
      · rw [Res.andThen_of_ne k' (by simp [hj', Jump.outcome])]
        exact ⟨htrace.trans hagree.trace, hflag, .inr ⟨by simp [hj', Jump.outcome], hl⟩⟩
    have hne : Jump.outcome b.jump = .ret := by rw [hj, Jump.outcome]
    rw [hr₀, hgo, if_neg (by simp), if_neg (by simp), Res.andThen_of_ne k (by simp [hne])]
    exact ⟨fun _ => hret, by simp [hne], by simp [hne], by simp [hne]⟩

/-- The first block of a list is lowered last. The continuation `k` is what follows it in the list,
and `m` has the lowered continuation. -/
theorem lowerReturnsInBlock_follows {x : ListCtx} {m : SsaList} {r : SsaList × Bool × LowerState}
    (h : lowerReturnsInBlock flag x m st = some r) (hentry : x.entry = true)
    (hx : x.top = true → x.inLoop = false) (hb : CleanBlock flag base m.first)
    (hk : m.first.jump = none →
      Tracks flag base x.inLoop x.top quiet k (execTail (ssaMachine W) n m))
    (p : ℕ) (hs : Agree flag base s s') :
    Follows flag base x.inLoop x.top quiet (((ssaMachine W).step m.first p s).andThen k)
      (exec (ssaMachine W) n r.1 p s') := by
  obtain ⟨hout, hagree⟩ := hs.step (W := W) hb p
  have hpred : hasPredecessor x m = true := by simp [hasPredecessor, hentry]
  rcases lowerReturnsInBlock_cases h with ⟨hp, -⟩ | ⟨-, hj, rfl⟩ | ⟨-, hj, htop, hlast, rfl⟩ |
    ⟨-, hj, htop, hlast, rfl⟩
  · simp [hpred] at hp
  · -- No return: the block is as it was.
    have hne : ((ssaMachine W).step m.first p s).out ≠ .ret := fun h =>
      hj (Machine.jump_of_step (M := ssaMachine W) (j := some .ret) h)
    rw [exec_eq_tail]
    refine Follows.andThen (q := quiet)
      ⟨fun h => absurd h hne, fun _ => hout, fun _ => hagree.trace, fun _ => ⟨rfl, hagree⟩⟩
      (fun hnext => ?_) fun h => absurd h hne
    exact hk (Machine.jump_of_step_next (M := ssaMachine W) hnext) _ _ _ hagree
  · -- The return at the end of the function is dropped.
    rw [exec_setFirst]
    have hrun : runSsaBlock W ⟨m.first.label, m.first.phis, m.first.instrs, none⟩ p s' =
        runSsaBlock W m.first p s' := rfl
    refine step_returned ⟨m.first.label, m.first.phis, m.first.instrs, none⟩ hj hs hb
      (fun _ => hrun) (fun hr => ⟨hrun ▸ hr, by rw [hrun], fun ht => by simp [htop] at ht⟩) ?_ ?_
    · exact .inl ⟨rfl, fun hl => by simp [hx htop] at hl⟩
    · intro _ q s
      cases m <;> simp [CfList.isLast] at hlast
      rfl
  · -- The return becomes a store to the flag, and a break in a loop.
    rw [exec_setFirst]
    have hrun := runSsaBlock_store (W := W) flag m.first m.first.label
      (if x.inLoop then some .brk else none) p s'
    refine step_returned ⟨m.first.label, m.first.phis,
      m.first.instrs ++ [⟨.storeVar flag true, none, []⟩],
        if x.inLoop then some .brk else none⟩ hj hs hb
      (fun hr => by rw [hrun, if_pos hr])
      (fun hr => by rw [hrun, if_neg (by simp [hr])]; exact ⟨rfl, rfl, fun _ => if_pos rfl⟩) ?_ ?_
    · cases hl : x.inLoop with
      | true => exact .inr ⟨rfl, rfl⟩
      | false => exact .inl ⟨rfl, by simp⟩
    · intro hjn q s
      have hl : x.inLoop = false := by
        by_contra hl
        simp [hl] at hjn
      have hlast := hlast.resolve_left (by simp [hl])
      cases m <;> simp [CfList.isLast] at hlast
      rfl

/-! ## What follows a node -/

/-- A list from behind the phis of its first block, which have been evaluated, runs like the
list. -/
theorem exec_dropPhis (l : SsaList) (p q : ℕ) (s : SsaState) :
    exec (ssaMachine W) n (dropPhis l) q { s with env := evalPhis l.first.phis p s.env } =
      exec (ssaMachine W) n l p s := by
  rw [dropPhis, exec_setFirst, exec_eq_tail (l := l)]
  rfl

/-- A list whose last block has another name. -/
theorem exec_renameFinal (y : ℕ) (l : SsaList) (p : ℕ) (s : SsaState) :
    let r := exec (ssaMachine W) n l p s
    let r' := exec (ssaMachine W) n (renameFinal y l) p s
    r'.out = r.out ∧ r'.st = r.st :=
  exec_graft (Φ := fun r r' => r'.out = r.out ∧ r'.st = r.st) (fun _ _ => ⟨rfl, rfl⟩) l
    (fun _ _ => ⟨rfl, rfl⟩) p s

/-- An empty block changes nothing. -/
theorem exec_empty (label : ℕ) (j : Option Jump) (p : ℕ) (s : SsaState) :
    exec (ssaMachine W) n (.last (.phisOnly label [] j)) p s = ⟨label, s, Jump.outcome j⟩ := rfl

/-- A list that is closed by a block in which nothing is observed. The result `a` is that of the
list `z`, up to the values of defs and the block that control comes from. -/
theorem Follows.close {r z a : Res SsaState} (h : Follows flag base false top quiet r z) (label : ℕ)
    (hout : a.out = z.out) (htrace : a.st.trace = z.st.trace) (hvars : a.st.vars = z.st.vars)
    (hlabel : z.out = .next → z.prev = label)
    (hk : ∀ q s, (k q s).prev = label ∧ (k q s).out = .next ∧ (k q s).st.trace = s.trace ∧
      (k q s).st.vars = s.vars)
    (hnext : r.out = .next → Agree flag base r.st (k a.prev a.st).st)
    (hloop : r.out ≠ .brk ∧ r.out ≠ .cont) : Follows flag base false top quiet r (a.andThen k) := by
  refine ⟨fun hr => ?_, fun hr => ?_, fun hr => ?_, fun hr => ?_⟩
  · have hret := h.ret hr
    obtain ⟨ho, -⟩ := hret.out.resolve_right (by simp)
    rw [Res.andThen_next k (hout.trans ho)]
    obtain ⟨-, hk₁, hk₂, hk₃⟩ := hk a.prev a.st
    exact ⟨hk₂.trans (htrace.trans hret.trace), fun ht => by rw [hk₃, hvars, hret.flag ht],
      .inl ⟨hk₁, by simp⟩⟩
  · by_cases hn : z.out = .next
    · rw [Res.andThen_next k (hout.trans hn), (hk _ _).2.1, ← hn, h.out hr]
    · rw [Res.andThen_of_ne k (hout ▸ hn), hout, h.out hr]
  · by_cases hn : z.out = .next
    · rw [Res.andThen_next k (hout.trans hn), (hk _ _).2.2.1, htrace, h.trace hr]
    · rw [Res.andThen_of_ne k (hout ▸ hn), htrace, h.trace hr]
  · have hr : r.out = .next := by simpa [hloop.1, hloop.2] using hr
    have hz : z.out = .next := (h.out (by simp [hr])).trans hr
    rw [Res.andThen_next k (hout.trans hz), (hk _ _).1, ← (h.goes (.inl hr)).1, hlabel hz]
    exact ⟨rfl, hnext hr⟩

/-- Phis do not see a def that they neither read nor write. -/
theorem evalPhis_set (hdest : ∀ φ ∈ phis, φ.dest ≠ d) (hsrcs : ∀ φ ∈ phis, ∀ e ∈ φ.srcs, e.2 ≠ d)
    (p : ℕ) (ρ : Env) (v : Value) : evalPhis phis p (ρ.set d v) = (evalPhis phis p ρ).set d v := by
  funext x
  by_cases hx : x = d
  · subst hx
    rw [Env.set_self, evalPhis_of_not_mem, Env.set_self]
    rintro hmem
    obtain ⟨φ, hφ, h⟩ := List.mem_map.mp hmem
    exact hdest φ hφ h
  · rw [Env.set_of_ne _ _ hx]
    exact evalPhis_congr (fun φ hφ e he => Env.set_of_ne _ _
      (hsrcs φ hφ e he)) (Env.set_of_ne _ _ hx)

/-- The condition on a loaded boolean. -/
theorem boolValue_ne_zero (v : Bool) : (boolValue v 0 != 0) = v := by
  cases v <;> rfl

/-- The run of a predicated list: the flag is loaded behind the phis, and the branch is taken that
it says. -/
theorem exec_load {label : ℕ} {t e after : SsaList} (p : ℕ) (s : SsaState) :
    exec (ssaMachine W) n
        (.ite ⟨label, phis, [⟨.loadVar flag, some d, []⟩], none⟩ d t e after) p s =
      (exec (ssaMachine W) n (if s.vars flag then t else e) label
        { s with env := (evalPhis phis p s.env).set d (boolValue (s.vars flag)) }).andThen
          (exec (ssaMachine W) n after) := by
  have hstep : (ssaMachine W).step ⟨label, phis, [⟨.loadVar flag, some d, []⟩], none⟩ p s =
      ⟨label, { s with env := (evalPhis phis p s.env).set d (boolValue (s.vars flag)) }, .next⟩ :=
        rfl
  simp only [exec]
  rw [Res.andThen_next _ (by rw [hstep]), hstep]
  have hcond : (ssaMachine W).cond d
      { s with env := (evalPhis phis p s.env).set d (boolValue (s.vars flag)) } = s.vars flag := by
    simp only [ssaMachine, Env.set_self, boolValue_ne_zero]
  simp only [hcond]
  cases s.vars flag <;> rfl

/-- A list without anything but phis does nothing else. -/
theorem exec_nothingFollows (h : nothingFollows l = true) (p : ℕ) (s : SsaState) :
    let r := exec (ssaMachine W) n l p s
    r.out = .next ∧ r.st.trace = s.trace ∧ r.st.vars = s.vars := by
  cases l with
  | last b =>
    simp only [nothingFollows, and_eq_true, List.isEmpty_iff, beq_iff_eq] at h
    rw [exec, step_of_isEmpty h.1, h.2]
    exact ⟨rfl, rfl, rfl⟩
  | ite | loop => simp [nothingFollows] at h

/-- What follows is skipped where the flag is set. -/
theorem predicateFollowing_returned {r : SsaList × LowerState}
    (h : predicateFollowing flag inLoop rest' st = some r)
    (hq : nothingFollows rest' = true → inLoop = true → quiet = true) (p : ℕ)
    (hflag : s'.vars flag = true) :
    Returned flag inLoop top quiet s'.trace (exec (ssaMachine W) n r.1 p s') := by
  unfold predicateFollowing at h
  split_ifs at h with hn _ hl <;> cases h
  · obtain ⟨hout, htrace, hvars⟩ := exec_nothingFollows (W := W) (n := n) hn p s'
    exact ⟨htrace, fun _ => hvars ▸ hflag, .inl ⟨hout, hq hn⟩⟩
  · rw [exec_load, hflag, if_pos rfl, exec_empty, Res.andThen_of_ne _ (by simp [Jump.outcome])]
    exact ⟨rfl, fun _ => hflag, .inr ⟨rfl, hl⟩⟩
  · rw [exec_load, hflag, if_pos rfl, exec_empty, Res.andThen_next _
      (by simp [Jump.outcome]), exec_empty]
    exact ⟨rfl, fun _ => hflag, .inl ⟨rfl, fun h => absurd h hl⟩⟩

/-- What follows runs as before where the flag is clear. -/
theorem predicateFollowing_follows {r : SsaList × LowerState}
    (h : predicateFollowing flag inLoop rest' st = some r) (hbase : base ≤ st.nextDef)
    (hphis : OldPhis base rest'.first.phis)
    (hloop : inLoop = false → (k p s).out ≠ .brk ∧ (k p s).out ≠ .cont)
    (hrest : Tracks flag base inLoop top quiet k (exec (ssaMachine W) n rest'))
    (hs : Agree flag base s s') :
    Follows flag base inLoop top quiet (k p s) (exec (ssaMachine W) n r.1 p s') := by
  unfold predicateFollowing at h
  split at h
  · cases h
    exact hrest p s s' hs
  split at h
  · simp at h
  -- The loaded flag is a new def, which nothing else sees.
  have hs' : Agree flag base s { s' with env := s'.env.set st.nextDef (boolValue false) } := by
    refine ⟨⟨hs.trace, fun d hd => ?_, hs.vars⟩, hs.clear⟩
    rw [← hs.env d hd]
    exact Env.set_of_ne _ _ (by omega)
  have hload : (evalPhis rest'.first.phis p s'.env).set st.nextDef (boolValue false) =
      evalPhis rest'.first.phis p (s'.env.set st.nextDef (boolValue false)) := by
    refine (evalPhis_set (fun φ hφ => ?_) (fun φ hφ e he => ?_) p _ _).symm
    · have := (hphis φ hφ).1
      omega
    · have := (hphis φ hφ).2 e he
      omega
  have hrun := exec_dropPhis (W := W) (n := n) rest' p
  have hfollows := hrest p s _ hs'
  cases inLoop with
  | true =>
    cases h
    rw [exec_load, hs.clear, if_neg (by simp), exec_empty,
      Res.andThen_next _ (by simp [Jump.outcome])]
    dsimp only
    rw [hload, hrun _ { s' with env := s'.env.set st.nextDef (boolValue false) }]
    exact hfollows
  | false =>
    cases h
    rw [exec_load, hs.clear, if_neg (by simp), hload]
    obtain ⟨hout, hst⟩ := exec_renameFinal (W := W) (n := n) (st.nextBlock + 2) (dropPhis rest')
      st.nextBlock { s' with
        env := evalPhis rest'.first.phis p (s'.env.set st.nextDef (boolValue false)) }
    rw [hrun _ { s' with env := s'.env.set st.nextDef (boolValue false) }] at hout hst
    refine hfollows.close rest'.final.label hout (by rw [hst]) (by rw [hst])
      (fun hz => (exec_next hz).2) (fun q s => ⟨rfl, rfl, rfl, rfl⟩) (fun hr => ?_) (hloop rfl)
    rw [exec_empty, hst]
    exact (hfollows.goes (.inl hr)).2

/-- A list with another one at its end runs the two one after the other. -/
theorem exec_reinsertAtEnd (rest : SsaList) (hl : l.final.jump = none) (p : ℕ) (s : SsaState) :
    let k := exec (ssaMachine W) n (renameFinal l.final.label (dropPhis rest))
    let r := (exec (ssaMachine W) n l p s).andThen k
    let r' := exec (ssaMachine W) n (reinsertAtEnd rest l) p s
    r'.out = r.out ∧ r'.st = r.st := by
  intro k
  refine exec_graft (Φ := fun r r' => r'.out = (r.andThen k).out ∧ r'.st = (r.andThen k).st)
    (fun r hr => by rw [Res.andThen_of_ne _ hr]; exact ⟨rfl, rfl⟩) l (fun p s => ?_) p s
  unfold k
  generalize l.final = b at hl
  have hdrop : renameFinal b.label (dropPhis rest) = (renameFinal b.label rest).setFirst
      ⟨(renameFinal b.label rest).first.label, [], rest.first.instrs, rest.first.jump⟩ := by
    cases rest <;> rfl
  have hrun : ∀ label j, runSsaBlock W ⟨label, b.phis, b.instrs ++ rest.first.instrs, j⟩ p s =
      if (runSsaBlock W b p s).2 then runSsaBlock W b p s
      else runInstrs (SsaInstr.run W) rest.first.instrs (runSsaBlock W b p s).1 := fun _ _ =>
    runInstrs_append _ _ _
  rw [stitch, exec_setFirst, hdrop, ssaMachine_step, ssaMachine_step, hrun, hl]
  cases hstop : (runSsaBlock W b p s).2 with
  | true =>
    rw [if_pos rfl, if_pos rfl, hstop, Res.andThen_of_ne _ (by simp), Res.andThen_of_ne _ (by simp)]
    exact ⟨rfl, rfl⟩
  | false =>
    rw [if_neg Bool.false_ne_true, if_neg Bool.false_ne_true, Jump.outcome,
      Res.andThen_next (r := ⟨b.label, (runSsaBlock W b p s).1, .next⟩) _ rfl, exec_setFirst]
    exact ⟨rfl, rfl⟩

/-- The phis of the block behind an if may be evaluated behind the code that follows them: this code
neither reads them nor writes them or their sources. -/
structure PhisKept (rest : SsaList) : Prop where
  /-- The code does not read the phis. -/
  reads : ∀ φ ∈ rest.first.phis, ∀ b ∈ (dropPhis rest).blocks, φ.dest ∉ b.reads
  /-- Nor do the conditions. -/
  conds : ∀ φ ∈ rest.first.phis, φ.dest ∉ rest.conds
  /-- The code does not write the phis. -/
  dest : ∀ φ ∈ rest.first.phis, ∀ b ∈ (dropPhis rest).blocks, φ.dest ∉ b.defs
  /-- And it does not write their sources. -/
  srcs : ∀ φ ∈ rest.first.phis, ∀ e ∈ φ.srcs, ∀ b ∈ (dropPhis rest).blocks, e.2 ∉ b.defs

/-- What follows an if is moved behind the branch that does not return. -/
theorem reinsertAtEnd_follows {r : Res SsaState} {e' : SsaList}
    (hkept : r.out = .next → PhisKept rest') (he' : e'.final.jump = none)
    (he : Follows flag base false false q r (exec (ssaMachine W) n e' p s')) (hret : r.out ≠ .ret)
    (hloop : r.out ≠ .brk ∧ r.out ≠ .cont) (hloopRest : ∀ p s,
      (k p s).out ≠ .brk ∧ (k p s).out ≠ .cont)
    (hrest : r.out = .next → Tracks flag base false top quiet k (exec (ssaMachine W) n rest')) :
    Follows flag base false top quiet (r.andThen k)
      ((exec (ssaMachine W) n (reinsertAtEnd rest' e') p s').andThen
        (exec (ssaMachine W) n (.last (.phisOnly rest'.final.label rest'.first.phis none)))) := by
  obtain ⟨hout, hst⟩ := exec_reinsertAtEnd (W := W) (n := n) rest' he' p s'
  have hfinal : (reinsertAtEnd rest' e').final.label = e'.final.label := by
    have hname := final_label_renameFinal e'.final.label rest'
    rw [reinsertAtEnd, CfList.final_graft, stitch, CfList.final_setFirst]
    cases rest' with
    | last b => rfl
    | ite b c t f rest => exact hname
    | loop b body rest => exact hname
  have hprev := fun h => (exec_next (M := ssaMachine W) (n := n)
    (l := reinsertAtEnd rest' e') (p := p)
    (s := s') h).2
  generalize exec (ssaMachine W) n (reinsertAtEnd rest' e') p s' = a at hout hst hprev ⊢
  have heout := he.out hret
  have hprev' := fun h => (exec_next (M := ssaMachine W) (n := n) (l := e') (p := p) (s := s') h).2
  generalize exec (ssaMachine W) n e' p s' = r' at he heout hout hst hprev' ⊢
  by_cases hn : r.out = .next
  · have hkept := hkept hn
    have hrest := hrest hn
    have hn' : r'.out = .next := heout.trans hn
    obtain ⟨hp, hagree⟩ := he.goes (.inl hn)
    have hp' : r'.prev = e'.final.label := hprev' hn'
    rw [Res.andThen_next _ hn]
    rw [Res.andThen_next _ hn'] at hout hst
    have hrename := exec_renameFinal (W := W) (n := n) e'.final.label (dropPhis rest') r'.prev r'.st
    -- The phis are evaluated before the code in one run and behind it in the other.
    have hphis : AgreeOff (fun d => d ∈ rest'.first.phis.map Phi.dest) (fun _ => False) r'.st
        { r'.st with env := evalPhis rest'.first.phis r'.prev r'.st.env } :=
      ⟨rfl, fun d hd => evalPhis_of_not_mem hd, fun _ _ => rfl⟩
    obtain ⟨hzout, hz⟩ := exec_frame (W := W) (l := dropPhis rest')
      (fun b hb d hd hmem => by
        obtain ⟨φ, hφ, rfl⟩ := List.mem_map.mp hmem
        exact hkept.reads φ hφ b hb hd)
      (fun _ _ _ _ h => h)
      (fun c hc hmem => by
        obtain ⟨φ, hφ, rfl⟩ := List.mem_map.mp hmem
        exact hkept.conds φ hφ (conds_dropPhis rest' ▸ hc)) n r'.prev hphis
    have henv : ∀ d, (∀ b ∈ (dropPhis rest').blocks, d ∉ b.defs) → ∀ t,
        (exec (ssaMachine W) n (dropPhis rest') r'.prev t).st.env d = t.env d :=
      fun d hd t => exec_env hd n r'.prev t
    have hrun := exec_dropPhis (W := W) (n := n) rest' r'.prev r'.prev r'.st
    rw [hrun] at hzout hz
    have hfollows := hrest r.prev r.st r'.st hagree
    rw [← hp] at hfollows ⊢
    have haout : a.out = (exec (ssaMachine W) n rest' r'.prev r'.st).out :=
      hout.trans (hrename.1.trans hzout.symm)
    have hast : a.st = (exec (ssaMachine W) n (dropPhis rest') r'.prev r'.st).st :=
      hst.trans hrename.2
    refine hfollows.close _ haout ?_ ?_ (fun hz => (exec_next hz).2)
      (fun _ _ => ⟨rfl, rfl, rfl, rfl⟩)
      (fun hr => ?_) (hloopRest _ _)
    · rw [hast, hz.trace]
    · funext w
      rw [hast, hz.vars w (by simp)]
    · obtain ⟨-, hgoes⟩ := hfollows.goes (.inl hr)
      have han : a.out = .next := haout.trans ((hfollows.out (by simp [hr])).trans hr)
      have hap : a.prev = r'.prev := by rw [hprev han, hp']; exact hfinal
      refine ⟨⟨?_, fun d hd => ?_, fun w hw => ?_⟩, ?_⟩
      · change a.st.trace = _
        rw [hast, ← hz.trace, hgoes.trace]
      · rw [← hgoes.env d hd]
        change evalPhis rest'.first.phis a.prev a.st.env d = _
        rw [hap, hast]
        by_cases hmem : d ∈ rest'.first.phis.map Phi.dest
        · -- The sources have the values that they had before the code.
          obtain ⟨φ, hφ, rfl⟩ := List.mem_map.mp hmem
          rw [← hrun, henv _ (hkept.dest φ hφ)]
          exact evalPhis_congr (fun ψ hψ f hf => henv _ (hkept.srcs ψ hψ f hf) _)
            (henv _ (hkept.dest φ hφ) _)
        · rw [evalPhis_of_not_mem hmem]
          exact (hz.env d hmem).symm
      · change a.st.vars w = _
        rw [hast, ← hz.vars w (by simp), hgoes.vars w hw]
      · change a.st.vars flag = _
        rw [hast, ← hz.vars flag (by simp), hgoes.clear]
  · have hn' : r'.out ≠ .next := by rw [heout]; exact hn
    rw [Res.andThen_of_ne _ hn'] at hout hst
    rw [Res.andThen_of_ne _ hn, Res.andThen_of_ne _ (by rw [hout]; exact hn')]
    exact ⟨fun h => absurd h hret, fun _ => hout.trans heout, fun _ => by rw [hst, he.trace hret],
      fun h => by simp [hn, hloop.1, hloop.2] at h⟩

/-- A branch that does not fall through, with an empty block behind the if. -/
theorem Follows.returns {label : ℕ} {r r' : Res SsaState}
    (ha : Follows flag base false false q r r')
    (hnext : r.out ≠ .next) : Follows flag base false top quiet (r.andThen k)
      (r'.andThen (exec (ssaMachine W) n (.last (.phisOnly label phis none)))) := by
  refine ha.andThen (fun h => absurd h hnext) fun hr _ => ?_
  have hret := ha.ret hr
  exact ⟨hret.trace, fun _ => hret.flag rfl, .inl ⟨rfl, by simp⟩⟩

/-- A branch with the same code behind the if. -/
theorem Follows.kept {r r' : Res SsaState} {k' : ℕ → SsaState → Res SsaState}
    (ha : Follows flag base inLoop false q r r')
    (hret : r.out = .ret → inLoop = true ∧ (q = true → ∀ p s, s.vars flag = true →
      Returned flag inLoop top quiet s.trace (k' p s)))
    (hrest : r.out = .next → Tracks flag base inLoop top quiet k k') :
    Follows flag base inLoop top quiet (r.andThen k) (r'.andThen k') := by
  refine ha.andThen (fun hn => ?_) fun hr hn' => ?_
  · obtain ⟨hp, hagree⟩ := ha.goes (.inl hn)
    rw [hp]
    exact hrest hn _ _ _ hagree
  · have hr' := ha.ret hr
    obtain ⟨hl, hquiet⟩ := hret hr
    obtain ⟨-, hq⟩ := hr'.out.resolve_right (by simp [hn'])
    rw [← hr'.trace]
    exact hquiet (hq hl) _ _ (hr'.flag rfl)

/-! ## Loops -/

/-- A list that returns has a return that is lowered. -/
theorem lowersReturn_of_exec {l : SsaList} : ∀ {p : ℕ} {s : SsaState},
    (exec (ssaMachine W) n l p s).out = .ret → lowersReturn true l = true := by
  have hstep : ∀ (b : Block SsaInstr) p s, ((ssaMachine W).step b p s).out = .ret →
      b.jump = some .ret := fun b p s h => (ssaMachine W).jump_of_step (j := some .ret) h
  induction l with
  | last b =>
    intro p s h
    simp [lowersReturn, hstep b p s h]
  | ite b c t e rest iht ihe ihr =>
    intro p s h
    simp only [lowersReturn, or_eq_true, and_eq_true, beq_iff_eq]
    rcases Res.out_andThen h with h | ⟨hb, h⟩
    · exact .inr ⟨trivial, hstep _ _ _ h⟩
    · rw [show b.jump = none from Machine.jump_of_step_next hb]
      rcases Res.out_andThen h with h | ⟨hbranch, h⟩
      · split at h
        · exact .inl (.inl (.inr (iht h)))
        · exact .inl (.inr (ihe h))
      · refine .inl (.inl (.inl ?_))
        have hentry : (t.final.jump == none || e.final.jump == none) = true := by
          simp only [or_eq_true, beq_iff_eq]
          split at hbranch
          · exact .inl (exec_next hbranch).1
          · exact .inr (exec_next hbranch).1
        rw [hentry]
        exact ihr h
  | loop b body rest ihb ihr =>
    intro p s h
    simp only [lowersReturn, or_eq_true, and_eq_true, beq_iff_eq]
    rcases Res.out_andThen h with h | ⟨hb, h⟩
    · exact .inr ⟨trivial, hstep _ _ _ h⟩
    · rw [show b.jump = none from Machine.jump_of_step_next hb]
      rcases Res.out_andThen h with h | ⟨hbody, h⟩
      · obtain ⟨q, t, h⟩ := exists_ret_of_iterate h
        exact .inl (.inr (ihb h))
      · have hentry : body.hasJump Block.jump .brk = true :=
          hasJump_of_iterate (M := ssaMachine W) hbody
        rw [hentry]
        exact .inl (.inl (ihr h))

/-- A loop with a lowered body: where it returns, it is left with the flag set. -/
theorem iterate_follows {inLoop : Bool} {f f' : ℕ → SsaState → Res SsaState}
    (hf : Tracks flag base true false false f f') :
    ∀ n, Tracks flag base inLoop false true (iterate f n) (iterate f' n)
  | 0, p, s, s', hs => ⟨by simp [iterate], fun _ => rfl, fun _ => hs.trace, by simp [iterate]⟩
  | n + 1, p, s, s', hs => by
    have h := hf p s s' hs
    simp only [iterate]
    cases hout : (f p s).out with
    | next | cont =>
      obtain ⟨hp, hagree⟩ := h.goes (by simp [hout])
      rw [h.out (by simp [hout]), hout, hp]
      exact iterate_follows hf n _ _ _ hagree
    | brk =>
      obtain ⟨hp, hagree⟩ := h.goes (.inr (.inl hout))
      rw [h.out (by simp [hout]), hout, hp]
      exact ⟨by simp, fun _ => rfl, fun _ => hagree.trace, fun _ => ⟨rfl, hagree⟩⟩
    | ret =>
      have hret := h.ret hout
      have hbrk : (f' p s').out = .brk := by
        rcases hret.out with ⟨-, h⟩ | ⟨h, -⟩
        · simp at h
        · exact h
      rw [hbrk]
      exact ⟨fun _ => ⟨hret.trace, hret.flag, .inl ⟨rfl, by simp⟩⟩, by simp [hout], by simp [hout],
        by simp [hout]⟩
    | halt | timeout =>
      rw [h.out (by simp [hout]), hout]
      exact ⟨by simp [hout], fun _ => (h.out (by simp [hout])), fun _ => h.trace (by simp [hout]),
        by simp [hout]⟩

end

end Mesa3D.Nir
