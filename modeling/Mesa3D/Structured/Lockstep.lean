import Mesa3D.Structured.Tree

/-!
# Lockstep simulation of lists of one shape

Most passes over structured code leave the tree of ifs and loops as it is and change what stands in
its blocks. Then the two bodies run in lockstep: the same branches are taken and every loop makes
the same number of iterations, at every bound. `exec_lockstep` reduces this to one block: a relation
between the two states that every block preserves when it is entered along an edge of the control
flow graph, and under which the conditions agree, relates the two runs. That the block is entered
along an edge is what the proof over the tree provides, and what arguments about dominance and
liveness need.
-/

namespace Mesa3D.Structured

open CfList

variable {B C S B' C' S' : Type}

/-- Two lists of one shape, with their blocks and conditions related pairwise. The relation on
conditions may refer to the block that stands before the if. -/
inductive CfList.Same (rb : B → B' → Prop) (rc : B → C → C' → Prop) :
    CfList B C → CfList B' C' → Prop
  | last {b b'} : rb b b' → Same rb rc (.last b) (.last b')
  | ite {b b' c c' t t' e e' r r'} : rb b b' → rc b c c' → Same rb rc t t' →
      Same rb rc e e' → Same rb rc r r' →
      Same rb rc (.ite b c t e r) (.ite b' c' t' e' r')
  | loop {b b' l l' r r'} : rb b b' → Same rb rc l l' → Same rb rc r r' →
      Same rb rc (.loop b l r) (.loop b' l' r')

/-- Applying functions to the blocks and conditions of a list. -/
def CfList.map (f : B → B') (g : C → C') : CfList B C → CfList B' C'
  | .last b => .last (f b)
  | .ite b c t e r => .ite (f b) (g c) (t.map f g) (e.map f g) (r.map f g)
  | .loop b l r => .loop (f b) (l.map f g) (r.map f g)

/-- Images of the blocks and conditions that run as these do. -/
theorem exec_map {M : Machine B C S} {M' : Machine B' C' S} {f : B → B'} {g : C → C'}
    (hstep : ∀ b, M'.step (f b) = M.step b) (hcond : ∀ c, M'.cond (g c) = M.cond c) (n : ℕ)
    (l : CfList B C) : exec M' n (l.map f g) = exec M n l := by
  induction l with
  | last b => exact hstep b
  | ite b c t e r iht ihe ihr =>
    funext p s
    simp only [CfList.map, exec, hstep, hcond, iht, ihe, ihr]
  | loop b l r ihl ihr =>
    funext p s
    simp only [CfList.map, exec, hstep, ihl, ihr]

/-- A list has the shape of its image, with each block related to its image. -/
theorem CfList.same_map (f : B → B') (g : C → C') (rb : B → B' → Prop) (rc : B → C → C' → Prop)
    (l : CfList B C) (hb : ∀ b ∈ l.blocks, rb b (f b)) (hc : ∀ b, ∀ c ∈ l.conds, rc b c (g c)) :
    Same rb rc l (l.map f g) := by
  induction l with
  | last b => exact .last (hb b (by simp [blocks]))
  | ite b c t e r iht ihe ihr =>
    simp only [blocks, conds, List.forall_mem_cons, List.forall_mem_append, forall_and] at hb hc
    obtain ⟨hb, ⟨ht, he⟩, hr⟩ := hb
    obtain ⟨hc, ⟨ht', he'⟩, hr'⟩ := hc
    exact .ite hb (hc b) (iht ht ht') (ihe he he') (ihr hr hr')
  | loop b l r ihl ihr =>
    simp only [blocks, conds, List.forall_mem_cons, List.forall_mem_append, forall_and] at hb hc
    exact .loop hb.1 (ihl hb.2.1 hc.1) (ihr hb.2.2 hc.2)

/-- A list has its own shape. -/
theorem CfList.same_self (l : CfList B C) :
    Same (fun b b' => b ∈ l.blocks ∧ b' = b) (fun _ c c' => c ∈ l.conds ∧ c' = c) l l := by
  have hid : ∀ l : CfList B C, l.map id id = l := by
    intro l
    induction l with
    | last b => rfl
    | ite b c t e r iht ihe ihr => simp [map, iht, ihe, ihr]
    | loop b l r ihl ihr => simp [map, ihl, ihr]
  simpa only [hid] using l.same_map id id (fun b b' => b ∈ l.blocks ∧ b' = b)
    (fun _ c c' => c ∈ l.conds ∧ c' = c)
    (fun _ hb => ⟨hb, rfl⟩) fun _ _ hc => ⟨hc, rfl⟩

/-- A relation between the states of two machines that their blocks preserve. `Q o p` is the
relation where control leaves the block `p` with the outcome `o`; the edges along which blocks are
entered are in `E`. -/
structure Simulation (M : Machine B C S) (M' : Machine B' C' S') (E : ℕ → ℕ → Prop)
    (rb : B → B' → Prop) (rc : B → C → C' → Prop) (Q : Outcome → ℕ → S → S' → Prop) : Prop where
  /-- Related blocks leave with the same outcome and in related states. -/
  step : ∀ b b' p s s', rb b b' → E p (M.label b) → Q .next p s s' →
    M'.label b' = M.label b ∧ (M'.step b' p s').out = (M.step b p s).out ∧
      Q (M.step b p s).out (M.label b) (M.step b p s).st (M'.step b' p s').st
  /-- Related conditions agree after the block that they follow. -/
  cond : ∀ b c c' s s', rc b c c' → Q .next (M.label b) s s' → M'.cond c' s' = M.cond c s
  /-- A break leaves its loop in related states. -/
  brk : ∀ p s s', Q .brk p s s' → Q .next p s s'
  /-- A continue starts the next iteration in related states. -/
  cont : ∀ p s s', Q .cont p s s' → Q .next p s s'
  /-- A loop may be cut where its next iteration would start. -/
  timeout : ∀ p s s', Q .next p s s' → Q .timeout p s s'

/-- Two results that agree on where and how control left, in related states. -/
def Res.Rel (Q : Outcome → ℕ → S → S' → Prop) (r : Res S) (r' : Res S') : Prop :=
  r'.prev = r.prev ∧ r'.out = r.out ∧ Q r.out r.prev r.st r'.st

/-- The edge along which control goes on, for outcomes that go on to a block. -/
def Res.Lands (E : ℕ → ℕ → Prop) (t : Targets) (r : Res S) : Prop :=
  match r.out with
  | .next => E r.prev t.next
  | .brk => E r.prev t.brk
  | .cont => E r.prev t.cont
  | _ => True

/-- A block lands on the target of its jump. -/
theorem Machine.step_lands (M : Machine B C S) (E : ℕ → ℕ → Prop) (t : Targets) (b : B) (p : ℕ)
    (s : S) (h : E (M.label b) (t.ofJump (M.jump b))) : (M.step b p s).Lands E t := by
  unfold Machine.step Res.Lands
  cases hr : (M.run b p s).2
  · rcases hj : M.jump b with _ | _ | _ | _
    on_goal 4 => simp [hr, Jump.outcome]
    all_goals simpa [hr, Jump.outcome, Targets.ofJump, hj] using h
  · simp [hr]

/-- A block without a jump falls through, or the run ends in it. -/
theorem Machine.step_out_of_no_jump (M : Machine B C S) {b : B} (p : ℕ) (s : S)
    (h : M.jump b = none) : (M.step b p s).out = .next ∨ (M.step b p s).out = .halt := by
  unfold Machine.step
  cases (M.run b p s).2 <;> simp [h, Jump.outcome]

/-- A block is left by a jump only where it has that jump. -/
theorem Machine.jump_of_step {M : Machine B C S} {b : B} {p : ℕ} {s : S} {j : Option Jump}
    (h : (M.step b p s).out = Jump.outcome j) : M.jump b = j := by
  unfold Machine.step at h
  cases hr : (M.run b p s).2
  · rcases hj : M.jump b with _ | _ | _ | _ <;> rcases j with _ | _ | _ | _ <;>
      simp [hr, hj, Jump.outcome] at h ⊢
  · rcases j with _ | _ | _ | _ <;> simp [hr, Jump.outcome] at h

/-- A block falls through only where it has no jump. -/
theorem Machine.jump_of_step_next {M : Machine B C S} {b : B} {p : ℕ} {s : S}
    (h : (M.step b p s).out = .next) : M.jump b = none := M.jump_of_step (j := none) h

/-- Where control does not fall through, only the targets of the jumps matter. -/
theorem Res.Lands.of_ne {E : ℕ → ℕ → Prop} {t u : Targets} {r : Res S} (h : r.Lands E t)
    (hr : r.out ≠ .next) (hbrk : u.brk = t.brk) (hcont : u.cont = t.cont) : r.Lands E u := by
  unfold Res.Lands at h ⊢
  rw [hbrk, hcont]
  cases hout : r.out <;> simp_all

section

variable {M : Machine B C S} {M' : Machine B' C' S'} {E : ℕ → ℕ → Prop} {rb : B → B' → Prop}
  {rc : B → C → C' → Prop} {Q : Outcome → ℕ → S → S' → Prop}

/-- Related results stay related through `andThen`, when the continuations take the related states
to related results. -/
theorem Res.Rel.andThen {r : Res S} {r' : Res S'} {k : ℕ → S → Res S} {k' : ℕ → S' → Res S'}
    {t : Targets} (hr : r.Rel Q r') (hl : r.out ≠ .next → r.Lands E t)
    (hk : r.out = .next → Q .next r.prev r.st r'.st →
      (k r.prev r.st).Rel Q (k' r.prev r'.st) ∧ (k r.prev r.st).Lands E t) :
    (r.andThen k).Rel Q (r'.andThen k') ∧ (r.andThen k).Lands E t := by
  obtain ⟨hp, ho, hq⟩ := hr
  by_cases h : r.out = .next
  · rw [Res.andThen_next k h, Res.andThen_next k' (ho.trans h), hp]
    exact hk h (by rwa [h] at hq)
  · rw [Res.andThen_of_ne k h, Res.andThen_of_ne k' (by rwa [ho])]
    exact ⟨⟨hp, ho, hq⟩, hl h⟩

/-- A loop whose body preserves the relation relates the states in which it is left. -/
theorem iterate_rel (hsim : Simulation M M' E rb rc Q) {f : ℕ → S → Res S} {f' : ℕ → S' → Res S'}
    {u t : Targets} (hcont : u.cont = u.next) (hbrk : u.brk = t.next)
    (hf : ∀ p s s', E p u.next → Q .next p s s' → (f p s).Rel Q (f' p s') ∧ (f p s).Lands E u) :
    ∀ (n p : ℕ) (s : S) (s' : S'), E p u.next → Q .next p s s' →
      (iterate f n p s).Rel Q (iterate f' n p s') ∧ (iterate f n p s).Lands E t := by
  intro n
  induction n with
  | zero =>
    intro p s s' _ hq
    exact ⟨⟨rfl, rfl, hsim.timeout p s s' hq⟩, trivial⟩
  | succ n ih =>
    intro p s s' hE hq
    obtain ⟨⟨hp, ho, hq'⟩, hl⟩ := hf p s s' hE hq
    unfold Res.Lands at hl
    simp only [iterate, ho, hp]
    cases hout : (f p s).out <;> simp only [hout] at hl hq' ⊢
    case next => exact ih _ _ _ hl hq'
    case cont => exact ih _ _ _ (hcont ▸ hl) (hsim.cont _ _ _ hq')
    case brk =>
      refine ⟨⟨rfl, rfl, hsim.brk _ _ _ hq'⟩, ?_⟩
      rw [hbrk] at hl
      exact hl
    all_goals
      refine ⟨⟨hp, ho, by rwa [hout]⟩, ?_⟩
      simp [Res.Lands, hout]

/-- Lists of one shape run in lockstep: related states lead to the same branches, the same numbers
of iterations and the same outcome, in related states, and control leaves along an edge. -/
theorem exec_lockstep (hsim : Simulation M M' E rb rc Q) (n : ℕ) {l : CfList B C}
    {l' : CfList B' C'} (hl : Same rb rc l l') :
    ∀ (t : Targets), (∀ e ∈ l.edges M.label M.jump t, E e.1 e.2) →
      ∀ (p : ℕ) (s : S) (s' : S'), E p (M.label l.first) → Q .next p s s' →
        (exec M n l p s).Rel Q (exec M' n l' p s') ∧ (exec M n l p s).Lands E t := by
  have hblock : ∀ (b : B) (b' : B') (p : ℕ) (s : S) (s' : S'), rb b b' → E p (M.label b) →
      Q .next p s s' → (M.step b p s).Rel Q (M'.step b' p s') := hsim.step
  -- A block that stands before an if or a loop and is not left by falling through.
  have hjump : ∀ (b : B) (p : ℕ) (s : S) (t : Targets),
      (M.jump b ≠ none → E (M.label b) (t.ofJump (M.jump b))) → (M.step b p s).out ≠ .next →
        (M.step b p s).Lands E t := by
    intro b p s t hE hne
    by_cases hj : M.jump b = none
    · rcases M.step_out_of_no_jump p s hj with h | h
      · exact absurd h hne
      · simp [Res.Lands, h]
    · exact Machine.step_lands M E t b p s (hE hj)
  induction hl with
  | @last b b' hb =>
    intro t hE p s s' hp hq
    refine ⟨hblock b b' p s s' hb hp hq, Machine.step_lands M E t b p s ?_⟩
    exact hE (M.label b, t.ofJump (M.jump b)) (by simp [edges])
  | @ite b b' c c' t₁ t₁' e₁ e₁' r r' hb hc ht he hr iht ihe ihr =>
    intro t hE p s s' hp hq
    simp only [edges, List.mem_append] at hE
    simp only [exec]
    refine (hblock b b' p s s' hb hp hq).andThen (hjump b p s t ?_) ?_
    · intro hj
      exact hE (M.label b, t.ofJump (M.jump b)) (by simp [hj])
    · intro hout hq'
      have hj : M.jump b = none := Machine.jump_of_step_next hout
      -- The branch that both runs take.
      have hbranch := hsim.cond b c c' _ _ hc hq'
      rw [show (M.step b p s).prev = M.label b from rfl]
      rw [hbranch]
      split
      on_goal 1 =>
        have h := iht { t with next := M.label r.first } (fun e h => hE e (by simp [h]))
          (M.label b) _ _ (hE (M.label b, M.label t₁.first) (by simp [hj])) hq'
      on_goal 2 =>
        have h := ihe { t with next := M.label r.first } (fun e h => hE e (by simp [h]))
          (M.label b) _ _ (hE (M.label b, M.label e₁.first) (by simp [hj])) hq'
      all_goals
        refine h.1.andThen (fun hne => h.2.of_ne hne rfl rfl) fun hnext hq'' => ?_
        refine ihr t (fun e h => hE e (by simp [h])) _ _ _ ?_ hq''
        simpa [Res.Lands, hnext] using h.2
  | @loop b b' l l' r r' hb hl hr ihl ihr =>
    intro t hE p s s' hp hq
    simp only [edges, List.mem_cons, List.mem_append] at hE
    simp only [exec]
    refine (hblock b b' p s s' hb hp hq).andThen (hjump b p s t ?_) ?_
    · intro hj
      exact hE (M.label b, t.ofJump (M.jump b)) (by simp [hj])
    · intro hout hq'
      have hj : M.jump b = none := Machine.jump_of_step_next hout
      rw [show (M.step b p s).prev = M.label b from rfl]
      have h := iterate_rel hsim (t := { t with next := M.label r.first })
        (u := { t with
          next := M.label l.first, cont := M.label l.first, brk := M.label r.first })
        rfl rfl (fun p s s' => ihl _ (fun e h => hE e (by simp [h])) p s s') n (M.label b) _ _
        (hE (M.label b, M.label l.first) (by simp [hj])) hq'
      refine h.1.andThen (fun hne => h.2.of_ne hne rfl rfl) fun hnext hq'' => ?_
      refine ihr t (fun e h => hE e (by simp [h])) _ _ _ ?_ hq''
      simpa [Res.Lands, hnext] using h.2

end

end Mesa3D.Structured
