import Mathlib.Data.List.Nodup
import Mathlib.Data.List.Pairwise
import Mesa3D.Structured.Lockstep

/-!
# Edges in source order

In structured code an edge leads forward in source order, or back to the header of a loop. The
blocks of the loop follow its header, and from elsewhere only the header is entered. `edges_ordered`
says this of every edge of a list that does not leave the list.
-/

namespace Mesa3D.Structured

open List CfList

variable {B C : Type} (label : B → ℕ) (jump : B → Option Jump)

/-- The names of the blocks, in source order. -/
def CfList.labels (l : CfList B C) : List ℕ := l.blocks.map label

/-- The targets outside of a list. -/
def Targets.all (t : Targets) : List ℕ := [t.next, t.brk, t.cont, t.ret]

variable {label jump}

/-- The target of a jump is one of the targets. -/
theorem Targets.ofJump_mem (t : Targets) (j : Option Jump) : t.ofJump j ∈ t.all := by
  rcases j with _ | _ | _ | _ <;> simp [Targets.ofJump, Targets.all]

/-- The names start with that of the first block. -/
theorem CfList.labels_eq_cons (l : CfList B C) :
    l.labels label = label l.first :: (l.labels label).tail := by
  cases l <;> simp [labels, blocks, first]

/-- The name of the first block is one of the names. -/
theorem CfList.label_first_mem (label : B → ℕ) (l : CfList B C) :
    label l.first ∈ l.labels label := by
  rw [l.labels_eq_cons]
  simp

/-- The names of a list with an if. -/
theorem CfList.labels_ite (b : B) (c : C) (th el rest : CfList B C) :
    (ite b c th el rest).labels label =
      label b :: (th.labels label ++ el.labels label ++ rest.labels label) := by
  simp [labels, blocks]

/-- The names of a list with a loop. -/
theorem CfList.labels_loop (b : B) (body rest : CfList B C) :
    (loop b body rest).labels label =
      label b :: (body.labels label ++ rest.labels label) := by
  simp [labels, blocks]

/-- The blocks of the image of a list. -/
theorem CfList.blocks_map {B' C' : Type} (f : B → B') (g : C → C') (l : CfList B C) :
    (l.map f g).blocks = l.blocks.map f := by
  induction l with
  | last b => rfl
  | ite b c th el rest iht ihe ihr => simp [map, blocks, iht, ihe, ihr]
  | loop b body rest ihb ihr => simp [map, blocks, ihb, ihr]

/-- The conditions of the image of a list. -/
theorem CfList.conds_map {B' C' : Type} (f : B → B') (g : C → C') (l : CfList B C) :
    (l.map f g).conds = l.conds.map g := by
  induction l with
  | last b => rfl
  | ite b c th el rest iht ihe ihr => simp [map, conds, iht, ihe, ihr]
  | loop b body rest ihb ihr => simp [map, conds, ihb, ihr]

/-- A function that keeps the names of blocks keeps those of a list. -/
theorem CfList.labels_map {f : B → B} (hf : ∀ b, label (f b) = label b) (g : C → C)
    (l : CfList B C) : (l.map f g).labels label = l.labels label := by
  rw [labels, blocks_map, map_map, labels]
  exact map_congr_left fun b _ => hf b

/-- A function that keeps names and jumps keeps the links. -/
theorem CfList.edges_map {f : B → B} (hf : ∀ b, label (f b) = label b)
    (hj : ∀ b, jump (f b) = jump b) (g : C → C) (l : CfList B C) : ∀ (t : Targets),
      (l.map f g).edges label jump t = l.edges label jump t := by
  have hfirst : ∀ l : CfList B C, label (l.map f g).first = label l.first := fun l => by
    cases l <;> exact hf _
  induction l with
  | last b => intro t; simp only [map, edges, hf, hj]
  | ite b c th el rest iht ihe ihr =>
    intro t
    simp only [map, edges, hf, hj, hfirst, iht, ihe, ihr]
  | loop b body rest ihb ihr =>
    intro t
    simp only [map, edges, hf, hj, hfirst, ihb, ihr]

variable {l : CfList B C} {y : ℕ} {t : Targets}

/-- The parts of a list in source order, each with its targets. -/
def CfList.parts (label : B → ℕ) (t : Targets) : CfList B C → List (CfList B C × Targets)
  | last _ => []
  | ite _ _ th el rest =>
    [(th, { t with next := label rest.first }),
      (el, { t with next := label rest.first }), (rest, t)]
  | loop _ body rest =>
    [(body, { t with next := label body.first, cont := label body.first, brk := label rest.first }),
      (rest, t)]

/-- Induction over the parts of lists. -/
theorem CfList.parts_induction (label : B → ℕ) {motive : CfList B C → Targets → Prop}
    (h : ∀ l t, (∀ p ∈ l.parts label t, motive p.1 p.2) → motive l t) (l : CfList B C) :
    ∀ t, motive l t := by
  induction l with
  | last b => exact fun t => h _ t (by simp [parts])
  | ite b c th el rest iht ihe ihr => exact fun t => h _ t (by simp [parts, iht, ihe, ihr])
  | loop b body rest ihb ihr => exact fun t => h _ t (by simp [parts, ihb, ihr])

/-- The names are that of the first block and those of the parts. -/
theorem CfList.labels_parts (label : B → ℕ) (l : CfList B C) (t : Targets) : l.labels label =
    label l.first :: (l.parts label t).flatMap fun p => p.1.labels label := by
  cases l <;> simp [labels, blocks, first, parts]

/-- The edges from the first block lead to parts or to targets, and the others are those of the
parts. -/
theorem CfList.mem_edges {x : ℕ} (h : (x, y) ∈ l.edges label jump t) :
    (x = label l.first ∧ (y ∈ t.all ∨ ∃ p ∈ l.parts label t, y = label p.1.first)) ∨
      ∃ p ∈ l.parts label t, (x, y) ∈ p.1.edges label jump p.2 := by
  cases l with
  | last b =>
    simp only [edges, mem_singleton, Prod.mk.injEq] at h
    exact .inl ⟨h.1, .inl (h.2 ▸ t.ofJump_mem _)⟩
  | ite b c th el rest =>
    simp only [edges, mem_append, or_assoc] at h
    refine h.imp (fun h => ?_) fun h => by simpa [parts] using h
    split_ifs at h <;> simp only [mem_cons, Prod.mk.injEq, not_mem_nil, or_false] at h
    · rcases h with ⟨rfl, rfl⟩ | ⟨rfl, rfl⟩ <;> exact ⟨rfl, .inr (by simp [parts])⟩
    · exact ⟨h.1, .inl (h.2 ▸ t.ofJump_mem _)⟩
  | loop b body rest =>
    simp only [edges, mem_cons, mem_append, Prod.mk.injEq] at h
    refine h.imp (fun h => ⟨h.1, ?_⟩) fun h => by simpa [parts] using h
    rw [h.2]
    split_ifs
    · exact .inr (by simp [parts])
    · exact .inl (t.ofJump_mem _)

/-- The targets of a part are those of the list, and the first blocks of it and of later parts. -/
theorem CfList.mem_all_part {p : CfList B C × Targets} {ps : List (CfList B C × Targets)}
    (hp : p :: ps <:+ l.parts label t) (hy : y ∈ p.2.all) :
    y ∈ t.all ∨ ∃ q ∈ p :: ps, y = label q.1.first := by
  cases l <;> simp only [parts, suffix_cons_iff, suffix_nil,
    cons.injEq, reduceCtorEq, or_false] at hp
  case ite =>
    rcases hp with ⟨rfl, rfl⟩ | ⟨rfl, rfl⟩ | ⟨rfl, rfl⟩ <;> simp [Targets.all] at hy ⊢ <;> tauto
  case loop =>
    rcases hp with ⟨rfl, rfl⟩ | ⟨rfl, rfl⟩ <;> simp [Targets.all] at hy ⊢ <;> tauto

/-- The targets of a part are those of the list, and the first blocks of its parts. -/
theorem CfList.mem_all_of_part {p : CfList B C × Targets} (hp : p ∈ l.parts label t)
    (hy : y ∈ p.2.all) : y ∈ t.all ∨ ∃ q ∈ l.parts label t, y = label q.1.first := by
  obtain ⟨A, ps, hps⟩ := append_of_mem hp
  refine (mem_all_part ⟨A, hps.symm⟩ hy).imp_right ?_
  rintro ⟨q, hq, h⟩
  exact ⟨q, hps ▸ mem_append_right A hq, h⟩

/-- Edges start at blocks of the list. -/
theorem CfList.edges_src {x : ℕ} (h : (x, y) ∈ l.edges label jump t) : x ∈ l.labels label := by
  induction l, t using parts_induction label with
  | h l t ih =>
    rw [l.labels_parts label t, mem_cons, mem_flatMap]
    refine (mem_edges h).imp And.left ?_
    rintro ⟨p, hp, h⟩
    exact ⟨p, hp, ih p hp h⟩

/-- Edges lead to blocks of the list other than the first, or to the targets. -/
theorem CfList.edges_dst {x : ℕ} (h : (x, y) ∈ l.edges label jump t) :
    y ∈ (l.labels label).tail ∨ y ∈ t.all := by
  induction l, t using parts_induction label with
  | h l t ih =>
    rw [l.labels_parts label t, tail_cons, mem_flatMap]
    have hfirst : (y ∈ t.all ∨ ∃ p ∈ l.parts label t, y = label p.1.first) →
        (∃ p ∈ l.parts label t, y ∈ p.1.labels label) ∨ y ∈ t.all := by
      rintro (h | ⟨p, hp, rfl⟩)
      · exact .inr h
      · exact .inl ⟨p, hp, p.1.label_first_mem label⟩
    rcases mem_edges h with ⟨-, h⟩ | ⟨p, hp, h⟩
    · exact hfirst h
    · rcases ih p hp h with h | h
      · exact .inl ⟨p, hp, mem_of_mem_tail h⟩
      · exact hfirst (mem_all_of_part hp h)

/-- The edge from `x` to `y` leads forward in the order of the names, or back to the header `y` of a
loop whose other blocks only blocks of the loop lead to. -/
def Ordered (edges : List (ℕ × ℕ)) (labels : List ℕ) (x y : ℕ) : Prop :=
  (∃ A B, labels = A ++ y :: B ∧ x ∈ A) ∨
    ∃ A R B, labels = A ++ (y :: R ++ B) ∧ x ∈ y :: R ∧ ∀ u v, (u, v) ∈ edges → v ∈ R → u ∈ y :: R

/-- An ordered edge of a part of a list is ordered in the list, when no other edge of the list leads
to a block of the part but its first. -/
theorem Ordered.lift {edges edges' : List (ℕ × ℕ)} {labels : List ℕ} {x : ℕ}
    (h : Ordered edges labels x y) (pre post : List ℕ)
    (hedges : ∀ u v, (u, v) ∈ edges' → v ∈ labels.tail → (u, v) ∈ edges) :
    Ordered edges' (pre ++ (labels ++ post)) x y := by
  rcases h with ⟨A, B, hl, hx⟩ | ⟨A, R, B, hl, hx, hR⟩
  · exact .inl ⟨pre ++ A, B ++ post, by simp [hl], by simp [hx]⟩
  · refine .inr ⟨pre ++ A, R, B ++ post, by simp [hl], hx, fun u v huv hv => ?_⟩
    refine hR u v (hedges u v huv ?_) hv
    rw [hl]
    cases A with
    | nil => simp [hv]
    | cons a A => simp [hv]

/-- A block of the first part of a list comes before a block of the second. -/
theorem Ordered.of_mem_append (edges : List (ℕ × ℕ)) {L L' : List ℕ} {x : ℕ} (hx : x ∈ L)
    (hy : y ∈ L') : Ordered edges (L ++ L') x y := by
  obtain ⟨A, B, rfl⟩ := append_of_mem hy
  exact .inl ⟨L ++ A, B, by simp, by simp [hx]⟩

/-- The name of the first block does not come again. -/
theorem CfList.label_first_not_mem_tail (h : (l.labels label).Nodup) :
    label l.first ∉ (l.labels label).tail := by
  rw [l.labels_eq_cons] at h
  exact (nodup_cons.mp h).1

/-- Every edge within a list is ordered. -/
theorem CfList.edges_ordered (hnd : (l.labels label).Nodup)
    (ht : ∀ y ∈ t.all, y ∉ (l.labels label).tail) (x y : ℕ) (h : (x, y) ∈ l.edges label jump t)
    (hy : y ∈ (l.labels label).tail) : Ordered (l.edges label jump t) (l.labels label) x y := by
  induction l, t using parts_induction label with
  | h l t ih =>
    rw [l.labels_parts label t] at hnd ht hy ⊢
    rw [tail_cons] at ht hy
    obtain ⟨hpart, hdisjoint⟩ := nodup_flatMap.1 (nodup_cons.1 hnd).2
    rcases mem_edges h with ⟨rfl, -⟩ | ⟨p, hp, h⟩
    · exact Ordered.of_mem_append _ (L := [label l.first]) (by simp) hy
    obtain ⟨A, ps, hps⟩ := append_of_mem hp
    have hunique : ∀ q ∈ l.parts label t, ∀ v ∈ (p.1.labels label).tail,
        v ∈ q.1.labels label → q = p := by
      intro q hq v hv hvq
      by_contra hne
      have : Std.Symm (Function.onFun Disjoint fun p : CfList B C × Targets => p.1.labels label) :=
        ⟨fun _ _ h _ h₁ h₂ => h h₂ h₁⟩
      exact hdisjoint.forall hq hp hne hvq (mem_of_mem_tail hv)
    have hinner : ∀ v ∈ (p.1.labels label).tail,
        ¬ (v ∈ t.all ∨ ∃ q ∈ l.parts label t, v = label q.1.first) := by
      rintro v hv (hvt | ⟨q, hq, rfl⟩)
      · exact ht v hvt (mem_flatMap.2 ⟨p, hp, mem_of_mem_tail hv⟩)
      · obtain rfl := hunique q hq _ hv (q.1.label_first_mem label)
        exact label_first_not_mem_tail (hpart q hq) hv
    -- An edge to a block of a part, other than its first, is an edge of that part.
    have hdst : ∀ u v, (u, v) ∈ l.edges label jump t → v ∈ (p.1.labels label).tail →
        (u, v) ∈ p.1.edges label jump p.2 := by
      intro u v huv hv
      rcases mem_edges huv with ⟨-, h⟩ | ⟨q, hq, h⟩
      · exact absurd h (hinner v hv)
      · rcases edges_dst h with hvq | hvq
        · exact hunique q hq v hv (mem_of_mem_tail hvq) ▸ h
        · exact absurd (mem_all_of_part hq hvq) (hinner v hv)
    rw [hps, flatMap_append, flatMap_cons]
    rcases edges_dst h with hyp | hyp
    · exact (ih p hp (hpart p hp) (fun y hy hy' => hinner y hy' (mem_all_of_part hp hy)) h hyp).lift
        (label l.first :: A.flatMap _) (ps.flatMap _) hdst
    · rcases mem_all_part ⟨A, hps.symm⟩ hyp with hyt | ⟨q, hq, rfl⟩
      · exact absurd hy (ht y hyt)
      · rcases mem_cons.1 hq with rfl | hq
        · -- The edge leads back to the header, and the loop is its region.
          refine .inr ⟨label l.first :: A.flatMap fun p => p.1.labels label,
            (q.1.labels label).tail,
            ps.flatMap fun p => p.1.labels label, ?_⟩
          rw [← labels_eq_cons]
          exact ⟨rfl, edges_src h, fun u v huv hv => edges_src (hdst u v huv hv)⟩
        · rw [← append_assoc, ← cons_append]
          exact Ordered.of_mem_append _ (by simp [edges_src h])
            (mem_flatMap.2 ⟨q, hq, q.1.label_first_mem label⟩)

end Mesa3D.Structured
