import Mesa3D.Structured.Order
import Mesa3D.Nir.Dominance

/-!
# The graph of a function

`nir_index_blocks` numbers the blocks of a function in source order. `cfgOf` is the graph of the
successor links on these numbers, and `cfgOf_sourceOrdered` says that it has the order that the
computation of dominance relies on.
-/

namespace Mesa3D.Nir

open Structured Mesa3D.Graph List

/-- The graph of the links between the blocks of the given names, without those to `end_block`. -/
def cfgOfEdges (labels : List ℕ) (edges : List (ℕ × ℕ)) : Cfg where
  numBlocks := labels.length
  preds j := (List.range labels.length).filter fun i =>
    edges.contains (labels.getD i 0, labels.getD j 0)

/-- A name that no block has, for `end_block`. -/
def freshName (names : List ℕ) : ℕ := names.foldr max 0 + 1

variable {x i : ℕ} {B C : Type} {label : B → ℕ}

/-- The fresh name is greater than the names. -/
theorem lt_freshName {names : List ℕ} (h : x ∈ names) : x < freshName names := by
  unfold freshName
  induction names with
  | nil => simp at h
  | cons y names ih =>
    simp only [foldr_cons]
    rcases mem_cons.mp h with rfl | h
    · omega
    · have := ih h
      omega

/-- The fresh name is none of the names. -/
theorem freshName_not_mem (names : List ℕ) : freshName names ∉ names := fun h => by
  have := lt_freshName h
  omega

section

variable {B C : Type} (label : B → ℕ) (jump : B → Option Jump)

/-- Where control leaves a function: to `end_block`. -/
def endTargets (f : CfList B C) : Targets :=
  let e := freshName (f.labels label)
  ⟨e, e, e, e⟩

/-- The successor links of a function. -/
def links (f : CfList B C) : List (ℕ × ℕ) := f.edges label jump (endTargets label f)

/-- The graph of a function. -/
def cfgOf (f : CfList B C) : Cfg := cfgOfEdges (f.labels label) (links label jump f)

end

section

variable {labels : List ℕ} {edges : List (ℕ × ℕ)}

/-- The name at an index. -/
theorem getD_eq (hi : i < labels.length) : labels.getD i 0 = labels[i] := by
  simp [getD_eq_getElem?_getD, hi]

/-- The predecessors of a block by their names. -/
theorem mem_preds_cfgOfEdges {j : ℕ} : i ∈ (cfgOfEdges labels edges).preds j ↔
    i < labels.length ∧ (labels.getD i 0, labels.getD j 0) ∈ edges := by
  simp [cfgOfEdges]

/-- A link between blocks is an edge between their indices. -/
theorem edge_of_mem {y : ℕ} (hx : x ∈ labels) (hy : y ∈ labels) (h : (x, y) ∈ edges) :
    (cfgOfEdges labels edges).Edge (labels.idxOf x) (labels.idxOf y) := by
  have hx' := idxOf_lt_length_of_mem hx
  have hy' := idxOf_lt_length_of_mem hy
  refine ⟨hy', mem_preds_cfgOfEdges.mpr ⟨hx', ?_⟩⟩
  rw [getD_eq hx', getD_eq hy', getElem_idxOf, getElem_idxOf]
  exact h

/-- The index of a name of a segment lies in the segment. -/
theorem mem_segment_of_getD {A R B : List ℕ} (hnd : labels.Nodup) (hl : labels = A ++ (R ++ B))
    (hi : i < labels.length) (h : labels.getD i 0 ∈ R) : A.length ≤ i ∧
      i < A.length + R.length := by
  subst hl
  obtain ⟨k, hk, hget⟩ := getElem_of_mem h
  have hj : A.length + k < (A ++ (R ++ B)).length := by
    simp only [length_append]
    omega
  have heq : i = A.length + k := by
    refine (@List.Nodup.getElem_inj_iff _ _ hnd i hi _ hj).mp ?_
    rw [← getD_eq hi, ← hget]
    simp [hk]
  omega

/-- A name at an index of a segment belongs to the segment. -/
theorem getD_mem_segment {A R B : List ℕ} (hl : labels = A ++ (R ++ B)) (hlo : A.length ≤ i)
    (hhi : i < A.length + R.length) : labels.getD i 0 ∈ R := by
  subst hl
  rw [getD_eq (by simp only [length_append]; omega), getElem_append_right hlo,
    getElem_append_left (by omega)]
  exact getElem_mem _

/-- Links that are ordered in source order give a graph with that order. -/
theorem cfgOfEdges_sourceOrdered (hpos : labels ≠ []) (hnd : labels.Nodup)
    (h : ∀ x y, (x, y) ∈ edges → y ∈ labels → Ordered edges labels x y) :
    SourceOrdered (cfgOfEdges labels edges) where
  pos := by
    have := length_pos_of_ne_nil hpos
    simpa [cfgOfEdges] using this
  pred_lt q _ p hp := (mem_preds_cfgOfEdges.mp hp).1
  region q hq p hp hqp := by
    obtain ⟨hpn, hE⟩ := mem_preds_cfgOfEdges.mp hp
    simp only [cfgOfEdges] at hq
    have hy : labels.getD q 0 ∈ labels := by
      rw [getD_eq hq]
      exact getElem_mem hq
    rcases h _ _ hE hy with ⟨A, B, hl, hx⟩ | ⟨A, R, B, hl, hx, hR⟩
    · -- A forward edge does not lead back.
      have h₁ := mem_segment_of_getD (R := [labels.getD q 0]) hnd hl hq (by simp)
      have h₂ := mem_segment_of_getD (A := []) hnd hl hpn hx
      simp only [length_nil] at h₂
      omega
    · have h₁ := mem_segment_of_getD (R := [labels.getD q 0])
        (B := R ++ B) hnd (by simpa using hl) hq
        (by simp)
      have h₂ := mem_segment_of_getD hnd hl hpn hx
      simp only [length_cons, length_nil] at h₁ h₂
      refine ⟨A.length + (R.length + 1), h₂.2, fun x hqx hxe hxn y hy => ?_⟩
      obtain ⟨hyn, hyE⟩ := mem_preds_cfgOfEdges.mp hy
      have hxR : labels.getD x 0 ∈ R := by
        refine getD_mem_segment (A := A ++ [labels.getD q 0]) (B := B) (by simpa using hl) ?_ ?_
        · simp only [length_append, length_cons, length_nil]
          omega
        · simp only [length_append, length_cons, length_nil]
          omega
      have h₃ := mem_segment_of_getD hnd hl hyn (hR _ _ hyE hxR)
      simp only [length_cons] at h₃
      omega

end

/-- The graph of a function has the source order. -/
theorem cfgOf_sourceOrdered (jump : B → Option Jump) {f : CfList B C}
    (hnd : (f.labels label).Nodup) :
    SourceOrdered (cfgOf label jump f) := by
  have hfresh : ∀ y ∈ (endTargets label f).all, y ∉ f.labels label := by
    intro y hy
    have : y = freshName (f.labels label) := by
      simpa [Targets.all, endTargets] using hy
    rw [this]
    exact freshName_not_mem _
  refine cfgOfEdges_sourceOrdered (by rw [f.labels_eq_cons]; simp) hnd fun x y hxy hy => ?_
  have htail : y ∈ (f.labels label).tail := by
    rcases CfList.edges_dst hxy with h | h
    · exact h
    · exact absurd hy (hfresh y h)
  exact CfList.edges_ordered hnd (fun z hz hz' => hfresh z hz (mem_of_mem_tail hz')) x y hxy
    htail

/-- A function that keeps names and jumps keeps the links. -/
theorem links_map {jump : B → Option Jump} {φ : B → B} (hφ : ∀ b, label (φ b) = label b)
    (hj : ∀ b, jump (φ b) = jump b) (g : C → C) (f : CfList B C) :
    links label jump (f.map φ g) = links label jump f := by
  simp only [links, endTargets, CfList.labels_map hφ, CfList.edges_map hφ hj]

/-- The links of a function do not lead to its first block. -/
theorem links_not_first {jump : B → Option Jump} {f : CfList B C} (hnd : (f.labels label).Nodup) :
    (x, label f.first) ∉ links label jump f := by
  intro h
  rcases CfList.edges_dst h with h | h
  · exact CfList.label_first_not_mem_tail hnd h
  · have : label f.first = freshName (f.labels label) := by
      simpa [Targets.all, endTargets] using h
    exact freshName_not_mem (f.labels label) (this ▸ f.label_first_mem label)

end Mesa3D.Nir
