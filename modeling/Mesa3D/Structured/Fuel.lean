import Mathlib.Order.Lattice

/-!
# Calls of functions with loops

A function with a loop takes fuel and returns `none` if it is not enough. A call returns a value if
it does so for all fuel that is large enough.
-/

namespace Mesa3D.Fuel

variable {α β : Type} {call next : ℕ → Option α} {x y : α}

/-- A call returns a value, whatever large fuel it takes. -/
def Returns (call : ℕ → Option α) (a : α) : Prop := ∃ n, ∀ fuel ≥ n, call fuel = some a

/-- A call returns one value only. -/
theorem Returns.unique (hx : Returns call x) (hy : Returns call y) : x = y := by
  obtain ⟨n, hn⟩ := hx
  obtain ⟨m, hm⟩ := hy
  exact Option.some.inj ((hn (max n m) (le_max_left _ _)).symm.trans (hm _ (le_max_right _ _)))

/-- A call whose value does not depend on the fuel. -/
theorem Returns.of_eq (h : ∀ fuel, call fuel = some x) : Returns call x := ⟨0, fun fuel _ => h fuel⟩

/-- A call whose value does not depend on the fuel if there is any. -/
theorem Returns.of_succ (h : ∀ fuel, call (fuel + 1) = some x) : Returns call x := by
  refine ⟨1, fun fuel hfuel => ?_⟩
  obtain ⟨m, rfl⟩ : ∃ m, fuel = m + 1 := ⟨fuel - 1, by omega⟩
  exact h m

/-- An iteration takes one of the fuel. -/
theorem Returns.step (hnext : Returns next x) (h : ∀ fuel, call (fuel + 1) = next fuel) :
    Returns call x := by
  obtain ⟨n, hn⟩ := hnext
  refine ⟨n + 1, fun fuel hfuel => ?_⟩
  obtain ⟨m, rfl⟩ : ∃ m, fuel = m + 1 := ⟨fuel - 1, by omega⟩
  rw [h m, hn m (by omega)]

/-- A function of what a call returns. -/
theorem Returns.map (h : Returns call x) (f : α → β) :
    Returns (fun fuel => (call fuel).map f) (f x) := by
  obtain ⟨n, hn⟩ := h
  exact ⟨n, fun fuel hfuel => congrArg _ (hn fuel hfuel)⟩

/-- Two calls with the same fuel. -/
theorem Returns.bind {f : ℕ → α → Option β} {b : β} (hcall : Returns call x)
    (hf : Returns (fun fuel => f fuel x) b) :
    Returns (fun fuel => (call fuel).bind (f fuel)) b := by
  obtain ⟨n, hn⟩ := hcall
  obtain ⟨m, hm⟩ := hf
  refine ⟨max n m, fun fuel hfuel => ?_⟩
  dsimp only
  rw [hn fuel ((le_max_left _ _).trans hfuel), Option.bind_some]
  exact hm fuel ((le_max_right _ _).trans hfuel)

end Mesa3D.Fuel
