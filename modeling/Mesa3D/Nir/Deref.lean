import Mathlib.Algebra.Group.Nat.Defs
import Mathlib.Data.List.Basic

/-!
# Dereferences of variables

A deref of `nir.h` names part of a variable: a chain of struct members, array elements and array
wildcards. `compareDerefs` is `nir_compare_derefs` (`nir_deref.c`), which tells how the parts that
two derefs name lie to each other without knowing the values of indirect indices.

What a deref names is a set of scalar cells of its variable. A cell is the list of member, element
and component numbers that leads to it from the variable's type (`GlslType.HasCell`), so that the
components of a vector are cells of their own, whether they are reached through the vector or, as
the validator allows for shared variables, through an array deref on it. `Covers` says which cells a
deref names for given values of the indices, and the section on soundness relates the comparison to
it.
-/

namespace Mesa3D.Nir

/-- `nir_variable_mode`. -/
inductive VarMode
  | shaderIn
  | shaderOut
  | global
  | local
  | uniform
  | shaderStorage
  | systemValue
  | shared
  deriving DecidableEq, Repr

/-- The shape of a `glsl_type`. A matrix is an array of its columns. -/
inductive GlslType
  | scalar
  | vector (components : ℕ)
  | array (element : GlslType) (length : ℕ)
  | struct (fields : List GlslType)

/-- The part of a type that the number `i` selects, when it is in bounds. -/
def GlslType.child : GlslType → ℕ → Option GlslType
  | .scalar, _ => none
  | .vector n, i => if i < n then some .scalar else none
  | .array t n, i => if i < n then some t else none
  | .struct fields, i => fields[i]?

/-- The part of a type that a list of numbers leads to. -/
def GlslType.at : GlslType → List ℕ → Option GlslType
  | t, [] => some t
  | t, i :: p => (t.child i).bind fun u => u.at p

/-- The list of numbers leads to a scalar of the type. -/
def GlslType.HasCell (t : GlslType) (p : List ℕ) : Bool :=
  match t.at p with
  | some .scalar => true
  | _ => false

/-- `glsl_type_is_vector_or_scalar`. -/
def GlslType.isVectorOrScalar : GlslType → Bool
  | .scalar => true
  | .vector _ => true
  | _ => false

/-- `glsl_get_vector_elements`, which is zero for the types that are not vectors or scalars. -/
def GlslType.vectorElements : GlslType → ℕ
  | .scalar => 1
  | .vector n => n
  | _ => 0

/-- An array index: the value of a `load_const`, or another SSA value. -/
inductive Index
  | const (value : ℕ)
  | ssa (def_ : ℕ)
  deriving DecidableEq, Repr

/-- One link of a deref chain below its variable. -/
inductive Link
  | array (index : Index)
  | arrayWildcard
  | struct (index : ℕ)
  deriving DecidableEq, Repr

/-- A deref: its variable, and the chain below it as `nir_deref_path` lays it out. -/
structure Deref where
  /-- The variable. -/
  var : ℕ
  /-- The links, outermost first. -/
  path : List Link
  deriving DecidableEq, Repr

/-- What a shader declares about a variable. -/
structure VarInfo where
  /-- `data.mode`. -/
  mode : VarMode
  /-- `type`. -/
  type : GlslType

/-- The type that a link leads to. -/
def GlslType.follow : GlslType → Link → Option GlslType
  | .array t _, .array _ => some t
  | .array t _, .arrayWildcard => some t
  | .vector _, .array _ => some .scalar
  | .vector _, .arrayWildcard => some .scalar
  | .struct fields, .struct k => fields[k]?
  | _, _ => none

/-- The type that a chain leads to. -/
def GlslType.followPath : GlslType → List Link → Option GlslType
  | t, [] => some t
  | t, l :: ls => (t.follow l).bind fun u => u.followPath ls

/-- The result of a comparison, as the bits of `nir_deref_compare_result`. -/
structure CompareResult where
  /-- `nir_derefs_equal_bit`. -/
  equal : Bool
  /-- `nir_derefs_may_alias_bit`. -/
  mayAlias : Bool
  /-- `nir_derefs_a_contains_b_bit`. -/
  aContainsB : Bool
  /-- `nir_derefs_b_contains_a_bit`. -/
  bContainsA : Bool
  deriving DecidableEq, Repr

/-- `nir_derefs_do_not_alias`. -/
def CompareResult.doNotAlias : CompareResult := ⟨false, false, false, false⟩

/-- What one pair of links does to a comparison: the two chains are disjoint, or the containment
bits that survive the pair. -/
def compareLinks : Link → Link → Option (Bool × Bool)
  | .arrayWildcard, .arrayWildcard => some (true, true)
  | .arrayWildcard, .array _ => some (true, false)
  | .array _, .arrayWildcard => some (false, true)
  | .array (.const i), .array (.const j) => if i = j then some (true, true) else none
  | .array i, .array j => if i = j then some (true, true) else some (false, false)
  | .struct i, .struct j => if i = j then some (true, true) else none
  -- The chains start at one variable, so that a link on an array faces a link on an array.
  | _, _ => some (false, false)

/-- The loop of `nir_compare_deref_paths` from some point of the two chains on, with the containment
bits that are left there. -/
def comparePaths : List Link → List Link → Bool → Bool → CompareResult
  | a :: as, b :: bs, ab, ba =>
    match compareLinks a b with
    | none => .doNotAlias
    | some (x, y) => comparePaths as bs (ab && x) (ba && y)
  | as, bs, ab, ba =>
    -- A chain that goes on where the other has ended cannot contain it.
    let ab := ab && as.isEmpty
    let ba := ba && bs.isEmpty
    ⟨ab && ba, true, ab, ba⟩

/-- `nir_compare_derefs`. -/
def compareDerefs (a b : Deref) : CompareResult :=
  if a.var = b.var then comparePaths a.path b.path true true else .doNotAlias

/-! ## The cells of a deref -/

/-- The value of an index, given those of the SSA values. -/
def Index.eval (ρ : ℕ → ℕ) : Index → ℕ
  | .const v => v
  | .ssa d => ρ d

/-- The link selects the number `i`. -/
def Link.Selects (ρ : ℕ → ℕ) : Link → ℕ → Bool
  | .array x, i => i == x.eval ρ
  | .arrayWildcard, _ => true
  | .struct k, i => i == k

/-- The chain leads to, or past, the cell. -/
def Covers (ρ : ℕ → ℕ) : List Link → List ℕ → Bool
  | [], _ => true
  | _ :: _, [] => false
  | l :: ls, i :: p => l.Selects ρ i && Covers ρ ls p

section

variable {ρ : ℕ → ℕ}

/-- Links that the comparison takes to be disjoint select no common number. -/
theorem compareLinks_none {a b : Link} {i : ℕ} (h : compareLinks a b = none)
    (ha : a.Selects ρ i = true) : b.Selects ρ i = false := by
  unfold compareLinks at h
  split at h
  case h_5 => split at h <;> simp at h
  all_goals simp_all [Link.Selects, Index.eval]

/-- A link that contains another selects every number that the other does. -/
theorem compareLinks_aContainsB {a b : Link} {y : Bool} {i : ℕ}
    (h : compareLinks a b = some (true, y)) (hb : b.Selects ρ i = true) : a.Selects ρ i = true := by
  unfold compareLinks at h
  split at h <;> (try split at h) <;> simp_all [Link.Selects]

/-- Chains that do not alias have no cell in common. -/
theorem comparePaths_disjoint : ∀ {as bs : List Link} {ab ba : Bool} {p : List ℕ},
    (comparePaths as bs ab ba).mayAlias = false → Covers ρ as p = true → Covers ρ bs p = false
  | [], _, _, _, _, h, _ | _ :: _, [], _, _, _, h, _ => by simp [comparePaths] at h
  | a :: as, b :: bs, ab, ba, [], _, ha => by simp [Covers] at ha
  | a :: as, b :: bs, ab, ba, i :: p, h, ha => by
    simp only [Covers, Bool.and_eq_true] at ha
    simp only [Covers, Bool.and_eq_false_iff]
    unfold comparePaths at h
    split at h
    · exact .inl (compareLinks_none ‹_› ha.1)
    · exact .inr (comparePaths_disjoint h ha.2)

/-- A chain that contains another covers its cells. -/
theorem comparePaths_aContainsB : ∀ {as bs : List Link} {ab ba : Bool} {p : List ℕ},
    (comparePaths as bs ab ba).aContainsB = true → Covers ρ bs p = true →
      ab = true ∧ Covers ρ as p = true
  | [], _, _, _, _, h, _ => by simpa [comparePaths, Covers] using h
  | _ :: _, [], _, _, _, h, _ => by simp [comparePaths] at h
  | a :: as, b :: bs, ab, ba, [], _, hb => by simp [Covers] at hb
  | a :: as, b :: bs, ab, ba, i :: p, h, hb => by
    simp only [Covers, Bool.and_eq_true] at hb ⊢
    unfold comparePaths at h
    split at h
    · simp [CompareResult.doNotAlias] at h
    · rename_i x y hxy
      obtain ⟨hab, hp⟩ := comparePaths_aContainsB h hb.2
      simp only [Bool.and_eq_true] at hab
      obtain ⟨hab, rfl⟩ := hab
      exact ⟨hab, compareLinks_aContainsB hxy hb.1, hp⟩

end

end Mesa3D.Nir
