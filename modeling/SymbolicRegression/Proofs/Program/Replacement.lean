import Mathlib
import SymbolicRegression.Proofs.Program.Paths

/-!
Laws of replacing the node at the end of a path.

The other paths of the program are of three kinds.  Those that go on from the path lead into the
new subtree, those that stop on the way to it lead to nodes that change with it, and all others
lead to what they led to before.  A leaf is never on the way to another node, so a leaf that is
not below the path is of the last kind, and the height after a replacement can be read off the
new subtree and these leaves.
-/

namespace SymbolicRegression
namespace Program

variable {p old new child leaf : Program} {path q : List ℕ}

/-- A path is followed in two parts. -/
theorem subtree?_append (p : Program) (path rest : List ℕ) :
    p.subtree? (path ++ rest) = (p.subtree? path).bind (·.subtree? rest) := by
  induction path generalizing p with
  | nil =>
    rw [subtree?_nil]
    rfl
  | cons i path ih =>
    cases p with
    | feature j => rfl
    | constant c => rfl
    | call op ps =>
      simp only [List.cons_append, subtree?, subtreeIn?_eq]
      cases ps[i]? with
      | none => rfl
      | some a => exact ih a

theorem isSome_subtree?_iff : (p.subtree? path).isSome = true ↔ path ∈ p.positions := by
  rw [mem_positions_iff, Option.isSome_iff_exists]

theorem isSome_replace?_iff : (p.replace? path new).isSome = true ↔ path ∈ p.positions := by
  rw [mem_positions_iff, Option.isSome_iff_exists]
  constructor
  · intro ⟨child, h⟩
    exact exists_subtree h
  · intro ⟨old, hold⟩
    exact exists_replace hold new

/-! ## Looking up after a replacement -/

theorem subtree?_replace_append (h : p.replace? path new = some child) (rest : List ℕ) :
    child.subtree? (path ++ rest) = new.subtree? rest := by
  induction path generalizing p child with
  | nil =>
    rw [replace?_nil] at h
    cases h
    rfl
  | cons i path ih =>
    obtain ⟨op, ps, a, b, rfl, ha, hb, rfl⟩ := replace?_cons_eq_some.mp h
    rw [List.cons_append, subtree?, subtreeIn?_eq, List.getElem?_set_self', ha]
    exact ih hb

theorem subtree?_replace (h : p.replace? path new = some child) :
    child.subtree? path = some new := by
  have hlook := subtree?_replace_append h []
  rwa [List.append_nil, subtree?_nil] at hlook

/-- Neither of the two paths goes on from the other, so they part at some node. -/
theorem subtree?_replace_of_apart (h : p.replace? path new = some child)
    (hq : ¬path <+: q) (hq' : ¬q <+: path) : child.subtree? q = p.subtree? q := by
  induction path generalizing p child q with
  | nil => exact absurd List.nil_prefix hq
  | cons i path ih =>
    cases q with
    | nil => exact absurd List.nil_prefix hq'
    | cons j q =>
      obtain ⟨op, ps, a, b, rfl, ha, hb, rfl⟩ := replace?_cons_eq_some.mp h
      simp only [subtree?, subtreeIn?_eq]
      by_cases hij : i = j
      · subst hij
        rw [List.getElem?_set_self', ha]
        rw [List.cons_prefix_cons] at hq hq'
        exact ih hb (fun hle => hq ⟨rfl, hle⟩) (fun hle => hq' ⟨rfl, hle⟩)
      · rw [List.getElem?_set_ne hij]

/-! ## Replacing again -/

theorem replace?_self (h : p.subtree? path = some old) : p.replace? path old = some p := by
  induction path generalizing p with
  | nil =>
    rw [subtree?_nil] at h
    cases h
    exact replace?_nil _ _
  | cons i path ih =>
    obtain ⟨op, ps, a, rfl, ha, h⟩ := subtree?_cons_eq_some.mp h
    obtain ⟨hi, rfl⟩ := List.getElem?_eq_some_iff.mp ha
    refine replace?_cons_eq_some.mpr ⟨op, ps, ps[i], ps[i], rfl, ha, ih h, ?_⟩
    rw [List.set_getElem_self]

theorem replace?_replace (h : p.replace? path new = some child) (last : Program) :
    child.replace? path last = p.replace? path last := by
  induction path generalizing p child with
  | nil => rw [replace?_nil, replace?_nil]
  | cons i path ih =>
    obtain ⟨op, ps, a, b, rfl, ha, hb, rfl⟩ := replace?_cons_eq_some.mp h
    simp only [replace?, replaceIn?_eq, List.getElem?_set_self', ha, Option.map_eq_map,
      Option.map_some, Function.const_apply, Option.bind_some, ih hb, List.set_set]

/-! ## Heights -/

def LeadsToLeaf (p : Program) (q : List ℕ) : Prop :=
  ∃ leaf, p.subtree? q = some leaf ∧ leaf.isLeaf = true

instance (p : Program) (q : List ℕ) : Decidable (p.LeadsToLeaf q) :=
  decidable_of_iff ((p.subtree? q).any isLeaf = true) (Option.any_eq_true _ _)

/-- The depth of the deepest leaf that does not lie at the end of a path or below it; zero if
all leaves do. -/
def depthBeside (p : Program) (path : List ℕ) : ℕ :=
  (p.positions.toFinset.filter fun q => p.LeadsToLeaf q ∧ ¬path <+: q).sup List.length

theorem le_depthBeside (hq : p.LeadsToLeaf q) (hbeside : ¬path <+: q) :
    q.length ≤ p.depthBeside path := by
  have hmem : q ∈ p.positions := by
    obtain ⟨leaf, hleaf, -⟩ := hq
    exact mem_positions_iff.mpr ⟨leaf, hleaf⟩
  apply Finset.le_sup (f := List.length)
  exact Finset.mem_filter.mpr ⟨List.mem_toFinset.mpr hmem, hq, hbeside⟩

theorem depthBeside_le {n : ℕ} (h : ∀ q, p.LeadsToLeaf q → ¬path <+: q → q.length ≤ n) :
    p.depthBeside path ≤ n := by
  apply Finset.sup_le
  intro q hq
  obtain ⟨-, hleaf, hbeside⟩ := Finset.mem_filter.mp hq
  exact h q hleaf hbeside

/-- A leaf is not on the way to another node. -/
theorem LeadsToLeaf.not_on_the_way (hq : p.LeadsToLeaf q) (h : p.subtree? path = some old)
    (hbeside : ¬path <+: q) : ¬q <+: path := by
  rintro ⟨rest, rfl⟩
  obtain ⟨leaf, hleaf, hisLeaf⟩ := hq
  rw [subtree?_append, hleaf] at h
  have hrest : rest = [] := eq_nil_of_isLeaf hisLeaf h
  rw [hrest, List.append_nil] at hbeside
  exact hbeside (List.prefix_refl q)

/-- Beside the path the leaves are the same before and after a replacement. -/
theorem leadsToLeaf_replace (h : p.replace? path new = some child) (hbeside : ¬path <+: q) :
    child.LeadsToLeaf q ↔ p.LeadsToLeaf q := by
  have hnew := subtree?_replace h
  obtain ⟨old, hold⟩ := exists_subtree h
  unfold LeadsToLeaf
  constructor
  · intro hq
    rwa [subtree?_replace_of_apart h hbeside (LeadsToLeaf.not_on_the_way hq hnew hbeside)] at hq
  · intro hq
    rwa [subtree?_replace_of_apart h hbeside (LeadsToLeaf.not_on_the_way hq hold hbeside)]

theorem height_replace {v : Vocabulary} (hp : p.BuiltFrom v) (hnew : new.BuiltFrom v)
    (h : p.replace? path new = some child) :
    child.height = max (path.length + new.height) (p.depthBeside path) := by
  apply le_antisymm
  · obtain ⟨q, leaf, hq, hleaf, hlength⟩ := exists_deepest_leaf (hp.replace hnew h)
    rw [← hlength]
    by_cases hbelow : path <+: q
    · obtain ⟨rest, rfl⟩ := hbelow
      rw [subtree?_replace_append h] at hq
      have hrest := height_add_length_le hq
      rw [List.length_append]
      omega
    · have hbeside := (leadsToLeaf_replace h hbelow).mp ⟨leaf, hq, hleaf⟩
      exact le_max_of_le_right (le_depthBeside hbeside hbelow)
  · apply max_le
    · have hle := height_add_length_le (subtree?_replace h)
      omega
    · apply depthBeside_le
      intro q hq hbeside
      obtain ⟨leaf, hleaf, -⟩ := (leadsToLeaf_replace h hbeside).mpr hq
      have hle := height_add_length_le hleaf
      omega

/-! ## The laws -/

/-- What the node at the end of a path being replaced means for the program around it. -/
structure Replaced (p : Program) (path : List ℕ) (old new child : Program) : Prop where
  below (rest : List ℕ) : child.subtree? (path ++ rest) = new.subtree? rest
  beside (q : List ℕ) : ¬path <+: q → ¬q <+: path → child.subtree? q = p.subtree? q
  size_le : old.size ≤ p.size
  size : child.size = p.size - old.size + new.size
  height : child.height = max (path.length + new.height) (p.depthBeside path)
  unchanged : p.replace? path old = some p
  overridden (last : Program) : child.replace? path last = p.replace? path last

/-- There is a node to be found and to be replaced just at the positions, and elsewhere the
program stays.  A replacement is seen below the path alone, it changes size and height by what is
put in for what is taken away, and a second one at the same place overrides it. -/
theorem replacement_is_lawful (hp : p.BuiltFrom .any) (hnew : new.BuiltFrom .any)
    (path : List ℕ) :
    ((p.subtree? path).isSome = true ↔ path ∈ p.positions) ∧
    ((p.replace? path new).isSome = true ↔ path ∈ p.positions) ∧
    (path ∉ p.positions → (p.replace? path new).getD p = p) ∧
    ∀ child, p.replace? path new = some child →
      ∃ old, p.subtree? path = some old ∧ Replaced p path old new child := by
  refine ⟨isSome_subtree?_iff, isSome_replace?_iff, ?_, ?_⟩
  · intro hpath
    have hnone : ¬(p.replace? path new).isSome = true := isSome_replace?_iff.not.mpr hpath
    rw [Option.not_isSome_iff_eq_none.mp hnone]
    rfl
  · intro child h
    obtain ⟨old, hold⟩ := exists_subtree h
    have hsize := size_replace hold h
    have hle := size_add_length_le hold
    refine ⟨old, hold, ?_⟩
    exact {
      below := subtree?_replace_append h
      beside := fun q hq hq' => subtree?_replace_of_apart h hq hq'
      size_le := by omega
      size := by omega
      height := height_replace hp hnew h
      unchanged := replace?_self hold
      overridden := replace?_replace h }

/-- The sum of a feature and a product. -/
def scaledSum : Program := .call .add [.feature 0, .call .mul [.constant 1.0, .feature 1]]

/-- The sine of a cosine takes the place of the constant, two steps below the root. -/
theorem replacement_is_lawful_scaledSum :
    scaledSum.BuiltFrom .any ∧ (call .sin [call .cos [feature 2]]).BuiltFrom .any ∧
    ∃ child, scaledSum.replace? [1, 0] (call .sin [call .cos [feature 2]]) = some child ∧
      child.size = 7 ∧ child.height = 4 ∧
      child.subtree? [1, 0, 0, 0] = some (feature 2) ∧ child.subtree? [1, 1] = some (feature 1) ∧
      child.replace? [1, 0] (constant 1.0) = some scaledSum := by
  have hsum : scaledSum.BuiltFrom .any :=
    ⟨trivial, rfl, trivial, ⟨trivial, rfl, trivial, trivial, trivial⟩, trivial⟩
  have hsine : (call .sin [call .cos [feature 2]]).BuiltFrom .any :=
    ⟨trivial, rfl, ⟨trivial, rfl, trivial, trivial⟩, trivial⟩
  obtain ⟨-, hfound, -, hlawful⟩ := replacement_is_lawful hsum hsine [1, 0]
  obtain ⟨child, hchild⟩ := Option.isSome_iff_exists.mp (hfound.mpr (by decide))
  obtain ⟨old, hold, h⟩ := hlawful child hchild
  cases hold
  refine ⟨hsum, hsine, child, hchild, h.size, ?_, h.below [0, 0], ?_, ?_⟩
  · rw [h.height]
    decide
  · exact h.beside [1, 1] (by decide) (by decide)
  · exact (h.overridden _).trans h.unchanged

end Program
end SymbolicRegression
