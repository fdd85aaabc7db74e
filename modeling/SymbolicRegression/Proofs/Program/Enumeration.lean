import Mathlib.Data.List.Nodup
import SymbolicRegression.Proofs.Program.Paths

/-!
The positions of a program are its nodes, each of them once.

Positions come in the lexicographic order of the paths, in which a path stands before all that go
on from it.  An order that is strict has no room for a repetition, so that a node is found at one
place of the list only, and there are as many places as nodes.  The root is at the first place,
and all others belong to proper subtrees.
-/

namespace SymbolicRegression
namespace Program

variable {p q : Program} {path rest : List ℕ} {i j k : ℕ}

/-! ## The order -/

mutual

theorem pairwise_positions : ∀ p : Program, p.positions.Pairwise (· < ·)
  | feature _ => List.pairwise_singleton _ _
  | constant _ => List.pairwise_singleton _ _
  | call _ ps => by
    rw [positions, List.pairwise_cons]
    refine ⟨fun path hpath => ?_, pairwise_positionsFrom 0 ps⟩
    obtain ⟨i, a, rest, rfl, -⟩ := mem_positionsFrom.mp hpath
    exact List.nil_lt_cons _ _

theorem pairwise_positionsFrom : ∀ (k : ℕ) (ps : List Program),
    (positionsFrom k ps).Pairwise (· < ·)
  | _, [] => .nil
  | k, p :: ps => by
    rw [positionsFrom, List.pairwise_append]
    refine ⟨?_, pairwise_positionsFrom (k + 1) ps, ?_⟩
    · exact (pairwise_positions p).map _ fun _ _ hlt => List.cons_lt_cons_iff.mpr (.inr ⟨rfl, hlt⟩)
    · -- All paths into the other operands start with a greater number.
      intro path hpath path' hpath'
      obtain ⟨rest, -, rfl⟩ := List.mem_map.mp hpath
      obtain ⟨i, a, rest', rfl, -⟩ := mem_positionsFrom.mp hpath'
      exact List.cons_lt_cons_iff.mpr (.inl (by omega))

end

theorem nodup_positions (p : Program) : p.positions.Nodup :=
  (pairwise_positions p).nodup

theorem lt_append (h : rest ≠ []) : path < path ++ rest := by
  induction path with
  | nil =>
    obtain ⟨i, rest, rfl⟩ := List.exists_cons_of_ne_nil h
    exact List.nil_lt_cons _ _
  | cons i path ih => exact List.cons_lt_cons_iff.mpr (.inr ⟨rfl, ih⟩)

/-- A smaller path stands at an earlier place. -/
theorem index_lt (hi : p.positions[i]? = some path) (hj : p.positions[j]? = some rest)
    (h : path < rest) : i < j := by
  obtain ⟨hilt, rfl⟩ := List.getElem?_eq_some_iff.mp hi
  obtain ⟨hjlt, rfl⟩ := List.getElem?_eq_some_iff.mp hj
  rcases Nat.lt_trichotomy i j with hlt | rfl | hlt
  · exact hlt
  · exact absurd h (List.lt_irrefl _)
  · have hback := List.pairwise_iff_getElem.mp (pairwise_positions p) j i hjlt hilt hlt
    exact absurd h (List.lt_asymm hback)

/-! ## The number of positions -/

mutual

theorem length_positions : ∀ p : Program, p.positions.length = p.size
  | feature _ => rfl
  | constant _ => rfl
  | call _ ps => by
    rw [positions, size, List.length_cons, length_positionsFrom 0 ps]
    exact Nat.add_comm _ _

theorem length_positionsFrom : ∀ (k : ℕ) (ps : List Program),
    (positionsFrom k ps).length = sizes ps
  | _, [] => rfl
  | k, p :: ps => by
    rw [positionsFrom, sizes, List.length_append, List.length_map, length_positions p,
      length_positionsFrom (k + 1) ps]

end

/-! ## Places and nodes -/

/-- There is one place for every node. -/
theorem existsUnique_index (h : p.subtree? path = some q) :
    ∃! k : ℕ, p.positions[k]? = some path := by
  obtain ⟨k, hk⟩ := List.getElem?_of_mem (mem_positions_iff.mpr ⟨q, h⟩)
  refine ⟨k, hk, fun j hj => ?_⟩
  obtain ⟨hlt, -⟩ := List.getElem?_eq_some_iff.mp hj
  exact (List.getElem?_inj hlt (nodup_positions p)).mp (hj.trans hk.symm)

theorem exists_subtree_of_getElem? (h : p.positions[k]? = some path) :
    ∃ q, p.subtree? path = some q :=
  mem_positions_iff.mp (List.mem_of_getElem? h)

/-- Behind the first place the paths lead to proper subtrees. -/
theorem ne_nil_of_getElem? (hk : 0 < k) (h : p.positions[k]? = some path) : path ≠ [] := by
  obtain ⟨k, rfl⟩ := Nat.exists_eq_add_one_of_ne_zero hk.ne'
  rw [positions_eq_cons, List.getElem?_cons_succ] at h
  exact ne_nil_of_mem_tail_positions (List.mem_of_getElem? h)

theorem size_lt_of_ne_nil (h : p.subtree? path = some q) (hpath : path ≠ []) : q.size < p.size := by
  have hle := size_add_length_le h
  have hpos := List.length_pos_iff.mpr hpath
  omega

theorem max?_length_positions {v : Vocabulary} (hp : p.BuiltFrom v) :
    (p.positions.map List.length).max? = some p.height := by
  rw [List.max?_eq_some_iff]
  constructor
  · obtain ⟨path, leaf, hleaf, -, hlength⟩ := exists_deepest_leaf hp
    exact List.mem_map.mpr ⟨path, mem_positions_iff.mpr ⟨leaf, hleaf⟩, hlength⟩
  · intro n hn
    obtain ⟨path, hpath, rfl⟩ := List.mem_map.mp hn
    obtain ⟨q, hq⟩ := mem_positions_iff.mp hpath
    have hle := height_add_length_le hq
    omega

/-! ## Enumerations -/

/-- The list has the paths to the nodes of a program, each of them once, in their order. -/
structure Enumerates (p : Program) (paths : List (List ℕ)) : Prop where
  increasing : paths.Pairwise (· < ·)
  mem_iff (path : List ℕ) : path ∈ paths ↔ (p.subtree? path).isSome = true
  length : paths.length = p.size
  longest : (paths.map List.length).max? = some p.height
  /-- A path stands before those that go on from it. -/
  earlier (i j : ℕ) (path rest : List ℕ) : paths[i]? = some path →
    paths[j]? = some (path ++ rest) → rest ≠ [] → i < j
  /-- Of the places of the list one belongs to each node. -/
  place (path : List ℕ) : (p.subtree? path).isSome = true → ∃! k : ℕ, paths[k]? = some path
  root : paths[0]? = some []
  /-- All other places belong to proper subtrees. -/
  proper (k : ℕ) (path : List ℕ) : 0 < k → paths[k]? = some path →
    path ≠ [] ∧ ∃ q, p.subtree? path = some q ∧ q.size < p.size

theorem positions_enumerate (hp : p.BuiltFrom .any) : Enumerates p p.positions where
  increasing := pairwise_positions p
  mem_iff path := by rw [mem_positions_iff, Option.isSome_iff_exists]
  length := length_positions p
  longest := max?_length_positions hp
  earlier _ _ _ _ hi hj hrest := index_lt hi hj (lt_append hrest)
  place path hpath := by
    obtain ⟨q, hq⟩ := Option.isSome_iff_exists.mp hpath
    exact existsUnique_index hq
  root := by
    rw [positions_eq_cons]
    rfl
  proper k path hk hpath := by
    have hne := ne_nil_of_getElem? hk hpath
    obtain ⟨q, hq⟩ := exists_subtree_of_getElem? hpath
    exact ⟨hne, q, hq, size_lt_of_ne_nil hq hne⟩

/-- A product with a cosine in it, less a constant. -/
def swing : Program :=
  .call .sub [.call .mul [.feature 0, .call .cos [.feature 1]], .constant 2.0]

theorem positions_enumerate_swing :
    swing.BuiltFrom .any ∧ Enumerates swing [[], [0], [0, 0], [0, 1], [0, 1, 0], [1]] := by
  have hproduct : BuiltFrom .any (.call .mul [.feature 0, .call .cos [.feature 1]]) :=
    ⟨trivial, rfl, trivial, ⟨trivial, rfl, trivial, trivial⟩, trivial⟩
  have hswing : swing.BuiltFrom .any := ⟨trivial, rfl, hproduct, trivial, trivial⟩
  exact ⟨hswing, positions_enumerate hswing⟩

end Program
end SymbolicRegression
