import Mathlib.Order.MinMax
import SymbolicRegression.Proofs.Program.Vocabulary

/-!
Paths into programs.

A path that leads to a node of a program is one of its positions, and a node can be replaced
exactly there.  Everything about a path is proved by recursion on the path: below the root it goes
on in one operand, and `subtree?_cons_eq_some` and `replace?_cons_eq_some` say which one.  Along a
path heights and sizes fall by at least one with every step, so that what a replacement does to
them can be read off where it happens.
-/

namespace SymbolicRegression
namespace Program

variable {p q old new child : Program} {ps : List Program} {op : Operator} {path : List ℕ} {i : ℕ}

/-! ## Subtrees -/

theorem subtree?_nil (p : Program) : p.subtree? [] = some p := by
  cases p <;> rfl

theorem subtreeIn?_eq (ps : List Program) (i : ℕ) (path : List ℕ) :
    subtreeIn? ps i path = ps[i]?.bind (·.subtree? path) := by
  induction ps generalizing i with
  | nil => rfl
  | cons p ps ih =>
    cases i with
    | zero => rfl
    | succ i => exact ih i

theorem subtree?_cons_eq_some : p.subtree? (i :: path) = some q ↔
    ∃ op ps a, p = call op ps ∧ ps[i]? = some a ∧ a.subtree? path = some q := by
  cases p with
  | feature j => exact ⟨nofun, fun ⟨_, _, _, h, _⟩ => nomatch h⟩
  | constant c => exact ⟨nofun, fun ⟨_, _, _, h, _⟩ => nomatch h⟩
  | call op ps =>
    show subtreeIn? ps i path = some q ↔ _
    rw [subtreeIn?_eq, Option.bind_eq_some_iff]
    constructor
    · rintro ⟨a, ha, h⟩
      exact ⟨op, ps, a, rfl, ha, h⟩
    · rintro ⟨_, _, a, hp, ha, h⟩
      cases hp
      exact ⟨a, ha, h⟩

/-- A leaf has nothing below it. -/
theorem eq_nil_of_isLeaf (hp : p.isLeaf = true) (h : p.subtree? path = some q) : path = [] := by
  cases path with
  | nil => rfl
  | cons i path =>
    obtain ⟨op, ps, a, rfl, -, -⟩ := subtree?_cons_eq_some.mp h
    cases hp

/-! ## Positions -/

theorem positions_of_isLeaf (hp : p.isLeaf = true) : p.positions = [[]] := by
  cases p with
  | feature j => rfl
  | constant c => rfl
  | call op ps => cases hp

theorem mem_positionsFrom {k : ℕ} : path ∈ positionsFrom k ps ↔
    ∃ i a rest, path = (k + i) :: rest ∧ ps[i]? = some a ∧ rest ∈ a.positions := by
  induction ps generalizing k with
  | nil => simp [positionsFrom]
  | cons p ps ih =>
    rw [positionsFrom, List.mem_append, List.mem_map, ih]
    constructor
    · rintro (⟨rest, hrest, rfl⟩ | ⟨i, a, rest, rfl, ha, hrest⟩)
      · exact ⟨0, p, rest, rfl, rfl, hrest⟩
      · exact ⟨i + 1, a, rest, by rw [Nat.add_right_comm, Nat.add_assoc], ha, hrest⟩
    · rintro ⟨_ | i, a, rest, rfl, ha, hrest⟩
      · cases ha
        exact .inl ⟨rest, hrest, rfl⟩
      · exact .inr ⟨i, a, rest, by rw [Nat.add_right_comm, Nat.add_assoc], ha, hrest⟩

/-- The positions of a program are the paths that lead to a node of it. -/
theorem mem_positions_iff : path ∈ p.positions ↔ ∃ q, p.subtree? path = some q := by
  induction path generalizing p with
  | nil =>
    have hroot : [] ∈ p.positions := by
      cases p <;> exact List.mem_cons_self
    exact ⟨fun _ => ⟨p, p.subtree?_nil⟩, fun _ => hroot⟩
  | cons i path ih =>
    cases p with
    | feature j => simp [positions, subtree?]
    | constant c => simp [positions, subtree?]
    | call op ps =>
      rw [positions, List.mem_cons, mem_positionsFrom]
      simp only [reduceCtorEq, false_or, Nat.zero_add, List.cons.injEq]
      constructor
      · rintro ⟨_, a, _, ⟨rfl, rfl⟩, ha, hrest⟩
        obtain ⟨q, hq⟩ := ih.mp hrest
        exact ⟨q, subtree?_cons_eq_some.mpr ⟨op, ps, a, rfl, ha, hq⟩⟩
      · rintro ⟨q, hq⟩
        obtain ⟨op', ps', a, hp, ha, hq⟩ := subtree?_cons_eq_some.mp hq
        cases hp
        exact ⟨i, a, path, ⟨rfl, rfl⟩, ha, ih.mpr ⟨q, hq⟩⟩

/-- The root is the first position. -/
theorem positions_eq_cons (p : Program) : p.positions = [] :: p.positions.tail := by
  cases p <;> rfl

theorem positions_ne_nil (p : Program) : p.positions ≠ [] :=
  p.positions_eq_cons ▸ List.cons_ne_nil _ _

theorem ne_nil_of_mem_tail_positions (h : path ∈ p.positions.tail) : path ≠ [] := by
  cases p with
  | feature j => cases h
  | constant c => cases h
  | call op ps =>
    obtain ⟨i, a, rest, rfl, -⟩ := mem_positionsFrom.mp h
    exact List.cons_ne_nil _ _

/-! ## Heights -/

theorem height_of_isLeaf (hp : p.isLeaf = true) : p.height = 0 := by
  cases p with
  | feature j => rfl
  | constant c => rfl
  | call op ps => cases hp

theorem le_heights (h : p ∈ ps) : p.height ≤ heights ps := by
  induction ps with
  | nil => contradiction
  | cons q qs ih =>
    rw [heights]
    rcases List.mem_cons.mp h with rfl | h
    · exact Nat.le_max_left _ _
    · exact (ih h).trans (Nat.le_max_right _ _)

theorem heights_le {n : ℕ} (h : ∀ p ∈ ps, p.height ≤ n) : heights ps ≤ n := by
  induction ps with
  | nil => exact Nat.zero_le n
  | cons q qs ih =>
    rw [heights]
    exact Nat.max_le.mpr ⟨h q List.mem_cons_self, ih fun p hp => h p (List.mem_cons_of_mem q hp)⟩

theorem exists_height_eq_heights (h : ps ≠ []) : ∃ p ∈ ps, p.height = heights ps := by
  induction ps with
  | nil => contradiction
  | cons p ps ih =>
    rw [heights]
    by_cases hle : heights ps ≤ p.height
    · exact ⟨p, List.mem_cons_self, (Nat.max_eq_left hle).symm⟩
    · have hne : ps ≠ [] := by
        rintro rfl
        exact hle (Nat.zero_le _)
      obtain ⟨a, ha, hheight⟩ := ih hne
      exact ⟨a, List.mem_cons_of_mem p ha, by omega⟩

theorem height_add_length_le (h : p.subtree? path = some q) :
    q.height + path.length ≤ p.height := by
  induction path generalizing p with
  | nil =>
    rw [subtree?_nil] at h
    cases h
    exact le_rfl
  | cons i path ih =>
    obtain ⟨op, ps, a, rfl, ha, h⟩ := subtree?_cons_eq_some.mp h
    have hbelow := (ih h).trans (le_heights (List.mem_of_getElem? ha))
    rw [height, List.length_cons]
    omega

/-! ## Sizes -/

theorem size_pos (p : Program) : 0 < p.size := by
  cases p with
  | feature j => exact Nat.one_pos
  | constant c => exact Nat.one_pos
  | call op ps => exact Nat.lt_of_lt_of_le Nat.one_pos (Nat.le_add_right 1 _)

theorem size_of_isLeaf (hp : p.isLeaf = true) : p.size = 1 := by
  cases p with
  | feature j => rfl
  | constant c => rfl
  | call op ps => cases hp

theorem le_sizes (h : p ∈ ps) : p.size ≤ sizes ps := by
  induction ps with
  | nil => contradiction
  | cons q qs ih =>
    rw [sizes]
    rcases List.mem_cons.mp h with rfl | h
    · exact Nat.le_add_right _ _
    · exact (ih h).trans (Nat.le_add_left _ _)

theorem size_add_length_le (h : p.subtree? path = some q) : q.size + path.length ≤ p.size := by
  induction path generalizing p with
  | nil =>
    rw [subtree?_nil] at h
    cases h
    exact le_rfl
  | cons i path ih =>
    obtain ⟨op, ps, a, rfl, ha, h⟩ := subtree?_cons_eq_some.mp h
    have hbelow := (ih h).trans (le_sizes (List.mem_of_getElem? ha))
    rw [size, List.length_cons]
    omega

/-! ## Replacements -/

theorem replace?_nil (p new : Program) : p.replace? [] new = some new := by
  cases p <;> rfl

theorem replaceIn?_eq (ps : List Program) (i : ℕ) (path : List ℕ) (new : Program) :
    replaceIn? ps i path new = (ps[i]?.bind (·.replace? path new)).map (ps.set i ·) := by
  induction ps generalizing i with
  | nil => rfl
  | cons p ps ih =>
    cases i with
    | zero => rfl
    | succ i =>
      show (replaceIn? ps i path new).map (p :: ·) = _
      rw [ih, Option.map_map]
      rfl

theorem replace?_cons_eq_some : p.replace? (i :: path) new = some child ↔
    ∃ op ps a b, p = call op ps ∧ ps[i]? = some a ∧ a.replace? path new = some b ∧
      child = call op (ps.set i b) := by
  cases p with
  | feature j => exact ⟨nofun, fun ⟨_, _, _, _, h, _⟩ => nomatch h⟩
  | constant c => exact ⟨nofun, fun ⟨_, _, _, _, h, _⟩ => nomatch h⟩
  | call op ps =>
    show (replaceIn? ps i path new).map (call op) = some child ↔ _
    rw [replaceIn?_eq, Option.map_map, Option.map_eq_some_iff]
    constructor
    · rintro ⟨b, hbind, rfl⟩
      obtain ⟨a, ha, hb⟩ := Option.bind_eq_some_iff.mp hbind
      exact ⟨op, ps, a, b, rfl, ha, hb, rfl⟩
    · rintro ⟨_, _, a, b, hp, ha, hb, rfl⟩
      cases hp
      exact ⟨b, Option.bind_eq_some_iff.mpr ⟨a, ha, hb⟩, rfl⟩

/-- Wherever there is a node it can be replaced. -/
theorem exists_replace (h : p.subtree? path = some old) (new : Program) :
    ∃ child, p.replace? path new = some child := by
  induction path generalizing p with
  | nil => exact ⟨new, p.replace?_nil new⟩
  | cons i path ih =>
    obtain ⟨op, ps, a, rfl, ha, h⟩ := subtree?_cons_eq_some.mp h
    obtain ⟨b, hb⟩ := ih h
    exact ⟨_, replace?_cons_eq_some.mpr ⟨op, ps, a, b, rfl, ha, hb, rfl⟩⟩

/-- Only a node can be replaced. -/
theorem exists_subtree (h : p.replace? path new = some child) :
    ∃ old, p.subtree? path = some old := by
  induction path generalizing p child with
  | nil => exact ⟨p, p.subtree?_nil⟩
  | cons i path ih =>
    obtain ⟨op, ps, a, b, rfl, ha, hb, -⟩ := replace?_cons_eq_some.mp h
    obtain ⟨old, hold⟩ := ih hb
    exact ⟨old, subtree?_cons_eq_some.mpr ⟨op, ps, a, rfl, ha, hold⟩⟩

theorem sizes_set {a b : Program} (ha : ps[i]? = some a) :
    sizes (ps.set i b) + a.size = sizes ps + b.size := by
  induction ps generalizing i with
  | nil => contradiction
  | cons p ps ih =>
    cases i with
    | zero =>
      cases ha
      simp only [List.set_cons_zero, sizes]
      omega
    | succ i =>
      have hset := ih ha
      simp only [List.set_cons_succ, sizes]
      omega

/-- A replacement takes the nodes of the old subtree away and puts those of the new one in. -/
theorem size_replace (hold : p.subtree? path = some old) (h : p.replace? path new = some child) :
    child.size + old.size = p.size + new.size := by
  induction path generalizing p child with
  | nil =>
    rw [subtree?_nil] at hold
    rw [replace?_nil] at h
    cases hold
    cases h
    exact Nat.add_comm _ _
  | cons i path ih =>
    obtain ⟨op, ps, a, b, rfl, ha, hb, rfl⟩ := replace?_cons_eq_some.mp h
    obtain ⟨_, _, a', hp, ha', hold⟩ := subtree?_cons_eq_some.mp hold
    cases hp
    obtain rfl : a = a' := Option.some.inj (ha.symm.trans ha')
    have hbelow := ih hold hb
    have hset := sizes_set (b := b) ha
    rw [size, size]
    omega

/-- After a replacement the height is that of what was there before, unless the new subtree
reaches beyond. -/
theorem height_replace_le (h : p.replace? path new = some child) :
    child.height ≤ max p.height (path.length + new.height) := by
  induction path generalizing p child with
  | nil =>
    rw [replace?_nil] at h
    cases h
    exact le_max_of_le_right (Nat.le_add_left _ _)
  | cons i path ih =>
    obtain ⟨op, ps, a, b, rfl, ha, hb, rfl⟩ := replace?_cons_eq_some.mp h
    have hbelow := ih hb
    have hold := le_heights (List.mem_of_getElem? ha)
    have hset : heights (ps.set i b) ≤ max (heights ps) (path.length + new.height) := by
      refine heights_le fun c hc => ?_
      rcases List.mem_or_eq_of_mem_set hc with hc | rfl
      · exact le_max_of_le_left (le_heights hc)
      · omega
    rw [height, height, List.length_cons]
    omega

/-! ## Leaves -/

/-- Every leaf lies at a depth between two bounds. -/
def LeavesBetween (lo hi : ℕ) (p : Program) : Prop :=
  ∀ path leaf, p.subtree? path = some leaf → leaf.isLeaf = true →
    lo ≤ path.length ∧ path.length ≤ hi

variable {lo hi : ℕ} {v : Vocabulary}

theorem leavesBetween_leaf (hp : p.isLeaf = true) : p.LeavesBetween 0 0 := by
  intro path leaf hleaf _
  rw [eq_nil_of_isLeaf hp hleaf]
  exact ⟨le_rfl, le_rfl⟩

/-- Leaves of operands are one level deeper in the node over these. -/
theorem leavesBetween_call (h : ∀ p ∈ ps, p.LeavesBetween lo hi) :
    (call op ps).LeavesBetween (lo + 1) (hi + 1) := by
  intro path leaf hleaf hisLeaf
  cases path with
  | nil =>
    rw [subtree?_nil] at hleaf
    cases hleaf
    cases hisLeaf
  | cons i path =>
    obtain ⟨_, _, a, hp, ha, hleaf⟩ := subtree?_cons_eq_some.mp hleaf
    cases hp
    obtain ⟨hlow, hhigh⟩ := h a (List.mem_of_getElem? ha) path leaf hleaf hisLeaf
    exact ⟨Nat.succ_le_succ hlow, Nat.succ_le_succ hhigh⟩

theorem LeavesBetween.mono {lo' hi' : ℕ} (h : p.LeavesBetween lo hi) (hlo : lo' ≤ lo)
    (hhi : hi ≤ hi') : p.LeavesBetween lo' hi' := by
  intro path leaf hleaf hisLeaf
  obtain ⟨hlow, hhigh⟩ := h path leaf hleaf hisLeaf
  exact ⟨hlo.trans hlow, hhigh.trans hhi⟩

/-- The height is the depth of some leaf. -/
theorem exists_deepest_leaf (hp : p.BuiltFrom v) :
    ∃ path leaf, p.subtree? path = some leaf ∧ leaf.isLeaf = true ∧ path.length = p.height := by
  generalize hn : p.height = n
  induction n generalizing p with
  | zero =>
    cases p with
    | feature j => exact ⟨[], _, subtree?_nil _, rfl, rfl⟩
    | constant c => exact ⟨[], _, subtree?_nil _, rfl, rfl⟩
    | call op ps =>
      rw [height] at hn
      omega
  | succ n ih =>
    cases p with
    | feature j => cases hn
    | constant c => cases hn
    | call op ps =>
      obtain ⟨a, ha, hheight⟩ := exists_height_eq_heights hp.operands_ne_nil
      have hbuilt : a.BuiltFrom v := allBuiltFrom_iff.mp hp.2.2 a ha
      rw [height] at hn
      obtain ⟨path, leaf, hleaf, hisLeaf, hlength⟩ := ih hbuilt (by omega)
      obtain ⟨i, hi⟩ := List.getElem?_of_mem ha
      exact ⟨i :: path, leaf, subtree?_cons_eq_some.mpr ⟨op, ps, a, rfl, hi, hleaf⟩, hisLeaf,
        congrArg (· + 1) hlength⟩

theorem LeavesBetween.height (h : p.LeavesBetween lo hi) (hp : p.BuiltFrom v) :
    lo ≤ p.height ∧ p.height ≤ hi := by
  obtain ⟨path, leaf, hleaf, hisLeaf, hlength⟩ := exists_deepest_leaf hp
  rw [← hlength]
  exact h path leaf hleaf hisLeaf

end Program
end SymbolicRegression
