import SymbolicRegression.Proofs.Program.Generation
import SymbolicRegression.Evolution.Variation

/-!
Variation of the structure finds the nodes it draws.

A position that is drawn leads to a node, so that there is something to replace, to graft or to
hoist, and the alternatives for a path that leads nowhere are never taken.  What happens to size
and height is then what a replacement does to them.
-/

namespace SymbolicRegression
namespace Variation

variable {σ : Type} [RandomSource σ] {Q : Failure → Prop} {g : Generator} {p q : Program}
  {path : List ℕ} {s s' : σ}

theorem exists_run_position (p : Program) (s : σ) :
    ∃ path old s', (Draw.choose p.positions).run s = .ok (path, s') ∧ p.subtree? path = some old := by
  obtain ⟨path, hpath, s', hrun⟩ := Draw.exists_run_choose p.positions_ne_nil s
  obtain ⟨old, hold⟩ := Program.mem_positions_iff.mp hpath
  exact ⟨path, old, s', hrun, hold⟩

/-! ## Subtree mutation -/

/-- Room is left below the generator's limit, or none where the program reaches beyond it. -/
theorem height_graft_le {limit : ℕ} {old new child : Program} (hold : p.subtree? path = some old)
    (hchild : p.replace? path new = some child) (hnew : new.height ≤ limit - path.length) :
    child.height ≤ max limit p.height := by
  have hpath := Program.height_add_length_le hold
  have hheight := Program.height_replace_le hchild
  omega

/-- The stream after the place has been drawn decides on the new subtree, and nothing but the draw
of this can fail. -/
structure Regrown (g : Generator) (p : Program) (s : σ) (path : List ℕ) (t : σ) : Prop where
  mem : path ∈ p.positions
  drawn : (Draw.choose p.positions).run s = .ok (path, t)
  error : ∀ e, (subtree g p).run s = .error e →
    (g.subtree (g.maxHeight - path.length)).run t = .error e
  ok : ∀ child s', (subtree g p).run s = .ok (child, s') →
    ∃ new, (g.subtree (g.maxHeight - path.length)).run t = .ok (new, s') ∧
      p.replace? path new = some child ∧ child.height ≤ max g.maxHeight p.height

theorem exists_regrown (g : Generator) (p : Program) (s : σ) :
    ∃ path t, Regrown g p s path t := by
  obtain ⟨path, old, t, hdrawn, hold⟩ := exists_run_position p s
  have hrun : (subtree g p).run s = (do
      let new ← g.subtree (g.maxHeight - path.length)
      return (p.replace? path new).getD p : Draw σ Program).run t := by
    rw [subtree, StateT.run_bind, hdrawn]
    rfl
  refine ⟨path, t, Program.mem_positions_iff.mpr ⟨old, hold⟩, hdrawn, fun e he => ?_,
    fun child s' hchild => ?_⟩
  · rw [hrun, StateT.run_bind] at he
    cases hnew : (g.subtree (g.maxHeight - path.length)).run t with
    | error e' =>
      rw [hnew] at he
      cases he
      rfl
    | ok r =>
      rw [hnew] at he
      cases he
  · rw [hrun] at hchild
    obtain ⟨new, t', hnew, hchild⟩ := Draw.run_bind_eq_ok.mp hchild
    obtain ⟨grafted, hgrafted⟩ := Program.exists_replace hold new
    rw [hgrafted] at hchild
    cases hchild
    exact ⟨new, hnew, hgrafted,
      height_graft_le hold hgrafted (Generator.planned_of_run_subtree hnew).height.2⟩

theorem confines_subtree (h : ∀ room, Confines (g.subtree room : Draw σ Program) Q) (p : Program) :
    Confines (subtree g p : Draw σ Program) Q :=
  (Draw.confines_choose p.positions_ne_nil).bind' fun _ => (h _).bind' fun _ => .of_pure

/-! ## Crossover -/

/-- The recipient with a subtree of the donor in the place of one of its own. -/
structure Crossed (recipient donor child : Program) (place source : List ℕ) (old graft : Program) :
    Prop where
  atPlace : recipient.subtree? place = some old
  atSource : donor.subtree? source = some graft
  replaced : recipient.replace? place graft = some child
  size : child.size + old.size = recipient.size + graft.size

theorem exists_crossed (recipient donor : Program) (s : σ) :
    ∃ place t source s' child old graft,
      (Draw.choose recipient.positions).run s = .ok (place, t) ∧
      (Draw.choose donor.positions).run t = .ok (source, s') ∧
      (crossover recipient donor).run s = .ok (child, s') ∧
      Crossed recipient donor child place source old graft := by
  obtain ⟨place, old, t, hplace, hold⟩ := exists_run_position recipient s
  obtain ⟨source, graft, s', hsource, hgraft⟩ := exists_run_position donor t
  obtain ⟨child, hchild⟩ := Program.exists_replace hold graft
  have hrun : (crossover recipient donor).run s = .ok (child, s') := by
    refine Draw.run_bind_eq_ok.mpr ⟨place, t, hplace, ?_⟩
    refine Draw.run_bind_eq_ok.mpr ⟨source, s', hsource, ?_⟩
    rw [hgraft]
    show (pure ((recipient.replace? place graft).getD recipient) : Draw σ Program).run s' = _
    rw [hchild]
    rfl
  exact ⟨place, t, source, s', child, old, graft, hplace, hsource, hrun, hold, hgraft, hchild,
    Program.size_replace hold hchild⟩

theorem confines_crossover (recipient donor : Program) :
    Confines (crossover recipient donor : Draw σ Program) Q := by
  refine (Draw.confines_choose recipient.positions_ne_nil).bind' fun place => ?_
  refine (Draw.confines_choose donor.positions_ne_nil).bind' fun source => ?_
  split
  · exact .of_pure
  · exact .of_pure

/-! ## Hoisting -/

theorem confines_hoist (p : Program) : Confines (hoist p : Draw σ Program) Q := by
  unfold hoist
  split
  · exact (Draw.confines_choose (List.cons_ne_nil _ _)).bind' fun _ => .of_pure
  · exact .of_pure

theorem run_hoist_of_isLeaf (hp : p.isLeaf = true) (s : σ) : (hoist p).run s = .ok (p, s) := by
  unfold hoist
  rw [p.positions_of_isLeaf hp]
  rfl

/-- A node over operands has a node below it. -/
theorem tail_positions_ne_nil {v : Program.Vocabulary} (hp : p.BuiltFrom v)
    (hcall : p.isLeaf = false) : p.positions.tail ≠ [] := by
  cases p with
  | feature i => cases hcall
  | constant c => cases hcall
  | call op ps =>
    obtain ⟨a, as, rfl⟩ := List.exists_cons_of_ne_nil hp.operands_ne_nil
    rw [Program.positions, List.tail_cons, Program.positionsFrom, a.positions_eq_cons]
    exact List.cons_ne_nil _ _

/-- The subtree of a program at a path below its root. -/
structure Hoisted (p q : Program) (path : List ℕ) : Prop where
  mem : path ∈ p.positions
  below : path ≠ []
  found : p.subtree? path = some q
  size : q.size < p.size
  height : q.height < p.height

theorem exists_hoisted {v : Program.Vocabulary} (hp : p.BuiltFrom v) (hcall : p.isLeaf = false)
    (s : σ) : ∃ path q s', (hoist p).run s = .ok (q, s') ∧ Hoisted p q path := by
  have hne := tail_positions_ne_nil hp hcall
  obtain ⟨path, hpath, s', hdrawn⟩ := Draw.exists_run_choose hne s
  have hmem : path ∈ p.positions := List.mem_of_mem_tail hpath
  have hbelow := Program.ne_nil_of_mem_tail_positions hpath
  obtain ⟨q, hq⟩ := Program.mem_positions_iff.mp hmem
  have hrun : (hoist p).run s = .ok (q, s') := by
    obtain ⟨first, rest, hrest⟩ := List.exists_cons_of_ne_nil hne
    rw [hrest] at hdrawn
    unfold hoist
    rw [p.positions_eq_cons, hrest]
    refine Draw.run_bind_eq_ok.mpr ⟨path, s', hdrawn, ?_⟩
    rw [hq]
    rfl
  have hlength := List.length_pos_iff.mpr hbelow
  have hsize := Program.size_add_length_le hq
  have hheight := Program.height_add_length_le hq
  exact ⟨path, q, s', hrun, hmem, hbelow, hq, by omega, by omega⟩

/-! ## All of them -/

/-- On every stream subtree mutation replaces one node of the program and stays as high as the
generator or the program allows, crossover replaces one by a subtree of the donor, and hoisting
cuts out a smaller and lower subtree unless the program is a leaf. -/
theorem structure_varies_at_drawn_nodes (hp : p.BuiltFrom .any) (g : Generator) (donor : Program)
    (s : σ) :
    (∃ path t, Regrown g p s path t) ∧
    (g.Probable → g.Drawable → ∃ child s', (subtree g p).run s = .ok (child, s')) ∧
    (∃ place t source s' child old graft,
      (Draw.choose p.positions).run s = .ok (place, t) ∧
      (Draw.choose donor.positions).run t = .ok (source, s') ∧
      (crossover p donor).run s = .ok (child, s') ∧
      Crossed p donor child place source old graft) ∧
    (p.isLeaf = true → (hoist p).run s = .ok (p, s)) ∧
    (p.isLeaf = false → ∃ path q s', (hoist p).run s = .ok (q, s') ∧ Hoisted p q path) := by
  refine ⟨exists_regrown g p s, fun hprobable hdrawable => ?_, exists_crossed p donor s,
    fun hleaf => run_hoist_of_isLeaf hleaf s, fun hcall => exists_hoisted hp hcall s⟩
  have hleaf := Draw.total_iff.mp (Generator.total_leaf (σ := σ) hprobable.const hdrawable)
  obtain ⟨r, hr⟩ := Draw.total_iff.mpr
    (confines_subtree (Generator.confines_subtree hprobable hleaf) p) s
  exact ⟨r.1, r.2, hr⟩

/-- The product of a cosine and a constant. -/
def damped : Program := .call .mul [.call .cos [.feature 0], .constant 2.0]

theorem structure_varies_at_drawn_nodes_damped : damped.BuiltFrom .any ∧
    (∃ (child : Program) (s' : Scripted.Stream),
      (subtree (Generator.ofBounds (-1.0) 1.0) damped).run ⟨[], 1⟩ = .ok (child, s') ∧
      child.height ≤ 4) ∧
    (∃ place source child old graft, Crossed damped (.feature 1) child place source old graft) ∧
    ∃ path q, Hoisted damped q path := by
  have hbuilt : damped.BuiltFrom .any :=
    ⟨trivial, rfl, ⟨trivial, rfl, trivial, trivial⟩, trivial, trivial⟩
  obtain ⟨⟨path, t, hregrown⟩, hends, ⟨place, _, source, _, child, old, graft, _, _, _, hcrossed⟩,
    -, hhoist⟩ := structure_varies_at_drawn_nodes hbuilt (Generator.ofBounds (-1.0) 1.0)
      (.feature 1) (⟨[], 1⟩ : Scripted.Stream)
  obtain ⟨mutant, s', hmutant⟩ := hends (Generator.probable_ofBounds _ _) (.inr (by decide +kernel))
  obtain ⟨_, -, -, hheight⟩ := hregrown.ok mutant s' hmutant
  obtain ⟨below, q, _, -, hhoisted⟩ := hhoist rfl
  exact ⟨hbuilt, ⟨mutant, s', hmutant, hheight⟩, ⟨place, source, child, old, graft, hcrossed⟩,
    below, q, hhoisted⟩

end Variation
end SymbolicRegression
