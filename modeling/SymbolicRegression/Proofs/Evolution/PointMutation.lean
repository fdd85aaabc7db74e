import SymbolicRegression.Proofs.Program.Generation
import SymbolicRegression.Evolution.Breeding

/-!
Point mutation keeps the shape.

A mutant has a node wherever the program has one, an operator where there was an operator and a
leaf where there was a leaf.  So it has the height of the program, and if this lies within bounds
then so does the first mutant that is drawn: a breeder never has to copy the parent instead.
-/

namespace SymbolicRegression

variable {σ : Type} {g : Generator} {p q : Program}

open Program (AllBuiltFrom allBuiltFrom_iff)

/-! ## Shapes -/

namespace Generator

/-- What may stand at a node after a mutation.  Operands are not looked at. -/
inductive Counterpart (g : Generator) : Program → Program → Prop where
  | leaf {p q : Program} (hp : p.isLeaf = true) (hq : q.isLeaf = true)
      (h : q = p ∨ q.BuiltFrom g.material) : Counterpart g p q
  | operator {op new : Operator} {ps qs : List Program} (harity : new.arity = op.arity)
      (h : new = op ∨ new ∈ g.functions.ops) : Counterpart g (.call op ps) (.call new qs)

/-- A program of the same shape, node by node a counterpart. -/
structure KeepsShape (g : Generator) (p q : Program) : Prop where
  positions : q.positions = p.positions
  nodes : ∀ path a, p.subtree? path = some a → ∃ b, q.subtree? path = some b ∧ g.Counterpart a b
  size : q.size = p.size
  height : q.height = p.height
  /-- It is built from every vocabulary that has the material and the first program. -/
  built : ∀ v : Program.Vocabulary, g.material.Within v → p.BuiltFrom v → q.BuiltFrom v

theorem keepsShape_leaf (hp : p.isLeaf = true) (hq : q.isLeaf = true)
    (h : q = p ∨ q.BuiltFrom g.material) : g.KeepsShape p q where
  positions := by rw [p.positions_of_isLeaf hp, q.positions_of_isLeaf hq]
  nodes path a ha := by
    obtain rfl := Program.eq_nil_of_isLeaf hp ha
    rw [p.subtree?_nil] at ha
    cases ha
    exact ⟨q, q.subtree?_nil, .leaf hp hq h⟩
  size := by rw [p.size_of_isLeaf hp, q.size_of_isLeaf hq]
  height := by rw [p.height_of_isLeaf hp, q.height_of_isLeaf hq]
  built v hv hbuilt := by
    rcases h with rfl | h
    · exact hbuilt
    · exact h.mono hv

section

variable {ps qs : List Program} {op new : Operator} (h : List.Forall₂ g.KeepsShape ps qs)

include h

theorem KeepsShape.positionsFrom (k : ℕ) :
    Program.positionsFrom k qs = Program.positionsFrom k ps := by
  induction h generalizing k with
  | nil => rfl
  | cons hp _ ih => rw [Program.positionsFrom, Program.positionsFrom, hp.positions, ih]

theorem KeepsShape.sizes : Program.sizes qs = Program.sizes ps := by
  induction h with
  | nil => rfl
  | cons hp _ ih => rw [Program.sizes, Program.sizes, hp.size, ih]

theorem KeepsShape.heights : Program.heights qs = Program.heights ps := by
  induction h with
  | nil => rfl
  | cons hp _ ih => rw [Program.heights, Program.heights, hp.height, ih]

theorem KeepsShape.allBuiltFrom {v : Program.Vocabulary} (hv : g.material.Within v)
    (hps : AllBuiltFrom v ps) : AllBuiltFrom v qs := by
  induction h with
  | nil => exact hps
  | cons hp _ ih => exact ⟨hp.built v hv hps.1, ih hps.2⟩

theorem keepsShape_call (harity : new.arity = op.arity) (hnew : new = op ∨ new ∈ g.functions.ops) :
    g.KeepsShape (.call op ps) (.call new qs) where
  positions := congrArg ([] :: ·) (KeepsShape.positionsFrom h 0)
  nodes path a ha := by
    cases path with
    | nil =>
      rw [Program.subtree?_nil] at ha
      cases ha
      exact ⟨_, Program.subtree?_nil _, .operator harity hnew⟩
    | cons i path =>
      obtain ⟨_, _, p, hcall, hi, ha⟩ := Program.subtree?_cons_eq_some.mp ha
      cases hcall
      obtain ⟨hlt, rfl⟩ := List.getElem?_eq_some_iff.mp hi
      have hlt' : i < qs.length := h.length_eq ▸ hlt
      obtain ⟨b, hb, hcounterpart⟩ := (h.get hlt hlt').nodes path a ha
      exact ⟨b, Program.subtree?_cons_eq_some.mpr
        ⟨new, qs, _, rfl, List.getElem?_eq_getElem hlt', hb⟩, hcounterpart⟩
  size := congrArg (1 + ·) (KeepsShape.sizes h)
  height := congrArg (1 + ·) (KeepsShape.heights h)
  built v hv hbuilt := by
    obtain ⟨hop, hlen, hps⟩ := hbuilt
    refine ⟨?_, ?_, KeepsShape.allBuiltFrom h hv hps⟩
    · rcases hnew with rfl | hnew
      · exact hop
      · exact hv.operator new hnew
    · rw [← h.length_eq, hlen, harity]

end

end Generator

/-! ## Draws -/

namespace Variation

variable [RandomSource σ] {Q : Failure → Prop} {rate : Float}

/-- An operator in place of another one has its arity. -/
theorem ensures_drawOfArity (arity : ℕ) :
    Ensures (g.functions.drawOfArity arity : Draw σ (Option Operator)) fun found =>
      ∀ op ∈ found, op ∈ g.functions.ops ∧ op.arity = arity := by
  unfold FunctionSet.drawOfArity
  split
  · exact .of_pure nofun
  · refine (Draw.ensures_choose _).bind fun op hop => .of_pure ?_
    rintro _ ⟨⟩
    have := List.mem_filter.mp hop
    exact ⟨this.1, by simpa using this.2⟩

theorem confines_drawOfArity (fs : FunctionSet) (arity : ℕ) :
    Confines (fs.drawOfArity arity : Draw σ (Option Operator)) Q := by
  unfold FunctionSet.drawOfArity
  split
  · exact .of_pure
  · next hne => exact (Draw.confines_choose fun hnil => hne hnil).bind' fun _ => .of_pure

theorem ensures_point_leaf (hp : p.isLeaf = true) (rate : Float) :
    Ensures (do if ← Draw.bool rate then g.leaf else return p : Draw σ Program)
      (g.KeepsShape p) := by
  refine Ensures.bind' fun swaps => ?_
  split
  · exact Generator.ensures_leaf.mono fun q hq =>
      Generator.keepsShape_leaf hp hq.1 (.inr hq.2.built)
  · exact .of_pure (Generator.keepsShape_leaf hp hp (.inl rfl))

mutual

theorem ensures_point (rate : Float) :
    ∀ p : Program, Ensures (point rate g p : Draw σ Program) (g.KeepsShape p)
  | .call op ps => by
    simp only [point]
    have hcall (new : Operator) (harity : new.arity = op.arity)
        (hnew : new = op ∨ new ∈ g.functions.ops) :
        Ensures (do return .call new (← pointAll rate g ps) : Draw σ Program)
          (g.KeepsShape (.call op ps)) :=
      (ensures_pointAll rate ps).bind fun qs hqs =>
        .of_pure (Generator.keepsShape_call hqs harity hnew)
    refine Ensures.bind' fun swaps => ?_
    split
    · refine (ensures_drawOfArity op.arity).bind fun found hfound => ?_
      cases found with
      | none => exact hcall op rfl (.inl rfl)
      | some new => exact hcall new (hfound new rfl).2 (.inr (hfound new rfl).1)
    · exact hcall op rfl (.inl rfl)
  | .feature i => by
    simp only [point]
    exact ensures_point_leaf rfl rate
  | .constant c => by
    simp only [point]
    exact ensures_point_leaf rfl rate

theorem ensures_pointAll (rate : Float) : ∀ ps : List Program,
    Ensures (pointAll rate g ps : Draw σ (List Program)) (List.Forall₂ g.KeepsShape ps)
  | [] => .of_pure .nil
  | p :: ps => by
    rw [pointAll]
    exact (ensures_point rate p).bind fun q hq => (ensures_pointAll rate ps).bind fun qs hqs =>
      .of_pure (.cons hq hqs)

end

theorem confines_point_leaf (hrate : 0.0 ≤ rate ∧ rate ≤ 1.0)
    (hleaf : Confines (g.leaf : Draw σ Program) Q) (p : Program) :
    Confines (do if ← Draw.bool rate then g.leaf else return p : Draw σ Program) Q := by
  refine (Draw.confines_bool hrate.1 hrate.2).bind' fun swaps => ?_
  split
  · exact hleaf
  · exact .of_pure

mutual

theorem confines_point (hrate : 0.0 ≤ rate ∧ rate ≤ 1.0)
    (hleaf : Confines (g.leaf : Draw σ Program) Q) :
    ∀ p : Program, Confines (point rate g p : Draw σ Program) Q
  | .call op ps => by
    simp only [point]
    have hcall (new : Operator) :
        Confines (do return .call new (← pointAll rate g ps) : Draw σ Program) Q :=
      (confines_pointAll hrate hleaf ps).bind' fun _ => .of_pure
    refine (Draw.confines_bool hrate.1 hrate.2).bind' fun swaps => ?_
    split
    · exact (confines_drawOfArity _ _).bind' fun found => hcall (found.getD op)
    · exact hcall op
  | .feature i => by
    simp only [point]
    exact confines_point_leaf hrate hleaf (.feature i)
  | .constant c => by
    simp only [point]
    exact confines_point_leaf hrate hleaf (.constant c)

theorem confines_pointAll (hrate : 0.0 ≤ rate ∧ rate ≤ 1.0)
    (hleaf : Confines (g.leaf : Draw σ Program) Q) :
    ∀ ps : List Program, Confines (pointAll rate g ps : Draw σ (List Program)) Q
  | [] => .of_pure
  | p :: ps => by
    rw [pointAll]
    exact (confines_point hrate hleaf p).bind' fun q =>
      (confines_pointAll hrate hleaf ps).bind' fun qs => .of_pure

end
end Variation

/-! ## The first attempt -/

/-- A mutation that keeps within bounds is not tried again. -/
theorem HeightBounds.run_mutate_of_within {b : HeightBounds} {d : Draw σ Program}
    (h : Ensures d fun q => b.contains q = true) (s : σ) :
    (b.mutate d).run s = (Except.ok <$> d).run s := by
  have hfirst (n : ℕ) : (b.firstWithin d (n + 1)).run s = (some <$> d).run s := by
    rw [firstWithin, StateT.run_bind, StateT.run_map]
    cases hd : d.run s with
    | error e => rfl
    | ok r =>
      show StateT.run (if b.contains r.1 then pure (some r.1) else b.firstWithin d n) r.2 = _
      rw [if_pos (h r.1 ⟨s, r.2, hd⟩)]
      rfl
  rw [mutate, StateT.run_bind, variationAttempts, hfirst, StateT.run_map, StateT.run_map]
  cases d.run s with
  | error e => rfl
  | ok r => rfl

theorem HeightBounds.ensures_mutate_of_within {b : HeightBounds} {d : Draw σ Program}
    (h : Ensures d fun q => b.contains q = true) :
    Ensures (b.mutate d) fun outcome => ∃ q, outcome = .ok q := by
  rintro outcome ⟨s, s', hrun⟩
  rw [run_mutate_of_within h, StateT.run_map] at hrun
  obtain ⟨r, -, hr⟩ := Except.map_eq_ok.mp hrun
  cases hr
  exact ⟨r.1, rfl⟩

variable [RandomSource σ] {rate : Float}

theorem Variation.ensures_point_within {b : HeightBounds} (hp : b.contains p = true) :
    Ensures (point rate g p : Draw σ Program) fun q => b.contains q = true := by
  refine (ensures_point rate p).mono fun q hq => ?_
  rw [HeightBounds.contains, hq.height]
  exact hp

namespace Breeder

variable {b : Breeder} {pool : List Individual}

theorem ensures_parent : Ensures (parent pool : Draw σ Individual) (· ∈ pool) :=
  Ensures.bind' fun _ => .of_except fun _ hi => mem_of_memberAt hi

/-- A point mutation of a program of the pool is never given up. -/
theorem ensures_child_applied (hpool : ∀ i ∈ pool, b.bounds.contains i.program = true)
    (generation : ℕ) : Ensures (b.child pool generation : Draw σ Offspring) fun o =>
      o.way = .point → o.isApplied = true := by
  refine ensures_parent.bind fun chosen hchosen => Ensures.bind' fun way => ?_
  split
  · exact .of_pure fun _ => rfl
  · cases way with
    | point =>
      have hpoint : Ensures (Variation.point b.pointRate b.generator chosen.program : Draw σ Program)
          fun q => b.bounds.contains q = true :=
        Variation.ensures_point_within (hpool chosen hchosen)
      refine (HeightBounds.ensures_mutate_of_within hpoint).bind fun outcome houtcome => ?_
      obtain ⟨q, rfl⟩ := houtcome
      exact .of_pure fun _ => rfl
    | _ =>
      refine Ensures.bind' fun outcome => ?_
      cases outcome with
      | error fault => exact .of_pure nofun
      | ok child => exact .of_pure nofun

end Breeder

/-- Whatever is drawn, point mutation keeps the shape; only a leaf can fail to be drawn, and it can
be drawn if its probability and its constants can.  A program within bounds is mutated there at the
first attempt, and a breeder with such a pool applies every point mutation. -/
theorem point_mutation_keeps_shape (hrate : 0.0 ≤ rate ∧ rate ≤ 1.0) (g : Generator)
    (p : Program) :
    Ensures (Variation.point rate g p : Draw σ Program) (g.KeepsShape p) ∧
    (Draw.Total (g.leaf : Draw σ Program) → Draw.Total (Variation.point rate g p : Draw σ Program)) ∧
    (0.0 ≤ g.pConst ∧ g.pConst ≤ 1.0 → g.Drawable → Draw.Total (g.leaf : Draw σ Program)) ∧
    (∀ b : HeightBounds, b.contains p = true → ∀ s : σ, (b.mutate (Variation.point rate g p)).run s =
      (Except.ok <$> Variation.point rate g p).run s) ∧
    ∀ (b : Breeder) (pool : List Individual) (generation : ℕ),
      (∀ i ∈ pool, b.bounds.contains i.program = true) →
      Ensures (b.breed pool generation : LoggedDraw σ Offspring) fun o =>
        o.way = .point → o.isApplied = true := by
  refine ⟨Variation.ensures_point rate p, fun hleaf => ?_, Generator.total_leaf,
    fun b hp s => ?_, fun b pool generation hpool => ?_⟩
  · exact Draw.total_iff.mpr (Variation.confines_point hrate (Draw.total_iff.mp hleaf) p)
  · exact HeightBounds.run_mutate_of_within (Variation.ensures_point_within hp) s
  · exact (Ensures.of_draw (Breeder.ensures_child_applied hpool generation)).bind fun o ho =>
      Ensures.bind' fun _ => .of_pure ho

/-- The sum of a cosine and a feature. -/
def wave : Program := .call .add [.call .cos [.feature 0], .feature 1]

theorem point_mutation_keeps_shape_wave : (0.0 : Float) ≤ 0.5 ∧ (0.5 : Float) ≤ 1.0 ∧
    ∃ (q : Program) (s' : Scripted.Stream),
      (Variation.point 0.5 (Generator.ofBounds (-1.0) 1.0) wave).run ⟨[0, 1], 7⟩ = .ok (q, s') ∧
      (Generator.ofBounds (-1.0) 1.0).KeepsShape wave q ∧
      ((⟨2, 4⟩ : HeightBounds).mutate (Variation.point 0.5 (Generator.ofBounds (-1.0) 1.0) wave)).run
        ⟨[0, 1], 7⟩ = .ok (.ok q, s') := by
  have hrate : (0.0 : Float) ≤ 0.5 ∧ (0.5 : Float) ≤ 1.0 := by decide +kernel
  obtain ⟨hshape, hends, hleaf, hfirst, -⟩ := point_mutation_keeps_shape (σ := Scripted.Stream)
    hrate (Generator.ofBounds (-1.0) 1.0) wave
  have htotal := hends (hleaf (Generator.probable_ofBounds _ _).const (.inr (by decide +kernel)))
  obtain ⟨⟨q, s'⟩, hrun⟩ := htotal ⟨[0, 1], 7⟩
  have hbounded := hfirst ⟨2, 4⟩ (by decide) ⟨[0, 1], 7⟩
  rw [StateT.run_map, hrun] at hbounded
  exact ⟨hrate.1, hrate.2, q, s', hrun, hshape q ⟨_, s', hrun⟩, hbounded⟩

/-- Without a leaf to put there a feature cannot be mutated: here the probability of a constant is
none, there the interval of the constants has no end. -/
theorem point_mutation_of_feature_refused :
    ¬Draw.Total (Variation.point 1.0 { Generator.ofBounds 1.0 1.0 with pConst := 2.0 }
      (.feature 0) : Draw Scripted.Stream Program) ∧
    ¬Draw.Total (Variation.point 1.0 Generator.unbounded (.feature 0) :
      Draw Scripted.Stream Program) :=
  ⟨Draw.not_total_of_run ⟨[5], 1⟩ (by decide +kernel),
    Draw.not_total_of_run ⟨[0, 5], 1⟩ (by decide +kernel)⟩

end SymbolicRegression
