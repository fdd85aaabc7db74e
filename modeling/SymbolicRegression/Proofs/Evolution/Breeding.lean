import SymbolicRegression.Proofs.Evolution.PointMutation

/-!
Offspring keep to the generator of their breeder.

Every way of varying a program puts together parts of programs of the vocabulary.  Heights
are checked after each attempt and not before, so a child that has been accepted lies within
bounds whatever the variation did; when all attempts fail, the child is the parent.
-/

namespace SymbolicRegression

variable {σ : Type} [RandomSource σ] {g : Generator}

/-! ## Variation -/

namespace Variation

open Program

theorem builtFrom_getD {v : Vocabulary} {p : Program} {found : Option Program}
    (hfound : ∀ q ∈ found, q.BuiltFrom v) (hp : p.BuiltFrom v) : (found.getD p).BuiltFrom v := by
  cases found with
  | none => exact hp
  | some q => exact hfound q rfl

theorem ensures_subtree (hconst : g.constMin ≤ g.constMax) {p : Program}
    (hp : p.BuiltFrom g.vocabulary) :
    Ensures (subtree g p : Draw σ Program) fun q => q.BuiltFrom g.vocabulary :=
  Ensures.bind' fun _ => (Generator.ensures_subtree hconst _).bind fun _ hnew =>
    .of_pure (builtFrom_getD (fun _ hq => hp.replace hnew hq) hp)

theorem ensures_hoist {v : Vocabulary} {p : Program} (hp : p.BuiltFrom v) :
    Ensures (hoist p : Draw σ Program) fun q => q.BuiltFrom v := by
  unfold hoist
  split
  · exact Ensures.bind' fun _ => .of_pure (builtFrom_getD (fun _ hq => hp.subtree hq) hp)
  · exact .of_pure hp

theorem ensures_crossover {v : Vocabulary} {recipient donor : Program}
    (hr : recipient.BuiltFrom v) (hd : donor.BuiltFrom v) :
    Ensures (crossover recipient donor : Draw σ Program) fun q => q.BuiltFrom v := by
  unfold crossover
  refine Ensures.bind' fun place => Ensures.bind' fun source => ?_
  split
  · next graft hgraft =>
    exact .of_pure (builtFrom_getD (fun _ hq => hr.replace (hd.subtree hgraft) hq) hr)
  · exact .of_pure hr

end Variation

/-! ## Bounds on the height -/

/-- A child, if there is one, satisfies a predicate and lies within bounds. -/
def HeightBounds.Keeps (b : HeightBounds) (P : Program → Prop)
    (outcome : Except VariationFault Program) : Prop :=
  ∀ p, outcome = .ok p → P p ∧ b.min ≤ p.height ∧ p.height ≤ b.max

namespace HeightBounds

variable {b : HeightBounds} {draw : Draw σ Program} {P : Program → Prop}

omit [RandomSource σ] in
theorem ensures_firstWithin (h : Ensures draw P) (n : ℕ) :
    Ensures (b.firstWithin draw n) fun found =>
      ∀ p ∈ found, P p ∧ b.min ≤ p.height ∧ p.height ≤ b.max := by
  induction n with
  | zero => exact .of_pure nofun
  | succ n ih =>
    refine h.bind fun child hchild => ?_
    split
    · next hwithin =>
      rw [contains, Bool.and_eq_true, decide_eq_true_eq, decide_eq_true_eq] at hwithin
      refine .of_pure ?_
      rintro _ ⟨⟩
      exact ⟨hchild, hwithin⟩
    · exact ih

omit [RandomSource σ] in
/-- A draw that is accepted is the child, whatever is reported when none is. -/
theorem ensures_accepted {f : Option Program → Draw σ (Except VariationFault Program)}
    {fault : VariationFault} (h : Ensures draw P) (hsome : ∀ p, f (some p) = pure (.ok p))
    (hnone : f none = pure (.error fault)) :
    Ensures (b.firstWithin draw variationAttempts >>= f) (b.Keeps P) := by
  refine (ensures_firstWithin h variationAttempts).bind fun found hfound => ?_
  cases found with
  | none =>
    rw [hnone]
    exact .of_pure nofun
  | some child =>
    rw [hsome]
    refine .of_pure ?_
    rintro _ ⟨⟩
    exact hfound child rfl

omit [RandomSource σ] in
theorem ensures_mutate (h : Ensures draw P) : Ensures (b.mutate draw) (b.Keeps P) :=
  ensures_accepted h (fun _ => rfl) rfl

theorem ensures_cross {recipient donor : Program}
    (h : Ensures (Variation.crossover recipient donor : Draw σ Program) P) :
    Ensures (b.cross recipient donor : Draw σ _) (b.Keeps P) :=
  ensures_accepted h (fun _ => rfl) rfl

end HeightBounds

/-! ## Breeders -/

namespace Breeder

variable {b : Breeder} {pool : List Individual}

variable (hconst : g.constMin ≤ g.constMax) (hgen : b.generator = g)
  (hpool : ∀ i ∈ pool, g.Makes g.minHeight g.maxHeight i.program)

include hconst hgen hpool

/-- Whatever way is drawn, the child of a program of the pool keeps to the generator. -/
theorem ensures_vary {p : Program} (hp : g.Makes g.minHeight g.maxHeight p) (way : Reproduction) :
    Ensures (b.vary pool p way : Draw σ _) fun outcome =>
      ∀ q, outcome = .ok q → g.Makes g.minHeight g.maxHeight q := by
  subst hgen
  have hkeeps : ∀ outcome, b.bounds.Keeps (·.BuiltFrom b.generator.vocabulary) outcome →
      ∀ q, outcome = .ok q → b.generator.Makes b.generator.minHeight b.generator.maxHeight q :=
    fun outcome h q hq => ⟨(h q hq).1, (h q hq).2.1, (h q hq).2.2⟩
  cases way with
  | point =>
    have hpoint := (Variation.ensures_point (σ := σ) b.pointRate p).mono fun q hq =>
      hq.built _ (Generator.material_within hconst) hp.built
    exact (HeightBounds.ensures_mutate hpoint).mono hkeeps
  | subtree =>
    exact (HeightBounds.ensures_mutate (Variation.ensures_subtree hconst hp.built)).mono hkeeps
  | hoist => exact (HeightBounds.ensures_mutate (Variation.ensures_hoist hp.built)).mono hkeeps
  | crossover =>
    refine ensures_parent.bind fun donor hdonor => ?_
    have hcross := Variation.ensures_crossover (σ := σ) hp.built (hpool donor hdonor).built
    exact (HeightBounds.ensures_cross hcross).mono hkeeps
  | copy =>
    refine .of_pure ?_
    rintro _ ⟨⟩
    exact hp

theorem ensures_child (generation : ℕ) :
    Ensures (b.child pool generation : Draw σ Offspring) fun o =>
      g.Makes g.minHeight g.maxHeight o.individual.program := by
  refine ensures_parent.bind fun chosen hchosen => Ensures.bind' fun way => ?_
  have hparent := hpool chosen hchosen
  split
  · exact .of_pure hparent
  · refine (ensures_vary hconst hgen hpool hparent way).bind fun outcome houtcome => ?_
    cases outcome with
    | error fault => exact .of_pure hparent
    | ok child => exact .of_pure (houtcome child rfl)

/-- A generation follows on another one member by member, and all children keep to the
generator. -/
theorem ensures_nextGeneration (generation : ℕ) :
    Ensures (b.nextGeneration pool generation : LoggedDraw σ (List Offspring)) fun os =>
      os.length = pool.length ∧
        ∀ o ∈ os, g.Makes g.minHeight g.maxHeight o.individual.program := by
  refine Draw.ensures_times ?_ pool.length
  exact (Ensures.of_draw (ensures_child hconst hgen hpool generation)).bind fun o ho =>
    Ensures.bind' fun _ => .of_pure ho

end Breeder

end SymbolicRegression
