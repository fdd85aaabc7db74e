import SymbolicRegression.Proofs.Evolution.SafeDraws
import SymbolicRegression.Proofs.Evolution.Visits

/-!
Making, starting and stepping a model of islands fails only where a draw fails.

A generation selects from pools that are never empty, evaluates programs that the fitness can
be computed of, and finds the individuals it has put there.  So its failures are those of the
draws of its breeder, whatever these are.
-/

namespace SymbolicRegression

variable {σ : Type} [RandomSource σ] {Q : Failure → Prop} {f : Fitness} {size count : ℕ}
  {pool : List Individual}

/-! ## Offspring -/

namespace HeightBounds

variable {b : HeightBounds} {draw : Draw σ Program}

omit [RandomSource σ] in
theorem confines_firstWithin (h : Confines draw Q) (n : ℕ) :
    Confines (b.firstWithin draw n) Q := by
  induction n with
  | zero => exact .of_pure
  | succ n ih =>
    refine h.bind' fun child => ?_
    split
    · exact .of_pure
    · exact ih

omit [RandomSource σ] in
theorem confines_mutate (h : Confines draw Q) : Confines (b.mutate draw) Q := by
  refine (confines_firstWithin h variationAttempts).bind' fun found => ?_
  cases found with
  | none => exact .of_pure
  | some child => exact .of_pure

theorem confines_cross (recipient donor : Program) :
    Confines (b.cross recipient donor : Draw σ _) Q := by
  refine (confines_firstWithin (Variation.confines_crossover recipient donor)
    variationAttempts).bind' fun found => ?_
  cases found with
  | none => exact .of_pure
  | some child => exact .of_pure

end HeightBounds

namespace Breeder

variable {b : Breeder}

/-- The draws of a breeder that may fail, fail within bounds. -/
structure Confined (b : Breeder) (σ : Type) [RandomSource σ] (Q : Failure → Prop) : Prop where
  program : Confines (b.generator.draw : Draw σ Program) Q
  point (p : Program) : Confines (Variation.point b.pointRate b.generator p : Draw σ Program) Q
  subtree (p : Program) : Confines (Variation.subtree b.generator p : Draw σ Program) Q

theorem confines_parent (hpool : pool ≠ []) : Confines (parent pool : Draw σ Individual) Q :=
  (Tournament.confines_select _ pool).bind (Tournament.ensures_select _ hpool) fun _ hi =>
    .of_lift (confines_memberAt hi)

variable (hb : b.Confined σ Q) (hpool : pool ≠ [])

include hb hpool

theorem Confined.vary (p : Program) (way : Reproduction) :
    Confines (b.vary pool p way : Draw σ _) Q := by
  cases way with
  | point => exact HeightBounds.confines_mutate (hb.point p)
  | subtree => exact HeightBounds.confines_mutate (hb.subtree p)
  | hoist => exact HeightBounds.confines_mutate (Variation.confines_hoist p)
  | crossover =>
    exact (confines_parent hpool).bind' fun donor => HeightBounds.confines_cross p donor.program
  | copy => exact .of_pure

theorem Confined.child (generation : ℕ) :
    Confines (b.child pool generation : Draw σ Offspring) Q := by
  refine (confines_parent hpool).bind' fun chosen => (b.odds.confines_draw).bind' fun way => ?_
  split
  · exact .of_pure
  · refine (hb.vary hpool chosen.program way).bind' fun outcome => ?_
    cases outcome with
    | error fault => exact .of_pure
    | ok child => exact .of_pure

theorem Confined.nextGeneration (generation : ℕ) :
    Confines (b.nextGeneration pool generation : LoggedDraw σ (List Offspring)) Q :=
  have hbreed : Confines (b.breed pool generation : LoggedDraw σ Offspring) Q :=
    (Confines.of_draw (hb.child hpool generation)).bind' fun _ =>
      (Confines.of_lift Logged.confines_write).bind' fun _ => .of_pure
  .of_times hbreed pool.length

end Breeder

/-! ## Islands -/

namespace Island

variable {τ : Type} [RandomSource τ] {i : Island τ} {g : Generator} {b : Breeder}
  {P : Program → Prop}

theorem confines_create {index : ℕ} {stream : τ} (h : Confines (g.draw : Draw τ Program) Q) :
    Confines (create index size g stream) Q :=
  (((Confines.of_times h size).bind' fun _ => .of_pure).of_run stream).bind' fun _ => .of_pure

omit [RandomSource τ] in
theorem Holds.confines_evaluate (h : i.Holds size P) (hf : f.ConfinedOn P Q) :
    Confines (i.evaluate f) Q :=
  (h.population.confines_evaluate hf).bind' fun _ => .of_pure

theorem Holds.confines_renew (hconst : g.constMin ≤ g.constMax) (hgen : b.generator = g)
    (hb : b.Confined τ Q) (hf : f.ConfinedOn (g.Makes g.minHeight g.maxHeight) Q)
    (hne : i.population.individuals ≠ [])
    (h : i.Holds size (g.Makes g.minHeight g.maxHeight)) : Confines (i.renew f b) Q :=
  ((hb.nextGeneration hne _).of_run i.stream).bind (h.succeed hconst hgen _) fun _ hmoved =>
    (Confines.of_misuse (hmoved.confines_evaluate hf)).bind' fun _ => .of_pure

end Island

/-! ## Models -/

namespace IslandModel

variable {τ : Type} [SeededSource τ] {g : Generator} {b : Breeder} {m : IslandModel τ}
  {P : Program → Prop}

theorem confines_createIslands (h : Confines (g.draw : Draw τ Program) Q) (index count : ℕ) :
    Confines (createIslands size g index count : Draw σ (List (Island τ))) Q := by
  induction count generalizing index with
  | zero => exact .of_pure
  | succ count ih =>
    exact Draw.confines_seed.bind' fun _ =>
      (Confines.of_lift (Island.confines_create h)).bind' fun _ => (ih _).bind' fun _ => .of_pure

theorem confines_create (h : Confines (g.draw : Draw τ Program) Q) :
    Confines (create count size g : Draw σ (IslandModel τ)) Q :=
  (confines_createIslands h 0 count).bind' fun _ => .of_pure

omit [SeededSource τ] in
theorem Holds.confines_start (h : m.Holds count size P) (hf : f.ConfinedOn P Q) :
    Confines (m.start f) Q :=
  (Confines.of_mapM fun i hi => (h.islands i hi).confines_evaluate hf).bind' fun _ => .of_pure

/-- A step fails only where an island fails to renew itself. -/
theorem confines_step {past : List (List (List Individual))} (hsize : 0 < size)
    (htracks : m.Tracks count size past)
    (h : ∀ i ∈ m.islands, Confines (i.renew f b) Q) : Confines (m.step f b) Q := by
  rintro _ ⟨u, hu, rfl⟩
  unfold IslandModel.step at hu
  split at hu
  · cases hu
  · cases hu
  · next u' hmisuse =>
    cases hu
    obtain ⟨i, hi, hresult⟩ := Except.exists_of_mapM_error hmisuse
    obtain ⟨k, hk⟩ := List.getElem?_of_mem hi
    rw [(htracks.islands k i hk).evolve_eq_renew hsize] at hresult
    refine h i hi _ ?_
    show (i.renew f b).result = _
    cases hrenew : (i.renew f b).result with
    | error e =>
      rw [hrenew] at hresult
      exact congrArg Except.error (Except.error.inj hresult)
    | ok r =>
      rw [hrenew] at hresult
      cases hresult

end IslandModel

end SymbolicRegression
