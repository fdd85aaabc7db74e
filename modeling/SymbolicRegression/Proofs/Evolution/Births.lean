import SymbolicRegression.Proofs.Evolution.Stopping

/-!
Individuals carry their own evaluation, and none is born after the generation it lives in.

`ScoredBy` is the invariant, for an island and for a model of islands, and for the best
individuals as well as for those of the populations.  What an evaluation makes of an island
depends on its individuals one by one (`Island.scoredBy_of_evaluate`); a generation puts a child
that is new, or one of the old population, in every place.
-/

namespace SymbolicRegression

variable {τ : Type} {f : Fitness} {b : Breeder} {n size count : ℕ}

/-- Fitness and loss are those of the program, and the birth is no later than a generation. -/
structure Individual.ScoredBy (f : Fitness) (n : ℕ) (x : Individual) : Prop where
  scored : x.Scored f
  birth : x.birth ≤ n

theorem Individual.ScoredBy.succ {x : Individual} (h : x.ScoredBy f n) : x.ScoredBy f (n + 1) :=
  ⟨h.scored, Nat.le_succ_of_le h.birth⟩

/-! ## Islands -/

namespace Island

variable {i j : Island τ}

/-- An island that goes on, after so many generations. -/
structure ScoredBy (f : Fitness) (n : ℕ) (i : Island τ) : Prop where
  phase : i.phase ≠ .converged
  generation : i.population.generation = n
  individuals : ∀ x ∈ i.population.individuals, x.ScoredBy f n
  best : ∀ x ∈ i.best, x.ScoredBy f n

theorem scoredBy_of_evaluate (h : i.evaluate f = .ok j) (hphase : i.phase ≠ .converged)
    (hgeneration : i.population.generation = n) (hbest : ∀ x ∈ i.best, x.ScoredBy f n)
    (hall : ∀ x ∈ i.population.individuals, ∀ y, Population.evaluateOne f x = .ok y →
      y.ScoredBy f n) : j.ScoredBy f n := by
  have hj := evaluates h
  have hindividuals : ∀ y ∈ j.population.individuals, y.ScoredBy f n := by
    intro y hy
    obtain ⟨x, hx, hxy⟩ := hj.individuals y hy
    exact hall x hx y hxy
  refine ⟨hj.phase ▸ hphase, hj.generation.trans hgeneration, hindividuals, ?_⟩
  obtain ⟨p, hp, hnext⟩ := Except.bind_eq_ok.mp h
  cases hnext
  refine Individual.improve_holds hbest fun x hx => hindividuals x ?_
  exact List.mem_of_mem_filter (Individual.mem_of_best? hx)

theorem Untouched.scoredBy (h : i.Untouched size) (hbest : i.best = none)
    (hstart : i.evaluate f = .ok j) : j.ScoredBy f 0 := by
  refine scoredBy_of_evaluate hstart h.phase h.generation ?_ ?_
  · rw [hbest]
    nofun
  · intro x hx y hxy
    obtain ⟨hpending, hbirth⟩ := h.individuals x hx
    obtain ⟨hscored, hsame⟩ := Population.scored_of_evaluateOne hpending hxy
    exact ⟨hscored, (hsame.trans hbirth).le⟩

theorem ScoredBy.evolve [RandomSource τ] {offspring : List Offspring} (h : i.ScoredBy f n)
    (hevolve : (i.evolve f b).result = .ok (j, offspring)) : j.ScoredBy f (n + 1) := by
  have hscored : ∀ x ∈ i.population.individuals, x.Scored f :=
    fun x hx => (h.individuals x hx).scored
  have hevaluated : i.population.isEvaluated = true :=
    List.all_eq_true.mpr fun x hx => (hscored x hx).isEvaluated
  obtain ⟨stream, j', hbred, hj', rfl⟩ := exists_of_evolve h.phase hevaluated hevolve
  obtain ⟨-, hstems⟩ := Breeder.ensures_nextGeneration_stems _ _ ⟨_, _, hbred⟩
  rw [h.generation] at hstems
  have hmoved : j'.ScoredBy f (n + 1) := by
    refine scoredBy_of_evaluate hj' h.phase (congrArg (· + 1) h.generation)
      (fun x hx => (h.best x hx).succ) ?_
    intro x hx y hxy
    obtain ⟨o, ho, rfl⟩ := List.mem_map.mp hx
    obtain ⟨hy, hold | hborn⟩ := (hstems o ho).scored hscored hxy
    · exact (h.individuals y hold).succ
    · exact ⟨hy, hborn.le⟩
  exact ⟨nofun, hmoved.generation, hmoved.individuals, hmoved.best⟩

end Island

/-! ## Models -/

namespace IslandModel

variable {m m' : IslandModel τ}

structure ScoredBy (f : Fitness) (m : IslandModel τ) : Prop where
  islands : ∀ i ∈ m.islands, i.ScoredBy f m.generation
  best : ∀ x ∈ m.best, x.ScoredBy f m.generation

theorem ScoredBy.gatherBest (h : m.ScoredBy f) : m.gatherBest.ScoredBy f := by
  refine ⟨h.islands, ?_⟩
  refine List.foldlRecOn (motive := fun known : Option Individual =>
    ∀ x ∈ known, x.ScoredBy f m.generation) _ _ h.best ?_
  intro known hknown i hi
  exact Individual.improve_holds hknown (h.islands i hi).best

theorem ScoredBy.individuals (h : m.ScoredBy f) :
    ∀ x ∈ m.individuals, x.ScoredBy f m.generation := by
  intro x hx
  obtain ⟨i, hi, hx⟩ := List.mem_flatMap.mp hx
  exact (h.islands i hi).individuals x hx

variable [SeededSource τ]

theorem scoredBy_start {σ : Type} [RandomSource σ] {g : Generator} {s s' : σ}
    {outcome : Except Error Unit} (hcreate : (create count size g).run s = .ok (m, s'))
    (hstart : m.start f = .ok (m', outcome)) : m'.ScoredBy f := by
  have hfresh := ensures_create_fresh m ⟨_, _, hcreate⟩
  obtain ⟨-, huntouched⟩ := ensures_create_untouched m ⟨_, _, hcreate⟩
  obtain ⟨is, his, hm⟩ := Except.bind_eq_ok.mp hstart
  cases hm
  refine ScoredBy.gatherBest ⟨fun j hj => ?_, ?_⟩
  · obtain ⟨k, hk⟩ := List.getElem?_of_mem hj
    obtain ⟨i, hi, hij⟩ := Except.getElem?_of_mapM his k j hk
    have hmem := List.mem_of_getElem? hi
    show j.ScoredBy f m.generation
    rw [hfresh.generation]
    exact (huntouched i hmem).scoredBy (hfresh.islands i hmem).2.2 hij
  · show ∀ x ∈ m.best, x.ScoredBy f m.generation
    rw [hfresh.best]
    nofun

theorem ScoredBy.step (h : m.ScoredBy f) (hstep : m.step f b = .ok (m', .ok ())) :
    m'.ScoredBy f := by
  unfold IslandModel.step at hstep
  split at hstep
  · next is his =>
    obtain ⟨rfl, -⟩ := Prod.mk.inj (Except.ok.inj hstep)
    refine ScoredBy.gatherBest ⟨fun j hj => ?_, fun x hx => (h.best x hx).succ⟩
    obtain ⟨k, hk⟩ := List.getElem?_of_mem hj
    obtain ⟨i, hi, hij⟩ := Except.getElem?_of_mapM his k j hk
    obtain ⟨r, hr, rfl⟩ := Except.map_eq_ok.mp hij
    exact (h.islands i (List.mem_of_getElem? hi)).evolve hr
  · cases hstep
  · cases hstep

end IslandModel

/-! ## Fits -/

namespace Estimator

variable {e : Estimator} {entropy : ℕ} {train : Dataset} {m : IslandModel ChaCha.Stream}
  {bests : List Float}

theorem Visits.scoredBy (h : e.Visits entropy train m bests) : m.ScoredBy (e.fitness train) := by
  induction h with
  | start hcreate hstart => exact IslandModel.scoredBy_start hcreate hstart
  | step _ _ hstep ih => exact ih.step hstep

/-- A fit comes to the models after its generations, and to none beyond their limit. -/
theorem Visits.modelAfter (hmade : e.Made) (h : e.Visits entropy train m bests) :
    e.modelAfter entropy train m.generation = .ok m ∧ m.generation ≤ e.settings.generations := by
  induction h with
  | start hcreate hstart =>
    have hm := modelAfter_zero hcreate hstart
    obtain ⟨hzero, -⟩ := exists_bestSoFar hmade hm
    rw [hzero]
    exact ⟨hm, Nat.zero_le _⟩
  | step _ hgoes hstep ih =>
    have hm := modelAfter_succ ih.1 hstep
    obtain ⟨hnext, -⟩ := exists_bestSoFar hmade hm
    rw [hnext]
    exact ⟨hm, lt_generations_of_first? hgoes⟩

end Estimator

end SymbolicRegression
