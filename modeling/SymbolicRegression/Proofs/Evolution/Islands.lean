import SymbolicRegression.Proofs.Evolution.Breeding
import SymbolicRegression.Evolution.Island
import SymbolicRegression.Random.ChaCha

/-!
Islands keep their size and keep to their generator.

`Holds` is the invariant, for a population, an island and a model of islands.  It is stated
over any kind of programs, because evaluating and gathering the best move programs about and
never look into them; only random populations and offspring depend on the kind.
-/

namespace SymbolicRegression

variable {P : Program → Prop} {f : Fitness} {size : ℕ}

/-! ## The best of some individuals -/

namespace Individual

variable {is : List Individual} {best : Individual}

theorem mem_of_best? (h : best? is = some best) : best ∈ is := by
  cases is with
  | nil => contradiction
  | cons i is =>
    cases h
    refine List.foldlRecOn is _ List.mem_cons_self fun best hbest j hj => ?_
    split
    · exact List.mem_cons_of_mem i hj
    · exact hbest

/-- The better of what is known and what is found is one of the two. -/
theorem improve_holds {Q : Individual → Prop} {known found : Option Individual}
    (hknown : ∀ i ∈ known, Q i) (hfound : ∀ i ∈ found, Q i) :
    ∀ i ∈ (match found with
      | some candidate => some (improve known candidate)
      | none => known), Q i := by
  cases found with
  | none => exact hknown
  | some candidate =>
    rintro _ ⟨⟩
    unfold improve
    split
    · split
      · exact hfound candidate rfl
      · exact hknown _ rfl
    · exact hfound candidate rfl

end Individual

/-! ## Populations -/

namespace Population

/-- So many individuals, with programs of one kind only. -/
structure Holds (p : Population) (size : ℕ) (P : Program → Prop) : Prop where
  size : p.size = size
  programs : ∀ i ∈ p.individuals, P i.program

variable {p : Population}

section

variable {m : Type → Type} [Monad m] {ask : Program → m Evaluation} {i : Individual}

theorem evaluateOne_of_isEvaluated (h : i.isEvaluated = true) : evaluateOne ask i = pure i :=
  if_pos h

theorem evaluateOne_of_pending (h : i.isEvaluated = false) :
    evaluateOne ask i = do return i.withEvaluation (← ask i.program) :=
  if_neg (by rw [h]; exact Bool.false_ne_true)

end

theorem ensures_evaluateOne (f : Fitness) {i : Individual} (h : P i.program) :
    Ensures (evaluateOne f i) fun j => P j.program := by
  unfold evaluateOne
  split
  · exact .of_pure h
  · exact Ensures.bind' fun _ => .of_pure h

theorem Holds.evaluate (h : p.Holds size P) : Ensures (p.evaluate f) (Holds · size P) := by
  have hall := Ensures.of_mapM fun i hi => ensures_evaluateOne f (h.programs i hi)
  exact hall.bind fun is his => .of_pure ⟨his.1.trans h.size, his.2⟩

theorem Holds.best? (h : p.Holds size P) : ∀ i ∈ p.best?, P i.program := fun i hi =>
  h.programs i (List.mem_of_mem_filter (Individual.mem_of_best? hi))

theorem ensures_random {σ : Type} [RandomSource σ] {g : Generator}
    (h : Ensures (g.draw : Draw σ Program) P) :
    Ensures (random size g : Draw σ Population) (Holds · size P) := by
  refine (Draw.ensures_times h size).bind fun ps hps => .of_pure ⟨?_, fun i hi => ?_⟩
  · exact (List.length_map _).trans hps.1
  · obtain ⟨p, hp, rfl⟩ := List.mem_map.mp hi
    exact hps.2 p hp

end Population

/-! ## Islands -/

namespace Island

variable {τ : Type} [RandomSource τ] {i : Island τ}

/-- A population of one size and kind, and a best individual of the same kind. -/
structure Holds (i : Island τ) (size : ℕ) (P : Program → Prop) : Prop where
  population : i.population.Holds size P
  best : ∀ b ∈ i.best, P b.program

omit [RandomSource τ] in
theorem Holds.evaluate (h : i.Holds size P) : Ensures (i.evaluate f) (Holds · size P) := by
  refine h.population.evaluate.bind fun population hpopulation => .of_pure ⟨hpopulation, ?_⟩
  exact Individual.improve_holds h.best hpopulation.best?

theorem ensures_create {g : Generator} {index : ℕ} {stream : τ}
    (h : Ensures (g.draw : Draw τ Program) P) :
    Ensures (create index size g stream) (Holds · size P) :=
  ((Population.ensures_random h).of_run stream).bind fun _ hr => .of_pure ⟨hr, nofun⟩

variable {g : Generator} {b : Breeder}

theorem evolveM_eq {n m : Type → Type} [Monad n] [Monad m] [MonadLiftT n m] [MonadLiftT Logged m]
    (ask : Program → n Evaluation) (hphase : i.phase ≠ .converged)
    (hne : i.population.individuals ≠ []) :
    (i.evolveM ask b : m (Island τ × List Offspring)) = (do
      let i ← if i.population.isEvaluated then pure i else (i.evaluateM ask : n _)
      i.renewM ask b) := by
  unfold evolveM
  rw [if_neg hphase, if_neg (by simpa using hne)]

/-- A generation of an evaluated island with the answers of a fitness. -/
def renew (f : Fitness) (b : Breeder) (i : Island τ) : Logged (Island τ × List Offspring) :=
  i.renewM f b

theorem evolve_of_converged (h : i.phase = .converged) : i.evolve f b = pure (i, []) :=
  if_pos h

theorem evolve_eq (hphase : i.phase ≠ .converged) (hne : i.population.individuals ≠ []) :
    i.evolve f b = (do
      let i ← if i.population.isEvaluated then pure i else (i.evaluate f : Except Misuse _)
      i.renew f b) :=
  evolveM_eq f hphase hne

theorem evolve_of_nil (hphase : i.phase ≠ .converged) (hnil : i.population.individuals = []) :
    (i.evolve f b).result = .error (.error .emptyPopulation) := by
  unfold evolve evolveM
  rw [if_neg hphase, if_pos (by rw [hnil]; rfl)]
  rfl

theorem ne_nil_of_evolve {r : Island τ × List Offspring} (hphase : i.phase ≠ .converged)
    (h : (i.evolve f b).result = .ok r) : i.population.individuals ≠ [] := by
  intro hnil
  rw [evolve_of_nil hphase hnil] at h
  cases h

variable (hconst : g.constMin ≤ g.constMax) (hgen : b.generator = g)
  (h : i.Holds size (g.Makes g.minHeight g.maxHeight))

include hconst hgen h

/-- The offspring can take the place of the population. -/
theorem Holds.succeed (generation : ℕ) :
    Ensures ((b.nextGeneration i.population.individuals generation).run i.stream) fun r =>
      Holds { i with population := i.population.succeed (r.1.map (·.individual)), stream := r.2 }
        size (g.Makes g.minHeight g.maxHeight) := by
  have hnext := Breeder.ensures_nextGeneration (σ := τ) hconst hgen h.population.programs
  refine ((hnext generation).of_run i.stream).mono fun r hr => ⟨⟨?_, fun j hj => ?_⟩, h.best⟩
  · exact (List.length_map _).trans (hr.1.trans h.population.size)
  · obtain ⟨o, ho, rfl⟩ := List.mem_map.mp hj
    exact hr.2 o ho

theorem Holds.renew :
    Ensures (i.renew f b) fun r => r.1.Holds size (g.Makes g.minHeight g.maxHeight) :=
  (h.succeed hconst hgen _).bind fun _ hmoved =>
    (Ensures.of_misuse hmoved.evaluate).bind fun _ hj => .of_pure ⟨hj.population, hj.best⟩

theorem Holds.evolve :
    Ensures (i.evolve f b) fun r => r.1.Holds size (g.Makes g.minHeight g.maxHeight) := by
  by_cases hphase : i.phase = .converged
  · rw [evolve_of_converged hphase]
    exact .of_pure h
  by_cases hnil : i.population.individuals = []
  · intro r hr
    exact absurd hnil (ne_nil_of_evolve hphase hr)
  rw [evolve_eq hphase hnil]
  split
  · exact h.renew hconst hgen
  · exact (Ensures.of_misuse h.evaluate).bind fun j hj => hj.renew hconst hgen

end Island

/-! ## Models -/

namespace IslandModel

variable {τ : Type} {m : IslandModel τ} {count : ℕ}

/-- So many islands of one size, and a best individual, all of one kind. -/
structure Holds (m : IslandModel τ) (count size : ℕ) (P : Program → Prop) : Prop where
  count : m.islands.length = count
  islands : ∀ i ∈ m.islands, i.Holds size P
  best : ∀ b ∈ m.best, P b.program

theorem Holds.gatherBest (h : m.Holds count size P) : m.gatherBest.Holds count size P := by
  refine ⟨h.count, h.islands, ?_⟩
  refine List.foldlRecOn (motive := fun known : Option Individual => ∀ i ∈ known, P i.program)
    _ _ h.best ?_
  intro known hknown i hi
  exact Individual.improve_holds hknown (h.islands i hi).best

theorem Holds.converge (h : m.Holds count size P) : m.converge.Holds count size P := by
  refine ⟨(List.length_map _).trans h.count, fun i hi => ?_, h.best⟩
  obtain ⟨j, hj, rfl⟩ := List.mem_map.mp hi
  exact ⟨(h.islands j hj).population, (h.islands j hj).best⟩

theorem Holds.start (h : m.Holds count size P) :
    Ensures (m.start f) fun r => r.1.Holds count size P := by
  refine (Ensures.of_mapM fun i hi => (h.islands i hi).evaluate).bind fun is his => .of_pure ?_
  exact Holds.gatherBest ⟨his.1.trans h.count, his.2, h.best⟩

variable [SeededSource τ]

/-- What holds of every island that is made holds of all of them. -/
theorem ensures_createIslands_of {σ : Type} [RandomSource σ] {g : Generator} {Q : Island τ → Prop}
    (h : ∀ (index : ℕ) (stream : τ), Ensures (Island.create index size g stream) Q)
    (index count : ℕ) :
    Ensures (createIslands size g index count : Draw σ (List (Island τ))) fun is =>
      is.length = count ∧ ∀ i ∈ is, Q i := by
  induction count generalizing index with
  | zero => exact .of_pure ⟨rfl, nofun⟩
  | succ count ih =>
    refine Ensures.bind' fun seed => (Ensures.of_except (h index _)).bind fun i hi => ?_
    refine (ih (index + 1)).bind fun is his => .of_pure ?_
    exact ⟨congrArg (· + 1) his.1, List.forall_mem_cons.mpr ⟨hi, his.2⟩⟩

/-- The states that a model comes to.  Fitness and breeder may be others in every step, as
long as the generator stays. -/
inductive Reached (g : Generator) (count size : ℕ) : IslandModel τ → Prop where
  | create {σ : Type} [RandomSource σ] {s s' : σ} {m : IslandModel τ} :
      (create count size g).run s = .ok (m, s') → Reached g count size m
  | start {f : Fitness} {m m' : IslandModel τ} {outcome : Except Error Unit} :
      Reached g count size m → m.start f = .ok (m', outcome) → Reached g count size m'
  | step {f : Fitness} {b : Breeder} {m m' : IslandModel τ} {outcome : Except Error Unit} :
      Reached g count size m → b.generator = g → m.step f b = .ok (m', outcome) →
        Reached g count size m'
  | converge {m : IslandModel τ} : Reached g count size m → Reached g count size m.converge

section

variable {g : Generator} (hconst : g.constMin ≤ g.constMax)

include hconst

theorem Holds.step {b : Breeder} (hgen : b.generator = g)
    (h : m.Holds count size (g.Makes g.minHeight g.maxHeight)) :
    Ensures (m.step f b) fun r => r.1.Holds count size (g.Makes g.minHeight g.maxHeight) := by
  have hmoved : Ensures (m.islands.mapM fun i => (·.1) <$> (i.evolve f b).result) fun is =>
      is.length = m.islands.length ∧
        ∀ i ∈ is, i.Holds size (g.Makes g.minHeight g.maxHeight) := by
    refine Ensures.of_mapM fun i hi j hj => ?_
    obtain ⟨r, hr, rfl⟩ := Except.map_eq_ok.mp hj
    exact (h.islands i hi).evolve hconst hgen r hr
  intro r hr
  unfold IslandModel.step at hr
  split at hr
  · next is his =>
    cases hr
    have hall := hmoved is his
    exact Holds.gatherBest ⟨hall.1.trans h.count, hall.2, h.best⟩
  · cases hr
    exact h
  · cases hr

variable (hheight : g.minHeight ≤ g.maxHeight) (hword : g.maxHeight < 2 ^ 64)

include hheight hword

theorem ensures_createIslands {σ : Type} [RandomSource σ] (index count : ℕ) :
    Ensures (createIslands size g index count : Draw σ (List (Island τ))) fun is =>
      is.length = count ∧ ∀ i ∈ is, i.Holds size (g.Makes g.minHeight g.maxHeight) := by
  have hdraw := Generator.ensures_draw (σ := τ) hheight hword hconst
  exact ensures_createIslands_of (fun index stream => Island.ensures_create hdraw) index count

theorem ensures_create {σ : Type} [RandomSource σ] :
    Ensures (create count size g : Draw σ (IslandModel τ))
      (Holds · count size (g.Makes g.minHeight g.maxHeight)) :=
  (ensures_createIslands hconst hheight hword 0 count).bind fun _ his =>
    .of_pure ⟨his.1, his.2, nofun⟩

/-- In every state of a run all islands have their size, and all programs, those of the
populations and the best ones alike, keep to the vocabulary and the heights of the generator.
Heights are drawn as words, so the greatest one has to be a word. -/
theorem reached_holds (h : Reached g count size m) :
    m.Holds count size (g.Makes g.minHeight g.maxHeight) := by
  induction h with
  | create hrun => exact ensures_create hconst hheight hword _ ⟨_, _, hrun⟩
  | start _ hstart ih => exact ih.start _ hstart
  | step _ hgen hstep ih => exact ih.step hconst hgen _ hstep
  | converge _ ih => exact ih.converge

end

/-- A breeder of trees with one or two levels over one feature and some constants. -/
def shrubs : Breeder where
  generator := {
    functions := ⟨[.add, .neg], List.cons_ne_nil _ _⟩
    featureCount := 1
    constMin := 0.0
    constMax := 1.0
    pConst := 0.5
    pFull := 0.5
    pLeaf := 0.5
    minHeight := 1
    maxHeight := 2 }
  pointRate := 0.5
  odds := ⟨0.25, 0.25, 0.25, 0.25⟩

/-- One generation of shrubs on two islands, where all are equally fit. -/
def shrubRun : Except Misuse (IslandModel ChaCha.Stream) := do
  let (m, _) ← (create 2 3 shrubs.generator).run (ChaCha.Stream.ofSeedWord 1)
  let (m, _) ← m.start fun _ => .ok ⟨0.0, 0.0⟩
  return (← m.step (fun _ => .ok ⟨0.0, 0.0⟩) shrubs).1

theorem reached_holds_shrubs : ∃ m : IslandModel ChaCha.Stream, m.generation = 1 ∧
    Reached shrubs.generator 2 3 m ∧ m.Holds 2 3 (shrubs.generator.Makes 1 2) := by
  have hrun : shrubRun.toOption.map (·.generation) = some 1 := by decide +kernel
  cases h : shrubRun with
  | error e =>
    rw [h] at hrun
    contradiction
  | ok m =>
    rw [h] at hrun
    obtain ⟨⟨m₀, s⟩, hcreate, h⟩ := Except.bind_eq_ok.mp h
    obtain ⟨⟨m₁, outcome₁⟩, hstart, h⟩ := Except.bind_eq_ok.mp h
    obtain ⟨⟨m₂, outcome₂⟩, hstep, h⟩ := Except.bind_eq_ok.mp h
    cases h
    have hreached := ((Reached.create hcreate).start hstart).step rfl hstep
    refine ⟨m₂, Option.some.inj hrun, hreached, ?_⟩
    exact reached_holds (by decide +kernel) (by decide) (by decide) hreached

end IslandModel

end SymbolicRegression
