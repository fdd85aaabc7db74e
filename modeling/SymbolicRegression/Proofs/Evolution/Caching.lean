import SymbolicRegression.Proofs.Evolution.BestSoFar

/-!
An evaluation is kept with the individual it belongs to, and no individual is evaluated twice.

Evaluating and evolving ask for evaluations in any monad.  To count the calls of a fitness, they
are run where every program that is asked for is noted (`Fitness.noted`); the list of these
programs is all that this adds (`Island.run_evaluateM_noted`, `Island.result_evolveM_noted`).

A ledger keeps, for one island, what a run has noted and what it has bred.  `Ledger.Balances` is
the invariant.  It rests on one fact about breeding: a child is either new, and then it is not
evaluated and born in its generation, or it is a member of the pool as it stands there.
-/

namespace SymbolicRegression

variable {τ : Type} {f : Fitness} {b : Breeder} {size n : ℕ}

/-! ## Calls -/

/-- The programs of the individuals that have not been evaluated, in their order. -/
def pendingPrograms (is : List Individual) : List Program :=
  (is.filter (!·.isEvaluated)).map (·.program)

/-- Computations with a list of the programs that have been asked for. -/
abbrev Noting := StateT (List Program) Logged

/-- The answers of a fitness, where every question is noted. -/
def Fitness.noted (f : Fitness) (p : Program) : Noting Evaluation := do
  modify (· ++ [p])
  (f p : Except Misuse Evaluation)

theorem pendingPrograms_append (is js : List Individual) :
    pendingPrograms (is ++ js) = pendingPrograms is ++ pendingPrograms js := by
  unfold pendingPrograms
  rw [List.filter_append, List.map_append]

theorem length_pendingPrograms (p : Population) :
    (pendingPrograms p.individuals).length = p.pendingCount := by
  unfold pendingPrograms Population.pendingCount
  rw [List.length_map, List.countP_eq_length_filter]

theorem pendingPrograms_of_isEvaluated {is : List Individual}
    (h : ∀ i ∈ is, i.isEvaluated = true) : pendingPrograms is = [] := by
  unfold pendingPrograms
  rw [List.map_eq_nil_iff, List.filter_eq_nil_iff]
  intro i hi
  simp [h i hi]

/-! ### Noting changes nothing but the list -/

theorem Fitness.run_noted {p : Program} {e : Evaluation} {calls : List Program}
    (h : f p = .ok e) : (f.noted p).run calls = pure (e, calls ++ [p]) := by
  unfold noted
  rw [h]
  rfl

namespace Population

variable {calls : List Program}

theorem run_evaluateOne_noted {i j : Individual} (h : evaluateOne f i = .ok j) :
    (evaluateOne f.noted i).run calls = pure (j, calls ++ pendingPrograms [i]) := by
  cases hi : i.isEvaluated with
  | true =>
    rw [evaluateOne_of_isEvaluated hi] at h ⊢
    cases h
    rw [pendingPrograms_of_isEvaluated (List.forall_mem_singleton.mpr hi), List.append_nil]
    rfl
  | false =>
    rw [evaluateOne_of_pending hi] at h ⊢
    obtain ⟨e, he, h⟩ := Except.bind_eq_ok.mp h
    cases h
    have hpending : pendingPrograms [i] = [i.program] := by
      simp [pendingPrograms, hi]
    rw [StateT.run_bind, Fitness.run_noted he, hpending]
    rfl

theorem run_mapM_evaluateOne_noted {is js : List Individual}
    (h : is.mapM (evaluateOne f) = .ok js) :
    (is.mapM (evaluateOne f.noted)).run calls = pure (js, calls ++ pendingPrograms is) := by
  induction is generalizing js calls with
  | nil =>
    cases h
    rw [show pendingPrograms [] = [] from rfl, List.append_nil]
    rfl
  | cons i is ih =>
    rw [List.mapM_cons] at h
    obtain ⟨j, hj, h⟩ := Except.bind_eq_ok.mp h
    obtain ⟨js, hjs, h⟩ := Except.bind_eq_ok.mp h
    cases h
    have hpending : pendingPrograms (i :: is) = pendingPrograms [i] ++ pendingPrograms is :=
      pendingPrograms_append [i] is
    rw [List.mapM_cons, StateT.run_bind, run_evaluateOne_noted hj, pure_bind, StateT.run_bind,
      ih hjs, pure_bind, StateT.run_pure, hpending, List.append_assoc]

end Population

namespace Island

variable {i j : Island τ} (calls : List Program)

theorem run_evaluateM_noted (h : i.evaluate f = .ok j) :
    (i.evaluateM f.noted).run calls =
      pure (j, calls ++ pendingPrograms i.population.individuals) := by
  obtain ⟨p, hp, h⟩ := Except.bind_eq_ok.mp h
  cases h
  obtain ⟨is, his, hp⟩ := Except.bind_eq_ok.mp hp
  cases hp
  unfold evaluateM Population.evaluateM
  rw [StateT.run_bind, StateT.run_bind, Population.run_mapM_evaluateOne_noted his]
  rfl

variable [RandomSource τ]

/-- A generation of an island that is evaluated: offspring are bred, take the place of the
population, and are evaluated. -/
theorem exists_of_evolve {offspring : List Offspring} (hphase : i.phase ≠ .converged)
    (hevaluated : i.population.isEvaluated = true)
    (h : (i.evolve f b).result = .ok (j, offspring)) :
    ∃ (stream : τ) (j' : Island τ),
      ((b.nextGeneration i.population.individuals (i.population.generation + 1)).run
        i.stream).result = .ok (offspring, stream) ∧
      evaluate f { i with
        population := i.population.succeed (offspring.map (·.individual)), stream } = .ok j' ∧
      j = { j' with phase := .evolving (i.population.generation + 1) } := by
  rw [evolve_eq hphase (ne_nil_of_evolve hphase h), if_pos hevaluated] at h
  change (i.renew f b).result = _ at h
  obtain ⟨⟨os, stream⟩, hbred, h⟩ := Logged.result_bind_eq_ok.mp h
  obtain ⟨j', hj', h⟩ := Logged.result_bind_eq_ok.mp h
  cases h
  exact ⟨stream, j', hbred, Except.mapError_eq_ok.mp hj', rfl⟩

/-- Such an island asks for its offspring, and for nothing before. -/
theorem result_evolveM_noted {offspring : List Offspring} (hphase : i.phase ≠ .converged)
    (hevaluated : i.population.isEvaluated = true)
    (h : (i.evolve f b).result = .ok (j, offspring)) :
    ((i.evolveM f.noted b : Noting _).run calls).result =
      .ok ((j, offspring), calls ++ pendingPrograms (offspring.map (·.individual))) := by
  obtain ⟨stream, j', hbred, hj', rfl⟩ := exists_of_evolve hphase hevaluated h
  rw [evolveM_eq f.noted hphase (ne_nil_of_evolve hphase h), if_pos hevaluated, pure_bind]
  unfold renewM
  rw [StateT.run_bind, StateT.run_monadLift, monadLift_self, Logged.result_bind,
    Logged.result_bind, hbred]
  show ((evaluateM f.noted _).run calls >>= _).result = _
  rw [run_evaluateM_noted calls hj']
  rfl

end Island

/-! ## Offspring -/

namespace Offspring

/-- The way that was drawn changes the program, and it was applied. -/
def isNew (o : Offspring) : Bool := o.way != .copy && o.isApplied

/-- The programs of the new offspring, in their order. -/
def newPrograms (os : List Offspring) : List Program :=
  (os.filter (·.isNew)).map (·.individual.program)

theorem length_newPrograms (os : List Offspring) :
    (newPrograms os).length = os.countP (·.isNew) := by
  unfold newPrograms
  rw [List.length_map, List.countP_eq_length_filter]

/-- The child is a new individual or one of a pool. -/
inductive StemsFrom (o : Offspring) (pool : List Individual) (generation : ℕ) : Prop where
  | new (p : Program) :
      o.isNew = true → o.individual = .ofProgram p generation → StemsFrom o pool generation
  | copied : o.isNew = false → o.individual ∈ pool → StemsFrom o pool generation

variable {o : Offspring} {os : List Offspring} {pool : List Individual} {generation : ℕ}

theorem StemsFrom.isEvaluated (h : o.StemsFrom pool generation)
    (hpool : ∀ i ∈ pool, i.isEvaluated = true) : o.individual.isEvaluated = !o.isNew := by
  cases h with
  | new p hnew hp =>
    rw [hp, hnew]
    rfl
  | copied hold hmem =>
    rw [hpool _ hmem, hold]
    rfl

/-- The offspring that are not evaluated are the new ones. -/
theorem pendingPrograms_eq (h : ∀ o ∈ os, o.StemsFrom pool generation)
    (hpool : ∀ i ∈ pool, i.isEvaluated = true) :
    pendingPrograms (os.map (·.individual)) = newPrograms os := by
  unfold pendingPrograms newPrograms
  rw [List.filter_map, List.map_map]
  refine congrArg _ (List.filter_congr fun o ho => ?_)
  rw [Function.comp_apply, (h o ho).isEvaluated hpool, Bool.not_not]

end Offspring

namespace Breeder

variable {σ : Type} [RandomSource σ] {pool : List Individual}

theorem ensures_child_stems (generation : ℕ) :
    Ensures (b.child pool generation : Draw σ Offspring) (·.StemsFrom pool generation) := by
  refine ensures_parent.bind fun chosen hchosen => Ensures.bind' fun way => ?_
  by_cases hcopy : way = .copy
  · rw [if_pos hcopy]
    subst hcopy
    exact .of_pure (.copied rfl hchosen)
  · rw [if_neg hcopy]
    refine Ensures.bind' fun outcome => ?_
    cases outcome with
    | error fault => exact .of_pure (.copied (Bool.and_false _) hchosen)
    | ok child =>
      have hnew : ({ individual := .ofProgram child generation, way, fault := none } :
          Offspring).isNew = true := by
        simp [Offspring.isNew, Offspring.isApplied, hcopy]
      exact .of_pure (.new child hnew rfl)

theorem ensures_nextGeneration_stems (generation : ℕ) :
    Ensures (b.nextGeneration pool generation : LoggedDraw σ (List Offspring)) fun os =>
      os.length = pool.length ∧ ∀ o ∈ os, o.StemsFrom pool generation :=
  Draw.ensures_times ((Ensures.of_draw (ensures_child_stems generation)).bind fun _ ho =>
    Ensures.bind' fun _ => .of_pure ho) pool.length

end Breeder

/-! ## Evaluation -/

/-- Fitness and loss are what a fitness gives the program. -/
def Individual.Scored (f : Fitness) (i : Individual) : Prop :=
  ∃ e, f i.program = .ok e ∧ i.fitness = some e.fitness ∧ i.loss = some e.loss

theorem Individual.Scored.isEvaluated {i : Individual} (h : i.Scored f) :
    i.isEvaluated = true := by
  obtain ⟨e, -, hfitness, -⟩ := h
  unfold Individual.isEvaluated
  rw [hfitness]
  rfl

namespace Population

variable {i j : Individual}

theorem eq_of_evaluateOne (hi : i.isEvaluated = true) (h : evaluateOne f i = .ok j) : j = i := by
  rw [evaluateOne_of_isEvaluated hi] at h
  exact (Except.ok.inj h).symm

theorem scored_of_evaluateOne (hi : i.isEvaluated = false) (h : evaluateOne f i = .ok j) :
    j.Scored f ∧ j.birth = i.birth := by
  rw [evaluateOne_of_pending hi] at h
  obtain ⟨e, he, h⟩ := Except.bind_eq_ok.mp h
  cases h
  exact ⟨⟨e, he, rfl, rfl⟩, rfl⟩

end Population

/-- A child of a scored pool is scored; if it is not one of the pool, it is new. -/
theorem Offspring.StemsFrom.scored {o : Offspring} {pool : List Individual} {y : Individual}
    (h : o.StemsFrom pool n) (hpool : ∀ x ∈ pool, x.Scored f)
    (hy : Population.evaluateOne f o.individual = .ok y) :
    y.Scored f ∧ (y ∈ pool ∨ y.birth = n) := by
  cases h with
  | new p hnew hp =>
    rw [hp] at hy
    obtain ⟨hscored, hbirth⟩ := Population.scored_of_evaluateOne rfl hy
    exact ⟨hscored, .inr hbirth⟩
  | copied hold hmem =>
    have hscored := hpool _ hmem
    rw [Population.eq_of_evaluateOne hscored.isEvaluated hy]
    exact ⟨hscored, .inl hmem⟩

/-- What an evaluation makes of an island. -/
structure Island.Evaluates (f : Fitness) (i j : Island τ) : Prop where
  phase : j.phase = i.phase
  generation : j.population.generation = i.population.generation
  size : j.population.size = i.population.size
  evaluations : j.evaluations = i.evaluations + (pendingPrograms i.population.individuals).length
  individuals : ∀ y ∈ j.population.individuals, ∃ x ∈ i.population.individuals,
    Population.evaluateOne f x = .ok y

theorem Island.evaluates {i j : Island τ} (h : i.evaluate f = .ok j) : i.Evaluates f j := by
  obtain ⟨p, hp, h⟩ := Except.bind_eq_ok.mp h
  cases h
  obtain ⟨is, his, hp⟩ := Except.bind_eq_ok.mp hp
  cases hp
  have hall := Ensures.of_mapM (fun x _ => Ensures.trivial (Population.evaluateOne f x)) is his
  refine ⟨rfl, rfl, hall.1, ?_, fun y hy => ?_⟩
  · rw [length_pendingPrograms]
  · obtain ⟨k, hk⟩ := List.getElem?_of_mem hy
    obtain ⟨x, hx, hxy⟩ := Except.getElem?_of_mapM his k y hk
    exact ⟨x, List.mem_of_getElem? hx, hxy⟩

/-- An island as it is made, with no individual evaluated. -/
structure Island.Untouched (size : ℕ) (i : Island τ) : Prop where
  phase : i.phase ≠ .converged
  size : i.population.size = size
  generation : i.population.generation = 0
  evaluations : i.evaluations = 0
  individuals : ∀ x ∈ i.population.individuals, x.isEvaluated = false ∧ x.birth = 0

/-- No individual of a random population is evaluated. -/
theorem Population.ensures_random_pending {σ : Type} [RandomSource σ] {g : Generator} :
    Ensures (random size g : Draw σ Population) fun p =>
      p.size = size ∧ p.generation = 0 ∧
        ∀ x ∈ p.individuals, x.isEvaluated = false ∧ x.birth = 0 := by
  refine (Draw.ensures_times (Ensures.trivial _) size).bind fun ps hps => .of_pure ?_
  refine ⟨(List.length_map _).trans hps.1, rfl, fun x hx => ?_⟩
  obtain ⟨p, -, rfl⟩ := List.mem_map.mp hx
  exact ⟨rfl, rfl⟩

/-! ## Ledgers -/

/-- What is known of an island from its past. -/
structure Ledger where
  /-- The programs of the first population. -/
  first : List Program
  /-- The population that the last generation was bred from. -/
  pool : List Individual
  /-- The offspring of every generation. -/
  broods : List (List Offspring)
  /-- The programs that the fitness was asked for. -/
  calls : List Program

namespace Ledger

/-- The ledger of an island whose first population is evaluated. -/
def opening (f : Fitness) (i : Island τ) : Ledger where
  first := i.population.individuals.map (·.program)
  pool := []
  broods := []
  calls :=
    match ((i.evaluateM f.noted).run []).result with
    | .ok (_, calls) => calls
    | .error _ => []

/-- One more generation on the ledger. -/
def extend (l : Ledger) (pool : List Individual) (offspring : List Offspring)
    (calls : List Program) : Ledger :=
  { l with pool, broods := l.broods ++ [offspring], calls }

/-- The fitness was asked for the first population and for the new offspring. -/
def Explains (l : Ledger) : Prop := l.calls = l.first ++ l.broods.flatMap Offspring.newPrograms

theorem Explains.extend {l : Ledger} {pool : List Individual} {offspring : List Offspring}
    {calls : List Program} (h : l.Explains)
    (hcalls : calls = l.calls ++ Offspring.newPrograms offspring) :
    (l.extend pool offspring calls).Explains := by
  show calls = l.first ++ (l.broods ++ [offspring]).flatMap Offspring.newPrograms
  rw [hcalls, h, List.flatMap_append, List.flatMap_singleton, List.append_assoc]

/-- The ledger after a generation.  An island that fails breeds and asks nothing. -/
def next [RandomSource τ] (f : Fitness) (b : Breeder) (l : Ledger) (i : Island τ) : Ledger :=
  match ((i.evolveM f.noted b : Noting _).run l.calls).result with
  | .ok ((_, offspring), calls) => l.extend i.population.individuals offspring calls
  | .error _ => l.extend i.population.individuals [] l.calls

/-- An island of which everything is on the ledger, after so many generations. -/
structure Balances (f : Fitness) (size n : ℕ) (l : Ledger) (i : Island τ) : Prop where
  phase : i.phase ≠ .converged
  generation : 0 < size → i.population.generation = n
  scored : ∀ x ∈ i.population.individuals, x.Scored f
  births : ∀ x ∈ i.population.individuals, x ∈ l.pool ∨ x.birth = n
  broods : l.broods.length = n
  calls : l.Explains
  evaluations : i.evaluations = l.calls.length
  first : l.first.length = size
  size : i.population.size = size

variable {l : Ledger} {i j : Island τ}

theorem balances_opening (h : Island.Untouched size i) (hstart : i.evaluate f = .ok j) :
    (opening f i).Balances f size 0 j := by
  have hj := Island.evaluates hstart
  have hpending : pendingPrograms i.population.individuals =
      i.population.individuals.map (·.program) := by
    unfold pendingPrograms
    rw [List.filter_eq_self.mpr fun x hx => by rw [(h.individuals x hx).1]; rfl]
  have hcalls : (opening f i).calls = i.population.individuals.map (·.program) := by
    unfold opening
    dsimp only
    rw [Island.run_evaluateM_noted _ hstart, hpending]
    rfl
  have hnew : ∀ y ∈ j.population.individuals, y.Scored f ∧ y.birth = 0 := by
    intro y hy
    obtain ⟨x, hx, hxy⟩ := hj.individuals y hy
    obtain ⟨hpends, hbirth⟩ := h.individuals x hx
    obtain ⟨hscored, hsame⟩ := Population.scored_of_evaluateOne hpends hxy
    exact ⟨hscored, hsame.trans hbirth⟩
  exact {
    phase := hj.phase ▸ h.phase
    size := hj.size.trans h.size
    generation := fun _ => hj.generation.trans h.generation
    scored := fun y hy => (hnew y hy).1
    births := fun y hy => .inr (hnew y hy).2
    first := (List.length_map _).trans h.size
    broods := rfl
    calls := hcalls.trans (List.append_nil _).symm
    evaluations := by
      rw [hj.evaluations, h.evaluations, hpending, hcalls, Nat.zero_add] }

variable [RandomSource τ]

theorem Balances.next {offspring : List Offspring} (h : l.Balances f size n i)
    (hevolve : (i.evolve f b).result = .ok (j, offspring)) :
    (l.next f b i).Balances f size (n + 1) j := by
  have hne := Island.ne_nil_of_evolve h.phase hevolve
  have hsize : 0 < size := by
    rw [← h.size]
    exact List.length_pos_iff.mpr hne
  have hpool : ∀ x ∈ i.population.individuals, x.isEvaluated = true :=
    fun x hx => (h.scored x hx).isEvaluated
  have hevaluated : i.population.isEvaluated = true := List.all_eq_true.mpr hpool
  have hrun := Island.result_evolveM_noted l.calls h.phase hevaluated hevolve
  have hnext : l.next f b i = l.extend i.population.individuals offspring
      (l.calls ++ pendingPrograms (offspring.map (·.individual))) := by
    unfold Ledger.next
    rw [hrun]
  obtain ⟨stream, j', hbred, hj', rfl⟩ := Island.exists_of_evolve h.phase hevaluated hevolve
  obtain ⟨hlength, hstems⟩ := Breeder.ensures_nextGeneration_stems _ _ ⟨_, _, hbred⟩
  have hj := Island.evaluates hj'
  have hgeneration := h.generation hsize
  have hpending := Offspring.pendingPrograms_eq hstems hpool
  have hchildren : ∀ y ∈ j'.population.individuals,
      y.Scored f ∧ (y ∈ i.population.individuals ∨ y.birth = n + 1) := by
    intro y hy
    obtain ⟨x, hx, hxy⟩ := hj.individuals y hy
    obtain ⟨o, ho, rfl⟩ := List.mem_map.mp hx
    rw [← hgeneration]
    exact (hstems o ho).scored h.scored hxy
  rw [hnext]
  exact {
    phase := nofun
    size := hj.size.trans ((List.length_map _).trans (hlength.trans h.size))
    generation := fun _ => hj.generation.trans (congrArg (· + 1) hgeneration)
    scored := fun y hy => (hchildren y hy).1
    births := fun y hy => (hchildren y hy).2
    first := h.first
    broods := List.length_append.trans (congrArg (· + 1) h.broods)
    calls := h.calls.extend (congrArg _ hpending)
    evaluations := by
      refine hj.evaluations.trans ?_
      show i.evaluations + _ = _
      rw [h.evaluations]
      exact List.length_append.symm }

/-- An island without individuals fails, and there is nothing to put on its ledger. -/
theorem Balances.next_of_empty (h : l.Balances f 0 n i) : (l.next f b i).Balances f 0 (n + 1) i := by
  have hnil : i.population.individuals = [] := List.length_eq_zero_iff.mp h.size
  have hrun : ((i.evolveM f.noted b : Noting _).run l.calls).result =
      .error (.error .emptyPopulation) := by
    unfold Island.evolveM
    rw [if_neg h.phase, if_pos (by rw [hnil]; rfl)]
    rfl
  have hnext : l.next f b i = l.extend i.population.individuals [] l.calls := by
    unfold Ledger.next
    rw [hrun]
  rw [hnext]
  exact {
    phase := h.phase
    size := h.size
    generation := nofun
    scored := h.scored
    births := fun y hy => .inl hy
    first := h.first
    broods := List.length_append.trans (congrArg (· + 1) h.broods)
    calls := h.calls.extend (List.append_nil _).symm
    evaluations := h.evaluations }

end Ledger

/-! ## Models -/

namespace IslandModel

open Ledger (Balances)
open Island (Untouched)

variable {m m' : IslandModel τ} {ledgers : List Ledger} {is js : List (Island τ)} {count : ℕ}
  {outcome : Except Error Unit}

theorem balances_start (h : ∀ i ∈ is, Untouched size i)
    (hjs : is.mapM (Island.evaluate f) = .ok js) :
    List.Forall₂ (Balances f size 0) (is.map (Ledger.opening f)) js := by
  induction is generalizing js with
  | nil =>
    cases hjs
    exact .nil
  | cons i is ih =>
    rw [List.mapM_cons] at hjs
    obtain ⟨j, hj, hjs⟩ := Except.bind_eq_ok.mp hjs
    obtain ⟨js, hrest, hjs⟩ := Except.bind_eq_ok.mp hjs
    cases hjs
    obtain ⟨hi, his⟩ := List.forall_mem_cons.mp h
    exact .cons (Ledger.balances_opening hi hj) (ih his hrest)

section

variable [RandomSource τ]

theorem balances_generation (h : List.Forall₂ (Balances f size n) ledgers is)
    (hjs : is.mapM (fun i => (·.1) <$> (i.evolve f b).result) = .ok js) :
    List.Forall₂ (Balances f size (n + 1)) (List.zipWith (Ledger.next f b) ledgers is) js := by
  induction h generalizing js with
  | nil =>
    cases hjs
    exact .nil
  | cons hi _ ih =>
    rw [List.mapM_cons] at hjs
    obtain ⟨j, hj, hjs⟩ := Except.bind_eq_ok.mp hjs
    obtain ⟨js, hrest, hjs⟩ := Except.bind_eq_ok.mp hjs
    cases hjs
    obtain ⟨⟨j, offspring⟩, hevolve, rfl⟩ := Except.map_eq_ok.mp hj
    exact .cons (hi.next hevolve) (ih hrest)

theorem balances_of_empty (h : List.Forall₂ (Balances f 0 n) ledgers is) :
    List.Forall₂ (Balances f 0 (n + 1)) (List.zipWith (Ledger.next f b) ledgers is) is := by
  induction h with
  | nil => exact .nil
  | cons hi _ ih => exact .cons hi.next_of_empty ih

end

theorem sizes_of_balances (h : List.Forall₂ (Balances f size n) ledgers is) :
    ∀ i ∈ is, i.population.size = size := by
  induction h with
  | nil => nofun
  | cons hi _ ih => exact List.forall_mem_cons.mpr ⟨hi.size, ih⟩

variable [SeededSource τ] {g : Generator}

/-- A model that was made, started and taken so many steps further with one fitness, and the
ledgers of its islands.  The breeder may be another one in every step. -/
inductive Audited (f : Fitness) (g : Generator) (count size : ℕ) :
    ℕ → List Ledger → IslandModel τ → Prop
  | start {σ : Type} [RandomSource σ] {s s' : σ} {m m' : IslandModel τ}
      {outcome : Except Error Unit} :
      (create count size g).run s = .ok (m, s') → m.start f = .ok (m', outcome) →
        Audited f g count size 0 (m.islands.map (Ledger.opening f)) m'
  | step {b : Breeder} {n : ℕ} {ledgers : List Ledger} {m m' : IslandModel τ}
      {outcome : Except Error Unit} :
      Audited f g count size n ledgers m → m.step f b = .ok (m', outcome) →
        Audited f g count size (n + 1) (List.zipWith (Ledger.next f b) ledgers m.islands) m'

theorem ensures_create_untouched {σ : Type} [RandomSource σ] :
    Ensures (create count size g : Draw σ (IslandModel τ)) fun m =>
      m.islands.length = count ∧ ∀ i ∈ m.islands, Untouched size i := by
  have hisland (index : ℕ) (stream : τ) :
      Ensures (Island.create index size g stream) (Untouched size) := by
    refine (Population.ensures_random_pending.of_run stream).bind fun r hr => .of_pure ?_
    exact ⟨nofun, hr.1, hr.2.1, rfl, hr.2.2⟩
  exact (ensures_createIslands_of hisland 0 count).bind fun _ his => .of_pure his

theorem balances_step (h : List.Forall₂ (Balances f size n) ledgers m.islands)
    (hstep : m.step f b = .ok (m', outcome)) :
    List.Forall₂ (Balances f size (n + 1)) (List.zipWith (Ledger.next f b) ledgers m.islands)
      m'.islands := by
  unfold step at hstep
  split at hstep
  · next is his =>
    cases hstep
    exact balances_generation h his
  · next e he =>
    cases hstep
    -- An island fails, so there are no individuals at all.
    have hzero : size = 0 := by
      by_contra hpos
      refine Island.mapM_evolve_ne_error (fun i hi hnil => hpos ?_) e he
      rw [← sizes_of_balances h i hi]
      exact List.length_eq_zero_iff.mpr hnil
    subst hzero
    exact balances_of_empty h
  · cases hstep

theorem Audited.balances (h : Audited f g count size n ledgers m) :
    List.Forall₂ (Balances f size n) ledgers m.islands := by
  induction h with
  | start hcreate hstart =>
    obtain ⟨is, his, hm⟩ := Except.bind_eq_ok.mp hstart
    cases hm
    exact balances_start (ensures_create_untouched _ ⟨_, _, hcreate⟩).2 his
  | step _ hstep ih => exact balances_step ih hstep

/-- After any number of steps with one fitness, every individual has the fitness and the loss
of its own program, and it has stood in the population before or is born in this generation.
The fitness has been asked for the programs of the first population and for those of the
offspring whose way was applied, in this order and for nothing else, and each island has
counted its calls. -/
theorem evaluations_are_exact (h : Audited f g count size n ledgers m) :
    List.Forall₂ (fun l i =>
      (∀ x ∈ i.population.individuals, x.Scored f ∧ (x ∈ l.pool ∨ x.birth = n)) ∧
      l.broods.length = n ∧
      l.calls = l.first ++ l.broods.flatMap Offspring.newPrograms ∧
      i.evaluations = l.calls.length ∧
      i.evaluations = size + (l.broods.map fun os => os.countP (·.isNew)).sum)
      ledgers m.islands := by
  refine h.balances.imp fun l i hi => ?_
  refine ⟨fun x hx => ⟨hi.scored x hx, hi.births x hx⟩, hi.broods, hi.calls, hi.evaluations, ?_⟩
  rw [hi.evaluations, hi.calls, List.length_append, hi.first, List.length_flatMap]
  simp only [Offspring.length_newPrograms]

/-- Three individuals on each of two islands of shrubs, and one new child on either of them. -/
theorem evaluations_are_exact_shrubs : ∃ (m : IslandModel ChaCha.Stream) (ledgers : List Ledger),
    Audited (fun _ => .ok ⟨0.0, 0.0⟩) shrubs.generator 2 3 1 ledgers m ∧
    m.islands.map (·.evaluations) = [4, 4] ∧
    List.Forall₂ (fun l i =>
      i.evaluations = 3 + (l.broods.map fun os => os.countP (·.isNew)).sum) ledgers m.islands := by
  have hrun : shrubRun.toOption.map (fun m => m.islands.map (·.evaluations)) = some [4, 4] := by
    decide +kernel
  cases h : shrubRun with
  | error e =>
    rw [h] at hrun
    contradiction
  | ok m =>
    rw [h] at hrun
    obtain ⟨⟨m₀, s⟩, hcreate, h⟩ := Except.bind_eq_ok.mp h
    obtain ⟨⟨m₁, outcome₁⟩, hstart, h⟩ := Except.bind_eq_ok.mp h
    obtain ⟨⟨m₂, outcome₂⟩, hstep, h⟩ := Except.bind_eq_ok.mp h
    cases h
    have haudited := (Audited.start hcreate hstart).step hstep
    refine ⟨m₂, _, haudited, Option.some.inj hrun, ?_⟩
    exact (evaluations_are_exact haudited).imp fun l i hi => hi.2.2.2.2

end IslandModel

end SymbolicRegression
