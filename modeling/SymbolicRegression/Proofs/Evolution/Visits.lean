import SymbolicRegression.Proofs.Dataset
import SymbolicRegression.Proofs.Evolution.BestSoFar
import SymbolicRegression.Proofs.Evolution.Polishing
import SymbolicRegression.Proofs.Settings

/-!
The models a fit comes to.

Validation data are scored after every generation, but no draw and no stopping rule looks at
the scores.  So the models that a fit comes to are given without them: a fit with validation
data comes to the same models as one without, as far as it gets.
-/

namespace SymbolicRegression

namespace IslandModel

/-- The fitness of the best individual so far, infinite if there is none. -/
def bestFitness {τ : Type} (m : IslandModel τ) : Float :=
  (m.best.map (·.fitnessOrWorst)).getD Binary64.infinity

end IslandModel

theorem Generator.vocabulary_within (g : Generator) :
    g.vocabulary.Within (.upTo g.featureCount) :=
  ⟨fun _ hi => hi, fun _ _ => trivial, fun _ _ => trivial⟩

theorem Generator.Makes.readable {g : Generator} {lo hi : ℕ} {p : Program} (h : g.Makes lo hi p) :
    p.BuiltFrom (.upTo g.featureCount) :=
  h.built.mono g.vocabulary_within

namespace Estimator

variable {e : Estimator} {entropy : ℕ} {train : Dataset} {val : Option Dataset}
  {m : IslandModel ChaCha.Stream} {bests : List Float}

/-- A fit comes to the model after some generation, with these best fitnesses so far. -/
inductive Visits (e : Estimator) (entropy : ℕ) (train : Dataset) :
    IslandModel ChaCha.Stream → List Float → Prop
  | start {m₀ m : IslandModel ChaCha.Stream} {s : ChaCha.Stream} :
      (IslandModel.create e.settings.islands e.settings.islandSize
        (e.breeder train).generator).run (stream e.settings entropy) = .ok (m₀, s) →
      m₀.start (e.fitness train) = .ok (m, .ok ()) → Visits e entropy train m [m.bestFitness]
  | step {m m' : IslandModel ChaCha.Stream} {bests : List Float} :
      Visits e entropy train m bests →
      StoppingRule.first? e.stoppingRules m.generation bests = none →
      m.step (e.fitness train) (e.breeder train) = .ok (m', .ok ()) →
      Visits e entropy train m' (bests ++ [m'.bestFitness])

/-- The kind of programs that a fit looks at. -/
def Kind (e : Estimator) (train : Dataset) : Program → Prop :=
  (e.breeder train).generator.Makes e.settings.minHeight e.settings.maxHeight

theorem Visits.holds (hmade : e.Made) (hword : e.settings.maxHeight < 2 ^ 64)
    (h : e.Visits entropy train m bests) :
    m.Holds e.settings.islands e.settings.islandSize (e.Kind train) := by
  have hvalid := hmade.valid
  induction h with
  | start hcreate hstart =>
    have hcreated := IslandModel.ensures_create (g := (e.breeder train).generator)
      hvalid.constants hvalid.heights hword _ ⟨_, _, hcreate⟩
    exact hcreated.start _ hstart
  | step _ _ hstep ih =>
    have hgen : (e.breeder train).generator = (e.breeder train).generator := rfl
    exact IslandModel.Holds.step (g := (e.breeder train).generator) hvalid.constants hgen ih _ hstep

/-- A fit that can be made has islands, and individuals on them. -/
theorem Visits.tracks (hmade : e.Made) (h : e.Visits entropy train m bests) :
    ∃ past, m.Tracks e.settings.islands e.settings.islandSize past := by
  induction h with
  | start hcreate hstart =>
    exact ⟨_, ((IslandModel.ensures_create_fresh _ ⟨_, _, hcreate⟩).start hstart).1⟩
  | step _ _ hstep ih =>
    obtain ⟨past, hpast⟩ := ih
    exact ⟨_, (hpast.step hmade.valid.islandSize hstep).1⟩

theorem Visits.exists_best (hmade : e.Made) (h : e.Visits entropy train m bests) :
    ∃ best, m.best = some best := by
  obtain ⟨past, hpast⟩ := h.tracks hmade
  obtain ⟨best, hbest, -⟩ := hpast.exists_best hmade.valid.islands hmade.valid.islandSize
  exact ⟨best, hbest⟩

theorem Visits.readable_best (hmade : e.Made) (hword : e.settings.maxHeight < 2 ^ 64)
    (h : e.Visits entropy train m bests) :
    ∀ best ∈ m.best, best.program.BuiltFrom (.upTo train.featureCount) :=
  fun best hbest => ((h.holds hmade hword).best best hbest).readable

/-! ## The models of a fit -/

/-- The fit stands at a model it comes to. -/
def Stands (e : Estimator) (entropy : ℕ) (train : Dataset) (r : Evolving) : Prop :=
  e.Visits entropy train r.model r.bests

theorem ensures_note_model {generations : List GenerationRecord} :
    Ensures (e.note val generations bests m) fun r =>
      r.model = m ∧ r.bests = bests ++ [m.bestFitness] :=
  Ensures.bind' fun _ => .of_pure ⟨rfl, rfl⟩

theorem ensures_start_stands {m₀ : IslandModel ChaCha.Stream} {s : ChaCha.Stream}
    (hcreate : (IslandModel.create e.settings.islands e.settings.islandSize
      (e.breeder train).generator).run (stream e.settings entropy) = .ok (m₀, s)) :
    Ensures (e.start (e.fitness train) val m₀) (e.Stands entropy train) := by
  refine ensures_start_of fun m hstart => ensures_note_model.mono fun r ⟨hmodel, hbests⟩ => ?_
  unfold Stands
  rw [hmodel, hbests]
  exact .start hcreate hstart

theorem Stands.step {r : Evolving} (h : e.Stands entropy train r)
    (hgoes : StoppingRule.first? e.stoppingRules r.model.generation r.bests = none) :
    Ensures (e.step (e.fitness train) (e.breeder train) val r) (e.Stands entropy train) := by
  refine ensures_step_of fun m hstep => ensures_note_model.mono fun r' ⟨hmodel, hbests⟩ => ?_
  unfold Stands
  rw [hmodel, hbests]
  exact .step h hgoes hstep

theorem Stands.run (left : ℕ) {r : Evolving} (h : e.Stands entropy train r) :
    Ensures (e.run (e.fitness train) (e.breeder train) val left r) fun out =>
      e.Stands entropy train out.1 :=
  (ensures_run_of (P := fun _ => e.Stands entropy train) (fun _ _ hr hgoes => hr.step hgoes) left
    h).mono fun _ hout => hout.2.elim fun _ hleft => hleft.1

/-- In the end the best individual stays as it is or is polished. -/
theorem ensures_finish_refines {f : Fitness} (best : Individual) (s : ChaCha.Stream) :
    Ensures (e.finish f best s) fun out =>
      ∃ seen, Polishing.Refines f e.settings.islandSize best out seen := by
  unfold finish
  split
  · exact ((Polishing.ensures_polish _).of_run s).bind fun r hr => .of_pure hr
  · exact .of_pure ⟨[], .refl best⟩

/-- What a fit makes of its last model. -/
def conclude (e : Estimator) (train : Dataset) (s : ChaCha.Stream)
    (out : Evolving × Option StoppingRule) : Logged Evolved :=
  let reason := out.2.map StoppingRule.reason
  match out.1.model.converge.best with
  | none => (throw .emptyPopulation : Except Error Evolved)
  | some best => do
    let best ← e.finish (e.fitness train) best s
    Logged.write (e.finalLog out.1.model.generation reason best)
    return { best, record := { generations := out.1.generations, runtime := 0.0, reason } }

/-- A fit to a table with rows and features, in three parts. -/
theorem evolve_eq (hrows : 0 < train.rowCount) (hfeatures : 0 < train.featureCount) :
    e.evolve entropy train val = (do
      let (model, s) ← ((IslandModel.create e.settings.islands e.settings.islandSize
        (e.breeder train).generator).run (stream e.settings entropy) :
          Except Misuse (IslandModel ChaCha.Stream × ChaCha.Stream))
      let r ← e.start (e.fitness train) (val.filter fun v => 0 < v.rowCount) model
      let out ← e.run (e.fitness train) (e.breeder train) (val.filter fun v => 0 < v.rowCount)
        e.settings.generations r
      e.conclude train s out) := by
  have hsome : ¬(decide (train.rowCount = 0) || decide (train.featureCount = 0)) = true := by
    simp only [Bool.or_eq_true, decide_eq_true_iff, not_or]
    exact ⟨hrows.ne', hfeatures.ne'⟩
  unfold evolve
  rw [if_neg hsome]
  rfl

theorem ensures_conclude_refines (s : ChaCha.Stream) (out : Evolving × Option StoppingRule) :
    Ensures (e.conclude train s out) fun evolved => ∃ best ∈ out.1.model.best, ∃ seen,
      Polishing.Refines (e.fitness train) e.settings.islandSize best evolved.best seen := by
  have hconverge : out.1.model.converge.best = out.1.model.best := rfl
  unfold conclude
  dsimp only
  rw [hconverge]
  cases hbest : out.1.model.best with
  | none => nofun
  | some best =>
    exact (ensures_finish_refines best s).bind fun _ hout =>
      Ensures.bind' fun _ => .of_pure ⟨best, rfl, hout⟩

/-- A fit returns the best individual of the last model it comes to, or a refined one. -/
theorem ensures_evolve_refines (htrain : train.WellFormed) :
    Ensures (e.evolve entropy train val) fun evolved =>
      ∃ m bests, e.Visits entropy train m bests ∧ ∃ best ∈ m.best, ∃ seen,
        Polishing.Refines (e.fitness train) e.settings.islandSize best evolved.best seen := by
  rw [evolve_eq htrain.rowCount_pos htrain.featureCount_pos]
  refine (Ensures.of_misuse (fun _ hr => hr)).bind fun created hcreate => ?_
  refine (ensures_start_stands hcreate).bind fun r hr => (hr.run _).bind fun out hout => ?_
  exact (ensures_conclude_refines created.2 out).mono fun _ hbest => ⟨_, _, hout, hbest⟩

/-- A fit returns a program that reads no more features than it was fitted to. -/
theorem ensures_evolve_readable (hmade : e.Made) (hword : e.settings.maxHeight < 2 ^ 64)
    (htrain : train.WellFormed) :
    Ensures (e.evolve entropy train val) (·.best.program.BuiltFrom (.upTo train.featureCount)) := by
  refine (ensures_evolve_refines htrain).mono fun out hout => ?_
  obtain ⟨m, bests, hvisits, best, hbest, seen, hrefines⟩ := hout
  have hreadable := hvisits.readable_best hmade hword best hbest
  exact hrefines.retuned.alike.builtFrom (fun _ => trivial) hreadable

end Estimator

end SymbolicRegression
