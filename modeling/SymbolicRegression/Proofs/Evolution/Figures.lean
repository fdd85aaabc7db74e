import SymbolicRegression.Proofs.Evolution.Births
import SymbolicRegression.Proofs.Evolution.Stored
import SymbolicRegression.Proofs.Numeric.Error
import SymbolicRegression.Proofs.Numeric.Exact
import SymbolicRegression.Proofs.Numeric.Whole

/-!
The figures of a generation.

Every record of a run says what the run has come to after a generation, and nothing else
(`ensures_evolve_figures`).  As long as nodes and evaluations can be counted in words, its counts
are words.  Its mean size is finite then, and its best loss is as soon as its best fitness is.
Nothing of the kind holds for the mean and the median fitness: the sum of finite fitnesses may be
infinite.
-/

namespace SymbolicRegression

/-! ## Counts and sizes -/

/-- With a finite fitness the loss is finite. -/
theorem LossFitness.isFinite_loss {f : LossFitness} {p : Program} {ev : Evaluation}
    (h : f.evaluate p = .ok ev) (hfitness : ev.fitness.isFinite = true) :
    ev.loss.isFinite = true := by
  obtain ⟨pred, -, h⟩ := Except.bind_eq_ok.mp h
  split at h
  · cases h
    contradiction
  · obtain ⟨loss, -, h⟩ := Except.bind_eq_ok.mp h
    split at h
    · cases h
      contradiction
    · next hloss =>
      cases h
      simpa using hloss

/-- The number of nodes of all individuals. -/
def nodeCount (is : List Individual) : ℕ := (is.map (·.program.size)).sum

theorem length_le_nodeCount (is : List Individual) : is.length ≤ nodeCount is := by
  have hpos : ∀ n ∈ is.map (·.program.size), 1 ≤ n := by
    intro n hn
    obtain ⟨i, -, rfl⟩ := List.mem_map.mp hn
    exact i.program.size_pos
  have hle := List.length_le_sum_of_one_le _ hpos
  rwa [List.length_map] at hle

/-- What a model counts are words. -/
structure IslandModel.InWords {τ : Type} (m : IslandModel τ) : Prop where
  evaluations : m.evaluations < 2 ^ 64
  nodes : nodeCount m.individuals < 2 ^ 64

namespace Binary64

/-- The quotient of counts is finite. -/
theorem isFinite_div_ofNat {a b : ℕ} (ha : 0 < a) (hb : 0 < b) (ha' : a ≤ 2 ^ 64)
    (hb' : b ≤ 2 ^ 64) : (Float.ofNat a / Float.ofNat b).isFinite = true := by
  have hone {n : ℕ} (hn : 0 < n) (hn' : n ≤ 2 ^ 64) : 1 ≤ value (view (Float.ofNat n)) := by
    have hle := (le_iff_value rfl (isFinite_ofNat hn')).mp (one_le_ofNat hn)
    rwa [value_one] at hle
  exact isFinite_div (isFinite_ofNat ha') (isFinite_ofNat hb')
    (zero_le_one.trans (hone ha ha')) (hone hb hb')

end Binary64

namespace GenerationRecord

variable {is : List Individual} {generation evaluations : ℕ}

theorem mem_of_leader? {x : Individual} (h : leader? is = some x) : x ∈ is := by
  have hleads := Individual.leads_leader? is
  rw [h] at hleads
  exact Individual.FirstBest.mem hleads

theorem meanSize_eq (is : List Individual) (generation evaluations : ℕ) :
    (ofIndividuals is generation evaluations).meanSize =
      if is.length = 0 then 0.0 else Float.ofNat (nodeCount is) / Float.ofNat is.length := by
  have hsum := Exact.foldl_add_eq (fun i : Individual => i.program.size) is 0
  rw [Nat.zero_add] at hsum
  unfold ofIndividuals nodeCount
  rw [← hsum]

theorem isFinite_meanSize (h : nodeCount is < 2 ^ 64) :
    (ofIndividuals is generation evaluations).meanSize.isFinite = true := by
  rw [meanSize_eq]
  split
  · rfl
  · next hne =>
    have hpos := Nat.pos_of_ne_zero hne
    have hle := length_le_nodeCount is
    exact Binary64.isFinite_div_ofNat (by omega) hpos (by omega) (by omega)

/-- The best fitness and the best loss are those of one individual. -/
theorem isFinite_bestLoss {f : LossFitness} (hscored : ∀ x ∈ is, x.Scored f.evaluate)
    (h : (ofIndividuals is generation evaluations).bestFitness.isFinite = true) :
    (ofIndividuals is generation evaluations).bestLoss.isFinite = true := by
  change (((leader? is).map (·.fitnessOrWorst)).getD Binary64.infinity).isFinite = true at h
  show (((leader? is).bind (·.loss)).getD Binary64.infinity).isFinite = true
  cases hleader : leader? is with
  | none =>
    rw [hleader] at h
    contradiction
  | some x =>
    rw [hleader] at h
    obtain ⟨ev, hev, hfitness, hloss⟩ := hscored x (mem_of_leader? hleader)
    rw [Option.map_some, Option.getD_some, Individual.fitnessOrWorst, hfitness] at h
    rw [Option.bind_some, hloss]
    exact f.isFinite_loss hev h

end GenerationRecord

/-! ## Records of a run -/

namespace Estimator

variable {e : Estimator} {entropy : ℕ} {train : Dataset} {val : Option Dataset}
  {m : IslandModel ChaCha.Stream} {bests : List Float}

/-- What is recorded of a model, with a score on validation data if there is one. -/
def figures (m : IslandModel ChaCha.Stream) (score : Option Float) : GenerationRecord :=
  { GenerationRecord.ofIndividuals m.individuals m.generation m.evaluations with
    validation := score }

/-- A run stands at a model it comes to, and all its records are of such models. -/
def Notes (e : Estimator) (entropy : ℕ) (train : Dataset) (r : Evolving) : Prop :=
  e.Stands entropy train r ∧ ∀ g ∈ r.generations,
    ∃ m bests score, e.Visits entropy train m bests ∧ g = figures m score

theorem ensures_note_notes {generations : List GenerationRecord} {before : List Float}
    (h : e.Visits entropy train m (before ++ [m.bestFitness]))
    (hbefore : ∀ g ∈ generations, ∃ m bests score, e.Visits entropy train m bests ∧
      g = figures m score) :
    Ensures (e.note val generations before m) (e.Notes entropy train) := by
  intro r hr
  change (e.note val generations before m).result = .ok r at hr
  rw [result_note] at hr
  obtain ⟨score, -, rfl⟩ := Except.map_eq_ok.mp hr
  refine ⟨h, fun g hg => ?_⟩
  rcases List.mem_append.mp hg with hg | hg
  · exact hbefore g hg
  · exact ⟨m, _, score, h, List.mem_singleton.mp hg⟩

theorem ensures_start_notes {m₀ : IslandModel ChaCha.Stream} {s : ChaCha.Stream}
    (hcreate : (IslandModel.create e.settings.islands e.settings.islandSize
      (e.breeder train).generator).run (stream e.settings entropy) = .ok (m₀, s)) :
    Ensures (e.start (e.fitness train) val m₀) (e.Notes entropy train) :=
  ensures_start_of fun _ hstart => ensures_note_notes (.start hcreate hstart) nofun

theorem Notes.step {r : Evolving} (h : e.Notes entropy train r)
    (hgoes : StoppingRule.first? e.stoppingRules r.model.generation r.bests = none) :
    Ensures (e.step (e.fitness train) (e.breeder train) val r) (e.Notes entropy train) :=
  ensures_step_of fun _ hstep => ensures_note_notes (.step h.1 hgoes hstep) h.2

/-- What a fit has recorded in the end are the figures of models it has come to. -/
theorem ensures_evolve_figures (htrain : train.WellFormed) :
    Ensures (e.evolve entropy train val) fun out => ∀ g ∈ out.record.generations,
      ∃ m bests score, e.Visits entropy train m bests ∧ g = figures m score := by
  rw [evolve_eq htrain.rowCount_pos htrain.featureCount_pos]
  refine (Ensures.of_misuse (fun _ hr => hr)).bind fun created hcreate => ?_
  refine (ensures_start_notes hcreate).bind fun r hr => ?_
  refine (ensures_run_of (P := fun _ => e.Notes entropy train) (fun _ _ hr hgoes => hr.step hgoes)
    _ hr).bind fun out hout => ?_
  refine (ensures_conclude_record created.2 out).mono fun evolved ⟨hrecords, _⟩ => ?_
  obtain ⟨-, left, hnotes, -⟩ := hout
  rw [hrecords]
  exact hnotes.2

theorem Visits.inWords_figures (hmade : e.Made) (hgenerations : e.settings.generations < 2 ^ 64)
    (h : e.Visits entropy train m bests) (hwords : m.InWords) (score : Option Float) :
    (figures m score).InWords := by
  have hlimit := (h.modelAfter hmade).2
  have hcount := length_le_nodeCount m.individuals
  have hunfit : (figures m score).unfit ≤ m.individuals.length := Nat.sub_le _ _
  refine ⟨Nat.lt_of_le_of_lt hlimit hgenerations, hwords.evaluations, ?_⟩
  exact Nat.lt_of_le_of_lt (hunfit.trans hcount) hwords.nodes

/-- The mean size is always finite, and the best loss is where the best fitness is. -/
theorem Visits.isFinite_figures (h : e.Visits entropy train m bests) (hwords : m.InWords)
    {score : Option Float} {elapsed : Float}
    (hbest : (figures m score).bestFitness.isFinite = true)
    (hmean : (figures m score).meanFitness.isFinite = true)
    (hmedian : (figures m score).medianFitness.isFinite = true)
    (hscore : ∀ x ∈ score, x.isFinite = true) (helapsed : elapsed.isFinite = true) :
    ((figures m score).withElapsed elapsed).IsFinite where
  bestFitness := hbest
  bestLoss := @GenerationRecord.isFinite_bestLoss _ m.generation m.evaluations
    ⟨train, e.loss, e.settings.parsimony⟩ (fun x hx => (h.scoredBy.individuals x hx).scored) hbest
  meanFitness := hmean
  medianFitness := hmedian
  meanSize := @GenerationRecord.isFinite_meanSize _ m.generation m.evaluations hwords.nodes
  validation := hscore
  elapsed := helapsed

end Estimator

end SymbolicRegression
