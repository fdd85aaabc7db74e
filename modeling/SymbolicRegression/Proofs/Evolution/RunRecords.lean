import SymbolicRegression.Proofs.Evolution.Figures

/-!
What a run comes across is read back from its JSON text.

Every individual of a run can be written: its features are those of the table, its constants are
finite, and it was born within the limit on generations (`Meets.lasting`).  What is left to be
asked is that its fitness is finite, which JSON cannot carry otherwise, and that its program is not
too high for the reader.  Records of generations ask for finite numbers only.
-/

namespace SymbolicRegression

open Json Program Grammar

/-! ## Individuals of a run -/

theorem Variation.Retuned.storable {p q : Program} (h : Variation.Retuned p q)
    (hp : p.Storable) : q.Storable :=
  ⟨h.alike.builtFrom (fun _ => trivial) hp.built, h.finite hp.finite⟩

/-- An individual that can be written, with a loss that is finite where the fitness is. -/
structure Individual.Lasting (x : Individual) : Prop extends x.Storable where
  loss : (∀ y ∈ x.fitness, y.isFinite = true) → ∀ y ∈ x.loss, y.isFinite = true

theorem Individual.lasting_ofProgram {p : Program} {n : ℕ} (hp : p.Storable) (hn : n < 2 ^ 64) :
    (ofProgram p n).Lasting :=
  ⟨⟨hp, hn⟩, fun _ => nofun⟩

theorem Individual.Scored.lasting {f : LossFitness} {x : Individual} (h : x.Scored f.evaluate)
    (hp : x.program.Storable) (hbirth : x.birth < 2 ^ 64) : x.Lasting := by
  refine ⟨⟨hp, hbirth⟩, ?_⟩
  obtain ⟨ev, hev, hfitness, hloss⟩ := h
  rw [hfitness, hloss]
  rintro hfinite y ⟨⟩
  exact f.isFinite_loss hev (hfinite ev.fitness rfl)

namespace IslandModel

/-- Individuals are made of programs, and that is all there is of them. -/
theorem ensures_create_drawn {σ τ : Type} [RandomSource σ] [SeededSource τ] {g : Generator}
    {count size : ℕ} : Ensures (create count size g : Draw σ (IslandModel τ)) fun m =>
      ∀ x ∈ m.individuals, x = .ofProgram x.program 0 := by
  have hpopulation : Ensures (Population.random size g : Draw τ Population) fun p =>
      ∀ x ∈ p.individuals, x = .ofProgram x.program 0 := by
    refine Ensures.bind' fun ps => .of_pure fun x hx => ?_
    obtain ⟨p, -, rfl⟩ := List.mem_map.mp hx
    rfl
  have hisland (index : ℕ) (stream : τ) : Ensures (Island.create index size g stream) fun i =>
      ∀ x ∈ i.population.individuals, x = .ofProgram x.program 0 :=
    (hpopulation.of_run stream).bind fun r hr => .of_pure hr
  refine (ensures_createIslands_of hisland 0 count).bind fun is his => .of_pure fun x hx => ?_
  obtain ⟨i, hi, hx⟩ := List.mem_flatMap.mp hx
  exact his.2 i hi x hx

end IslandModel

namespace Estimator

variable {e : Estimator} {entropy : ℕ} {train : Dataset} {val : Option Dataset}
  {m : IslandModel ChaCha.Stream} {bests : List Float}

/-- The individuals that a fit comes across. -/
inductive Meets (e : Estimator) (entropy : ℕ) (train : Dataset) (val : Option Dataset) :
    Individual → Prop
  /-- In a first population, before it is evaluated. -/
  | drawn {m₀ : IslandModel ChaCha.Stream} {s : ChaCha.Stream} {x : Individual} :
      (IslandModel.create e.settings.islands e.settings.islandSize
        (e.breeder train).generator).run (stream e.settings entropy) = .ok (m₀, s) →
      x ∈ m₀.individuals → Meets e entropy train val x
  /-- In an evaluated population. -/
  | member {m : IslandModel ChaCha.Stream} {bests : List Float} {x : Individual} :
      e.Visits entropy train m bests → x ∈ m.individuals → Meets e entropy train val x
  /-- Among the offspring of an island, before they are evaluated. -/
  | bred {m : IslandModel ChaCha.Stream} {bests : List Float} {i : Island ChaCha.Stream}
      {offspring : List Offspring} {s : ChaCha.Stream} {o : Offspring} :
      e.Visits entropy train m bests →
      StoppingRule.first? e.stoppingRules m.generation bests = none → i ∈ m.islands →
      (((e.breeder train).nextGeneration i.population.individuals
        (i.population.generation + 1)).run i.stream).result = .ok (offspring, s) →
      o ∈ offspring → Meets e entropy train val o.individual
  /-- The best of an island so far. -/
  | islandBest {m : IslandModel ChaCha.Stream} {bests : List Float} {i : Island ChaCha.Stream}
      {x : Individual} :
      e.Visits entropy train m bests → i ∈ m.islands → x ∈ i.best → Meets e entropy train val x
  /-- The best of all islands so far. -/
  | best {m : IslandModel ChaCha.Stream} {bests : List Float} {x : Individual} :
      e.Visits entropy train m bests → x ∈ m.best → Meets e entropy train val x
  /-- Drawn around another one, as polishing does. -/
  | tried {x y : Individual} {s s' : ChaCha.Stream} :
      Meets e entropy train val x → (Polishing.candidate x).run s = .ok (y, s') →
      Meets e entropy train val y
  /-- An evaluated candidate of a round of polishing. -/
  | candidate {m : IslandModel ChaCha.Stream} {bests : List Float} {s s' : ChaCha.Stream}
      {x out : Individual} {seen : List (List Individual)} {l : List Individual} {c : Individual} :
      e.Visits entropy train m bests → x ∈ m.best →
      ((Polishing.watch (e.fitness train) e.settings.islandSize e.settings.polishGenerations
        x).run s).result = .ok ((out, seen), s') → l ∈ seen → c ∈ l → Meets e entropy train val c
  /-- The best individual that a fit returns. -/
  | returned {out : Evolved} :
      (e.evolve entropy train val).result = .ok out → Meets e entropy train val out.best

section

variable (hmade : e.Made) (hword : e.settings.maxHeight < 2 ^ 64)
  (hgenerations : e.settings.generations < 2 ^ 64) (htrain : train.WellFormed)
  (hfeatures : train.featureCount ≤ 2 ^ 64)

include hmade hfeatures

theorem storable_of_kind {p : Program} (h : e.Kind train p) : p.Storable := by
  have hvalid := hmade.valid
  constructor
  · exact h.readable.mono ⟨fun i hi => Nat.lt_of_lt_of_le hi hfeatures, fun _ _ => trivial,
      fun _ _ => trivial⟩
  · intro c hc
    obtain ⟨hlow, hhigh⟩ := h.built.constants c hc
    exact Binary64.isFinite_of_between hvalid.constMin hvalid.constMax hlow hhigh

include hword hgenerations

omit hfeatures hword in
theorem Visits.birth_lt (h : e.Visits entropy train m bests) {x : Individual}
    (hx : x.birth ≤ m.generation) : x.birth < 2 ^ 64 := by
  have hlimit := (h.modelAfter hmade).2
  omega

omit hword in
theorem Visits.lasting (h : e.Visits entropy train m bests) {x : Individual}
    (hx : x.ScoredBy (e.fitness train) m.generation) (hkind : e.Kind train x.program) : x.Lasting :=
  Individual.Scored.lasting (f := ⟨train, e.loss, e.settings.parsimony⟩) hx.scored
    (storable_of_kind hmade hfeatures hkind) (h.birth_lt hmade hgenerations hx.birth)

theorem Visits.lasting_best (h : e.Visits entropy train m bests) : ∀ x ∈ m.best, x.Lasting :=
  fun x hx => h.lasting hmade hgenerations hfeatures (h.scoredBy.best x hx)
    ((h.holds hmade hword).best x hx)

include htrain

/-- Every individual that a fit comes across can be written. -/
theorem Meets.lasting {x : Individual} (h : e.Meets entropy train val x) : x.Lasting := by
  have hvalid := hmade.valid
  induction h with
  | @drawn m₀ s x hcreate hx =>
    have hcreated := IslandModel.ensures_create (g := (e.breeder train).generator)
      hvalid.constants hvalid.heights hword _ ⟨_, _, hcreate⟩
    obtain ⟨i, hi, hmem⟩ := List.mem_flatMap.mp hx
    have hkind : e.Kind train x.program := (hcreated.islands i hi).population.programs x hmem
    rw [IslandModel.ensures_create_drawn _ ⟨_, _, hcreate⟩ x hx]
    exact Individual.lasting_ofProgram (storable_of_kind hmade hfeatures hkind)
      (Nat.two_pow_pos 64)
  | @member m bests x hvisits hx =>
    obtain ⟨i, hi, hmem⟩ := List.mem_flatMap.mp hx
    exact hvisits.lasting hmade hgenerations hfeatures (hvisits.scoredBy.individuals x hx)
      (((hvisits.holds hmade hword).islands i hi).population.programs x hmem)
  | @bred m bests i offspring s o hvisits hgoes hi hbred ho =>
    have hgeneration := lt_generations_of_first? hgoes
    have hscored := hvisits.scoredBy.islands i hi
    have hholds := ((hvisits.holds hmade hword).islands i hi).population.programs
    obtain ⟨-, hkinds⟩ := Breeder.ensures_nextGeneration (g := (e.breeder train).generator)
      hvalid.constants rfl hholds _ _ ⟨_, _, hbred⟩
    obtain ⟨-, hstems⟩ := Breeder.ensures_nextGeneration_stems _ _ ⟨_, _, hbred⟩
    have hkind : e.Kind train o.individual.program := hkinds o ho
    cases hstems o ho with
    | new p hnew hp =>
      rw [hp] at hkind ⊢
      rw [hscored.generation]
      exact Individual.lasting_ofProgram (storable_of_kind hmade hfeatures hkind) (by omega)
    | copied hold hmem =>
      exact hvisits.lasting hmade hgenerations hfeatures (hscored.individuals _ hmem) hkind
  | @islandBest m bests i x hvisits hi hx =>
    exact hvisits.lasting hmade hgenerations hfeatures
      ((hvisits.scoredBy.islands i hi).best x hx)
      (((hvisits.holds hmade hword).islands i hi).best x hx)
  | best hvisits hx => exact hvisits.lasting_best hmade hword hgenerations hfeatures _ hx
  | @tried x y s s' _ hdraw ih =>
    obtain ⟨q, hq, rfl⟩ := Polishing.ensures_candidate x _ ⟨s, s', hdraw⟩
    exact Individual.lasting_ofProgram (hq.storable ih.program) (Nat.two_pow_pos 64)
  | @candidate m bests s s' x out seen l c hvisits hx hwatch hl hc =>
    have hbest := hvisits.lasting_best hmade hword hgenerations hfeatures x hx
    obtain ⟨hrefines, -⟩ := Polishing.ensures_watch _ _ x _ _ ⟨s, s', hwatch⟩
    obtain ⟨hscored, hbirth, hretuned, -⟩ := hrefines.candidates l hl c hc
    refine Individual.Scored.lasting (f := ⟨train, e.loss, e.settings.parsimony⟩) hscored
      (hretuned.storable hbest.program) ?_
    rw [hbirth]
    exact Nat.two_pow_pos 64
  | @returned out hout =>
    obtain ⟨m, bests, hvisits, best, hmem, seen, hrefines⟩ := ensures_evolve_refines htrain _ hout
    have hbest := hvisits.lasting_best hmade hword hgenerations hfeatures best hmem
    refine Individual.Scored.lasting (f := ⟨train, e.loss, e.settings.parsimony⟩)
      (hrefines.scored (hvisits.scoredBy.best best hmem).scored)
      (hrefines.retuned.storable hbest.program) ?_
    exact hrefines.birth.trans_lt hbest.birth

end

/-! ## Reading a run back -/

/-- From its text every individual of a run is read back as it was, evaluated or not, unless its
fitness is infinite, and every record of a generation, unless one of its numbers is: the best, mean
or median fitness, or the score on validation data.  Programs may be up to 62 levels of operators
high.  An individual with a higher one is written, but its text is refused. -/
theorem run_reads_back (hmade : e.Made) (hword : e.settings.maxHeight < 2 ^ 64)
    (hgenerations : e.settings.generations < 2 ^ 64) (htrain : train.WellFormed)
    (hfeatures : train.featureCount ≤ 2 ^ 64) :
    (∀ x, e.Meets entropy train val x → (∀ y ∈ x.fitness, y.isFinite = true) →
      ∃ j, x.toJson = .ok j ∧ decodeText Individual.ofJson (compact j) =
        if x.program.height ≤ 62 then .ok x else .error .malformed) ∧
    ∀ out, (e.evolve entropy train val).result = .ok out →
      (∀ m bests, e.Visits entropy train m bests → m.InWords) →
      ∀ g ∈ out.record.generations, g.bestFitness.isFinite = true →
        g.meanFitness.isFinite = true → g.medianFitness.isFinite = true →
        (∀ x ∈ g.validation, x.isFinite = true) → ∀ elapsed : Float, elapsed.isFinite = true →
          decodeText GenerationRecord.ofJson (compact (g.withElapsed elapsed).toJson) =
            .ok (g.withElapsed elapsed) := by
  constructor
  · intro x hx hfitness
    have hlasting := hx.lasting hmade hword hgenerations htrain hfeatures
    refine ⟨x.form, hlasting.toStorable.toJson, ?_⟩
    rw [Individual.decodeText_compact hlasting.toStorable,
      Individual.kept_eq_self hfitness (hlasting.loss hfitness)]
    rfl
  · intro out hout hwords g hg hbest hmean hmedian hscore elapsed helapsed
    obtain ⟨m, bests, score, hvisits, rfl⟩ := ensures_evolve_figures htrain _ hout g hg
    have hm := hwords m bests hvisits
    have hinwords := hvisits.inWords_figures hmade hgenerations hm score
    have hfinite := hvisits.isFinite_figures hm hbest hmean hmedian hscore helapsed
    rw [GenerationRecord.decodeText_compact (hinwords.withElapsed elapsed),
      GenerationRecord.ofJson_toJson hfinite]

/-! ## Runs that are written and read -/

/-- What holds of the models after so many generations holds of those that a fit comes to. -/
theorem Visits.of_modelAfter (hmade : e.Made) (h : e.Visits entropy train m bests)
    {P : IslandModel ChaCha.Stream → Bool} (hall : ∀ g ≤ e.settings.generations,
      (e.modelAfter entropy train g).toOption.all P = true) : P m = true := by
  obtain ⟨hm, hle⟩ := h.modelAfter hmade
  have hP := hall m.generation hle
  rwa [hm] at hP

/-- The only program of a run is the feature under so many signs. -/
def towers (height : ℕ) : Estimator where
  settings := {
    lossMetric := "mae"
    functions := "neg"
    pConst := 0.0
    minHeight := height
    maxHeight := height
    islandSize := 1
    generations := 1
    seed := 3 }
  loss := .mae
  eval := .mae
  functions := ⟨[.neg], List.cons_ne_nil _ _⟩
  last := none

theorem made_towers (height : ℕ) : (towers height).Made := by
  have hmae : Metric.parse "mae" = .ok .mae := by cbv
  have hneg : FunctionSet.parse "neg" = .ok ⟨[.neg], List.cons_ne_nil _ _⟩ := by cbv
  have hvalid : (towers height).settings.Valid := {
    loss := ⟨.mae, hmae⟩
    eval := ⟨.mae, hmae⟩
    functions := ⟨_, hneg⟩
    heights := le_refl height
    islands := Nat.one_pos
    islandSize := Nat.one_pos
    constMin := (by decide +kernel : (-5.0 : Float).isFinite = true)
    constMax := (by decide +kernel : (5.0 : Float).isFinite = true)
    constants := (by decide +kernel : (-5.0 : Float) ≤ 5.0)
    parsimony := (by decide +kernel : (1e-5 : Float).isFinite = true ∧ ¬(1e-5 : Float) < 0.0)
    probabilities := (by decide +kernel :
      ∀ p ∈ (towers 0).settings.probabilities, 0.0 ≤ p.2 ∧ p.2 ≤ 1.0) }
  exact ofSettings_eq_ok_iff.mpr ⟨hvalid, hmae, hmae, hneg, rfl, rfl⟩

/-- What is asked of a model whose figures are to be read back.  The mean and the median are asked
for in every order of the fitnesses, since a sorted list does not compute. -/
def isCarried (m : IslandModel ChaCha.Stream) : Bool :=
  decide (m.evaluations < 2 ^ 64) && decide (nodeCount m.individuals < 2 ^ 64) &&
    (figures m none).bestFitness.isFinite &&
    (m.individuals.filterMap fun x => x.fitness.filter (·.isFinite)).permutations'.all fun l =>
      (GenerationRecord.mean l).isFinite && (GenerationRecord.median l).isFinite

theorem of_isCarried (h : isCarried m = true) (score : Option Float) : m.InWords ∧
    (figures m score).bestFitness.isFinite = true ∧
    (figures m score).meanFitness.isFinite = true ∧
    (figures m score).medianFitness.isFinite = true := by
  unfold isCarried at h
  simp only [Bool.and_eq_true, decide_eq_true_iff, List.all_eq_true] at h
  obtain ⟨⟨⟨hevaluations, hnodes⟩, hbest⟩, hmiddle⟩ := h
  have hsorted := hmiddle (GenerationRecord.fitnesses m.individuals)
    (List.mem_permutations'.mpr (List.mergeSort_perm _ _))
  exact ⟨⟨hevaluations, hnodes⟩, hbest, hsorted⟩

/-- At the greatest height individuals are read back, and so are the records. -/
theorem run_reads_back_towers : (towers 62).Made ∧
    ∃ out, ((towers 62).evolve 0 identity none).result = .ok out ∧
      out.best.program.height = 62 ∧ out.best.isEvaluated = true ∧
      (∃ j, out.best.toJson = .ok j ∧
        decodeText Individual.ofJson (compact j) = .ok out.best) ∧
      out.record.generations.length = 2 ∧ ∀ g ∈ out.record.generations,
        decodeText GenerationRecord.ofJson (compact (g.withElapsed 1.5).toJson) =
          .ok (g.withElapsed 1.5) := by
  have hmade := made_towers 62
  have hcarried : ∀ m bests, (towers 62).Visits 0 identity m bests → isCarried m = true :=
    fun m bests hvisits => hvisits.of_modelAfter hmade (by decide +kernel)
  have hrun : (((towers 62).evolve 0 identity none).result.toOption.any fun out =>
      decide (out.best.program.height = 62) && out.best.isEvaluated &&
      out.best.fitness.all (·.isFinite) && decide (out.record.generations.length = 2) &&
      out.record.generations.all (·.validation.isNone)) = true := by
    decide +kernel
  obtain ⟨out, hout, hrun⟩ := Except.exists_of_any hrun
  simp only [Bool.and_eq_true, decide_eq_true_iff, List.all_eq_true, Option.isNone_iff_eq_none,
    Option.all_eq_true] at hrun
  obtain ⟨⟨⟨⟨hheight, hevaluated⟩, hfinite⟩, hlength⟩, hnone⟩ := hrun
  obtain ⟨hindividuals, hrecords⟩ := @run_reads_back (towers 62) 0 identity none hmade
    (by decide) (by decide) wellFormed_identity (by decide)
  refine ⟨hmade, out, hout, hheight, hevaluated, ?_, hlength, fun g hg => ?_⟩
  · have hread := hindividuals out.best (.returned hout) hfinite
    rwa [if_pos hheight.le] at hread
  · obtain ⟨m, bests, score, hvisits, rfl⟩ :=
      ensures_evolve_figures wellFormed_identity _ hout g hg
    obtain ⟨-, hbest, hmean, hmedian⟩ := of_isCarried (hcarried m bests hvisits) score
    refine hrecords out hout (fun m bests hm => (of_isCarried (hcarried m bests hm) none).1)
      _ hg hbest hmean hmedian ?_ 1.5 (by decide +kernel)
    rw [hnone _ hg]
    nofun

/-- Two points so far away that no program fits. -/
def remote : Dataset where
  columns := [[1e200, 2e200]]
  target := [1.0, 2.0]
  weights := none

theorem wellFormed_remote : remote.WellFormed :=
  have h : Dataset.ofColumns remote.columns remote.target none = .ok remote := rfl
  Dataset.wellFormed_of_ofColumns h

/-- An unfit individual is evaluated and is read back as one that is not, and the record of its
generation is refused. -/
theorem exists_unfit_not_read_back : (amongConstants 8e307).Made ∧
    ∃ out, ((amongConstants 8e307).evolve 0 remote none).result = .ok out ∧
      out.best.isEvaluated = true ∧
      (∃ j x, out.best.toJson = .ok j ∧ decodeText Individual.ofJson (compact j) = .ok x ∧
        x.isEvaluated = false) ∧
      ∃ g ∈ out.record.generations, g.validation = none ∧
        decodeText GenerationRecord.ofJson (compact g.toJson) = .error .malformed := by
  have hmade : (amongConstants 8e307).Made :=
    made_amongConstants 8e307 (by decide +kernel) (by decide +kernel) (by decide +kernel)
  have hrun : (((amongConstants 8e307).evolve 0 remote none).result.toOption.any fun out =>
      decide (out.best.program.height ≤ 62) && out.best.fitness.any (!·.isFinite) &&
      out.record.generations.any fun g => g.validation.isNone && !g.bestFitness.isFinite) =
        true := by
    decide +kernel
  obtain ⟨out, hout, hrun⟩ := Except.exists_of_any hrun
  simp only [Bool.and_eq_true, decide_eq_true_iff, List.any_eq_true, Option.any_eq_true,
    Option.isNone_iff_eq_none, Bool.not_eq_true'] at hrun
  obtain ⟨⟨hheight, y, hy, hinfinite⟩, g, hg, hnone, hbest⟩ := hrun
  have hstorable : out.best.Storable := (Meets.lasting hmade (Nat.two_pow_pos 64) (by decide)
    wellFormed_remote (by decide) (.returned hout)).toStorable
  have hread := Individual.decodeText_compact hstorable
  rw [if_pos hheight] at hread
  have hbefore : out.best.isEvaluated = true := by
    unfold Individual.isEvaluated
    rw [hy]
    rfl
  have hafter : out.best.kept.isEvaluated = false := by
    unfold Individual.isEvaluated Individual.kept
    dsimp only
    rw [hy, Option.filter_some_neg hinfinite]
    rfl
  refine ⟨hmade, out, hout, hbefore, ⟨_, _, hstorable.toJson, hread, hafter⟩, g, hg, hnone, ?_⟩
  obtain ⟨m, bests, score, hvisits, rfl⟩ := ensures_evolve_figures wellFormed_remote _ hout g hg
  have hcounts := hvisits.of_modelAfter hmade (P := fun m =>
    decide (m.evaluations < 2 ^ 64 ∧ nodeCount m.individuals < 2 ^ 64)) (by decide +kernel)
  obtain ⟨hevaluations, hnodes⟩ := of_decide_eq_true hcounts
  rw [GenerationRecord.decodeText_compact (hvisits.inWords_figures hmade (by decide)
    ⟨hevaluations, hnodes⟩ score), GenerationRecord.ofJson_of_bestFitness hbest]
  rfl

/-- One level of operators above the greatest height an individual is refused. -/
theorem exists_high_not_read_back : (towers 63).Made ∧
    ∃ out, ((towers 63).evolve 0 identity none).result = .ok out ∧
      (∃ y, out.best.fitness = some y ∧ y.isFinite = true) ∧
      ∃ j, out.best.toJson = .ok j ∧
        decodeText Individual.ofJson (compact j) = .error .malformed := by
  have hmade := made_towers 63
  have hrun : (((towers 63).evolve 0 identity none).result.toOption.any fun out =>
      decide (¬out.best.program.height ≤ 62) && out.best.fitness.any (·.isFinite)) = true := by
    decide +kernel
  obtain ⟨out, hout, hrun⟩ := Except.exists_of_any hrun
  simp only [Bool.and_eq_true, decide_eq_true_iff, Option.any_eq_true] at hrun
  obtain ⟨hheight, y, hy, hfinite⟩ := hrun
  have hstorable : out.best.Storable := (Meets.lasting hmade (by decide) (by decide)
    wellFormed_identity (by decide) (.returned hout)).toStorable
  have hread := Individual.decodeText_compact hstorable
  rw [if_neg hheight] at hread
  exact ⟨hmade, out, hout, ⟨y, hy, hfinite⟩, _, hstorable.toJson, hread⟩

/-- Not all that a run comes across is read back: infinite numbers are not, nor are programs that
are too high. -/
theorem unfit_or_high_is_not_read_back :
    ((amongConstants 8e307).Made ∧
      ∃ out, ((amongConstants 8e307).evolve 0 remote none).result = .ok out ∧
        out.best.isEvaluated = true ∧
        (∃ j x, out.best.toJson = .ok j ∧ decodeText Individual.ofJson (compact j) = .ok x ∧
          x.isEvaluated = false) ∧
        ∃ g ∈ out.record.generations, g.validation = none ∧
          decodeText GenerationRecord.ofJson (compact g.toJson) = .error .malformed) ∧
    (towers 63).Made ∧
      ∃ out, ((towers 63).evolve 0 identity none).result = .ok out ∧
        (∃ y, out.best.fitness = some y ∧ y.isFinite = true) ∧
        ∃ j, out.best.toJson = .ok j ∧
          decodeText Individual.ofJson (compact j) = .error .malformed :=
  ⟨exists_unfit_not_read_back, exists_high_not_read_back⟩

end Estimator

end SymbolicRegression
