import SymbolicRegression.Proofs.Evolution.Fitness
import SymbolicRegression.Proofs.Evolution.SafeSteps
import SymbolicRegression.Proofs.Metric.Scores
import SymbolicRegression.Proofs.Program.Rows

/-!
When evolving a program for a table fails.

Everything that is computed of the training data can be computed, because programs keep to its
features and all lists have the length of its target.  Only the score on validation data can be
refused, when the best program so far reads a feature that they lack.  Since the models of a fit
do not depend on validation data, this is a condition on the models alone.
-/

namespace SymbolicRegression

open Program

variable {v : Vocabulary} {Q : Failure → Prop}

/-! ## Missing features -/

/-- A program reads a feature that the table does not have. -/
def Dataset.Lacks (d : Dataset) (p : Program) : Prop := ∃ i ∈ p.features, d.featureCount ≤ i

namespace Program

variable {d : Dataset} {p : Program}

/-- A table has predictions for every row unless it lacks a feature, and then there is an error. -/
theorem predict_cases (hp : p.BuiltFrom v) (hd : d.Rectangular) :
    (¬d.Lacks p ∧ ∃ values, p.predict d = .ok values ∧ values.length = d.rowCount) ∨
      (d.Lacks p ∧ ∃ err, p.predict d = .error (.error err)) := by
  have h := predicts_predict hp hd
  cases hx : p.predict d with
  | ok values =>
    rw [hx] at h
    refine .inl ⟨?_, values, rfl, h.1⟩
    rintro ⟨i, hi, hge⟩
    have := h.2 i hi
    omega
  | error e =>
    rw [hx] at h
    obtain ⟨i, hi, hge, rfl⟩ := h
    exact .inr ⟨⟨i, hi, hge⟩, _, rfl⟩

theorem not_lacks_of_le {n : ℕ} (hp : p.BuiltFrom (.upTo n)) (h : n ≤ d.featureCount) :
    ¬d.Lacks p := by
  rintro ⟨i, hi, hge⟩
  have hlt : i < n := hp.of_mem_features hi
  omega

end Program

/-- Errors of the library have a cause, and only draws are misused. -/
def Failure.DueTo (cause : Prop) : Failure → Prop
  | error _ => cause
  | misuse u => u.OfDraw

theorem Failure.dueTo_of_draw {cause : Prop} : ∀ e : Failure, e.OfDraw → e.DueTo cause
  | .misuse _, h => h

theorem Failure.DueTo.mono {cause cause' : Prop} (h : cause → cause') :
    ∀ {e : Failure}, e.DueTo cause → e.DueTo cause'
  | .error _, hcause => h hcause
  | .misuse _, hdraw => hdraw

/-! ## What is computed of training data -/

theorem LossFitness.confinedOn {f : LossFitness} (hd : f.dataset.WellFormed) :
    Fitness.ConfinedOn f.evaluate (·.BuiltFrom (.upTo f.dataset.featureCount)) Q := by
  intro p hp
  obtain ⟨pred, hpred⟩ := exists_evaluate (d := f.dataset) hp fun i hi => hp.of_mem_features hi
  have hlength := length_evaluate hd.rectangular hpred
  obtain ⟨loss, hloss⟩ := f.metric.exists_loss hlength fun w hw => (hd.weights w hw).1
  rw [LossFitness.evaluate_eq hpred hloss]
  exact .of_pure

namespace Estimator

variable {e : Estimator} {entropy : ℕ} {train : Dataset} {val : Option Dataset}
  {m : IslandModel ChaCha.Stream} {bests : List Float}

theorem confinedOn_fitness (htrain : train.WellFormed) :
    (e.fitness train).ConfinedOn (·.BuiltFrom (.upTo train.featureCount)) Q :=
  LossFitness.confinedOn (f := ⟨train, e.loss, e.settings.parsimony⟩) htrain

theorem confinedOn_kind (htrain : train.WellFormed) :
    (e.fitness train).ConfinedOn (e.Kind train) Q :=
  fun p hp => confinedOn_fitness htrain p hp.readable

theorem confined_breeder_of (hmade : e.Made)
    (hconst : Confines ((e.breeder train).generator.drawConstant : Draw ChaCha.Stream Float) Q) :
    (e.breeder train).Confined ChaCha.Stream Q :=
  have hdraws := hmade.valid.draws hconst
  ⟨hdraws.program, hdraws.pointMutation, hdraws.subtreeMutation⟩

theorem confined_breeder (hmade : e.Made) (hdraw : ∀ f : Failure, f.OfDraw → Q f) :
    (e.breeder train).Confined ChaCha.Stream Q :=
  confined_breeder_of hmade <| Generator.confines_drawConstant.mono fun failure hfailure =>
    hdraw failure (by rw [hfailure]; trivial)

/-- No draw fails if the constants lie close enough together. -/
theorem confined_breeder_of_width (hmade : e.Made)
    (hwidth : (e.settings.constMax - e.settings.constMin).isFinite = true) :
    (e.breeder train).Confined ChaCha.Stream Q :=
  confined_breeder_of hmade (Generator.confines_drawConstant_of_drawable (.inr hwidth))

/-! ## Scores on validation data -/

/-- The best program of a model reads a feature that validation data lack. -/
def Refuses (val : Option Dataset) (m : IslandModel ChaCha.Stream) : Prop :=
  ∃ v ∈ val, ∃ best ∈ m.best, v.Lacks best.program

/-- After some generation of a fit, the best program so far reads a feature that validation data
lack. -/
def Overreaches (e : Estimator) (entropy : ℕ) (train : Dataset) (val : Option Dataset) : Prop :=
  ∃ m bests, e.Visits entropy train m bests ∧ Refuses val m

theorem validation_cases {d : Dataset} {best : Individual} (hbest : best.program.BuiltFrom v)
    (hd : d.WellFormed) :
    (¬d.Lacks best.program ∧ ∃ s, e.validation (some d) (some best) = .ok s) ∨
      (d.Lacks best.program ∧ ∃ err, e.validation (some d) (some best) = .error (.error err)) := by
  unfold validation
  rcases predict_cases hbest hd.rectangular with ⟨hhas, pred, hpred, hlength⟩ | ⟨hlacks, err, herr⟩
  · obtain ⟨s, hs⟩ := e.eval.exists_score hlength fun w hw => (hd.weights w hw).1
    refine .inl ⟨hhas, some s, ?_⟩
    dsimp only
    rw [hpred]
    show (liftM (e.eval.score d.target pred d.weights) >>= fun s => pure (some s) :
      Except Failure (Option Float)) = _
    rw [hs]
    rfl
  · refine .inr ⟨hlacks, err, ?_⟩
    dsimp only
    rw [herr]
    rfl

theorem result_note (generations : List GenerationRecord) :
    (e.note val generations bests m).result = (fun score => {
      model := m
      generations := generations ++
        [{ GenerationRecord.ofIndividuals m.individuals m.generation m.evaluations with
            validation := score }]
      bests := bests ++ [m.bestFitness] }) <$> e.validation val m.best := by
  unfold note recordGeneration
  simp only [Logged.result_bind]
  show (e.validation val m.best >>= _) >>= _ = _
  cases e.validation val m.best <;> rfl

section

variable (hmade : e.Made) (hword : e.settings.maxHeight < 2 ^ 64)
  (hval : ∀ v ∈ val, v.WellFormed)

include hmade hword hval

/-- A generation is noted unless its best program is refused. -/
theorem note_cases (generations : List GenerationRecord) (before : List Float)
    (h : e.Visits entropy train m bests) :
    (¬Refuses val m ∧ ∃ r, (e.note val generations before m).result = .ok r ∧
      r.model = m ∧ r.bests = before ++ [m.bestFitness]) ∨
      (Refuses val m ∧ ∃ err, (e.note val generations before m).result = .error (.error err)) := by
  obtain ⟨best, hbest⟩ := h.exists_best hmade
  rw [result_note, hbest]
  cases val with
  | none =>
    refine .inl ⟨?_, _, rfl, rfl, rfl⟩
    rintro ⟨v, hv, -⟩
    cases hv
  | some d =>
    have hreadable := h.readable_best hmade hword best hbest
    rcases validation_cases (e := e) hreadable (hval d rfl) with
      ⟨hhas, score, hscore⟩ | ⟨hlacks, err, herr⟩
    · rw [hscore]
      refine .inl ⟨?_, _, rfl, rfl, rfl⟩
      rintro ⟨_, ⟨⟩, other, hother, hlacks⟩
      cases hbest.symm.trans hother
      exact hhas hlacks
    · rw [herr]
      exact .inr ⟨⟨d, rfl, best, hbest, hlacks⟩, err, rfl⟩

section

variable (hcause : e.Overreaches entropy train val → ∀ err, Q (.error err))

include hcause

theorem confines_note {generations : List GenerationRecord} {before : List Float}
    (h : e.Visits entropy train m bests) : Confines (e.note val generations before m) Q := by
  intro failure hfailure
  change (e.note val generations before m).result = _ at hfailure
  rcases note_cases hmade hword hval generations before h with ⟨-, r, hr, -⟩ | ⟨hrefuses, err, herr⟩
  · rw [hr] at hfailure
    cases hfailure
  · rw [herr] at hfailure
    cases hfailure
    exact hcause ⟨m, bests, h, hrefuses⟩ err

variable (htrain : train.WellFormed)

include htrain

theorem confines_start {m₀ : IslandModel ChaCha.Stream} {s : ChaCha.Stream}
    (hcreate : (IslandModel.create e.settings.islands e.settings.islandSize
      (e.breeder train).generator).run (stream e.settings entropy) = .ok (m₀, s)) :
    Confines (e.start (e.fitness train) val m₀) Q := by
  have hvalid := hmade.valid
  have hholds := IslandModel.ensures_create (g := (e.breeder train).generator)
    hvalid.constants hvalid.heights hword _ ⟨_, _, hcreate⟩
  have hfresh := IslandModel.ensures_create_fresh _ ⟨_, _, hcreate⟩
  have hstart : Ensures (m₀.start (e.fitness train)) (m₀.start (e.fitness train) = .ok ·) :=
    fun _ hr => hr
  refine (Confines.of_misuse (hholds.confines_start (confinedOn_kind htrain))).bind
    (Ensures.of_misuse hstart) fun r hr => ?_
  obtain ⟨htracks, hcheck⟩ := hfresh.start hr
  rw [htracks.checkBest hvalid.islands hvalid.islandSize] at hcheck
  obtain ⟨m, outcome⟩ := r
  subst hcheck
  exact Confines.bind' (.of_error (.of_ok rfl)) fun _ =>
    confines_note hmade hword hval hcause (.start hcreate hr)

variable (hbreeder : (e.breeder train).Confined ChaCha.Stream Q)

include hbreeder

theorem Stands.confines_step {r : Evolving} (h : e.Stands entropy train r)
    (hgoes : StoppingRule.first? e.stoppingRules r.model.generation r.bests = none) :
    Confines (e.step (e.fitness train) (e.breeder train) val r) Q := by
  have hvalid := hmade.valid
  have hholds := Visits.holds hmade hword h
  obtain ⟨past, htracks⟩ := Visits.tracks hmade h
  have hrenew : ∀ i ∈ r.model.islands,
      Confines (i.renew (e.fitness train) (e.breeder train)) Q := by
    intro i hi
    obtain ⟨k, hk⟩ := List.getElem?_of_mem hi
    exact Island.Holds.confines_renew (g := (e.breeder train).generator) hvalid.constants rfl
      hbreeder (confinedOn_kind htrain)
      ((htracks.islands k i hk).ne_nil hvalid.islandSize) (hholds.islands i hi)
  have hstep : Ensures (r.model.step (e.fitness train) (e.breeder train))
      (r.model.step (e.fitness train) (e.breeder train) = .ok ·) := fun _ hr => hr
  refine (Confines.of_misuse (IslandModel.confines_step hvalid.islandSize htracks hrenew)).bind
    (Ensures.of_misuse hstep) fun next hnext => ?_
  obtain ⟨htracks', hcheck⟩ := htracks.step hvalid.islandSize hnext
  rw [htracks'.checkBest hvalid.islands hvalid.islandSize] at hcheck
  obtain ⟨m, outcome⟩ := next
  subst hcheck
  exact Confines.bind' (.of_error (.of_ok rfl)) fun _ =>
    confines_note hmade hword hval hcause (.step h hgoes hnext)

theorem Stands.confines_run (left : ℕ) {r : Evolving} (h : e.Stands entropy train r) :
    Confines (e.run (e.fitness train) (e.breeder train) val left r) Q := by
  induction left generalizing r with
  | zero =>
    unfold Estimator.run
    split
    · exact .of_pure
    · exact .of_pure
  | succ left ih =>
    unfold Estimator.run
    split
    · exact .of_pure
    · next hgoes =>
      exact (h.confines_step hmade hword hval hcause htrain hbreeder hgoes).bind (h.step hgoes)
        fun r' hr' => ih hr'

omit hmade hword hval hcause hbreeder in
theorem confines_finish {best : Individual} (s : ChaCha.Stream)
    (h : best.program.BuiltFrom (.upTo train.featureCount)) :
    Confines (e.finish (e.fitness train) best s) Q := by
  unfold finish
  split
  · have hfitness : (e.fitness train).ConfinedOn (·.Alike best.program) Q := fun p hp =>
      confinedOn_fitness htrain p (hp.builtFrom (fun _ => trivial) h)
    exact ((Polishing.confines_polish hfitness _).of_run s).bind' fun _ => .of_pure
  · exact .of_pure

omit hval hcause hbreeder in
theorem Stands.confines_conclude {out : Evolving × Option StoppingRule} (s : ChaCha.Stream)
    (h : e.Stands entropy train out.1) : Confines (e.conclude train s out) Q := by
  obtain ⟨best, hbest⟩ := Visits.exists_best hmade h
  have hconverge : out.1.model.converge.best = out.1.model.best := rfl
  unfold conclude
  dsimp only
  rw [hconverge, hbest]
  exact (confines_finish htrain s (Visits.readable_best hmade hword h best hbest)).bind' fun _ =>
    Logged.confines_write.bind' fun _ => .of_pure

/-- A fit fails where a draw of its breeder fails, or where validation data lack a feature. -/
theorem confines_evolve_of : Confines (e.evolve entropy train val) Q := by
  rw [evolve_eq htrain.rowCount_pos htrain.featureCount_pos, Dataset.filter_eq_of_wellFormed hval]
  have hcreate : Confines ((IslandModel.create e.settings.islands e.settings.islandSize
      (e.breeder train).generator).run (stream e.settings entropy) :
        Except Misuse (IslandModel ChaCha.Stream × ChaCha.Stream)) Q :=
    (IslandModel.confines_create hbreeder.program).of_run _
  refine (Confines.of_misuse hcreate).bind (Ensures.of_misuse (fun _ hr => hr))
    fun created hcreated => ?_
  refine (confines_start hmade hword hval hcause htrain hcreated).bind
    (ensures_start_stands hcreated) fun r hr => ?_
  exact (hr.confines_run hmade hword hval hcause htrain hbreeder _).bind (hr.run _)
    fun out hout => hout.confines_conclude hmade hword htrain created.2

end

variable (htrain : train.WellFormed)

include htrain

/-- An error of a fit means that validation data lack a feature, and a misuse is one of a draw. -/
theorem confines_evolve :
    Confines (e.evolve entropy train val) (Failure.DueTo (e.Overreaches entropy train val)) :=
  confines_evolve_of hmade hword hval (fun hcause _ => hcause) htrain
    (confined_breeder hmade Failure.dueTo_of_draw)

/-! ## The errors of a fit -/

omit hmade hword hval htrain in
theorem lt_generations_of_first? {generation : ℕ}
    (h : StoppingRule.first? e.stoppingRules generation bests = none) :
    generation < e.settings.generations := by
  have hlimit := List.find?_eq_none.mp h (.generations e.settings.generations) List.mem_cons_self
  simpa [StoppingRule.applies] using hlimit

omit hmade hword hval htrain in
theorem result_start {f : Fitness} {m₀ : IslandModel ChaCha.Stream}
    (h : m₀.start f = .ok (m, .ok ())) :
    (e.start f val m₀).result = (e.note val [] [] m).result := by
  unfold start
  rw [h]
  rfl

omit hmade hword hval htrain in
theorem result_step {f : Fitness} {b : Breeder} {r : Evolving}
    (h : r.model.step f b = .ok (m, .ok ())) :
    (e.step f b val r).result = (e.note val r.generations r.bests m).result := by
  unfold step
  rw [h]
  rfl

omit hmade hword hval htrain in
theorem run_succ {f : Fitness} {b : Breeder} {r : Evolving} {left : ℕ}
    (h : StoppingRule.first? e.stoppingRules r.model.generation r.bests = none) :
    e.run f b val (left + 1) r = e.step f b val r >>= e.run f b val left := by
  conv_lhs => unfold run
  rw [h]

omit htrain in
/-- What begins with noting a model ends with an error or goes on from that model. -/
theorem error_or_goes_on {α : Type} {result : Except Failure α}
    {rest : Evolving → Except Failure α} (generations : List GenerationRecord)
    (before : List Float) (h : e.Visits entropy train m bests)
    (hresult : result = (e.note val generations before m).result >>= rest) :
    (∃ err, result = .error (.error err)) ∨
      ¬Refuses val m ∧ ∃ r, r.model = m ∧ r.bests = before ++ [m.bestFitness] ∧
        result = rest r := by
  rcases note_cases hmade hword hval generations before h with
    ⟨hreads, r, hr, hmodel, hbests⟩ | ⟨-, err, herr⟩
  · refine .inr ⟨hreads, r, hmodel, hbests, ?_⟩
    rw [hresult, hr]
    rfl
  · refine .inl ⟨err, ?_⟩
    rw [hresult, herr]
    rfl

/-- A fit gets to every model that a fit without validation data gets to, unless there is an
error before. -/
theorem error_or_stands (h : e.Visits entropy train m bests) :
    (∃ err, (e.evolve entropy train val).result = .error (.error err)) ∨
      ¬Refuses val m ∧ ∃ s r left, r.model = m ∧ r.bests = bests ∧
        e.settings.generations ≤ m.generation + left ∧
        (e.evolve entropy train val).result =
          (e.run (e.fitness train) (e.breeder train) val left r >>= e.conclude train s).result := by
  induction h with
  | @start m₀ m s hcreate hstart =>
    have hevolve : (e.evolve entropy train val).result =
        (e.note val [] [] m).result >>= fun r => (e.run (e.fitness train) (e.breeder train) val
          e.settings.generations r >>= e.conclude train s).result := by
      rw [evolve_eq htrain.rowCount_pos htrain.featureCount_pos,
        Dataset.filter_eq_of_wellFormed hval, hcreate]
      show (e.start (e.fitness train) val m₀ >>= _ : Logged Evolved).result = _
      rw [Logged.result_bind, result_start hstart]
    rcases error_or_goes_on hmade hword hval [] [] (.start hcreate hstart) hevolve with
      herr | ⟨hreads, r, hmodel, hbests, hr⟩
    · exact .inl herr
    · exact .inr ⟨hreads, s, r, e.settings.generations, hmodel, hbests, by omega, hr⟩
  | @step m m' bests before hgoes hstep ih =>
    rcases ih with herr | ⟨-, s, r, left, rfl, rfl, hleft, hresult⟩
    · exact .inl herr
    · -- The limit on generations has not stopped the run, so there is a generation left.
      have hlimit := lt_generations_of_first? hgoes
      obtain ⟨left, rfl⟩ : ∃ k, left = k + 1 := ⟨left - 1, by omega⟩
      have hevolve : (e.evolve entropy train val).result =
          (e.note val r.generations r.bests m').result >>= fun r' =>
            (e.run (e.fitness train) (e.breeder train) val left r' >>=
              e.conclude train s).result := by
        rw [hresult, Logged.result_bind, run_succ hgoes, Logged.result_bind, result_step hstep,
          bind_assoc]
        simp only [Logged.result_bind]
      obtain ⟨past, htracks⟩ := before.tracks hmade
      have hgeneration := htracks.generation_step hmade.valid.islandSize hstep
      rcases error_or_goes_on hmade hword hval r.generations r.bests
        (.step before hgoes hstep) hevolve with herr | ⟨hreads, r', hmodel, hbests, hr⟩
      · exact .inl herr
      · exact .inr ⟨hreads, s, r', left, hmodel, hbests, by omega, hr⟩

omit hval htrain in
/-- Validation data with all features of the training data have those of every best program. -/
theorem not_overreaches_of_le {d : Dataset} (h : train.featureCount ≤ d.featureCount) :
    ¬e.Overreaches entropy train (some d) := by
  rintro ⟨m, bests, hvisits, _, ⟨⟩, best, hbest, hlacks⟩
  exact not_lacks_of_le (hvisits.readable_best hmade hword best hbest) h hlacks

/-- A fit fails with an error just if validation data lack a feature of the best program after
some generation. -/
theorem evolve_error_iff :
    (∃ err, (e.evolve entropy train val).result = .error (.error err)) ↔
      e.Overreaches entropy train val := by
  constructor
  · rintro ⟨err, herr⟩
    exact confines_evolve hmade hword hval htrain _ herr
  · rintro ⟨m, bests, h, hrefuses⟩
    rcases error_or_stands hmade hword hval htrain h with herr | ⟨hreads, -⟩
    · exact herr
    · exact absurd hrefuses hreads

end

/-! ## Earlier fits -/

variable {last : Option Evolved} {entropy' : ℕ}

theorem stream_eq {s : EvolutionSettings} (h : s.seed ≠ 0) :
    stream s entropy' = stream s entropy := by
  unfold stream
  rw [if_neg h, if_neg h]

theorem run_last {f : Fitness} {b : Breeder} (left : ℕ) {r : Evolving} :
    ({ e with last } : Estimator).run f b val left r = e.run f b val left r := by
  induction left generalizing r with
  | zero =>
    unfold run
    rfl
  | succ left ih =>
    cases hfirst : StoppingRule.first? e.stoppingRules r.model.generation r.bests with
    | some rule =>
      have hstops : StoppingRule.first? ({ e with last } : Estimator).stoppingRules
        r.model.generation r.bests = some rule := hfirst
      unfold run
      rw [hfirst, hstops]
    | none =>
      rw [run_succ hfirst, run_succ (e := { e with last }) hfirst]
      exact bind_congr fun r' => ih

/-- A fit does not look at the outcome of the last one, nor at entropy if there is a seed. -/
theorem evolve_last (hseed : e.settings.seed ≠ 0) :
    ({ e with last } : Estimator).evolve entropy' train val = e.evolve entropy train val := by
  unfold evolve
  dsimp only
  rw [stream_eq hseed]
  simp only [run_last]
  rfl

end Estimator

end SymbolicRegression
