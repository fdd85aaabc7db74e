import SymbolicRegression.Boosting.Booster
import SymbolicRegression.Proofs.Numeric.Order
import SymbolicRegression.Proofs.Outcomes

/-!
What validated settings promise.

Validation is a row of checks, the first of which to fail is reported.  Taken together the
checks say what `Valid` says.  An estimator or a booster is only made from valid settings; what
earlier fits have left in it does not matter for that.  The settings of the rounds of boosting
are not validated by the user, but are valid because those they are derived from are.
-/

namespace SymbolicRegression

/-- A check of a row is passed if its condition does not hold. -/
theorem misconfigured_unless {α : Type} {c : Prop} [Decidable c] {cause : Misconfiguration}
    {next : Unit → Except Error α} {a : α} :
    (if c then misconfigured cause >>= next else next ()) = .ok a ↔ ¬c ∧ next () = .ok a := by
  split
  · next hc => exact ⟨nofun, fun h => absurd hc h.1⟩
  · next hc => exact (and_iff_right hc).symm

theorem misconfigured_unless_last {c : Prop} [Decidable c] {cause : Misconfiguration} :
    (if c then misconfigured cause else pure ()) = (.ok () : Except Error Unit) ↔ ¬c := by
  split
  · next hc => exact ⟨nofun, fun h => absurd hc h⟩
  · next hc => exact iff_of_true rfl hc

/-! ## Settings of evolution -/

namespace EvolutionSettings

variable {s : EvolutionSettings}

structure Valid (s : EvolutionSettings) : Prop where
  loss : ∃ m, s.parseLoss = .ok m
  eval : ∃ m, s.parseEval = .ok m
  functions : ∃ fs, s.parseFunctions = .ok fs
  heights : s.minHeight ≤ s.maxHeight
  islands : 0 < s.islands
  islandSize : 0 < s.islandSize
  constMin : s.constMin.isFinite = true
  constMax : s.constMax.isFinite = true
  constants : s.constMin ≤ s.constMax
  parsimony : s.parsimony.isFinite = true ∧ ¬s.parsimony < 0.0
  probabilities : ∀ p ∈ s.probabilities, 0.0 ≤ p.2 ∧ p.2 ≤ 1.0

theorem isProbability_iff {p : Float} : isProbability p = true ↔ 0.0 ≤ p ∧ p ≤ 1.0 := by
  unfold isProbability
  rw [Bool.and_eq_true, decide_eq_true_iff, decide_eq_true_iff]

theorem constants_iff :
    ¬(!s.constMin.isFinite || !s.constMax.isFinite || decide (s.constMax < s.constMin)) = true ↔
      s.constMin.isFinite = true ∧ s.constMax.isFinite = true ∧ s.constMin ≤ s.constMax := by
  simp only [Bool.or_eq_true, Bool.not_eq_true', decide_eq_true_iff, not_or, Bool.not_eq_false,
    and_assoc]
  refine and_congr_right fun hmin => and_congr_right fun hmax => ?_
  rw [Binary64.lt_iff_value hmax hmin, Binary64.le_iff_value hmin hmax, not_lt]

theorem probabilities_iff :
    (match s.probabilities.find? fun (_, p) => !isProbability p with
      | some (name, p) => misconfigured (.probability name p)
      | none => pure ()) = (.ok () : Except Error Unit) ↔
        ∀ p ∈ s.probabilities, 0.0 ≤ p.2 ∧ p.2 ≤ 1.0 := by
  constructor
  · intro h
    split at h
    · cases h
    · next hnone =>
      intro p hp
      have hprobability := List.find?_eq_none.mp hnone p hp
      rw [Bool.not_eq_true, Bool.not_eq_false'] at hprobability
      exact isProbability_iff.mp hprobability
  · intro h
    have hnone : (s.probabilities.find? fun (_, p) => !isProbability p) = none := by
      refine List.find?_eq_none.mpr fun p hp => ?_
      rw [Bool.not_eq_true, Bool.not_eq_false']
      exact isProbability_iff.mpr (h p hp)
    rw [hnone]
    rfl

theorem validate_eq_ok_iff : s.validate = .ok () ↔ s.Valid := by
  unfold validate
  simp only [Except.bind_eq_ok, misconfigured_unless, constants_iff]
  constructor
  · rintro ⟨loss, hloss, eval, heval, fs, hfs, hheights, hislands, hsize, hconst, hparsimony, hp⟩
    simp only [Bool.or_eq_true, Bool.not_eq_true', decide_eq_true_iff, not_or,
      Bool.not_eq_false] at hparsimony
    exact ⟨⟨loss, hloss⟩, ⟨eval, heval⟩, ⟨fs, hfs⟩, Nat.le_of_not_lt hheights,
      Nat.pos_of_ne_zero hislands, Nat.pos_of_ne_zero hsize, hconst.1, hconst.2.1, hconst.2.2,
      hparsimony, probabilities_iff.mp hp⟩
  · intro h
    obtain ⟨loss, hloss⟩ := h.loss
    obtain ⟨eval, heval⟩ := h.eval
    obtain ⟨fs, hfs⟩ := h.functions
    refine ⟨loss, hloss, eval, heval, fs, hfs, Nat.not_lt.mpr h.heights, h.islands.ne',
      h.islandSize.ne', ⟨h.constMin, h.constMax, h.constants⟩, ?_,
      probabilities_iff.mpr h.probabilities⟩
    simpa using h.parsimony

/-- Any metrics that exist may take the place of those of valid settings, with any seed. -/
theorem Valid.with_metrics (h : s.Valid) {loss : String} {eval : Option String} {verbose : Bool}
    {seed : ℕ} (hloss : ∃ m, Metric.parse loss = .ok m)
    (heval : ∃ m, Metric.parse (eval.getD loss) = .ok m) :
    Valid { s with lossMetric := loss, evalMetric := eval, verbose, seed } :=
  ⟨hloss, heval, h.functions, h.heights, h.islands, h.islandSize, h.constMin, h.constMax,
    h.constants, h.parsimony, h.probabilities⟩

end EvolutionSettings

/-! ## Settings of boosting -/

namespace BoostingSettings

variable {s : BoostingSettings}

structure Valid (s : BoostingSettings) : Prop where
  rounds : 0 < s.rounds
  monitorEvery : 0 < s.monitorEvery
  learningRate : s.learningRate.isFinite = true ∧ ¬s.learningRate ≤ 0.0
  rowShare : 0.0 < s.rowShare ∧ s.rowShare ≤ 1.0
  featureShare : 0.0 < s.featureShare ∧ s.featureShare ≤ 1.0

theorem validate_eq_ok_iff : s.validate = .ok () ↔ s.Valid := by
  unfold validate
  simp only [misconfigured_unless, misconfigured_unless_last, isShare, Bool.not_eq_true',
    Bool.not_eq_false, Bool.or_eq_true, Bool.and_eq_true, decide_eq_true_iff, not_or]
  constructor
  · rintro ⟨hrounds, hmonitor, hrate, hrows, hfeatures⟩
    exact ⟨Nat.pos_of_ne_zero hrounds, Nat.pos_of_ne_zero hmonitor, hrate, hrows, hfeatures⟩
  · intro h
    exact ⟨h.rounds.ne', h.monitorEvery.ne', h.learningRate, h.rowShare, h.featureShare⟩

end BoostingSettings

/-! ## Estimators -/

namespace Estimator

variable {e : Estimator} {s : EvolutionSettings}

/-- The estimator was made from its settings; earlier fits may have left something in it. -/
def Made (e : Estimator) : Prop := ofSettings e.settings = .ok { e with last := none }

theorem ofSettings_eq_ok_iff : ofSettings s = .ok e ↔ s.Valid ∧ s.parseLoss = .ok e.loss ∧
    s.parseEval = .ok e.eval ∧ s.parseFunctions = .ok e.functions ∧ e.settings = s ∧
      e.last = none := by
  unfold ofSettings
  simp only [Except.bind_eq_ok]
  constructor
  · rintro ⟨⟨⟩, hvalidate, loss, hloss, eval, heval, fs, hfs, he⟩
    cases he
    exact ⟨EvolutionSettings.validate_eq_ok_iff.mp hvalidate, hloss, heval, hfs, rfl, rfl⟩
  · rintro ⟨hvalid, hloss, heval, hfs, rfl, hlast⟩
    have hvalidate := EvolutionSettings.validate_eq_ok_iff.mpr hvalid
    refine ⟨(), hvalidate, _, hloss, _, heval, _, hfs, ?_⟩
    rw [← hlast]
    rfl

theorem Made.valid (h : e.Made) : e.settings.Valid := (ofSettings_eq_ok_iff.mp h).1

/-- Estimators of one setting only differ in what earlier fits have left. -/
theorem Made.eq_with_last {e' : Estimator} (h : e.Made) (h' : e'.Made)
    (hsettings : e'.settings = e.settings) : e' = { e with last := e'.last } := by
  unfold Made at h h'
  rw [hsettings, h] at h'
  obtain ⟨_, _, _, _, _⟩ := e'
  cases h'
  cases hsettings
  rfl

theorem Made.functions (h : e.Made) : e.settings.parseFunctions = .ok e.functions :=
  (ofSettings_eq_ok_iff.mp h).2.2.2.1

end Estimator

/-! ## Boosters -/

namespace Booster

variable {b : Booster} {s : EvolutionSettings}

/-- The booster was made from its settings; earlier fits may have left something in it. -/
def Made (b : Booster) : Prop :=
  ofSettings b.evolution b.boosting = .ok { b with last := none }

theorem ofSettings_eq_ok_iff {t : BoostingSettings} : ofSettings s t = .ok b ↔
    s.Valid ∧ t.Valid ∧ s.parseLoss = .ok b.loss ∧ b.loss.slope? = some b.slope ∧
      s.parseEval = .ok b.eval ∧ b.evolution = s ∧ b.boosting = t ∧ b.last = none := by
  unfold ofSettings
  rw [Except.bind_eq_ok]
  constructor
  · rintro ⟨loss, hloss, h⟩
    split at h
    · cases h
    · next slope hslope =>
      obtain ⟨_, hvalid, h⟩ := Except.bind_eq_ok.mp h
      obtain ⟨_, hboosting, h⟩ := Except.bind_eq_ok.mp h
      obtain ⟨eval, heval, h⟩ := Except.bind_eq_ok.mp h
      cases h
      exact ⟨EvolutionSettings.validate_eq_ok_iff.mp hvalid,
        BoostingSettings.validate_eq_ok_iff.mp hboosting, hloss, hslope, heval, rfl, rfl, rfl⟩
  · rintro ⟨hvalid, hboosting, hloss, hslope, heval, rfl, rfl, hlast⟩
    refine ⟨b.loss, hloss, ?_⟩
    rw [hslope]
    dsimp only
    rw [EvolutionSettings.validate_eq_ok_iff.mpr hvalid,
      BoostingSettings.validate_eq_ok_iff.mpr hboosting, heval, ← hlast]
    rfl

theorem Made.cases (h : b.Made) : b.evolution.Valid ∧ b.boosting.Valid ∧
    b.evolution.parseLoss = .ok b.loss ∧ b.loss.slope? = some b.slope ∧
      b.evolution.parseEval = .ok b.eval := by
  obtain ⟨hvalid, hboosting, hloss, hslope, heval, -⟩ := ofSettings_eq_ok_iff.mp h
  exact ⟨hvalid, hboosting, hloss, hslope, heval⟩

/-- Boosters of the same settings only differ in what earlier fits have left. -/
theorem Made.eq_with_last {b' : Booster} (h : b.Made) (h' : b'.Made)
    (hevolution : b'.evolution = b.evolution) (hboosting : b'.boosting = b.boosting) :
    b' = { b with last := b'.last } := by
  unfold Made at h h'
  rw [hevolution, hboosting, h] at h'
  obtain ⟨_, _, _, _, _, _⟩ := b'
  cases h'
  cases hevolution
  cases hboosting
  rfl

/-- The settings that a round of boosting fits its program with. -/
def roundSettings (s : EvolutionSettings) (seed : ℕ) : EvolutionSettings :=
  { s with lossMetric := Metric.mse.name, evalMetric := none, verbose := false, seed }

theorem parse_mse : Metric.parse Metric.mse.name = .ok .mse := by cbv

theorem valid_roundSettings (h : s.Valid) (seed : ℕ) : (roundSettings s seed).Valid :=
  h.with_metrics ⟨.mse, parse_mse⟩ ⟨.mse, parse_mse⟩

/-- What fits the program of a round. -/
def roundEstimator (s : EvolutionSettings) (functions : FunctionSet) (seed : ℕ) : Estimator :=
  ⟨roundSettings s seed, .mse, .mse, functions, none⟩

variable {functions : FunctionSet}

theorem ofSettings_roundSettings (h : s.Valid) (hfs : s.parseFunctions = .ok functions)
    (seed : ℕ) :
    Estimator.ofSettings (roundSettings s seed) = .ok (roundEstimator s functions seed) :=
  Estimator.ofSettings_eq_ok_iff.mpr
    ⟨valid_roundSettings h seed, parse_mse, parse_mse, hfs, rfl, rfl⟩

/-- An estimator can be made for every round, and the round takes the best program it evolves. -/
theorem evolveProgram_eq (h : s.Valid) (hfs : s.parseFunctions = .ok functions) (data : Dataset)
    (seed : ℕ) : (evolveProgram s data seed).result =
      (·.best.program) <$> ((roundEstimator s functions seed).evolve seed data none).result := by
  have hmade := ofSettings_roundSettings h hfs seed
  generalize roundEstimator s functions seed = e at hmade ⊢
  show (liftM (Estimator.ofSettings (roundSettings s seed)) >>= fun e =>
    e.evolve seed data none >>= fun evolved => pure evolved.best.program : Logged Program).result = _
  rw [hmade, Logged.result_bind]
  show (e.evolve seed data none >>= fun evolved => pure evolved.best.program : Logged Program).result
    = _
  rw [Logged.result_bind]
  cases (e.evolve seed data none).result <;> rfl

end Booster

end SymbolicRegression
