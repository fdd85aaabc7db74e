import SymbolicRegression.Proofs.Boosting.RoundData
import SymbolicRegression.Proofs.Evolution.FailedFits

/-!
When fitting an ensemble fails, and what a failed fit leaves behind.

A round makes an estimator, takes a part of the table, fits a program to it and adds the program
with a step.  All of this can be done for any table, because the settings have been validated
and because programs keep to the features of their table.  What may be refused is the request
itself, for the lack of validation data, and a learner, for the lack of a feature.
-/

namespace SymbolicRegression

variable {Q : Failure → Prop}

/-! ## Line search -/

namespace GoldenSection

variable {m : Type → Type} [Monad m] [Ending m] [Failing m] {α β : Type} [Scalar α] [Comparable β]
  {f : α → m β}

theorem confines_shrink (hf : ∀ x, Confines (f x) Q) (tolerance : α) (n : ℕ) (k : Bracket α β) :
    Confines (shrink f tolerance n k) Q := by
  induction n generalizing k with
  | zero => exact .of_pure
  | succ n ih =>
    have hstep : Confines (step f k) Q := by
      unfold step
      split
      · exact (hf _).bind' fun _ => .of_pure
      · exact (hf _).bind' fun _ => .of_pure
    rw [shrink]
    split
    · exact .of_pure
    · exact hstep.bind' fun k => ih k

/-- A search fails only where its function does. -/
theorem confines_multiplier (hf : ∀ x, Confines (f x) Q) : Confines (multiplier f) Q := by
  have hstart (lower upper : α) : Confines (start f lower upper) Q :=
    (hf _).bind' fun _ => (hf _).bind' fun _ => .of_pure
  exact (hstart _ _).bind' fun k => (confines_shrink hf _ _ k).bind' fun _ => .of_pure

end GoldenSection

namespace Booster

variable {σ : Type} {b : Booster} {train : Dataset} {val : Option Dataset} {n : ℕ}
  {p : Boosting σ} {program : Program} {values : List Float} {step : Float}

/-! ## The parts of a round -/

theorem confines_multiplier (htrain : train.WellFormed) {pred : List Float}
    (hpred : pred.length = train.rowCount) (hvalues : values.length = train.rowCount) :
    Confines (b.multiplier train pred values) Q := by
  unfold multiplier
  split
  · refine GoldenSection.confines_multiplier fun m => ?_
    have hlength : (Ensemble.accumulate m pred values).length = train.rowCount :=
      Ensemble.length_accumulate hpred hvalues
    obtain ⟨loss, hloss⟩ := b.loss.exists_loss hlength fun w hw => (htrain.weights w hw).1
    exact .of_ok hloss
  · exact .of_pure

/-- There is a prediction for every row of the training and of the validation data. -/
structure Covers (train : Dataset) (val : Option Dataset) (p : Boosting σ) : Prop where
  trained : p.trained.length = train.rowCount
  validated : ∀ v ∈ val, p.validated.length = v.rowCount

/-- A learner is added unless validation data lack one of its features. -/
theorem Covers.addLearner_cases {v : Program.Vocabulary} (htrain : train.WellFormed)
    (hval : ∀ v ∈ val, v.WellFormed) (h : Covers train val p)
    (hprogram : program.BuiltFrom v) (hvalues : program.evaluate train = .ok values) :
    ((¬∃ d ∈ val, d.Lacks program) ∧ ∃ step q, Covers train val q ∧
      addLearner train val b p program values = .ok (step, q)) ∨
      ((∃ d ∈ val, d.Lacks program) ∧
        ∃ err, addLearner train val b p program values = .error (.error err)) := by
  have hlength := Program.length_evaluate htrain.rectangular hvalues
  obtain ⟨m, hm⟩ := (confines_multiplier (b := b) (Q := Failure.Never) htrain h.trained
    hlength).exists_ok
  have htrained : (Ensemble.accumulate (m * b.boosting.learningRate) p.trained values).length =
      train.rowCount := Ensemble.length_accumulate h.trained hlength
  unfold addLearner
  rw [hm]
  cases val with
  | none =>
    refine .inl ⟨?_, _, _, ⟨htrained, nofun⟩, rfl⟩
    rintro ⟨_, ⟨⟩, _⟩
  | some d =>
    rcases Program.predict_cases hprogram (hval d rfl).rectangular with
      ⟨hhas, onVal, honVal, hlength⟩ | ⟨hlacks, err, herr⟩
    · have hvalidated :
          (Ensemble.accumulate (m * b.boosting.learningRate) p.validated onVal).length =
            d.rowCount := Ensemble.length_accumulate (h.validated d rfl) hlength
      refine .inl ⟨?_, m * b.boosting.learningRate, { p with
        ensemble := p.ensemble.push program (m * b.boosting.learningRate)
        trained := Ensemble.accumulate (m * b.boosting.learningRate) p.trained values
        validated := Ensemble.accumulate (m * b.boosting.learningRate) p.validated onVal },
        ⟨htrained, ?_⟩, ?_⟩
      · rintro ⟨_, ⟨⟩, hlacks⟩
        exact hhas hlacks
      · rintro _ ⟨⟩
        exact hvalidated
      · dsimp only
        rw [honVal]
        rfl
    · refine .inr ⟨⟨d, rfl, hlacks⟩, err, ?_⟩
      dsimp only
      rw [herr]
      rfl

theorem Covers.exists_noteRound (n : ℕ) (step : Float) (htrain : train.WellFormed)
    (hval : ∀ v ∈ val, v.WellFormed) (h : Covers train val p) : ∃ r, noteRound train val b n step p = .ok r := by
  obtain ⟨training, htraining⟩ := b.loss.exists_score h.trained fun w hw => (htrain.weights w hw).1
  unfold noteRound
  rw [htraining]
  cases val with
  | none => exact ⟨_, rfl⟩
  | some v =>
    obtain ⟨score, hscore⟩ := b.eval.exists_score (h.validated v rfl)
      fun w hw => ((hval v rfl).weights w hw).1
    cases hcheck : b.isCheckpoint n with
    | false =>
      simp only [Bool.false_eq_true, if_false]
      exact ⟨_, rfl⟩
    | true =>
      simp only [if_true]
      rw [hscore]
      exact ⟨_, rfl⟩

/-! ## Rounds -/

variable [RandomSource σ] {stream next : σ} {fitter : ProgramFitter}

theorem covers_of_reached (htrain : train.WellFormed) (hval : ∀ v ∈ val, v.WellFormed)
    (h : Reached b fitter train val stream n p true) : Covers train val p where
  trained := Ensemble.length_predict htrain.rectangular (tracks_of_reached h).trained
  validated := fun v hv =>
    Ensemble.length_predict (hval v hv).rectangular ((tracks_of_reached h).validated v hv)

theorem confines_drawRound (hmade : b.Made) (htrain : train.WellFormed) :
    Confines (b.drawRound train : Draw σ _) Failure.OfDraw := by
  obtain ⟨-, hboosting, -⟩ := hmade.cases
  refine (Dataset.confines_sampleIndices htrain.rowCount_pos hboosting.rowShare.1
    hboosting.rowShare.2).bind' fun rows => ?_
  refine (Dataset.confines_sampleIndices htrain.featureCount_pos hboosting.featureShare.1
    hboosting.featureShare.2).bind' fun cols => ?_
  exact Draw.confines_seedWord.bind' fun seed => .of_pure

omit [RandomSource σ] in
/-- The program of a round is fitted without validation data, so only a draw can fail. -/
theorem confines_evolveProgram {s : EvolutionSettings} (hvalid : s.Valid)
    (hword : s.maxHeight < 2 ^ 64) {data : Dataset} (hdata : data.WellFormed) (seed : ℕ) :
    Confines (evolveProgram s data seed) Failure.OfDraw := by
  obtain ⟨functions, hfs⟩ := hvalid.functions
  have hmade : (roundEstimator s functions seed).Made := ofSettings_roundSettings hvalid hfs seed
  have hevolve : Confines ((roundEstimator s functions seed).evolve seed data none) _ :=
    Estimator.confines_evolve hmade hword nofun hdata
  intro failure hfailure
  change (evolveProgram s data seed).result = _ at hfailure
  rw [evolveProgram_eq hvalid hfs] at hfailure
  cases hresult : ((roundEstimator s functions seed).evolve seed data none).result with
  | ok out =>
    rw [hresult] at hfailure
    cases hfailure
  | error failure' =>
    rw [hresult] at hfailure
    cases hfailure
    have hdue := hevolve _ hresult
    cases failure with
    | misuse u => exact hdue
    | error err =>
      obtain ⟨_, _, _, _, ⟨⟩, _⟩ := hdue

/-- What a round does with the program it has fitted. -/
theorem Fits.result_round (h : b.Fits fitter train p program next)
    (hvalues : program.evaluate train = .ok values) :
    (b.round fitter train val n p).result =
      if values.any (!·.isFinite) then .ok ({ p with stream := next }, true) else do
        let (step, grown) ← addLearner train val b { p with stream := next } program values
        let (record, noted) ← (noteRound train val b n step grown).mapError Failure.misuse
        return (noted, !(record.validation.isSome && noted.stopping.isExhausted)) := by
  obtain ⟨rows, cols, seed, data, raw, hdraw, hdata, hraw, hprogram⟩ := h
  unfold round
  rw [Logged.result_misuse_bind hdraw]
  dsimp only
  rw [Logged.result_failure_bind hdata, Logged.result_bind, hraw]
  show (liftM (raw.remap cols) >>= _ : Logged _).result = _
  rw [Logged.result_misuse_bind hprogram, Logged.result_misuse_bind hvalues]
  split
  · rfl
  · rw [Logged.result_bind]
    refine bind_congr fun grown => ?_
    rw [Logged.result_bind]
    refine bind_congr fun noted => ?_
    rw [Logged.result_bind]
    show (if _ then _ else _ : Logged _).result = _
    split
    · next hstop =>
      rw [hstop]
      rfl
    · next hstop =>
      rw [Bool.eq_false_of_not_eq_true hstop]
      rfl

/-- The program is finite on training data, so it is not skipped, and it reads a feature that
validation data lack. -/
def Refuses (train : Dataset) (val : Option Dataset) (program : Program) : Prop :=
  ∃ values, program.evaluate train = .ok values ∧ (∀ x ∈ values, x.isFinite = true) ∧
    ∃ v ∈ val, v.Lacks program

/-- A round that takes place fits a program that is not skipped and reads a feature that
validation data lack. -/
def Overreaches (b : Booster) (stream : σ) (train : Dataset) (val : Option Dataset) : Prop :=
  ∃ n p program next, n < b.boosting.rounds ∧
    Reached b (evolveProgram b.evolution) train val stream n p true ∧
    b.Fits (evolveProgram b.evolution) train p program next ∧ Refuses train val program

/-- All rounds from the start on are the rounds that are left of a fit that goes on. -/
theorem Reached.result_rounds (h : Reached b fitter train val stream n p goesOn)
    (hgoes : goesOn = true) (left : ℕ) :
    (b.rounds fitter train val 1 (n + left) (b.start train val stream)).result =
      (b.rounds fitter train val (n + 1) left p).result := by
  induction h generalizing left with
  | start => rw [Nat.zero_add]
  | @round n p q goesOn before step ih =>
    subst hgoes
    -- The round is the last of `n + 1` here and the first of those left there.
    rw [Nat.add_right_comm, Nat.add_assoc, ih rfl (left + 1)]
    conv_lhs => unfold rounds
    rw [Logged.result_bind, step]
    rfl

section

variable (hmade : b.Made) (hword : b.evolution.maxHeight < 2 ^ 64) (htrain : train.WellFormed)

include hmade hword htrain

/-- A program that a round fits can be evaluated on training data. -/
theorem Fits.exists_evaluate (htrained : p.trained.length = train.rowCount)
    (h : b.Fits (evolveProgram b.evolution) train p program next) :
    program.BuiltFrom .any ∧ (∀ i ∈ program.features, i < train.featureCount) ∧
      ∃ values, program.evaluate train = .ok values := by
  obtain ⟨rows, cols, seed, data, raw, hdraw, hdata, hraw, hprogram⟩ := h
  obtain ⟨hrows, hcols⟩ : Dataset.Selects train.rowCount rows ∧
      Dataset.Selects train.featureCount cols := ensures_drawRound hmade htrain _ ⟨_, _, hdraw⟩
  cases (roundData_eq htrain htrained hrows hcols).symm.trans hdata
  obtain ⟨program', values, hprogram', hbuilt, hfeatures, hvalues⟩ :=
    exists_learner hmade.cases.1 hword htrain hrows hcols hraw
  cases hprogram'.symm.trans hprogram
  exact ⟨hbuilt, fun i hi => hcols.2 i (hfeatures i hi), values, hvalues⟩

/-- A round fits a program unless a draw is misused. -/
theorem exists_fits_or_misuse (val : Option Dataset) (n : ℕ)
    (htrained : p.trained.length = train.rowCount) :
    (∃ program next, b.Fits (evolveProgram b.evolution) train p program next) ∨
      ∃ u : Misuse, u.OfDraw ∧
        (b.round (evolveProgram b.evolution) train val n p).result = .error (.misuse u) := by
  cases hdraw : (b.drawRound train).run p.stream with
  | error u =>
    refine .inr ⟨u, confines_drawRound hmade htrain _ ⟨p.stream, u, hdraw, rfl⟩, ?_⟩
    unfold round
    rw [hdraw]
    rfl
  | ok drawn =>
    obtain ⟨⟨rows, cols, seed⟩, next⟩ := drawn
    obtain ⟨hrows, hcols⟩ : Dataset.Selects train.rowCount rows ∧
        Dataset.Selects train.featureCount cols := ensures_drawRound hmade htrain _ ⟨_, _, hdraw⟩
    have hdata := roundData_eq (b := b) htrain htrained hrows hcols
    cases hraw : (evolveProgram b.evolution
        { train.part rows cols with target := b.residuals train p.trained rows } seed).result with
    | ok raw =>
      obtain ⟨program, values, hprogram, -⟩ :=
        exists_learner hmade.cases.1 hword htrain hrows hcols hraw
      exact .inl ⟨program, next, rows, cols, seed, _, raw, hdraw, hdata, hraw, hprogram⟩
    | error failure =>
      have hdraws := confines_evolveProgram hmade.cases.1 hword
        (wellFormed_roundData htrain hrows hcols.1) seed failure hraw
      cases failure with
      | error err => exact hdraws.elim
      | misuse u =>
        refine .inr ⟨u, hdraws, ?_⟩
        unfold round
        rw [Logged.result_misuse_bind hdraw]
        dsimp only
        rw [Logged.result_failure_bind hdata, Logged.result_bind, hraw]
        rfl

variable (hval : ∀ v ∈ val, v.WellFormed)

include hval

/-- A round that has fitted a program fails just if the program is refused. -/
theorem Fits.round_outcome (hcovers : Covers train val p)
    (h : b.Fits (evolveProgram b.evolution) train p program next) :
    (Refuses train val program ∧ ∃ err,
      (b.round (evolveProgram b.evolution) train val n p).result = .error (.error err)) ∨
      (¬Refuses train val program ∧ ∃ r,
        (b.round (evolveProgram b.evolution) train val n p).result = .ok r) := by
  obtain ⟨hbuilt, -, values, hvalues⟩ := h.exists_evaluate hmade hword htrain hcovers.trained
  rw [h.result_round hvalues]
  cases hany : values.any (!·.isFinite) with
  | true =>
    -- A program that is skipped is never asked for its values on validation data.
    refine .inr ⟨?_, _, rfl⟩
    rintro ⟨values', hvalues', hfinite, -⟩
    cases hvalues'.symm.trans hvalues
    obtain ⟨x, hx, hnot⟩ := List.any_eq_true.mp hany
    rw [hfinite x hx] at hnot
    cases hnot
  | false =>
    have hfinite : ∀ x ∈ values, x.isFinite = true := by simpa using hany
    simp only [Bool.false_eq_true, if_false]
    have hcovers' : Covers train val { p with stream := next } := ⟨hcovers.1, hcovers.2⟩
    rcases hcovers'.addLearner_cases (b := b) htrain hval hbuilt hvalues with
      ⟨hhas, step, grown, hgrown, hadd⟩ | ⟨hlacks, err, herr⟩
    · obtain ⟨r, hr⟩ := hgrown.exists_noteRound (b := b) n step htrain hval
      refine .inr ⟨fun ⟨_, _, _, hlacks⟩ => hhas hlacks, ?_⟩
      rw [hadd]
      show ∃ r, ((noteRound train val b n step grown).mapError Failure.misuse >>= _) = _
      rw [hr]
      exact ⟨_, rfl⟩
    · refine .inl ⟨⟨values, hvalues, hfinite, hlacks⟩, err, ?_⟩
      rw [herr]
      rfl

/-! ## All rounds -/

theorem confines_round (hn : n < b.boosting.rounds)
    (h : Reached b (evolveProgram b.evolution) train val stream n p true) :
    Confines (b.round (evolveProgram b.evolution) train val (n + 1) p)
      (Failure.DueTo (b.Overreaches stream train val)) := by
  have hcovers := covers_of_reached htrain hval h
  intro failure hfailure
  change (b.round _ train val (n + 1) p).result = _ at hfailure
  rcases exists_fits_or_misuse hmade hword htrain val (n + 1) hcovers.trained with
    ⟨program, next, hfits⟩ | ⟨u, hu, hresult⟩
  · rcases hfits.round_outcome (n := n + 1) hmade hword htrain hval hcovers with
      ⟨hrefuses, err, hresult⟩ | ⟨-, r, hresult⟩
    · cases hresult.symm.trans hfailure
      exact ⟨n, p, program, next, hn, h, hfits, hrefuses⟩
    · cases hresult.symm.trans hfailure
  · cases hresult.symm.trans hfailure
    exact hu

theorem confines_rounds (left : ℕ) (hn : n + left ≤ b.boosting.rounds)
    (h : Reached b (evolveProgram b.evolution) train val stream n p true) :
    Confines (b.rounds (evolveProgram b.evolution) train val (n + 1) left p)
      (Failure.DueTo (b.Overreaches stream train val)) := by
  induction left generalizing n p with
  | zero => exact .of_pure
  | succ left ih =>
    have hround : Ensures (b.round (evolveProgram b.evolution) train val (n + 1) p) fun r =>
        Reached b (evolveProgram b.evolution) train val stream (n + 1) r.1 r.2 :=
      fun r hr => .round h hr
    unfold rounds
    refine (confines_round hmade hword htrain hval (by omega) h).bind hround fun r hr => ?_
    obtain ⟨q, goesOn⟩ := r
    cases goesOn with
    | true => exact ih (by omega) hr
    | false => exact .of_pure

omit hval in
/-- Validation data with all features of the training data have those of every learner. -/
theorem not_overreaches_of_le {v : Dataset} (h : train.featureCount ≤ v.featureCount) :
    ¬b.Overreaches stream train (some v) := by
  rintro ⟨n, p, program, next, -, hreached, hfits, -, -, -, _, ⟨⟩, i, hi, hge⟩
  have htrained := Ensemble.length_predict htrain.rectangular (tracks_of_reached hreached).trained
  obtain ⟨-, hfeatures, -⟩ := hfits.exists_evaluate hmade hword htrain htrained
  have hlt := hfeatures i hi
  omega

end

/-! ## The errors of a fit -/

/-- Validation data are needed to stop early and to go back to the best round. -/
def NeedsValidation (b : Booster) : Prop := 0 < b.boosting.patience ∨ b.boosting.keepBest = true

theorem needsValidation_iff :
    (val.isNone && (0 < b.boosting.patience || b.boosting.keepBest)) = true ↔
      val = none ∧ b.NeedsValidation := by
  simp [NeedsValidation]

theorem result_boost_of_needsValidation (h : b.NeedsValidation) :
    (b.boost fitter stream train none).result =
      .error (.error (.configuration .validationNeeded)) := by
  unfold boost
  dsimp only
  rw [if_pos (needsValidation_iff.mpr ⟨Option.filter_none _, h⟩)]
  rfl

theorem boost_eq (hval : ∀ v ∈ val, v.WellFormed) (h : ¬(val = none ∧ b.NeedsValidation)) :
    b.boost fitter stream train val = (do
      let p ← b.rounds fitter train val 1 b.boosting.rounds (b.start train val stream)
      return { ensemble := b.kept p, rounds := p.rounds }) := by
  unfold boost
  dsimp only
  rw [Dataset.filter_eq_of_wellFormed hval, if_neg (mt needsValidation_iff.mp h)]

section

variable (hmade : b.Made) (hword : b.evolution.maxHeight < 2 ^ 64) (htrain : train.WellFormed)
  (hval : ∀ v ∈ val, v.WellFormed)

include hmade hword htrain hval

/-- An error of a fit means that validation data, or one of their features, are missing, and a
misuse is one of a draw. -/
theorem confines_boost : Confines (b.boost (evolveProgram b.evolution) stream train val)
    (Failure.DueTo (val = none ∧ b.NeedsValidation ∨ b.Overreaches stream train val)) := by
  by_cases hneeds : val = none ∧ b.NeedsValidation
  · intro failure hfailure
    obtain ⟨rfl, hneeds⟩ := hneeds
    cases (result_boost_of_needsValidation hneeds).symm.trans hfailure
    exact .inl ⟨rfl, hneeds⟩
  · rw [boost_eq hval hneeds]
    have hrounds : Confines (b.rounds (evolveProgram b.evolution) train val 1 b.boosting.rounds
        (b.start train val stream)) (Failure.DueTo (b.Overreaches stream train val)) :=
      confines_rounds hmade hword htrain hval _ (Nat.le_of_eq (Nat.zero_add _)) .start
    exact (hrounds.mono fun failure => Failure.DueTo.mono Or.inr).bind' fun _ => .of_pure

/-- A fit fails with an error just if it asks for validation data in vain, or if they lack a
feature of a learner that is not skipped. -/
theorem boost_error_iff : (∃ err, (b.boost (evolveProgram b.evolution) stream train val).result =
    .error (.error err)) ↔ val = none ∧ b.NeedsValidation ∨ b.Overreaches stream train val := by
  constructor
  · rintro ⟨err, herr⟩
    exact confines_boost hmade hword htrain hval _ herr
  · rintro (⟨rfl, hneeds⟩ | ⟨n, p, program, next, hn, hreached, hfits, hrefuses⟩)
    · exact ⟨_, result_boost_of_needsValidation hneeds⟩
    · have hsome : ¬(val = none ∧ b.NeedsValidation) := by
        rintro ⟨rfl, -⟩
        obtain ⟨-, -, -, _, ⟨⟩, -⟩ := hrefuses
      have hcovers := covers_of_reached htrain hval hreached
      rcases hfits.round_outcome (n := n + 1) hmade hword htrain hval hcovers with
        ⟨-, err, hround⟩ | ⟨hnot, -⟩
      · obtain ⟨left, hleft⟩ : ∃ left, b.boosting.rounds = n + (left + 1) :=
          ⟨b.boosting.rounds - n - 1, by omega⟩
        refine ⟨err, ?_⟩
        rw [boost_eq hval hsome, Logged.result_bind, hleft, hreached.result_rounds rfl]
        unfold rounds
        rw [Logged.result_bind, hround]
        rfl
      · exact absurd hrefuses hnot

end

/-! ## Earlier fits -/

variable {last : Option Boosted}

theorem rounds_last (left : ℕ) :
    ({ b with last } : Booster).rounds fitter train val n left p =
      b.rounds fitter train val n left p := by
  induction left generalizing n p with
  | zero => rfl
  | succ left ih =>
    unfold rounds
    refine bind_congr fun r => ?_
    dsimp only
    rw [ih]

theorem boost_last : ({ b with last } : Booster).boost fitter stream train val =
    b.boost fitter stream train val := by
  unfold boost
  dsimp only
  simp only [rounds_last]
  rfl

end Booster

/-! ## Fits -/

/-- A fit fails with an error just for a cause, misuses nothing but draws, and leaves a model that
it fails for as it was. -/
structure FailsFor {M α : Type} (cause : Prop) (before : M) (fit : M × Logged α) : Prop where
  error_iff : (∃ err, fit.2.result = .error (.error err)) ↔ cause
  misuse : ∀ u, fit.2.result = .error (.misuse u) → u.OfDraw
  unchanged : ∀ failure, fit.2.result = .error failure → fit.1 = before

/-- A model that returns a part of an outcome fails as the outcome does. -/
theorem FailsFor.of_outcome {M α β : Type} {cause : Prop} {before after : M} {outcome : Logged β}
    {f : β → α} (hiff : (∃ err, outcome.result = .error (.error err)) ↔ cause)
    (hconfines : Confines outcome (Failure.DueTo cause))
    (hafter : ∀ failure, outcome.result = .error failure → after = before) :
    FailsFor cause before (after, f <$> outcome) := by
  have hmap (failure : Failure) : (f <$> outcome).result = .error failure ↔
      outcome.result = .error failure := by
    rw [Logged.result_map]
    cases outcome.result with
    | ok b => exact iff_of_false nofun nofun
    | error failure' => exact ⟨congrArg _ ∘ Except.error.inj, congrArg _ ∘ Except.error.inj⟩
  refine ⟨?_, fun u hu => hconfines (.misuse u) ((hmap _).mp hu), fun failure h =>
    hafter failure ((hmap _).mp h)⟩
  rw [← hiff]
  exact exists_congr fun err => hmap _

theorem Estimator.fit_failsFor {e : Estimator} (entropy : ℕ) {train : Dataset}
    {val : Option Dataset} (hmade : e.Made) (hword : e.settings.maxHeight < 2 ^ 64)
    (htrain : train.WellFormed) (hval : ∀ v ∈ val, v.WellFormed) :
    FailsFor (e.Overreaches entropy train val) e (e.fit entropy train val) := by
  refine .of_outcome (evolve_error_iff hmade hword hval htrain)
    (confines_evolve hmade hword hval htrain) fun failure hfailure => ?_
  rw [hfailure]

theorem Booster.fit_failsFor {b : Booster} (entropy : ℕ) {train : Dataset}
    {val : Option Dataset} (hmade : b.Made) (hword : b.evolution.maxHeight < 2 ^ 64)
    (htrain : train.WellFormed) (hval : ∀ v ∈ val, v.WellFormed) :
    FailsFor (val = none ∧ b.NeedsValidation ∨
      b.Overreaches (Estimator.stream b.evolution entropy) train val) b
        (b.fit entropy train val) := by
  refine .of_outcome (boost_error_iff hmade hword htrain hval)
    (confines_boost hmade hword htrain hval) fun failure hfailure => ?_
  rw [hfailure]

/-- Estimators that were made from the same settings, with a seed, end alike. -/
theorem Estimator.fit_last {e : Estimator} {last : Option Evolved} {entropy entropy' : ℕ}
    {train : Dataset} {val : Option Dataset} (hseed : e.settings.seed ≠ 0) :
    (({ e with last } : Estimator).fit entropy' train val).2 = (e.fit entropy train val).2 ∧
      ∀ p, (e.fit entropy train val).2.result = .ok p →
        (({ e with last } : Estimator).fit entropy' train val).1 = (e.fit entropy train val).1 := by
  unfold fit
  dsimp only
  rw [evolve_last hseed]
  refine ⟨rfl, fun p hp => ?_⟩
  rw [Logged.result_map] at hp
  obtain ⟨out, hout, -⟩ := Except.map_eq_ok.mp hp
  rw [hout]

theorem Booster.fit_last {b : Booster} {last : Option Boosted} {entropy entropy' : ℕ}
    {train : Dataset} {val : Option Dataset} (hseed : b.evolution.seed ≠ 0) :
    (({ b with last } : Booster).fit entropy' train val).2 = (b.fit entropy train val).2 ∧
      ∀ ensemble, (b.fit entropy train val).2.result = .ok ensemble →
        (({ b with last } : Booster).fit entropy' train val).1 = (b.fit entropy train val).1 := by
  unfold fit
  dsimp only
  rw [boost_last, Estimator.stream_eq hseed]
  refine ⟨rfl, fun ensemble hensemble => ?_⟩
  rw [Logged.result_map] at hensemble
  obtain ⟨out, hout, -⟩ := Except.map_eq_ok.mp hensemble
  rw [hout]

/-- Fits fail with an error just if data are missing: validation data without which a booster can
neither stop early nor go back, or a feature of them that is read by the best program after some
generation, or by a learner that is not skipped.  Only draws are misused.  A failed fit changes
nothing, and what a fit that ends well leaves behind is the same whatever earlier fits have
left. -/
theorem fits_fail_for_missing_data :
    (∀ (e : Estimator) (entropy : ℕ) (train : Dataset) (val : Option Dataset), e.Made →
      e.settings.maxHeight < 2 ^ 64 → train.WellFormed → (∀ v ∈ val, v.WellFormed) →
        FailsFor (e.Overreaches entropy train val) e (e.fit entropy train val) ∧
        (∀ v ∈ val, train.featureCount ≤ v.featureCount →
          ∀ err, (e.fit entropy train val).2.result ≠ .error (.error err)) ∧
        ∀ (e' : Estimator) (entropy' : ℕ), e'.Made → e'.settings = e.settings →
          e.settings.seed ≠ 0 → (e'.fit entropy' train val).2 = (e.fit entropy train val).2 ∧
          ∀ p, (e.fit entropy train val).2.result = .ok p →
            (e'.fit entropy' train val).1 = (e.fit entropy train val).1) ∧
    ∀ (b : Booster) (entropy : ℕ) (train : Dataset) (val : Option Dataset), b.Made →
      b.evolution.maxHeight < 2 ^ 64 → train.WellFormed → (∀ v ∈ val, v.WellFormed) →
        FailsFor (val = none ∧ b.NeedsValidation ∨
          b.Overreaches (Estimator.stream b.evolution entropy) train val) b
          (b.fit entropy train val) ∧
        (∀ v ∈ val, train.featureCount ≤ v.featureCount →
          ∀ err, (b.fit entropy train val).2.result ≠ .error (.error err)) ∧
        ∀ (b' : Booster) (entropy' : ℕ), b'.Made → b'.evolution = b.evolution →
          b'.boosting = b.boosting → b.evolution.seed ≠ 0 →
          (b'.fit entropy' train val).2 = (b.fit entropy train val).2 ∧
          ∀ ensemble, (b.fit entropy train val).2.result = .ok ensemble →
            (b'.fit entropy' train val).1 = (b.fit entropy train val).1 := by
  refine ⟨?_, ?_⟩
  · intro e entropy train val hmade hword htrain hval
    have hfails := Estimator.fit_failsFor entropy hmade hword htrain hval
    refine ⟨hfails, ?_, ?_⟩
    · rintro v ⟨⟩ hle err herr
      exact Estimator.not_overreaches_of_le hmade hword hle (hfails.error_iff.mp ⟨err, herr⟩)
    · intro e' entropy' hmade' hsettings hseed
      rw [hmade.eq_with_last hmade' hsettings]
      exact Estimator.fit_last hseed
  · intro b entropy train val hmade hword htrain hval
    have hfails := Booster.fit_failsFor entropy hmade hword htrain hval
    refine ⟨hfails, ?_, ?_⟩
    · rintro v ⟨⟩ hle err herr
      rcases hfails.error_iff.mp ⟨err, herr⟩ with ⟨hnone, -⟩ | hover
      · cases hnone
      · exact Booster.not_overreaches_of_le hmade hword htrain hle hover
    · intro b' entropy' hmade' hevolution hboosting hseed
      rw [hmade.eq_with_last hmade' hevolution hboosting]
      exact Booster.fit_last hseed

namespace Booster

/-- Two features. -/
def wide : Dataset where
  columns := [[1.0, 2.0], [3.0, 4.0]]
  target := [1.0, 2.0]
  weights := none

theorem wellFormed_wide : wide.WellFormed :=
  have h : Dataset.ofColumns wide.columns wide.target none = .ok wide := rfl
  Dataset.wellFormed_of_ofColumns h

/-- Fits one product of two leaves. -/
def product : Estimator := roundEstimator products.evolution ⟨[.mul], List.cons_ne_nil _ _⟩ 17

theorem made_product : product.Made := ofSettings_roundSettings valid_products parse_products 17

/-- Products that have been fitted before. -/
def usedProducts : Booster := { products with last := some { ensemble := .ofBase 0.0, rounds := [] } }

theorem fits_fail_for_missing_data_products :
    (product.Overreaches 0 wide (some steep) ∧
      (product.fit 0 wide (some steep)).1 = product) ∧
    (∃ err, (products.fit 0 steep none).2.result = .error (.error err)) ∧
    (usedProducts.fit 1 steep (some wide)).2 = (products.fit 0 steep (some wide)).2 ∧
    ∀ err, (products.fit 0 steep (some wide)).2.result ≠ .error (.error err) := by
  refine ⟨?_, ?_, ?_⟩
  · have hword : product.settings.maxHeight < 2 ^ 64 := Nat.one_lt_two_pow (by decide)
    obtain ⟨hfails, -⟩ := fits_fail_for_missing_data.1 product 0 wide (some steep)
      made_product hword wellFormed_wide (by rintro _ ⟨⟩; exact wellFormed_steep)
    have herr : (match (product.fit 0 wide (some steep)).2.result with
        | .error (.error _) => true
        | _ => false) = true := by decide +kernel
    split at herr
    · next err hresult => exact ⟨hfails.error_iff.mp ⟨err, hresult⟩, hfails.unchanged _ hresult⟩
    · cases herr
  · obtain ⟨hfails, -⟩ := fits_fail_for_missing_data.2 products 0 steep none made_products
      (Nat.one_lt_two_pow (by decide)) wellFormed_steep nofun
    exact hfails.error_iff.mpr (.inl ⟨rfl, .inr rfl⟩)
  · obtain ⟨-, hnever, hlast⟩ := fits_fail_for_missing_data.2 products 0 steep (some wide)
      made_products (Nat.one_lt_two_pow (by decide)) wellFormed_steep
      (by rintro _ ⟨⟩; exact wellFormed_wide)
    have hmade : usedProducts.Made := made_products
    exact ⟨(hlast usedProducts 1 hmade rfl rfl (by decide)).1, hnever wide rfl (by decide)⟩

end Booster

end SymbolicRegression
