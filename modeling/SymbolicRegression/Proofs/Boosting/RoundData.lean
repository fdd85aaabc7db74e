import SymbolicRegression.Proofs.Boosting.Predictions
import SymbolicRegression.Proofs.Dataset.Sampling
import SymbolicRegression.Proofs.Evolution.Visits
import SymbolicRegression.Proofs.Prediction
import SymbolicRegression.Proofs.Program.Remapping

/-!
What the program of a round is fitted to, and what becomes of it.

A round draws rows and features, and fits a program to the residuals of these rows.  The
residuals are computed for all rows before the rows of the round are chosen, and the program is
renumbered before it is evaluated on all rows.  Three lists of places are composed here, and
everything is in its place: choosing rows commutes with computing residuals row by row, and with
evaluating a renumbered program.
-/

namespace SymbolicRegression

open Dataset (pick)

/-! ## Parts of a table -/

namespace Program

variable {v : Vocabulary} {d : Dataset} {rows cols : List ℕ} {p : Program}

theorem exists_evaluate_remap (hp : p.BuiltFrom v) (hfeatures : ∀ i ∈ p.features, i < cols.length)
    (hcols : ∀ f ∈ cols, f < d.featureCount) : ∃ q values, p.remap cols = .ok q ∧
      q.BuiltFrom .any ∧ (∀ i ∈ q.features, i ∈ cols) ∧ q.evaluate d = .ok values := by
  obtain ⟨q, hq, hbuilt, hmem⟩ := exists_remap hp hfeatures
  obtain ⟨values, hvalues⟩ := exists_evaluate (d := d) hbuilt fun i hi => hcols i (hmem i hi)
  exact ⟨q, values, hq, hbuilt, hmem, hvalues⟩

end Program

namespace Booster

variable {σ : Type} {b : Booster} {train : Dataset} {pred : List Float} {rows cols : List ℕ}

/-! ## The table of a round -/

/-- The slopes of the loss at the predictions, row by row. -/
def gradient (b : Booster) (train : Dataset) (pred : List Float) : List Float :=
  List.zipWith b.slope train.target pred

/-- The target of a round: the gradient of its rows, with the other sign. -/
def residuals (b : Booster) (train : Dataset) (pred : List Float) (rows : List ℕ) : List Float :=
  (pick (b.gradient train pred) rows).map (-·)

theorem length_gradient (hpred : pred.length = train.rowCount) :
    (b.gradient train pred).length = train.rowCount := by
  rw [gradient, List.length_zipWith, hpred]
  exact Nat.min_self _

theorem Made.gradient_eq (h : b.Made) (train : Dataset) (pred : List Float) :
    b.loss.gradient? train.target pred = some (b.gradient train pred) := by
  unfold Metric.gradient?
  rw [h.cases.2.2.2.1]
  rfl

theorem length_residuals :
    (b.residuals train pred rows).length = (train.part rows cols).rowCount := by
  simp [residuals, pick, Dataset.part, Dataset.rowCount]

theorem wellFormed_roundData (htrain : train.WellFormed)
    (hrows : Dataset.Selects train.rowCount rows) (hcols : cols ≠ []) :
    Dataset.WellFormed { train.part rows cols with target := b.residuals train pred rows } :=
  (htrain.part hrows.1 hcols hrows.2).with_target length_residuals

theorem roundData_eq (htrain : train.WellFormed) (hpred : pred.length = train.rowCount)
    (hrows : Dataset.Selects train.rowCount rows) (hcols : Dataset.Selects train.featureCount cols) :
    b.roundData train pred rows cols =
      .ok { train.part rows cols with target := b.residuals train pred rows } := by
  have hresiduals : (rows.mapM fun i => do
      return -(← memberAt (b.gradient train pred) i) : Except Misuse _) =
        .ok (b.residuals train pred rows) := by
    rw [residuals, pick, List.map_map]
    refine Except.mapM_eq_ok fun r hr => ?_
    rw [Dataset.memberAt_getD 0.0 ((length_gradient hpred).symm ▸ hrows.2 r hr)]
    rfl
  have hpart : (train.part rows cols).WellFormed := htrain.part hrows.1 hcols.1 hrows.2
  unfold roundData
  dsimp only
  rw [show List.zipWith b.slope train.target pred = b.gradient train pred from rfl, hresiduals,
    Dataset.subset_eq htrain hrows.1 hcols.1 hrows.2 hcols.2]
  exact congrArg (Except.mapError Failure.error) (Dataset.withTarget_eq hpart length_residuals)

variable [RandomSource σ]

theorem ensures_drawRound (hmade : b.Made) (htrain : train.WellFormed) :
    Ensures (b.drawRound train : Draw σ _) fun r =>
      Dataset.Selects train.rowCount r.1 ∧ Dataset.Selects train.featureCount r.2.1 := by
  obtain ⟨-, hboosting, -⟩ := hmade.cases
  refine (Dataset.ensures_sampleIndices htrain.rowCount_pos hboosting.rowShare.1
    hboosting.rowShare.2).bind fun rows hrows => ?_
  refine (Dataset.ensures_sampleIndices htrain.featureCount_pos hboosting.featureShare.1
    hboosting.featureShare.2).bind fun cols hcols => ?_
  exact Ensures.bind' fun seed => .of_pure ⟨hrows, hcols⟩

/-- The program of a round reads no more features than the round has. -/
theorem ensures_evolveProgram {s : EvolutionSettings} (hvalid : s.Valid)
    (hword : s.maxHeight < 2 ^ 64) {data : Dataset} (hdata : data.WellFormed) (seed : ℕ) :
    Ensures (evolveProgram s data seed) (·.BuiltFrom (.upTo data.featureCount)) := by
  obtain ⟨functions, hfs⟩ := hvalid.functions
  have hmade : (roundEstimator s functions seed).Made := ofSettings_roundSettings hvalid hfs seed
  intro raw hraw
  have hresult := (evolveProgram_eq hvalid hfs data seed).symm.trans hraw
  obtain ⟨out, hout, rfl⟩ := Except.map_eq_ok.mp hresult
  exact Estimator.ensures_evolve_readable hmade hword hdata out hout

/-- The program of a round can be renumbered, and evaluated on all rows then. -/
theorem exists_learner {s : EvolutionSettings} (hvalid : s.Valid) (hword : s.maxHeight < 2 ^ 64)
    (htrain : train.WellFormed) (hrows : Dataset.Selects train.rowCount rows)
    (hcols : Dataset.Selects train.featureCount cols) {seed : ℕ} {raw : Program}
    (hraw : (evolveProgram s
      { train.part rows cols with target := b.residuals train pred rows } seed).result = .ok raw) :
    ∃ program values, raw.remap cols = .ok program ∧ program.BuiltFrom .any ∧
      (∀ i ∈ program.features, i ∈ cols) ∧ program.evaluate train = .ok values := by
  have hbuilt := ensures_evolveProgram hvalid hword (wellFormed_roundData htrain hrows hcols.1) _
    raw hraw
  refine Program.exists_evaluate_remap hbuilt (fun i hi => ?_) hcols.2
  have hlt : i < (cols.map fun f => pick (train.columns.getD f []) rows).length :=
    hbuilt.of_mem_features hi
  rwa [List.length_map] at hlt

/-- At every place a table holds the row that the place is taken from, with the features that
are chosen, minus the entry of a gradient as its target, and the same weight. -/
structure Mirrors (train : Dataset) (gradient : List Float) (rows cols : List ℕ)
    (data : Dataset) : Prop where
  rowCount : data.rowCount = rows.length
  row : ∀ k r : ℕ, rows[k]? = some r → ∃ x, train.row r = .ok x ∧ (∀ f ∈ cols, f < x.length) ∧
    data.row k = .ok (cols.map (x.getD · 0.0))
  target : ∀ k r : ℕ, rows[k]? = some r → ∃ g, gradient[r]? = some g ∧ data.target[k]? = some (-g)
  weight : ∀ k r : ℕ, rows[k]? = some r → data.weights.map (·[k]?) = train.weights.map (·[r]?)

omit [RandomSource σ] in
theorem mirrors_part {gradient : List Float} (htrain : train.WellFormed)
    (hgradient : gradient.length = train.rowCount)
    (hrows : ∀ r ∈ rows, r < train.rowCount) (hcols : ∀ f ∈ cols, f < train.featureCount) :
    Mirrors train gradient rows cols
      { train.part rows cols with target := (pick gradient rows).map (-·) } where
  rowCount := by simp [Dataset.rowCount, pick]
  row := by
    intro k r hk
    have hlt := hrows r (List.mem_of_getElem? hk)
    refine ⟨_, Dataset.row_eq htrain.rectangular hlt, fun f hf => ?_, ?_⟩
    · rw [List.length_map]
      exact hcols f hf
    · have hrow : ∀ f ∈ cols, memberAt (pick (train.columns.getD f []) rows) k =
          .ok ((train.columns.map (·.getD r 0.0)).getD f 0.0) := by
        intro f hf
        have hf' : f < train.columns.length := hcols f hf
        rw [memberAt_eq_ok, Dataset.getElem?_pick hk]
        simp [hf']
      show (cols.map fun f => pick (train.columns.getD f []) rows).mapM (memberAt · k) = _
      rw [List.mapM_map]
      exact Except.mapM_eq_ok hrow
  target := by
    intro k r hk
    have hlt : r < gradient.length := hgradient ▸ hrows r (List.mem_of_getElem? hk)
    refine ⟨gradient[r], List.getElem?_eq_getElem hlt, ?_⟩
    rw [List.getElem?_map, Dataset.getElem?_pick hk]
    simp [hlt]
  weight := by
    intro k r hk
    show (train.weights.map (pick · rows)).map (·[k]?) = _
    rw [Option.map_map]
    refine Option.map_congr fun w hw => ?_
    have hlt : r < w.length := (htrain.weights w hw).1 ▸ hrows r (List.mem_of_getElem? hk)
    rw [Function.comp_apply, Dataset.getElem?_pick hk]
    simp [hlt]

/-- Choosing rows and features of a table and renumbering the features of a program commute with
evaluation.  In every round of a fit, everything the program is fitted to stands where the
sampled places say, and the program that the round adds can be evaluated on all rows. -/
theorem sampling_commutes_with_evaluation :
    (∀ (d : Dataset) (rows cols : List ℕ) (p : Program), d.WellFormed →
      rows ≠ [] → (∀ r ∈ rows, r < d.rowCount) → cols ≠ [] → (∀ f ∈ cols, f < d.featureCount) →
      p.BuiltFrom .any → (∀ i ∈ p.features, i < cols.length) →
        ∃ part q values onRows, d.subset rows cols = .ok part ∧ p.remap cols = .ok q ∧
          p.evaluate part = .ok values ∧ q.evaluate d = .ok onRows ∧
          values.length = rows.length ∧ ∀ k r : ℕ, rows[k]? = some r → values[k]? = onRows[r]?) ∧
    ∀ {σ : Type} [RandomSource σ] {b : Booster} {train : Dataset} {val : Option Dataset}
      {start stream : σ} {n : ℕ} {p : Boosting σ} {rows cols : List ℕ} {seed : ℕ}, b.Made →
      b.evolution.maxHeight < 2 ^ 64 → train.WellFormed →
      Reached b (evolveProgram b.evolution) train (usable val) start n p true →
      (b.drawRound train).run p.stream = .ok ((rows, cols, seed), stream) →
        ∃ pred gradient data, p.ensemble.predict train = .ok pred ∧
          b.loss.gradient? train.target pred = some gradient ∧
          b.roundData train p.trained rows cols = .ok data ∧
          Mirrors train gradient rows cols data ∧
          ∀ raw, (evolveProgram b.evolution data seed).result = .ok raw →
            ∃ program values, raw.remap cols = .ok program ∧ (∀ i ∈ program.features, i ∈ cols) ∧
              program.evaluate train = .ok values ∧
              ∀ q goesOn, (b.round (evolveProgram b.evolution) train (usable val) (n + 1) p).result =
                .ok (q, goesOn) →
                  q.ensemble = p.ensemble ∨ ∃ step, q.ensemble = p.ensemble.push program step := by
  refine ⟨?_, ?_⟩
  · intro d rows cols p hd hrows hrange hcols hcrange hp hfeatures
    obtain ⟨q, onRows, hq, -, hmem, honRows⟩ := Program.exists_evaluate_remap hp hfeatures hcrange
    refine ⟨_, q, _, onRows, Dataset.subset_eq hd hrows hcols hrange hcrange, hq,
      Program.evaluate_part hd.rectangular hrange hq honRows, honRows, List.length_map _, ?_⟩
    intro k r hk
    have hlt : r < onRows.length := by
      rw [Program.length_evaluate hd.rectangular honRows]
      exact hrange r (List.mem_of_getElem? hk)
    rw [Dataset.getElem?_pick hk]
    simp [hlt]
  · intro σ _ b train val start stream n p rows cols seed hmade hword htrain hreached hdraw
    have htracks := tracks_of_reached hreached
    have hlength := Ensemble.length_predict htrain.rectangular htracks.trained
    obtain ⟨hrows, hcols⟩ : Dataset.Selects train.rowCount rows ∧
        Dataset.Selects train.featureCount cols := ensures_drawRound hmade htrain _ ⟨_, _, hdraw⟩
    have hdata := roundData_eq (b := b) htrain hlength hrows hcols
    refine ⟨p.trained, b.gradient train p.trained, _, htracks.trained,
      hmade.gradient_eq train p.trained, hdata,
      mirrors_part htrain (length_gradient hlength) hrows.2 hcols.2, fun raw hraw => ?_⟩
    obtain ⟨program, values, hprogram, -, hmem, hvalues⟩ :=
      exists_learner hmade.cases.1 hword htrain hrows hcols hraw
    refine ⟨program, values, hprogram, hmem, hvalues, fun q goesOn hround => ?_⟩
    -- The round draws the same places, so the program it adds is this one.
    obtain ⟨program', _, _, ⟨_, _, _, _, _, hdraw', hdata', hraw', hprogram'⟩, _, hcases⟩ :=
      round_cases hround
    cases hdraw'.symm.trans hdraw
    cases hdata'.symm.trans hdata
    cases hraw'.symm.trans hraw
    cases hprogram'.symm.trans hprogram
    rcases hcases with ⟨-, rfl, -⟩ | ⟨-, step, grown, record, hadd, hnote, -⟩
    · exact .inl rfl
    · obtain ⟨validated, rfl, -⟩ := addLearner_eq_ok hadd
      obtain ⟨-, -, -, -, -, -, rfl⟩ := noteRound_eq_ok hnote
      exact .inr ⟨step, rfl⟩

/-- Four rounds at most, each of which fits a product of two leaves to half of the rows. -/
def products : Booster where
  evolution := { functions := "mul", lossMetric := "mse", seed := 17, generations := 0,
                 islandSize := 2, minHeight := 1, maxHeight := 1 }
  boosting := { rounds := 4, monitorEvery := 2, keepBest := true, rowShare := 0.5 }
  loss := .mse
  slope := Metric.squaredSlope
  eval := .mse
  last := none

theorem mul_ne_nil : [Operator.mul] ≠ [] := List.cons_ne_nil _ _

theorem parse_products : FunctionSet.parse "mul" = .ok ⟨[.mul], List.cons_ne_nil _ _⟩ := by cbv

theorem valid_products : products.evolution.Valid where
  loss := ⟨_, parse_mse⟩
  eval := ⟨_, parse_mse⟩
  functions := ⟨_, parse_products⟩
  heights := le_rfl
  islands := Nat.one_pos
  islandSize := Nat.two_pos
  constMin := by decide +kernel
  constMax := by decide +kernel
  constants := by decide +kernel
  parsimony := by decide +kernel
  probabilities := by decide +kernel

theorem made_products : products.Made :=
  ofSettings_eq_ok_iff.mpr ⟨valid_products,
    { rounds := by decide
      monitorEvery := by decide
      learningRate := by decide +kernel
      rowShare := by decide +kernel
      featureShare := by decide +kernel }, parse_mse, rfl, parse_mse, rfl, rfl, rfl⟩

/-- Two rows.  The square of the one feature is finite on the first row only. -/
def steep : Dataset where
  columns := [[1.0, 1e200]]
  target := [1.0, 2.0]
  weights := none

theorem wellFormed_steep : steep.WellFormed :=
  have h : Dataset.ofColumns steep.columns steep.target none = .ok steep := rfl
  Dataset.wellFormed_of_ofColumns h

theorem sampling_commutes_with_evaluation_products :
    (∃ part q values onRows, (Model.someColumns 3).subset [1, 0, 1] [2, 0] = .ok part ∧
      (Program.call .add [.feature 0, .feature 1]).remap [2, 0] = .ok q ∧
      (Program.call .add [.feature 0, .feature 1]).evaluate part = .ok values ∧
      q.evaluate (Model.someColumns 3) = .ok onRows ∧ values[0]? = onRows[1]?) ∧
    ∃ rows cols seed stream gradient data, (products.drawRound steep).run
        (ChaCha.Stream.ofSeedWord 17) = .ok ((rows, cols, seed), stream) ∧
      Mirrors steep gradient rows cols data := by
  refine ⟨?_, ?_⟩
  · have hmade : Dataset.ofColumns (Model.someColumns 3).columns [1.0, 2.0] none =
        .ok (Model.someColumns 3) := rfl
    have hd := Dataset.wellFormed_of_ofColumns hmade
    have hp : (Program.call .add [.feature 0, .feature 1]).BuiltFrom .any :=
      ⟨trivial, rfl, trivial, trivial, trivial⟩
    obtain ⟨part, q, values, onRows, hpart, hq, hvalues, honRows, -, hk⟩ :=
      sampling_commutes_with_evaluation.1 _ [1, 0, 1] [2, 0] _ hd (by decide) (by decide)
        (by decide) (by decide) hp (by decide)
    exact ⟨part, q, values, onRows, hpart, hq, hvalues, honRows, hk 0 1 rfl⟩
  · obtain ⟨⟨⟨rows, cols, seed⟩, stream⟩, hdraw⟩ := Except.exists_eq_ok
      (by decide +kernel : ((products.drawRound steep).run
        (ChaCha.Stream.ofSeedWord 17)).toOption.isSome = true)
    have hstart : Reached products (evolveProgram products.evolution) steep (usable none)
        (ChaCha.Stream.ofSeedWord 17) 0 _ true := .start
    obtain ⟨pred, gradient, data, -, -, -, hmirrors, -⟩ := sampling_commutes_with_evaluation.2
      made_products (Nat.one_lt_two_pow (by decide)) wellFormed_steep hstart hdraw
    exact ⟨rows, cols, seed, stream, gradient, data, hdraw, hmirrors⟩

end Booster
end SymbolicRegression
