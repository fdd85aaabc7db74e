import SymbolicRegression.Proofs.Boosting.Rounds
import SymbolicRegression.Proofs.Program.Evaluation

/-!
The predictions that a fit keeps up to date are those of its ensemble.

A round adds one term to every prediction, in the arithmetic of doubles; the ensemble adds
all terms again when it predicts.  Both add the same terms in the same order, so the two
never differ in a bit, and what the rounds record are scores of the ensemble itself.
-/

namespace SymbolicRegression

/-! ## Ensembles that grow -/

namespace Ensemble

variable {e : Ensemble} {program : Program} {step : Float} {d : Dataset} {pred values : List Float}

@[simp]
theorem size_push : (e.push program step).size = e.size + 1 := by
  simp [push, size]

theorem predict_push (he : e.predict d = .ok pred) (hp : program.predict d = .ok values) :
    (e.push program step).predict d = .ok (accumulate step pred values) := by
  unfold predict at he ⊢
  rw [push, List.foldlM_append, he]
  simp [hp, bind, Except.bind, pure, Except.pure]

theorem truncate_push {n : Nat} (h : n ≤ e.size) : (e.push program step).truncate n = e.truncate n := by
  unfold size at h
  simp only [truncate, push, List.take_append_of_le_length h]

theorem truncate_size : e.truncate e.size = e := by
  simp [truncate, size]

end Ensemble

namespace Booster

variable {σ : Type} {b : Booster} {fitter : ProgramFitter} {train : Dataset}
  {val : Option Dataset} {n : Nat} {p q : Boosting σ} {goesOn : Bool}

/-! ## The invariant -/

/-- Record number `i` tells the truth about learner number `i`: its step, and the scores of
the ensemble that ends with it. -/
structure Describes (b : Booster) (train : Dataset) (val : Option Dataset) (e : Ensemble) (i : Nat)
    (r : RoundRecord) : Prop where
  learners : r.learners = i + 1
  step : ∃ l, e.learners[i]? = some l ∧ l.step = r.step
  training : ∃ pred, (e.truncate (i + 1)).predict train = .ok pred ∧
    b.loss.score train.target pred train.weights = .ok r.training
  validation : ∀ s, r.validation = some s → ∃ v pred, val = some v ∧
    (e.truncate (i + 1)).predict v = .ok pred ∧ b.eval.score v.target pred v.weights = .ok s

/-- What is kept beside the ensemble agrees with the ensemble. -/
structure Tracks (b : Booster) (train : Dataset) (val : Option Dataset) (p : Boosting σ) : Prop where
  base : p.ensemble.base = b.loss.base train.target train.weights
  trained : p.ensemble.predict train = .ok p.trained
  validated : ∀ v, val = some v → p.ensemble.predict v = .ok p.validated
  count : p.rounds.length = p.ensemble.size
  history : ∀ i r, p.rounds[i]? = some r → b.Describes train val p.ensemble i r
  finite : ∀ l ∈ p.ensemble.learners, ∃ values, l.program.evaluate train = .ok values ∧
    ∀ x ∈ values, x.isFinite = true

/-- A learner more changes nothing in what is told about the earlier ones. -/
theorem Describes.push {e : Ensemble} {i : Nat} {r : RoundRecord} {program : Program}
    {step : Float} (h : b.Describes train val e i r) (hi : i < e.size) :
    b.Describes train val (e.push program step) i r := by
  have htrunc : (e.push program step).truncate (i + 1) = e.truncate (i + 1) :=
    Ensemble.truncate_push hi
  refine ⟨h.learners, ?_, by rw [htrunc]; exact h.training, by rw [htrunc]; exact h.validation⟩
  obtain ⟨l, hl, hstep⟩ := h.step
  refine ⟨l, ?_, hstep⟩
  rw [Ensemble.push, List.getElem?_append_left hi]
  exact hl

theorem tracks_start (stream : σ) : b.Tracks train val (b.start train val stream) where
  base := rfl
  trained := rfl
  validated := by
    rintro v rfl
    rfl
  count := rfl
  history := nofun
  finite := nofun

theorem Tracks.skip (h : b.Tracks train val p) (stream : σ) :
    b.Tracks train val { p with stream } :=
  ⟨h.base, h.trained, h.validated, h.count, h.history, h.finite⟩

/-- The invariant after a learner that is finite on training data has been added and its
round has been noted. -/
theorem Tracks.grow {grown : Boosting σ} {program : Program} {values : List Float} {step : Float}
    {record : RoundRecord} (h : b.Tracks train val p)
    (hvalues : program.evaluate train = .ok values) (hfinite : values.any (!·.isFinite) = false)
    (hadd : addLearner train val b p program values = .ok (step, grown))
    (hnote : noteRound train val b n step grown = .ok (record, q)) : b.Tracks train val q := by
  obtain ⟨validated, rfl, hval⟩ := addLearner_eq_ok hadd
  obtain ⟨-, hstep, hlearners, htraining, -, hvalidation, rfl⟩ := noteRound_eq_ok hnote
  have htrained : (p.ensemble.push program step).predict train =
      .ok (Ensemble.accumulate step p.trained values) :=
    Ensemble.predict_push h.trained (Program.predict_of_evaluate hvalues)
  have hvalidated : ∀ v, val = some v →
      (p.ensemble.push program step).predict v = .ok validated := by
    intro v hv
    obtain ⟨onVal, hpredict, rfl⟩ := hval v hv
    exact Ensemble.predict_push (h.validated v hv) hpredict
  have hsize : (p.ensemble.push program step).size = p.ensemble.size + 1 := Ensemble.size_push
  have hwhole : (p.ensemble.push program step).truncate (p.ensemble.size + 1) =
      p.ensemble.push program step := by
    rw [← hsize, Ensemble.truncate_size]
  have hnew : b.Describes train val (p.ensemble.push program step) p.ensemble.size record := by
    refine ⟨by rw [hlearners, hsize], ⟨⟨program, step⟩, ?_, hstep.symm⟩, ?_, ?_⟩
    · simp [Ensemble.push, Ensemble.size]
    · exact ⟨_, by rw [hwhole]; exact htrained, htraining⟩
    · intro s hs
      obtain ⟨v, hv, -, hscore⟩ := hvalidation s hs
      exact ⟨v, validated, hv, by rw [hwhole]; exact hvalidated v hv, hscore⟩
  refine ⟨h.base, htrained, hvalidated, by simp [h.count], fun i r hr => ?_, fun l hl => ?_⟩
  · rcases Nat.lt_trichotomy i p.rounds.length with hlt | heq | hgt
    · rw [List.getElem?_append_left hlt] at hr
      exact (h.history i r hr).push (h.count ▸ hlt)
    · subst heq
      rw [List.getElem?_concat_length] at hr
      cases hr
      rw [h.count]
      exact hnew
    · rw [List.getElem?_eq_none (by simp; omega)] at hr
      cases hr
  · rcases List.mem_append.mp hl with hold | hmem
    · exact h.finite l hold
    · rw [List.mem_singleton.mp hmem]
      refine ⟨values, hvalues, fun x hx => ?_⟩
      have := List.any_eq_false.mp hfinite x hx
      simpa using this

/-- Every learner that is kept in the end is one of the reached state. -/
theorem mem_learners_of_mem_kept {l : Learner} (h : l ∈ (b.kept p).learners) :
    l ∈ p.ensemble.learners := by
  unfold kept at h
  split at h
  · exact List.mem_of_mem_take h
  · exact h

variable [RandomSource σ]

theorem Tracks.round (h : b.Tracks train val p)
    (hround : (b.round fitter train val n p).result = .ok (q, goesOn)) : b.Tracks train val q := by
  obtain ⟨program, values, stream, -, hvalues, hcases⟩ := round_cases hround
  rcases hcases with ⟨-, rfl, -⟩ | ⟨hfinite, step, grown, record, hadd, hnote, -⟩
  · exact h.skip stream
  · exact (h.skip stream).grow hvalues hfinite hadd hnote

theorem tracks_of_reached {stream : σ} (h : Reached b fitter train val stream n p goesOn) :
    b.Tracks train val p := by
  induction h with
  | start => exact tracks_start stream
  | round _ step ih => exact ih.round step

omit [RandomSource σ] in
theorem all_isFinite_eq (values : List Float) :
    values.all Float.isFinite = !values.any (!·.isFinite) := by
  rw [List.not_any_eq_all_not]
  simp only [Bool.not_not]

/-- What becomes of a learner: one that is finite on training data is added and gets a record,
any other leaves ensemble, predictions and history alone. -/
theorem round_adds_or_skips (h : (b.round fitter train val n p).result = .ok (q, goesOn)) :
    ∃ program values stream, b.Fits fitter train p program stream ∧
      program.evaluate train = .ok values ∧
      if values.all Float.isFinite then
        ∃ step record, q.ensemble = p.ensemble.push program step ∧ q.rounds = p.rounds ++ [record]
      else q.ensemble = p.ensemble ∧ q.trained = p.trained ∧ q.validated = p.validated ∧
        q.rounds = p.rounds := by
  obtain ⟨program, values, stream, hfits, hvalues, hcases⟩ := round_cases h
  refine ⟨program, values, stream, hfits, hvalues, ?_⟩
  have hall := all_isFinite_eq values
  rcases hcases with ⟨hskip, rfl, -⟩ | ⟨hfinite, step, grown, record, hadd, hnote, -⟩
  · simp only [hall, hskip, Bool.not_true, Bool.false_eq_true, if_false, and_self]
  · simp only [hall, hfinite, Bool.not_false, if_true]
    obtain ⟨validated, rfl, -⟩ := addLearner_eq_ok hadd
    obtain ⟨-, -, -, -, -, -, rfl⟩ := noteRound_eq_ok hnote
    exact ⟨step, record, rfl, rfl⟩

/-- At every moment of a fit the predictions that are kept up to date are, bit for bit, the
predictions of the ensemble so far, and the history describes the ensembles that end with
each learner; a learner that is not finite on training data leaves no trace. -/
theorem fit_tracks_ensemble (b : Booster) (fitter : ProgramFitter) (stream : σ) (train : Dataset)
    (val : Option Dataset) :
    (∀ n p goesOn, Reached b fitter train (usable val) stream n p goesOn →
      b.Tracks train (usable val) p) ∧
    (∀ n p q goesOn, Reached b fitter train (usable val) stream n p true →
      (b.round fitter train (usable val) (n + 1) p).result = .ok (q, goesOn) →
      ∃ program values next, b.Fits fitter train p program next ∧
        program.evaluate train = .ok values ∧
        if values.all Float.isFinite then
          ∃ step record, q.ensemble = p.ensemble.push program step ∧ q.rounds = p.rounds ++ [record]
        else q.ensemble = p.ensemble ∧ q.trained = p.trained ∧ q.validated = p.validated ∧
          q.rounds = p.rounds) ∧
    (∀ out, (b.boost fitter stream train val).result = .ok out →
      ∃ n p goesOn, Reached b fitter train (usable val) stream n p goesOn ∧
        out.rounds = p.rounds ∧ out.ensemble = b.kept p ∧
        ∀ l ∈ out.ensemble.learners, ∃ values, l.program.evaluate train = .ok values ∧
          ∀ x ∈ values, x.isFinite = true) := by
  refine ⟨fun n p goesOn h => tracks_of_reached h, fun n p q goesOn _ h => round_adds_or_skips h,
    fun out h => ?_⟩
  obtain ⟨k, p, on, hreached, -, -, rfl⟩ := boost_reached h
  exact ⟨k, p, on, hreached, rfl, rfl, fun l hl =>
    (tracks_of_reached hreached).finite l (mem_learners_of_mem_kept hl)⟩

end Booster
end SymbolicRegression
