import SymbolicRegression.Boosting.Booster
import SymbolicRegression.Proofs.Outcomes

/-!
The rounds of a fit: the states a fit passes through, and what one round does to a state.

Every fact about a fit is an induction over `Reached`, with `round_cases` for the step.
The lemmas about the parts of a round say all that the part does, so no later proof opens
a round again.
-/

namespace SymbolicRegression
namespace Booster

variable {σ : Type} {b : Booster} {fitter : ProgramFitter} {train : Dataset}
  {val : Option Dataset} {n : Nat} {p q : Boosting σ} {goesOn : Bool}

/-! ### The parts of a round -/

/-- The new learner is added to the ensemble and to both rows of predictions. -/
theorem addLearner_eq_ok {program : Program} {values : List Float} {step : Float}
    (h : addLearner train val b p program values = .ok (step, q)) :
    ∃ validated, q = { p with
        ensemble := p.ensemble.push program step
        trained := Ensemble.accumulate step p.trained values
        validated } ∧
      ∀ v, val = some v → ∃ onVal, program.predict v = .ok onVal ∧
        validated = Ensemble.accumulate step p.validated onVal := by
  unfold addLearner at h
  obtain ⟨m, -, h⟩ := Except.bind_eq_ok.mp h
  cases val with
  | none =>
    cases h
    exact ⟨p.validated, rfl, nofun⟩
  | some v =>
    obtain ⟨onVal, hpredict, h⟩ := Except.bind_eq_ok.mp h
    cases h
    refine ⟨_, rfl, fun w hw => ?_⟩
    cases hw
    exact ⟨onVal, hpredict, rfl⟩

/-- What a round writes down: the score on training data always, the score on validation
data at checkpoints. -/
theorem noteRound_eq_ok {step : Float} {record : RoundRecord}
    (h : noteRound train val b n step p = .ok (record, q)) :
    record.round = n ∧ record.step = step ∧ record.learners = p.ensemble.size ∧
      b.loss.score train.target p.trained train.weights = .ok record.training ∧
      (record.validation = none → val = none ∨ b.isCheckpoint n = false) ∧
      (∀ s, record.validation = some s → ∃ v, val = some v ∧ b.isCheckpoint n = true ∧
        b.eval.score v.target p.validated v.weights = .ok s) ∧
      q = { p with
        stopping := match record.validation with
          | some score => p.stopping.note score p.ensemble.size
          | none => p.stopping
        rounds := p.rounds ++ [record] } := by
  unfold noteRound at h
  obtain ⟨training, htraining, h⟩ := Except.bind_eq_ok.mp h
  cases val with
  | none =>
    cases h
    exact ⟨rfl, rfl, rfl, htraining, fun _ => .inl rfl, nofun, rfl⟩
  | some v =>
    cases hc : b.isCheckpoint n with
    | false =>
      simp only [hc, Bool.false_eq_true, if_false] at h
      cases h
      exact ⟨rfl, rfl, rfl, htraining, fun _ => .inr rfl, nofun, rfl⟩
    | true =>
      simp only [hc, if_true] at h
      obtain ⟨score, hscore, h⟩ := Except.bind_eq_ok.mp h
      cases h
      refine ⟨rfl, rfl, rfl, htraining, nofun, fun s hs => ?_, rfl⟩
      cases hs
      exact ⟨v, rfl, rfl, hscore⟩

/-! ### One round -/

variable [RandomSource σ]

/-- A round from the state fits the program, with features numbered as in the whole table,
and leaves the stream at `stream`. -/
def Fits (b : Booster) (fitter : ProgramFitter) (train : Dataset) (p : Boosting σ)
    (program : Program) (stream : σ) : Prop :=
  ∃ rows features seed data raw,
    (b.drawRound train).run p.stream = .ok ((rows, features, seed), stream) ∧
    b.roundData train p.trained rows features = .ok data ∧
    (fitter data seed).result = .ok raw ∧ raw.remap features = .ok program

/-- All that a round can do: it fits a program, and either skips it, because it is not
finite on training data, or adds it and writes a record. -/
theorem round_cases (h : (b.round fitter train val n p).result = .ok (q, goesOn)) :
    ∃ program values stream, b.Fits fitter train p program stream ∧
      program.evaluate train = .ok values ∧
      ((values.any (!·.isFinite) = true ∧ q = { p with stream } ∧ goesOn = true) ∨
        (values.any (!·.isFinite) = false ∧ ∃ step grown record,
          addLearner train val b { p with stream } program values = .ok (step, grown) ∧
          noteRound train val b n step grown = .ok (record, q) ∧
          goesOn = !(record.validation.isSome && q.stopping.isExhausted))) := by
  unfold round at h
  obtain ⟨⟨⟨rows, features, seed⟩, stream⟩, hdraw, h⟩ := Logged.result_bind_eq_ok.mp h
  obtain ⟨data, hdata, h⟩ := Logged.result_bind_eq_ok.mp h
  obtain ⟨raw, hraw, h⟩ := Logged.result_bind_eq_ok.mp h
  obtain ⟨program, hremap, h⟩ := Logged.result_bind_eq_ok.mp h
  obtain ⟨values, hvalues, h⟩ := Logged.result_bind_eq_ok.mp h
  have hfits : b.Fits fitter train p program stream :=
    ⟨rows, features, seed, data, raw, Except.mapError_eq_ok.mp hdraw, hdata, hraw,
      Except.mapError_eq_ok.mp hremap⟩
  refine ⟨program, values, stream, hfits, Except.mapError_eq_ok.mp hvalues, ?_⟩
  cases hfinite : values.any (!·.isFinite) with
  | true =>
    simp only [hfinite, if_true] at h
    obtain ⟨_, _, h⟩ := Logged.result_bind_eq_ok.mp h
    cases h
    exact .inl ⟨rfl, rfl, rfl⟩
  | false =>
    simp only [hfinite, Bool.false_eq_true, if_false] at h
    obtain ⟨⟨step, grown⟩, hadd, h⟩ := Logged.result_bind_eq_ok.mp h
    obtain ⟨⟨record, noted⟩, hnote, h⟩ := Logged.result_bind_eq_ok.mp h
    obtain ⟨_, _, h⟩ := Logged.result_bind_eq_ok.mp h
    refine .inr ⟨rfl, step, grown, record, hadd, ?_⟩
    cases hstop : record.validation.isSome && noted.stopping.isExhausted with
    | true =>
      simp only [hstop, if_true] at h
      obtain ⟨_, _, h⟩ := Logged.result_bind_eq_ok.mp h
      cases h
      exact ⟨Except.mapError_eq_ok.mp hnote, by simp [hstop]⟩
    | false =>
      simp only [hstop, Bool.false_eq_true, if_false] at h
      cases h
      exact ⟨Except.mapError_eq_ok.mp hnote, by simp [hstop]⟩

/-! ### All rounds -/

/-- The fit is in the given state after `n` rounds; the flag says whether another round may
follow. -/
inductive Reached (b : Booster) (fitter : ProgramFitter) (train : Dataset) (val : Option Dataset)
    (stream : σ) : Nat → Boosting σ → Bool → Prop
  | start : Reached b fitter train val stream 0 (b.start train val stream) true
  | round {n : Nat} {p q : Boosting σ} {goesOn : Bool}
      (before : Reached b fitter train val stream n p true)
      (step : (b.round fitter train val (n + 1) p).result = .ok (q, goesOn)) :
      Reached b fitter train val stream (n + 1) q goesOn

/-- The state in which a row of rounds ends is reached, and unless a round has ended the
fit all of them have taken place. -/
theorem rounds_reached {stream : σ} {left : Nat} (hp : Reached b fitter train val stream n p true)
    (h : (b.rounds fitter train val (n + 1) left p).result = .ok q) :
    ∃ k on, Reached b fitter train val stream k q on ∧ k ≤ n + left ∧
      (on = true → k = n + left) := by
  induction left generalizing n p with
  | zero =>
    cases h
    exact ⟨n, true, hp, Nat.le_refl _, fun _ => rfl⟩
  | succ left ih =>
    obtain ⟨⟨r, on⟩, hround, h⟩ := Logged.result_bind_eq_ok.mp h
    cases on with
    | false =>
      cases h
      exact ⟨n + 1, false, .round hp hround, by omega, fun hon => by cases hon⟩
    | true =>
      obtain ⟨k, on, hk, hle, hall⟩ := ih (.round hp hround) h
      exact ⟨k, on, hk, by omega, fun hon => by have := hall hon; omega⟩

/-- Validation data without rows count as none. -/
def usable (val : Option Dataset) : Option Dataset := val.filter fun v => 0 < v.rowCount

/-- A fit that ends well ends in a reached state and returns what is kept of it. -/
theorem boost_reached {stream : σ} {out : Boosted}
    (h : (b.boost fitter stream train val).result = .ok out) :
    ∃ k p on, Reached b fitter train (usable val) stream k p on ∧ k ≤ b.boosting.rounds ∧
      (on = true → k = b.boosting.rounds) ∧ out = { ensemble := b.kept p, rounds := p.rounds } := by
  unfold boost at h
  dsimp only at h
  split at h
  · obtain ⟨_, hnone, _⟩ := Logged.result_bind_eq_ok.mp h
    cases hnone
  · obtain ⟨p, hp, h⟩ := Logged.result_bind_eq_ok.mp h
    cases h
    obtain ⟨k, on, hk, hle, hall⟩ := rounds_reached .start hp
    exact ⟨k, p, on, hk, by omega, fun hon => by have := hall hon; omega, rfl⟩

/-! ### The way to fit a program -/

variable {fitter' : ProgramFitter}
  (h : ∀ data seed, (fitter data seed).result = (fitter' data seed).result)

include h

theorem round_congr : (b.round fitter train val n p).result =
    (b.round fitter' train val n p).result := by
  unfold round
  simp only [Logged.result_bind, h]

theorem rounds_congr (left : Nat) : (b.rounds fitter train val n left p).result =
    (b.rounds fitter' train val n left p).result := by
  induction left generalizing n p with
  | zero => rfl
  | succ left ih =>
    unfold rounds
    rw [Logged.result_bind, Logged.result_bind, round_congr h]
    refine bind_congr fun r => ?_
    dsimp only
    split
    · exact ih
    · rfl

/-- A fit does not depend on what is logged while its programs are fitted. -/
theorem boost_congr (stream : σ) : (b.boost fitter stream train val).result =
    (b.boost fitter' stream train val).result := by
  unfold boost
  dsimp only
  split
  · simp only [Logged.result_bind, rounds_congr h]
  · simp only [Logged.result_bind, rounds_congr h]

end Booster
end SymbolicRegression
