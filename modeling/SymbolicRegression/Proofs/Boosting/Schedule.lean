import SymbolicRegression.Proofs.Boosting.Checkpoints
import SymbolicRegression.Proofs.Boosting.RoundData

/-!
Which rounds the history tells of.

Every round that adds its learner is noted, and scored on validation data just if the schedule
says so.  A round whose learner is not finite on training data is left before anything is noted,
at a checkpoint as well.  So the schedule is kept by the rounds that add learners only, and the
last learners of a fit may go without a score when the rounds after them are skipped.
-/

namespace SymbolicRegression
namespace Booster

variable {σ : Type} [RandomSource σ] {b : Booster} {fitter : ProgramFitter} {train : Dataset}
  {val : Option Dataset} {stream : σ} {n : ℕ} {p q : Boosting σ} {goesOn : Bool}

/-! ## Rounds and their records -/

/-- The record of a round has a score just if there are validation data and the round is a
checkpoint. -/
structure Records (b : Booster) (val : Option Dataset) (n : ℕ) (record : RoundRecord) : Prop where
  round : record.round = n
  validation : record.validation.isSome = true ↔ val.isSome = true ∧ b.isCheckpoint n = true

/-- A round adds a record if the values of its learner are finite, and none if they are not. -/
theorem round_records (h : (b.round fitter train val n p).result = .ok (q, goesOn)) :
    ∃ program values next, b.Fits fitter train p program next ∧
      program.evaluate train = .ok values ∧
      if values.all Float.isFinite then ∃ record, b.Records val n record ∧
        q.rounds = p.rounds ++ [record]
      else q.rounds = p.rounds := by
  obtain ⟨program, values, next, hfits, hvalues, hcases⟩ := round_cases h
  refine ⟨program, values, next, hfits, hvalues, ?_⟩
  have hall := all_isFinite_eq values
  rcases hcases with ⟨hskip, rfl, -⟩ | ⟨hfinite, step, grown, record, hadd, hnote, -⟩
  · simp only [hall, hskip, Bool.not_true, Bool.false_eq_true, if_false]
  · simp only [hall, hfinite, Bool.not_false, if_true]
    obtain ⟨validated, rfl, -⟩ := addLearner_eq_ok hadd
    obtain ⟨hround, -, -, -, hnone, hsome, rfl⟩ := noteRound_eq_ok hnote
    refine ⟨record, ⟨hround, ?_⟩, rfl⟩
    cases hvalidation : record.validation with
    | none =>
      refine ⟨nofun, fun ⟨hval, hcheck⟩ => ?_⟩
      rcases hnone hvalidation with rfl | hno
      · exact absurd hval Bool.false_ne_true
      · exact absurd (hno.symm.trans hcheck) Bool.false_ne_true
    | some s =>
      obtain ⟨v, rfl, hcheck, -⟩ := hsome s hvalidation
      exact ⟨fun _ => ⟨rfl, hcheck⟩, fun _ => rfl⟩

/-- Round `r` of a fit has taken place, and the history tells of it as it should: with a record
if its learner is finite on training data, and not at all otherwise. -/
def Accounts (b : Booster) (fitter : ProgramFitter) (train : Dataset) (val : Option Dataset)
    (stream : σ) (r : ℕ) (rounds : List RoundRecord) : Prop :=
  ∃ before program values next, Reached b fitter train val stream (r - 1) before true ∧
    b.Fits fitter train before program next ∧ program.evaluate train = .ok values ∧
    if values.all Float.isFinite then ∃ record ∈ rounds, b.Records val r record
    else ∀ record ∈ rounds, record.round ≠ r

/-- Later records tell nothing of an earlier round. -/
theorem Accounts.concat {r : ℕ} {rounds : List RoundRecord} {record : RoundRecord}
    (h : b.Accounts fitter train val stream r rounds) (hne : record.round ≠ r) :
    b.Accounts fitter train val stream r (rounds ++ [record]) := by
  obtain ⟨before, program, values, next, hreached, hfits, hvalues, h⟩ := h
  refine ⟨before, program, values, next, hreached, hfits, hvalues, ?_⟩
  split at h
  · next hfinite =>
    obtain ⟨old, hold, hrecords⟩ := h
    rw [if_pos hfinite]
    exact ⟨old, List.mem_append_left _ hold, hrecords⟩
  · next hfinite =>
    rw [if_neg hfinite]
    intro old hold
    rcases List.mem_append.mp hold with hold | hold
    · exact h old hold
    · rwa [List.mem_singleton.mp hold]

/-- All rounds so far are accounted for, and the history tells of no other ones. -/
theorem accounts_of_reached (h : Reached b fitter train val stream n p goesOn) :
    (∀ record ∈ p.rounds, 1 ≤ record.round ∧ record.round ≤ n) ∧
      ∀ r, 1 ≤ r → r ≤ n → b.Accounts fitter train val stream r p.rounds := by
  induction h with
  | start => exact ⟨nofun, fun r hr hle => absurd hle (by omega)⟩
  | @round n p q goesOn before step ih =>
    obtain ⟨hrange, hrounds⟩ := ih
    obtain ⟨program, values, next, hfits, hvalues, h⟩ := round_records step
    split at h
    · next hfinite =>
      obtain ⟨record, hrecords, hq⟩ := h
      rw [hq]
      refine ⟨fun old hold => ?_, fun r hr hle => ?_⟩
      · rcases List.mem_append.mp hold with hold | hold
        · have := hrange old hold
          omega
        · have := hrecords.round
          rw [List.mem_singleton.mp hold]
          omega
      · by_cases hnew : r = n + 1
        · subst hnew
          refine ⟨p, program, values, next, before, hfits, hvalues, ?_⟩
          rw [if_pos hfinite]
          exact ⟨record, List.mem_append_right _ List.mem_cons_self, hrecords⟩
        · have hround := hrecords.round
          exact (hrounds r hr (by omega)).concat (by omega)
    · next hfinite =>
      rw [h]
      refine ⟨fun old hold => ?_, fun r hr hle => ?_⟩
      · have := hrange old hold
        omega
      · by_cases hnew : r = n + 1
        · subst hnew
          refine ⟨p, program, values, next, before, hfits, hvalues, ?_⟩
          rw [if_neg hfinite]
          intro old hold
          have := hrange old hold
          omega
        · exact hrounds r hr (by omega)

/-- Of a fit that ends well, every round that took place has a record just if its learner is
finite on training data, and the record has a score just if there are validation data and the
round is a checkpoint.  A checkpoint whose learner is skipped is not taken, be it the last
round. -/
theorem finite_rounds_keep_the_schedule {out : Boosted}
    (h : (b.boost fitter stream train val).result = .ok out) :
    ∃ n p goesOn, Reached b fitter train (usable val) stream n p goesOn ∧
      n ≤ b.boosting.rounds ∧ (goesOn = true → n = b.boosting.rounds) ∧ out.rounds = p.rounds ∧
      (∀ record ∈ out.rounds, 1 ≤ record.round ∧ record.round ≤ n) ∧
      ∀ r, 1 ≤ r → r ≤ n → b.Accounts fitter train (usable val) stream r out.rounds := by
  obtain ⟨n, p, goesOn, hreached, hle, hall, rfl⟩ := boost_reached h
  obtain ⟨hrange, haccounts⟩ := accounts_of_reached hreached
  exact ⟨n, p, goesOn, hreached, hle, hall, rfl, hrange, haccounts⟩

/-! ## A last checkpoint that is skipped -/

/-- Without early stopping a fit goes on to its last round. -/
theorem goesOn_of_no_patience (hpatience : b.boosting.patience = 0)
    (h : Reached b fitter train val stream n p goesOn) : goesOn = true := by
  refine (monitors_of_reached h).goesOn_iff.mpr fun hstops => ?_
  have hpos := hstops.1
  omega

/-- Where the square of the feature is finite, and met exactly. -/
def level : Dataset where
  columns := [[1.0]]
  target := [1.0]
  weights := none

/-- Products are fitted to two rows; on the second one they are finite in three rounds only. -/
def climbSteep (fitter : ProgramFitter) : Logged Boosted :=
  products.boost fitter (Estimator.stream products.evolution 0) steep (some level)

/-- The way to fit a product without reading names. -/
def fitProduct : ProgramFitter := fun data seed =>
  (·.best.program) <$> (roundEstimator products.evolution ⟨[.mul], mul_ne_nil⟩
    seed).evolve seed data none

theorem result_climbSteep : (climbSteep (evolveProgram products.evolution)).result =
    (climbSteep fitProduct).result := by
  refine boost_congr (fun data seed => ?_) _
  rw [evolveProgram_eq valid_products parse_products, fitProduct, Logged.result_map]

theorem climbSteep_eq : ((climbSteep (evolveProgram products.evolution)).result.toOption.map
    fun out => (out.rounds.map fun r => (r.round, r.validation.isSome), out.ensemble.size)) =
      some ([(1, false), (2, true), (3, false)], 2) := by
  rw [result_climbSteep]
  decide +kernel

theorem exists_climbSteep : ∃ out,
    (climbSteep (evolveProgram products.evolution)).result = .ok out := by
  refine Except.exists_eq_ok ?_
  rw [← Option.isSome_map, climbSteep_eq]
  rfl

theorem finite_rounds_keep_the_schedule_products : ∃ out,
    (climbSteep (evolveProgram products.evolution)).result = .ok out ∧
      products.Accounts (evolveProgram products.evolution) steep (usable (some level))
        (Estimator.stream products.evolution 0) 4 out.rounds := by
  obtain ⟨out, hout⟩ := exists_climbSteep
  obtain ⟨n, p, goesOn, hreached, -, hall, -, -, haccounts⟩ := finite_rounds_keep_the_schedule hout
  have hn : n = 4 := hall (goesOn_of_no_patience rfl hreached)
  exact ⟨out, hout, haccounts 4 (by decide) hn.ge⟩

/-- The fit goes through its last round, which is a checkpoint, and the history does not tell of
it.  The third learner has no score, and the fit goes back to the second one. -/
theorem last_checkpoint_of_products_skipped : ∃ out p,
    (climbSteep (evolveProgram products.evolution)).result = .ok out ∧
      Reached products (evolveProgram products.evolution) steep (usable (some level))
        (Estimator.stream products.evolution 0) products.boosting.rounds p true ∧
      products.isCheckpoint products.boosting.rounds = true ∧ out.rounds = p.rounds ∧
      (¬∃ record ∈ out.rounds, record.round = products.boosting.rounds ∧
        record.validation.isSome = true) ∧
      p.ensemble.size = 3 ∧ out.ensemble.size = 2 := by
  obtain ⟨out, hout⟩ := exists_climbSteep
  obtain ⟨n, p, goesOn, hreached, -, hall, rfl⟩ := boost_reached hout
  obtain rfl : goesOn = true := goesOn_of_no_patience rfl hreached
  obtain rfl : n = products.boosting.rounds := hall rfl
  have hrun := climbSteep_eq
  rw [hout] at hrun
  obtain ⟨hrounds, hsize⟩ := Prod.mk.inj (Option.some.inj hrun)
  refine ⟨_, p, hout, hreached, rfl, rfl, ?_, ?_, hsize⟩
  · rintro ⟨record, hmem, hround, -⟩
    have hnumber := List.mem_map_of_mem (f := fun r => (r.round, r.validation.isSome)) hmem
    rw [hrounds] at hnumber
    have hmember : record.round ∈ [1, 2, 3] := List.mem_map_of_mem (f := Prod.fst) hnumber
    rw [hround] at hmember
    exact absurd hmember (by decide)
  · rw [← (tracks_of_reached hreached).count]
    exact (List.length_map _).symm.trans (congrArg List.length hrounds)

end Booster
end SymbolicRegression
