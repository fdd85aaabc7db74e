import SymbolicRegression.Proofs.Boosting.EarlyStopping
import SymbolicRegression.Proofs.Boosting.Predictions
import SymbolicRegression.Random.ChaCha

/-!
When a fit stops, and which of its learners it keeps.

A checkpoint is a record with a score on validation data.  Rounds in between leave none, and
skipped rounds leave no record at all, so early stopping counts checkpoints and not rounds.
The number of learners is noted with the score; the fit goes back to that number in the end,
and the history says that the learners up to there have that score.
-/

namespace SymbolicRegression
namespace Booster

open EarlyStopping (Better Stale FirstBest Knows Watches)

variable {σ : Type} {b : Booster} {fitter : ProgramFitter} {train : Dataset}
  {val : Option Dataset} {n : ℕ} {p q : Boosting σ} {goesOn : Bool}

/-! ## Checkpoints -/

/-- The scores on validation data, with the numbers of learners that have them. -/
def checkpoints (rounds : List RoundRecord) : List (Float × ℕ) :=
  rounds.filterMap fun r => r.validation.map (·, r.learners)

def scores (rounds : List RoundRecord) : List Float :=
  (checkpoints rounds).map (·.1)

/-- As many checkpoints in a row as the fit has patience for have not improved. -/
def Stops (b : Booster) (scores : List Float) : Prop :=
  0 < b.boosting.patience ∧ Stale b.eval.biggerIsBetter scores b.boosting.patience

variable {rounds : List RoundRecord} {r : RoundRecord} {s : Float}

theorem checkpoints_concat_none (h : r.validation = none) :
    checkpoints (rounds ++ [r]) = checkpoints rounds := by
  unfold checkpoints
  rw [List.filterMap_append, List.filterMap_cons_none (by rw [h]; rfl), List.filterMap_nil,
    List.append_nil]

theorem checkpoints_concat_some (h : r.validation = some s) :
    checkpoints (rounds ++ [r]) = checkpoints rounds ++ [(s, r.learners)] := by
  unfold checkpoints
  rw [List.filterMap_append, List.filterMap_cons_some (by rw [h]; rfl), List.filterMap_nil]

/-! ## Stopping -/

/-- The state after `n` rounds: early stopping has been told of all checkpoints, none but the
last of them was a reason to stop, and the fit goes on unless this one is. -/
structure Monitors (b : Booster) (n : ℕ) (p : Boosting σ) (goesOn : Bool) : Prop where
  patience : p.stopping.patience = b.boosting.patience
  direction : p.stopping.higherIsBetter = b.eval.biggerIsBetter
  watches : p.stopping.Watches (checkpoints p.rounds)
  earlier : ∀ t, t <+: scores p.rounds → t ≠ scores p.rounds → ¬b.Stops t
  goesOn_iff : goesOn = true ↔ ¬b.Stops (scores p.rounds)
  last : goesOn = false → ∃ front r, p.rounds = front ++ [r] ∧ r.round = n ∧
    r.validation.isSome = true

theorem monitors_start (stream : σ) : b.Monitors 0 (b.start train val stream) true where
  patience := rfl
  direction := rfl
  watches := EarlyStopping.watches_start _ _
  earlier := fun t ht hne => absurd (List.prefix_nil.mp ht) hne
  goesOn_iff := by
    refine ⟨fun _ hstops => ?_, fun _ => rfl⟩
    have hlength := hstops.2.1
    have hpos := hstops.1
    change b.boosting.patience ≤ 0 at hlength
    omega
  last := nofun

theorem Monitors.skip (h : b.Monitors n p true) {q : Boosting σ}
    (hstopping : q.stopping = p.stopping)
    (hchecks : checkpoints q.rounds = checkpoints p.rounds) : b.Monitors (n + 1) q true where
  patience := by
    rw [hstopping]
    exact h.patience
  direction := by
    rw [hstopping]
    exact h.direction
  watches := by
    rw [hstopping, hchecks]
    exact h.watches
  earlier := by
    unfold scores
    rw [hchecks]
    exact h.earlier
  goesOn_iff := by
    unfold scores
    rw [hchecks]
    exact h.goesOn_iff
  last := nofun

theorem Monitors.check (h : b.Monitors n p true) {q : Boosting σ} (hround : r.round = n + 1)
    (hscore : r.validation = some s) (hstopping : q.stopping = p.stopping.note s r.learners)
    (hrounds : q.rounds = p.rounds ++ [r]) :
    b.Monitors (n + 1) q (!q.stopping.isExhausted) := by
  have hchecks : checkpoints q.rounds = checkpoints p.rounds ++ [(s, r.learners)] := by
    rw [hrounds, checkpoints_concat_some hscore]
  have hscores : scores q.rounds = scores p.rounds ++ [s] := by
    unfold scores
    rw [hchecks, List.map_append]
    rfl
  have hpatience : q.stopping.patience = b.boosting.patience := by
    rw [hstopping, EarlyStopping.note_patience, h.patience]
  have hdirection : q.stopping.higherIsBetter = b.eval.biggerIsBetter := by
    rw [hstopping, EarlyStopping.note_higherIsBetter, h.direction]
  have hwatches : q.stopping.Watches (checkpoints q.rounds) := by
    rw [hstopping, hchecks]
    exact h.watches.note s r.learners
  have hexhausted : q.stopping.isExhausted = true ↔ b.Stops (scores q.rounds) := by
    rw [hwatches.isExhausted_iff, hpatience, hdirection]
    rfl
  refine ⟨hpatience, hdirection, hwatches, fun t ht hne => ?_, ?_, fun _ => ?_⟩
  · rw [hscores] at ht hne
    rcases List.prefix_concat_iff.mp ht with heq | ht
    · exact absurd heq hne
    · -- All scores of the rounds before were no reason to stop, since the fit went on.
      by_cases hwhole : t = scores p.rounds
      · rw [hwhole]
        exact h.goesOn_iff.mp rfl
      · exact h.earlier t ht hwhole
  · rw [← hexhausted, Bool.not_eq_true', Bool.not_eq_true]
  · exact ⟨p.rounds, r, hrounds, hround, by rw [hscore]; rfl⟩

variable [RandomSource σ]

theorem Monitors.round (h : b.Monitors n p true)
    (hround : (b.round fitter train val (n + 1) p).result = .ok (q, goesOn)) :
    b.Monitors (n + 1) q goesOn := by
  obtain ⟨program, values, stream, -, -, hcases⟩ := round_cases hround
  rcases hcases with ⟨-, rfl, rfl⟩ | ⟨-, step, grown, record, hadd, hnote, rfl⟩
  · exact h.skip rfl rfl
  · obtain ⟨validated, rfl, -⟩ := addLearner_eq_ok hadd
    obtain ⟨hnumber, -, hlearners, -, -, -, rfl⟩ := noteRound_eq_ok hnote
    cases hscore : record.validation with
    | none => exact h.skip rfl (checkpoints_concat_none hscore)
    | some s =>
      refine h.check hnumber hscore ?_ rfl
      rw [hlearners]

theorem monitors_of_reached {stream : σ} (h : Reached b fitter train val stream n p goesOn) :
    b.Monitors n p goesOn := by
  induction h with
  | start => exact monitors_start stream
  | round _ step ih => exact ih.round step

/-! ## Truncation -/

omit [RandomSource σ] in
/-- The learners up to a checkpoint have its score. -/
theorem Tracks.score_of_checkpoint (h : b.Tracks train val p) {c : Float × ℕ}
    (hc : c ∈ checkpoints p.rounds) :
    (p.ensemble.truncate c.2).size = c.2 ∧ ∃ v pred, val = some v ∧
      (p.ensemble.truncate c.2).predict v = .ok pred ∧
      b.eval.score v.target pred v.weights = .ok c.1 := by
  obtain ⟨r, hr, hrc⟩ := List.mem_filterMap.mp hc
  obtain ⟨s, hs, rfl⟩ := Option.map_eq_some_iff.mp hrc
  obtain ⟨i, hi⟩ := List.getElem?_of_mem hr
  have hdescribes := h.history i r hi
  have hlt : i < p.ensemble.size := by
    rw [← h.count]
    exact (List.getElem?_eq_some_iff.mp hi).1
  dsimp only
  rw [hdescribes.learners]
  refine ⟨?_, hdescribes.validation s hs⟩
  show (p.ensemble.learners.take (i + 1)).length = i + 1
  rw [List.length_take]
  exact Nat.min_eq_left hlt

/-! ## The fit -/

/-- A fit that ends well has gone through `n` rounds.  It stops right after the checkpoint that
is the first reason to stop, and if there is no such checkpoint it goes through all rounds.  A
fit that goes back to its best round keeps the learners up to the first checkpoint with the
best finite score, and they have this score; without a finite score, and in any other fit, all
learners of the history are kept. -/
theorem boost_stops_and_truncates {stream : σ} {out : Boosted}
    (h : (b.boost fitter stream train val).result = .ok out) :
    ∃ n p goesOn, Reached b fitter train (usable val) stream n p goesOn ∧
      out.rounds = p.rounds ∧ p.ensemble.size = out.rounds.length ∧
      (∀ t, t <+: scores out.rounds → t ≠ scores out.rounds → ¬b.Stops t) ∧
      (b.Stops (scores out.rounds) → n ≤ b.boosting.rounds ∧ ∃ front r,
        out.rounds = front ++ [r] ∧ r.round = n ∧ r.validation.isSome = true) ∧
      (¬b.Stops (scores out.rounds) → n = b.boosting.rounds) ∧
      (b.boosting.keepBest = true → (∃ s ∈ scores out.rounds, s.isFinite = true) →
        ∃ c v pred, FirstBest b.eval.biggerIsBetter c (checkpoints out.rounds) ∧
          out.ensemble = p.ensemble.truncate c.2 ∧ out.ensemble.size = c.2 ∧
          usable val = some v ∧ out.ensemble.predict v = .ok pred ∧
          b.eval.score v.target pred v.weights = .ok c.1) ∧
      (b.boosting.keepBest = false ∨ (∀ s ∈ scores out.rounds, s.isFinite = false) →
        out.ensemble = p.ensemble) := by
  obtain ⟨n, p, goesOn, hreached, hle, hall, rfl⟩ := boost_reached h
  have htracks := tracks_of_reached hreached
  have hmonitors := monitors_of_reached hreached
  have hbest := hmonitors.watches.best
  rw [hmonitors.direction] at hbest
  refine ⟨n, p, goesOn, hreached, rfl, htracks.count.symm, hmonitors.earlier, ?_, ?_, ?_, ?_⟩
  · intro hstops
    refine ⟨hle, hmonitors.last ?_⟩
    rw [← Bool.not_eq_true, hmonitors.goesOn_iff]
    exact not_not_intro hstops
  · intro hgoes
    exact hall (hmonitors.goesOn_iff.mpr hgoes)
  · rintro hkeep ⟨s, hs, hfinite⟩
    cases hb : p.stopping.best with
    | none =>
      rw [hb] at hbest
      obtain ⟨c, hc, rfl⟩ := List.mem_map.mp hs
      rw [hbest c hc] at hfinite
      contradiction
    | some c =>
      rw [hb] at hbest
      have hfirst : FirstBest b.eval.biggerIsBetter c (checkpoints p.rounds) := hbest
      have hkept : b.kept p = p.ensemble.truncate c.2 := by
        unfold kept EarlyStopping.bestCount
        rw [hkeep, hb]
        rfl
      obtain ⟨hsize, v, pred, hv, hpredict, hscore⟩ := htracks.score_of_checkpoint hfirst.mem
      dsimp only
      rw [hkept]
      exact ⟨c, v, pred, hfirst, rfl, hsize, hv, hpredict, hscore⟩
  · intro hwhole
    have hoff : (b.boosting.keepBest && p.stopping.best.isSome) = false := by
      rw [Bool.and_eq_false_iff]
      refine hwhole.imp id fun hnone => ?_
      cases hb : p.stopping.best with
      | none => rfl
      | some c =>
        rw [hb] at hbest
        have hfirst : FirstBest b.eval.biggerIsBetter c (checkpoints p.rounds) := hbest
        obtain ⟨front, back, heq, hfinite, -⟩ := id hfirst
        rw [hnone c.1 (List.mem_map_of_mem hfirst.mem)] at hfinite
        contradiction
    show b.kept p = p.ensemble
    unfold kept
    rw [hoff]
    rfl

/-- Nine rounds at most, and no more after two checkpoints that have not improved. -/
def steady : Booster where
  evolution := {}
  boosting := { rounds := 9, patience := 2, learningRate := 1.0, keepBest := true }
  loss := .mse
  slope := Metric.squaredSlope
  eval := .mae
  last := none

def oneRow (target : Float) : Dataset where
  columns := [[0.0]]
  target := [target]
  weights := none

/-- Every round goes up by one.  Two rounds lead to the target of the validation data and two
more lead away from it. -/
def climb : Logged Boosted :=
  steady.boost (fun _ _ => pure (.constant 1.0)) (ChaCha.Stream.ofSeedWord 1) (oneRow 0.0)
    (some (oneRow 2.0))

theorem boost_stops_and_truncates_climb : ∃ out, climb.result = .ok out ∧
    out.rounds.map (·.round) = [1, 2, 3, 4] ∧ ∃ c v pred,
      FirstBest false c (checkpoints out.rounds) ∧ c.2 = 2 ∧ out.ensemble.size = 2 ∧
      out.ensemble.predict v = .ok pred ∧ Metric.mae.score v.target pred v.weights = .ok c.1 := by
  have hclimb : (climb.result.toOption.map fun out =>
      (out.rounds.map (·.round), (scores out.rounds).any (·.isFinite), out.ensemble.size)) =
        some ([1, 2, 3, 4], true, 2) := by
    decide +kernel
  obtain ⟨out, hout⟩ : ∃ out, climb.result = .ok out := by
    refine Except.exists_eq_ok ?_
    rw [← Option.isSome_map, hclimb]
    rfl
  rw [hout] at hclimb
  obtain ⟨hrounds, hrest⟩ := Prod.mk.inj (Option.some.inj hclimb)
  obtain ⟨hfinite, hsize⟩ := Prod.mk.inj hrest
  obtain ⟨n, p, goesOn, -, -, -, -, -, -, hbest, -⟩ := boost_stops_and_truncates hout
  obtain ⟨c, v, pred, hfirst, -, hcount, -, hpredict, hscore⟩ :=
    hbest rfl (List.any_eq_true.mp hfinite)
  exact ⟨out, hout, hrounds, c, v, pred, hfirst, hcount.symm.trans hsize, hsize, hpredict, hscore⟩

end Booster
end SymbolicRegression
