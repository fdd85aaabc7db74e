import SymbolicRegression.Proofs.Boosting.EarlyStopping

/-!
Early stopping over whole sequences of checkpoints.

A checkpoint is noted and it is asked at once whether the training should stop.  The state keeps a
counter and the best checkpoint only, but its answers are those that the sequence itself gives:
the counter is the number of checkpoints since the last one that improved on all before it
(`Watches.since`).  A sequence may go on after the answer was to stop.
-/

namespace SymbolicRegression
namespace EarlyStopping

variable {bigger : Bool} {k n : ℕ} {scores : List Float} {checks past : List (Float × ℕ)}
  {e : EarlyStopping Float}

/-! ## Sequences of checkpoints -/

def noteAll (e : EarlyStopping Float) (checks : List (Float × ℕ)) : EarlyStopping Float :=
  checks.foldl (fun e c => e.note c.1 c.2) e

/-- Whether the training should stop, asked after each checkpoint. -/
def answers (e : EarlyStopping Float) : List (Float × ℕ) → List Bool
  | [] => []
  | c :: checks => (e.note c.1 c.2).isExhausted :: (e.note c.1 c.2).answers checks

theorem length_answers (e : EarlyStopping Float) (checks : List (Float × ℕ)) :
    (e.answers checks).length = checks.length := by
  induction checks generalizing e with
  | nil => rfl
  | cons c checks ih => exact congrArg (· + 1) (ih (e.note c.1 c.2))

theorem getElem?_answers (e : EarlyStopping Float) (checks : List (Float × ℕ)) (i : ℕ) :
    (e.answers checks)[i]? =
      checks[i]?.map fun _ => (e.noteAll (checks.take (i + 1))).isExhausted := by
  induction checks generalizing e i with
  | nil => rfl
  | cons c checks ih =>
    cases i with
    | zero => rfl
    | succ i => exact ih (e.note c.1 c.2) i

theorem Watches.noteAll (h : e.Watches past) (checks : List (Float × ℕ)) :
    (e.noteAll checks).Watches (past ++ checks) := by
  induction checks generalizing e past with
  | nil =>
    rw [List.append_nil]
    exact h
  | cons c checks ih =>
    have hassoc : past ++ c :: checks = past ++ [c] ++ checks := by simp
    rw [hassoc]
    exact ih (h.note c.1 c.2)

theorem noteAll_patience (e : EarlyStopping Float) (checks : List (Float × ℕ)) :
    (e.noteAll checks).patience = e.patience := by
  induction checks generalizing e with
  | nil => rfl
  | cons c checks ih => exact (ih (e.note c.1 c.2)).trans (e.note_patience c.1 c.2)

theorem noteAll_higherIsBetter (e : EarlyStopping Float) (checks : List (Float × ℕ)) :
    (e.noteAll checks).higherIsBetter = e.higherIsBetter := by
  induction checks generalizing e with
  | nil => rfl
  | cons c checks ih => exact (ih (e.note c.1 c.2)).trans (e.note_higherIsBetter c.1 c.2)

/-! ## The counter -/

/-- So many scores have come since the last one that improved, or since the start if none
has. -/
inductive Since (bigger : Bool) (scores : List Float) : ℕ → Prop where
  | improvement (i k : ℕ) (himproves : ImprovesAt bigger scores i)
      (hlast : ∀ j, i < j → ¬ImprovesAt bigger scores j) (hlength : i + k + 1 = scores.length) :
      Since bigger scores k
  | start (hnever : ∀ i, ¬ImprovesAt bigger scores i) : Since bigger scores scores.length

theorem ImprovesAt.lt {i : ℕ} (h : ImprovesAt bigger scores i) : i < scores.length := by
  obtain ⟨x, hx, -⟩ := h
  exact (List.getElem?_eq_some_iff.mp hx).1

theorem Since.stale (h : Since bigger scores k) : Stale bigger scores k := by
  cases h with
  | improvement i k himproves hlast hlength =>
    refine ⟨by omega, fun j hj hle => hlast j ?_⟩
    omega
  | start hnever => exact ⟨Nat.le_refl _, fun i _ _ => hnever i⟩

/-- The longest stale end of the scores goes back to the last improvement. -/
theorem since_of_stale (h : ∀ n, n ≤ k ↔ Stale bigger scores n) : Since bigger scores k := by
  obtain ⟨hle, hstale⟩ := (h k).mp (Nat.le_refl k)
  have hmore : ¬Stale bigger scores (k + 1) := (h (k + 1)).not.mp (Nat.not_succ_le_self k)
  by_cases hall : k = scores.length
  · rw [hall]
    apply Since.start
    intro i himproves
    exact hstale i himproves.lt (by omega) himproves
  · obtain ⟨i, hi, hend, himproves⟩ : ∃ i, i < scores.length ∧ scores.length ≤ i + (k + 1) ∧
        ImprovesAt bigger scores i := by
      by_contra hnone
      refine hmore ⟨by omega, fun i hi hend himproves => hnone ⟨i, hi, hend, himproves⟩⟩
    have hstart : i + k < scores.length := by
      by_contra hbehind
      exact hstale i hi (by omega) himproves
    refine Since.improvement i k himproves ?_ (by omega)
    intro j hj himproves'
    exact hstale j himproves'.lt (by omega) himproves'

theorem Watches.since (h : e.Watches checks) :
    Since e.higherIsBetter (checks.map (·.1)) e.waited :=
  since_of_stale h.waited

theorem Watches.isExhausted_iff_since (h : e.Watches checks) : e.isExhausted = true ↔
    0 < e.patience ∧ ∃ k, Since e.higherIsBetter (checks.map (·.1)) k ∧ e.patience ≤ k := by
  rw [h.isExhausted_iff]
  refine and_congr_right fun _ => ⟨fun hstale => ?_, fun ⟨k, hsince, hle⟩ => ?_⟩
  · exact ⟨e.waited, h.since, (h.waited e.patience).mpr hstale⟩
  · rw [← h.waited]
    exact hle.trans ((h.waited k).mpr hsince.stale)

/-! ## The best checkpoint -/

theorem Watches.best_eq (h : e.Watches checks) :
    (∃ c, FirstBest e.higherIsBetter c checks ∧ e.bestValue = some c.1 ∧ e.bestCount = c.2) ∨
      (∀ c ∈ checks, c.1.isFinite = false) ∧ e.bestValue = none ∧ e.bestCount = 0 := by
  have hknows := h.best
  unfold bestValue bestCount
  cases hbest : e.best with
  | none =>
    rw [hbest] at hknows
    exact .inr ⟨hknows, rfl, rfl⟩
  | some c =>
    rw [hbest] at hknows
    exact .inl ⟨c, hknows, rfl, rfl⟩

/-! ## Whole sequences -/

/-- Whatever the scores are, training is to stop after a checkpoint if patience is set and as many
checkpoints as it allows have come since the last improvement.  The best value and count are those
of the first checkpoint with the best finite score; without one there is no value and the count is
zero. -/
theorem answers_are_exact (patience : ℕ) (bigger : Bool) (checks : List (Float × ℕ)) :
    ((start patience bigger).answers checks).length = checks.length ∧
    (∀ i, ((start patience bigger).answers checks)[i]? = some true ↔
      i < checks.length ∧ 0 < patience ∧
        ∃ k, Since bigger ((checks.take (i + 1)).map (·.1)) k ∧ patience ≤ k) ∧
    ((∃ c, FirstBest bigger c checks ∧
        ((start patience bigger).noteAll checks).bestValue = some c.1 ∧
        ((start patience bigger).noteAll checks).bestCount = c.2) ∨
      (∀ c ∈ checks, c.1.isFinite = false) ∧
        ((start patience bigger).noteAll checks).bestValue = none ∧
        ((start patience bigger).noteAll checks).bestCount = 0) := by
  have hwatches (past : List (Float × ℕ)) : ((start patience bigger).noteAll past).Watches past :=
    (watches_start patience bigger).noteAll past
  have hpatience (past : List (Float × ℕ)) :
      ((start patience bigger).noteAll past).patience = patience :=
    noteAll_patience _ past
  have hbigger (past : List (Float × ℕ)) :
      ((start patience bigger).noteAll past).higherIsBetter = bigger :=
    noteAll_higherIsBetter _ past
  refine ⟨length_answers _ checks, ?_, ?_⟩
  · intro i
    have hanswer := (hwatches (checks.take (i + 1))).isExhausted_iff_since
    rw [hpatience, hbigger] at hanswer
    rw [getElem?_answers]
    by_cases hi : i < checks.length
    · rw [List.getElem?_eq_getElem hi, Option.map_some, Option.some_inj, hanswer]
      exact (and_iff_right hi).symm
    · rw [List.getElem?_eq_none (Nat.le_of_not_lt hi)]
      exact ⟨nofun, fun h => absurd h.1 hi⟩
  · have hbest := (hwatches checks).best_eq
    rwa [hbigger] at hbest

/-- What is no number and what is as good as the best does not improve. -/
example : (start 2 false).answers [(1.0, 1), (0.5, 2), (0.0 / 0.0, 3), (0.5, 4), (0.25, 5)] =
    [false, false, false, true, false] := by
  decide +kernel

end EarlyStopping
end SymbolicRegression
