import SymbolicRegression.Program.Evaluation
import SymbolicRegression.Proofs.Outcomes

/-!
What the unchecked evaluation of a program says about the features it reads.
-/

namespace SymbolicRegression

namespace Program

variable {d : Dataset}

mutual

/-- A program that can be evaluated reads no feature that is missing. -/
theorem maxFeature_lt_of_evaluate : ∀ {p : Program} {values : List Float},
    p.evaluate d = .ok values → ∀ i, p.maxFeature? = some i → i < d.featureCount
  | feature j, values, h, i, hi => by
    rw [evaluate, Dataset.column, memberAt_eq_ok] at h
    cases hi
    exact (List.getElem?_eq_some_iff.mp h).1
  | constant _, _, _, i, hi => by cases hi
  | call op ps, values, h, i, hi => by
    rw [evaluate] at h
    obtain ⟨columns, hps, _⟩ := Except.bind_eq_ok.mp h
    exact maxFeatureOf_lt_of_evaluateAll hps i hi

theorem maxFeatureOf_lt_of_evaluateAll : ∀ {ps : List Program} {columns : List (List Float)},
    evaluateAll d ps = .ok columns → ∀ i, maxFeatureOf? ps = some i → i < d.featureCount
  | [], _, _, i, hi => by cases hi
  | p :: ps, columns, h, i, hi => by
    rw [evaluateAll] at h
    obtain ⟨values, hp, h⟩ := Except.bind_eq_ok.mp h
    obtain ⟨rest, hps, _⟩ := Except.bind_eq_ok.mp h
    have head := maxFeature_lt_of_evaluate hp
    have tail := maxFeatureOf_lt_of_evaluateAll hps
    rw [maxFeatureOf?] at hi
    cases hx : p.maxFeature? with
    | none =>
      rw [hx] at hi
      exact tail i (by simpa using hi)
    | some x =>
      cases hy : maxFeatureOf? ps with
      | none =>
        rw [hx, hy] at hi
        exact head i (by rw [hx]; simpa using hi)
      | some y =>
        rw [hx, hy] at hi
        have := head x hx
        have := tail y hy
        cases hi
        omega

end

/-- The check of the features never refuses a program that can be evaluated. -/
theorem predict_of_evaluate {p : Program} {values : List Float} (h : p.evaluate d = .ok values) :
    p.predict d = .ok values := by
  have check : p.checkFeatures d.featureCount = .ok () := by
    unfold checkFeatures
    cases hm : p.maxFeature? with
    | none => rfl
    | some i => simp only [maxFeature_lt_of_evaluate h i hm, if_true]
  unfold predict
  rw [check, h]
  rfl

end Program
end SymbolicRegression
