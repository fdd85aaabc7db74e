import SymbolicRegression.Proofs.Model
import SymbolicRegression.Proofs.Program.Rows

/-!
Models predict row by row.

An ensemble adds the values of its learners up in one order, whether it does so for a table or
for a row, and it meets a learner without its features at the same place.
-/

namespace SymbolicRegression

open Program

variable {v : Vocabulary} {d : Dataset} {r : ℕ}

namespace Ensemble

/-! ## Adding learners up -/

theorem length_accumulate {step : Float} {pred values : List Float} {n : ℕ}
    (hpred : pred.length = n) (hvalues : values.length = n) :
    (accumulate step pred values).length = n := by
  rw [accumulate, List.length_zipWith, hpred, hvalues, Nat.min_self]

theorem getD_accumulate {step : Float} {pred values : List Float} (hpred : r < pred.length)
    (hvalues : r < values.length) :
    (accumulate step pred values).getD r 0.0 = pred.getD r 0.0 + step * values.getD r 0.0 := by
  simp [accumulate, hpred, hvalues]

def addAll (d : Dataset) (ls : List Learner) (pred : List Float) : Except Failure (List Float) :=
  ls.foldlM (fun pred l => do return accumulate l.step pred (← l.program.predict d)) pred

def addAllRow (row : List Float) (ls : List Learner) (sum : Float) : Except Failure Float :=
  ls.foldlM (fun sum l => do return sum + l.step * (← l.program.predictRow row)) sum

theorem predicts_addAll (hd : d.Rectangular) : ∀ {ls : List Learner} {pred : List Float},
    (∀ l ∈ ls, l.program.BuiltFrom v) → pred.length = d.rowCount →
      Predicts d (ls.flatMap (·.program.features)) (addAll d ls pred)
  | [], _, _, hpred => ⟨hpred, nofun⟩
  | l :: ls, pred, hls, hpred => by
    have hl := predicts_predict (hls l List.mem_cons_self) hd
    rw [addAll, List.foldlM_cons, List.flatMap_cons]
    cases hvalues : l.program.predict d with
    | error e =>
      rw [hvalues] at hl
      obtain ⟨i, hi, hge, he⟩ := hl
      exact ⟨i, List.mem_append_left _ hi, hge, he⟩
    | ok values =>
      rw [hvalues] at hl
      have hlength : (accumulate l.step pred values).length = d.rowCount :=
        length_accumulate hpred hl.1
      have hrest := predicts_addAll hd (fun k hk => hls k (List.mem_cons_of_mem l hk)) hlength
      show Predicts d _ (addAll d ls (accumulate l.step pred values))
      cases hall : addAll d ls (accumulate l.step pred values) with
      | error e =>
        rw [hall] at hrest
        obtain ⟨i, hi, hge, he⟩ := hrest
        exact ⟨i, List.mem_append_right _ hi, hge, he⟩
      | ok sums =>
        rw [hall] at hrest
        exact ⟨hrest.1, List.forall_mem_append.mpr ⟨hl.2, hrest.2⟩⟩

theorem length_addAll (hd : d.Rectangular) : ∀ {ls : List Learner} {pred sums : List Float},
    addAll d ls pred = .ok sums → pred.length = d.rowCount → sums.length = d.rowCount
  | [], _, _, h, hpred => by
    cases h
    exact hpred
  | l :: ls, pred, sums, h, hpred => by
    rw [addAll, List.foldlM_cons] at h
    obtain ⟨next, hnext, h⟩ := Except.bind_eq_ok.mp h
    obtain ⟨values, hvalues, hnext⟩ := Except.bind_eq_ok.mp hnext
    obtain ⟨_, _, hvalues⟩ := Except.bind_eq_ok.mp hvalues
    cases hnext
    exact length_addAll hd h
      (length_accumulate hpred (length_evaluate hd (Except.mapError_eq_ok.mp hvalues)))

/-- The sums of a row stand in the sums of the table, learner by learner. -/
theorem addAllRow_row (hd : d.Rectangular) (hr : r < d.rowCount) :
    ∀ (ls : List Learner) (pred : List Float), (∀ l ∈ ls, l.program.BuiltFrom v) →
      pred.length = d.rowCount → addAllRow (d.columns.map (·.getD r 0.0)) ls (pred.getD r 0.0) =
        (·.getD r 0.0) <$> addAll d ls pred
  | [], _, _, _ => rfl
  | l :: ls, pred, hls, hpred => by
    have hl := predicts_predict (hls l List.mem_cons_self) hd
    rw [addAllRow, addAll, List.foldlM_cons, List.foldlM_cons, predictRow_row hd hr]
    cases hvalues : l.program.predict d with
    | error e => rfl
    | ok values =>
      rw [hvalues] at hl
      have hrest := addAllRow_row hd hr ls (accumulate l.step pred values)
        (fun k hk => hls k (List.mem_cons_of_mem l hk)) (length_accumulate hpred hl.1)
      rw [getD_accumulate (by omega) (by have := hl.1; omega)] at hrest
      exact hrest

theorem predicts_predict {e : Ensemble} (he : ∀ l ∈ e.learners, l.program.BuiltFrom v)
    (hd : d.Rectangular) :
    Predicts d (e.learners.flatMap (·.program.features)) (e.predict d) :=
  predicts_addAll hd he List.length_replicate

theorem length_predict {e : Ensemble} {pred : List Float} (hd : d.Rectangular)
    (h : e.predict d = .ok pred) : pred.length = d.rowCount :=
  length_addAll hd h List.length_replicate

theorem predictRow_row {e : Ensemble} (he : ∀ l ∈ e.learners, l.program.BuiltFrom v)
    (hd : d.Rectangular) (hr : r < d.rowCount) :
    e.predictRow (d.columns.map (·.getD r 0.0)) = (·.getD r 0.0) <$> e.predict d := by
  have hbase : (List.replicate d.rowCount e.base).getD r 0.0 = e.base := by simp [hr]
  have hall := addAllRow_row hd hr e.learners (.replicate d.rowCount e.base) he
    List.length_replicate
  rw [hbase] at hall
  exact hall

end Ensemble

/-! ## Models -/

namespace Model

variable {m : Model}

def predictRow (m : Model) (row : List Float) : Except Failure Float :=
  match m with
  | program p => p.predictRow row
  | ensemble e => e.predictRow row

theorem predicts_predict (hm : ∀ p ∈ m.programs, p.BuiltFrom v) (hd : d.Rectangular) :
    Predicts d (m.programs.flatMap features) (m.predict d) := by
  cases m with
  | program p =>
    rw [programs, List.flatMap_singleton]
    exact Program.predicts_predict (hm p List.mem_cons_self) hd
  | ensemble e =>
    rw [programs, List.flatMap_map]
    exact Ensemble.predicts_predict (List.forall_mem_map.mp hm) hd

theorem predictRow_row (hm : ∀ p ∈ m.programs, p.BuiltFrom v) (hd : d.Rectangular)
    (hr : r < d.rowCount) :
    m.predictRow (d.columns.map (·.getD r 0.0)) = (·.getD r 0.0) <$> m.predict d := by
  cases m with
  | program p => exact Program.predictRow_row hd hr p
  | ensemble e => exact Ensemble.predictRow_row (List.forall_mem_map.mp hm) hd hr

/-- A model predicts for a table just if the table has all its features, and then it predicts
for every row, bit for bit, what it predicts for the row alone.  Else table and rows are refused
with one error, which names a missing feature. -/
theorem predict_row_by_row (hm : ∀ p ∈ m.programs, p.BuiltFrom v) (hd : d.Rectangular) :
    ((∃ values, m.predict d = .ok values) ↔
      ∀ p ∈ m.programs, ∀ i ∈ p.features, i < d.featureCount) ∧
    (∀ values, m.predict d = .ok values → values.length = d.rowCount ∧
      ∀ r < d.rowCount, ∃ row x, d.row r = .ok row ∧ m.predictRow row = .ok x ∧
        values[r]? = some x) ∧
    ∀ e, m.predict d = .error e →
      (∃ p ∈ m.programs, ∃ i ∈ p.features, d.featureCount ≤ i ∧
        e = .error (.configuration (.missingFeature i d.featureCount))) ∧
      ∀ r < d.rowCount, ∃ row, d.row r = .ok row ∧ m.predictRow row = .error e := by
  have hpredicts := predicts_predict hm hd
  have hrows {r : ℕ} (hr : r < d.rowCount) := predictRow_row hm hd hr
  cases hx : m.predict d with
  | ok values =>
    rw [hx] at hpredicts
    obtain ⟨hlength, hall⟩ := hpredicts
    refine ⟨iff_of_true ⟨values, rfl⟩ (List.forall_mem_flatMap.mp hall), ?_, nofun⟩
    rintro _ ⟨⟩
    refine ⟨hlength, fun r hr => ⟨_, values.getD r 0.0, Dataset.row_eq hd hr, ?_, ?_⟩⟩
    · rw [hrows hr, hx]
      rfl
    · have hlt : r < values.length := by omega
      simp [hlt]
  | error e =>
    rw [hx] at hpredicts
    obtain ⟨i, hi, hge, he⟩ := hpredicts
    obtain ⟨p, hp, hi⟩ := List.mem_flatMap.mp hi
    refine ⟨iff_of_false nofun fun h => ?_, nofun, ?_⟩
    · have := h p hp i hi
      omega
    · rintro _ ⟨⟩
      refine ⟨⟨p, hp, i, hi, hge, he⟩, fun r hr => ⟨_, Dataset.row_eq hd hr, ?_⟩⟩
      rw [hrows hr, hx]
      rfl

/-- The logarithm of a quotient, some of whose values are no numbers, and a third feature. -/
def blend : Model :=
  ensemble ⟨0.5, [⟨.call .log [.call .div [.feature 0, .feature 1]], 0.1⟩,
    ⟨.call .sub [.feature 2, .constant Binary64.infinity], -0.0⟩]⟩

/-- Two rows of so many of the three features. -/
def someColumns (n : ℕ) : Dataset where
  columns := [[1.0, -1.0], [0.0, 2.0], [-0.0, 5e-324]].take n
  target := [1.0, 2.0]
  weights := none

theorem predict_row_by_row_blend :
    (∃ values, blend.predict (someColumns 3) = .ok values ∧ values.length = 2 ∧
      ∃ row x, (someColumns 3).row 1 = .ok row ∧ blend.predictRow row = .ok x ∧
        values[1]? = some x) ∧
    ∃ e row, blend.predict (someColumns 2) = .error e ∧ (someColumns 2).row 1 = .ok row ∧
      blend.predictRow row = .error e := by
  let v : Vocabulary := ⟨fun _ => True, fun _ => True, fun _ => True⟩
  have hbuilt : ∀ p ∈ blend.programs, p.BuiltFrom v := by
    simp [v, blend, programs, BuiltFrom, AllBuiltFrom, Operator.arity]
  have hmade (n : ℕ) (h : Dataset.ofColumns (someColumns n).columns [1.0, 2.0] none =
      .ok (someColumns n)) : (someColumns n).Rectangular := Dataset.rectangular_of_ofColumns h
  refine ⟨?_, ?_⟩
  · obtain ⟨hiff, hvalues, -⟩ := predict_row_by_row hbuilt (hmade 3 rfl)
    obtain ⟨values, h⟩ := hiff.mpr (by decide)
    obtain ⟨hlength, hrows⟩ := hvalues values h
    exact ⟨values, h, hlength, hrows 1 (by decide)⟩
  · obtain ⟨hiff, -, herror⟩ := predict_row_by_row hbuilt (hmade 2 rfl)
    cases h : blend.predict (someColumns 2) with
    | ok values => exact absurd (hiff.mp ⟨values, h⟩) (by decide)
    | error e =>
      obtain ⟨row, hrow, hpredict⟩ := (herror e h).2 1 (by decide)
      exact ⟨e, row, rfl, hrow, hpredict⟩

end Model
end SymbolicRegression
