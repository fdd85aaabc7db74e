import SymbolicRegression.Program.Evaluation
import SymbolicRegression.Proofs.Dataset
import SymbolicRegression.Proofs.Program.Vocabulary

/-!
Programs are evaluated row by row.

The columns of a table are worked through as wholes, operator by operator, while a single row
goes through the tree alone.  Both fail alike and come to the same values, for any tree whatever.
Only that there is a value at all asks for the right numbers of operands and for features that
the table has.
-/

namespace SymbolicRegression

variable {d : Dataset} {r n : ℕ}

/-- An entry of a column that is computed from two others, entry by entry. -/
theorem getD_zipWith {f : Float → Float → Float} {a b : List Float} (ha : r < a.length)
    (hb : r < b.length) :
    (List.zipWith f a b).getD r 0.0 = f (a.getD r 0.0) (b.getD r 0.0) := by
  rw [List.getD_eq_getElem?_getD, List.getElem?_zipWith]
  simp [ha, hb]

namespace Operator

variable {op : Operator} {columns : List (List Float)}

theorem arity_eq (op : Operator) : op.arity = 1 ∨ op.arity = 2 := by
  cases op <;> decide

/-- An operator takes from every column the operand of the row. -/
theorem apply_row (h : ∀ c ∈ columns, c.length = n) (hr : r < n) :
    op.apply (columns.map (·.getD r 0.0)) = (·.getD r 0.0) <$> op.applyColumns columns := by
  have hlt {c : List Float} (hc : c ∈ columns) : r < c.length := by
    rw [h c hc]
    exact hr
  by_cases harity : op.arity = 1
  · rcases columns with _ | ⟨a, columns⟩
    · simp [apply, applyColumns, harity]
    · have ha := hlt List.mem_cons_self
      simp [apply, applyColumns, harity, ha]
  · rcases columns with _ | ⟨a, _ | ⟨b, columns⟩⟩
    · simp [apply, applyColumns, harity]
    · simp [apply, applyColumns, harity]
    · have ha := hlt List.mem_cons_self
      have hb := hlt (List.mem_cons_of_mem a List.mem_cons_self)
      simp only [apply, applyColumns, List.map_cons]
      exact congrArg Except.ok (getD_zipWith ha hb).symm

theorem length_applyColumns (h : ∀ c ∈ columns, c.length = n) {values : List Float}
    (hvalues : op.applyColumns columns = .ok values) : values.length = n := by
  unfold applyColumns at hvalues
  split at hvalues
  · cases hvalues
    rw [List.length_map]
    exact h _ List.mem_cons_self
  · cases hvalues
  · cases hvalues
    rw [List.length_zipWith, h _ List.mem_cons_self,
      h _ (List.mem_cons_of_mem _ List.mem_cons_self), Nat.min_self]
  · cases hvalues

/-- With one column for every operand an operator has a value. -/
theorem exists_applyColumns (h : columns.length = op.arity) :
    ∃ values, op.applyColumns columns = .ok values := by
  rcases op.arity_eq with harity | harity
  · obtain ⟨a, rfl⟩ := List.length_eq_one_iff.mp (h.trans harity)
    exact ⟨a.map op.unary, by simp [applyColumns, harity]⟩
  · obtain ⟨a, b, rfl⟩ := List.length_eq_two.mp (h.trans harity)
    exact ⟨List.zipWith op.binary a b, by simp [applyColumns, harity]⟩

end Operator

namespace Program

variable {v : Vocabulary}

mutual

/-- The features that occur, as often as they do. -/
def features : Program → List ℕ
  | feature i => [i]
  | constant _ => []
  | call _ ps => featuresOf ps

def featuresOf : List Program → List ℕ
  | [] => []
  | p :: ps => p.features ++ featuresOf ps

end

mutual

theorem BuiltFrom.of_mem_features : ∀ {p : Program} {i : ℕ}, p.BuiltFrom v → i ∈ p.features →
    v.feature i
  | feature _, _, hp, hi => List.mem_singleton.mp hi ▸ hp
  | constant _, _, _, hi => nomatch hi
  | call _ _, _, ⟨_, _, hps⟩, hi => AllBuiltFrom.of_mem_featuresOf hps hi

theorem AllBuiltFrom.of_mem_featuresOf : ∀ {ps : List Program} {i : ℕ}, AllBuiltFrom v ps →
    i ∈ featuresOf ps → v.feature i
  | _ :: _, _, ⟨hp, hps⟩, hi =>
    (List.mem_append.mp hi).elim hp.of_mem_features (AllBuiltFrom.of_mem_featuresOf hps)

end

/-! ## Values -/

mutual

theorem length_evaluate (hd : d.Rectangular) : ∀ {p : Program} {values : List Float},
    p.evaluate d = .ok values → values.length = d.rowCount
  | feature _, _, h => hd _ (mem_of_memberAt h)
  | constant c, _, h => by
    cases h
    exact List.length_replicate
  | call op ps, values, h => by
    rw [evaluate] at h
    obtain ⟨columns, hcolumns, h⟩ := Except.bind_eq_ok.mp h
    exact Operator.length_applyColumns (length_evaluateAll hd hcolumns) h

theorem length_evaluateAll (hd : d.Rectangular) : ∀ {ps : List Program}
    {columns : List (List Float)}, evaluateAll d ps = .ok columns →
      ∀ c ∈ columns, c.length = d.rowCount
  | [], _, h => by
    cases h
    nofun
  | p :: ps, _, h => by
    rw [evaluateAll] at h
    obtain ⟨values, hvalues, h⟩ := Except.bind_eq_ok.mp h
    obtain ⟨columns, hcolumns, h⟩ := Except.bind_eq_ok.mp h
    cases h
    exact List.forall_mem_cons.mpr ⟨length_evaluate hd hvalues, length_evaluateAll hd hcolumns⟩

end

mutual

/-- The value on a row stands in the values on the table, and an error is the same error. -/
theorem evaluateRow_row (hd : d.Rectangular) (hr : r < d.rowCount) : ∀ p : Program,
    p.evaluateRow (d.columns.map (·.getD r 0.0)) = (·.getD r 0.0) <$> p.evaluate d
  | feature i => by
    rw [evaluateRow, evaluate, Dataset.column, memberAt, memberAt, List.getElem?_map,
      List.length_map]
    cases d.columns[i]? with
    | none => rfl
    | some c => rfl
  | constant c => by
    have hvalue : (List.replicate d.rowCount c).getD r 0.0 = c := by simp [hr]
    rw [evaluateRow, evaluate, Except.map_ok, hvalue]
  | call op ps => by
    rw [evaluateRow, evaluate, evaluateRowAll_row hd hr ps]
    cases hcolumns : evaluateAll d ps with
    | error e => rfl
    | ok columns => exact Operator.apply_row (length_evaluateAll hd hcolumns) hr

theorem evaluateRowAll_row (hd : d.Rectangular) (hr : r < d.rowCount) : ∀ ps : List Program,
    evaluateRowAll (d.columns.map (·.getD r 0.0)) ps =
      (·.map (·.getD r 0.0)) <$> evaluateAll d ps
  | [] => rfl
  | p :: ps => by
    rw [evaluateRowAll, evaluateAll, evaluateRow_row hd hr p, evaluateRowAll_row hd hr ps]
    cases p.evaluate d with
    | error e => rfl
    | ok values =>
      cases evaluateAll d ps with
      | error e => rfl
      | ok columns => rfl

end

mutual

theorem exists_evaluate : ∀ {p : Program}, p.BuiltFrom v → (∀ i ∈ p.features, i < d.featureCount) →
    ∃ values, p.evaluate d = .ok values
  | feature i, _, h =>
    ⟨_, memberAt_eq_ok.mpr (List.getElem?_eq_getElem (h i List.mem_cons_self))⟩
  | constant c, _, _ => ⟨_, rfl⟩
  | call op ps, ⟨_, hlen, hps⟩, h => by
    obtain ⟨columns, hcolumns, hcount⟩ := exists_evaluateAll hps h
    obtain ⟨values, hvalues⟩ := Operator.exists_applyColumns (hcount.trans hlen)
    refine ⟨values, ?_⟩
    rw [evaluate, hcolumns]
    exact hvalues

theorem exists_evaluateAll : ∀ {ps : List Program}, AllBuiltFrom v ps →
    (∀ i ∈ featuresOf ps, i < d.featureCount) →
      ∃ columns, evaluateAll d ps = .ok columns ∧ columns.length = ps.length
  | [], _, _ => ⟨[], rfl, rfl⟩
  | p :: ps, ⟨hp, hps⟩, h => by
    obtain ⟨values, hvalues⟩ := exists_evaluate hp fun i hi => h i (List.mem_append_left _ hi)
    obtain ⟨columns, hcolumns, hcount⟩ :=
      exists_evaluateAll hps fun i hi => h i (List.mem_append_right _ hi)
    refine ⟨values :: columns, ?_, congrArg (· + 1) hcount⟩
    rw [evaluateAll, hvalues, hcolumns]
    rfl

end

/-! ## Predictions -/

/-- The greatest number of a list, if it holds one. -/
def Greatest (found : Option ℕ) (l : List ℕ) : Prop :=
  match found with
  | some i => i ∈ l ∧ ∀ j ∈ l, j ≤ i
  | none => l = []

theorem Greatest.append {a b : Option ℕ} {k l : List ℕ} (ha : Greatest a k) (hb : Greatest b l) :
    Greatest (Option.merge max a b) (k ++ l) := by
  cases a with
  | none =>
    obtain rfl : k = [] := ha
    cases b with
    | none => exact hb
    | some j => exact hb
  | some i =>
    cases b with
    | none =>
      obtain rfl : l = [] := hb
      rw [List.append_nil]
      exact ha
    | some j =>
      obtain ⟨hi, hle⟩ := ha
      obtain ⟨hj, hle'⟩ := hb
      refine ⟨?_, fun k hk => ?_⟩
      · show max i j ∈ _
        rcases Nat.le_total i j with hij | hij
        · rw [Nat.max_eq_right hij]
          exact List.mem_append_right _ hj
        · rw [Nat.max_eq_left hij]
          exact List.mem_append_left _ hi
      · rcases List.mem_append.mp hk with hk | hk
        · exact Nat.le_trans (hle k hk) (Nat.le_max_left i j)
        · exact Nat.le_trans (hle' k hk) (Nat.le_max_right i j)

mutual

theorem greatest_maxFeature? : ∀ p : Program, Greatest p.maxFeature? p.features
  | feature i => ⟨List.mem_cons_self, by simp [features]⟩
  | constant _ => rfl
  | call _ ps => greatest_maxFeatureOf? ps

theorem greatest_maxFeatureOf? : ∀ ps : List Program, Greatest (maxFeatureOf? ps) (featuresOf ps)
  | [] => rfl
  | p :: ps => (greatest_maxFeature? p).append (greatest_maxFeatureOf? ps)

end

/-- What a prediction for a table comes to: a value for every row if the table has all the
features, and else an error that names one it does not have. -/
def Predicts (d : Dataset) (features : List ℕ) : Except Failure (List Float) → Prop
  | .ok values => values.length = d.rowCount ∧ ∀ i ∈ features, i < d.featureCount
  | .error e => ∃ i ∈ features, d.featureCount ≤ i ∧
      e = .error (.configuration (.missingFeature i d.featureCount))

theorem predicts_predict {p : Program} (hp : p.BuiltFrom v) (hd : d.Rectangular) :
    Predicts d p.features (p.predict d) := by
  have hgreatest := greatest_maxFeature? p
  unfold predict checkFeatures
  by_cases h : ∀ i ∈ p.features, i < d.featureCount
  · obtain ⟨values, hvalues⟩ := exists_evaluate hp h
    have hpredicts : Predicts d p.features (.ok values) := ⟨length_evaluate hd hvalues, h⟩
    rw [hvalues]
    cases hmax : p.maxFeature? with
    | none => exact hpredicts
    | some i =>
      rw [hmax] at hgreatest
      dsimp only
      rw [if_pos (h i hgreatest.1)]
      exact hpredicts
  · cases hmax : p.maxFeature? with
    | none =>
      rw [hmax] at hgreatest
      rw [show p.features = [] from hgreatest] at h
      exact absurd nofun h
    | some i =>
      rw [hmax] at hgreatest
      obtain ⟨hmem, hle⟩ := hgreatest
      have hge : ¬i < d.featureCount := fun hi => h fun j hj => Nat.lt_of_le_of_lt (hle j hj) hi
      dsimp only
      rw [if_neg hge]
      exact ⟨i, hmem, Nat.le_of_not_lt hge, rfl⟩

theorem predictRow_row (hd : d.Rectangular) (hr : r < d.rowCount) (p : Program) :
    p.predictRow (d.columns.map (·.getD r 0.0)) = (·.getD r 0.0) <$> p.predict d := by
  unfold predictRow predict Dataset.featureCount
  rw [List.length_map, evaluateRow_row hd hr]
  cases p.checkFeatures d.columns.length with
  | error e => rfl
  | ok u =>
    cases p.evaluate d with
    | error e => rfl
    | ok values => rfl

end Program

end SymbolicRegression
