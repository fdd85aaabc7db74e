import Mathlib.Data.List.Basic
import SymbolicRegression.Proofs.Dataset
import SymbolicRegression.Proofs.Numeric.Order

/-!
Tables keep their shape.

A table is made of columns of one length, or of rows that are turned into columns, and both are
refused if they do not fit.  `Derived` are the tables that come out of any chain of calls, and
`Keeps` says what holds of each of them.  A part of a part is a part: the indices are looked up one
after the other, and it does not matter whether the second choice is made among the first indices
or among the values that these have picked.
-/

namespace SymbolicRegression
namespace Dataset

variable {d d' : Dataset}

theorem isWeight_iff {x : Float} : isWeight x = true ↔ x.isFinite = true ∧ 0.0 ≤ x := by
  unfold isWeight
  rw [Bool.and_eq_true, Bool.not_eq_true', decide_eq_false_iff_not, and_comm]
  refine and_congr_right fun hfinite => ⟨Binary64.le_of_not_lt hfinite (by rfl), fun h hlt => ?_⟩
  rw [Binary64.le_iff_value (by rfl) hfinite] at h
  rw [Binary64.lt_iff_value hfinite (by rfl)] at hlt
  exact absurd hlt (not_lt_of_ge h)

/-! ## Rows -/

section

variable {rows : List (List Float)} {target : List Float} {weights : Option (List Float)}
  {r : List Float} {i j n : ℕ}

/-- Rows of `n` values, a target and weights that a table can be made of. -/
structure FitRows (n : ℕ) (rows : List (List Float)) (target : List Float)
    (weights : Option (List Float)) : Prop where
  width_pos : 0 < n
  target_ne_nil : target ≠ []
  lengths : ∀ r ∈ rows, r.length = n
  count : rows.length = target.length
  weights : WeightsFit target.length weights

/-- The columns of rows of `n` values. -/
def transposed (n : ℕ) (rows : List (List Float)) : List (List Float) :=
  (List.range n).map fun j => rows.map (·.getD j 0.0)

theorem columnOfRows_eq (h : ∀ r ∈ rows, j < r.length) :
    columnOfRows rows j = rows.map (·.getD j 0.0) := by
  unfold columnOfRows
  rw [← List.filterMap_eq_map]
  refine List.filterMap_congr fun r hr => ?_
  rw [List.getElem?_eq_getElem (h r hr), Function.comp_apply, List.getD_eq_getElem _ _ (h r hr)]

theorem map_columnOfRows (h : ∀ r ∈ rows, r.length = n) :
    (List.range n).map (columnOfRows rows) = transposed n rows := by
  refine List.map_congr_left fun j hj => columnOfRows_eq fun r hr => ?_
  rw [h r hr]
  exact List.mem_range.mp hj

theorem FitRows.fits (h : FitRows n rows target weights) :
    Fits (transposed n rows) target weights where
  columns_ne_nil := by simpa [transposed] using h.width_pos.ne'
  target_ne_nil := h.target_ne_nil
  lengths := by
    intro c hc
    obtain ⟨j, -, rfl⟩ := List.mem_map.mp hc
    rw [List.length_map, h.count]
  weights := h.weights

theorem FitRows.ofRows_eq (h : FitRows n rows target weights) : ofRows rows target weights =
    .ok ⟨transposed n rows, target, weights.filter fun w => !w.isEmpty⟩ := by
  obtain ⟨r, rest, rfl⟩ : ∃ r rest, rows = r :: rest := by
    apply List.exists_cons_of_ne_nil
    rintro rfl
    exact h.target_ne_nil (List.eq_nil_of_length_eq_zero h.count.symm)
  have hwidth : r.length = n := h.lengths r List.mem_cons_self
  have hragged : ((r :: rest).any fun q => q.length != r.length) = false := by
    rw [List.any_eq_false]
    intro q hq
    simp [h.lengths q hq, hwidth]
  have hcount : ((r :: rest).length != target.length) = false := by simp [h.count]
  unfold ofRows
  simp only [List.head?_cons, Option.map_some, Option.getD_some, hragged, hcount,
    Bool.false_eq_true, if_false]
  rw [hwidth, map_columnOfRows h.lengths]
  exact h.fits.ofColumns_eq

theorem fitRows_of_ofRows (h : ofRows rows target weights = .ok d) :
    ∃ n, FitRows n rows target weights := by
  unfold ofRows at h
  dsimp only at h
  split at h
  · cases h
  · next hragged =>
    split at h
    · cases h
    · next hcount =>
      have hlengths : ∀ r ∈ rows, r.length = (rows.head?.map List.length).getD 0 := by
        simpa using hragged
      have hfits := fits_of_ofColumns h
      refine ⟨_, ?_, hfits.target_ne_nil, hlengths, by simpa using hcount, hfits.weights⟩
      simpa [Nat.pos_iff_ne_zero] using hfits.columns_ne_nil

theorem ofRows_eq_ok_iff : ofRows rows target weights = .ok d ↔
    ∃ n, FitRows n rows target weights ∧
      d = ⟨transposed n rows, target, weights.filter fun w => !w.isEmpty⟩ := by
  constructor
  · intro h
    obtain ⟨n, hfits⟩ := fitRows_of_ofRows h
    exact ⟨n, hfits, Except.ok.inj (h.symm.trans hfits.ofRows_eq)⟩
  · rintro ⟨n, hfits, rfl⟩
    exact hfits.ofRows_eq

theorem wellFormed_of_ofRows (h : ofRows rows target weights = .ok d) : d.WellFormed := by
  obtain ⟨n, hfits, rfl⟩ := ofRows_eq_ok_iff.mp h
  exact wellFormed_of_ofColumns hfits.fits.ofColumns_eq

/-- The rows of the table are those it was made of. -/
theorem row_of_ofRows (h : ofRows rows target weights = .ok d) (hi : rows[i]? = some r) :
    d.row i = .ok r := by
  have hd := wellFormed_of_ofRows h
  obtain ⟨n, hfits, rfl⟩ := ofRows_eq_ok_iff.mp h
  obtain ⟨hlt, rfl⟩ := List.getElem?_eq_some_iff.mp hi
  have hrow : i < target.length := hfits.count ▸ hlt
  rw [row_eq hd.rectangular hrow]
  have hwidth : rows[i].length = n := hfits.lengths _ (List.getElem_mem hlt)
  refine congrArg Except.ok (List.ext_getElem ?_ fun j hj hj' => ?_)
  · simp [transposed, hwidth]
  · simp [transposed, hlt, hj']

end

/-! ## Chains of calls -/

variable {rows features : List ℕ}

/-- The tables that come from columns or rows by any chain of new targets and choices of rows and
features. -/
inductive Derived : Dataset → Prop where
  | ofColumns (columns : List (List Float)) (target : List Float) (weights : Option (List Float))
      (d : Dataset) (h : ofColumns columns target weights = .ok d) : Derived d
  | ofRows (rows : List (List Float)) (target : List Float) (weights : Option (List Float))
      (d : Dataset) (h : ofRows rows target weights = .ok d) : Derived d
  | withTarget (d : Dataset) (target : List Float) (d' : Dataset) (hd : Derived d)
      (h : d.withTarget target = .ok d') : Derived d'
  | subset (d : Dataset) (rows features : List ℕ) (d' : Dataset) (hd : Derived d)
      (h : d.subset rows features = .ok d') : Derived d'

theorem wellFormed_of_subset (h : d.subset rows features = .ok d') : d'.WellFormed := by
  unfold subset at h
  obtain ⟨columns, -, h⟩ := Except.bind_eq_ok.mp h
  obtain ⟨target, -, h⟩ := Except.bind_eq_ok.mp h
  dsimp only at h
  split at h
  · exact wellFormed_of_ofColumns (Except.mapError_eq_ok.mp h)
  · obtain ⟨chosen, -, h⟩ := Except.bind_eq_ok.mp h
    exact wellFormed_of_ofColumns (Except.mapError_eq_ok.mp h)

theorem Derived.wellFormed (h : Derived d) : d.WellFormed := by
  induction h with
  | ofColumns columns target weights d h => exact wellFormed_of_ofColumns h
  | ofRows rows target weights d h => exact wellFormed_of_ofRows h
  | withTarget d target d' hd h ih => exact wellFormed_of_ofColumns h
  | subset d rows features d' hd h ih => exact wellFormed_of_subset h

/-! ## Parts of parts -/

theorem pick_pick (values : List Float) (rows' : List (Fin rows.length)) :
    pick (pick values rows) (rows'.map (·.val)) = pick values (rows'.map rows.get) := by
  unfold pick
  rw [List.map_map, List.map_map]
  refine List.map_congr_left fun k _ => ?_
  simp

theorem part_part (d : Dataset) (rows' : List (Fin rows.length))
    (features' : List (Fin features.length)) :
    (d.part rows features).part (rows'.map (·.val)) (features'.map (·.val)) =
      d.part (rows'.map rows.get) (features'.map features.get) := by
  unfold part
  simp only [Dataset.mk.injEq]
  refine ⟨?_, pick_pick _ _, ?_⟩
  · rw [List.map_map, List.map_map]
    refine List.map_congr_left fun k _ => ?_
    simp [pick_pick]
  · rw [Option.map_map]
    refine Option.map_congr fun w _ => pick_pick _ _

theorem subset_eq_error (hd : d.WellFormed) (hrange : ∀ r ∈ rows, r < d.rowCount)
    (hfrange : ∀ f ∈ features, f < d.featureCount) (h : rows = [] ∨ features = []) :
    d.subset rows features = .error (.error .emptyDataset) := by
  have hempty : ((d.part rows features).columns.isEmpty || (d.part rows features).target.isEmpty) =
      true := by
    simp [part, pick, or_comm.mp h]
  rw [subset_eq_ofColumns hd hrange hfrange]
  unfold ofColumns
  rw [if_pos hempty]
  rfl

theorem subset_subset (hd : d.WellFormed) (hrows : rows ≠ []) (hfeatures : features ≠ [])
    (hrange : ∀ r ∈ rows, r < d.rowCount) (hfrange : ∀ f ∈ features, f < d.featureCount)
    (rows' : List (Fin rows.length)) (features' : List (Fin features.length)) :
    (d.part rows features).subset (rows'.map (·.val)) (features'.map (·.val)) =
      d.subset (rows'.map rows.get) (features'.map features.get) := by
  have hpart := hd.part hrows hfeatures hrange
  have hinner : ∀ r ∈ rows'.map (·.val), r < (d.part rows features).rowCount := by
    intro r hr
    obtain ⟨k, -, rfl⟩ := List.mem_map.mp hr
    simp [part, rowCount, pick]
  have hfinner : ∀ f ∈ features'.map (·.val), f < (d.part rows features).featureCount := by
    intro f hf
    obtain ⟨k, -, rfl⟩ := List.mem_map.mp hf
    simp [part, featureCount]
  have hboth : ∀ r ∈ rows'.map rows.get, r < d.rowCount := by
    intro r hr
    obtain ⟨k, -, rfl⟩ := List.mem_map.mp hr
    exact hrange _ (List.get_mem _ _)
  have hfboth : ∀ f ∈ features'.map features.get, f < d.featureCount := by
    intro f hf
    obtain ⟨k, -, rfl⟩ := List.mem_map.mp hf
    exact hfrange _ (List.get_mem _ _)
  rw [subset_eq_ofColumns hpart hinner hfinner, subset_eq_ofColumns hd hboth hfboth, part_part]

/-! ## What tables keep -/

theorem withTarget_eq_ok_iff (hd : d.WellFormed) {target : List Float} :
    d.withTarget target = .ok d' ↔ target.length = d.rowCount ∧ d' = { d with target } := by
  constructor
  · intro h
    obtain ⟨c, hc⟩ := List.exists_mem_of_ne_nil _ hd.columns
    have hlength : target.length = d.rowCount := by
      rw [← hd.rectangular c hc, (fits_of_ofColumns h).lengths c hc]
    exact ⟨hlength, Except.ok.inj (h.symm.trans (withTarget_eq hd hlength))⟩
  · rintro ⟨hlength, rfl⟩
    exact withTarget_eq hd hlength

/-- What is true of a table however it came about. -/
structure Keeps (d : Dataset) : Prop where
  features : 0 < d.featureCount
  rows : 0 < d.rowCount
  rectangular : ∀ c ∈ d.columns, c.length = d.rowCount
  weights : ∀ w ∈ d.weights, w.length = d.rowCount ∧ ∀ x ∈ w, x.isFinite = true ∧ 0.0 ≤ x
  column : ∀ f < d.featureCount, ∃ values, d.column f = .ok values
  row : ∀ r < d.rowCount, ∃ values, d.row r = .ok values
  /-- Another target is taken just if it is as long. -/
  withTarget (target : List Float) (d' : Dataset) :
    d.withTarget target = .ok d' ↔ target.length = d.rowCount ∧ d' = { d with target }
  /-- Indices of the table lead to the part that they say, or to an error if there are none. -/
  subset (rows features : List ℕ) : (∀ r ∈ rows, r < d.rowCount) →
    (∀ f ∈ features, f < d.featureCount) →
    d.subset rows features = if rows = [] ∨ features = [] then .error (.error .emptyDataset)
      else .ok (d.part rows features)
  /-- A choice from what has been chosen is a choice of what the indices lead to. -/
  subset_subset (rows features : List ℕ) : (∀ r ∈ rows, r < d.rowCount) →
    (∀ f ∈ features, f < d.featureCount) → ∀ part, d.subset rows features = .ok part →
    ∀ (rows' : List (Fin rows.length)) (features' : List (Fin features.length)),
      part.subset (rows'.map (·.val)) (features'.map (·.val)) =
        d.subset (rows'.map rows.get) (features'.map features.get)

theorem WellFormed.keeps (hd : d.WellFormed) : d.Keeps where
  features := hd.featureCount_pos
  rows := hd.rowCount_pos
  rectangular := hd.rectangular
  weights w hw := by
    obtain ⟨hlength, hall⟩ := hd.weights w hw
    exact ⟨hlength, fun x hx => isWeight_iff.mp (hall x hx)⟩
  column f hf := ⟨_, memberAt_getD [] hf⟩
  row r hr := ⟨_, row_eq hd.rectangular hr⟩
  withTarget target d' := withTarget_eq_ok_iff hd
  subset rows features hrange hfrange := by
    split
    · next h => exact subset_eq_error hd hrange hfrange h
    · next h =>
      rw [not_or] at h
      exact subset_eq hd h.1 h.2 hrange hfrange
  subset_subset rows features hrange hfrange part hpart rows' features' := by
    have hne : rows ≠ [] ∧ features ≠ [] := by
      rw [← not_or]
      intro h
      cases (subset_eq_error hd hrange hfrange h).symm.trans hpart
    rw [subset_eq hd hne.1 hne.2 hrange hfrange] at hpart
    cases hpart
    exact subset_subset hd hne.1 hne.2 hrange hfrange rows' features'

/-- A table is made of columns or rows just if these fit, and it holds the rows that it was made of.
What comes out of any chain of calls keeps its shape. -/
theorem tables_keep_shape :
    (∀ columns target weights d, ofColumns columns target weights = .ok d ↔
      Fits columns target weights ∧ d = ⟨columns, target, weights.filter fun w => !w.isEmpty⟩) ∧
    (∀ rows target weights,
      (∃ d, ofRows rows target weights = .ok d) ↔ ∃ n, FitRows n rows target weights) ∧
    (∀ rows target weights d, ofRows rows target weights = .ok d →
      d.target = target ∧ d.weights = weights.filter (fun w => !w.isEmpty) ∧
      ∀ i r, rows[i]? = some r → d.row i = .ok r) ∧
    ∀ d, Derived d → d.Keeps := by
  refine ⟨fun columns target weights d => ofColumns_eq_ok_iff, ?_, ?_, ?_⟩
  · intro rows target weights
    constructor
    · rintro ⟨d, h⟩
      exact fitRows_of_ofRows h
    · rintro ⟨n, h⟩
      exact ⟨_, h.ofRows_eq⟩
  · intro rows target weights d h
    obtain ⟨n, -, hd⟩ := ofRows_eq_ok_iff.mp h
    exact ⟨by rw [hd], by rw [hd], fun i r hi => row_of_ofRows h hi⟩
  · intro d hd
    exact hd.wellFormed.keeps

/-- Three weighted rows.  The last one is chosen twice, and from that choice once more. -/
theorem tables_keep_shape_repeats :
    ∃ d part, ofRows [[1.0, 10.0], [2.0, 20.0], [3.0, 30.0]] [0.0, 1.0, 2.0]
        (some [1.0, -0.0, 3.0]) = .ok d ∧
      d.row 1 = .ok [2.0, 20.0] ∧ d.subset [2, 0, 2] [1, 0] = .ok part ∧
      part.subset [2, 1, 0, 2] [0] = d.subset [2, 0, 2, 2] [1] ∧
      d.subset [2, 0, 2, 2] [1] =
        .ok ⟨[[30.0, 10.0, 30.0, 30.0]], [2.0, 0.0, 2.0, 2.0], some [3.0, 1.0, 3.0, 3.0]⟩ := by
  obtain ⟨-, -, hrows, hkeeps⟩ := tables_keep_shape
  have hmade : ofRows [[1.0, 10.0], [2.0, 20.0], [3.0, 30.0]] [0.0, 1.0, 2.0]
      (some [1.0, -0.0, 3.0]) = .ok ⟨[[1.0, 2.0, 3.0], [10.0, 20.0, 30.0]], [0.0, 1.0, 2.0],
        some [1.0, -0.0, 3.0]⟩ := rfl
  obtain ⟨-, -, hrow⟩ := hrows _ _ _ _ hmade
  have hd := hkeeps _ (.ofRows _ _ _ _ hmade)
  have hpart := hd.subset [2, 0, 2] [1, 0] (by decide) (by decide)
  refine ⟨_, _, hmade, hrow 1 _ rfl, hpart, ?_, hd.subset _ _ (by decide) (by decide)⟩
  exact hd.subset_subset [2, 0, 2] [1, 0] (by decide) (by decide) _ hpart [2, 1, 0, 2] [0]

end Dataset
end SymbolicRegression
