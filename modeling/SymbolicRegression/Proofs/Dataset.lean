import SymbolicRegression.Dataset
import SymbolicRegression.Proofs.Outcomes

/-!
Tables are rectangular, and so are their parts.

A table is only made from columns whose lengths have been compared with that of the target, so
a row can be taken at every place of the target.  Everything a table is asked for when it is
made is kept by the choice of some of its rows and features and by a new target of the same
length, so these never fail.
-/

namespace SymbolicRegression
namespace Dataset

variable {d : Dataset} {columns : List (List Float)} {target : List Float}
  {weights : Option (List Float)} {r : Nat}

/-- Every feature has a value in every row. -/
def Rectangular (d : Dataset) : Prop := ∀ c ∈ d.columns, c.length = d.rowCount

/-- All that a table is asked for when it is made. -/
structure WellFormed (d : Dataset) : Prop where
  columns : d.columns ≠ []
  target : d.target ≠ []
  rectangular : d.Rectangular
  weights : ∀ w ∈ d.weights, w.length = d.rowCount ∧ ∀ x ∈ w, isWeight x = true

/-- Weights for `n` rows.  An empty list stands for none. -/
def WeightsFit (n : Nat) (weights : Option (List Float)) : Prop :=
  ∀ w ∈ weights, w = [] ∨ w.length = n ∧ ∀ x ∈ w, isWeight x = true

/-- Columns, a target and weights that a table can be made of. -/
structure Fits (columns : List (List Float)) (target : List Float)
    (weights : Option (List Float)) : Prop where
  columns_ne_nil : columns ≠ []
  target_ne_nil : target ≠ []
  lengths : ∀ c ∈ columns, c.length = target.length
  weights : WeightsFit target.length weights

theorem Fits.ofColumns_eq (h : Fits columns target weights) : ofColumns columns target weights =
    .ok ⟨columns, target, weights.filter fun w => !w.isEmpty⟩ := by
  have hempty : (columns.isEmpty || target.isEmpty) = false := by
    simp [h.columns_ne_nil, h.target_ne_nil]
  have hbad : (columns.findIdx? fun c => c.length != target.length) = none := by
    simpa [List.findIdx?_eq_none_iff] using h.lengths
  unfold ofColumns
  simp only [hempty, hbad, Bool.false_eq_true, if_false]
  cases hw : weights.filter fun w => !w.isEmpty with
  | none => rfl
  | some w =>
    obtain ⟨hmem, hne⟩ := Option.filter_eq_some_iff.mp hw
    obtain ⟨hlength, hall⟩ := (h.weights w hmem).resolve_left (by simpa using hne)
    have hcount : (w.length != target.length) = false := by simp [hlength]
    simp only [hcount, List.all_eq_true.mpr hall, Bool.false_eq_true, if_false, if_true]
    rfl

theorem fits_of_ofColumns (h : ofColumns columns target weights = .ok d) :
    Fits columns target weights := by
  unfold ofColumns at h
  dsimp only at h
  split at h
  · cases h
  · next hempty =>
    simp only [Bool.or_eq_true, List.isEmpty_iff, not_or] at hempty
    split at h
    · cases h
    · next hbad =>
      have hlengths : ∀ c ∈ columns, c.length = target.length := by
        simpa using List.findIdx?_eq_none_iff.mp hbad
      -- What is left looks at the weights alone.
      refine ⟨hempty.1, hempty.2, hlengths, fun w hmem => ?_⟩
      by_cases hne : w = []
      · exact .inl hne
      · obtain rfl : weights = some w := hmem
        have hsome : (some w).filter (fun w => !w.isEmpty) = some w := by simp [hne]
        rw [hsome] at h
        dsimp only at h
        split at h
        · cases h
        · next hlength =>
          split at h
          · next hall => exact .inr ⟨by simpa using hlength, List.all_eq_true.mp hall⟩
          · cases h

theorem ofColumns_eq_ok_iff : ofColumns columns target weights = .ok d ↔
    Fits columns target weights ∧ d = ⟨columns, target, weights.filter fun w => !w.isEmpty⟩ := by
  constructor
  · intro h
    have hfits := fits_of_ofColumns h
    exact ⟨hfits, Except.ok.inj (h.symm.trans hfits.ofColumns_eq)⟩
  · rintro ⟨hfits, rfl⟩
    exact hfits.ofColumns_eq

theorem wellFormed_of_ofColumns (h : ofColumns columns target weights = .ok d) : d.WellFormed := by
  obtain ⟨hfits, rfl⟩ := ofColumns_eq_ok_iff.mp h
  refine ⟨hfits.columns_ne_nil, hfits.target_ne_nil, hfits.lengths, fun w hw => ?_⟩
  obtain ⟨hmem, hne⟩ := Option.filter_eq_some_iff.mp hw
  exact (hfits.weights w hmem).resolve_left (by simpa using hne)

/-- A table is made of its own parts again. -/
theorem WellFormed.ofColumns_eq (h : d.WellFormed) :
    ofColumns d.columns d.target d.weights = .ok d := by
  have hfits : Fits d.columns d.target d.weights :=
    ⟨h.columns, h.target, h.rectangular, fun w hw => .inr (h.weights w hw)⟩
  have hsome : d.weights.filter (fun w => !w.isEmpty) = d.weights := by
    cases hw : d.weights with
    | none => rfl
    | some w =>
      have hne : w ≠ [] := by
        rintro rfl
        exact h.target (List.eq_nil_of_length_eq_zero (h.weights [] hw).1.symm)
      simp [hne]
  rw [hfits.ofColumns_eq, hsome]

theorem rectangular_of_ofColumns (h : ofColumns columns target weights = .ok d) :
    d.Rectangular :=
  (wellFormed_of_ofColumns h).rectangular

theorem WellFormed.rowCount_pos (h : d.WellFormed) : 0 < d.rowCount :=
  List.length_pos_iff.mpr h.target

/-- Tables that are made have rows, so none of them counts as none. -/
theorem filter_eq_of_wellFormed {val : Option Dataset} (h : ∀ v ∈ val, v.WellFormed) :
    (val.filter fun v => 0 < v.rowCount) = val := by
  cases val with
  | none => rfl
  | some v => simp [(h v rfl).rowCount_pos]

theorem WellFormed.featureCount_pos (h : d.WellFormed) : 0 < d.featureCount :=
  List.length_pos_iff.mpr h.columns

/-- A row holds the values of the columns at one place, in the order of the columns. -/
theorem row_eq (hd : d.Rectangular) (hr : r < d.rowCount) :
    d.row r = .ok (d.columns.map (·.getD r 0.0)) := by
  refine Except.mapM_eq_ok fun c hc => ?_
  have hlt : r < c.length := by
    rw [hd c hc]
    exact hr
  rw [memberAt_eq_ok, List.getD_eq_getElem?_getD, List.getElem?_eq_getElem hlt]
  rfl

/-! ## Parts -/

/-- The values at some places, in the order of the places. -/
def pick (values : List Float) (rows : List Nat) : List Float := rows.map (values.getD · 0.0)

/-- The part of a table with the given rows and features. -/
def part (d : Dataset) (rows features : List Nat) : Dataset where
  columns := features.map fun f => pick (d.columns.getD f []) rows
  target := pick d.target rows
  weights := d.weights.map (pick · rows)

theorem memberAt_getD {α : Type} {l : List α} {i : Nat} (default : α) (h : i < l.length) :
    memberAt l i = .ok (l.getD i default) := by
  rw [memberAt_eq_ok, List.getD_eq_getElem?_getD, List.getElem?_eq_getElem h, Option.getD_some]

theorem getElem?_pick {values : List Float} {rows : List Nat} {k : Nat} (hr : rows[k]? = some r) :
    (pick values rows)[k]? = some (values.getD r 0.0) := by
  rw [pick, List.getElem?_map, hr, Option.map_some]

variable {rows features : List Nat}

theorem mapM_memberAt {values : List Float} (h : ∀ r ∈ rows, r < values.length) :
    rows.mapM (memberAt values) = .ok (pick values rows) :=
  Except.mapM_eq_ok fun r hr => memberAt_getD 0.0 (h r hr)

theorem WellFormed.part (hd : d.WellFormed) (hrows : rows ≠ []) (hfeatures : features ≠ [])
    (hrange : ∀ r ∈ rows, r < d.rowCount) : (d.part rows features).WellFormed where
  columns := by simpa [Dataset.part] using hfeatures
  target := by simpa [Dataset.part, pick] using hrows
  rectangular := by
    intro c hc
    obtain ⟨f, -, rfl⟩ := List.mem_map.mp hc
    simp [Dataset.part, rowCount, pick]
  weights := by
    intro w hw
    obtain ⟨w', hw', rfl⟩ := Option.map_eq_some_iff.mp hw
    refine ⟨by simp [Dataset.part, rowCount, pick], fun x hx => ?_⟩
    obtain ⟨r, hr, rfl⟩ := List.mem_map.mp hx
    obtain ⟨hlength, hall⟩ := hd.weights w' hw'
    have hlt : r < w'.length := hlength ▸ hrange r hr
    rw [List.getD_eq_getElem?_getD, List.getElem?_eq_getElem hlt, Option.getD_some]
    exact hall _ (List.getElem_mem hlt)

/-- With indices that a table has, the columns are looked up without a misuse. -/
theorem subset_eq_ofColumns (hd : d.WellFormed) (hrange : ∀ r ∈ rows, r < d.rowCount)
    (hfrange : ∀ f ∈ features, f < d.featureCount) :
    d.subset rows features = (ofColumns (d.part rows features).columns (d.part rows features).target
      (d.part rows features).weights).mapError .error := by
  have hcolumns : (features.mapM fun f => rows.mapM fun r => do
      memberAt (← d.column f) r : Except Misuse _) = .ok (d.part rows features).columns := by
    refine Except.mapM_eq_ok fun f hf => Except.mapM_eq_ok fun r hr => ?_
    have hf' := hfrange f hf
    have hlength := hd.rectangular (d.columns.getD f []) (by
      rw [List.getD_eq_getElem?_getD, List.getElem?_eq_getElem hf', Option.getD_some]
      exact List.getElem_mem hf')
    rw [column, memberAt_getD [] hf']
    exact memberAt_getD 0.0 (hlength ▸ hrange r hr)
  have htarget : rows.mapM (memberAt d.target) = .ok (d.part rows features).target :=
    mapM_memberAt hrange
  unfold subset
  rw [hcolumns, htarget]
  obtain ⟨columns, target, weights⟩ := d
  cases weights with
  | none => rfl
  | some w =>
    have hlength : ∀ r ∈ rows, r < w.length := by
      intro r hr
      rw [(hd.weights w rfl).1]
      exact hrange r hr
    simp only [mapM_memberAt hlength]
    rfl

/-- A choice of some rows and features that a table has is a table again. -/
theorem subset_eq (hd : d.WellFormed) (hrows : rows ≠ []) (hfeatures : features ≠ [])
    (hrange : ∀ r ∈ rows, r < d.rowCount) (hfrange : ∀ f ∈ features, f < d.featureCount) :
    d.subset rows features = .ok (d.part rows features) := by
  have hpart := hd.part hrows hfeatures hrange
  rw [subset_eq_ofColumns hd hrange hfrange, hpart.ofColumns_eq]
  rfl

theorem WellFormed.with_target (hd : d.WellFormed) (h : target.length = d.rowCount) :
    WellFormed { d with target } where
  columns := hd.columns
  target := List.length_pos_iff.mp (h ▸ hd.rowCount_pos)
  rectangular := fun c hc => (hd.rectangular c hc).trans h.symm
  weights := fun w hw => ⟨(hd.weights w hw).1.trans h.symm, (hd.weights w hw).2⟩

/-- Another target of the same length can always take the place of that of a table. -/
theorem withTarget_eq (hd : d.WellFormed) (h : target.length = d.rowCount) :
    d.withTarget target = .ok { d with target } :=
  (hd.with_target h).ofColumns_eq

end Dataset
end SymbolicRegression
