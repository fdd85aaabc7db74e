import SymbolicRegression.Proofs.Program.Rows

/-!
Programs for a part of a table.

A program fitted to some rows and features of a table numbers the features of the part.  Its
features are renumbered for the whole table, and then it has on a row of the table the value
that it had on the same row of the part, bit for bit.  Choosing rows commutes with every
operator, because an operator works on each row alone.
-/

namespace SymbolicRegression

open Dataset (pick)

variable {d : Dataset} {rows mapping : List ℕ} {n : ℕ}

/-! ## Choosing rows -/

theorem pick_replicate {c : Float} (h : ∀ r ∈ rows, r < n) :
    pick (List.replicate n c) rows = List.replicate rows.length c := by
  unfold pick
  rw [← List.map_const']
  refine List.map_congr_left fun r hr => ?_
  simp [h r hr]

theorem pick_map {f : Float → Float} {a : List Float} (h : ∀ r ∈ rows, r < a.length) :
    pick (a.map f) rows = (pick a rows).map f := by
  unfold pick
  rw [List.map_map]
  refine List.map_congr_left fun r hr => ?_
  simp [h r hr]

theorem pick_zipWith {f : Float → Float → Float} {a b : List Float}
    (ha : ∀ r ∈ rows, r < a.length) (hb : ∀ r ∈ rows, r < b.length) :
    pick (List.zipWith f a b) rows = List.zipWith f (pick a rows) (pick b rows) := by
  unfold pick
  rw [List.zipWith_map, List.zipWith_self]
  refine List.map_congr_left fun r hr => ?_
  exact getD_zipWith (ha r hr) (hb r hr)

theorem Operator.applyColumns_pick {op : Operator} {columns : List (List Float)}
    {values : List Float} (h : ∀ c ∈ columns, ∀ r ∈ rows, r < c.length)
    (hvalues : op.applyColumns columns = .ok values) :
    op.applyColumns (columns.map (pick · rows)) = .ok (pick values rows) := by
  rcases op.arity_eq with harity | harity
  · rcases columns with _ | ⟨a, columns⟩
    · simp [applyColumns, harity] at hvalues
    · simp only [applyColumns, harity, Except.ok.injEq] at hvalues
      simp only [applyColumns, harity, List.map_cons, ← hvalues, pick_map (h a List.mem_cons_self)]
  · rcases columns with _ | ⟨a, _ | ⟨b, columns⟩⟩
    · simp [applyColumns, harity] at hvalues
    · simp [applyColumns, harity] at hvalues
    · have ha := h a List.mem_cons_self
      have hb := h b (List.mem_cons_of_mem a List.mem_cons_self)
      simp only [applyColumns, harity, Except.ok.injEq] at hvalues
      simp only [applyColumns, harity, List.map_cons, ← hvalues, pick_zipWith ha hb]

namespace Program

variable {v : Vocabulary}

/-! ## Renumbering -/

mutual

/-- A program whose features all have a new number can be renumbered, and it only reads features
of the new numbers then. -/
theorem exists_remap : ∀ {p : Program}, p.BuiltFrom v → (∀ i ∈ p.features, i < mapping.length) →
    ∃ q, p.remap mapping = .ok q ∧ q.BuiltFrom .any ∧ ∀ i ∈ q.features, i ∈ mapping
  | feature i, _, h => by
    have hi : i < mapping.length := h i List.mem_cons_self
    refine ⟨feature mapping[i], ?_, trivial, fun j hj => ?_⟩
    · rw [remap, memberAt_eq_ok.mpr (List.getElem?_eq_getElem hi)]
      rfl
    · obtain rfl := List.mem_singleton.mp hj
      exact List.getElem_mem _
  | constant c, _, _ => ⟨constant c, rfl, trivial, nofun⟩
  | call op ps, ⟨_, hlen, hps⟩, h => by
    obtain ⟨qs, hqs, hlength, hbuilt, hfeatures⟩ := exists_remapAll hps h
    refine ⟨call op qs, ?_, ⟨trivial, hlength.trans hlen, hbuilt⟩, hfeatures⟩
    rw [remap, hqs]
    rfl

theorem exists_remapAll : ∀ {ps : List Program}, AllBuiltFrom v ps →
    (∀ i ∈ featuresOf ps, i < mapping.length) →
      ∃ qs, remapAll mapping ps = .ok qs ∧ qs.length = ps.length ∧ AllBuiltFrom .any qs ∧
        ∀ i ∈ featuresOf qs, i ∈ mapping
  | [], _, _ => ⟨[], rfl, rfl, trivial, nofun⟩
  | p :: ps, ⟨hp, hps⟩, h => by
    obtain ⟨q, hq, hbuilt, hfeatures⟩ := exists_remap hp fun i hi => h i (List.mem_append_left _ hi)
    obtain ⟨qs, hqs, hlength, hbuilt', hfeatures'⟩ :=
      exists_remapAll hps fun i hi => h i (List.mem_append_right _ hi)
    refine ⟨q :: qs, ?_, congrArg (· + 1) hlength, ⟨hbuilt, hbuilt'⟩, fun i hi => ?_⟩
    · rw [remapAll, hq, hqs]
      rfl
    · exact (List.mem_append.mp hi).elim (hfeatures i) (hfeatures' i)

end

mutual

/-- The values on a part of a table are those of the renumbered program on its rows. -/
theorem evaluate_part (hd : d.Rectangular) (hrows : ∀ r ∈ rows, r < d.rowCount) :
    ∀ {p q : Program} {values : List Float}, p.remap mapping = .ok q →
      q.evaluate d = .ok values → p.evaluate (d.part rows mapping) = .ok (pick values rows)
  | feature i, q, values, hq, hvalues => by
    rw [remap] at hq
    obtain ⟨f, hf, hq⟩ := Except.bind_eq_ok.mp hq
    cases hq
    rw [evaluate, Dataset.column, memberAt_eq_ok] at hvalues ⊢
    rw [Dataset.part, List.getElem?_map, memberAt_eq_ok.mp hf, Option.map_some,
      List.getD_eq_getElem?_getD, hvalues, Option.getD_some]
  | constant c, q, values, hq, hvalues => by
    rw [remap] at hq
    cases hq
    rw [evaluate] at hvalues ⊢
    cases hvalues
    rw [pick_replicate hrows]
    simp [Dataset.part, Dataset.rowCount, pick]
  | call op ps, q, values, hq, hvalues => by
    rw [remap] at hq
    obtain ⟨qs, hqs, hq⟩ := Except.bind_eq_ok.mp hq
    cases hq
    rw [evaluate] at hvalues ⊢
    obtain ⟨columns, hcolumns, hvalues⟩ := Except.bind_eq_ok.mp hvalues
    rw [evaluateAll_part hd hrows hqs hcolumns]
    refine Operator.applyColumns_pick (fun c hc r hr => ?_) hvalues
    rw [length_evaluateAll hd hcolumns c hc]
    exact hrows r hr

theorem evaluateAll_part (hd : d.Rectangular) (hrows : ∀ r ∈ rows, r < d.rowCount) :
    ∀ {ps qs : List Program} {columns : List (List Float)}, remapAll mapping ps = .ok qs →
      evaluateAll d qs = .ok columns →
        evaluateAll (d.part rows mapping) ps = .ok (columns.map (pick · rows))
  | [], qs, columns, hqs, hcolumns => by
    cases hqs
    cases hcolumns
    rfl
  | p :: ps, qs, columns, hqs, hcolumns => by
    rw [remapAll] at hqs
    obtain ⟨q, hq, hqs⟩ := Except.bind_eq_ok.mp hqs
    obtain ⟨rest, hrest, hqs⟩ := Except.bind_eq_ok.mp hqs
    cases hqs
    rw [evaluateAll] at hcolumns ⊢
    obtain ⟨values, hvalues, hcolumns⟩ := Except.bind_eq_ok.mp hcolumns
    obtain ⟨others, hothers, hcolumns⟩ := Except.bind_eq_ok.mp hcolumns
    cases hcolumns
    rw [evaluate_part hd hrows hq hvalues, evaluateAll_part hd hrows hrest hothers]
    rfl

end

end Program

end SymbolicRegression
