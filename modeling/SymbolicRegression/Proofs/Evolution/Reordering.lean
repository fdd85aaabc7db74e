import SymbolicRegression.Proofs.Evolution.Figures

/-!
The figures of a generation do not depend on the order of its individuals.

Rounded sums depend on the order of their terms.  The finite fitnesses are therefore sorted first,
and as the order that sorts them tells any two doubles apart, all orders of the individuals lead
to the same sorted list.  Of several best individuals another one may come first in another
order, but all of them have one fitness, to the sign of zero.  Their losses may differ, so that the
best loss is the one figure of which nothing is said.
-/

namespace SymbolicRegression

/-- The fitness is known and finite. -/
def Individual.isFit (i : Individual) : Bool := i.fitness.any (·.isFinite)

/-- No worse than each other, two individuals have the same fitness. -/
theorem Individual.fitnessOrWorst_eq {a b : Individual} (hab : (a.compare b).isLE)
    (hba : (b.compare a).isLE) : a.fitnessOrWorst = b.fitnessOrWorst := by
  apply Binary64.rank_eq_iff.mp
  exact Std.OrientedCmp.isLE_antisymm (rank_isLE hab) (rank_isLE hba)

theorem nodeCount_perm {is js : List Individual} (h : is.Perm js) : nodeCount js = nodeCount is :=
  (h.map _).sum_eq.symm

namespace GenerationRecord

variable {is js : List Individual}

/-! ## Sorted fitnesses -/

theorem filter_fitness (i : Individual) :
    i.fitness.filter (·.isFinite) = if i.isFit then some i.fitnessOrWorst else none := by
  unfold Individual.isFit Individual.fitnessOrWorst
  cases i.fitness with
  | none => rfl
  | some x => rfl

theorem filterMap_fitness (is : List Individual) :
    (is.filterMap fun i => i.fitness.filter (·.isFinite)) =
      (is.filter (·.isFit)).map (·.fitnessOrWorst) := by
  induction is with
  | nil => rfl
  | cons i is ih =>
    rw [List.filterMap_cons, filter_fitness, List.filter_cons]
    by_cases hfit : i.isFit = true
    · simp only [hfit, if_true, List.map_cons, ih]
    · simp only [hfit, if_false, ih, Bool.false_eq_true]

/-- Every individual with a finite fitness is there once. -/
theorem fitnesses_perm_map (is : List Individual) :
    (fitnesses is).Perm ((is.filter (·.isFit)).map (·.fitnessOrWorst)) := by
  rw [← filterMap_fitness]
  exact List.mergeSort_perm _ _

theorem fitnesses_perm (h : is.Perm js) : fitnesses js = fitnesses is := by
  have hsame : (fitnesses js).Perm (fitnesses is) :=
    (fitnesses_perm_map js).trans
      (((h.symm.filter _).map _).trans (fitnesses_perm_map is).symm)
  refine List.Perm.eq_of_pairwise (fun x y _ _ hxy hyx => ?_)
    (pairwise_mergeSort_key id _) (pairwise_mergeSort_key id _) hsame
  apply Binary64.rank_eq_iff.mp
  exact Std.OrientedCmp.isLE_antisymm (Ordering.isLE_iff_ne_gt.mpr hxy)
    (Ordering.isLE_iff_ne_gt.mpr hyx)

/-! ## The best individual -/

theorem bestFitness_eq {b : Individual} (h : leader? is = some b) (generation evaluations : ℕ) :
    (ofIndividuals is generation evaluations).bestFitness = b.fitnessOrWorst := by
  show ((leader? is).map (·.fitnessOrWorst)).getD Binary64.infinity = _
  rw [h]
  rfl

theorem exists_leader (h : is ≠ []) : ∃ b, leader? is = some b ∧ Individual.FirstBest b is :=
  (Individual.leads_leader? is).exists_of_ne_nil h

theorem bestFitness_perm (h : is.Perm js) (generation evaluations : ℕ) :
    (ofIndividuals js generation evaluations).bestFitness =
      (ofIndividuals is generation evaluations).bestFitness := by
  by_cases hnil : is = []
  · subst hnil
    rw [List.nil_perm.mp h]
  · have hnil' : js ≠ [] := fun hjs => hnil (List.perm_nil.mp (hjs ▸ h))
    obtain ⟨b, hb, hbest⟩ := exists_leader hnil
    obtain ⟨c, hc, hfirst⟩ := exists_leader hnil'
    rw [bestFitness_eq hb, bestFitness_eq hc]
    apply Individual.fitnessOrWorst_eq
    · exact hfirst.isLE b (h.mem_iff.mp hbest.mem)
    · exact hbest.isLE c (h.mem_iff.mpr hfirst.mem)

/-! ## All figures -/

theorem length_fitnesses_add (is : List Individual) :
    (fitnesses is).length + (is.filter (!·.isFit)).length = is.length := by
  rw [(fitnesses_perm_map is).length_eq, List.length_map]
  exact (List.length_eq_length_filter_add Individual.isFit).symm

theorem unfit_eq (is : List Individual) (generation evaluations : ℕ) :
    (ofIndividuals is generation evaluations).unfit = (is.filter (!·.isFit)).length := by
  have hlength := length_fitnesses_add is
  show is.length - (fitnesses is).length = _
  omega

/-- The two records say the same of a generation, but perhaps not of the loss of its best
individual. -/
structure Agrees (r r' : GenerationRecord) : Prop where
  generation : r'.generation = r.generation
  evaluations : r'.evaluations = r.evaluations
  bestFitness : r'.bestFitness = r.bestFitness
  meanFitness : r'.meanFitness = r.meanFitness
  medianFitness : r'.medianFitness = r.medianFitness
  meanSize : r'.meanSize = r.meanSize
  unfit : r'.unfit = r.unfit

/-- The same individuals in another order have the same figures.  The best fitness is that of a
best individual, infinite if there is none.  Every individual has its finite fitness among those
that mean and median are taken of, or it is counted as unfit. -/
theorem figures_ignore_order (h : is.Perm js) (generation evaluations : ℕ) :
    Agrees (ofIndividuals is generation evaluations) (ofIndividuals js generation evaluations) ∧
    (is = [] ∧ (ofIndividuals is generation evaluations).bestFitness = Binary64.infinity ∨
      ∃ b ∈ is, (∀ i ∈ is, b.compare i ≠ .gt) ∧
        (ofIndividuals is generation evaluations).bestFitness = b.fitnessOrWorst) ∧
    (ofIndividuals is generation evaluations).meanFitness = mean (fitnesses is) ∧
    (ofIndividuals is generation evaluations).medianFitness = median (fitnesses is) ∧
    (fitnesses is).Perm ((is.filter (·.isFit)).map (·.fitnessOrWorst)) ∧
    (ofIndividuals is generation evaluations).unfit = (is.filter (!·.isFit)).length ∧
    (fitnesses is).length + (ofIndividuals is generation evaluations).unfit = is.length := by
  have hfitnesses := fitnesses_perm h
  refine ⟨?_, ?_, rfl, rfl, fitnesses_perm_map is, unfit_eq is _ _, ?_⟩
  · exact {
      generation := rfl
      evaluations := rfl
      bestFitness := bestFitness_perm h generation evaluations
      meanFitness := congrArg mean hfitnesses
      medianFitness := congrArg median hfitnesses
      meanSize := by rw [meanSize_eq, meanSize_eq, nodeCount_perm h, h.length_eq]
      unfit := by rw [unfit_eq, unfit_eq, (h.filter _).length_eq] }
  · by_cases hnil : is = []
    · refine .inl ⟨hnil, ?_⟩
      subst hnil
      rfl
    · obtain ⟨b, hb, hbest⟩ := exists_leader hnil
      refine .inr ⟨b, hbest.mem, fun i hi => ?_, bestFitness_eq hb _ _⟩
      exact Ordering.isLE_iff_ne_gt.mp (hbest.isLE i hi)
  · rw [unfit_eq]
    exact length_fitnesses_add is

/-- From the left the sum of the fitnesses keeps the ones, from the right it loses them.  Minus
zero is the best fitness, though zero belongs to a smaller program. -/
def gathering : List Individual :=
  let x : Program := .feature 0
  [⟨x, some 1.0, none, 0⟩, ⟨x, some 1.0, none, 0⟩, ⟨x, some 1e16, none, 0⟩,
    ⟨x, some Binary64.nan, none, 0⟩, ⟨x, none, none, 0⟩, ⟨x, some Binary64.infinity, none, 0⟩,
    ⟨x, some 0.0, none, 0⟩, ⟨.call .neg [x], some (-0.0), none, 0⟩]

theorem figures_ignore_order_gathering : gathering.Perm gathering.reverse ∧
    (ofIndividuals gathering.reverse 3 50).meanFitness =
      (ofIndividuals gathering 3 50).meanFitness ∧
    (ofIndividuals gathering.reverse 3 50).bestFitness = -0.0 ∧
    (ofIndividuals gathering.reverse 3 50).unfit = 3 ∧ (fitnesses gathering).length = 5 := by
  have hperm : gathering.Perm gathering.reverse := (List.reverse_perm gathering).symm
  obtain ⟨hagrees, -, -, -, -, hunfit, hlength⟩ := figures_ignore_order hperm 3 50
  have hthree : (gathering.filter (!·.isFit)).length = 3 := by decide +kernel
  have hbest : (ofIndividuals gathering 3 50).bestFitness = -0.0 := by decide +kernel
  rw [hunfit, hthree] at hlength
  refine ⟨hperm, hagrees.meanFitness, hagrees.bestFitness.trans hbest, ?_, ?_⟩
  · rw [hagrees.unfit, hunfit, hthree]
  · exact Nat.add_right_cancel hlength

end GenerationRecord
end SymbolicRegression
