import SymbolicRegression.Proofs.Evolution.Grafting
import SymbolicRegression.Proofs.Evolution.PointMutation
import SymbolicRegression.Proofs.Evolution.Selection
import SymbolicRegression.Proofs.Settings

/-!
Valid settings are enough for the draws of a run, save one.

Every probability that a generator, a variation or a choice of a way of reproduction draws with
is one of the settings and lies between zero and one; every range and every list that is drawn
from holds something.  So the only draw that can be misused is that of a constant: two finite
bounds may lie farther apart than a double can say.  The lemmas bound the failures of a draw by
those of `drawConstant`, whatever these are.
-/

namespace SymbolicRegression

variable {σ : Type} [RandomSource σ] {Q : Failure → Prop} {g : Generator}

/-! ## Reproduction -/

theorem ReproductionOdds.confines_draw (o : ReproductionOdds) :
    Confines (o.draw : Draw σ Reproduction) Q :=
  Draw.confines_unit.bind' fun _ => .of_pure

/-! ## Valid settings -/

namespace EvolutionSettings

variable {s : EvolutionSettings} {functions : FunctionSet} {n : ℕ}

theorem Valid.probable (h : s.Valid) : (s.generatorOf functions n).Probable where
  const := h.probabilities ("p_const", s.pConst) (.head _)
  full := h.probabilities ("p_full", s.pFull) (.tail _ (.head _))
  leaf := h.probabilities ("p_leaf", s.pLeaf) (.tail _ (.tail _ (.head _)))

theorem Valid.pointRate (h : s.Valid) : 0.0 ≤ s.pointRate ∧ s.pointRate ≤ 1.0 := by
  have hmem : ("point_mutation_rate", s.pointRate) ∈ s.probabilities := by
    unfold EvolutionSettings.probabilities
    simp only [List.mem_cons, true_or, or_true]
  exact h.probabilities ("point_mutation_rate", s.pointRate) hmem

/-- A property of all draws that are made with these settings. -/
structure Draws (s : EvolutionSettings) (g : Generator) (σ : Type) [RandomSource σ]
    (D : {α : Type} → Draw σ α → Prop) : Prop where
  program : D g.draw
  subtree (room : ℕ) : D (g.subtree room)
  leaf : D g.leaf
  pointMutation (p : Program) : D (Variation.point s.pointRate g p)
  subtreeMutation (p : Program) : D (Variation.subtree g p)
  hoistMutation (p : Program) : D (Variation.hoist p)
  crossover (recipient donor : Program) : D (Variation.crossover recipient donor)
  reproduction : D s.odds.draw
  selection (size : ℕ) (pool : List Individual) : D (Tournament.select size pool)

theorem Valid.draws (h : s.Valid)
    (hconst : Confines ((s.generatorOf functions n).drawConstant : Draw σ Float) Q) :
    Draws s (s.generatorOf functions n) σ (Confines · Q) :=
  have hp := h.probable
  have hleaf := Generator.confines_leaf hp.const hconst
  { program := Generator.confines_draw hp hleaf
    subtree := Generator.confines_subtree hp hleaf
    leaf := hleaf
    pointMutation := Variation.confines_point h.pointRate hleaf
    subtreeMutation := Variation.confines_subtree (Generator.confines_subtree hp hleaf)
    hoistMutation := Variation.confines_hoist
    crossover := Variation.confines_crossover
    reproduction := s.odds.confines_draw
    selection := Tournament.confines_select }

theorem Draws.mono {D E : {α : Type} → Draw σ α → Prop} (h : Draws s g σ D)
    (hDE : ∀ {α : Type} {d : Draw σ α}, D d → E d) : Draws s g σ E :=
  ⟨hDE h.program, fun n => hDE (h.subtree n), hDE h.leaf, fun p => hDE (h.pointMutation p),
    fun p => hDE (h.subtreeMutation p), fun p => hDE (h.hoistMutation p),
    fun p q => hDE (h.crossover p q), hDE h.reproduction, fun k l => hDE (h.selection k l)⟩

theorem generator_eq (hfs : s.parseFunctions = .ok functions) (n : ℕ) :
    s.generator n = .ok (s.generatorOf functions n) := by
  unfold generator
  rw [hfs]
  rfl

/-- With valid settings a draw can fail in one way only, at an interval of constants whose width
is no finite number.  Validation does not look at the width: where it is finite no draw fails on
any stream, and where it is not the draw of a constant fails on every stream. -/
theorem draws_fail_only_at_wide_constants (hs : s.validate = .ok ()) (n : ℕ) :
    ∃ g, s.generator n = .ok g ∧
      (∀ (σ : Type) [RandomSource σ],
        Draws s g σ (Confines · (· = .misuse (.badInterval s.constMin s.constMax)))) ∧
      ((s.constMax - s.constMin).isFinite = true → ∀ (σ : Type) [RandomSource σ],
        Draws s g σ Draw.Total) ∧
      ((s.constMax - s.constMin).isFinite = false → ∀ (σ : Type) [RandomSource σ] (stream : σ),
        g.drawConstant.run stream = .error (.badInterval s.constMin s.constMax)) := by
  have h := validate_eq_ok_iff.mp hs
  obtain ⟨fs, hfs⟩ := h.functions
  refine ⟨s.generatorOf fs n, generator_eq hfs n, fun σ _ => ?_, fun hwidth σ _ => ?_,
    fun hwidth σ _ stream => ?_⟩
  · exact h.draws Generator.confines_drawConstant
  · have hconst : Confines ((s.generatorOf fs n).drawConstant : Draw σ Float) Failure.Never :=
      Generator.confines_drawConstant_of_drawable (.inr hwidth)
    exact (h.draws hconst).mono Draw.total_iff.mpr
  · have hlt : ¬s.constMax ≤ s.constMin := by
      intro hle
      have hfinite := Binary64.isFinite_sub_of_le_of_le h.constMin h.constMax h.constants hle
      rw [hwidth] at hfinite
      contradiction
    show (if s.constMax ≤ s.constMin then return s.constMin
      else Draw.real s.constMin s.constMax : Draw σ Float).run stream = _
    rw [if_neg hlt]
    unfold Draw.real
    rw [hwidth, Bool.and_false]
    rfl

/-- Leaves that are constants between `-bound` and `bound`. -/
def leaves (bound : Float) : EvolutionSettings :=
  { functions := "add", constMin := -bound, constMax := bound, pConst := 1.0, minHeight := 0,
    maxHeight := 0, islandSize := 1, generations := 0, seed := 5 }

theorem parse_sums : FunctionSet.parse "add" = .ok ⟨[.add], List.cons_ne_nil _ _⟩ := by cbv

theorem valid_leaves (bound : Float) (hmin : (-bound).isFinite = true)
    (hmax : bound.isFinite = true) (hle : -bound ≤ bound) : (leaves bound).Valid where
  loss := ⟨.mae, by show Metric.parse "mae" = _; cbv⟩
  eval := ⟨.mae, by show Metric.parse "mae" = _; cbv⟩
  functions := ⟨_, parse_sums⟩
  heights := le_rfl
  islands := Nat.one_pos
  islandSize := Nat.one_pos
  constMin := hmin
  constMax := hmax
  constants := hle
  parsimony := (by decide +kernel : (1e-5 : Float).isFinite = true ∧ ¬(1e-5 : Float) < 0.0)
  probabilities :=
    (by decide +kernel : ∀ p ∈ (leaves 1.0).probabilities, 0.0 ≤ p.2 ∧ p.2 ≤ 1.0)

theorem validate_leaves (bound : Float) (hmin : (-bound).isFinite = true)
    (hmax : bound.isFinite = true) (hle : -bound ≤ bound) : (leaves bound).validate = .ok () :=
  validate_eq_ok_iff.mpr (valid_leaves bound hmin hmax hle)

/-- Bounds near the two ends of the doubles are finite, and their difference is not. -/
theorem draws_fail_only_at_wide_constants_leaves :
    (∃ g, (leaves 1.0).generator 1 = .ok g ∧ Draws (leaves 1.0) g ChaCha.Stream Draw.Total) ∧
    ∃ g, (leaves 1e308).generator 1 = .ok g ∧ ∀ stream : ChaCha.Stream,
      g.drawConstant.run stream = .error (.badInterval (-1e308) 1e308) := by
  obtain ⟨g, hg, -, htotal, -⟩ := draws_fail_only_at_wide_constants
    (validate_leaves 1.0 (by decide +kernel) (by decide +kernel) (by decide +kernel)) 1
  obtain ⟨g', hg', -, -, hfails⟩ := draws_fail_only_at_wide_constants
    (validate_leaves 1e308 (by decide +kernel) (by decide +kernel) (by decide +kernel)) 1
  exact ⟨⟨g, hg, htotal (by decide +kernel) _⟩, g', hg', hfails (by decide +kernel) _⟩

/-- A leaf cannot be drawn between such bounds. -/
theorem leaf_of_wide_constants_refused : (leaves 1e308).validate = .ok () ∧
    ∃ g, (leaves 1e308).generator 1 = .ok g ∧ ¬Draw.Total (g.leaf : Draw ChaCha.Stream Program) := by
  refine ⟨validate_leaves _ (by decide +kernel) (by decide +kernel) (by decide +kernel), _,
    generator_eq (s := leaves 1e308) parse_sums 1, fun htotal => ?_⟩
  obtain ⟨r, hr⟩ := htotal (ChaCha.Stream.ofSeedWord 5)
  have hfails : (((leaves 1e308).generatorOf ⟨[.add], List.cons_ne_nil _ _⟩ 1).leaf.run
      (ChaCha.Stream.ofSeedWord 5)).toOption.isSome = false := by
    decide +kernel
  rw [hr] at hfails
  exact Bool.noConfusion hfails

end EvolutionSettings

end SymbolicRegression
