import SymbolicRegression.Proofs.Boosting.LineSearch
import SymbolicRegression.Proofs.Numeric.Error
import SymbolicRegression.Proofs.Numeric.Whole

/-!
A line search and values that overflow.

The steps of a boosting may be so long that the loss is no number any more, from some threshold
on.  A probe beyond the threshold has no score and loses against every probe before it, so the
search stays before the threshold if its first lower probe does.  If that one lies beyond, both
probes are without a score; the comparison is then false, the search goes to the right, and it
does so to the end.
-/

namespace SymbolicRegression
namespace GoldenSection

open Binary64

/-! ## Probes in doubles -/

theorem value_kept : value (view (kept : Float)) = 5566755282872655 / 2 ^ 53 := by decide +kernel

theorem value_tolerance :
    value (view (Scalar.ofDecimal 1 10 : Float)) = 7737125245533627 / 2 ^ 86 := by
  decide +kernel

section

variable {a b : Float} (h : Inside (fun x : Float => value (view x)) (·.isFinite = true) a b)

include h

theorem width_near : (b - a).isFinite = true ∧
    |value (view (b - a)) - (value (view b) - value (view a))| ≤ halfStep := by
  have hlow := h.low
  have hordered := h.ordered
  have hhigh := h.high
  refine sub_near h.fits.2 h.fits.1 ?_
  rw [abs_lt]
  constructor
  · linarith
  · linarith

theorem lt_tolerance_iff : (b - a).abs < Scalar.ofDecimal 1 10 ↔
    |value (view (b - a))| < 7737125245533627 / 2 ^ 86 := by
  have hfinite : (b - a).abs.isFinite = true := by
    rw [isFinite_abs]
    exact (width_near h).1
  rw [lt_iff_value hfinite rfl, value_abs, value_tolerance]

/-- How far a probe is from the end it is counted from. -/
theorem share_near : ((b - a) * kept).isFinite = true ∧
    |value (view ((b - a) * kept)) - ratio * (value (view b) - value (view a))| ≤ 4 / 10 ^ 15 := by
  have hlow := h.low
  have hordered := h.ordered
  have hhigh := h.high
  have hkept : (kept : Float).isFinite = true := rfl
  obtain ⟨hfinite, hwidth⟩ := width_near h
  rw [halfStep, abs_le] at hwidth
  have hproduct := mul_near hfinite hkept (by
    rw [value_kept, abs_lt]
    constructor
    · linarith
    · linarith)
  refine ⟨hproduct.1, ?_⟩
  have hnear := hproduct.2
  rw [value_kept, halfStep, abs_le] at hnear
  rw [ratio, abs_le]
  constructor
  · linarith
  · linarith

end

/-- Doubles lie where they lie, and their probes are off by a few roundings. -/
def doubleRuler : Ruler Float where
  place x := value (view x)
  Fits x := x.isFinite = true
  ordered := by decide +kernel
  zero := by decide +kernel
  ten := by decide +kernel
  lowProbe {a b} h := by
    obtain ⟨hfinite, hshare⟩ := share_near h
    have hlow := h.low
    have hordered := h.ordered
    have hhigh := h.high
    rw [ratio, abs_le] at hshare
    have hprobe := sub_near h.fits.2 hfinite (by
      rw [abs_lt]
      constructor
      · linarith
      · linarith)
    refine ⟨hprobe.1, ?_⟩
    have hnear := hprobe.2
    rw [halfStep, abs_le] at hnear
    unfold lowProbe
    rw [ratio, slack, abs_le]
    constructor
    · linarith
    · linarith
  highProbe {a b} h := by
    obtain ⟨hfinite, hshare⟩ := share_near h
    have hlow := h.low
    have hordered := h.ordered
    have hhigh := h.high
    rw [ratio, abs_le] at hshare
    have hprobe := add_near h.fits.1 hfinite (by
      rw [abs_lt]
      constructor
      · linarith
      · linarith)
    refine ⟨hprobe.1, ?_⟩
    have hnear := hprobe.2
    rw [halfStep, abs_le] at hnear
    unfold highProbe
    rw [ratio, slack, abs_le]
    constructor
    · linarith
    · linarith
  wide {a b} h hwide := by
    have hnot : ¬(b - a).abs < Scalar.ofDecimal 1 10 := of_decide_eq_false hwide
    rw [lt_tolerance_iff h, not_lt] at hnot
    obtain ⟨-, hwidth⟩ := width_near h
    have hordered := h.ordered
    rw [halfStep, abs_le] at hwidth
    have habs : |value (view (b - a))| ≤ value (view b) - value (view a) + 1 / 2 ^ 49 := by
      rw [abs_le]
      constructor
      · linarith
      · linarith
    show 98 / 10 ^ 12 ≤ value (view b) - value (view a)
    linarith

/-! ## Thresholds -/

/-- A function of doubles between zero and ten that has finite values up to a threshold, and
none beyond. -/
structure Overflows (f : Float → Float) (t : Float) : Prop where
  pos : 0.0 < t
  le : t ≤ 10.0
  before : ∀ x, 0.0 ≤ x → x ≤ t → (f x).isFinite = true
  beyond : ∀ x, t < x → x ≤ 10.0 → (f x).isFinite = false

section

variable {f : Float → Float} {t : Float} {n : ℕ} {k : Bracket Float Float} (h : Overflows f t)

include h

theorem Overflows.isFinite : t.isFinite = true :=
  isFinite_of_between rfl rfl (le_of_lt h.pos) h.le

/-- Just the probes beyond the threshold are without a score. -/
theorem Overflows.score_eq_none_iff {x : Float} (hx : x.isFinite = true)
    (hlow : 0 ≤ value (view x)) (hhigh : value (view x) ≤ 10) :
    score (f x) = none ↔ value (view t) < value (view x) := by
  have hzero : value (view 0.0) = 0 := rfl
  have hten : value (view 10.0) = 10 := by
    rw [show view 10.0 = .finite .positive (5 * 2 ^ 50) (-49) (by decide) from rfl]
    norm_num [value]
  have hx0 : 0.0 ≤ x := (le_iff_value rfl hx).mpr (hzero.trans_le hlow)
  have hx10 : x ≤ 10.0 := (le_iff_value hx rfl).mpr (hhigh.trans_eq hten.symm)
  rw [← lt_iff_value h.isFinite hx]
  constructor
  · intro hnone
    by_contra hle
    have hfinite : Comparable.isFinite (f x) = true :=
      h.before x hx0 (le_of_not_lt h.isFinite hx hle)
    rw [score, if_pos hfinite] at hnone
    contradiction
  · intro hlt
    have hinfinite : ¬Comparable.isFinite (f x) = true :=
      Bool.eq_false_iff.mp (h.beyond x hlt hx10)
    rw [score, if_neg hinfinite]

/-- If the first lower probe is before the threshold, all of them are. -/
theorem Overflows.lowProbe_le
    (hfirst : lowProbe (Scalar.ofNat 0) (Scalar.ofNat 10) ≤ t) (hk : Reached f n k) :
    value (view k.c) ≤ value (view t) := by
  induction hk with
  | start =>
    have hprobe := (doubleRuler.measures (.start (f := f))).probes.1
    rw [doubleRuler.start_eq] at hprobe ⊢
    exact (le_iff_value hprobe h.isFinite).mp hfirst
  | @step n k hk hwide ih =>
    have hmeasures := doubleRuler.measures hk
    have hnext := hmeasures.step (f := f) hwide
    cases hbetter : isBetter k.atC k.atD with
    | true =>
      rw [step_left hbetter] at hnext ⊢
      exact hnext.laid.ordered.2.1.le.trans ih
    | false =>
      rw [step_right hbetter]
      by_contra hbeyond
      obtain ⟨hac, hcd, hdb⟩ := hmeasures.laid.ordered
      have hlow := hmeasures.laid.low
      have hhigh := hmeasures.laid.high
      have hnone : k.atD = none := by
        rw [hk.scores.2]
        exact (h.score_eq_none_iff hmeasures.probes.2 (hlow.trans (hac.trans hcd).le)
          (hdb.le.trans hhigh)).mpr (not_le.mp hbeyond)
      have hsome : k.atC ≠ none := by
        rw [hk.scores.1]
        exact fun hnone => absurd ih (not_le_of_gt ((h.score_eq_none_iff hmeasures.probes.1
          (hlow.trans hac.le) ((hcd.trans hdb).le.trans hhigh)).mp hnone))
      obtain ⟨v, hv⟩ := Option.ne_none_iff_exists'.mp hsome
      rw [hnone, hv] at hbetter
      contradiction

/-- If it is beyond the threshold, all probes are, and the upper end stays where it is. -/
theorem Overflows.lt_lowProbe
    (hfirst : t < lowProbe (Scalar.ofNat 0) (Scalar.ofNat 10)) (hk : Reached f n k) :
    value (view t) < value (view k.c) ∧ value (view k.b) = 10 := by
  induction hk with
  | start =>
    have hprobe := (doubleRuler.measures (.start (f := f))).probes.1
    rw [doubleRuler.start_eq] at hprobe ⊢
    have hten : value (view (Scalar.ofNat 10 : Float)) = 10 := doubleRuler.ten.2
    exact ⟨(lt_iff_value h.isFinite hprobe).mp hfirst, hten⟩
  | @step n k hk hwide ih =>
    have hmeasures := doubleRuler.measures hk
    obtain ⟨hac, hcd, hdb⟩ := hmeasures.laid.ordered
    have hnone : k.atC = none := by
      rw [hk.scores.1]
      exact (h.score_eq_none_iff hmeasures.probes.1 (hmeasures.laid.low.trans hac.le)
        ((hcd.trans hdb).le.trans hmeasures.laid.high)).mpr ih.1
    have hbetter : isBetter k.atC k.atD = false := by
      rw [hnone]
      rfl
    rw [step_right hbetter]
    exact ⟨ih.1.trans hcd, ih.2⟩

end

/-! ## Results -/

/-- A search ends in the middle of a narrow bracket, up to two roundings. -/
theorem exists_middle (f : Float → Float) : ∃ (n : ℕ) (k : Bracket Float Float), Reached f n k ∧
    (Id.run (multiplier f)).isFinite = true ∧
    value (view k.b) - value (view k.a) ≤ 10001 / 10 ^ 14 ∧
    |value (view (Id.run (multiplier f))) - (value (view k.a) + value (view k.b)) / 2| ≤
      3 / 10 ^ 15 := by
  obtain ⟨n, k, -, hk, hnarrow, hresult⟩ := doubleRuler.exists_narrow f
  have hinside := (doubleRuler.measures hk).inside
  have hlow : 0 ≤ value (view k.a) := hinside.low
  have hordered : value (view k.a) ≤ value (view k.b) := hinside.ordered
  have hhigh : value (view k.b) ≤ 10 := hinside.high
  have htwo : value (view (Scalar.ofNat 2 : Float)) = 2 := by
    rw [show view (Scalar.ofNat 2 : Float) = .finite .positive (2 ^ 52) (-51) (by decide) from rfl]
    norm_num [value]
  have hlt : (k.b - k.a).abs < Scalar.ofDecimal 1 10 := of_decide_eq_true hnarrow
  rw [lt_tolerance_iff hinside, abs_lt] at hlt
  obtain ⟨-, hwidth⟩ := width_near hinside
  rw [halfStep, abs_le] at hwidth
  have hsum := add_near hinside.fits.1 hinside.fits.2 (by
    rw [abs_lt]
    constructor
    · linarith
    · linarith)
  have hsum' := hsum.2
  rw [halfStep, abs_le] at hsum'
  have hmiddle := div_near (y := Scalar.ofNat 2) hsum.1 rfl
    (by rw [htwo]; norm_num) (by
      rw [htwo, abs_lt]
      constructor
      · linarith
      · linarith)
  have hmiddle' := hmiddle.2
  rw [htwo, halfStep, abs_le] at hmiddle'
  have heq : Id.run (multiplier f) = (k.a + k.b) / Scalar.ofNat 2 := hresult
  rw [heq]
  refine ⟨n, k, hk, hmiddle.1, by linarith, ?_⟩
  rw [abs_le]
  constructor
  · linarith
  · linarith

theorem Overflows.multiplier_le {f : Float → Float} {t : Float} (h : Overflows f t)
    (hfirst : lowProbe (Scalar.ofNat 0) (Scalar.ofNat 10) ≤ t) :
    value (view (Id.run (multiplier f))) ≤ value (view t) + 1 / 10 ^ 10 := by
  obtain ⟨n, k, hk, -, hwidth, hmiddle⟩ := exists_middle f
  have hprobe := h.lowProbe_le hfirst hk
  have hbefore : value (view k.a) < value (view k.c) :=
    (doubleRuler.measures hk).laid.ordered.1
  rw [abs_le] at hmiddle
  linarith

theorem Overflows.lt_multiplier {f : Float → Float} {t : Float} (h : Overflows f t)
    (hfirst : t < lowProbe (Scalar.ofNat 0) (Scalar.ofNat 10)) :
    10 - 1 / 10 ^ 10 < value (view (Id.run (multiplier f))) := by
  obtain ⟨n, k, hk, -, hwidth, hmiddle⟩ := exists_middle f
  obtain ⟨-, hupper⟩ := h.lt_lowProbe hfirst hk
  rw [abs_le] at hmiddle
  rw [hupper] at hwidth hmiddle
  linarith

/-- Whether a search avoids values that overflow is settled by its first lower probe, which lies
at about 3.82.  With a threshold from there on the multiplier is not beyond the threshold; with a
threshold before, it is the greatest there is. -/
theorem multiplier_avoids_overflow {f : Float → Float} {t : Float} (h : Overflows f t) :
    (Id.run (multiplier f)).isFinite = true ∧
    (lowProbe (Scalar.ofNat 0) (Scalar.ofNat 10) ≤ t →
      value (view (Id.run (multiplier f))) ≤ value (view t) + 1 / 10 ^ 10) ∧
    (t < lowProbe (Scalar.ofNat 0) (Scalar.ofNat 10) →
      10 - 1 / 10 ^ 10 < value (view (Id.run (multiplier f)))) := by
  obtain ⟨n, k, -, hfinite, -, -⟩ := exists_middle f
  exact ⟨hfinite, h.multiplier_le, h.lt_multiplier⟩

/-- A valley with straight sides whose values end at eight. -/
def valleyUpToEight (x : Float) : Float := if x ≤ 8.0 then (x - 1.0).abs else Binary64.nan

theorem multiplier_avoids_overflow_eight : Overflows valleyUpToEight 8.0 ∧
    value (view (Id.run (multiplier valleyUpToEight))) ≤ value (view 8.0) + 1 / 10 ^ 10 := by
  have hone : value (view 1.0) = 1 := by decide +kernel
  have height : value (view 8.0) = 8 := by decide +kernel
  have hoverflows : Overflows valleyUpToEight 8.0 := by
    refine ⟨by decide +kernel, by decide +kernel, fun x hx hle => ?_, fun x hlt hle => ?_⟩
    · have hfinite : x.isFinite = true := isFinite_of_between rfl rfl hx hle
      have hlow : 0 ≤ value (view x) := (le_iff_value rfl hfinite).mp hx
      have hhigh := (le_iff_value hfinite rfl).mp hle
      rw [height] at hhigh
      have hnear := sub_near hfinite (y := 1.0) rfl (by
        rw [hone, abs_lt]
        constructor
        · linarith
        · linarith)
      rw [valleyUpToEight, if_pos hle, isFinite_abs]
      exact hnear.1
    · have hfinite : x.isFinite = true := isFinite_of_between rfl rfl (le_of_lt hlt) hle
      have hnot : ¬x ≤ 8.0 := fun hle => not_lt_of_le hfinite hle hlt
      rw [valleyUpToEight, if_neg hnot]
      rfl
  exact ⟨hoverflows, (multiplier_avoids_overflow hoverflows).2.1 (by decide +kernel)⟩

/-! ## A search that ends among values that overflow -/

/-- The greatest double. -/
def greatest : Float := 1.7976931348623157e308

theorem value_greatest : value (view greatest) = ((2 ^ 53 - 1 : ℕ) : ℚ) * 2 ^ (971 : ℤ) := by
  decide +kernel

/-- The numbers up to one as they are, and no numbers beyond. -/
def steep (x : Float) : Float := x - (x * greatest - x * greatest)

theorem isFinite_greatest : greatest.isFinite = true := by decide +kernel

/-- There is no double between one and the next one. -/
theorem le_of_one_lt {x : Float} (hx : x.isFinite = true) (hlt : 1.0 < x) :
    1.0000000000000002 ≤ x := by
  have hfinite : (1.0000000000000002 : Float).isFinite = true := rfl
  have hone : ordinal (view 1.0) = 4607182418800017408 := rfl
  have hnext : ordinal (view 1.0000000000000002) = 4607182418800017409 := rfl
  refine le_of_not_lt hx hfinite fun hbelow => ?_
  have hnan := ne_nan_of_lt hbelow
  rw [lt_iff_ordinal (ne_nan_of_lt hlt) hnan] at hlt
  rw [lt_iff_ordinal hnan (ne_nan_of_isFinite hfinite)] at hbelow
  omega

theorem steep_before {x : Float} (hx : 0.0 ≤ x) (hle : x ≤ 1.0) :
    (steep x).isFinite = true ∧ value (view (steep x)) = value (view x) := by
  have hfinite : x.isFinite = true := isFinite_of_le_of_le hx hle
  have hlow : 0 ≤ value (view x) := (le_iff_value rfl hfinite).mp hx
  have hhigh := (le_iff_value hfinite rfl).mp hle
  rw [value_one] at hhigh
  have hpos : (0 : ℚ) ≤ ((2 ^ 53 - 1 : ℕ) : ℚ) * 2 ^ (971 : ℤ) := by positivity
  have hproduct : (x * greatest).isFinite = true := by
    have hround := roundsTo_mul (isDouble_view x) (isDouble_view greatest) hfinite
      isFinite_greatest
    rw [value_greatest] at hround
    rw [mul_eq]
    exact hround.isFinite_of_le (mul_nonneg hlow hpos)
      ⟨by decide, by decide, by decide, .inl (by decide)⟩ le_rfl
      (mul_le_of_le_one_left hpos hhigh)
  obtain ⟨s, hs⟩ := exists_view_sub_self hproduct
  exact value_sub_zero hfinite hs

theorem steep_beyond {x : Float} (hlt : 1.0 < x) (hle : x ≤ 10.0) :
    (steep x).isFinite = false := by
  have hfinite : x.isFinite = true := isFinite_of_between rfl rfl (le_of_lt hlt) hle
  have hnext : 1 + 1 / 2 ^ 52 ≤ value (view x) := by
    have hvalue : value (view 1.0000000000000002) = 1 + 1 / 2 ^ 52 := by
      rw [show view 1.0000000000000002 = .finite .positive (2 ^ 52 + 1) (-52) (by decide) from rfl]
      norm_num [value]
    rw [← hvalue]
    exact (le_iff_value rfl hfinite).mp (le_of_one_lt hfinite hlt)
  have hproduct : (x * greatest).isFinite = false := by
    have hround := roundsTo_mul (isDouble_view x) (isDouble_view greatest) hfinite
      isFinite_greatest
    rw [mul_eq]
    refine hround.not_isFinite_of_le ?_
    rw [value_greatest]
    calc
      (2 : ℚ) ^ 1024 = 2 ^ 53 * 2 ^ (971 : ℤ) := by
        rw [← zpow_natCast, ← zpow_natCast, ← zpow_add₀ (by norm_num)]
        norm_num
      _ ≤ (1 + 1 / 2 ^ 52) * ((2 ^ 53 - 1 : ℕ) : ℚ) * 2 ^ (971 : ℤ) := by
        refine mul_le_mul_of_nonneg_right ?_ (by positivity)
        norm_num
      _ ≤ value (view x) * (((2 ^ 53 - 1 : ℕ) : ℚ) * 2 ^ (971 : ℤ)) := by
        rw [mul_assoc]
        exact mul_le_mul_of_nonneg_right hnext (by positivity)
  rw [Bool.eq_false_iff]
  intro hsteep
  have hrest : (x * greatest - x * greatest).isFinite = true := (isFinite_of_sub hsteep).2
  have hback : (x * greatest).isFinite = true := (isFinite_of_sub hrest).1
  rw [hproduct] at hback
  contradiction

/-- The function grows as long as it has values, up to one, and the search goes to ten. -/
theorem multiplier_of_steep_overflows : Overflows steep 1.0 ∧
    (∀ x y, 0.0 ≤ x → x < y → y ≤ 1.0 → steep x < steep y) ∧
    10 - 1 / 10 ^ 10 < value (view (Id.run (multiplier steep))) := by
  have hoverflows : Overflows steep 1.0 :=
    ⟨by decide +kernel, by decide +kernel, fun x hx hle => (steep_before hx hle).1,
      fun x hlt hle => steep_beyond hlt hle⟩
  refine ⟨hoverflows, fun x y hx hlt hle => ?_, hoverflows.lt_multiplier (by decide +kernel)⟩
  have hfinite : x.isFinite = true := isFinite_of_le_of_lt rfl hx hlt
  have hfinite' : y.isFinite = true := isFinite_of_between hfinite rfl (le_of_lt hlt) hle
  have hxy := (lt_iff_value hfinite hfinite').mp hlt
  have hlow : value (view 0.0) ≤ value (view x) := (le_iff_value rfl hfinite).mp hx
  have hhigh := (le_iff_value hfinite' rfl).mp hle
  obtain ⟨hsteep, hvalue⟩ := steep_before hx ((le_iff_value hfinite rfl).mpr (hxy.le.trans hhigh))
  obtain ⟨hsteep', hvalue'⟩ := steep_before
    ((le_iff_value rfl hfinite').mpr (hlow.trans hxy.le)) hle
  rw [lt_iff_value hsteep hsteep', hvalue, hvalue']
  exact hxy

end GoldenSection
end SymbolicRegression
