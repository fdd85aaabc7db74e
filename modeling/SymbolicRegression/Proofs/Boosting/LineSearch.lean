import SymbolicRegression.Boosting.LineSearch
import SymbolicRegression.Proofs.Metric.RocCurve

/-!
Where the brackets of a golden-section search lie.

A step keeps one probe and draws the other one anew.  The ratio is not exactly golden, and where
numbers are rounded the new probe is a little off, so that the probe which is kept is never quite
where the ratio would put it.  The distances of both probes from their places, their slips, are
what has to be followed: a step makes one of them fresh and turns the other one into a sum of the
two, so that they grow by a constant at most (`Layout.abs_slip_le`), and before they have grown
the bracket is narrow (`Layout.Laid.move`).

All of this is said of the places of brackets on the line of the rationals.  A `Ruler` says where
a number of some arithmetic lies on that line, and how well a probe is placed.  Exact arithmetic
has one, and there the search finds the minimum of every function with one valley.
-/

namespace SymbolicRegression
namespace GoldenSection

/-! ## Places -/

/-- The places of a bracket and its probes. -/
structure Layout where
  a : ℚ
  b : ℚ
  c : ℚ
  d : ℚ

/-- The share that is kept, as it is written. -/
def ratio : ℚ := 10 ^ 15 / 1618033988749895

/-- How far off a new probe may be. -/
def slack : ℚ := 1 / 10 ^ 14

theorem slack_nonneg : 0 ≤ slack := by
  unfold slack
  norm_num

/-- How much a slip may grow in a step. -/
def drift : ℚ := 12 / 10 ^ 15

/-- What the ratio lacks of being golden. -/
theorem ratio_golden : 0 ≤ 1 - ratio - ratio ^ 2 ∧ 1 - ratio - ratio ^ 2 ≤ 2 / 10 ^ 16 := by
  unfold ratio
  norm_num

namespace Layout

def width (k : Layout) : ℚ := k.b - k.a

def slipLow (k : Layout) : ℚ := k.b - k.c - ratio * k.width

def slipHigh (k : Layout) : ℚ := k.d - k.a - ratio * k.width

/-- One step to either side. -/
inductive Moves : Layout → Layout → Prop where
  | left {a b c d new : ℚ} (h : |d - new - ratio * (d - a)| ≤ slack) :
      Moves ⟨a, b, c, d⟩ ⟨a, d, new, c⟩
  | right {a b c d new : ℚ} (h : |new - c - ratio * (b - c)| ≤ slack) :
      Moves ⟨a, b, c, d⟩ ⟨c, b, d, new⟩

/-- One of the slips is that of a fresh probe. -/
def Fresh (x y bound : ℚ) : Prop := |x| ≤ slack ∧ |y| ≤ bound ∨ |y| ≤ slack ∧ |x| ≤ bound

/-- The slip of a probe that is kept comes from both slips before. -/
theorem abs_slip_le {w x y bound : ℚ} (hw : 0 ≤ w) (hw' : w ≤ 10) (h : Fresh x y bound) :
    |(1 - ratio - ratio ^ 2) * w - x - ratio * y| ≤ bound + drift := by
  obtain ⟨hgolden, hgolden'⟩ := ratio_golden
  have hratio : 0 ≤ ratio ∧ ratio ≤ 1 := by
    unfold ratio
    norm_num
  have hrest : |(1 - ratio - ratio ^ 2) * w| ≤ 2 / 10 ^ 15 := by
    rw [abs_of_nonneg (mul_nonneg hgolden hw)]
    calc
      (1 - ratio - ratio ^ 2) * w ≤ 2 / 10 ^ 16 * 10 := by gcongr
      _ = 2 / 10 ^ 15 := by norm_num
  have hscaled : |ratio * y| ≤ |y| := by
    rw [abs_mul, abs_of_nonneg hratio.1]
    exact mul_le_of_le_one_left (abs_nonneg y) hratio.2
  have hsum : |x| + |y| ≤ bound + slack := by
    rcases h with ⟨hx, hy⟩ | ⟨hy, hx⟩
    · linarith
    · linarith
  have hdrift : slack + 2 / 10 ^ 15 = drift := by
    unfold slack drift
    norm_num
  calc
    |(1 - ratio - ratio ^ 2) * w - x - ratio * y|
      ≤ |(1 - ratio - ratio ^ 2) * w| + |x| + |ratio * y| :=
        (abs_sub _ _).trans (add_le_add_left (abs_sub _ _) _)
    _ ≤ bound + drift := by linarith

/-- What is known of a bracket after `n` steps. -/
structure Laid (n : ℕ) (k : Layout) : Prop where
  low : 0 ≤ k.a
  high : k.b ≤ 10
  soon : n ≤ 59
  wide : 5 / 10 ^ 11 ≤ k.width
  shrunk : k.width ≤ 10 * (13 / 20) ^ n
  slips : Fresh k.slipLow k.slipHigh ((n + 1) * drift)

variable {n : ℕ} {k k' : Layout}

theorem Laid.width_le (h : k.Laid n) : k.width ≤ 10 := by
  have hlow := h.low
  have hhigh := h.high
  unfold width
  linarith

theorem Laid.abs_slips_le (h : k.Laid n) :
    |k.slipLow| ≤ 1 / 10 ^ 12 ∧ |k.slipHigh| ≤ 1 / 10 ^ 12 := by
  have hn : (n : ℚ) ≤ 59 := by exact_mod_cast h.soon
  have hbound : ((n : ℚ) + 1) * drift ≤ 1 / 10 ^ 12 := by
    calc
      ((n : ℚ) + 1) * drift ≤ (59 + 1) * drift := by
        have hdrift : 0 ≤ drift := by
          unfold drift
          norm_num
        gcongr
      _ ≤ 1 / 10 ^ 12 := by
        unfold drift
        norm_num
  have hslack : slack ≤ 1 / 10 ^ 12 := by
    unfold slack
    norm_num
  rcases h.slips with ⟨hx, hy⟩ | ⟨hy, hx⟩
  · exact ⟨hx.trans hslack, hy.trans hbound⟩
  · exact ⟨hx.trans hbound, hy.trans hslack⟩

/-- The probes are apart from the ends, and from each other. -/
theorem Laid.ordered (h : k.Laid n) : k.a < k.c ∧ k.c < k.d ∧ k.d < k.b := by
  obtain ⟨hlow, hhigh⟩ := h.abs_slips_le
  have hwide := h.wide
  rw [abs_le] at hlow hhigh
  unfold slipLow slipHigh width ratio at *
  refine ⟨?_, ?_, ?_⟩
  · linarith
  · linarith
  · linarith

/-- A bracket that is not narrow has not seen many steps. -/
theorem Laid.lt_of_wide (h : k.Laid n) (hwide : 98 / 10 ^ 12 ≤ k.width) : n < 59 := by
  by_contra hn
  have hpow : ((13 : ℚ) / 20) ^ n ≤ (13 / 20) ^ 59 :=
    pow_le_pow_of_le_one (by norm_num) (by norm_num) (not_lt.mp hn)
  have hnarrow : 10 * ((13 : ℚ) / 20) ^ 59 < 98 / 10 ^ 12 := by norm_num
  have hshrunk := h.shrunk
  linarith

/-- The part of a bracket up to a probe, or from a probe on. -/
theorem Laid.part {x : ℚ} (h : k.Laid n) (hwide : 98 / 10 ^ 12 ≤ k.width)
    (hx : |x - ratio * k.width| ≤ 1 / 10 ^ 12) :
    5 / 10 ^ 11 ≤ x ∧ x ≤ 10 * (13 / 20) ^ (n + 1) := by
  have hshrunk := h.shrunk
  rw [abs_le] at hx
  unfold ratio at hx
  constructor
  · linarith
  · calc
      x ≤ 13 / 20 * k.width := by linarith
      _ ≤ 13 / 20 * (10 * (13 / 20) ^ n) := by gcongr
      _ = 10 * (13 / 20) ^ (n + 1) := by ring

/-- A step from a bracket that is not narrow. -/
theorem Laid.move (h : k.Laid n) (hwide : 98 / 10 ^ 12 ≤ k.width) (hmove : Moves k k') :
    k'.Laid (n + 1) := by
  have hordered := h.ordered
  have hsoon := h.lt_of_wide hwide
  have hpos : 0 ≤ k.width := by linarith [h.wide]
  have hgrown : ((n + 1 : ℕ) + 1 : ℚ) * drift = (n + 1) * drift + drift := by
    push_cast
    ring
  obtain ⟨hlow, hhigh⟩ := h.abs_slips_le
  cases hmove with
  | @left a b c d new hnew =>
    have hpart := h.part (x := d - a) hwide hhigh
    refine ⟨h.low, hordered.2.2.le.trans h.high, hsoon, hpart.1, hpart.2, .inl ⟨hnew, ?_⟩⟩
    have hslip : slipHigh ⟨a, d, new, c⟩ = (1 - ratio - ratio ^ 2) * width ⟨a, b, c, d⟩ -
        slipLow ⟨a, b, c, d⟩ - ratio * slipHigh ⟨a, b, c, d⟩ := by
      simp only [slipLow, slipHigh, width]
      ring
    rw [hslip, hgrown]
    exact abs_slip_le hpos h.width_le h.slips
  | @right a b c d new hnew =>
    have hpart := h.part (x := b - c) hwide hlow
    refine ⟨h.low.trans hordered.1.le, h.high, hsoon, hpart.1, hpart.2, .inr ⟨hnew, ?_⟩⟩
    have hslip : slipLow ⟨c, b, d, new⟩ = (1 - ratio - ratio ^ 2) * width ⟨a, b, c, d⟩ -
        slipHigh ⟨a, b, c, d⟩ - ratio * slipLow ⟨a, b, c, d⟩ := by
      simp only [slipLow, slipHigh, width]
      ring
    rw [hslip, hgrown]
    exact abs_slip_le hpos h.width_le h.slips.symm

end Layout

/-! ## Searches -/

section

variable {α β : Type} [Scalar α] [Comparable β] {f : α → β} {k : Bracket α β} {n : ℕ}

/-- The brackets of a search for a multiplier.  A narrow bracket is the last one. -/
inductive Reached (f : α → β) : ℕ → Bracket α β → Prop where
  | start : Reached f 0 (start (m := Id) f (Scalar.ofNat 0) (Scalar.ofNat 10))
  | step {n : ℕ} {k : Bracket α β} (h : Reached f n k)
      (hwide : isNarrow (Scalar.ofDecimal 1 10) k = false) :
      Reached f (n + 1) (step (m := Id) f k)

theorem step_left (h : isBetter k.atC k.atD = true) :
    step (m := Id) f k =
      { a := k.a, b := k.d, c := lowProbe k.a k.d, d := k.c,
        atC := score (f (lowProbe k.a k.d)), atD := k.atC } := by
  unfold step
  rw [if_pos h]
  rfl

theorem step_right (h : isBetter k.atC k.atD = false) :
    step (m := Id) f k =
      { a := k.c, b := k.b, c := k.d, d := highProbe k.c k.b,
        atC := k.atD, atD := score (f (highProbe k.c k.b)) } := by
  unfold step
  rw [if_neg (Bool.eq_false_iff.mp h)]
  rfl

/-- Every score of a bracket belongs to the probe it is kept with. -/
structure Scored (f : α → β) (k : Bracket α β) : Prop where
  low : k.atC = score (f k.c)
  high : k.atD = score (f k.d)

/-- The probe that is kept takes its score with it. -/
theorem Scored.step (h : Scored f k) : Scored f (step (m := Id) f k) := by
  cases hbetter : isBetter k.atC k.atD with
  | true =>
    rw [step_left hbetter]
    exact ⟨rfl, h.low⟩
  | false =>
    rw [step_right hbetter]
    exact ⟨h.high, rfl⟩

theorem Reached.scores (h : Reached f n k) : Scored f k := by
  induction h with
  | start => exact ⟨rfl, rfl⟩
  | step _ _ ih => exact ih.step

/-- The ends of a bracket that can be searched. -/
structure Inside (place : α → ℚ) (Fits : α → Prop) (a b : α) : Prop where
  fits : Fits a ∧ Fits b
  low : 0 ≤ place a
  ordered : place a ≤ place b
  high : place b ≤ 10

/-- Where numbers lie on the line of the rationals, for those that lie on it. -/
structure Ruler (α : Type) [Scalar α] where
  place : α → ℚ
  Fits : α → Prop
  ordered : Comparable.atMost (Scalar.ofNat 0) (Scalar.ofNat 10 : α) = true
  zero : Fits (Scalar.ofNat 0) ∧ place (Scalar.ofNat 0) = 0
  ten : Fits (Scalar.ofNat 10) ∧ place (Scalar.ofNat 10) = 10
  lowProbe {a b : α} : Inside place Fits a b → Fits (lowProbe a b) ∧
    |place b - place (lowProbe a b) - ratio * (place b - place a)| ≤ slack
  highProbe {a b : α} : Inside place Fits a b → Fits (highProbe a b) ∧
    |place (highProbe a b) - place a - ratio * (place b - place a)| ≤ slack
  wide {a b : α} : Inside place Fits a b →
    Comparable.less (Scalar.abs (b - a)) (Scalar.ofDecimal 1 10) = false →
    98 / 10 ^ 12 ≤ place b - place a

namespace Ruler

variable (R : Ruler α)

def layout (k : Bracket α β) : Layout := ⟨R.place k.a, R.place k.b, R.place k.c, R.place k.d⟩

/-- A bracket on the line, after `n` steps. -/
structure Measures (n : ℕ) (k : Bracket α β) : Prop where
  ends : R.Fits k.a ∧ R.Fits k.b
  probes : R.Fits k.c ∧ R.Fits k.d
  laid : (R.layout k).Laid n

variable {R}

omit [Comparable β] in
theorem Measures.inside (h : R.Measures n k) : Inside R.place R.Fits k.a k.b := by
  have hordered := h.laid.ordered
  exact ⟨h.ends, h.laid.low, (hordered.1.trans (hordered.2.1.trans hordered.2.2)).le, h.laid.high⟩

omit [Comparable β] in
theorem Measures.wide (h : R.Measures n k) (hwide : isNarrow (Scalar.ofDecimal 1 10) k = false) :
    98 / 10 ^ 12 ≤ (R.layout k).width :=
  R.wide h.inside hwide

theorem Measures.step (h : R.Measures n k) (hwide : isNarrow (Scalar.ofDecimal 1 10) k = false) :
    R.Measures (n + 1) (step (m := Id) f k) := by
  have hordered := h.laid.ordered
  have hlong := h.wide hwide
  cases hbetter : isBetter k.atC k.atD with
  | true =>
    have hinside : Inside R.place R.Fits k.a k.d :=
      ⟨⟨h.ends.1, h.probes.2⟩, h.laid.low, (hordered.1.trans hordered.2.1).le,
        hordered.2.2.le.trans h.laid.high⟩
    obtain ⟨hfits, hnew⟩ := R.lowProbe hinside
    rw [step_left hbetter]
    exact ⟨⟨h.ends.1, h.probes.2⟩, ⟨hfits, h.probes.1⟩, h.laid.move hlong (.left hnew)⟩
  | false =>
    have hinside : Inside R.place R.Fits k.c k.b :=
      ⟨⟨h.probes.1, h.ends.2⟩, h.laid.low.trans hordered.1.le,
        (hordered.2.1.trans hordered.2.2).le, h.laid.high⟩
    obtain ⟨hfits, hnew⟩ := R.highProbe hinside
    rw [step_right hbetter]
    exact ⟨⟨h.probes.1, h.ends.2⟩, ⟨h.probes.2, hfits⟩, h.laid.move hlong (.right hnew)⟩

variable (R)

include R

/-- The bounds come in their order. -/
theorem start_eq :
    start (m := Id) f (Scalar.ofNat 0) (Scalar.ofNat 10) =
      let c := GoldenSection.lowProbe (Scalar.ofNat 0) (Scalar.ofNat 10)
      let d := GoldenSection.highProbe (Scalar.ofNat 0) (Scalar.ofNat 10)
      { a := Scalar.ofNat 0, b := Scalar.ofNat 10, c, d
        atC := score (f c), atD := score (f d) } := by
  unfold start
  rw [if_pos R.ordered]
  rfl

theorem measures (h : Reached f n k) : R.Measures n k := by
  induction h with
  | start =>
    obtain ⟨hzero, hzero'⟩ := R.zero
    obtain ⟨hten, hten'⟩ := R.ten
    have hinside : Inside R.place R.Fits (Scalar.ofNat 0) (Scalar.ofNat 10) :=
      ⟨⟨hzero, hten⟩, hzero'.ge, by rw [hzero', hten']; norm_num, hten'.le⟩
    obtain ⟨hlow, hlow'⟩ := R.lowProbe hinside
    obtain ⟨hhigh, hhigh'⟩ := R.highProbe hinside
    have hdrift : slack ≤ ((0 : ℕ) + 1) * drift := by
      unfold slack drift
      norm_num
    rw [R.start_eq]
    refine ⟨⟨hzero, hten⟩, ⟨hlow, hhigh⟩, hzero'.ge, hten'.le, by norm_num, ?_, ?_,
      .inl ⟨hlow', hhigh'.trans hdrift⟩⟩
    · show 5 / 10 ^ 11 ≤ R.place (Scalar.ofNat 10) - R.place (Scalar.ofNat 0)
      rw [hzero', hten']
      norm_num
    · show R.place (Scalar.ofNat 10) - R.place (Scalar.ofNat 0) ≤ _
      rw [hzero', hten']
      norm_num
  | step _ hwide ih => exact ih.step hwide

/-- With steps enough left, a search ends in a narrow bracket. -/
theorem shrink_of_reached (left : ℕ) (hleft : 60 ≤ n + left) (h : Reached f n k) :
    ∃ (n' : ℕ) (k' : Bracket α β), n' < 60 ∧ Reached f n' k' ∧
      isNarrow (Scalar.ofDecimal 1 10) k' = true ∧
      shrink (m := Id) f (Scalar.ofDecimal 1 10) left k = k' := by
  have hsoon := (R.measures h).laid.soon
  induction left generalizing n k with
  | zero => omega
  | succ left ih =>
    unfold shrink
    cases hnarrow : isNarrow (Scalar.ofDecimal 1 10) k with
    | true => exact ⟨n, k, by omega, h, hnarrow, rfl⟩
    | false =>
      have hnext := h.step hnarrow
      exact ih (by omega) hnext (R.measures hnext).laid.soon

/-- The search leaves by the width of its bracket, long before the last step it may take. -/
theorem exists_narrow (f : α → β) :
    ∃ (n : ℕ) (k : Bracket α β), n < stepLimit ∧ Reached f n k ∧
      isNarrow (Scalar.ofDecimal 1 10) k = true ∧
      Id.run (multiplier f) = (k.a + k.b) / Scalar.ofNat 2 := by
  obtain ⟨n, k, hn, h, hnarrow, hk⟩ :=
    R.shrink_of_reached stepLimit (by unfold stepLimit; omega) (.start (f := f))
  refine ⟨n, k, hn.trans (by unfold stepLimit; omega), h, hnarrow, ?_⟩
  unfold multiplier minimum
  rw [← hk]
  rfl

end Ruler

end

/-! ## Exact arithmetic -/

section

variable [Elementary ℚ] {β : Type} [Comparable β] {f : ℚ → β} {m : ℚ}

theorem kept_eq : (kept : ℚ) = ratio := by
  show ((1 : ℕ) : ℚ) / ((1618033988749895 : ℕ) / 10 ^ 15) = ratio
  unfold ratio
  norm_num

/-- Nothing is rounded, and every probe is where the ratio puts it. -/
def exactRuler : Ruler ℚ where
  place := id
  Fits _ := True
  ordered := Exact.atMost_iff.mpr (by rw [Exact.ofNat_zero]; exact Nat.cast_nonneg 10)
  zero := ⟨trivial, Exact.ofNat_zero⟩
  ten := ⟨trivial, Nat.cast_ofNat⟩
  lowProbe {a b} _ := by
    have hslip : b - (b - (b - a) * kept) - ratio * (b - a) = 0 := by
      rw [kept_eq]
      ring
    refine ⟨trivial, ?_⟩
    show |b - (b - (b - a) * kept) - ratio * (b - a)| ≤ slack
    rw [hslip, abs_zero]
    exact slack_nonneg
  highProbe {a b} _ := by
    have hslip : a + (b - a) * kept - a - ratio * (b - a) = 0 := by
      rw [kept_eq]
      ring
    refine ⟨trivial, ?_⟩
    show |a + (b - a) * kept - a - ratio * (b - a)| ≤ slack
    rw [hslip, abs_zero]
    exact slack_nonneg
  wide {a b} h hwide := by
    have hle : ((1 : ℕ) : ℚ) / 10 ^ 10 ≤ |b - a| := not_lt.mp (of_decide_eq_false hwide)
    have hordered : a ≤ b := h.ordered
    rw [abs_of_nonneg (sub_nonneg.mpr hordered)] at hle
    show 98 / 10 ^ 12 ≤ b - a
    refine le_trans ?_ hle
    norm_num

/-- A function with one valley between zero and ten, all of whose values are finite. -/
structure Valley (f : ℚ → β) (m : ℚ) : Prop where
  inside : 0 ≤ m ∧ m ≤ 10
  finite : ∀ x, 0 ≤ x → x ≤ 10 → Comparable.isFinite (f x) = true
  falls : ∀ x y, 0 ≤ x → x < y → y ≤ m → Comparable.less (f y) (f x) = true
  rises : ∀ x y, m ≤ x → x < y → y ≤ 10 → Comparable.less (f x) (f y) = true

/-- The bottom of the valley is never dropped: beyond the worse of two probes there is none. -/
theorem Valley.mem_bracket (hless : ∀ v w : β, Comparable.less v w = true →
    Comparable.less w v = false) (h : Valley f m) {n : ℕ} {k : Bracket ℚ β} (hk : Reached f n k) :
    k.a ≤ m ∧ m ≤ k.b := by
  induction hk with
  | start =>
    rw [exactRuler.start_eq]
    exact ⟨exactRuler.zero.2.trans_le h.inside.1, h.inside.2.trans_eq exactRuler.ten.2.symm⟩
  | @step n k hk _ ih =>
    have hlaid := (exactRuler.measures hk).laid
    obtain ⟨hac, hcd, hdb⟩ : k.a < k.c ∧ k.c < k.d ∧ k.d < k.b := hlaid.ordered
    have hlow : 0 ≤ k.a := hlaid.low
    have hhigh : k.b ≤ 10 := hlaid.high
    have hc := h.finite k.c (by linarith) (by linarith)
    have hd := h.finite k.d (by linarith) (by linarith)
    have hscore : isBetter k.atC k.atD = Comparable.less (f k.c) (f k.d) := by
      rw [hk.scores.1, hk.scores.2, score, score, if_pos hc, if_pos hd, isBetter]
    cases hbetter : isBetter k.atC k.atD with
    | true =>
      rw [step_left hbetter]
      refine ⟨ih.1, not_lt.mp fun hlt => ?_⟩
      have hfalls := h.falls k.c k.d (by linarith) hcd hlt.le
      rw [hscore] at hbetter
      rw [hless _ _ hbetter] at hfalls
      contradiction
    | false =>
      rw [step_right hbetter]
      refine ⟨not_lt.mp fun hlt => ?_, ih.2⟩
      have hrises := h.rises k.c k.d hlt.le hcd (by linarith)
      rw [← hscore, hbetter] at hrises
      contradiction

/-- Whatever the function, all brackets have their probes in order between zero and ten, and the
search ends because a bracket is narrow.  If the function has one valley, its bottom lies in all
brackets, and the search comes as near to it as it should. -/
theorem multiplier_brackets_minimum (f : ℚ → β) :
    (∀ n k, Reached f n k → 0 ≤ k.a ∧ k.a < k.c ∧ k.c < k.d ∧ k.d < k.b ∧ k.b ≤ 10) ∧
    (∃ n k, n < stepLimit ∧ Reached f n k ∧ isNarrow (Scalar.ofDecimal 1 10) k = true ∧
      Id.run (multiplier f) = (k.a + k.b) / 2) ∧
    0 ≤ Id.run (multiplier f) ∧ Id.run (multiplier f) ≤ 10 ∧
    ((∀ v w : β, Comparable.less v w = true → Comparable.less w v = false) →
      ∀ m, Valley f m → (∀ n k, Reached f n k → k.a ≤ m ∧ m ≤ k.b) ∧
        |Id.run (multiplier f) - m| < 1 / 10 ^ 10) := by
  have hbrackets (n : ℕ) (k : Bracket ℚ β) (h : Reached f n k) :
      0 ≤ k.a ∧ k.a < k.c ∧ k.c < k.d ∧ k.d < k.b ∧ k.b ≤ 10 := by
    have hlaid := (exactRuler.measures h).laid
    have hordered := hlaid.ordered
    exact ⟨hlaid.low, hordered.1, hordered.2.1, hordered.2.2, hlaid.high⟩
  obtain ⟨n, k, hn, h, hnarrow, hresult⟩ := exactRuler.exists_narrow f
  have hmiddle : Id.run (multiplier f) = (k.a + k.b) / 2 := hresult
  obtain ⟨hlow, hac, hcd, hdb, hhigh⟩ := hbrackets n k h
  refine ⟨hbrackets, ⟨n, k, hn, h, hnarrow, hmiddle⟩, ?_, ?_, fun hless m hm => ?_⟩
  · rw [hmiddle]
    linarith
  · rw [hmiddle]
    linarith
  · refine ⟨fun n k h => hm.mem_bracket hless h, ?_⟩
    obtain ⟨ham, hmb⟩ := hm.mem_bracket hless h
    have hwidth : |k.b - k.a| < ((1 : ℕ) : ℚ) / 10 ^ 10 := of_decide_eq_true hnarrow
    rw [abs_of_pos (by linarith), Nat.cast_one] at hwidth
    rw [hmiddle, abs_lt]
    constructor
    · linarith
    · linarith

end

/-- A valley with straight sides. -/
def straight (x : ℚ) : ℚ := |x - 5 / 2|

theorem multiplier_brackets_minimum_straight :
    letI := Metric.Roc.unasked
    Valley straight (5 / 2) ∧
    (∀ n k, Reached straight n k → k.a ≤ 5 / 2 ∧ 5 / 2 ≤ k.b) ∧
    |Id.run (multiplier straight) - 5 / 2| < 1 / 10 ^ 10 := by
  let := Metric.Roc.unasked
  have hvalley : Valley straight (5 / 2) := by
    refine ⟨by norm_num, fun _ _ _ => rfl, fun x y _ hxy hy => ?_, fun x y hx hxy _ => ?_⟩
    · refine decide_eq_true ?_
      rw [straight, straight, abs_of_nonpos (by linarith), abs_of_nonpos (by linarith)]
      linarith
    · refine decide_eq_true ?_
      rw [straight, straight, abs_of_nonneg (by linarith), abs_of_nonneg (by linarith)]
      linarith
  have hless (v w : ℚ) (h : Comparable.less v w = true) : Comparable.less w v = false :=
    decide_eq_false (of_decide_eq_true h).asymm
  obtain ⟨-, -, -, -, hfinds⟩ := multiplier_brackets_minimum straight
  exact ⟨hvalley, hfinds hless _ hvalley⟩

end GoldenSection
end SymbolicRegression
