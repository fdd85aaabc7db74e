import Mathlib
import SymbolicRegression.Metric.Mean

/-!
Exact arithmetic.

Losses and scores are written over any scalars, and an ordered field is one where nothing is
rounded and every value is a number.  Roots, exponentials and logarithms, and the value of a
score that is undefined, are left open.
-/

namespace SymbolicRegression

/-- Functions that exact arithmetic takes as they come. -/
class Elementary (K : Type) where
  undefined : K
  sqrt : K → K
  exp : K → K
  log : K → K

namespace Exact

variable {K : Type} [Field K] [LinearOrder K] [Elementary K]

instance : Scalar K where
  less a b := decide (a < b)
  same a b := decide (a = b)
  isFinite _ := true
  isNaN _ := false
  rank := compare
  ofNat n := n
  ofDecimal m places := m / 10 ^ places
  undefined := Elementary.undefined
  abs a := |a|
  sqrt := Elementary.sqrt
  exp := Elementary.exp
  log := Elementary.log

theorem ofNat_zero : (Scalar.ofNat 0 : K) = 0 := Nat.cast_zero

theorem ofNat_one : (Scalar.ofNat 1 : K) = 1 := Nat.cast_one

theorem same_iff {a b : K} : Comparable.same a b = true ↔ a = b := decide_eq_true_iff

theorem atMost_iff {a b : K} : Comparable.atMost a b = true ↔ a ≤ b := by
  unfold Comparable.atMost
  rw [Bool.or_eq_true, same_iff, le_iff_lt_or_eq]
  exact or_congr_left decide_eq_true_iff

theorem ratio_eq (a b : K) : Scalar.ratio a b = if b = 0 then 0 else a / b := by
  unfold Scalar.ratio
  simp only [ofNat_zero, same_iff]

/-- A sum from left to right, with a value in front. -/
theorem foldl_add_eq {ι M : Type} [AddMonoid M] (g : ι → M) (l : List ι) (a : M) :
    l.foldl (fun acc i => acc + g i) a = a + (l.map g).sum := by
  induction l generalizing a with
  | nil => simp
  | cons i l ih => rw [List.foldl_cons, ih, List.map_cons, List.sum_cons, add_assoc]

theorem sum_eq (l : List K) : Scalar.sum l = l.sum := by
  have hsum := foldl_add_eq id l (-Scalar.ofNat 0 : K)
  rw [List.map_id] at hsum
  unfold Scalar.sum
  refine hsum.trans ?_
  rw [ofNat_zero, neg_zero, zero_add]

/-- What is left out of a sum might as well be zero. -/
theorem sum_filter {ι M : Type} [AddCommMonoid M] (p : ι → Bool) (g : ι → M) (l : List ι) :
    ((l.filter p).map g).sum = (l.map fun i => if p i = true then g i else 0).sum := by
  rw [List.sum_map_ite]
  simp

end Exact
end SymbolicRegression
