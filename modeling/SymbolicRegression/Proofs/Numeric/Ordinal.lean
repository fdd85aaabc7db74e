import SymbolicRegression.Numeric.Binary64
import SymbolicRegression.Proofs.Decimal.Layout
import SymbolicRegression.Proofs.Numeric.Order

/-!
Doubles by their number.

Counted from zero in both directions, every double that is a number has an ordinal, the
infinities included; both zeros have the ordinal zero.  Doubles compare as their ordinals do.
The total order that sorts them puts minus zero below zero and follows the ordinals otherwise.
-/

namespace SymbolicRegression

/-- What has been sorted by its keys stands in the order of these. -/
theorem pairwise_mergeSort_key {α β : Type} {cmp : β → β → Ordering} [Std.TransCmp cmp]
    (key : α → β) (l : List α) :
    (l.mergeSort fun a b => cmp (key a) (key b) != .gt).Pairwise
      fun a b => cmp (key a) (key b) ≠ .gt := by
  have hle (o : Ordering) : (o != .gt) = true ↔ o.isLE = true := by cases o <;> decide
  have hpairs : (l.mergeSort fun a b => cmp (key a) (key b) != .gt).Pairwise
      fun a b => (cmp (key a) (key b) != .gt) = true := by
    refine List.pairwise_mergeSort (fun a b c hab hbc => ?_) (fun a b => ?_) l
    · exact (hle _).mpr (Std.TransCmp.isLE_trans ((hle _).mp hab) ((hle _).mp hbc))
    · have hswap : cmp (key b) (key a) = (cmp (key a) (key b)).swap := Std.OrientedCmp.eq_swap
      rw [Bool.or_eq_true, hle, hle, hswap]
      cases cmp (key a) (key b) <;> decide
  exact hpairs.imp fun h => bne_iff_ne.mp h

namespace Binary64

open Float.Model Float.Model.UnpackedFloat
open Decimal

variable {s : Sign} {m m' : ℕ} {e e' : ℤ} {u v : UnpackedFloat}

/-- How many doubles lie between zero and this one, with a sign. -/
def ordinal : UnpackedFloat → ℤ
  | .finite s m e _ => s.apply ((e + 1074) * 2 ^ 52 + m)
  | .infinity s => s.apply (2047 * 2 ^ 52)
  | _ => 0

/-! ## Comparisons -/

theorem Canonical.ordinal_pos (h : Canonical m e) : 0 < (e + 1074) * 2 ^ 52 + (m : ℤ) := by
  have hpos := h.pos
  have hlow := h.low
  omega

theorem Canonical.ordinal_lt (h : Canonical m e) (he : e ≤ 971) :
    (e + 1074) * 2 ^ 52 + (m : ℤ) < 2047 * 2 ^ 52 := by
  have hlt := h.lt
  omega

theorem compare_exponent_first (hm : Canonical m e) (hm' : Canonical m' e') :
    (compare e e').then (compare m m') =
      compare ((e + 1074) * 2 ^ 52 + (m : ℤ)) ((e' + 1074) * 2 ^ 52 + m') := by
  have hlt := hm.lt
  have hlt' := hm'.lt
  have hlow := hm.low
  have hlow' := hm'.low
  have hnormal := hm.normal
  have hnormal' := hm'.normal
  rcases lt_trichotomy e e' with h | rfl | h
  · have hord : (e + 1074) * 2 ^ 52 + (m : ℤ) < (e' + 1074) * 2 ^ 52 + m' := by omega
    rw [compare_lt_iff_lt.mpr h, compare_lt_iff_lt.mpr hord]
    rfl
  · rw [compare_eq_iff_eq.mpr rfl]
    show compare m m' = _
    rcases lt_trichotomy m m' with h | rfl | h
    · rw [compare_lt_iff_lt.mpr h, compare_lt_iff_lt.mpr (by omega)]
    · rw [compare_eq_iff_eq.mpr rfl, compare_eq_iff_eq.mpr rfl]
    · rw [compare_gt_iff_gt.mpr h, compare_gt_iff_gt.mpr (by omega)]
  · have hord : (e' + 1074) * 2 ^ 52 + (m' : ℤ) < (e + 1074) * 2 ^ 52 + m := by omega
    rw [compare_gt_iff_gt.mpr h, compare_gt_iff_gt.mpr hord]
    rfl

theorem compare_neg_neg (a b : ℤ) : compare (-a) (-b) = (compare a b).swap := by
  rcases lt_trichotomy a b with h | rfl | h
  · rw [compare_lt_iff_lt.mpr h, compare_gt_iff_gt.mpr (by omega)]
    rfl
  · rw [compare_eq_iff_eq.mpr rfl, compare_eq_iff_eq.mpr rfl]
    rfl
  · rw [compare_gt_iff_gt.mpr h, compare_lt_iff_lt.mpr (by omega)]
    rfl

/-- Numbers compare as their ordinals do. -/
theorem compare_ordinal (hu : IsDouble u) (hv : IsDouble v) (hnu : u ≠ .notANumber)
    (hnv : v ≠ .notANumber) : u.compare v = some (compare (ordinal u) (ordinal v)) := by
  have hlt {a b : ℤ} (h : a < b) : some .lt = some (compare a b) := by
    rw [compare_lt_iff_lt.mpr h]
  have hgt {a b : ℤ} (h : b < a) : some .gt = some (compare a b) := by
    rw [compare_gt_iff_gt.mpr h]
  cases hu with
  | nan => exact absurd rfl hnu
  | infinity s =>
    cases hv with
    | nan => exact absurd rfl hnv
    | infinity s' => cases s <;> cases s' <;> rfl
    | zero s' => cases s <;> rfl
    | @finite s' m' e' hm' he' h' =>
      have hpos := hm'.ordinal_pos
      have hmax := hm'.ordinal_lt he'
      cases s with
      | positive => cases s' <;> exact hgt (by simp only [ordinal, Sign.apply]; omega)
      | negative => cases s' <;> exact hlt (by simp only [ordinal, Sign.apply]; omega)
  | zero s =>
    cases hv with
    | nan => exact absurd rfl hnv
    | infinity s' => cases s' <;> rfl
    | zero s' => rfl
    | @finite s' m' e' hm' he' h' =>
      have hpos := hm'.ordinal_pos
      cases s' with
      | positive => exact hlt hpos
      | negative => exact hgt (neg_lt_zero.mpr hpos)
  | @finite s m e hm he h =>
    have hpos := hm.ordinal_pos
    have hmax := hm.ordinal_lt he
    cases hv with
    | nan => exact absurd rfl hnv
    | infinity s' =>
      cases s' with
      | positive => cases s <;> exact hlt (by simp only [ordinal, Sign.apply]; omega)
      | negative => cases s <;> exact hgt (by simp only [ordinal, Sign.apply]; omega)
    | zero s' =>
      cases s with
      | positive => exact hgt hpos
      | negative => exact hlt (neg_lt_zero.mpr hpos)
    | @finite s' m' e' hm' he' h' =>
      have hpos' := hm'.ordinal_pos
      cases s with
      | positive =>
        cases s' with
        | positive => exact congrArg some (compare_exponent_first hm hm')
        | negative => exact hgt (by simp only [ordinal, Sign.apply]; omega)
      | negative =>
        cases s' with
        | positive => exact hlt (by simp only [ordinal, Sign.apply]; omega)
        | negative =>
          refine congrArg some ?_
          rw [compare_exponent_first hm hm', ← compare_neg_neg]
          rfl

variable {x y : Float}

theorem ne_nan_of_isNaN (h : x.isNaN = false) : view x ≠ .notANumber :=
  isNaN_iff_view.not.mp (Bool.eq_false_iff.mp h)

theorem isNaN_of_ne_nan (h : view x ≠ .notANumber) : x.isNaN = false :=
  Bool.eq_false_iff.mpr (isNaN_iff_view.not.mpr h)

theorem lt_iff_ordinal (hx : view x ≠ .notANumber) (hy : view y ≠ .notANumber) :
    x < y ↔ ordinal (view x) < ordinal (view y) := by
  rw [lt_iff, compare_ordinal (isDouble_view x) (isDouble_view y) hx hy, Option.some_inj,
    compare_lt_iff_lt]

theorem beq_iff_ordinal (hx : view x ≠ .notANumber) (hy : view y ≠ .notANumber) :
    (x == y) = true ↔ ordinal (view x) = ordinal (view y) := by
  show ((view x).compare (view y) == some .eq) = true ↔ _
  rw [compare_ordinal (isDouble_view x) (isDouble_view y) hx hy, beq_iff_eq, Option.some_inj,
    compare_eq_iff_eq]

theorem atMost_iff_ordinal (hx : view x ≠ .notANumber) (hy : view y ≠ .notANumber) :
    Comparable.atMost x y = true ↔ ordinal (view x) ≤ ordinal (view y) := by
  rw [Comparable.atMost, Bool.or_eq_true, Int.le_iff_lt_or_eq, ← beq_iff_ordinal hx hy,
    ← lt_iff_ordinal hx hy]
  exact or_congr_left decide_eq_true_iff

/-- What is no number is at most nothing. -/
theorem ne_nan_of_atMost (h : Comparable.atMost x y = true) : view x ≠ .notANumber := by
  rw [Comparable.atMost, Bool.or_eq_true] at h
  rcases h with hless | hsame
  · exact ne_nan_of_lt (of_decide_eq_true hless)
  · intro hx
    change ((view x).compare (view y) == some .eq) = true at hsame
    rw [hx] at hsame
    contradiction

/-! ## The total order -/

theorem toBits_injective (h : x.toBits = y.toBits) : x = y := by
  rw [← ofView_view x, ← ofView_view y]
  show ofView (.unpack .binary64 x.toBits.toBitVec) = ofView (.unpack .binary64 y.toBits.toBitVec)
  rw [h]

instance : Std.TransCmp rank :=
  inferInstanceAs (Std.TransCmp (compareOn position))

/-- No two doubles share a place on the line. -/
theorem rank_eq_iff : rank x y = .eq ↔ x = y := by
  refine ⟨fun h => toBits_injective (UInt64.toNat_inj.mp ?_), fun h => ?_⟩
  swap
  · rw [h]
    exact Std.ReflCmp.compare_self
  have hpos : position x = position y := compare_eq_iff_eq.mp h
  simp only [position, Nat.pow_eq] at hpos
  split at hpos <;> split at hpos <;> omega

/-- The bits of a number, its sign apart, are its ordinal. -/
theorem ordinal_unpack_fields {e : BitVec 11} {f : BitVec 52}
    (h : UnpackedFloat.unpack .binary64 (fields s e f) ≠ .notANumber) :
    ordinal (.unpack .binary64 (fields s e f)) = s.apply (word e f).toNat := by
  have hone : (-1#11 : BitVec 11).toNat = 2047 := rfl
  rw [toNat_word]
  rw [unpack_fields] at h ⊢
  split
  · next he =>
    rw [if_pos he] at h
    split
    · next hf =>
      rw [he, hf, hone]
      cases s <;> rfl
    · next hf =>
      rw [if_neg hf] at h
      exact absurd rfl h
  · split
    · next he =>
      have hzero : e.toNat = 0 := by rw [he]; rfl
      split
      · next hf =>
        rw [hzero, hf]
        cases s <;> rfl
      · rw [hzero]
        cases s <;> simp [ordinal, Sign.apply]
    · cases s <;> simp only [ordinal, Sign.apply] <;> push_cast <;> omega

/-- Minus zero and below, the line has a place more than there are ordinals. -/
theorem position_eq (hx : view x ≠ .notANumber) :
    position x = ordinal (view x) ∧ 0 ≤ ordinal (view x) ∨
      position x = ordinal (view x) - 1 ∧ ordinal (view x) ≤ 0 := by
  obtain ⟨s, e, f, hbits, hview⟩ := exists_bits x
  have hlt := word_lt e f
  have hpos : position x = if (fields s e f).toNat < 2 ^ 63 then ((fields s e f).toNat : ℤ)
      else 2 ^ 63 - 1 - (fields s e f).toNat := by
    unfold position
    rw [hbits]
    rfl
  rw [hview] at hx ⊢
  rw [hpos, toNat_fields, ordinal_unpack_fields hx]
  cases s with
  | positive =>
    have hsign : Sign.positive.toBitVec.toNat = 0 := rfl
    rw [hsign, if_pos (by omega)]
    simp only [Sign.apply]
    omega
  | negative =>
    have hsign : Sign.negative.toBitVec.toNat = 1 := rfl
    rw [hsign, if_neg (by omega)]
    simp only [Sign.apply]
    omega

theorem ordinal_le_of_rank (hx : view x ≠ .notANumber) (hy : view y ≠ .notANumber)
    (h : rank x y ≠ .gt) : ordinal (view x) ≤ ordinal (view y) := by
  have hle : position x ≤ position y := not_lt.mp (compare_gt_iff_gt.not.mp h)
  have hx := position_eq hx
  have hy := position_eq hy
  omega

/-- A number below another one on the line is the lesser one, unless both are zero. -/
theorem lt_or_zeros_of_rank (hx : x.isNaN = false) (hy : y.isNaN = false) (h : rank x y = .lt) :
    x < y ∨ x = -0.0 ∧ y = 0.0 := by
  have hlt : position x < position y := compare_lt_iff_lt.mp h
  have hzero : position 0.0 = 0 := by decide +kernel
  have hminus : position (-0.0) = -1 := by decide +kernel
  have hposx := position_eq (ne_nan_of_isNaN hx)
  have hposy := position_eq (ne_nan_of_isNaN hy)
  by_cases hord : ordinal (view x) < ordinal (view y)
  · exact .inl ((lt_iff_ordinal (ne_nan_of_isNaN hx) (ne_nan_of_isNaN hy)).mpr hord)
  · -- One place apart and of one ordinal, the two are the zeros.
    refine .inr ⟨rank_eq_iff.mp (compare_eq_iff_eq.mpr ?_),
      rank_eq_iff.mp (compare_eq_iff_eq.mpr ?_)⟩
    · omega
    · omega

/-- Two doubles of one ordinal are the same, unless they are the zeros. -/
theorem eq_or_zeros_of_ordinal (hx : view x ≠ .notANumber) (hy : view y ≠ .notANumber)
    (h : ordinal (view x) = ordinal (view y)) :
    x = y ∨ x = -0.0 ∧ y = 0.0 ∨ x = 0.0 ∧ y = -0.0 := by
  have hxn := isNaN_of_ne_nan hx
  have hyn := isNaN_of_ne_nan hy
  have hless : ¬x < y := (lt_iff_ordinal hx hy).not.mpr (by omega)
  have hgreater : ¬y < x := (lt_iff_ordinal hy hx).not.mpr (by omega)
  cases hrank : rank x y with
  | lt => exact .inr (.inl ((lt_or_zeros_of_rank hxn hyn hrank).resolve_left hless))
  | eq => exact .inl (rank_eq_iff.mp hrank)
  | gt =>
    have hswapped : rank y x = .lt := Std.OrientedCmp.gt_iff_lt.mp hrank
    exact .inr (.inr ((lt_or_zeros_of_rank hyn hxn hswapped).resolve_left hgreater).symm)

end Binary64
end SymbolicRegression
