import Mathlib.Algebra.Order.Field.Power
import Mathlib.Data.Int.Log
import Mathlib.Data.Rat.Floor
import Mathlib.Tactic.Linarith
import Mathlib.Tactic.Ring
import Mathlib.Tactic.FieldSimp
import Mathlib.Tactic.Positivity

/-!
Rounding to a double, as a relation between an exact rational and a result.

A positive rational `r` has a grid of doubles around it, the multiples of `2 ^ grid r`.
`Rounded s r u` says that `u` is the nearest multiple with the sign `s`, the even one of two
that are equally near, and leaves it open whether the exponent still fits a double.  Lean's
doubles are rounded by shifts of a mantissa with two residual bits; `rounded_of_approximates`
is the one place where that mechanism is opened.
-/

namespace SymbolicRegression
namespace Binary64

open Float.Model Float.Model.UnpackedFloat

/-! ## The nearest natural number -/

/-- `n` is nearest to `x`, and even if another number is as near. -/
structure Nearest (x : ℚ) (n : ℕ) : Prop where
  lower : (n : ℚ) - 1 / 2 ≤ x
  upper : x ≤ n + 1 / 2
  inside : n % 2 = 1 → (n : ℚ) - 1 / 2 < x ∧ x < n + 1 / 2

theorem nearest_natCast (n : ℕ) : Nearest (n : ℚ) n := by
  refine ⟨by linarith, by linarith, fun _ => ⟨by linarith, by linarith⟩⟩

theorem Nearest.mono {x y : ℚ} {n k : ℕ} (hn : Nearest x n) (hk : Nearest y k) (h : x ≤ y) :
    n ≤ k := by
  by_contra hlt
  have hkn : (k : ℚ) + 1 ≤ n := by exact_mod_cast Nat.lt_of_not_le hlt
  have h1 := hn.lower
  have h2 := hk.upper
  have heq : n = k + 1 := by
    have hle : (n : ℚ) ≤ k + 1 := by linarith
    have hle' : n ≤ k + 1 := by exact_mod_cast hle
    omega
  -- both are as far from `x` as can be, and one of two neighbours is odd
  rcases Nat.mod_two_eq_zero_or_one n with heven | hodd
  · have := (hk.inside (by omega)).2
    linarith
  · have := (hn.inside hodd).1
    linarith

theorem Nearest.unique {x : ℚ} {n k : ℕ} (hn : Nearest x n) (hk : Nearest x k) : n = k :=
  Nat.le_antisymm (hn.mono hk le_rfl) (hk.mono hn le_rfl)

/-! ## Residual bits -/

/-- The mantissa `m` with its accuracy stands for `x`. -/
def Approximates (m : ℕ) : Accuracy → ℚ → Prop
  | .exact, x => x = m
  | .inexact .lt, x => (m : ℚ) < x ∧ x < m + 1 / 2
  | .inexact .eq, x => x = m + 1 / 2
  | .inexact .gt, x => (m : ℚ) + 1 / 2 < x ∧ x < m + 1

variable {m : ℕ} {e : ℤ} {a : Accuracy} {x : ℚ}

theorem Approximates.bounds (h : Approximates m a x) : (m : ℚ) ≤ x ∧ x < m + 1 := by
  match a, h with
  | .exact, h => exact ⟨h.ge, by rw [h]; linarith⟩
  | .inexact .lt, ⟨h1, h2⟩ => exact ⟨h1.le, by linarith⟩
  | .inexact .eq, h => exact ⟨by rw [h]; linarith, by rw [h]; linarith⟩
  | .inexact .gt, ⟨h1, h2⟩ => exact ⟨by linarith, h2⟩

theorem Approximates.nearest (h : Approximates m a x) : Nearest x (a.roundToNearestEven m) := by
  match a, h with
  | .exact, h =>
    rw [h]
    exact nearest_natCast m
  | .inexact .lt, ⟨h1, h2⟩ =>
    exact ⟨by simp only [Accuracy.roundToNearestEven]; linarith, h2.le,
      fun _ => ⟨by simp only [Accuracy.roundToNearestEven]; linarith, h2⟩⟩
  | .inexact .eq, h =>
    simp only [Accuracy.roundToNearestEven]
    rcases Nat.mod_two_eq_zero_or_one m with heven | hodd
    · rw [heven, h]
      exact ⟨by push_cast; linarith, by push_cast; linarith, fun _ => by omega⟩
    · rw [hodd, h]
      exact ⟨by push_cast; linarith, by push_cast; linarith, fun _ => by omega⟩
  | .inexact .gt, ⟨h1, h2⟩ =>
    simp only [Accuracy.roundToNearestEven]
    exact ⟨by push_cast; linarith, by push_cast; linarith,
      fun _ => ⟨by push_cast; linarith, by push_cast; linarith⟩⟩

theorem accuracy_ofMantissaAndAccuracy (m : ℕ) (a : Accuracy) :
    (ExtendedMantissa.ofMantissaAndAccuracy m a).mantissa = m ∧
      (ExtendedMantissa.ofMantissaAndAccuracy m a).accuracy = a := by
  match a with
  | .exact => exact ⟨rfl, rfl⟩
  | .inexact .lt => exact ⟨rfl, rfl⟩
  | .inexact .eq => exact ⟨rfl, rfl⟩
  | .inexact .gt => exact ⟨rfl, rfl⟩

/-- The mantissa and the round bit, which stands for one half, as a number. -/
def known (em : ExtendedMantissa) : ℚ := em.mantissa + if em.roundBit then 1 / 2 else 0

/-- What is not known is less than the round bit, and it is nothing if no bit sticks. -/
theorem approximates_iff {em : ExtendedMantissa} : Approximates em.mantissa em.accuracy x ↔
    if em.stickyBit then known em < x ∧ x < known em + 1 / 2 else x = known em := by
  obtain ⟨m, r, s⟩ := em
  cases r <;> cases s <;> simp [ExtendedMantissa.accuracy, Approximates, known, add_assoc]
  intro _
  norm_num

/-- The bit that is shifted out becomes the round bit. -/
theorem known_shiftRightOne (em : ExtendedMantissa) :
    known em.shiftRightOne = (em.mantissa : ℚ) / 2 := by
  have hsum : ((em.mantissa % 2 : ℕ) : ℚ) + 2 * ((em.mantissa / 2 : ℕ) : ℚ) = em.mantissa := by
    exact_mod_cast Nat.mod_add_div em.mantissa 2
  unfold known ExtendedMantissa.shiftRightOne
  rcases Nat.mod_two_eq_zero_or_one em.mantissa with hm | hm
  · rw [hm] at hsum ⊢
    norm_num at hsum ⊢
    linarith
  · rw [hm] at hsum ⊢
    norm_num at hsum ⊢
    linarith

/-- The older bits stick. -/
theorem approximates_shiftRightOne {em : ExtendedMantissa}
    (h : Approximates em.mantissa em.accuracy x) :
    Approximates em.shiftRightOne.mantissa em.shiftRightOne.accuracy (x / 2) := by
  have hsticky : em.shiftRightOne.stickyBit = (em.roundBit || em.stickyBit) := rfl
  rw [approximates_iff] at h ⊢
  rw [known_shiftRightOne, hsticky]
  unfold known at h
  cases hr : em.roundBit <;> cases hs : em.stickyBit <;> simp [hr, hs] at h ⊢
  · rw [h]
  · constructor <;> linarith
  · constructor <;> linarith
  · constructor <;> linarith

theorem approximates_shiftRight {em : ExtendedMantissa}
    (h : Approximates em.mantissa em.accuracy x) (k : ℕ) :
    Approximates (em >>> k).mantissa (em >>> k).accuracy (x / 2 ^ k) := by
  change Approximates (k.repeat _ em).mantissa (k.repeat _ em).accuracy _
  induction k with
  | zero => simpa [Nat.repeat] using h
  | succ k ih =>
    have := approximates_shiftRightOne ih
    rw [Nat.repeat, pow_succ, ← div_div]
    exact this

/-! ## The grid of doubles -/

/-- Doubles around a positive `r` are multiples of two to this power: 53 digits from the
first one of `r` on, but none below the smallest double. -/
def grid (r : ℚ) : ℤ := max (Int.log 2 r - 52) (-1074)

/-- The exponent that a mantissa is shifted to. -/
def target (m : ℕ) (e : ℤ) : ℤ := Format.binary64.targetExponent (totalExponent m e)

theorem target_eq (m : ℕ) (e : ℤ) : target m e = max ((m.log2 : ℤ) + e - 52) (-1074) := by
  have hbits : (Format.binary64.mantissaBits : ℤ) = 53 := rfl
  have hmin : Format.binary64.minExponent = -1074 := rfl
  rw [target, Format.targetExponent, hbits, hmin, totalExponent]
  congr 1
  ring

theorem log_eq_of_mem_Ico {r : ℚ} {k : ℤ} (hl : (2 : ℚ) ^ k ≤ r) (hu : r < 2 ^ (k + 1)) :
    Int.log 2 r = k := by
  have hr : 0 < r := lt_of_lt_of_le (by positivity) hl
  have h1 : k ≤ Int.log 2 r := (Int.zpow_le_iff_le_log (by norm_num) hr).mp (by exact_mod_cast hl)
  have h2 : Int.log 2 r < k + 1 := (Int.lt_zpow_iff_log_lt (by norm_num) hr).mp (by exact_mod_cast hu)
  omega

theorem grid_le {r : ℚ} (hr : 0 < r) {k : ℤ} (h : r < 2 ^ k) (hk : -1021 ≤ k) : grid r ≤ k - 53 := by
  have := (Int.lt_zpow_iff_log_lt (b := 2) (by norm_num) hr).mp (by exact_mod_cast h)
  rw [grid]
  omega

theorem le_grid (r : ℚ) : -1074 ≤ grid r := le_max_right _ _

/-- In units of its grid a number is below `2 ^ 53`. -/
theorem div_grid_lt {r : ℚ} : r / 2 ^ grid r < 2 ^ 53 := by
  have hlt : r < (2 : ℚ) ^ (Int.log 2 r + 1) := by
    exact_mod_cast Int.lt_zpow_succ_log_self (b := 2) (by norm_num) r
  have hle : (2 : ℚ) ^ (Int.log 2 r + 1) ≤ 2 ^ (grid r + 53) := by
    refine zpow_le_zpow_right₀ (by norm_num) ?_
    rw [grid]
    omega
  rw [div_lt_iff₀ (by positivity)]
  calc r < 2 ^ (grid r + 53) := lt_of_lt_of_le hlt hle
    _ = 2 ^ 53 * 2 ^ grid r := by rw [zpow_add₀ (by norm_num), mul_comm]; norm_num

/-- In units of its grid a number is at least `2 ^ 52`, if the grid is not the finest one. -/
theorem le_div_grid {r : ℚ} (hr : 0 < r) (h : -1074 < grid r) : 2 ^ 52 ≤ r / 2 ^ grid r := by
  have hle : (2 : ℚ) ^ Int.log 2 r ≤ r := by
    exact_mod_cast Int.zpow_log_le_self (b := 2) (by norm_num) hr
  have hgrid : Int.log 2 r = 52 + grid r := by
    rw [grid] at h ⊢
    omega
  rw [hgrid, zpow_add₀ (by norm_num)] at hle
  rw [le_div_iff₀ (by positivity)]
  exact_mod_cast hle

/-- The digits that a mantissa lacks do not move the grid. -/
theorem grid_of_approximates (h : Approximates m a x) (hx : 0 < x) (he : e ≤ target m e) :
    grid (x * 2 ^ e) = target m e := by
  obtain ⟨hl, hu⟩ := h.bounds
  have hpow : (0 : ℚ) < 2 ^ e := by positivity
  rw [target_eq] at he ⊢
  rcases Nat.eq_zero_or_pos m with rfl | hm
  · have hlt : x * 2 ^ e < 2 ^ (-1074 : ℤ) := by
      have hx1 : x < 1 := by simpa using hu
      have hle : (2 : ℚ) ^ e ≤ 2 ^ (-1074 : ℤ) := by
        refine zpow_le_zpow_right₀ (by norm_num) ?_
        simp only [Nat.log2_zero] at he
        omega
      nlinarith
    have hlog := (Int.lt_zpow_iff_log_lt (b := 2) (by norm_num) (mul_pos hx hpow)).mp
      (by exact_mod_cast hlt)
    rw [grid]
    simp only [Nat.log2_zero] at he ⊢
    omega
  · have hlow : (2 : ℚ) ^ ((m.log2 : ℤ) + e) ≤ x * 2 ^ e := by
      rw [zpow_add₀ (by norm_num), zpow_natCast]
      have : ((2 ^ m.log2 : ℕ) : ℚ) ≤ m := by exact_mod_cast Nat.log2_self_le hm.ne'
      push_cast at this
      nlinarith
    have hhigh : x * 2 ^ e < (2 : ℚ) ^ ((m.log2 : ℤ) + e + 1) := by
      rw [add_right_comm, zpow_add₀ (by norm_num)]
      have : ((m + 1 : ℕ) : ℚ) ≤ ((2 ^ (m.log2 + 1) : ℕ) : ℚ) := by
        exact_mod_cast Nat.lt_log2_self
      push_cast at this
      have hcast : (2 : ℚ) ^ ((m.log2 : ℤ) + 1) = 2 ^ (m.log2 + 1) := by
        exact_mod_cast zpow_natCast (2 : ℚ) (m.log2 + 1)
      rw [hcast]
      nlinarith
    rw [grid, log_eq_of_mem_Ico hlow hhigh]

/-! ## Rounding -/

/-- `n` units of `2 ^ t` as a mantissa of 53 digits, which a carry may have overrun. -/
def place (s : Sign) (n : ℕ) (t : ℤ) : UnpackedFloat :=
  if h : n = 0 then .zero s
  else if n < 2 ^ 53 then .finite s n t (Nat.pos_of_ne_zero h)
  else .finite s (2 ^ 52) (t + 1) (by decide)

theorem place_of_lt {s : Sign} {n : ℕ} {t : ℤ} (hn : 0 < n) (hlt : n < 2 ^ 53) :
    place s n t = .finite s n t hn := by
  rw [place, dif_neg hn.ne', if_pos hlt]

theorem place_carry {s : Sign} {t : ℤ} :
    place s (2 ^ 53) t = .finite s (2 ^ 52) (t + 1) (by decide) := rfl

/-- The positive number `r` rounds to `u` when it is given the sign `s`. -/
def Rounded (s : Sign) (r : ℚ) (u : UnpackedFloat) : Prop :=
  ∃ n, Nearest (r / 2 ^ grid r) n ∧ u = place s n (grid r)

theorem Rounded.unique {s : Sign} {r : ℚ} {u v : UnpackedFloat} (hu : Rounded s r u)
    (hv : Rounded s r v) : u = v := by
  obtain ⟨n, hn, rfl⟩ := hu
  obtain ⟨k, hk, rfl⟩ := hv
  rw [hn.unique hk]

/-- A carry goes to `2 ^ 53` and not beyond. -/
theorem nearest_div_grid_le {r : ℚ} {n : ℕ} (h : Nearest (r / 2 ^ grid r) n) : n ≤ 2 ^ 53 := by
  refine h.mono (nearest_natCast (2 ^ 53)) ?_
  push_cast
  exact div_grid_lt.le

theorem shiftToTargetExponent_eq (m : ℕ) (e : ℤ) (a : Accuracy) :
    shiftToTargetExponent .binary64 m e a =
      (ExtendedMantissa.ofMantissaAndAccuracy m a >>> (target m e - e).toNat,
        e + ((target m e - e).toNat : ℤ)) := rfl

/-- The second shift takes back a carry and does nothing otherwise. -/
theorem shiftToTargetExponent_carry {n : ℕ} {t : ℤ} (hn : n ≤ 2 ^ 53) (ht : -1074 ≤ t) :
    shiftToTargetExponent .binary64 n t .exact =
      if n < 2 ^ 53 then (⟨n, false, false⟩, t) else (⟨2 ^ 52, false, false⟩, t + 1) := by
  rw [shiftToTargetExponent_eq, target_eq]
  split
  · next hlt =>
    have hlog : n.log2 ≤ 52 := by
      rcases Nat.eq_zero_or_pos n with rfl | hpos
      · simp
      · exact Nat.lt_succ_iff.mp ((Nat.log2_lt hpos.ne').mpr hlt)
    have hshift : (max ((n.log2 : ℤ) + t - 52) (-1074) - t).toNat = 0 := by omega
    rw [hshift]
    simp only [Nat.cast_zero, add_zero]
    rfl
  · next hge =>
    obtain rfl : n = 2 ^ 53 := by omega
    have hshift : (max (((2 ^ 53 : ℕ).log2 : ℤ) + t - 52) (-1074) - t).toNat = 1 := by
      rw [Nat.log2_two_pow]
      omega
    rw [hshift]
    rfl

/-- What is made of a shifted mantissa, whose residual bits are clear. -/
def ofShifted (s : Sign) (p : ExtendedMantissa × ℤ) : UnpackedFloat :=
  if h : p.1.mantissa = 0 then .zero s
  else .finite s p.1.mantissa p.2 (Nat.pos_of_ne_zero h)

theorem ofShifted_carry {s : Sign} {n : ℕ} {t : ℤ} (hn : n ≤ 2 ^ 53) (ht : -1074 ≤ t) :
    ofShifted s (shiftToTargetExponent .binary64 n t .exact) = place s n t := by
  rw [shiftToTargetExponent_carry hn ht]
  by_cases hlt : n < 2 ^ 53
  · rw [if_pos hlt]
    rcases Nat.eq_zero_or_pos n with rfl | hpos
    · rfl
    · rw [place_of_lt hpos hlt]
      exact dif_neg hpos.ne'
  · obtain rfl : n = 2 ^ 53 := by omega
    rfl

/-- Shifting, rounding and taking back the carry round correctly, as long as the mantissa
has all digits that the result needs. -/
theorem rounded_of_approximates {s : Sign} (h : Approximates m a x) (hx : 0 < x)
    (he : e ≤ target m e) : Rounded s (x * 2 ^ e) (roundWithAccuracy .binary64 s m e a) := by
  have hgrid := grid_of_approximates h hx he
  obtain ⟨hm, ha⟩ := accuracy_ofMantissaAndAccuracy m a
  have hem : Approximates (ExtendedMantissa.ofMantissaAndAccuracy m a).mantissa
      (ExtendedMantissa.ofMantissaAndAccuracy m a).accuracy x := by
    rw [hm, ha]
    exact h
  have hshift := (approximates_shiftRight hem (target m e - e).toNat).nearest
  have hunits : x / 2 ^ (target m e - e).toNat = x * 2 ^ e / 2 ^ grid (x * 2 ^ e) := by
    have hpow : (2 : ℚ) ^ (target m e - e).toNat = 2 ^ target m e / 2 ^ e := by
      rw [← zpow_natCast, Int.toNat_of_nonneg (by omega), zpow_sub₀ (by norm_num)]
    rw [hgrid, hpow, div_div_eq_mul_div]
  rw [hunits] at hshift
  refine ⟨_, hshift, ?_⟩
  have hexp : e + ((target m e - e).toNat : ℤ) = grid (x * 2 ^ e) := by omega
  change ofShifted s (shiftToTargetExponent .binary64
    (shiftToTargetExponent .binary64 m e a).1.roundedMantissa
    (shiftToTargetExponent .binary64 m e a).2 .exact) = _
  rw [shiftToTargetExponent_eq m e a, hexp]
  exact ofShifted_carry (nearest_div_grid_le hshift) (le_grid _)

/-! ## What rounding gives -/

/-- A mantissa and an exponent as a double stores them: 53 digits, or fewer at the smallest
exponent. -/
structure Canonical (m : ℕ) (e : ℤ) : Prop where
  pos : 0 < m
  lt : m < 2 ^ 53
  low : -1074 ≤ e
  normal : 2 ^ 52 ≤ m ∨ e = -1074

/-- The absolute value of a finite number. -/
def magnitude : UnpackedFloat → ℚ
  | .finite _ m e _ => m * 2 ^ e
  | _ => 0

theorem magnitude_place {s : Sign} {n : ℕ} {t : ℤ} (hn : n ≤ 2 ^ 53) :
    magnitude (place s n t) = n * 2 ^ t := by
  by_cases hlt : n < 2 ^ 53
  · rcases Nat.eq_zero_or_pos n with rfl | hpos
    · rw [Nat.cast_zero, zero_mul]
      rfl
    · rw [place_of_lt hpos hlt]
      rfl
  · obtain rfl : n = 2 ^ 53 := by omega
    rw [place_carry]
    change ((2 ^ 52 : ℕ) : ℚ) * 2 ^ (t + 1) = _
    rw [zpow_add₀ (by norm_num)]
    push_cast
    ring

/-- The sign is kept, and a result that is not zero is canonical. -/
theorem place_cases {s : Sign} {n : ℕ} {t : ℤ} (hn : n ≤ 2 ^ 53) (ht : -1074 ≤ t)
    (hnormal : 2 ^ 52 ≤ n ∨ t = -1074) :
    place s n t = .zero s ∨ ∃ m e h, place s n t = .finite s m e h ∧ Canonical m e := by
  by_cases hlt : n < 2 ^ 53
  · rcases Nat.eq_zero_or_pos n with rfl | hpos
    · exact .inl rfl
    · exact .inr ⟨n, t, hpos, place_of_lt hpos hlt, hpos, hlt, ht, hnormal⟩
  · obtain rfl : n = 2 ^ 53 := by omega
    exact .inr ⟨2 ^ 52, t + 1, by decide, place_carry, by decide, by decide, by omega, .inl le_rfl⟩

theorem le_nearest_div_grid {r : ℚ} {n : ℕ} (hr : 0 < r) (h : Nearest (r / 2 ^ grid r) n) :
    2 ^ 52 ≤ n ∨ grid r = -1074 := by
  by_cases hgrid : grid r = -1074
  · exact .inr hgrid
  · left
    have hlow := le_div_grid hr (lt_of_le_of_ne (le_grid r) (Ne.symm hgrid))
    exact (nearest_natCast (2 ^ 52)).mono h (by push_cast; exact hlow)

theorem Rounded.cases {s : Sign} {r : ℚ} {u : UnpackedFloat} (h : Rounded s r u) (hr : 0 < r) :
    u = .zero s ∨ ∃ m e hm, u = .finite s m e hm ∧ Canonical m e := by
  obtain ⟨n, hn, rfl⟩ := h
  exact place_cases (nearest_div_grid_le hn) (le_grid r) (le_nearest_div_grid hr hn)

/-- A canonical value on the grid of `r` is a whole number of its units. -/
theorem mul_zpow_div_grid {r : ℚ} (h : grid r ≤ e) :
    (m : ℚ) * 2 ^ e / 2 ^ grid r = ((m * 2 ^ (e - grid r).toNat : ℕ) : ℚ) := by
  have hpow : ((2 ^ (e - grid r).toNat : ℕ) : ℚ) = 2 ^ e / 2 ^ grid r := by
    push_cast
    rw [← zpow_natCast, Int.toNat_of_nonneg (by omega), zpow_sub₀ (by norm_num)]
  rw [Nat.cast_mul, hpow, mul_div_assoc]

/-- A double below `r` stays below what `r` rounds to. -/
theorem Rounded.le_magnitude {s : Sign} {r : ℚ} {u : UnpackedFloat} (h : Rounded s r u)
    (hr : 0 < r) (hm : Canonical m e) (hle : (m : ℚ) * 2 ^ e ≤ r) :
    (m : ℚ) * 2 ^ e ≤ magnitude u := by
  obtain ⟨n, hn, rfl⟩ := h
  rw [magnitude_place (nearest_div_grid_le hn)]
  have hunit : (0 : ℚ) < 2 ^ grid r := by positivity
  rcases le_or_gt (grid r) e with hge | hlt
  · have hk := (nearest_natCast _).mono hn (by
      rw [← mul_zpow_div_grid (m := m) hge]
      exact div_le_div_of_nonneg_right hle hunit.le)
    rw [← div_le_iff₀ hunit, mul_zpow_div_grid hge]
    exact_mod_cast hk
  · -- the value lies below the first digit of `r`
    have h52 : 2 ^ 52 ≤ n := (le_nearest_div_grid hr hn).resolve_right (by have := hm.low; omega)
    have hm53 : (m : ℚ) ≤ 2 ^ 53 := by exact_mod_cast hm.lt.le
    have hstep : (2 : ℚ) * 2 ^ e ≤ 2 ^ grid r := by
      rw [← zpow_one_add₀ (by norm_num)]
      exact zpow_le_zpow_right₀ (by norm_num) (by omega)
    have hn52 : (2 : ℚ) ^ 52 ≤ n := by exact_mod_cast h52
    have he : (0 : ℚ) < 2 ^ e := by positivity
    calc (m : ℚ) * 2 ^ e ≤ 2 ^ 53 * 2 ^ e := by nlinarith
      _ = 2 ^ 52 * (2 * 2 ^ e) := by ring
      _ ≤ n * 2 ^ grid r := by
        exact mul_le_mul hn52 hstep (by positivity) (by positivity)

theorem Canonical.lt_zpow (h : Canonical m e) : (m : ℚ) * 2 ^ e < 2 ^ (e + 53) := by
  have hm : (m : ℚ) < 2 ^ 53 := by exact_mod_cast h.lt
  rw [zpow_add₀ (by norm_num), mul_comm]
  exact mul_lt_mul_of_pos_left (by exact_mod_cast hm) (by positivity)

theorem Canonical.grid_le {r : ℚ} (h : Canonical m e) (hr : 0 < r) (hle : r ≤ m * 2 ^ e) :
    grid r ≤ e := by
  have := Binary64.grid_le hr (lt_of_le_of_lt hle h.lt_zpow) (by have := h.low; omega)
  omega

/-- A double above `r` stays above what `r` rounds to. -/
theorem Rounded.magnitude_le {s : Sign} {r : ℚ} {u : UnpackedFloat} (h : Rounded s r u)
    (hr : 0 < r) (hm : Canonical m e) (hle : r ≤ m * 2 ^ e) :
    magnitude u ≤ (m : ℚ) * 2 ^ e := by
  obtain ⟨n, hn, rfl⟩ := h
  rw [magnitude_place (nearest_div_grid_le hn)]
  have hunit : (0 : ℚ) < 2 ^ grid r := by positivity
  have hge := hm.grid_le hr hle
  have hk := hn.mono (nearest_natCast _) (by
    rw [← mul_zpow_div_grid (m := m) hge]
    exact div_le_div_of_nonneg_right hle hunit.le)
  rw [← le_div_iff₀ hunit, mul_zpow_div_grid hge]
  exact_mod_cast hk

/-! ## The numbers that round to a double -/

/-- `r` lies in the interval of the numbers that round to `m * 2 ^ e`.  Its ends are halfway
to the neighbours, of which the lower one is nearer at a power of two; they belong to it if
the mantissa is even. -/
structure InInterval (m : ℕ) (e : ℤ) (r : ℚ) : Prop where
  lower : ((m : ℚ) - if m = 2 ^ 52 ∧ -1074 < e then 1 / 4 else 1 / 2) * 2 ^ e ≤ r
  upper : r ≤ ((m : ℚ) + 1 / 2) * 2 ^ e
  inside : m % 2 = 1 → ((m : ℚ) - 1 / 2) * 2 ^ e < r ∧ r < ((m : ℚ) + 1 / 2) * 2 ^ e

namespace InInterval

variable {r : ℚ}

theorem pos (h : InInterval m e r) (hm : Canonical m e) : 0 < r := by
  have hm1 : (1 : ℚ) ≤ m := by exact_mod_cast hm.pos
  refine lt_of_lt_of_le (mul_pos ?_ (by positivity)) h.lower
  split <;> linarith

theorem half_le (h : InInterval m e r) : ((m : ℚ) - 1 / 2) * 2 ^ e ≤ r := by
  refine le_trans (mul_le_mul_of_nonneg_right ?_ (by positivity)) h.lower
  split <;> linarith

theorem grid_le (h : InInterval m e r) (hm : Canonical m e) : grid r ≤ e := by
  have hm53 : (m : ℚ) + 1 ≤ 2 ^ 53 := by exact_mod_cast hm.lt
  have hlt : r < 2 ^ (e + 53) := by
    refine lt_of_le_of_lt h.upper ?_
    rw [zpow_add₀ (by norm_num), mul_comm]
    refine mul_lt_mul_of_pos_left ?_ (by positivity)
    norm_num at hm53 ⊢
    linarith
  have := Binary64.grid_le (h.pos hm) hlt (by have := hm.low; omega)
  omega

/-- The mantissa is nearest in units of the double. -/
theorem nearest (h : InInterval m e r) : Nearest (r / 2 ^ e) m := by
  have hunit : (0 : ℚ) < 2 ^ e := by positivity
  refine ⟨?_, ?_, fun hodd => ?_⟩
  · rw [le_div_iff₀ hunit]
    exact h.half_le
  · rw [div_le_iff₀ hunit]
    exact h.upper
  · rw [lt_div_iff₀ hunit, div_lt_iff₀ hunit]
    exact h.inside hodd

/-- Only a number just below a power of two has more digits than the double. -/
theorem below (h : InInterval m e r) (hm : Canonical m e) (hne : grid r ≠ e) :
    m = 2 ^ 52 ∧ -1074 < e ∧ r < 2 ^ 52 * 2 ^ e := by
  have hgrid := h.grid_le hm
  have hlow := le_grid r
  have hbelow : r < 2 ^ 52 * 2 ^ e := by
    by_contra hge
    have hpow : (2 : ℚ) ^ (52 + e) ≤ r := by
      rw [zpow_add₀ (by norm_num)]
      exact_mod_cast not_lt.mp hge
    have hlog := (Int.zpow_le_iff_le_log (b := 2) (by norm_num) (h.pos hm)).mp
      (by exact_mod_cast hpow)
    have : e ≤ grid r := by
      rw [grid]
      omega
    omega
  have hlt := lt_of_mul_lt_mul_right (lt_of_le_of_lt h.half_le hbelow) (by positivity)
  have h52 : m < 2 ^ 52 + 1 := by
    have : (m : ℚ) < 2 ^ 52 + 1 := by linarith
    exact_mod_cast this
  have hge := hm.normal.resolve_right (by omega)
  exact ⟨by omega, by omega, hbelow⟩

/-- There a carry leads back to the power of two. -/
theorem carry (h : InInterval (2 ^ 52) e r) (he : -1074 < e) (hlt : r < 2 ^ 52 * 2 ^ e) :
    grid r = e - 1 ∧ Nearest (r / 2 ^ (e - 1)) (2 ^ 53) := by
  have hhalf : (2 : ℚ) ^ e = 2 * 2 ^ (e - 1) := by
    rw [← zpow_one_add₀ (by norm_num)]
    congr 1
    omega
  have hunit : (0 : ℚ) < 2 ^ (e - 1) := by positivity
  have hlower := h.lower
  rw [if_pos ⟨rfl, he⟩, hhalf] at hlower
  rw [hhalf] at hlt
  norm_num at hlower hlt
  refine ⟨?_, ?_, ?_, fun hodd => by omega⟩
  · have hl : (2 : ℚ) ^ (52 + (e - 1)) ≤ r := by
      rw [zpow_add₀ (by norm_num)]
      norm_num
      nlinarith
    have hu : r < (2 : ℚ) ^ (52 + (e - 1) + 1) := by
      rw [add_right_comm, zpow_add₀ (by norm_num)]
      norm_num
      nlinarith
    rw [grid, log_eq_of_mem_Ico hl hu]
    omega
  · rw [le_div_iff₀ hunit]
    push_cast
    nlinarith
  · rw [div_le_iff₀ hunit]
    push_cast
    nlinarith

end InInterval

theorem rounded_of_inInterval {s : Sign} {r : ℚ} (hm : Canonical m e) (h : InInterval m e r) :
    Rounded s r (.finite s m e hm.pos) := by
  by_cases hsame : grid r = e
  · refine ⟨m, ?_, ?_⟩
    · rw [hsame]
      exact h.nearest
    · rw [hsame, place_of_lt hm.pos hm.lt]
  · obtain ⟨rfl, he, hlt⟩ := h.below hm hsame
    obtain ⟨hgrid, hnearest⟩ := h.carry he hlt
    refine ⟨2 ^ 53, ?_, ?_⟩
    · rw [hgrid]
      exact hnearest
    · rw [hgrid, place_carry, sub_add_cancel]

theorem inInterval_self : InInterval m e ((m : ℚ) * 2 ^ e) := by
  have hunit : (0 : ℚ) < 2 ^ e := by positivity
  refine ⟨?_, ?_, fun _ => ⟨?_, ?_⟩⟩
  · refine mul_le_mul_of_nonneg_right ?_ hunit.le
    split <;> linarith
  · nlinarith
  · nlinarith
  · nlinarith

/-- A double rounds to itself. -/
theorem rounded_self {s : Sign} (hm : Canonical m e) :
    Rounded s ((m : ℚ) * 2 ^ e) (.finite s m e hm.pos) :=
  rounded_of_inInterval hm inInterval_self

end Binary64
end SymbolicRegression
