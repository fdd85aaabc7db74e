import SymbolicRegression.Proofs.Numeric.Packing
import SymbolicRegression.Decimal.Shortest

/-!
The shortest decimal of a double rounds to the double.

The search works on a span, the double and the ends of its interval over one denominator.
Every candidate that it accepts lies in the interval, and the exact value, which is taken
when there is no candidate, does so as well.
-/

namespace SymbolicRegression
namespace Decimal

open Binary64

variable {m : ℕ} {e k : ℤ} {s : Span} {unit : ℚ}

/-- The number that a decimal stands for. -/
def Scaled.value (d : Scaled) : ℚ := d.digits * (10 : ℚ) ^ d.exponent

/-! ## Spans -/

/-- The span describes `m * 2 ^ e` and its interval in the given unit. -/
structure Span.Covers (s : Span) (m : ℕ) (e : ℤ) (unit : ℚ) : Prop where
  denominator_pos : 0 < s.denominator
  value : (s.value : ℚ) * unit = m * 2 ^ e * s.denominator
  low : (s.low : ℚ) * unit =
    (m - if m = 2 ^ 52 ∧ -1074 < e then 1 / 4 else 1 / 2) * 2 ^ e * s.denominator
  high : (s.high : ℚ) * unit = (m + 1 / 2) * 2 ^ e * s.denominator
  closed : s.closed = decide (m % 2 = 0)

/-- The same number in units of a power of ten. -/
theorem Span.Covers.inUnits (h : s.Covers m e 1) (k : ℤ) :
    (s.inUnits k).Covers m e ((10 : ℚ) ^ k) := by
  have hten : (10 : ℚ) ^ (-k).toNat * 10 ^ k = 10 ^ k.toNat := by
    rw [← zpow_natCast, ← zpow_natCast, ← zpow_add₀ (by norm_num)]
    congr 1
    omega
  have hscale {n : ℕ} {x : ℚ} (hn : (n : ℚ) * 1 = x * s.denominator) :
      ((n * Nat.pow 10 (-k).toNat : ℕ) : ℚ) * 10 ^ k =
        x * ((s.denominator * Nat.pow 10 k.toNat : ℕ) : ℚ) := by
    rw [Nat.pow_eq, Nat.pow_eq]
    push_cast
    rw [mul_assoc, hten, ← mul_assoc, ← hn, mul_one]
  exact ⟨Nat.mul_pos h.denominator_pos (Nat.pow_pos (by norm_num)), hscale h.value, hscale h.low,
    hscale h.high, h.closed⟩

/-- A point of the grid that is accepted lies in the interval. -/
theorem Span.Covers.inInterval (h : s.Covers m e unit) (hunit : 0 < unit) {n : ℕ}
    (hn : s.contains n = true) : InInterval m e (n * unit) := by
  have hden : (0 : ℚ) < s.denominator := by exact_mod_cast h.denominator_pos
  -- both ends are compared over the denominator
  have hle {x y : ℕ} {a b : ℚ} (hx : (x : ℚ) * unit = a * s.denominator)
      (hy : (y : ℚ) * unit = b * s.denominator) : (x ≤ y ↔ a ≤ b) := by
    rw [← @Nat.cast_le ℚ, ← mul_le_mul_iff_left₀ hunit, hx, hy, mul_le_mul_iff_left₀ hden]
  have hpoint : ((n * s.denominator : ℕ) : ℚ) * unit = n * unit * s.denominator := by
    push_cast
    ring
  have hlow := hle h.low hpoint
  have hlow' := hle hpoint h.low
  have hhigh := hle hpoint h.high
  have hhigh' := hle h.high hpoint
  unfold Span.contains at hn
  rw [h.closed] at hn
  rcases Nat.mod_two_eq_zero_or_one m with heven | hodd
  · simp only [heven, decide_true, if_true, Bool.and_eq_true, decide_eq_true_eq] at hn
    exact ⟨hlow.mp hn.1, hhigh.mp hn.2, by omega⟩
  · simp only [hodd, one_ne_zero, decide_false, Bool.false_eq_true, if_false, Bool.and_eq_true,
      decide_eq_true_eq] at hn
    have hnot : ¬ (m = 2 ^ 52 ∧ -1074 < e) := by omega
    rw [if_neg hnot] at hlow hlow'
    have h1 := not_le.mp fun hle => not_le.mpr hn.1 (hlow'.mpr hle)
    have h2 := not_le.mp fun hle => not_le.mpr hn.2 (hhigh'.mpr hle)
    exact ⟨by rw [if_neg hnot]; exact h1.le, h2.le, fun _ => ⟨h1, h2⟩⟩

/-! ## The search -/

theorem Span.contains_of_nearest? {tie : Tie} {n : ℕ} (h : s.nearest? tie = some n) :
    s.contains n = true := by
  unfold Span.nearest? at h
  simp only at h
  split at h
  · contradiction
  · next hk _ =>
    cases h
    exact hk
  · next _ hk =>
    cases h
    exact hk
  · next hk hk' =>
    split at h
    · cases h
      exact hk
    · cases h
      exact hk'
    · split at h
      · cases h
        exact hk
      · cases h
        exact hk'

theorem Scaled.value_trim (fuel : ℕ) (d : Scaled) : (Scaled.trim fuel d).value = d.value := by
  induction fuel generalizing d with
  | zero => rfl
  | succ fuel ih =>
    unfold Scaled.trim
    split
    · next h =>
      rw [ih]
      have hten : (d.digits : ℚ) = (d.digits / 10 : ℕ) * 10 := by
        exact_mod_cast (Nat.div_mul_cancel (Nat.dvd_of_mod_eq_zero h.1)).symm
      rw [Scaled.value, Scaled.value, zpow_add_one₀ (by norm_num), hten]
      ring
    · rfl

theorem Span.Covers.inInterval_exact (h : s.Covers m e 1) {n : ℕ} (hn : s.denominator = 2 ^ n) :
    InInterval m e (Scaled.value ⟨s.value * Nat.pow 5 n, -(n : ℤ)⟩) := by
  have hvalue : Scaled.value ⟨s.value * Nat.pow 5 n, -(n : ℤ)⟩ = m * 2 ^ e := by
    have hden := h.value
    rw [mul_one, hn] at hden
    have hten : (10 : ℚ) ^ n = 2 ^ n * 5 ^ n := by rw [← mul_pow]; norm_num
    rw [Scaled.value, Nat.pow_eq, zpow_neg, zpow_natCast, hten]
    push_cast at hden ⊢
    rw [hden]
    field_simp
  rw [hvalue]
  exact inInterval_self

/-- What the search gives rounds back to the double it was given. -/
theorem Span.Covers.inInterval_shortest (h : s.Covers m e 1) {n : ℕ} (hn : s.denominator = 2 ^ n)
    (tie : Tie) : InInterval m e (s.shortest tie).value := by
  unfold Span.shortest
  simp only
  generalize hhit : List.findSome? _ (List.range 17) = hit
  cases hit with
  | none =>
    rw [Option.getD_none, hn, Nat.log2_two_pow]
    exact h.inInterval_exact hn
  | some d =>
    obtain ⟨i, -, hi⟩ := List.exists_of_findSome?_eq_some hhit
    rw [Option.map_eq_some_iff] at hi
    obtain ⟨j, hj, rfl⟩ := hi
    rw [Option.getD_some, Scaled.value_trim]
    exact (h.inUnits _).inInterval (by positivity) (contains_of_nearest? hj)

/-! ## Reading the bits -/

/-- The word with the given exponent and fraction and no sign. -/
def word (e : BitVec 11) (f : BitVec 52) : UInt64 := .ofBitVec (fields .positive e f)

theorem toNat_word (e : BitVec 11) (f : BitVec 52) :
    (word e f).toNat = e.toNat * 2 ^ 52 + f.toNat := by
  change ((0#1 ++ e ++ f : BitVec 64)).toNat = _
  rw [BitVec.toNat_append, ← Nat.shiftLeft_add_eq_or_of_lt f.isLt, BitVec.toNat_append,
    ← Nat.shiftLeft_add_eq_or_of_lt e.isLt, Nat.shiftLeft_eq]
  simp

theorem exponent_word (e : BitVec 11) (f : BitVec 52) :
    (((word e f) >>> 52) &&& 0x7FF).toNat = e.toNat := by
  have he := e.isLt
  have hf := f.isLt
  have hmask : (0x7FF : UInt64).toNat = 2 ^ 11 - 1 := rfl
  rw [UInt64.toNat_and, UInt64.toNat_shiftRight, toNat_word, hmask, Nat.and_two_pow_sub_one_eq_mod]
  change (_ >>> 52) % _ = _
  rw [Nat.shiftRight_eq_div_pow]
  omega

theorem fraction_word (e : BitVec 11) (f : BitVec 52) :
    ((word e f) &&& 0xFFFFFFFFFFFFF).toNat = f.toNat := by
  have hf := f.isLt
  have hmask : (0xFFFFFFFFFFFFF : UInt64).toNat = 2 ^ 52 - 1 := rfl
  rw [UInt64.toNat_and, toNat_word, hmask, Nat.and_two_pow_sub_one_eq_mod]
  omega

/-- The span of a positive double, in terms of its fields. -/
theorem covers_ofBits {e : BitVec 11} {f : BitVec 52} {m : ℕ} {k : ℤ}
    (hm : m = if e.toNat = 0 then f.toNat else 2 ^ 52 + f.toNat)
    (hk : k = max (e.toNat : ℤ) 1 - 1075) (hpos : 0 < m) :
    (Span.ofBits (word e f)).Covers m k 1 ∧
      (Span.ofBits (word e f)).denominator = 2 ^ (1077 - max e.toNat 1) := by
  have hf := f.isLt
  unfold Span.ofBits
  simp only [exponent_word, fraction_word, Nat.pow_eq]
  rw [← hm]
  refine ⟨?_, trivial⟩
  -- a quarter of the last place, as a quotient of whole powers
  have hquarter : (2 : ℚ) ^ k * 2 ^ (1077 - max e.toNat 1) = 4 * 2 ^ (max e.toNat 1 - 1077) := by
    have hfour : (4 : ℚ) = 2 ^ (2 : ℤ) := by norm_num
    rw [hfour, ← zpow_natCast, ← zpow_natCast, ← zpow_add₀ (by norm_num), ← zpow_add₀ (by norm_num)]
    congr 1
    omega
  have hscale {n : ℕ} {x : ℚ} (hn : (n : ℚ) = 4 * x) :
      ((n * 2 ^ (max e.toNat 1 - 1077) : ℕ) : ℚ) * 1 =
        x * 2 ^ k * ((2 ^ (1077 - max e.toNat 1) : ℕ) : ℚ) := by
    push_cast
    rw [mul_assoc x, hquarter, hn]
    ring
  have hgap : (f.toNat = 0 ∧ 1 < e.toNat) ↔ (m = 2 ^ 52 ∧ -1074 < k) := by
    split at hm <;> omega
  constructor
  · exact Nat.pow_pos (by norm_num)
  · exact hscale (by push_cast; ring)
  · refine hscale ?_
    by_cases h : m = 2 ^ 52 ∧ -1074 < k
    · rw [if_pos (hgap.mpr h), if_pos h, Nat.cast_sub (by omega)]
      push_cast
      ring
    · rw [if_neg (hgap.not.mpr h), if_neg h, Nat.cast_sub (by omega)]
      push_cast
      ring
  · exact hscale (by push_cast; ring)
  · rfl

end Decimal
end SymbolicRegression
