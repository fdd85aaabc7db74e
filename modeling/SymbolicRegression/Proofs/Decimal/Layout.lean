import SymbolicRegression.Proofs.Decimal.Shortest
import SymbolicRegression.Decimal.Layout

/-!
What is written for a double: a sign, and then a name, a zero or the digits of a decimal
that rounds back to the double.
-/

namespace SymbolicRegression
namespace Decimal

open Binary64 Float.Model Float.Model.UnpackedFloat

variable {s : Sign} {m : ℕ} {e : ℤ}

/-- The sign in front of a number. -/
def signText : Sign → List Char
  | .negative => ['-']
  | .positive => []

/-! ## The parts of a word -/

theorem toNat_fields (s : Sign) (e : BitVec 11) (f : BitVec 52) :
    (fields s e f).toNat = s.toBitVec.toNat * 2 ^ 63 + (word e f).toNat := by
  have he := e.isLt
  have hf := f.isLt
  rw [toNat_word]
  change ((s.toBitVec ++ e ++ f : BitVec 64)).toNat = _
  rw [BitVec.toNat_append, ← Nat.shiftLeft_add_eq_or_of_lt f.isLt, BitVec.toNat_append,
    ← Nat.shiftLeft_add_eq_or_of_lt e.isLt, Nat.shiftLeft_eq, Nat.shiftLeft_eq]
  ring

theorem word_lt (e : BitVec 11) (f : BitVec 52) : (word e f).toNat < 2 ^ 63 := by
  have he := e.isLt
  have hf := f.isLt
  rw [toNat_word]
  omega

theorem sign_fields (s : Sign) (e : BitVec 11) (f : BitVec 52) :
    (if UInt64.ofBitVec (fields s e f) >>> 63 = 1 then ['-'] else []) = signText s := by
  have hword := word_lt e f
  have hshift : (UInt64.ofBitVec (fields s e f) >>> 63).toNat = s.toBitVec.toNat := by
    rw [UInt64.toNat_shiftRight]
    change (fields s e f).toNat >>> 63 = _
    rw [toNat_fields, Nat.shiftRight_eq_div_pow]
    omega
  have hone : UInt64.ofBitVec (fields s e f) >>> 63 = 1 ↔ s.toBitVec.toNat = 1 := by
    rw [← UInt64.toNat_inj, hshift]
    rfl
  simp only [hone]
  cases s <;> rfl

theorem magnitude_fields (s : Sign) (e : BitVec 11) (f : BitVec 52) :
    UInt64.ofBitVec (fields s e f) &&& 0x7FFFFFFFFFFFFFFF = word e f := by
  have hword := word_lt e f
  have hmask : (0x7FFFFFFFFFFFFFFF : UInt64).toNat = 2 ^ 63 - 1 := rfl
  rw [← UInt64.toNat_inj, UInt64.toNat_and, hmask, Nat.and_two_pow_sub_one_eq_mod]
  change (fields s e f).toNat % _ = _
  rw [toNat_fields]
  omega

theorem word_inj {e e' : BitVec 11} {f f' : BitVec 52} :
    word e f = word e' f' ↔ e = e' ∧ f = f' := by
  refine ⟨fun h => ?_, fun ⟨he, hf⟩ => by rw [he, hf]⟩
  have hexp := exponent_word e f
  have hfrac := fraction_word e f
  rw [h, exponent_word] at hexp
  rw [h, fraction_word] at hfrac
  exact ⟨BitVec.eq_of_toNat_eq hexp.symm, BitVec.eq_of_toNat_eq hfrac.symm⟩

/-! ## Cases of a double -/

variable (l : Layout) {x : Float}

theorem write_nan (h : view x = .notANumber) : l.write x = ['N', 'a', 'N'] := by
  rw [Layout.write, if_pos (isNaN_iff_view.mpr h)]

/-- The sign and the two parts of the word decide what is written. -/
theorem write_fields {e : BitVec 11} {f : BitVec 52} (h : x.toBits = .ofBitVec (fields s e f))
    (hnan : view x ≠ .notANumber) :
    l.write x =
      if e = -1#11 ∧ f = 0#52 then signText s ++ ['i', 'n', 'f']
      else if e = 0#11 ∧ f = 0#52 then
        signText s ++ '0' :: (if l.pointZero then ['.', '0'] else [])
      else signText s ++ l.place ((Span.ofBits (word e f)).shortest l.tie) := by
  have hinf : word e f = 0x7FF0000000000000 ↔ e = -1#11 ∧ f = 0#52 :=
    @word_inj e (-1#11) f 0#52
  have hzero : word e f = 0 ↔ e = 0#11 ∧ f = 0#52 := @word_inj e 0#11 f 0#52
  rw [Layout.write, if_neg (isNaN_iff_view.not.mpr hnan)]
  simp only [h, sign_fields, magnitude_fields, hinf, hzero]

/-- The fields of a double, and the double in terms of them. -/
theorem exists_bits (x : Float) : ∃ s e f, x.toBits = .ofBitVec (fields s e f) ∧
    view x = UnpackedFloat.unpack .binary64 (fields s e f) := by
  obtain ⟨s, e, f, h⟩ := exists_fields x.toBits.toBitVec
  refine ⟨s, e, f, by rw [← h], ?_⟩
  rw [← h]
  rfl

theorem write_infinity (h : view x = .infinity s) :
    l.write x = signText s ++ ['i', 'n', 'f'] := by
  obtain ⟨s', e, f, hbits, hview⟩ := exists_bits x
  rw [write_fields l hbits (by rw [h]; nofun)]
  rw [h, unpack_fields] at hview
  split at hview
  · next he =>
    split at hview
    · next hf =>
      cases hview
      rw [if_pos ⟨he, hf⟩]
    · cases hview
  · split at hview
    · split at hview <;> cases hview
    · cases hview

theorem write_zero (h : view x = .zero s) :
    l.write x = signText s ++ '0' :: (if l.pointZero then ['.', '0'] else []) := by
  obtain ⟨s', e, f, hbits, hview⟩ := exists_bits x
  rw [write_fields l hbits (by rw [h]; nofun)]
  rw [h, unpack_fields] at hview
  split at hview
  · split at hview <;> cases hview
  · split at hview
    · next hne he =>
      split at hview
      · next hf =>
        cases hview
        rw [if_neg fun hinf => hne hinf.1, if_pos ⟨he, BitVec.eq_of_toNat_eq hf⟩]
      · cases hview
    · cases hview

/-- A number is written as a decimal out of its interval. -/
theorem write_finite {h : 0 < m} (hx : view x = .finite s m e h) :
    ∃ d : Scaled, InInterval m e d.value ∧ l.write x = signText s ++ l.place d := by
  obtain ⟨s', E, f, hbits, hview⟩ := exists_bits x
  rw [write_fields l hbits (by rw [hx]; nofun)]
  rw [hx, unpack_fields] at hview
  split at hview
  · split at hview <;> cases hview
  · next hne =>
    rw [if_neg fun hinf => hne hinf.1]
    split at hview
    · next h0 =>
      split at hview
      · cases hview
      · next hf =>
        cases hview
        obtain ⟨hcovers, hden⟩ := covers_ofBits (e := E) (f := f) (m := f.toNat) (k := -1074)
          (by rw [h0]; rfl) (by rw [h0]; rfl) h
        rw [if_neg fun hzero => hf (by rw [hzero.2]; rfl)]
        exact ⟨_, hcovers.inInterval_shortest hden l.tie, rfl⟩
    · next h0 =>
      cases hview
      have hE : E.toNat ≠ 0 := fun hE => h0 (BitVec.eq_of_toNat_eq hE)
      obtain ⟨hcovers, hden⟩ := covers_ofBits (e := E) (f := f) (m := 2 ^ 52 + f.toNat)
        (k := (E.toNat : ℤ) - 1075) (by rw [if_neg hE]) (by omega) h
      rw [if_neg fun hzero => h0 hzero.1]
      exact ⟨_, hcovers.inInterval_shortest hden l.tie, rfl⟩

end Decimal
end SymbolicRegression
