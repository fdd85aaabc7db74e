import SymbolicRegression.Proofs.Numeric.Rounding
import Mathlib

/-!
The bits of a double and what they stand for.

A word is a sign, an exponent and a fraction.  What it unpacks to is a double in the sense
of `IsDouble`, unpacking is inverse to packing on these, and packing turns a canonical
number with too great an exponent into infinity.
-/

namespace SymbolicRegression
namespace Binary64

open Float.Model Float.Model.UnpackedFloat

/-- What the bits of a double can stand for. -/
inductive IsDouble : UnpackedFloat → Prop where
  | nan : IsDouble .notANumber
  | infinity (s : Sign) : IsDouble (.infinity s)
  | zero (s : Sign) : IsDouble (.zero s)
  | finite {s : Sign} {m : ℕ} {e : ℤ} (hm : Canonical m e) (he : e ≤ 971) (h : 0 < m) :
      IsDouble (.finite s m e h)

/-! ## The three fields -/

abbrev fields (s : Sign) (e : BitVec 11) (f : BitVec 52) : BitVec 64 :=
  packComponents .binary64 s e f

theorem exists_fields (b : BitVec 64) : ∃ s e f, b = fields s e f :=
  ⟨_, _, _, (@packComponents_unpackSign_unpackExponent_unpackMantissa .binary64 b).symm⟩

/-- The number that the fields stand for. -/
theorem unpack_fields (s : Sign) (e : BitVec 11) (f : BitVec 52) :
    UnpackedFloat.unpack .binary64 (fields s e f) =
      if e = -1#11 then (if f = 0#52 then .infinity s else .notANumber)
      else if e = 0#11 then
        (if h : f.toNat = 0 then .zero s
         else .finite s f.toNat (-1074) (Nat.pos_of_ne_zero h))
      else .finite s (2 ^ 52 + f.toNat) ((e.toNat : ℤ) - 1075) (by omega) := by
  have happend : (1#1 ++ f).toNat = 2 ^ 52 + f.toNat := by
    rw [BitVec.toNat_append, ← Nat.shiftLeft_add_eq_or_of_lt f.isLt]
    rfl
  have hbias : ((Format.exponentBias .binary64 : ℕ) : ℤ) = 1023 := rfl
  have hzero : f = 0#52 ↔ f.toNat = 0 := by rw [← BitVec.toNat_inj]; rfl
  unfold UnpackedFloat.unpack
  simp only [unpackMantissa_packComponents, unpackExponent_packComponents,
    unpackSign_packComponents, Sign.ofBitVec_toBitVec, happend, hzero, hbias]
  split
  · rfl
  · split
    · next h =>
      subst h
      rfl
    · congr 1

theorem isDouble_unpack (b : BitVec 64) : IsDouble (UnpackedFloat.unpack .binary64 b) := by
  obtain ⟨s, e, f, rfl⟩ := exists_fields b
  rw [unpack_fields]
  have hf := f.isLt
  split
  · split
    · exact .infinity s
    · exact .nan
  · next hne =>
    have he : e.toNat < 2047 := by
      have := e.isLt
      have : e.toNat ≠ 2047 := fun h => hne (BitVec.eq_of_toNat_eq h)
      omega
    split
    · split
      · exact .zero s
      · exact .finite ⟨by omega, by omega, by omega, .inr rfl⟩ (by omega) _
    · next hne0 =>
      have : e.toNat ≠ 0 := fun h => hne0 (BitVec.eq_of_toNat_eq h)
      exact .finite ⟨by omega, by omega, by omega, .inl (by omega)⟩ (by omega) _

/-! ## Packing -/

variable {s : Sign} {m : ℕ} {e : ℤ}

theorem log2_add_one_eq_mantissaBits (h : m < 2 ^ 53) (hm : 0 < m) :
    m.log2 + 1 = Format.mantissaBits .binary64 ↔ 2 ^ 52 ≤ m := by
  have hbits : Format.mantissaBits .binary64 = 53 := rfl
  have hlt : m.log2 < 53 := (Nat.log2_lt hm.ne').mpr h
  have hle := Nat.le_log2 hm.ne' (k := 52)
  omega

/-- A number with an exponent that is too great becomes infinity; the others are stored
with a leading digit that is left out, or in full below the normal range. -/
theorem pack_finite (hm : Canonical m e) (h : 0 < m) :
    UnpackedFloat.pack .binary64 (.finite s m e h) =
      if 971 < e then packedInfinity .binary64 s
      else if 2 ^ 52 ≤ m then fields s (BitVec.ofNat 11 (e + 1075).toNat) (BitVec.ofNat 52 m)
      else fields s 0#11 (BitVec.ofNat 52 m) := by
  have hexp : e + ((Format.exponentBias .binary64 : ℕ) : ℤ) + ((52 : ℕ) : ℤ) = e + 1075 := by
    have hbias : Format.exponentBias .binary64 = 1023 := rfl
    rw [hbias]
    ring
  have hover : 2 ^ 11 ≤ (e + 1075).toNat + 1 ↔ 971 < e := by
    have := hm.low
    omega
  unfold UnpackedFloat.pack
  simp only [hexp, hover, log2_add_one_eq_mantissaBits hm.lt h]

theorem unpack_pack {u : UnpackedFloat} (h : IsDouble u) :
    UnpackedFloat.unpack .binary64 (UnpackedFloat.pack .binary64 u) = u := by
  cases h with
  | nan => rfl
  | infinity s => cases s <;> rfl
  | zero s => cases s <;> rfl
  | @finite s m e hm he h =>
    have hlow := hm.low
    have hlt := hm.lt
    rw [pack_finite hm, if_neg (by omega)]
    split
    · next hnormal =>
      have hexp : (BitVec.ofNat 11 (e + 1075).toNat).toNat = (e + 1075).toNat := by
        rw [BitVec.toNat_ofNat, Nat.mod_eq_of_lt (by omega)]
      rw [unpack_fields, if_neg, if_neg]
      · congr 1
        · rw [BitVec.toNat_ofNat]
          omega
        · rw [hexp]
          omega
      · intro h0
        have := congrArg BitVec.toNat h0
        rw [hexp, BitVec.toNat_ofNat] at this
        omega
      · intro h0
        have : (BitVec.ofNat 11 (e + 1075).toNat).toNat = 2047 := by rw [h0]; rfl
        omega
    · next hnormal =>
      obtain rfl : e = -1074 := hm.normal.resolve_left hnormal
      have hfrac : (BitVec.ofNat 52 m).toNat = m := by
        rw [BitVec.toNat_ofNat, Nat.mod_eq_of_lt (by omega)]
      rw [unpack_fields, if_neg (by decide), if_pos rfl, dif_neg (by omega)]
      simp only [hfrac]

/-! ## Doubles -/

/-- What a double stands for. -/
def view (x : Float) : UnpackedFloat := x.toModel.unpack

def ofView (u : UnpackedFloat) : Float := .ofModel (.pack u)

theorem isDouble_view (x : Float) : IsDouble (view x) := isDouble_unpack _

@[simp] theorem ofView_view (x : Float) : ofView (view x) = x := by
  obtain ⟨⟨bits, hvalid⟩⟩ := x
  simp only [ofView, view, Float.Model.pack, Float.Model.unpack, pack_unpack_of_valid hvalid]

theorem view_ofView {u : UnpackedFloat} (h : IsDouble u) : view (ofView u) = u := unpack_pack h

theorem ofView_overflow (hm : Canonical m e) (he : 971 < e) (h : 0 < m) :
    ofView (.finite s m e h) = ofView (.infinity s) := by
  have : UnpackedFloat.pack .binary64 (.finite s m e h) =
      UnpackedFloat.pack .binary64 (.infinity s) := by
    rw [pack_finite hm, if_pos he]
    rfl
  simp only [ofView, Float.Model.pack, this]

theorem neg_eq (x : Float) : -x = ofView (view x).neg := rfl

theorem add_eq (x y : Float) : x + y = ofView (add .binary64 (view x) (view y)) := rfl

theorem sub_eq (x y : Float) : x - y = ofView (sub .binary64 (view x) (view y)) := rfl

theorem mul_eq (x y : Float) : x * y = ofView (mul .binary64 (view x) (view y)) := rfl

theorem div_eq (x y : Float) : x / y = ofView (div .binary64 (view x) (view y)) := rfl

theorem lt_iff (x y : Float) : x < y ↔ (view x).compare (view y) = some .lt := by
  change decide (((view x).compare (view y) == some .lt) = true) = true ↔ _
  rw [decide_eq_true_iff, beq_iff_eq]

theorem le_iff (x y : Float) : x ≤ y ↔ ((view x).compare (view y)).any (·.isLE) = true := by
  change decide (((view x).compare (view y)).any (·.isLE) = true) = true ↔ _
  rw [decide_eq_true_iff]

/-! ## What is no number -/

theorem isNaN_iff_view {x : Float} : x.isNaN = true ↔ view x = .notANumber :=
  UnpackedFloat.isNaN_iff

/-- There is one double that is no number. -/
theorem eq_of_isNaN {x y : Float} (hx : x.isNaN = true) (hy : y.isNaN = true) : x = y := by
  rw [← ofView_view x, ← ofView_view y, isNaN_iff_view.mp hx, isNaN_iff_view.mp hy]

/-- An operation whose result is no number if an operand is none. -/
theorem isNaN_of_operand {op : UnpackedFloat → UnpackedFloat → UnpackedFloat}
    (hleft : ∀ v, op .notANumber v = .notANumber) (hright : ∀ u, op u .notANumber = .notANumber)
    {x y : Float} (h : x.isNaN = true ∨ y.isNaN = true) :
    (ofView (op (view x) (view y))).isNaN = true := by
  rw [isNaN_iff_view]
  rcases h with h | h
  · rw [isNaN_iff_view.mp h, hleft, view_ofView .nan]
  · rw [isNaN_iff_view.mp h, hright, view_ofView .nan]

variable {x y : Float} (h : x.isNaN = true ∨ y.isNaN = true)

include h

theorem isNaN_add : (x + y).isNaN = true :=
  isNaN_of_operand (fun v => by cases v <;> rfl) (fun u => by cases u <;> rfl) h

theorem isNaN_sub : (x - y).isNaN = true :=
  isNaN_of_operand (fun v => by cases v <;> rfl) (fun u => by cases u <;> rfl) h

theorem isNaN_mul : (x * y).isNaN = true :=
  isNaN_of_operand (fun v => by cases v <;> rfl) (fun u => by cases u <;> rfl) h

theorem isNaN_div : (x / y).isNaN = true :=
  isNaN_of_operand (fun v => by cases v <;> rfl) (fun u => by cases u <;> rfl) h

end Binary64
end SymbolicRegression
