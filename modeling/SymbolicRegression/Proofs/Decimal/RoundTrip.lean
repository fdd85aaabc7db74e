import SymbolicRegression.Proofs.Decimal.Layout
import SymbolicRegression.Proofs.Decimal.Nearest

/-!
Reading back what was written.

A natural number is read from its digits as itself.  A constant is read back as the same
double, bit for bit: its text stands for a decimal in its interval, and such a decimal is
read as the nearest double.
-/

namespace SymbolicRegression
namespace Decimal

open Binary64

/-! ## Digits -/

theorem isDigit_of_mem_digitsOf {n : ℕ} {c : Char} (h : c ∈ digitsOf n) : c.isDigit :=
  Nat.isDigit_of_mem_toDigits (by decide) (by decide) h

theorem digitsOf_ne_nil (n : ℕ) : digitsOf n ≠ [] := Nat.toDigits_ne_nil

theorem valueOf_eq (ds : List Char) : valueOf ds = Nat.ofDigitChars 10 ds 0 := rfl

@[simp] theorem valueOf_digitsOf (n : ℕ) : valueOf (digitsOf n) = n :=
  Nat.ofDigitChars_ten_toDigits

theorem valueOf_append (xs ys : List Char) :
    valueOf (xs ++ ys) = valueOf xs * 10 ^ ys.length + valueOf ys := by
  rw [valueOf_eq, Nat.ofDigitChars_append, Nat.ofDigitChars_eq_ofDigitChars_zero, mul_comm]
  rfl

@[simp] theorem valueOf_zeros (n : ℕ) : valueOf (List.replicate n '0') = 0 := by
  rw [valueOf_eq, Nat.ofDigitChars_replicate_zero, mul_zero]

@[simp] theorem natural?_digitsOf (n : ℕ) : natural? (digitsOf n) = some n := by
  have hall : (digitsOf n).all Char.isDigit = true :=
    List.all_eq_true.mpr fun _ hc => isDigit_of_mem_digitsOf hc
  rw [natural?, if_pos ⟨digitsOf_ne_nil n, hall⟩, valueOf_digitsOf]

/-- The text of a number starts with a digit, so that no sign is read from it. -/
theorem exists_cons_digitsOf (n : ℕ) : ∃ c cs, digitsOf n = c :: cs ∧ c.isDigit := by
  obtain ⟨c, cs, h⟩ := List.exists_cons_of_ne_nil (digitsOf_ne_nil n)
  exact ⟨c, cs, h, isDigit_of_mem_digitsOf (by rw [h]; exact List.mem_cons_self)⟩

/-- The text of a number other than zero does not start with a zero. -/
theorem head_digitsOf {n : ℕ} (h : 0 < n) {c : Char} {cs : List Char} (hn : digitsOf n = c :: cs) :
    c ≠ '0' := by
  induction n using Nat.strongRecOn generalizing c cs with
  | ind n ih =>
    unfold digitsOf at hn
    by_cases hsmall : n < 10
    · rw [Nat.toDigits_of_lt_base hsmall] at hn
      rw [← (List.cons.inj hn).1]
      interval_cases n <;> decide
    · rw [Nat.toDigits_of_base_le (by decide) (by omega)] at hn
      obtain ⟨d, ds, hd⟩ := List.exists_cons_of_ne_nil (digitsOf_ne_nil (n / 10))
      unfold digitsOf at hd
      rw [hd] at hn
      rw [← (List.cons.inj hn).1]
      exact ih (n / 10) (by omega) (by omega) hd

theorem index?_digitsOf {n : ℕ} (h : n < wordLimit) : index? (digitsOf n) = some n := by
  obtain ⟨c, cs, hcons, hc⟩ := exists_cons_digitsOf n
  have hplus : c ≠ '+' := by
    rintro rfl
    exact absurd hc (by decide)
  have hbody : index? (digitsOf n) = (natural? (digitsOf n)).filter (· < wordLimit) := by
    rw [hcons]
    unfold index?
    split
    · next heq => exact absurd (List.cons.inj heq).1 hplus
    · rfl
  rw [hbody, natural?_digitsOf, Option.filter_some, if_pos (by simpa using h)]

theorem integer?_signedDigits (plus : Bool) (k : ℤ) :
    integer? (signedDigits plus k) = some k := by
  unfold signedDigits
  split
  · next hk =>
    rw [integer?, natural?_digitsOf]
    change some (-(k.natAbs : ℤ)) = some k
    congr 1
    omega
  · next hk =>
    have hvalue : (natural? (digitsOf k.natAbs)).map Int.ofNat = some k := by
      rw [natural?_digitsOf, Option.map_some]
      congr 1
      exact Int.natAbs_of_nonneg (by omega)
    cases plus with
    | true => exact hvalue
    | false =>
      obtain ⟨c, cs, hcons, hc⟩ := exists_cons_digitsOf k.natAbs
      have hbody : integer? (digitsOf k.natAbs) = (natural? (digitsOf k.natAbs)).map Int.ofNat := by
        rw [hcons]
        unfold integer?
        split
        · next heq =>
          rw [(List.cons.inj heq).1] at hc
          exact absurd hc (by decide)
        · next heq =>
          rw [(List.cons.inj heq).1] at hc
          exact absurd hc (by decide)
        · rfl
      rw [if_neg Bool.false_ne_true, hbody, hvalue]

/-! ## Numerals -/

theorem not_mark_of_isDigit {c : Char} (h : c.isDigit) : (!(c == 'e' || c == 'E')) = true := by
  have he : c ≠ 'e' := by
    rintro rfl
    exact absurd h (by decide)
  have hE : c ≠ 'E' := by
    rintro rfl
    exact absurd h (by decide)
  simp [he, hE]

theorem ne_point_of_isDigit {c : Char} (h : c.isDigit) : (c != '.') = true := by
  have : c ≠ '.' := by
    rintro rfl
    exact absurd h (by decide)
  simp [this]

/-- The part behind the point, if there is one. -/
inductive Fraction : (text digits : List Char) → Prop where
  | none : Fraction [] []
  | some (ds : List Char) (h : ∀ c ∈ ds, c.isDigit) (hne : ds ≠ []) : Fraction ('.' :: ds) ds

/-- The exponent, if there is one. -/
inductive Exponent : (text : List Char) → (value : ℤ) → Prop where
  | none : Exponent [] 0
  | some (plus : Bool) (k : ℤ) : Exponent ('e' :: signedDigits plus k) k

variable {whole fraction point mark : List Char} {k : ℤ}

theorem Fraction.takeWhile (hp : Fraction point fraction) (hw : ∀ c ∈ whole, c.isDigit) :
    (whole ++ point).takeWhile (· != '.') = whole ∧
      ((whole ++ point).dropWhile (· != '.')).drop 1 = fraction := by
  have hpoint : ∀ c ∈ whole, (c != '.') = true := fun c hc => ne_point_of_isDigit (hw c hc)
  rw [List.takeWhile_append_of_pos hpoint, List.dropWhile_append_of_pos hpoint]
  cases hp with
  | none => exact ⟨List.append_nil _, rfl⟩
  | some ds h hne => exact ⟨List.append_nil _, rfl⟩

theorem Fraction.not_mark (hp : Fraction point fraction) :
    ∀ c ∈ point, (!(c == 'e' || c == 'E')) = true := by
  cases hp with
  | none => nofun
  | some ds h hne =>
    intro c hc
    rcases List.mem_cons.mp hc with rfl | hc
    · decide
    · exact not_mark_of_isDigit (h c hc)

theorem Fraction.isDigit (hp : Fraction point fraction) : ∀ c ∈ fraction, c.isDigit := by
  cases hp with
  | none => nofun
  | some ds h hne => exact h

theorem Exponent.span (hk : Exponent mark k) :
    mark.takeWhile (fun c => !(c == 'e' || c == 'E')) = [] ∧
      mark.dropWhile (fun c => !(c == 'e' || c == 'E')) = mark := by
  cases hk with
  | none => exact ⟨rfl, rfl⟩
  | some plus k => exact ⟨rfl, rfl⟩

/-- A numeral is read to the double nearest to what its digits stand for. -/
theorem unsigned?_numeral (hw : ∀ c ∈ whole, c.isDigit) (hne : whole ≠ [])
    (hp : Fraction point fraction) (hk : Exponent mark k) :
    unsigned? (whole ++ point ++ mark) =
      some (nearest (valueOf (whole ++ fraction)) (k - fraction.length)) := by
  have hmantissa : ∀ c ∈ whole ++ point, (!(c == 'e' || c == 'E')) = true := by
    intro c hc
    rcases List.mem_append.mp hc with hc | hc
    · exact not_mark_of_isDigit (hw c hc)
    · exact hp.not_mark c hc
  have htake : (whole ++ point ++ mark).takeWhile (fun c => !(c == 'e' || c == 'E')) =
      whole ++ point := by
    rw [List.takeWhile_append_of_pos hmantissa, hk.span.1, List.append_nil]
  have hdrop : (whole ++ point ++ mark).dropWhile (fun c => !(c == 'e' || c == 'E')) = mark := by
    rw [List.dropWhile_append_of_pos hmantissa, hk.span.2]
  obtain ⟨hwhole, hfraction⟩ := hp.takeWhile hw
  have hdigits : ((whole ++ fraction).all Char.isDigit && !(whole ++ fraction).isEmpty) = true := by
    have hall : (whole ++ fraction).all Char.isDigit = true := by
      rw [List.all_append, Bool.and_eq_true]
      exact ⟨List.all_eq_true.mpr hw, List.all_eq_true.mpr hp.isDigit⟩
    rw [hall, Bool.true_and, Bool.not_eq_true', List.isEmpty_eq_false_iff]
    exact List.append_ne_nil_of_left_ne_nil hne _
  unfold unsigned?
  simp only [htake, hdrop, hwhole, hfraction, hdigits, if_true]
  cases hk with
  | none => rfl
  | some plus k =>
    simp only [integer?_signedDigits]
    rfl

/-! ## Decimals -/

/-- The text consists of digits, with a point or an exponent, and stands for `v`.  There is at
least one digit before the point, and no zero in front of others. -/
inductive Numeral : List Char → ℚ → Prop where
  | parts {whole fraction point mark : List Char} {k : ℤ} {v : ℚ} (hw : ∀ c ∈ whole, c.isDigit)
      (hne : whole ≠ []) (hzero : ∀ cs, whole = '0' :: cs → cs = []) (hp : Fraction point fraction)
      (hk : Exponent mark k) (hreal : point ≠ [] ∨ mark ≠ [])
      (hv : (valueOf (whole ++ fraction) : ℚ) * (10 : ℚ) ^ (k - fraction.length) = v) :
      Numeral (whole ++ point ++ mark) v

variable {text : List Char} {v : ℚ}

theorem Numeral.read (h : Numeral text v) :
    ∃ (n : ℕ) (j : ℤ), (n : ℚ) * (10 : ℚ) ^ j = v ∧ unsigned? text = some (nearest n j) := by
  cases h with
  | parts hw hne hzero hp hk hreal hv => exact ⟨_, _, hv, unsigned?_numeral hw hne hp hk⟩

theorem Numeral.exists_cons (h : Numeral text v) : ∃ c cs, text = c :: cs ∧ c.isDigit := by
  cases h with
  | @parts whole fraction point mark k _ hw hne hzero hp hk hreal hv =>
    obtain ⟨c, cs, rfl⟩ := List.exists_cons_of_ne_nil hne
    exact ⟨c, cs ++ point ++ mark, rfl, hw c List.mem_cons_self⟩

theorem isDigit_zeros {n : ℕ} {c : Char} (h : c ∈ List.replicate n '0') : c.isDigit := by
  rw [List.eq_of_mem_replicate h]
  rfl

/-- The digits of a decimal and what follows them start with no zero. -/
theorem no_zero_of_digits {d : Scaled} (hd : 0 < d.digits) {i : ℕ} (hi : 0 < i)
    (more : List Char) :
    ∀ cs, (digitsOf d.digits).take i ++ more = '0' :: cs → cs = [] := by
  intro cs hcs
  obtain ⟨c, ds, hcons⟩ := List.exists_cons_of_ne_nil (digitsOf_ne_nil d.digits)
  obtain ⟨j, rfl⟩ := Nat.exists_eq_succ_of_ne_zero hi.ne'
  rw [hcons, List.take_succ_cons, List.cons_append] at hcs
  exact absurd (List.cons.inj hcs).1 (head_digitsOf hd hcons)

/-- With zeros up to the point. -/
theorem numeral_padded {d : Scaled} (hd : 0 < d.digits) (h : 0 ≤ d.exponent) :
    Numeral (digitsOf d.digits ++ List.replicate d.exponent.toNat '0' ++ ['.', '0']) d.value := by
  have hw : ∀ c ∈ digitsOf d.digits ++ List.replicate d.exponent.toNat '0', c.isDigit := by
    intro c hc
    rcases List.mem_append.mp hc with hc | hc
    · exact isDigit_of_mem_digitsOf hc
    · exact isDigit_zeros hc
  have hv : (valueOf (digitsOf d.digits ++ List.replicate d.exponent.toNat '0' ++ ['0']) : ℚ) *
      (10 : ℚ) ^ ((0 : ℤ) - (['0'] : List Char).length) = d.value := by
    have hten : (10 : ℚ) ^ d.exponent = 10 ^ d.exponent.toNat := by
      rw [← zpow_natCast, Int.toNat_of_nonneg h]
    rw [valueOf_append, valueOf_append, valueOf_digitsOf, valueOf_zeros, List.length_replicate,
      Scaled.value, hten]
    simp only [List.length_cons, List.length_nil, show valueOf ['0'] = 0 from rfl]
    push_cast
    norm_num
    ring
  have hzero : ∀ cs, digitsOf d.digits ++ List.replicate d.exponent.toNat '0' = '0' :: cs →
      cs = [] := by
    have := no_zero_of_digits hd (List.length_pos_iff.mpr (digitsOf_ne_nil d.digits))
      (List.replicate d.exponent.toNat '0')
    rwa [List.take_length] at this
  have := Numeral.parts hw (List.append_ne_nil_of_left_ne_nil (digitsOf_ne_nil _) _) hzero
    (.some ['0'] (fun _ => isDigit_zeros (n := 1)) (by decide)) .none (.inl (by decide)) hv
  rwa [List.append_nil] at this

/-- With the point between digits or behind the first one, and an exponent for the rest. -/
theorem numeral_split {d : Scaled} (hd : 0 < d.digits) {i : ℕ} (hi : 0 < i)
    (hlt : i < (digitsOf d.digits).length)
    {k : ℤ} {mark : List Char} (hk : Exponent mark k)
    (hexp : d.exponent + ((digitsOf d.digits).length : ℤ) = i + k) :
    Numeral ((digitsOf d.digits).take i ++ '.' :: (digitsOf d.digits).drop i ++ mark) d.value := by
  have hne : (digitsOf d.digits).take i ≠ [] := by
    rw [← List.length_pos_iff, List.length_take]
    omega
  have hzero : ∀ cs, (digitsOf d.digits).take i = '0' :: cs → cs = [] := by
    have := no_zero_of_digits hd hi []
    rwa [List.append_nil] at this
  have hrest : (digitsOf d.digits).drop i ≠ [] := by
    rw [← List.length_pos_iff, List.length_drop]
    omega
  have hfraction := Fraction.some _
    (fun c hc => isDigit_of_mem_digitsOf (List.mem_of_mem_drop hc)) hrest
  refine .parts (fun c hc => isDigit_of_mem_digitsOf (List.mem_of_mem_take hc)) hne hzero
    hfraction hk (.inl (List.cons_ne_nil _ _)) ?_
  rw [List.take_append_drop, valueOf_digitsOf, List.length_drop, Scaled.value]
  congr 2
  omega

/-- With zeros behind the point. -/
theorem numeral_small {d : Scaled}
    (h : d.exponent + ((digitsOf d.digits).length : ℤ) ≤ 0) :
    Numeral ('0' :: '.' :: List.replicate
      (-(d.exponent + ((digitsOf d.digits).length : ℤ))).toNat '0' ++ digitsOf d.digits)
      d.value := by
  generalize hz : (-(d.exponent + ((digitsOf d.digits).length : ℤ))).toNat = z
  have hf : ∀ c ∈ List.replicate z '0' ++ digitsOf d.digits, c.isDigit := by
    intro c hc
    rcases List.mem_append.mp hc with hc | hc
    · exact isDigit_zeros hc
    · exact isDigit_of_mem_digitsOf hc
  have hv : (valueOf (['0'] ++ (List.replicate z '0' ++ digitsOf d.digits)) : ℚ) *
      (10 : ℚ) ^ ((0 : ℤ) - (List.replicate z '0' ++ digitsOf d.digits).length) = d.value := by
    rw [valueOf_append, valueOf_append, valueOf_digitsOf, valueOf_zeros, Scaled.value,
      List.length_append, List.length_replicate]
    simp only [show valueOf ['0'] = 0 from rfl, zero_mul, zero_add]
    congr 2
    push_cast
    omega
  have hzero : ∀ cs, ['0'] = '0' :: cs → cs = [] := fun cs hcs => (List.cons.inj hcs).2.symm
  have hfraction := Fraction.some _ hf (List.append_ne_nil_of_right_ne_nil _ (digitsOf_ne_nil _))
  have := Numeral.parts (fun _ => isDigit_zeros (n := 1)) (by decide) hzero hfraction .none
    (.inl (List.cons_ne_nil _ _)) hv
  rwa [List.append_nil] at this

/-- The text of a decimal stands for the decimal, in every layout that tells it from a whole
number. -/
theorem numeral_place {l : Layout} (hpoint : l.pointZero = true) {d : Scaled} (hd : 0 < d.digits) :
    Numeral (l.place d) d.value := by
  have hlen := List.length_pos_iff.mpr (digitsOf_ne_nil d.digits)
  unfold Layout.place
  simp only [hpoint]
  split
  · split
    · next hexp => exact numeral_padded hd hexp
    · next hexp =>
      split
      · next hlead =>
        have := numeral_split hd (i := (d.exponent + (digitsOf d.digits).length - 1).toNat + 1)
          (Nat.succ_pos _) (by omega) .none (by omega)
        rwa [List.append_nil] at this
      · next hlead =>
        have hzeros : (-(d.exponent + ((digitsOf d.digits).length : ℤ) - 1)).toNat - 1 =
            (-(d.exponent + ((digitsOf d.digits).length : ℤ))).toNat := by omega
        rw [hzeros]
        exact numeral_small (by omega)
  · split
    · next h1 =>
      have htake : (digitsOf d.digits).take 1 = digitsOf d.digits := List.take_of_length_le h1.le
      have hzero : ∀ cs, digitsOf d.digits = '0' :: cs → cs = [] := by
        have := no_zero_of_digits hd Nat.one_pos []
        rwa [List.append_nil, htake] at this
      rw [htake]
      refine .parts (fun c => isDigit_of_mem_digitsOf) (digitsOf_ne_nil _) hzero .none (.some _ _)
        (.inr (List.cons_ne_nil _ _)) ?_
      rw [List.append_nil, valueOf_digitsOf, h1, Scaled.value]
      simp
    · exact numeral_split hd (i := 1) Nat.one_pos (by omega) (.some _ _) (by omega)

/-- A decimal that stands for a positive number has a digit other than zero. -/
theorem digits_pos {m : ℕ} {e : ℤ} {d : Scaled} (hm : Canonical m e)
    (h : InInterval m e d.value) : 0 < d.digits := by
  rcases Nat.eq_zero_or_pos d.digits with hzero | hpos
  · have := h.pos hm
    rw [Scaled.value, hzero] at this
    simp at this
  · exact hpos

/-- A decimal in the interval of a double is read to the double. -/
theorem nearest_of_value {m : ℕ} {e : ℤ} (hm : Canonical m e) (he : e ≤ 971) {n : ℕ} {j : ℤ}
    (h : InInterval m e ((n : ℚ) * (10 : ℚ) ^ j)) :
    nearest n j = ofView (.finite .positive m e hm.pos) := by
  have hpos : 0 < n := by
    rcases Nat.eq_zero_or_pos n with rfl | hpos
    · have := h.pos hm
      simp at this
    · exact hpos
  exact nearest_of_inInterval hm he hpos h

/-! ## Constants -/

open Float.Model Float.Model.UnpackedFloat

/-- No name of a number starts with a digit. -/
theorem named?_of_isDigit {c : Char} (hc : c.isDigit) (cs : List Char) :
    named? (c :: cs) = none := by
  have hlow : c.toLower = c := by
    rw [Char.isDigit, Bool.and_eq_true, decide_eq_true_eq, decide_eq_true_eq] at hc
    have hupper : ¬ (c.val ≥ 'A'.val ∧ c.val ≤ 'Z'.val) := by
      intro h
      exact absurd (UInt32.le_trans h.1 hc.2) (by decide)
    rw [Char.toLower, dif_neg hupper]
  have hi : c ≠ 'i' := by
    rintro rfl
    exact absurd hc (by decide)
  have hn : c ≠ 'n' := by
    rintro rfl
    exact absurd hc (by decide)
  rw [named?, List.map_cons, hlow]
  split
  · next h => exact absurd (List.cons.inj h).1 hi
  · next h => exact absurd (List.cons.inj h).1 hi
  · next h => exact absurd (List.cons.inj h).1 hn
  · rfl

theorem magnitude?_place {m : ℕ} {e : ℤ} {d : Scaled} (hm : Canonical m e) (he : e ≤ 971)
    (h : InInterval m e d.value) :
    magnitude? (exactLayout.place d) = some (ofView (.finite .positive m e hm.pos)) := by
  have hnumeral := numeral_place (l := exactLayout) rfl (digits_pos hm h)
  obtain ⟨c, cs, hcons, hc⟩ := hnumeral.exists_cons
  obtain ⟨n, j, hv, hread⟩ := hnumeral.read
  have hnamed : named? (exactLayout.place d) = none := by
    rw [hcons]
    exact named?_of_isDigit hc cs
  rw [← hv] at h
  rw [magnitude?, hnamed, Option.none_or, hread, nearest_of_value hm he h]

theorem double?_of_isDigit {c : Char} (hc : c.isDigit) (cs : List Char) :
    double? (c :: cs) = magnitude? (c :: cs) := by
  unfold double?
  split
  · next h =>
    rw [(List.cons.inj h).1] at hc
    exact absurd hc (by decide)
  · next h =>
    rw [(List.cons.inj h).1] at hc
    exact absurd hc (by decide)
  · rfl

/-- A constant is read back as it was written, bit for bit. -/
theorem double?_exact (x : Float) : double? (exact x) = some x := by
  rw [← ofView_view x]
  have hd := isDouble_view x
  generalize view x = u at hd
  cases hd with
  | nan =>
    rw [exact, write_nan _ (view_ofView .nan)]
    decide
  | infinity s =>
    rw [exact, write_infinity _ (view_ofView (.infinity s))]
    cases s <;> decide
  | zero s =>
    rw [exact, write_zero _ (view_ofView (.zero s))]
    cases s <;> decide
  | @finite s m e hm he h =>
    obtain ⟨d, hinterval, hwrite⟩ := write_finite exactLayout (view_ofView (.finite hm he h))
    have hread := magnitude?_place hm he hinterval
    rw [exact, hwrite]
    cases s with
    | positive =>
      obtain ⟨c, cs, hcons, hc⟩ :=
        (numeral_place (l := exactLayout) rfl (digits_pos hm hinterval)).exists_cons
      change double? (exactLayout.place d) = _
      rw [← hread, hcons, double?_of_isDigit hc]
    | negative =>
      change (magnitude? (exactLayout.place d)).map (fun x => -x) = _
      rw [hread, Option.map_some, neg_eq, view_ofView (.finite hm he hm.pos)]
      rfl

/-! ## Characters -/

/-- The characters of constants other than digits. -/
def marks : List Char := ['-', '+', '.', 'e', 'i', 'n', 'f', 'N', 'a']

theorem Numeral.chars (h : Numeral text v) : ∀ c ∈ text, c.isDigit ∨ c ∈ marks := by
  cases h with
  | @parts whole fraction point mark k _ hw hne hzero hp hk hreal hv =>
    intro c hc
    rcases List.mem_append.mp hc with hc | hc
    · rcases List.mem_append.mp hc with hc | hc
      · exact .inl (hw c hc)
      · cases hp with
        | none => contradiction
        | some ds h hne =>
          rcases List.mem_cons.mp hc with rfl | hc
          · exact .inr (by decide)
          · exact .inl (h c hc)
    · cases hk with
      | none => contradiction
      | some plus k =>
        rcases List.mem_cons.mp hc with rfl | hc
        · exact .inr (by decide)
        · unfold signedDigits at hc
          split at hc
          · rcases List.mem_cons.mp hc with rfl | hc
            · exact .inr (by decide)
            · exact .inl (isDigit_of_mem_digitsOf hc)
          · split at hc
            · rcases List.mem_cons.mp hc with rfl | hc
              · exact .inr (by decide)
              · exact .inl (isDigit_of_mem_digitsOf hc)
            · exact .inl (isDigit_of_mem_digitsOf hc)

theorem chars_of_all {s : List Char} (h : s.all fun c => c.isDigit || marks.contains c) :
    ∀ c ∈ s, c.isDigit ∨ c ∈ marks := by
  simpa [List.all_eq_true] using h

theorem exact_chars (x : Float) : ∀ c ∈ exact x, c.isDigit ∨ c ∈ marks := by
  have hd := isDouble_view x
  generalize hx : view x = u at hd
  cases hd with
  | nan =>
    rw [exact, write_nan _ hx]
    exact chars_of_all (by decide)
  | infinity s =>
    rw [exact, write_infinity _ hx]
    cases s <;> exact chars_of_all (by decide)
  | zero s =>
    rw [exact, write_zero _ hx]
    cases s <;> exact chars_of_all (by decide)
  | @finite s m e hm he h =>
    obtain ⟨d, hinterval, hwrite⟩ := write_finite exactLayout hx
    rw [exact, hwrite]
    intro c hc
    rcases List.mem_append.mp hc with hc | hc
    · cases s with
      | positive => contradiction
      | negative =>
        rw [List.mem_singleton.mp hc]
        exact .inr (by decide)
    · exact (numeral_place (l := exactLayout) rfl (digits_pos hm hinterval)).chars c hc

theorem exact_ne_nil (x : Float) : exact x ≠ [] := by
  intro h
  have := double?_exact x
  rw [h] at this
  exact absurd this nofun

end Decimal
end SymbolicRegression
