import SymbolicRegression.Json.Reader
import SymbolicRegression.Json.Writer
import SymbolicRegression.Proofs.Decimal.RoundTrip

/-!
Numbers in JSON are read as they were written.

A number has no end of its own.  What follows it must not go on with it: `Ends` is what the
reader needs to know of the rest, and every character that the writer puts behind a number
satisfies it.
-/

namespace SymbolicRegression
namespace Json
namespace Reader

open Decimal

variable {rest ds whole point fraction mark : List Char} {k : ℤ}

/-- A text that does not go on with a number before it. -/
def Ends (rest : List Char) : Prop :=
  ∀ c cs, rest = c :: cs → c.isDigit = false ∧ c ≠ '.' ∧ c ≠ 'e' ∧ c ≠ 'E'

theorem ends_nil : Ends [] := nofun

theorem ends_cons {c : Char} (h : c.isDigit = false ∧ c ≠ '.' ∧ c ≠ 'e' ∧ c ≠ 'E')
    (cs : List Char) : Ends (c :: cs) := by
  rintro _ _ ⟨⟩
  exact h

/-- What digits may be followed by. -/
def NoDigit (rest : List Char) : Prop := ∀ c cs, rest = c :: cs → c.isDigit = false

/-- What the digits behind a point, or those in front of none, may be followed by. -/
def NoFraction (rest : List Char) : Prop := ∀ c cs, rest = c :: cs → c.isDigit = false ∧ c ≠ '.'

theorem Ends.noDigit (h : Ends rest) : NoDigit rest := fun c cs hcs => (h c cs hcs).1

theorem NoFraction.noDigit (h : NoFraction rest) : NoDigit rest := fun c cs hcs => (h c cs hcs).1

theorem noFraction_append (hk : Exponent mark k) (hrest : Ends rest) :
    NoFraction (mark ++ rest) := by
  cases hk with
  | none => exact fun c cs hcs => ⟨(hrest c cs hcs).1, (hrest c cs hcs).2.1⟩
  | some plus k =>
    rintro _ _ ⟨⟩
    exact ⟨rfl, by decide⟩

theorem noDigit_append (hp : Fraction point fraction) (hrest : NoFraction rest) :
    NoDigit (point ++ rest) := by
  cases hp with
  | none => exact hrest.noDigit
  | some ds hds hne =>
    rintro _ _ ⟨⟩
    rfl

/-! ## Digits -/

theorem digits_append (hds : ∀ c ∈ ds, c.isDigit) (hrest : NoDigit rest) :
    ∃ h, digits (ds ++ rest) = (ds, ⟨rest, h⟩) := by
  have hstop : rest.takeWhile Char.isDigit = [] ∧ rest.dropWhile Char.isDigit = rest := by
    cases rest with
    | nil => exact ⟨rfl, rfl⟩
    | cons c cs =>
      have hc : ¬c.isDigit = true := by
        rw [hrest c cs rfl]
        exact Bool.false_ne_true
      exact ⟨List.takeWhile_cons_of_neg hc, List.dropWhile_cons_of_neg hc⟩
  have htake : (ds ++ rest).takeWhile Char.isDigit = ds := by
    rw [List.takeWhile_append_of_pos hds, hstop.1, List.append_nil]
  have hdrop : (ds ++ rest).dropWhile Char.isDigit = rest := by
    rw [List.dropWhile_append_of_pos hds, hstop.2]
  refine ⟨by simp, ?_⟩
  unfold digits
  rw [Prod.mk.injEq, Subtype.mk.injEq]
  exact ⟨htake, hdrop⟩

theorem length_le_append (ds rest : List Char) : rest.length ≤ (ds ++ rest).length := by
  rw [List.length_append]
  exact Nat.le_add_left _ _

theorem fraction?_point {t r : List Char} {hr : r.length ≤ t.length}
    (h : digits t = (ds, ⟨r, hr⟩)) (hne : ds ≠ []) :
    fraction? ('.' :: t) = some (some ds, ⟨r, Nat.le_succ_of_le hr⟩) := by
  cases ds with
  | nil => exact absurd rfl hne
  | cons d ds => simp only [fraction?, h]

theorem fraction?_append (hp : Fraction point fraction) (hrest : NoFraction rest) :
    ∃ f, fraction? (point ++ rest) = some (f, ⟨rest, length_le_append point rest⟩) ∧
      f.getD [] = fraction ∧ f.isNone = point.isEmpty := by
  cases hp with
  | none =>
    refine ⟨none, ?_, rfl, rfl⟩
    show fraction? rest = _
    unfold fraction?
    split
    · next t => exact absurd rfl (hrest '.' t rfl).2
    · rfl
  | some ds hds hne =>
    obtain ⟨hle, hdigits⟩ := digits_append hds hrest.noDigit
    exact ⟨some fraction, fraction?_point hdigits hne, rfl, rfl⟩

/-! ## Exponents -/

theorem sign_of_unsigned {s : List Char} (hminus : ∀ t, s ≠ '-' :: t) (hplus : ∀ t, s ≠ '+' :: t) :
    sign s = (false, ⟨s, Nat.le_refl _⟩) := by
  unfold sign
  split
  · next t => exact absurd rfl (hminus t)
  · next t => exact absurd rfl (hplus t)
  · rfl

theorem sign_signedDigits (plus : Bool) (k : ℤ) (rest : List Char) :
    ∃ h, sign (signedDigits plus k ++ rest) =
      (decide (k < 0), ⟨digitsOf k.natAbs ++ rest, h⟩) := by
  unfold signedDigits
  by_cases hk : k < 0
  · rw [if_pos hk, decide_eq_true hk]
    exact ⟨_, rfl⟩
  · rw [if_neg hk, decide_eq_false hk]
    cases plus with
    | true => exact ⟨_, rfl⟩
    | false =>
      obtain ⟨c, cs, hcons, hc⟩ := exists_cons_digitsOf k.natAbs
      rw [if_neg Bool.false_ne_true, hcons]
      refine ⟨Nat.le_refl _, sign_of_unsigned (fun t ht => ?_) fun t ht => ?_⟩
      · rw [(List.cons.inj ht).1] at hc
        exact absurd hc (by decide)
      · rw [(List.cons.inj ht).1] at hc
        exact absurd hc (by decide)

theorem exponentDigits?_append (n : ℕ) (negative : Bool) (hrest : NoDigit rest) :
    exponentDigits? negative (digitsOf n ++ rest) =
      some (if negative then -(n : ℤ) else n, ⟨rest, length_le_append _ rest⟩) := by
  obtain ⟨hle, hdigits⟩ := digits_append (fun c => isDigit_of_mem_digitsOf) hrest
  unfold exponentDigits?
  rw [hdigits]
  split
  · next heq => exact absurd (Prod.mk.inj heq).1 (digitsOf_ne_nil n)
  · next heq =>
    cases heq
    rw [valueOf_digitsOf]

theorem exponent?_mark {t u r : List Char} {negative : Bool} {hu : u.length ≤ t.length}
    {hr : r.length ≤ u.length} (hsign : sign t = (negative, ⟨u, hu⟩))
    (hdigits : exponentDigits? negative u = some (k, ⟨r, hr⟩)) :
    exponent? ('e' :: t) = some (some k, ⟨r, Nat.le_succ_of_le (hr.trans hu)⟩) := by
  unfold exponent?
  simp only [true_or, if_true]
  generalize sign t = signed at hsign
  subst hsign
  dsimp only
  rw [hdigits]
  rfl

theorem exponent?_append (hk : Exponent mark k) (hrest : Ends rest) :
    ∃ x, exponent? (mark ++ rest) = some (x, ⟨rest, length_le_append mark rest⟩) ∧
      x.getD 0 = k ∧ x.isNone = mark.isEmpty := by
  cases hk with
  | none =>
    refine ⟨none, ?_, rfl, rfl⟩
    show exponent? rest = _
    cases rest with
    | nil => rfl
    | cons c cs =>
      obtain ⟨-, -, he, hE⟩ := hrest c cs rfl
      unfold exponent?
      dsimp only
      rw [if_neg (not_or.mpr ⟨he, hE⟩)]
  | some plus k =>
    obtain ⟨hle, hsign⟩ := sign_signedDigits plus k rest
    have hdigits := exponentDigits?_append k.natAbs (decide (k < 0)) hrest.noDigit
    have hvalue : (if decide (k < 0) then -(k.natAbs : ℤ) else k.natAbs) = k := by
      simp only [decide_eq_true_eq]
      split <;> omega
    rw [hvalue] at hdigits
    exact ⟨some k, exponent?_mark hsign hdigits, rfl, rfl⟩

/-! ## Numbers -/

variable {v : ℚ} {text : List Char}

theorem unsigned?_parts (negative : Bool) {c : Char} {t r₁ r₂ r₃ : List Char}
    {f : Option (List Char)} {e : Option ℤ} {h₁ : r₁.length ≤ t.length}
    {h₂ : r₂.length ≤ r₁.length} {h₃ : r₃.length ≤ r₂.length} (hc : c.isDigit = true)
    (hdigits : digits t = (ds, ⟨r₁, h₁⟩)) (hzero : c = '0' → ds = [])
    (hfraction : fraction? r₁ = some (f, ⟨r₂, h₂⟩))
    (hexponent : exponent? r₂ = some (e, ⟨r₃, h₃⟩)) :
    unsigned? negative (c :: t) = some (numberValue negative (c :: ds) f e,
      ⟨r₃, Nat.lt_succ_of_le (h₃.trans (h₂.trans h₁))⟩) := by
  have hleading : ¬(c = '0' ∧ ds ≠ []) := fun h => h.2 (hzero h.1)
  unfold unsigned?
  dsimp only
  rw [if_pos hc]
  -- What is left carries a bound that names the text, so it is not rewritten in its place.
  generalize digits t = read at hdigits
  subst hdigits
  dsimp only
  rw [if_neg hleading, hfraction]
  dsimp only
  rw [hexponent]

/-- The parts of a numeral are found, and its value is made of them. -/
theorem unsigned?_append (negative : Bool) (hw : ∀ c ∈ whole, c.isDigit = true) (hne : whole ≠ [])
    (hzero : ∀ cs, whole = '0' :: cs → cs = []) (hp : Fraction point fraction)
    (hk : Exponent mark k) (hrest : Ends rest) :
    ∃ f e h, unsigned? negative (whole ++ point ++ mark ++ rest) =
        some (numberValue negative whole f e, ⟨rest, h⟩) ∧
      f.getD [] = fraction ∧ e.getD 0 = k ∧ f.isNone = point.isEmpty ∧
      e.isNone = mark.isEmpty := by
  obtain ⟨c, ds, rfl⟩ := List.exists_cons_of_ne_nil hne
  have hmark := noFraction_append hk hrest
  have hds : ∀ d ∈ ds, d.isDigit = true := fun d hd => hw d (List.mem_cons_of_mem c hd)
  obtain ⟨h₁, hdigits⟩ := digits_append hds (noDigit_append hp hmark)
  obtain ⟨f, hfraction, hf, hpoint⟩ := fraction?_append hp hmark
  obtain ⟨e, hexponent, he, hmark⟩ := exponent?_append hk hrest
  have hleading : c = '0' → ds = [] := fun hc => hzero ds (by rw [hc])
  have hread := unsigned?_parts negative (hw c List.mem_cons_self) hdigits hleading hfraction
    hexponent
  have htext : c :: ds ++ point ++ mark ++ rest = c :: (ds ++ (point ++ (mark ++ rest))) := by simp
  rw [htext]
  exact ⟨f, e, _, hread, hf, he, hpoint, hmark⟩

/-- A numeral is no whole number, and is read to the double nearest to what it stands for. -/
theorem unsigned?_numeral (negative : Bool) (h : Numeral text v) (hrest : Ends rest) :
    ∃ (n : ℕ) (j : ℤ), (n : ℚ) * (10 : ℚ) ^ j = v ∧ ((nearest n j).isFinite = true →
      ∃ h, unsigned? negative (text ++ rest) =
        some (number (.real (if negative then -nearest n j else nearest n j)), ⟨rest, h⟩)) := by
  cases h with
  | @parts whole fraction point mark k _ hw hne hzero hp hk hreal hv =>
    obtain ⟨f, e, hlt, hread, hf, he, hpoint, hmark⟩ :=
      unsigned?_append negative hw hne hzero hp hk hrest
    refine ⟨_, _, hv, fun hfinite => ⟨hlt, ?_⟩⟩
    have hwhole : (f.isNone && e.isNone) = false := by
      rw [hpoint, hmark, Bool.and_eq_false_iff, List.isEmpty_eq_false_iff,
        List.isEmpty_eq_false_iff]
      exact hreal
    rw [hread]
    unfold numberValue
    simp only [hwhole, Bool.false_and, Bool.false_eq_true, if_false, hf, he, hfinite, if_true]

/-- Digits alone are a whole number, as far as there is one of this sign. -/
theorem unsigned?_digitsOf (negative : Bool) (n : ℕ) (hrest : Ends rest) :
    ∃ h, unsigned? negative (digitsOf n ++ rest) =
      some (numberValue negative (digitsOf n) none none, ⟨rest, h⟩) := by
  have hzero : ∀ cs, digitsOf n = '0' :: cs → cs = [] := by
    intro cs hcs
    rcases Nat.eq_zero_or_pos n with rfl | hpos
    · exact (List.cons.inj hcs).2.symm
    · exact absurd rfl (head_digitsOf hpos hcs)
  have hdigits : ∀ c ∈ digitsOf n, c.isDigit = true := fun c => isDigit_of_mem_digitsOf
  obtain ⟨f, e, hlt, hread, -, -, hf, he⟩ := unsigned?_append negative hdigits (digitsOf_ne_nil n)
    hzero .none .none hrest
  obtain rfl : f = none := Option.isNone_iff_eq_none.mp hf
  obtain rfl : e = none := Option.isNone_iff_eq_none.mp he
  have htext : digitsOf n ++ [] ++ [] ++ rest = digitsOf n ++ rest := by simp
  rw [← htext]
  exact ⟨hlt, hread⟩

theorem number?_minus {j : Json} {t r : List Char} {hr : r.length < t.length}
    (h : unsigned? true t = some (j, ⟨r, hr⟩)) :
    number? ('-' :: t) = some (j, ⟨r, Nat.lt_succ_of_lt hr⟩) := by
  show (unsigned? true t).map _ = _
  rw [h]
  rfl

theorem number?_unsigned {j : Json} {s r : List Char} {hr : r.length < s.length}
    (h : unsigned? false s = some (j, ⟨r, hr⟩)) (hs : ∀ t, s ≠ '-' :: t) :
    number? s = some (j, ⟨r, hr⟩) := by
  unfold number?
  split
  · next t => exact absurd rfl (hs t)
  · exact h

theorem ne_minus_of_isDigit {text : List Char} (h : ∃ c cs, text = c :: cs ∧ c.isDigit = true)
    (rest t : List Char) : text ++ rest ≠ '-' :: t := by
  obtain ⟨c, cs, rfl, hc⟩ := h
  intro ht
  rw [(List.cons.inj ht).1] at hc
  exact absurd hc (by decide)

end Reader

/-! ## What is written -/

open Decimal Binary64 Float.Model Float.Model.UnpackedFloat

/-- The written form of a finite double is a numeral behind a sign. -/
theorem write_numeral {x : Float} (hx : x.isFinite = true) : ∃ text v y, Numeral text v ∧
    (∀ (n : ℕ) (j : ℤ), (n : ℚ) * (10 : ℚ) ^ j = v → nearest n j = y) ∧ y.isFinite = true ∧
    (numberLayout.write x = text ∧ x = y ∨ numberLayout.write x = '-' :: text ∧ x = -y) := by
  change (view x).isFinite = true at hx
  have hd := isDouble_view x
  generalize hu : view x = u at hd hx
  have hx' : x = ofView u := by rw [← hu, ofView_view]
  cases hd with
  | nan => contradiction
  | infinity s => contradiction
  | zero s =>
    have hnumeral : Numeral (['0'] ++ ['.', '0'] ++ []) 0 :=
      .parts (fun c => isDigit_zeros (n := 1)) (by decide)
        (fun cs hcs => (List.cons.inj hcs).2.symm)
        (.some ['0'] (fun c => isDigit_zeros (n := 1)) (by decide)) .none (.inl (by decide))
        (by simp [valueOf])
    refine ⟨_, 0, 0.0, hnumeral, fun n j hv => ?_, rfl, ?_⟩
    · have hn : n = 0 := by
        have hten : (10 : ℚ) ^ j ≠ 0 := by positivity
        exact_mod_cast (mul_eq_zero.mp hv).resolve_right hten
      rw [hn]
      rfl
    · rw [write_zero _ hu, hx']
      cases s with
      | positive => exact .inl ⟨rfl, rfl⟩
      | negative => exact .inr ⟨rfl, rfl⟩
  | @finite s m e hm he h =>
    obtain ⟨d, hinterval, hwrite⟩ := write_finite numberLayout hu
    have hnumeral := numeral_place (l := numberLayout) rfl (digits_pos hm hinterval)
    refine ⟨_, _, ofView (.finite .positive m e hm.pos), hnumeral, fun n j hv => ?_, ?_, ?_⟩
    · rw [← hv] at hinterval
      exact nearest_of_value hm he hinterval
    · change (view _).isFinite = true
      rw [view_ofView (.finite hm he _)]
      rfl
    · rw [hwrite, hx']
      cases s with
      | positive => exact .inl ⟨rfl, rfl⟩
      | negative =>
        refine .inr ⟨rfl, ?_⟩
        rw [neg_eq, view_ofView (.finite hm he _)]
        rfl

/-- The numbers that have a written form of their own. -/
def Number.Writable : Number → Prop
  | .natural n => n < wordLimit
  | .negative n => 0 < n ∧ n ≤ 2 ^ 63
  | .real x => x.isFinite = true

namespace Reader

theorem number?_printNumber {n : Number} (hn : n.Writable) {rest : List Char} (hrest : Ends rest) :
    ∃ h, number? (printNumber n ++ rest) = some (number n, ⟨rest, h⟩) := by
  cases n with
  | natural n =>
    have hlt : n < wordLimit := hn
    obtain ⟨hle, hread⟩ := unsigned?_digitsOf false n hrest
    have hvalue : numberValue false (digitsOf n) none none = number (.natural n) := by
      simp [numberValue, hlt]
    rw [hvalue] at hread
    exact ⟨hle, number?_unsigned hread (ne_minus_of_isDigit (exists_cons_digitsOf n) rest)⟩
  | negative n =>
    obtain ⟨hpos, hbound⟩ : 0 < n ∧ n ≤ 2 ^ 63 := hn
    obtain ⟨hle, hread⟩ := unsigned?_digitsOf true n hrest
    have hvalue : numberValue true (digitsOf n) none none = number (.negative n) := by
      unfold numberValue
      rw [valueOf_digitsOf, if_neg (by simp), if_pos (by simpa using ⟨hpos, hbound⟩)]
    rw [hvalue] at hread
    exact ⟨_, number?_minus hread⟩
  | real x =>
    obtain ⟨text, v, y, hnumeral, hnearest, hfinite, hcases⟩ := write_numeral hn
    rcases hcases with ⟨hwrite, rfl⟩ | ⟨hwrite, rfl⟩
    · have hprint : printNumber (.real x) = text := hwrite
      obtain ⟨n, j, hv, hread⟩ := unsigned?_numeral false hnumeral hrest
      rw [hnearest n j hv] at hread
      obtain ⟨hle, hread⟩ := hread hfinite
      rw [hprint]
      exact ⟨hle, number?_unsigned hread (ne_minus_of_isDigit hnumeral.exists_cons rest)⟩
    · have hprint : printNumber (.real (-y)) = '-' :: text := hwrite
      obtain ⟨n, j, hv, hread⟩ := unsigned?_numeral true hnumeral hrest
      rw [hnearest n j hv] at hread
      obtain ⟨hle, hread⟩ := hread hfinite
      rw [hprint]
      exact ⟨_, number?_minus hread⟩

end Reader
end Json
end SymbolicRegression
