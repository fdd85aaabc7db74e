import SymbolicRegression.Proofs.Boosting.LineSearch
import SymbolicRegression.Proofs.Numeric.Monotone

/-!
What a golden-section search keeps, and what it does not depend on.

A step compares the scores of both probes and asks for one of them only; the other one has come
along with its probe from the bracket before.  As long as every score is that of the probe beside
it, which no step changes (`Scored.step`), a search that asks for both scores in every step goes
through the same brackets (`Scored.frame_shrink`).  The arithmetic has no part in this: numbers
are handed on, and the same ones are computed from the same ones.

Nor does it matter in which order the bounds come.  If they are in order, they are exchanged before
anything is computed.  If they are in order neither way, one of them is no number, and neither is
the result.  If they are in order both ways without being equal, they are zeros of different sign,
and the search ends in the one that the direction of rounding prefers.  The last two cases need
rules about such values; the rules hold however an arithmetic rounds (`SpecialValues`).
-/

namespace SymbolicRegression
namespace GoldenSection

open Binary64

/-! ## A search that keeps no scores -/

/-- A bracket and its probes, and nothing about the function. -/
structure Frame (α : Type) where
  a : α
  b : α
  c : α
  d : α

/-- How high a value counts: one that is not finite counts as infinite. -/
def height (v : Float) : Float := if v.isFinite then v else infinity

section

variable {α : Type} [Scalar α]

namespace Frame

/-- The first bracket between two ends. -/
def between (a b : α) : Frame α := ⟨a, b, lowProbe a b, highProbe a b⟩

/-- A step that asks for both scores. -/
def step (f : α → Float) (k : Frame α) : Frame α :=
  if height (f k.c) < height (f k.d) then ⟨k.a, k.d, lowProbe k.a k.d, k.c⟩
  else ⟨k.c, k.b, k.d, highProbe k.c k.b⟩

def shrink (f : α → Float) (tolerance : α) : ℕ → Frame α → Frame α
  | 0, k => k
  | n + 1, k =>
    if Comparable.less (Scalar.abs (k.b - k.a)) tolerance then k
    else shrink f tolerance n (k.step f)

def middle (k : Frame α) : α := (k.a + k.b) / Scalar.ofNat 2

/-- The first bracket of a search, whose bounds may come in any order. -/
def first (lower upper : α) : Frame α :=
  if Comparable.atMost lower upper then between lower upper else between upper lower

end Frame

/-- The search that asks for both scores in every step. -/
def minimumAskingBoth (f : α → Float) (lower upper tolerance : α) : α :=
  ((Frame.first lower upper).shrink f tolerance stepLimit).middle

/-- A comparison of scores is one of heights. -/
theorem isBetter_score (v w : Float) :
    isBetter (score v) (score w) = decide (height v < height w) := by
  have hfinite (x : Float) : Comparable.isFinite x = x.isFinite := rfl
  have hlast (x : Float) : decide (infinity < x) = false := decide_eq_false (not_infinity_lt x)
  unfold score height
  rw [hfinite, hfinite]
  cases hv : v.isFinite with
  | true =>
    cases hw : w.isFinite with
    | true => rfl
    | false =>
      have hlt : v < infinity := by
        rw [lt_iff, view_infinity]
        exact compare_infinity hv
      exact (decide_eq_true hlt).symm
  | false =>
    cases hw : w.isFinite with
    | true => exact (hlast w).symm
    | false => exact (hlast infinity).symm

section

variable {f : α → Float} {k : Bracket α Float}

/-- What is left of a bracket without its scores. -/
def frame (k : Bracket α Float) : Frame α := ⟨k.a, k.b, k.c, k.d⟩

theorem frame_start (f : α → Float) (lower upper : α) :
    frame (start (m := Id) f lower upper) = Frame.first lower upper := by
  unfold start Frame.first
  cases Comparable.atMost lower upper <;> rfl

theorem scored_start (f : α → Float) (lower upper : α) :
    Scored f (start (m := Id) f lower upper) :=
  ⟨rfl, rfl⟩

theorem Scored.frame_step (h : Scored f k) :
    frame (GoldenSection.step (m := Id) f k) = (frame k).step f := by
  have hscores : isBetter k.atC k.atD = decide (height (f k.c) < height (f k.d)) := by
    rw [h.low, h.high, isBetter_score]
  unfold Frame.step
  cases hbetter : isBetter k.atC k.atD with
  | true =>
    rw [step_left hbetter]
    exact (if_pos (of_decide_eq_true (hscores.symm.trans hbetter))).symm
  | false =>
    rw [step_right hbetter]
    exact (if_neg (of_decide_eq_false (hscores.symm.trans hbetter))).symm

theorem Scored.frame_shrink (h : Scored f k) (tolerance : α) (n : ℕ) :
    frame (shrink (m := Id) f tolerance n k) = (frame k).shrink f tolerance n := by
  induction n generalizing k with
  | zero => rfl
  | succ n ih =>
    unfold shrink Frame.shrink
    cases hnarrow : isNarrow tolerance k with
    | true => exact (if_pos hnarrow).symm
    | false =>
      refine (ih h.step).trans ?_
      rw [h.frame_step]
      exact (if_neg (Bool.eq_false_iff.mp hnarrow)).symm

theorem minimum_eq_askingBoth (f : α → Float) (lower upper tolerance : α) :
    Id.run (minimum f lower upper tolerance) = minimumAskingBoth f lower upper tolerance := by
  have hframe := (scored_start f lower upper).frame_shrink tolerance stepLimit
  rw [frame_start] at hframe
  unfold minimumAskingBoth
  rw [← hframe]
  rfl

end

/-! ## Evaluations -/

section

variable {β : Type} [Comparable β] {f : α → β} {lower upper : α} {k : Bracket α β}

/-- A function whose evaluations are counted. -/
def counted (f : α → β) (x : α) : StateM ℕ β := do
  modify (· + 1)
  return f x

theorem run_start_counted (j : ℕ) :
    (start (counted f) lower upper).run j = (start (m := Id) f lower upper, j + 2) :=
  rfl

theorem run_step_counted (j : ℕ) :
    (step (counted f) k).run j = (step (m := Id) f k, j + 1) := by
  unfold step
  split <;> rfl

/-- Every step costs one evaluation. -/
theorem exists_run_shrink_counted (tolerance : α) (n j : ℕ) (k : Bracket α β) :
    ∃ taken ≤ n, (shrink (counted f) tolerance n k).run j =
      (shrink (m := Id) f tolerance n k, j + taken) := by
  induction n generalizing j k with
  | zero => exact ⟨0, le_rfl, rfl⟩
  | succ n ih =>
    unfold shrink
    cases isNarrow tolerance k with
    | true => exact ⟨0, Nat.zero_le _, rfl⟩
    | false =>
      obtain ⟨taken, htaken, hrun⟩ := ih (j + 1) (step (m := Id) f k)
      refine ⟨taken + 1, by omega, ?_⟩
      show (step (counted f) k >>= shrink (counted f) tolerance n).run j = _
      rw [StateT.run_bind, run_step_counted]
      refine hrun.trans ?_
      rw [Nat.add_assoc, Nat.add_comm 1]
      rfl

theorem exists_run_minimum_counted (f : α → β) (lower upper tolerance : α) :
    ∃ n ≤ 202, (minimum (counted f) lower upper tolerance).run 0 =
      (Id.run (minimum f lower upper tolerance), n) := by
  obtain ⟨taken, htaken, hrun⟩ :=
    exists_run_shrink_counted tolerance stepLimit 2 (start (m := Id) f lower upper)
  refine ⟨2 + taken, by unfold stepLimit at htaken; omega, ?_⟩
  unfold minimum
  rw [StateT.run_bind, run_start_counted]
  show StateT.run (shrink (counted f) tolerance stepLimit _ >>= _) 2 = _
  rw [StateT.run_bind, hrun]
  rfl

end

/-! ## Bounds in any order -/

/-- Two zeros of different sign.  Which of them is left when numbers cancel depends on the direction
of rounding; it is `z` here. -/
structure SignedZeros (z w : α) : Prop where
  sum : z + w = z ∧ w + z = z
  double : z + z = z
  cancel : z - z = z ∧ w - w = z
  apart : z - w = z ∧ w - z = w
  share : z * kept = z ∧ w * kept = w

/-- What an arithmetic with signed zeros does with them and with what is no number, however it
rounds. -/
structure SpecialValues (α : Type) [Scalar α] : Prop where
  ordered {a b : α} (ha : Comparable.isNaN a = false) (hb : Comparable.isNaN b = false) :
    Comparable.atMost a b = true ∨ Comparable.atMost b a = true
  tied {a b : α} (h : Comparable.atMost a b = true) (h' : Comparable.atMost b a = true) :
    a = b ∨ SignedZeros a b ∨ SignedZeros b a
  alike {a b : α} (ha : Comparable.isNaN a = true) (hb : Comparable.isNaN b = true) : a = b
  add {a b : α} (h : Comparable.isNaN a = true ∨ Comparable.isNaN b = true) :
    Comparable.isNaN (a + b) = true
  sub {a b : α} (h : Comparable.isNaN a = true ∨ Comparable.isNaN b = true) :
    Comparable.isNaN (a - b) = true
  mul {a b : α} (h : Comparable.isNaN a = true ∨ Comparable.isNaN b = true) :
    Comparable.isNaN (a * b) = true
  div {a b : α} (h : Comparable.isNaN a = true ∨ Comparable.isNaN b = true) :
    Comparable.isNaN (a / b) = true

section

variable {f : α → Float} {k : Frame α} {lower upper tolerance a b z w : α}

/-- What every step keeps is kept to the end. -/
theorem Frame.shrink_keeps {P : Frame α → Prop} (hstep : ∀ k, P k → P (k.step f)) (n : ℕ)
    (h : P k) : P (k.shrink f tolerance n) := by
  induction n generalizing k with
  | zero => exact h
  | succ n ih =>
    unfold shrink
    split
    · exact h
    · exact ih (hstep k h)

theorem Frame.first_comm (h : Comparable.atMost lower upper ≠ Comparable.atMost upper lower) :
    first upper lower = first lower upper := by
  unfold first
  rw [Bool.eq_not.mpr h.symm]
  cases Comparable.atMost lower upper <;> rfl

/-- Bounds in the wrong order are exchanged. -/
theorem minimumAskingBoth_comm_of_ordered
    (h : Comparable.atMost lower upper ≠ Comparable.atMost upper lower) :
    minimumAskingBoth f upper lower tolerance = minimumAskingBoth f lower upper tolerance := by
  unfold minimumAskingBoth
  rw [Frame.first_comm h]

/-! ### Bounds that are no numbers -/

/-- An end of the bracket is no number, and neither are the probes. -/
structure Frame.Lost (k : Frame α) : Prop where
  ends : Comparable.isNaN k.a = true ∨ Comparable.isNaN k.b = true
  low : Comparable.isNaN k.c = true
  high : Comparable.isNaN k.d = true

namespace SpecialValues

variable (h : SpecialValues α)

include h

theorem isNaN_probes (hab : Comparable.isNaN a = true ∨ Comparable.isNaN b = true) :
    Comparable.isNaN (lowProbe a b) = true ∧ Comparable.isNaN (highProbe a b) = true := by
  have hshare : Comparable.isNaN ((b - a) * kept) = true := h.mul (.inl (h.sub hab.symm))
  exact ⟨h.sub (.inr hshare), h.add (.inr hshare)⟩

theorem lost_between (hab : Comparable.isNaN a = true ∨ Comparable.isNaN b = true) :
    (Frame.between a b).Lost :=
  ⟨hab, (h.isNaN_probes hab).1, (h.isNaN_probes hab).2⟩

theorem lost_step (hk : k.Lost) : (k.step f).Lost := by
  unfold Frame.step
  split
  · exact ⟨.inr hk.high, (h.isNaN_probes (.inr hk.high)).1, hk.low⟩
  · exact ⟨.inl hk.low, hk.high, (h.isNaN_probes (.inl hk.low)).2⟩

theorem isNaN_minimum (hab : Comparable.isNaN lower = true ∨ Comparable.isNaN upper = true) :
    Comparable.isNaN (minimumAskingBoth f lower upper tolerance) = true := by
  have hfirst : (Frame.first lower upper).Lost := by
    unfold Frame.first
    split
    · exact h.lost_between hab
    · exact h.lost_between hab.symm
  have hlast : ((Frame.first lower upper).shrink f tolerance stepLimit).Lost :=
    Frame.shrink_keeps (P := Frame.Lost) (fun _ => h.lost_step) stepLimit hfirst
  exact h.div (.inl (h.add hlast.ends))

end SpecialValues

/-! ### Bounds that are zeros -/

/-- The ends of a bracket between zeros: one of them at least is the zero `z`. -/
inductive Ends (z w : α) : α → α → Prop where
  | both : Ends z w z z
  | low : Ends z w z w
  | high : Ends z w w z

namespace Ends

omit [Scalar α]

variable (h : Ends z w a b)

include h

theorem symm : Ends z w b a := by
  cases h with
  | both => exact .both
  | low => exact .high
  | high => exact .low

/-- The zero `z` may come in the place of either end. -/
theorem upTo : Ends z w a z := by
  cases h with
  | both => exact .both
  | low => exact .both
  | high => exact .high

theorem onFrom : Ends z w z b := by
  cases h with
  | both => exact .both
  | low => exact .low
  | high => exact .both

end Ends

namespace SignedZeros

variable (h : SignedZeros z w)

include h

theorem probes (hab : Ends z w a b) : lowProbe a b = z ∧ highProbe a b = z := by
  unfold lowProbe highProbe
  cases hab with
  | both =>
    rw [h.cancel.1, h.share.1]
    exact ⟨h.cancel.1, h.double⟩
  | low =>
    rw [h.apart.2, h.share.2]
    exact ⟨h.cancel.2, h.sum.1⟩
  | high =>
    rw [h.apart.1, h.share.1]
    exact ⟨h.cancel.1, h.sum.2⟩

theorem sum_ends (hab : Ends z w a b) : a + b = z := by
  cases hab with
  | both => exact h.double
  | low => exact h.sum.1
  | high => exact h.sum.2

end SignedZeros

/-- A bracket between zeros with both probes at one of them. -/
structure Frame.Flat (z w : α) (k : Frame α) : Prop where
  ends : Ends z w k.a k.b
  low : k.c = z
  high : k.d = z

namespace SignedZeros

variable (h : SignedZeros z w)

include h

theorem flat_between (hab : Ends z w a b) : (Frame.between a b).Flat z w :=
  ⟨hab, (h.probes hab).1, (h.probes hab).2⟩

theorem flat_step (hk : k.Flat z w) : (k.step f).Flat z w := by
  unfold Frame.step
  rw [hk.low, hk.high]
  split
  · exact ⟨hk.ends.upTo, (h.probes hk.ends.upTo).1, rfl⟩
  · exact ⟨hk.ends.onFrom, rfl, (h.probes hk.ends.onFrom).2⟩

theorem minimum_eq (hends : Ends z w lower upper) :
    minimumAskingBoth f lower upper tolerance = z / Scalar.ofNat 2 := by
  have hfirst : (Frame.first lower upper).Flat z w := by
    unfold Frame.first
    split
    · exact h.flat_between hends
    · exact h.flat_between hends.symm
  have hlast : ((Frame.first lower upper).shrink f tolerance stepLimit).Flat z w :=
    Frame.shrink_keeps (P := Frame.Flat z w) (fun _ => h.flat_step) stepLimit hfirst
  unfold minimumAskingBoth Frame.middle
  rw [h.sum_ends hlast.ends]

end SignedZeros

/-- Any bounds may come in any order. -/
theorem SpecialValues.minimumAskingBoth_comm (h : SpecialValues α) :
    minimumAskingBoth f upper lower tolerance = minimumAskingBoth f lower upper tolerance := by
  by_cases hnan : Comparable.isNaN lower = true ∨ Comparable.isNaN upper = true
  · exact h.alike (h.isNaN_minimum hnan.symm) (h.isNaN_minimum hnan)
  · obtain ⟨hlower, hupper⟩ := not_or.mp hnan
    by_cases hone : Comparable.atMost lower upper = Comparable.atMost upper lower
    · have hboth : Comparable.atMost lower upper = true ∧ Comparable.atMost upper lower = true := by
        rcases h.ordered (Bool.eq_false_iff.mpr hlower) (Bool.eq_false_iff.mpr hupper) with
          hle | hle
        · exact ⟨hle, hone ▸ hle⟩
        · exact ⟨hone ▸ hle, hle⟩
      rcases h.tied hboth.1 hboth.2 with rfl | hzeros | hzeros
      · rfl
      · rw [hzeros.minimum_eq .high, hzeros.minimum_eq .low]
      · rw [hzeros.minimum_eq .low, hzeros.minimum_eq .high]
    · exact minimumAskingBoth_comm_of_ordered hone

end

end

/-! ### Doubles -/

theorem signedZeros_double : SignedZeros (0.0 : Float) (-0.0) where
  sum := ⟨rfl, rfl⟩
  double := rfl
  cancel := ⟨rfl, rfl⟩
  apart := ⟨rfl, rfl⟩
  share := ⟨rfl, rfl⟩

theorem specialValues_double : SpecialValues Float where
  ordered {x y} hx hy := by
    have hx := ne_nan_of_isNaN hx
    have hy := ne_nan_of_isNaN hy
    rw [atMost_iff_ordinal hx hy, atMost_iff_ordinal hy hx]
    exact le_total _ _
  tied {x y} h h' := by
    have hx := ne_nan_of_atMost h
    have hy := ne_nan_of_atMost h'
    rw [atMost_iff_ordinal hx hy] at h
    rw [atMost_iff_ordinal hy hx] at h'
    rcases eq_or_zeros_of_ordinal hx hy (le_antisymm h h') with heq | ⟨rfl, rfl⟩ | ⟨rfl, rfl⟩
    · exact .inl heq
    · exact .inr (.inr signedZeros_double)
    · exact .inr (.inl signedZeros_double)
  alike := eq_of_isNaN
  add := isNaN_add
  sub := isNaN_sub
  mul := isNaN_mul
  div := isNaN_div

/-! ## Results -/

/-- A search returns what a search without scores returns, and it asks for a score 202 times at
most, in any arithmetic.  The order of the bounds does not matter where just one of them is at most
the other; it never does where zeros and what is no number are treated as in doubles. -/
theorem kept_scores_are_exact :
    (∀ {α : Type} [Scalar α] (f : α → Float) (lower upper tolerance : α),
      Id.run (minimum f lower upper tolerance) = minimumAskingBoth f lower upper tolerance ∧
      (∃ n ≤ 202, (minimum (counted f) lower upper tolerance).run 0 =
        (minimumAskingBoth f lower upper tolerance, n)) ∧
      (Comparable.atMost lower upper ≠ Comparable.atMost upper lower ∨ SpecialValues α →
        Id.run (minimum f upper lower tolerance) = Id.run (minimum f lower upper tolerance))) ∧
    (∀ (f : Float → Float) (lower upper tolerance : Float),
      Id.run (minimum f upper lower tolerance) = Id.run (minimum f lower upper tolerance)) := by
  refine ⟨fun f lower upper tolerance => ⟨minimum_eq_askingBoth f lower upper tolerance, ?_, ?_⟩,
    fun f lower upper tolerance => ?_⟩
  · rw [← minimum_eq_askingBoth]
    exact exists_run_minimum_counted f lower upper tolerance
  · intro h
    rw [minimum_eq_askingBoth, minimum_eq_askingBoth]
    rcases h with hordered | hspecial
    · exact minimumAskingBoth_comm_of_ordered hordered
    · exact hspecial.minimumAskingBoth_comm
  · rw [minimum_eq_askingBoth, minimum_eq_askingBoth]
    exact specialValues_double.minimumAskingBoth_comm

/-- A parabola around four. -/
def aroundFour (x : Float) : Float := (x - 4.0) * (x - 4.0)

/-- A function that tells the zeros apart. -/
def signHeight (x : Float) : Float := if 1.0 / x < 0.0 then 1.0 else 2.0

theorem kept_scores_are_exact_swapped :
    Comparable.atMost (3.0 : Float) 5.0 ≠ Comparable.atMost 5.0 3.0 ∧
    Id.run (minimum aroundFour 5.0 3.0 1e-9) = Id.run (minimum aroundFour 3.0 5.0 1e-9) ∧
    SpecialValues Float ∧
    Id.run (minimum signHeight (-0.0) 0.0 0.0) = Id.run (minimum signHeight 0.0 (-0.0) 0.0) := by
  have hforth : Comparable.atMost (3.0 : Float) 5.0 = true := rfl
  have hback : Comparable.atMost (5.0 : Float) 3.0 = false := rfl
  have hordered : Comparable.atMost (3.0 : Float) 5.0 ≠ Comparable.atMost 5.0 3.0 := by
    rw [hforth, hback]
    nofun
  exact ⟨hordered, (kept_scores_are_exact.1 aroundFour 3.0 5.0 1e-9).2.2 (.inl hordered),
    specialValues_double,
    (kept_scores_are_exact.1 signHeight 0.0 (-0.0) 0.0).2.2 (.inr specialValues_double)⟩

end GoldenSection
end SymbolicRegression
