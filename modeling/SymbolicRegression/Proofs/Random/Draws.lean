import SymbolicRegression.Proofs.Failures
import SymbolicRegression.Proofs.Decimal.Nearest
import SymbolicRegression.Decimal.Numeral
import SymbolicRegression.Random.Normal

/-!
What uniform draws return, and when they fail.

Whatever words the source yields, a number drawn from a range lies in the range, a member
drawn from a list is one of its members, and a real drawn from an interval is not below its
lower end and not above its upper end.  A draw fails only where it is misused: on an empty range
or list, with a probability that is none, and on an interval that is empty or too wide.
-/

namespace SymbolicRegression
namespace Draw

open Decimal

variable {σ : Type} {bits size bound lo hi : ℕ} {word : Draw σ ℕ} {Q : Failure → Prop}

/-- The draw ends in a value on every stream. -/
def Total {α : Type} (d : Draw σ α) : Prop := ∀ s, ∃ r, d.run s = .ok r

section

variable {α β : Type} {d : Draw σ α} {s s' : σ}

theorem total_iff : Total d ↔ Confines d Failure.Never := by
  constructor
  · rintro h e ⟨s, e', he, -⟩
    obtain ⟨r, hr⟩ := h s
    cases hr.symm.trans he
  · exact fun h s => (h.of_run s).exists_ok

theorem not_total_of_run (s : σ) (h : (d.run s).toOption.isSome = false) : ¬Total d := by
  intro htotal
  obtain ⟨r, hr⟩ := htotal s
  rw [hr] at h
  exact Bool.noConfusion h

theorem run_bind_eq_ok {next : α → Draw σ β} {c : β} : (d >>= next).run s = .ok (c, s') ↔
    ∃ a t, d.run s = .ok (a, t) ∧ (next a).run t = .ok (c, s') := by
  rw [StateT.run_bind, Except.bind_eq_ok, Prod.exists]

theorem run_lift_eq_ok {x : Except Misuse α} {a : α} :
    (liftM x : Draw σ α).run s = .ok (a, s') ↔ x = .ok a ∧ s' = s := by
  cases x with
  | error e => exact ⟨nofun, nofun⟩
  | ok b =>
    constructor
    · intro h
      cases h
      exact ⟨rfl, rfl⟩
    · intro ⟨h, hs⟩
      cases h
      rw [hs]
      rfl

end

/-! ## Numbers -/

/-- A word times the size, cut off at the length of a word, is below the size. -/
theorem product_div_lt {w : ℕ} (hw : w < 2 ^ bits) (hsize : 0 < size) :
    w * size / Nat.pow 2 bits < size := by
  rw [Nat.pow_eq]
  exact Nat.div_lt_of_lt_mul (Nat.mul_lt_mul_of_pos_right hw hsize)

theorem ensures_member (hword : Ensures word (· < 2 ^ bits)) (hsize : 0 < size) (fuel : ℕ) :
    Ensures (member bits word size bound fuel) (· < size) := by
  induction fuel with
  | zero => exact hword.bind fun w hw => .of_pure (product_div_lt hw hsize)
  | succ fuel ih =>
    refine hword.bind fun w hw => ?_
    simp only
    split
    · exact .of_pure (product_div_lt hw hsize)
    · exact ih

/-- If the range is as long as all words it starts at zero, because its end is a word too. -/
theorem ensures_between (hword : Ensures word (· < 2 ^ bits)) (hhi : lo = 0 ∨ hi < 2 ^ bits) :
    Ensures (between bits word lo hi) fun n => lo ≤ n ∧ n ≤ hi := by
  unfold between
  split
  · exact .of_throw
  · next hle =>
    simp only [Nat.pow_eq]
    split
    · next hall => exact hword.mono fun w hw => ⟨by omega, by omega⟩
    · exact (ensures_member hword (Nat.succ_pos _) attempts).bind fun n hn =>
        .of_pure ⟨by omega, by omega⟩

theorem confines_member (hword : Confines word Q) (fuel : ℕ) :
    Confines (member bits word size bound fuel) Q := by
  induction fuel with
  | zero => exact hword.bind' fun _ => .of_pure
  | succ fuel ih =>
    refine hword.bind' fun w => ?_
    dsimp only
    split
    · exact .of_pure
    · exact ih

theorem confines_between (hword : Confines word Q) (h : lo ≤ hi) :
    Confines (between bits word lo hi) Q := by
  unfold between
  rw [if_neg (Nat.not_lt.mpr h)]
  dsimp only
  split
  · exact hword
  · exact (confines_member hword attempts).bind' fun _ => .of_pure

variable [RandomSource σ]

theorem ensures_natWord32 : Ensures (natWord32 : Draw σ ℕ) (· < 2 ^ 32) :=
  Ensures.bind' fun w => .of_pure w.toNat_lt

theorem ensures_natWord64 : Ensures (natWord64 : Draw σ ℕ) (· < 2 ^ 64) :=
  Ensures.bind' fun w => .of_pure w.toNat_lt

theorem ensures_range (hhi : hi < 2 ^ 64) :
    Ensures (range lo hi : Draw σ ℕ) fun n => lo ≤ n ∧ n ≤ hi :=
  ensures_between ensures_natWord64 (.inr hhi)

theorem ensures_below (n : ℕ) : Ensures (below n : Draw σ ℕ) (· < n) := by
  unfold below
  split
  · exact .of_throw
  · exact (ensures_between ensures_natWord64 (.inl rfl)).mono fun k hk => by omega

theorem ensures_shortRange (hhi : lo = 0 ∨ hi < 2 ^ 32) :
    Ensures (shortRange lo hi : Draw σ ℕ) fun n => lo ≤ n ∧ n ≤ hi :=
  ensures_between ensures_natWord32 hhi

theorem ensures_index (hsize : 0 < size) : Ensures (index size : Draw σ ℕ) (· < size) := by
  unfold index
  split
  · exact ensures_member ensures_natWord32 hsize attempts
  · exact ensures_member ensures_natWord64 hsize attempts

theorem confines_word32 : Confines (word32 : Draw σ UInt32) Q := by
  rintro e ⟨s, e', h, -⟩
  cases h

theorem confines_word64 : Confines (word64 : Draw σ UInt64) Q := by
  rintro e ⟨s, e', h, -⟩
  cases h

theorem confines_natWord32 : Confines (natWord32 : Draw σ ℕ) Q :=
  confines_word32.bind' fun _ => .of_pure

theorem confines_natWord64 : Confines (natWord64 : Draw σ ℕ) Q :=
  confines_word64.bind' fun _ => .of_pure

theorem confines_range (h : lo ≤ hi) : Confines (range lo hi : Draw σ ℕ) Q :=
  confines_between confines_natWord64 h

theorem confines_below {n : ℕ} (hn : 0 < n) : Confines (below n : Draw σ ℕ) Q := by
  unfold below
  rw [if_neg hn.ne']
  exact confines_range (Nat.zero_le _)

theorem confines_shortRange (h : lo ≤ hi) : Confines (shortRange lo hi : Draw σ ℕ) Q :=
  confines_between confines_natWord32 h

theorem confines_index : Confines (index size : Draw σ ℕ) Q := by
  unfold index
  split
  · exact confines_member confines_natWord32 attempts
  · exact confines_member confines_natWord64 attempts

theorem confines_seed : Confines (seed : Draw σ (List UInt8)) Q :=
  .of_times (confines_word32.bind' fun _ => .of_pure) 32

theorem confines_seedWord : Confines (seedWord : Draw σ ℕ) Q :=
  confines_range (by decide)

/-! ## Lists -/

theorem ensures_choose {α : Type} (l : List α) : Ensures (choose l : Draw σ α) (· ∈ l) :=
  Ensures.bind' fun _ => .of_except fun _ ha => mem_of_memberAt ha

theorem ensures_times {m : Type → Type} [Monad m] [Ending m] {α : Type} {d : m α} {P : α → Prop}
    (h : Ensures d P) (n : ℕ) : Ensures (times n d) fun l => l.length = n ∧ ∀ a ∈ l, P a := by
  induction n with
  | zero => exact .of_pure ⟨rfl, nofun⟩
  | succ n ih =>
    exact h.bind fun a ha => ih.bind fun l hl =>
      .of_pure ⟨congrArg (· + 1) hl.1, List.forall_mem_cons.mpr ⟨ha, hl.2⟩⟩

theorem confines_choose {α : Type} {l : List α} (h : l ≠ []) : Confines (choose l : Draw σ α) Q :=
  (confines_below (List.length_pos_iff.mpr h)).bind (ensures_below _) fun _ hi =>
    .of_lift (confines_memberAt hi)

theorem exists_run_choose {α : Type} {l : List α} (h : l ≠ []) (s : σ) :
    ∃ a ∈ l, ∃ s', (choose l).run s = .ok (a, s') := by
  obtain ⟨⟨a, s'⟩, hrun⟩ := total_iff.mpr (confines_choose (σ := σ) h) s
  exact ⟨a, ensures_choose l a ⟨s, s', hrun⟩, s', hrun⟩

/-! ## Truth values -/

open Binary64

/-- A number from zero to one is a probability; certainty is one of them. -/
theorem confines_bool {p : Float} (hlow : 0.0 ≤ p) (hhigh : p ≤ 1.0) :
    Confines (bool p : Draw σ Bool) Q := by
  unfold bool
  split
  · exact .of_pure
  · next hone =>
    have hlt : p < 1.0 := (beq_or_lt_of_le hhigh).resolve_left hone
    have hinside : (decide (0.0 ≤ p) && decide (p < 1.0)) = true := by
      rw [decide_eq_true hlow, decide_eq_true hlt]
      rfl
    simp only [hinside, if_true]
    exact confines_word64.bind' fun _ => .of_pure

/-! ## Reals -/

theorem ensures_coarseUnit : Ensures (coarseUnit : Draw σ Float) fun x => Unsigned (view x) :=
  Ensures.bind' fun w => .of_pure (unsigned_mul (unsigned_ofNat (w >>> 12).toNat) rfl)

/-- The step from the lower end is not negative, so that rounding does not lead below it. -/
theorem ensures_realFrom {lo hi : Float} (hlt : lo < hi) (hfin : (hi - lo).isFinite) (fuel : ℕ) :
    Ensures (realFrom lo hi fuel : Draw σ Float) fun x => lo ≤ x ∧ x ≤ hi := by
  have hlo := (isFinite_of_sub hfin).2
  induction fuel with
  | zero => exact .of_pure ⟨le_refl (ne_nan_of_lt hlt), le_of_lt hlt⟩
  | succ fuel ih =>
    refine ensures_coarseUnit.bind fun x hx => ?_
    simp only
    split
    · next hr =>
      have hstep := unsigned_mul hx (unsigned_sub hlt hfin)
      exact .of_pure ⟨le_add_of_unsigned hstep hlo (ne_nan_of_lt hr), le_of_lt hr⟩
    · exact ih

theorem ensures_real (lo hi : Float) :
    Ensures (real lo hi : Draw σ Float) fun x => lo ≤ x ∧ x ≤ hi := by
  unfold real
  split
  · next h =>
    rw [Bool.and_eq_true, decide_eq_true_eq] at h
    exact ensures_realFrom h.1 h.2 attempts
  · exact .of_throw

theorem confines_unit : Confines (unit : Draw σ Float) Q :=
  confines_word64.bind' fun _ => .of_pure

theorem confines_coarseUnit : Confines (coarseUnit : Draw σ Float) Q :=
  confines_word64.bind' fun _ => .of_pure

theorem confines_realFrom (lo hi : Float) (fuel : ℕ) :
    Confines (realFrom lo hi fuel : Draw σ Float) Q := by
  induction fuel with
  | zero => exact .of_pure
  | succ fuel ih =>
    refine confines_coarseUnit.bind' fun x => ?_
    dsimp only
    split
    · exact .of_pure
    · exact ih

theorem confines_real {lo hi : Float} (hlt : lo < hi) (hfin : (hi - lo).isFinite) :
    Confines (real lo hi : Draw σ Float) Q := by
  unfold real
  rw [if_pos (by rw [decide_eq_true hlt, hfin]; rfl)]
  exact confines_realFrom lo hi attempts

/-- An interval that no real is drawn from is reported as it is. -/
theorem confines_real_badInterval (lo hi : Float) :
    Confines (real lo hi : Draw σ Float) (· = .misuse (.badInterval lo hi)) := by
  unfold real
  split
  · exact confines_realFrom lo hi attempts
  · exact .of_throw rfl

/-! ## Normal draws -/

theorem confines_openUnit : Confines (openUnit : Draw σ Float) Q :=
  confines_coarseUnit.bind' fun _ => .of_pure

theorem confines_tailFrom (xx yy : Float) (fuel : ℕ) :
    Confines (tailFrom xx yy fuel : Draw σ Float) Q := by
  induction fuel generalizing xx yy with
  | zero => exact .of_pure
  | succ fuel ih =>
    unfold tailFrom
    split
    · exact confines_openUnit.bind' fun a => confines_openUnit.bind' fun c => ih _ _
    · exact .of_pure

theorem confines_normalFrom (fuel : ℕ) : Confines (normalFrom fuel : Draw σ Float) Q := by
  induction fuel with
  | zero => exact .of_pure
  | succ fuel ih =>
    refine confines_word64.bind' fun bits => ?_
    dsimp only
    split
    · exact .of_pure
    · split
      · exact (confines_tailFrom _ _ _).bind' fun _ => .of_pure
      · refine confines_unit.bind' fun y => ?_
        split
        · exact .of_pure
        · exact ih

theorem confines_normal : Confines (normal : Draw σ Float) Q := confines_normalFrom attempts

end Draw
end SymbolicRegression
