import SymbolicRegression.Boosting.EarlyStopping
import SymbolicRegression.Numeric.Binary64
import SymbolicRegression.Proofs.Numeric.Order

/-!
What early stopping knows of the checkpoints it has been told of.

Scores may be infinite or no numbers, and such a score never improves anything and is never
the best.  Among finite scores `Better` is a strict weak order, because finite doubles compare
like rationals; this is what lets a comparison with the best score alone stand for the
comparison with all of them.
-/

namespace SymbolicRegression
namespace EarlyStopping

open Binary64

variable {bigger : Bool} {x y z : Float} {n k : ℕ} {scores : List Float}
  {checks : List (Float × ℕ)} {e : EarlyStopping Float}

/-! ## Scores -/

def Better (bigger : Bool) (x y : Float) : Prop :=
  if bigger then y < x else x < y

/-- What a finite score stands for, turned so that less is better. -/
def cost (bigger : Bool) (x : Float) : ℚ :=
  if bigger then -value (view x) else value (view x)

theorem better_iff (hx : x.isFinite = true) (hy : y.isFinite = true) :
    Better bigger x y ↔ cost bigger x < cost bigger y := by
  unfold Better cost
  cases bigger with
  | false => exact lt_iff_value hx hy
  | true =>
    show y < x ↔ -value (view x) < -value (view y)
    rw [lt_iff_value hy hx]
    exact neg_lt_neg_iff.symm

/-- A score that beats one of the best beats all that are no better than this one. -/
theorem better_of_better (hx : x.isFinite = true) (hy : y.isFinite = true) (hz : z.isFinite = true)
    (hxy : Better bigger x y) (hzy : ¬Better bigger z y) : Better bigger x z := by
  rw [better_iff hx hy] at hxy
  rw [better_iff hz hy] at hzy
  rw [better_iff hx hz]
  exact lt_of_lt_of_le hxy (not_lt.mp hzy)

theorem not_better_of_better (hx : x.isFinite = true) (hy : y.isFinite = true)
    (hxy : Better bigger x y) : ¬Better bigger y x := by
  rw [better_iff hx hy] at hxy
  rw [better_iff hy hx]
  exact hxy.not_gt

/-! ## Improvement -/

/-- A finite score that is strictly better than all finite scores before it. -/
def Improves (bigger : Bool) (earlier : List Float) (x : Float) : Prop :=
  x.isFinite = true ∧ ∀ y ∈ earlier, y.isFinite = true → Better bigger x y

def ImprovesAt (bigger : Bool) (scores : List Float) (i : ℕ) : Prop :=
  ∃ x, scores[i]? = some x ∧ Improves bigger (scores.take i) x

/-- There are `k` scores at the end, none of which improves on those before it. -/
def Stale (bigger : Bool) (scores : List Float) (k : ℕ) : Prop :=
  k ≤ scores.length ∧
    ∀ i, i < scores.length → scores.length ≤ i + k → ¬ImprovesAt bigger scores i

theorem improvesAt_concat_of_lt {i : ℕ} (hi : i < scores.length) :
    ImprovesAt bigger (scores ++ [x]) i ↔ ImprovesAt bigger scores i := by
  unfold ImprovesAt
  rw [List.getElem?_append_left hi, List.take_append_of_le_length hi.le]

theorem improvesAt_concat_length :
    ImprovesAt bigger (scores ++ [x]) scores.length ↔ Improves bigger scores x := by
  unfold ImprovesAt
  rw [List.getElem?_concat_length, List.take_left]
  refine ⟨?_, fun h => ⟨x, rfl, h⟩⟩
  rintro ⟨y, hy, h⟩
  cases hy
  exact h

theorem stale_zero : Stale bigger scores 0 := by
  refine ⟨Nat.zero_le _, fun i hi hle => ?_⟩
  omega

theorem stale_concat_succ :
    Stale bigger (scores ++ [x]) (k + 1) ↔ ¬Improves bigger scores x ∧ Stale bigger scores k := by
  have hlength : (scores ++ [x]).length = scores.length + 1 := List.length_append
  constructor
  · rintro ⟨hk, h⟩
    rw [hlength] at hk h
    refine ⟨?_, by omega, fun i hi hle => ?_⟩
    · intro himproves
      exact h scores.length (by omega) (by omega) (improvesAt_concat_length.mpr himproves)
    · intro himproves
      exact h i (by omega) (by omega) ((improvesAt_concat_of_lt hi).mpr himproves)
  · rintro ⟨hlast, hk, h⟩
    refine ⟨by omega, fun i hi hle himproves => ?_⟩
    rw [hlength] at hi hle
    rcases Nat.lt_succ_iff_lt_or_eq.mp hi with hlt | rfl
    · exact h i hlt (by omega) ((improvesAt_concat_of_lt hlt).mp himproves)
    · exact hlast (improvesAt_concat_length.mp himproves)

/-- An improvement at the end ends all waiting. -/
theorem le_zero_iff_stale (h : Improves bigger scores x) (k : ℕ) :
    k ≤ 0 ↔ Stale bigger (scores ++ [x]) k := by
  cases k with
  | zero => exact ⟨fun _ => stale_zero, fun _ => Nat.le_refl 0⟩
  | succ k =>
    rw [stale_concat_succ]
    exact ⟨fun hk => absurd hk (Nat.not_succ_le_zero k), fun hstale => absurd h hstale.1⟩

/-- Without an improvement at the end the wait is longer by one. -/
theorem le_succ_iff_stale {waited : ℕ} (h : ¬Improves bigger scores x)
    (hwaited : ∀ k, k ≤ waited ↔ Stale bigger scores k) (k : ℕ) :
    k ≤ waited + 1 ↔ Stale bigger (scores ++ [x]) k := by
  cases k with
  | zero => exact ⟨fun _ => stale_zero, fun _ => Nat.zero_le _⟩
  | succ k =>
    rw [stale_concat_succ, ← hwaited, Nat.succ_le_succ_iff]
    exact (and_iff_right h).symm

/-! ## The best checkpoint -/

/-- The first checkpoint with the best finite score. -/
def FirstBest (bigger : Bool) (c : Float × ℕ) (checks : List (Float × ℕ)) : Prop :=
  ∃ front back, checks = front ++ c :: back ∧ c.1.isFinite = true ∧
    (∀ d ∈ front, d.1.isFinite = true → Better bigger c.1 d.1) ∧
    ∀ d ∈ back, d.1.isFinite = true → ¬Better bigger d.1 c.1

/-- What is known of the checkpoints: the first of the best, or that none has a finite score. -/
def Knows (bigger : Bool) : Option (Float × ℕ) → List (Float × ℕ) → Prop
  | none, checks => ∀ c ∈ checks, c.1.isFinite = false
  | some c, checks => FirstBest bigger c checks

theorem FirstBest.mem {c : Float × ℕ} (h : FirstBest bigger c checks) : c ∈ checks := by
  obtain ⟨front, back, rfl, -⟩ := h
  exact List.mem_append_right front List.mem_cons_self

theorem FirstBest.not_better {c d : Float × ℕ} (h : FirstBest bigger c checks) (hd : d ∈ checks)
    (hfinite : d.1.isFinite = true) : ¬Better bigger d.1 c.1 := by
  obtain ⟨front, back, rfl, hc, hfront, hback⟩ := h
  rcases List.mem_append.mp hd with hd | hd
  · exact not_better_of_better hc hfinite (hfront d hd hfinite)
  · rcases List.mem_cons.mp hd with rfl | hd
    · rw [better_iff hc hc]
      exact lt_irrefl _
    · exact hback d hd hfinite

theorem knows_of_improves (h : Improves bigger (checks.map (·.1)) x) (n : ℕ) :
    Knows bigger (some (x, n)) (checks ++ [(x, n)]) :=
  ⟨checks, [], rfl, h.1, fun d hd => h.2 d.1 (List.mem_map_of_mem hd), nofun⟩

/-- A score that does not improve leaves the best checkpoint as it is. -/
theorem Knows.concat {best : Option (Float × ℕ)} (h : Knows bigger best checks)
    (hold : ¬Improves bigger (checks.map (·.1)) x) (n : ℕ) :
    Knows bigger best (checks ++ [(x, n)]) := by
  cases best with
  | none =>
    intro d hd
    rcases List.mem_append.mp hd with hd | hd
    · exact h d hd
    · obtain rfl := List.mem_singleton.mp hd
      -- With no finite score before it, a finite score would improve.
      refine Bool.eq_false_iff.mpr fun hfinite => hold ⟨hfinite, fun y hy hy' => ?_⟩
      obtain ⟨c, hc, rfl⟩ := List.mem_map.mp hy
      rw [h c hc] at hy'
      contradiction
  | some c =>
    have hfirst : FirstBest bigger c checks := h
    obtain ⟨front, back, heq, hc, hfront, hback⟩ := id hfirst
    refine ⟨front, back ++ [(x, n)], by rw [heq]; simp, hc, hfront, fun d hd hfinite => ?_⟩
    rcases List.mem_append.mp hd with hd | hd
    · exact hback d hd hfinite
    · obtain rfl := List.mem_singleton.mp hd
      intro hbetter
      refine hold ⟨hfinite, fun y hy hy' => ?_⟩
      obtain ⟨d, hd, rfl⟩ := List.mem_map.mp hy
      exact better_of_better hfinite hc hy' hbetter (hfirst.not_better hd hy')

/-- The comparison with the best score decides for all of them. -/
theorem improves_iff (h : Knows e.higherIsBetter e.best checks) (x : Float) :
    e.improves x = true ↔ Improves e.higherIsBetter (checks.map (·.1)) x := by
  unfold improves
  rw [Bool.and_eq_true]
  refine and_congr_right fun hx => ?_
  cases hbest : e.best with
  | none =>
    rw [hbest] at h
    refine ⟨fun _ y hy hfinite => ?_, fun _ => rfl⟩
    obtain ⟨c, hc, rfl⟩ := List.mem_map.mp hy
    rw [h c hc] at hfinite
    contradiction
  | some c =>
    rw [hbest] at h
    have hfirst : FirstBest e.higherIsBetter c checks := h
    have hc : c.1.isFinite = true := by
      obtain ⟨_, _, _, hc, _⟩ := hfirst
      exact hc
    have hless :
        (if e.higherIsBetter then Comparable.less c.1 x else Comparable.less x c.1) = true ↔
          Better e.higherIsBetter x c.1 := by
      unfold Better
      split
      · exact decide_eq_true_iff
      · exact decide_eq_true_iff
    show (if e.higherIsBetter then Comparable.less c.1 x else Comparable.less x c.1) = true ↔ _
    rw [hless]
    constructor
    · intro hbetter y hy hfinite
      obtain ⟨d, hd, rfl⟩ := List.mem_map.mp hy
      exact better_of_better hx hc hfinite hbetter (hfirst.not_better hd hfinite)
    · intro hall
      exact hall c.1 (List.mem_map_of_mem hfirst.mem) hc

/-! ## The state -/

/-- The state after some checkpoints. -/
structure Watches (e : EarlyStopping Float) (checks : List (Float × ℕ)) : Prop where
  waited : ∀ k, k ≤ e.waited ↔ Stale e.higherIsBetter (checks.map (·.1)) k
  best : Knows e.higherIsBetter e.best checks

theorem watches_start (patience : ℕ) (bigger : Bool) : (start patience bigger).Watches [] where
  waited := by
    intro k
    refine ⟨fun hk => ?_, fun h => h.1⟩
    obtain rfl : k = 0 := Nat.le_zero.mp hk
    exact stale_zero
  best := nofun

theorem Watches.note (h : e.Watches checks) (x : Float) (n : ℕ) :
    (e.note x n).Watches (checks ++ [(x, n)]) := by
  have hscores : (checks ++ [(x, n)]).map (·.1) = checks.map (·.1) ++ [x] := List.map_append
  unfold EarlyStopping.note
  split
  · next himproves =>
    have hnew := (improves_iff h.best x).mp himproves
    refine ⟨?_, knows_of_improves hnew n⟩
    rw [hscores]
    exact le_zero_iff_stale hnew
  · next himproves =>
    have hold := (improves_iff h.best x).not.mp himproves
    refine ⟨?_, h.best.concat hold n⟩
    rw [hscores]
    exact le_succ_iff_stale hold h.waited

theorem Watches.isExhausted_iff (h : e.Watches checks) : e.isExhausted = true ↔
    0 < e.patience ∧ Stale e.higherIsBetter (checks.map (·.1)) e.patience := by
  unfold isExhausted
  rw [Bool.and_eq_true, decide_eq_true_iff, decide_eq_true_iff, h.waited]

theorem note_patience (e : EarlyStopping Float) (x : Float) (n : ℕ) :
    (e.note x n).patience = e.patience := by
  unfold note
  split
  · rfl
  · rfl

theorem note_higherIsBetter (e : EarlyStopping Float) (x : Float) (n : ℕ) :
    (e.note x n).higherIsBetter = e.higherIsBetter := by
  unfold note
  split
  · rfl
  · rfl

end EarlyStopping
end SymbolicRegression
