import SymbolicRegression.Dataset.Sampling
import SymbolicRegression.Proofs.Numeric.Whole
import SymbolicRegression.Proofs.Random.Samples

/-!
What random selections of rows and columns hold.

A selection is never empty and stays below the size it is taken from.  The size of a share is
moved up to one at least, which is only right if the share is a number: the product that it is
rounded from is one, because neither factor is infinite and the share is not zero.
-/

namespace SymbolicRegression
namespace Dataset

open Binary64

variable {σ : Type} [RandomSource σ] {n : ℕ} {share : Float}

/-- Some numbers below `n`, at least one. -/
def Selects (n : ℕ) (l : List ℕ) : Prop := l ≠ [] ∧ ∀ i ∈ l, i < n

theorem clamp_ne_nan {x hi : Float} (hx : view x ≠ .notANumber) (hhi : view hi ≠ .notANumber) :
    view (Comparable.clamp 1.0 hi x) ≠ .notANumber := by
  unfold Comparable.clamp
  split
  · nofun
  · split
    · exact hhi
    · exact hx

theorem not_clamp_lt_one {x hi : Float} (hhi : ¬hi < 1.0) : ¬Comparable.clamp 1.0 hi x < 1.0 := by
  unfold Comparable.clamp
  split
  · exact not_lt_of_le rfl (le_refl (ne_nan_of_isFinite rfl))
  · next hlow =>
    split
    · exact hhi
    · exact fun hlt => hlow (decide_eq_true hlt)

theorem exists_shareSize (hn : 0 < n) (hpos : 0.0 < share) (hshare : share.isFinite = true) :
    ∃ k, shareSize n share = .ok k ∧ 1 ≤ k := by
  have hall : ¬Float.ofNat n < 1.0 := not_lt_of_le rfl (one_le_ofNat hn)
  refine ⟨_, if_neg hall, ?_⟩
  have hproduct := mul_ne_nan (ofNat_ne_nan hn) hshare hpos
  exact one_le_toWord (clamp_ne_nan (ceiling_ne_nan hproduct) (ofNat_ne_nan hn))
    (not_clamp_lt_one hall)

theorem selects_of_counts {k : ℕ} {l : List ℕ} (h : Draw.Counts n k l) (hk : 1 ≤ k) :
    Selects n l.mergeSort := by
  have hperm := List.mergeSort_perm l (· ≤ ·)
  refine ⟨List.ne_nil_of_length_pos ?_, fun i hi => h.2 i (hperm.mem_iff.mp hi)⟩
  rw [hperm.length_eq, h.1]
  exact hk

theorem ensures_sampleIndices (hn : 0 < n) (hpos : 0.0 < share) (hle : share ≤ 1.0) :
    Ensures (sampleIndices n share : Draw σ (List ℕ)) (Selects n) := by
  unfold sampleIndices
  split
  · refine .of_pure ⟨List.ne_nil_of_length_pos ?_, fun i => List.mem_range.mp⟩
    rw [List.length_range]
    exact hn
  · obtain ⟨k, hk, hone⟩ := exists_shareSize hn hpos (isFinite_of_lt_of_le hpos hle)
    rw [hk]
    exact (Draw.ensures_sample n k).bind fun l hl => .of_pure (selects_of_counts hl hone)

/-- A selection only fails where a sample does. -/
theorem confines_sampleIndices (hn : 0 < n) (hpos : 0.0 < share) (hle : share ≤ 1.0) :
    Confines (sampleIndices n share : Draw σ (List ℕ)) Failure.OfDraw := by
  unfold sampleIndices
  split
  · exact .of_pure
  · obtain ⟨k, hk, hone⟩ := exists_shareSize hn hpos (isFinite_of_lt_of_le hpos hle)
    rw [hk]
    have hsample : Confines (Draw.sample n k : Draw σ (List ℕ)) Failure.OfDraw :=
      Draw.confines_sample fun _ => trivial
    exact hsample.bind' fun l => .of_pure (a := l.mergeSort)

end Dataset
end SymbolicRegression
