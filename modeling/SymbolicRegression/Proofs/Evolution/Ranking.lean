import SymbolicRegression.Evolution.Island
import SymbolicRegression.Evolution.Record
import SymbolicRegression.Proofs.Numeric.Ordinal

/-!
The first of the best individuals.

Individuals are compared by a total preorder, so that a list of them may have several best
ones.  Every scan of the library settles on the first: those that take over the later one of
two at `gt`, and those that take it over if it is strictly better.  `Leads` says what they
find, and `Leads.merge` how what was known is brought together with what was found.
-/

namespace SymbolicRegression

namespace Individual

/-- Fitness decides first, by the place of the double on the line, and then the size. -/
instance : Std.TransCmp compare :=
  inferInstanceAs (Std.TransCmp (compareLex (compareOn fun i : Individual =>
    Binary64.position i.fitnessOrWorst) (compareOn fun i : Individual => i.program.size)))

theorem isBetterThan_iff {a b : Individual} : a.isBetterThan b = true ↔ a.compare b = .lt := by
  rw [isBetterThan, beq_iff_eq]

theorem compare_self (a : Individual) : a.compare a = .eq :=
  Std.ReflCmp.compare_self

theorem isLE_of_not_lt {a b : Individual} (h : b.compare a ≠ .lt) : (a.compare b).isLE := by
  have hswap : a.compare b = (b.compare a).swap := Std.OrientedCmp.eq_swap
  rw [hswap]
  cases hc : b.compare a with
  | lt => exact absurd hc h
  | eq => rfl
  | gt => rfl

/-- A better individual has no greater fitness. -/
theorem rank_isLE {a b : Individual} (h : (a.compare b).isLE) :
    (Binary64.rank a.fitnessOrWorst b.fitnessOrWorst).isLE := by
  unfold compare at h
  cases hr : Binary64.rank a.fitnessOrWorst b.fitnessOrWorst with
  | lt => rfl
  | eq => rfl
  | gt =>
    rw [hr] at h
    contradiction

/-! ## The first of the best -/

/-- The individual stands in the list, is strictly better than all before it, and none behind
it is better. -/
def FirstBest (b : Individual) (l : List Individual) : Prop :=
  ∃ front back, l = front ++ b :: back ∧ (∀ i ∈ front, b.compare i = .lt) ∧
    ∀ i ∈ back, (b.compare i).isLE

variable {a b known : Individual} {l k : List Individual}

theorem FirstBest.mem (h : FirstBest b l) : b ∈ l := by
  obtain ⟨front, back, rfl, -, -⟩ := h
  exact List.mem_append_right front List.mem_cons_self

theorem FirstBest.isLE (h : FirstBest b l) : ∀ i ∈ l, (b.compare i).isLE := by
  obtain ⟨front, back, rfl, hfront, hback⟩ := h
  intro i hi
  rcases List.mem_append.mp hi with hi | hi
  · rw [hfront i hi]
    rfl
  · rcases List.mem_cons.mp hi with rfl | hi
    · rw [compare_self]
      rfl
    · exact hback i hi

theorem FirstBest.append (h : FirstBest b l) (hk : ∀ i ∈ k, (b.compare i).isLE) :
    FirstBest b (l ++ k) := by
  obtain ⟨front, back, rfl, hfront, hback⟩ := h
  refine ⟨front, back ++ k, by simp, hfront, fun i hi => ?_⟩
  rcases List.mem_append.mp hi with hi | hi
  · exact hback i hi
  · exact hk i hi

theorem FirstBest.prepend (h : FirstBest b k) (hl : ∀ i ∈ l, b.compare i = .lt) :
    FirstBest b (l ++ k) := by
  obtain ⟨front, back, rfl, hfront, hback⟩ := h
  refine ⟨l ++ front, back, by simp, fun i hi => ?_, hback⟩
  rcases List.mem_append.mp hi with hi | hi
  · exact hl i hi
  · exact hfront i hi

/-- A part at the front that does not have the first of the best can be cut off. -/
theorem FirstBest.of_append (h : FirstBest b (l ++ k)) (hl : b ∉ l) : FirstBest b k := by
  obtain ⟨front, back, heq, hfront, hback⟩ := h
  -- The cut is in front of the best one, or it would be among what is cut off.
  obtain ⟨mid, rfl, hmid⟩ | ⟨mid, rfl, hmid⟩ := List.append_eq_append_iff.mp heq
  · exact ⟨mid, back, hmid, fun i hi => hfront i (List.mem_append_right l hi), hback⟩
  · cases mid with
    | nil => exact ⟨[], back, hmid.symm, nofun, hback⟩
    | cons c mid =>
      rw [List.cons_append, List.cons.injEq] at hmid
      exact absurd (List.mem_append_right front (by rw [hmid.1]; exact List.mem_cons_self)) hl

/-! ## Scans -/

/-- What is known of a list: the first of the best, or that it is empty. -/
def Leads : Option Individual → List Individual → Prop
  | none, l => l = []
  | some b, l => FirstBest b l

/-- The better of what is known and what is found, which is taken over if it is strictly
better. -/
def merge (known found : Option Individual) : Option Individual :=
  match found with
  | some candidate => some (improve known candidate)
  | none => known

variable {best found : Option Individual}

theorem Leads.exists_of_ne_nil (h : Leads best l) (hl : l ≠ []) :
    ∃ b, best = some b ∧ FirstBest b l := by
  cases best with
  | none => exact absurd h hl
  | some b => exact ⟨b, rfl, h⟩

/-- The leader of a whole `l ++ k` brings what is known of a list that has all of `l` up to
date.  Whether it stands in `l` or in `k` does not matter: if it was there before, it is not
strictly better than what is known. -/
theorem Leads.merge_of_append {m : List Individual} (h : Leads best m)
    (hfound : Leads found (l ++ k)) (hl : ∀ i ∈ l, i ∈ m) : Leads (merge best found) (m ++ k) := by
  cases found with
  | none =>
    obtain ⟨rfl, rfl⟩ := List.append_eq_nil_iff.mp hfound
    rw [List.append_nil]
    exact h
  | some b =>
    cases best with
    | none =>
      obtain rfl : m = [] := h
      obtain rfl : l = [] := List.eq_nil_iff_forall_not_mem.mpr fun i hi => nomatch hl i hi
      exact hfound
    | some a =>
      have hfirst : FirstBest a m := h
      by_cases hlt : b.compare a = .lt
      · -- What beats all of `m` was not there before, so it is the first of its kind in `k`.
        have hnew : ∀ i ∈ m, b.compare i = .lt := fun i hi =>
          Std.TransCmp.lt_of_lt_of_isLE hlt (hfirst.isLE i hi)
        have hnot : b ∉ l := by
          intro hb
          have hself := hnew b (hl b hb)
          rw [compare_self] at hself
          contradiction
        show FirstBest (if b.isBetterThan a then b else a) (m ++ k)
        rw [if_pos (isBetterThan_iff.mpr hlt)]
        exact (FirstBest.of_append hfound hnot).prepend hnew
      · have hle : (a.compare b).isLE := isLE_of_not_lt hlt
        show FirstBest (if b.isBetterThan a then b else a) (m ++ k)
        rw [if_neg (isBetterThan_iff.not.mpr hlt)]
        refine hfirst.append fun i hi => Std.TransCmp.isLE_trans hle ?_
        exact FirstBest.isLE hfound i (List.mem_append_right l hi)

theorem Leads.merge (h : Leads best l) (hfound : Leads found k) :
    Leads (Individual.merge best found) (l ++ k) :=
  h.merge_of_append (l := []) hfound nofun

theorem leads_singleton (i : Individual) : Leads (some i) [i] :=
  ⟨[], [], rfl, nofun, nofun⟩

theorem leads_foldl_improve (h : Leads best l) :
    Leads (k.foldl (fun known i => some (improve known i)) best) (l ++ k) := by
  induction k generalizing best l with
  | nil =>
    rw [List.append_nil]
    exact h
  | cons i k ih =>
    have hassoc : l ++ i :: k = l ++ [i] ++ k := by simp
    rw [hassoc]
    exact ih (h.merge (leads_singleton i))

theorem leads_leader? (l : List Individual) : Leads (GenerationRecord.leader? l) l := by
  have hnone : Leads none [] := rfl
  exact leads_foldl_improve hnone

/-- The scan that gives way at `gt` is the same. -/
theorem best?_eq_leader? (l : List Individual) : best? l = GenerationRecord.leader? l := by
  have hscan (k : List Individual) : ∀ b : Individual,
      some (k.foldl (fun best j => if best.compare j == .gt then j else best) b) =
        k.foldl (fun known i => some (improve known i)) (some b) := by
    induction k with
    | nil => exact fun b => rfl
    | cons j k ih =>
      intro b
      rw [List.foldl_cons, List.foldl_cons, ih]
      have hgt : (b.compare j == .gt) = j.isBetterThan b := by
        rw [Bool.eq_iff_iff, beq_iff_eq, isBetterThan_iff]
        exact Std.OrientedCmp.gt_iff_lt
      rw [hgt]
      rfl
  cases l with
  | nil => rfl
  | cons i l => exact hscan l i

theorem leads_best? (l : List Individual) : Leads (best? l) l := by
  rw [best?_eq_leader?]
  exact leads_leader? l

end Individual
end SymbolicRegression
