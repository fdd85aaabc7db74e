import SymbolicRegression.Proofs.Random.Draws
import SymbolicRegression.Random.Sample

/-!
What samples hold.

A sample is as large as asked for, stays below the size of its range and takes no number twice,
whichever way it is taken.  Growing lists gain one number in a step: the one just drawn if it is
new, or else the number of the step, which is greater than all numbers before it.  Shuffled
arrays are permutations of what they were.
-/

namespace SymbolicRegression
namespace Draw

variable {σ : Type} [RandomSource σ] {n k j : ℕ} {taken : List ℕ} {Q : Failure → Prop}

/-! ## Lists that grow -/

theorem perm_insertBefore {old new : ℕ} {l : List ℕ} (h : old ∈ l) :
    (insertBefore old new l).Perm (new :: l) := by
  induction l with
  | nil => contradiction
  | cons x l ih =>
    rw [insertBefore]
    split
    · exact .refl _
    · next hne =>
      have hl : old ∈ l := (List.mem_cons.mp h).resolve_left (Ne.symm hne)
      exact ((ih hl).cons x).trans (.swap new x l)

/-- So many numbers, all of them below `n`. -/
def Counts (n k : ℕ) (l : List ℕ) : Prop := l.length = k ∧ ∀ i ∈ l, i < n

theorem Counts.cons {i : ℕ} {l : List ℕ} (h : Counts n k l) (hi : i < n) :
    Counts n (k + 1) (i :: l) :=
  ⟨congrArg (· + 1) h.1, List.forall_mem_cons.mpr ⟨hi, h.2⟩⟩

theorem Counts.of_perm {l l' : List ℕ} (h : Counts n k l) (hl : l'.Perm l) : Counts n k l' :=
  ⟨hl.length_eq.trans h.1, fun i hi => h.2 i (hl.mem_iff.mp hi)⟩

/-- So many numbers below `n`, and no number twice. -/
structure Distinct (n k : ℕ) (l : List ℕ) : Prop where
  counts : Counts n k l
  nodup : l.Nodup

theorem distinct_nil (n : ℕ) : Distinct n 0 [] :=
  ⟨⟨rfl, nofun⟩, List.nodup_nil⟩

theorem Distinct.not_mem {l : List ℕ} (h : Distinct j k l) : j ∉ l := by
  intro hj
  exact Nat.lt_irrefl j (h.counts.2 j hj)

theorem Distinct.cons {i : ℕ} {l : List ℕ} (h : Distinct n k l) (hi : i < n) (hnew : i ∉ l) :
    Distinct n (k + 1) (i :: l) :=
  ⟨h.counts.cons hi, List.nodup_cons.mpr ⟨hnew, h.nodup⟩⟩

theorem Distinct.of_perm {l l' : List ℕ} (h : Distinct n k l) (hl : l'.Perm l) :
    Distinct n k l' :=
  ⟨h.counts.of_perm hl, hl.nodup_iff.mpr h.nodup⟩

theorem Distinct.concat {i : ℕ} {l : List ℕ} (h : Distinct n k l) (hi : i < n) (hnew : i ∉ l) :
    Distinct n (k + 1) (l ++ [i]) :=
  (h.cons hi hnew).of_perm (List.perm_append_singleton i l)

theorem Distinct.widen {l : List ℕ} (h : Distinct j k l) : Distinct (j + 1) k l :=
  ⟨⟨h.counts.1, fun i hi => Nat.lt_succ_of_lt (h.counts.2 i hi)⟩, h.nodup⟩

/-- All numbers of a range, if there are as many. -/
theorem Distinct.mem {i : ℕ} {l : List ℕ} (h : Distinct n n l) (hi : i < n) : i ∈ l := by
  have hsub : l.toFinset ⊆ Finset.range n := by
    intro t ht
    exact Finset.mem_range.mpr (h.counts.2 t (List.mem_toFinset.mp ht))
  have hcard : l.toFinset.card = n := by
    rw [List.toFinset_card_of_nodup h.nodup, h.counts.1]
  have heq : l.toFinset = Finset.range n := by
    apply Finset.eq_of_subset_of_card_le hsub
    rw [Finset.card_range, hcard]
  rw [← List.mem_toFinset, heq]
  exact Finset.mem_range.mpr hi

theorem ensures_growShuffled (h : Distinct j k taken) (steps : ℕ) :
    Ensures (growShuffled j steps taken : Draw σ (List ℕ)) (Distinct (j + steps) (k + steps)) := by
  induction steps generalizing j k taken with
  | zero => exact .of_pure h
  | succ steps ih =>
    refine (ensures_shortRange (.inl rfl)).bind fun t ht => ?_
    rw [Nat.add_comm steps, ← Nat.add_assoc, ← Nat.add_assoc]
    apply ih
    split
    · next hmem =>
      have hold : t ∈ taken := List.contains_iff_mem.mp hmem
      exact (h.widen.cons (Nat.lt_succ_self j) h.not_mem).of_perm (perm_insertBefore hold)
    · next hmem =>
      have hnew : t ∉ taken := fun hold => hmem (List.contains_iff_mem.mpr hold)
      exact h.widen.concat (by omega) hnew

theorem ensures_growInTurn (h : Distinct j k taken) (steps : ℕ) :
    Ensures (growInTurn j steps taken : Draw σ (List ℕ)) (Distinct (j + steps) (k + steps)) := by
  induction steps generalizing j k taken with
  | zero => exact .of_pure h
  | succ steps ih =>
    refine (ensures_shortRange (.inl rfl)).bind fun t ht => ?_
    rw [Nat.add_comm steps, ← Nat.add_assoc, ← Nat.add_assoc]
    apply ih
    split
    · exact h.widen.concat (Nat.lt_succ_self j) h.not_mem
    · next hmem =>
      have hnew : t ∉ taken := fun hold => hmem (List.contains_iff_mem.mpr hold)
      exact h.widen.concat (by omega) hnew

theorem confines_growShuffled (j steps : ℕ) (taken : List ℕ) :
    Confines (growShuffled j steps taken : Draw σ (List ℕ)) Q := by
  induction steps generalizing j taken with
  | zero => exact .of_pure
  | succ steps ih => exact (confines_shortRange (Nat.zero_le j)).bind' fun t => ih _ _

theorem confines_growInTurn (j steps : ℕ) (taken : List ℕ) :
    Confines (growInTurn j steps taken : Draw σ (List ℕ)) Q := by
  induction steps generalizing j taken with
  | zero => exact .of_pure
  | succ steps ih => exact (confines_shortRange (Nat.zero_le j)).bind' fun t => ih _ _

/-! ## Arrays that are shuffled -/

theorem perm_swapIfInBounds (a : Array ℕ) (i j : ℕ) :
    (a.swapIfInBounds i j).toList.Perm a.toList := by
  unfold Array.swapIfInBounds
  split
  · split
    · exact (Array.swap_perm _ _).toList
    · exact .refl _
  · exact .refl _

theorem ensures_shuffleDown (i : ℕ) (a : Array ℕ) :
    Ensures (shuffleDown i a : Draw σ (Array ℕ)) fun b => b.toList.Perm a.toList := by
  induction i generalizing a with
  | zero => exact .of_pure (.refl _)
  | succ i ih =>
    exact Ensures.bind' fun j => (ih _).mono fun b hb => hb.trans (perm_swapIfInBounds a (i + 1) j)

theorem ensures_shuffleUp (last i steps : ℕ) (a : Array ℕ) :
    Ensures (shuffleUp last i steps a : Draw σ (Array ℕ)) fun b => b.toList.Perm a.toList := by
  induction steps generalizing i a with
  | zero => exact .of_pure (.refl _)
  | succ steps ih =>
    exact Ensures.bind' fun j => (ih _ _).mono fun b hb => hb.trans (perm_swapIfInBounds a i j)

theorem confines_shuffleDown (i : ℕ) (a : Array ℕ) :
    Confines (shuffleDown i a : Draw σ (Array ℕ)) Q := by
  induction i generalizing a with
  | zero => exact .of_pure
  | succ i ih => exact (confines_shortRange (Nat.zero_le _)).bind' fun j => ih _

theorem confines_shuffleUp {last i : ℕ} (steps : ℕ) (a : Array ℕ) (h : i + steps ≤ last + 1) :
    Confines (shuffleUp last i steps a : Draw σ (Array ℕ)) Q := by
  induction steps generalizing i a with
  | zero => exact .of_pure
  | succ steps ih =>
    exact (confines_shortRange (by omega)).bind' fun j => ih _ (by omega)

/-! ## Numbers drawn until they are new -/

theorem firstFree_le (taken : List ℕ) : firstFree taken ≤ taken.length := by
  unfold firstFree
  cases h : (List.range (taken.length + 1)).find? fun t => !taken.contains t with
  | none => exact Nat.zero_le _
  | some t => exact Nat.lt_succ_iff.mp (List.mem_range.mp (List.mem_of_find?_eq_some h))

/-- There are more candidates than numbers that are taken. -/
theorem firstFree_not_mem (taken : List ℕ) : firstFree taken ∉ taken := by
  unfold firstFree
  cases h : (List.range (taken.length + 1)).find? fun t => !taken.contains t with
  | some t =>
    have hfree := List.find?_some h
    rw [Bool.not_eq_true'] at hfree
    intro ht
    exact Bool.eq_false_iff.mp hfree (List.contains_iff_mem.mpr ht)
  | none =>
    have hsub : Finset.range (taken.length + 1) ⊆ taken.toFinset := by
      intro t ht
      have hnot := List.find?_eq_none.mp h t (List.mem_range.mpr (Finset.mem_range.mp ht))
      rw [Bool.not_eq_true, Bool.not_eq_false'] at hnot
      exact List.mem_toFinset.mpr (List.contains_iff_mem.mp hnot)
    have hcard := (Finset.card_le_card hsub).trans taken.toFinset_card_le
    rw [Finset.card_range] at hcard
    omega

theorem ensures_fresh (h : taken.length < n) (fuel : ℕ) :
    Ensures (fresh n taken fuel : Draw σ ℕ) fun t => t < n ∧ t ∉ taken := by
  induction fuel with
  | zero =>
    exact .of_pure ⟨Nat.lt_of_le_of_lt (firstFree_le taken) h, firstFree_not_mem taken⟩
  | succ fuel ih =>
    refine (ensures_index (by omega)).bind fun t ht => ?_
    split
    · exact ih
    · next hmem =>
      exact .of_pure ⟨ht, fun hold => hmem (List.contains_iff_mem.mpr hold)⟩

theorem ensures_freshInTurn (h : Distinct n k taken) (steps : ℕ) (hn : k + steps ≤ n) :
    Ensures (freshInTurn n steps taken : Draw σ (List ℕ)) (Distinct n (k + steps)) := by
  induction steps generalizing k taken with
  | zero => exact .of_pure (h.of_perm (List.reverse_perm _))
  | succ steps ih =>
    have hlt : taken.length < n := by
      rw [h.counts.1]
      omega
    refine (ensures_fresh hlt attempts).bind fun t ht => ?_
    rw [Nat.add_comm steps, ← Nat.add_assoc]
    exact ih (h.cons ht.1 ht.2) (by omega)

theorem confines_fresh (n : ℕ) (taken : List ℕ) (fuel : ℕ) :
    Confines (fresh n taken fuel : Draw σ ℕ) Q := by
  induction fuel with
  | zero => exact .of_pure
  | succ fuel ih =>
    refine confines_index.bind' fun t => ?_
    split
    · exact ih
    · exact .of_pure

theorem confines_freshInTurn (n steps : ℕ) (taken : List ℕ) :
    Confines (freshInTurn n steps taken : Draw σ (List ℕ)) Q := by
  induction steps generalizing taken with
  | zero => exact .of_pure
  | succ steps ih => exact (confines_fresh n taken attempts).bind' fun t => ih _

/-! ## Samples -/

theorem sample_of_lt (h : n < k) : (sample n k : Draw σ (List ℕ)) = throw (.tooFew n k) := by
  unfold sample
  cases SampleWay.cheapest n k with
  | shuffled => exact if_pos h
  | grown => exact if_pos h
  | redrawn => exact if_pos h

theorem ensures_sample_distinct (n k : ℕ) :
    Ensures (sample n k : Draw σ (List ℕ)) (Distinct n k) := by
  by_cases hlt : n < k
  · rw [sample_of_lt hlt]
    exact .of_throw
  · have hgrown : ∀ l, Distinct (n - k + k) (0 + k) l → Distinct n k l := by
      intro l hl
      rwa [Nat.sub_add_cancel (Nat.le_of_not_lt hlt), Nat.zero_add] at hl
    simp only [sample, hlt, if_false]
    cases SampleWay.cheapest n k with
    | shuffled =>
      refine (ensures_shuffleUp _ _ _ _).bind fun a ha => .of_pure ?_
      have hrange : a.toList.Perm (List.range n) := by
        rw [Array.toList_range] at ha
        exact ha
      refine ⟨⟨?_, fun i hi => ?_⟩, ?_⟩
      · rw [List.length_take, hrange.length_eq, List.length_range]
        omega
      · exact List.mem_range.mp (hrange.mem_iff.mp (List.mem_of_mem_take hi))
      · exact (hrange.nodup_iff.mpr List.nodup_range).sublist (List.take_sublist k _)
    | grown =>
      dsimp only
      split
      · exact (ensures_growShuffled (distinct_nil _) k).mono hgrown
      · refine (ensures_growInTurn (distinct_nil _) k).bind fun l hl => ?_
        exact (ensures_shuffleDown _ _).bind fun a ha => .of_pure ((hgrown l hl).of_perm ha)
    | redrawn =>
      exact (ensures_freshInTurn (distinct_nil n) k (by omega)).mono fun l hl =>
        Nat.zero_add k ▸ hl

theorem ensures_sample (n k : ℕ) : Ensures (sample n k : Draw σ (List ℕ)) (Counts n k) :=
  (ensures_sample_distinct n k).mono fun _ hl => hl.counts

/-- A sample fails only where more numbers are asked for than there are. -/
theorem confines_sample (h : n < k → Q (.misuse (.tooFew n k))) :
    Confines (sample n k : Draw σ (List ℕ)) Q := by
  by_cases hlt : n < k
  · rw [sample_of_lt hlt]
    exact .of_throw (h hlt)
  · simp only [sample, hlt, if_false]
    cases SampleWay.cheapest n k with
    | shuffled => exact (confines_shuffleUp k _ (by omega)).bind' fun a => .of_pure
    | grown =>
      dsimp only
      split
      · exact confines_growShuffled _ _ _
      · exact (confines_growInTurn _ _ _).bind' fun l =>
          (confines_shuffleDown _ _).bind' fun a => .of_pure
    | redrawn => exact confines_freshInTurn _ _ _

end Draw
end SymbolicRegression
