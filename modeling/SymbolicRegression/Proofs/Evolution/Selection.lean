import Mathlib.Data.Fintype.Card
import SymbolicRegression.Evolution.Selection
import SymbolicRegression.Proofs.Evolution.Ranking
import SymbolicRegression.Proofs.Random.Samples
import SymbolicRegression.Random.Scripted

/-!
How a tournament selects.

The contestants are as many different members of the pool as a sample has numbers, and the winner
is no worse than any of them.  So a tournament outdoes all but one of its contestants, whichever
they are, and a tournament of the whole pool selects one of the best.  Individuals are compared by
a total preorder, and nothing is asked of their fitness: it may be missing, infinite or no number.
-/

namespace SymbolicRegression
namespace Tournament

variable {σ : Type} [RandomSource σ] {Q : Failure → Prop} {pool : List Individual} {size : ℕ}

/-! ## The winner -/

/-- The better of two entries, and the first of them if they are alike. -/
def better (e f : ℕ × Individual) : ℕ × Individual :=
  if e.2.compare f.2 == .gt then f else e

theorem foldl_better_mem (es : List (ℕ × Individual)) (e : ℕ × Individual) :
    es.foldl better e ∈ e :: es := by
  refine List.foldlRecOn (motive := (· ∈ e :: es)) es better List.mem_cons_self ?_
  intro known hknown f hf
  unfold better
  split
  · exact List.mem_cons_of_mem e hf
  · exact hknown

/-- Without the numbers of the entries it is the scan for the best individual. -/
theorem best?_entries (es : List (ℕ × Individual)) (e : ℕ × Individual) :
    Individual.best? ((e :: es).map (·.2)) = some (es.foldl better e).2 := by
  rw [List.map_cons, Individual.best?, List.foldl_map]
  apply congrArg some
  apply List.foldl_hom
  intro known f
  unfold better
  split
  · rfl
  · rfl

theorem exists_winner {es : List (ℕ × Individual)} (h : es ≠ []) :
    ∃ e ∈ es, winner es = some e.1 ∧ ∀ f ∈ es, (e.2.compare f.2).isLE := by
  cases es with
  | nil => exact absurd rfl h
  | cons e es =>
    have hleads := Individual.leads_best? ((e :: es).map (·.2))
    rw [best?_entries] at hleads
    refine ⟨es.foldl better e, foldl_better_mem es e, rfl, ?_⟩
    intro f hf
    exact Individual.FirstBest.isLE hleads f.2 (List.mem_map_of_mem hf)

/-! ## Contestants -/

/-- The members of the pool at the given positions, with these. -/
def entries (pool : List Individual) (picks : List ℕ) : Except Misuse (List (ℕ × Individual)) :=
  picks.mapM fun i => do return (i, ← memberAt pool i)

theorem exists_entries {picks : List ℕ} (h : ∀ i ∈ picks, i < pool.length) :
    ∃ es, entries pool picks = .ok es ∧ es.map (·.1) = picks ∧
      ∀ e ∈ es, pool[e.1]? = some e.2 := by
  induction picks with
  | nil => exact ⟨[], rfl, rfl, nofun⟩
  | cons i picks ih =>
    obtain ⟨es, hes, hpicks, hall⟩ := ih fun j hj => h j (List.mem_cons_of_mem i hj)
    have hlt : i < pool.length := h i List.mem_cons_self
    have hi : pool[i]? = some pool[i] := List.getElem?_eq_getElem hlt
    have hentry : (do return (i, ← memberAt pool i) : Except Misuse _) = .ok (i, pool[i]) := by
      rw [memberAt_eq_ok.mpr hi]
      rfl
    refine ⟨(i, pool[i]) :: es, ?_, ?_, ?_⟩
    · rw [entries, List.mapM_cons, hentry]
      show (entries pool picks >>= fun es => pure ((i, pool[i]) :: es)) = _
      rw [hes]
      rfl
    · rw [List.map_cons, hpicks]
    · exact List.forall_mem_cons.mpr ⟨hi, hall⟩

/-! ## Selection -/

/-- One of the contestants is no worse than any of them. -/
def Wins (pool : List Individual) (picks : List ℕ) (i : ℕ) : Prop :=
  i ∈ picks ∧ ∃ chosen, pool[i]? = some chosen ∧
    ∀ j ∈ picks, ∀ other, pool[j]? = some other → (chosen.compare other).isLE

theorem exists_wins {picks : List ℕ} {es : List (ℕ × Individual)} (hne : es ≠ [])
    (hpicks : es.map (·.1) = picks) (hall : ∀ e ∈ es, pool[e.1]? = some e.2) :
    ∃ i, winner es = some i ∧ Wins pool picks i := by
  subst hpicks
  obtain ⟨e, he, hwinner, hle⟩ := exists_winner hne
  refine ⟨e.1, hwinner, List.mem_map_of_mem he, e.2, hall e he, ?_⟩
  intro j hj other hother
  obtain ⟨f, hf, rfl⟩ := List.mem_map.mp hj
  obtain rfl : f.2 = other := Option.some.inj ((hall f hf).symm.trans hother)
  exact hle f hf

/-- A tournament without contestants is won by the first member. -/
theorem ensures_select_wins (size : ℕ) (pool : List Individual) :
    Ensures (select size pool : Draw σ ℕ) fun i => ∃ picks,
      Draw.Distinct pool.length (min size pool.length) picks ∧
      (picks = [] ∧ i = 0 ∨ Wins pool picks i) := by
  refine (Draw.ensures_sample_distinct _ _).bind fun picks hpicks => ?_
  obtain ⟨es, hes, hpositions, hall⟩ := exists_entries hpicks.counts.2
  have hentries : Ensures (entries pool picks) (· = es) := fun _ h =>
    Except.ok.inj (h.symm.trans hes)
  refine (Ensures.of_except hentries).bind fun found hfound => .of_pure ⟨picks, hpicks, ?_⟩
  rw [hfound]
  by_cases hne : es = []
  · subst hne
    exact .inl ⟨hpositions.symm, rfl⟩
  · obtain ⟨i, hwinner, hwins⟩ := exists_wins hne hpositions hall
    rw [hwinner]
    exact .inr hwins

theorem Wins.lt {picks : List ℕ} {i : ℕ} (h : Wins pool picks i) : i < pool.length := by
  obtain ⟨-, chosen, hchosen, -⟩ := h
  exact (List.getElem?_eq_some_iff.mp hchosen).1

theorem ensures_select (size : ℕ) (hpool : pool ≠ []) :
    Ensures (select size pool : Draw σ ℕ) (· < pool.length) := by
  refine (ensures_select_wins size pool).mono ?_
  rintro i ⟨picks, -, ⟨-, rfl⟩ | hwins⟩
  · exact List.length_pos_of_ne_nil hpool
  · exact hwins.lt

theorem confines_select (size : ℕ) (pool : List Individual) :
    Confines (select size pool : Draw σ ℕ) Q := by
  have henough : ¬pool.length < min size pool.length := by omega
  refine (Draw.confines_sample fun h => absurd h henough).bind (Draw.ensures_sample _ _)
    fun picks hpicks => ?_
  obtain ⟨es, hes, -⟩ := exists_entries hpicks.2
  have hentries : Confines (entries pool picks) Q := .of_ok hes
  exact (Confines.of_lift hentries).bind' fun _ => .of_pure

theorem Wins.isLE {picks : List ℕ} {i : Fin pool.length} (h : Wins pool picks i) {j : ℕ}
    {other : Individual} (hj : j ∈ picks) (hother : pool[j]? = some other) :
    ((pool.get i).compare other).isLE := by
  obtain ⟨-, chosen, hchosen, hle⟩ := h
  rw [List.getElem?_eq_getElem i.isLt] at hchosen
  rw [List.get_eq_getElem, Option.some.inj hchosen]
  exact hle j hj other hother

/-- The members of a pool that the one at a position is no worse than, itself left out. -/
def outdone (pool : List Individual) (i : Fin pool.length) : Finset (Fin pool.length) :=
  Finset.univ.filter fun j => j ≠ i ∧ (pool.get i).compare (pool.get j) ≠ .gt

/-- All contestants but the winner are outdone. -/
theorem Wins.card_le {picks : List ℕ} {k : ℕ} {i : Fin pool.length} (h : Wins pool picks i)
    (hpicks : Draw.Distinct pool.length k picks) : k - 1 ≤ (outdone pool i).card := by
  have hsub : picks.toFinset.erase i.val ⊆ (outdone pool i).map Fin.valEmbedding := by
    intro j hj
    rw [Finset.mem_erase, List.mem_toFinset] at hj
    have hlt := hpicks.counts.2 j hj.2
    refine Finset.mem_map.mpr ⟨⟨j, hlt⟩, ?_, rfl⟩
    refine Finset.mem_filter.mpr ⟨Finset.mem_univ _, ?_, ?_⟩
    · intro heq
      exact hj.1 (congrArg Fin.val heq)
    · exact Ordering.isLE_iff_ne_gt.mp (h.isLE hj.2 (List.getElem?_eq_getElem hlt))
  have hcard := Finset.card_le_card hsub
  rw [Finset.card_erase_of_mem (List.mem_toFinset.mpr h.1), Finset.card_map,
    List.toFinset_card_of_nodup hpicks.nodup, hpicks.counts.1] at hcard
  exact hcard

/-- On every stream a tournament selects a member of the pool that is no worse than at least as
many others as it has contestants beside the winner.  With as many contestants as members this
is one of the best. -/
theorem select_outdoes (hsize : 1 ≤ size) (hpool : pool ≠ []) (s : σ) :
    ∃ (i : Fin pool.length) (s' : σ), (select size pool).run s = .ok (i.val, s') ∧
      min size pool.length - 1 ≤ (outdone pool i).card ∧
      (pool.length ≤ size → ∀ other ∈ pool, (pool.get i).compare other ≠ .gt) := by
  obtain ⟨⟨i, s'⟩, hrun⟩ := Draw.total_iff.mpr (confines_select (σ := σ) size pool) s
  obtain ⟨picks, hpicks, ⟨hnone, -⟩ | hwins⟩ := ensures_select_wins size pool i ⟨s, s', hrun⟩
  · -- There is a contestant, because the pool has a member.
    have hlength := hpicks.counts.1
    have hpos := List.length_pos_of_ne_nil hpool
    rw [hnone, List.length_nil] at hlength
    omega
  · refine ⟨⟨i, hwins.lt⟩, s', hrun, hwins.card_le hpicks, ?_⟩
    intro hall other hother
    obtain ⟨j, hj⟩ := List.getElem?_of_mem hother
    have hlt : j < pool.length := (List.getElem?_eq_some_iff.mp hj).1
    rw [Nat.min_eq_right hall] at hpicks
    exact Ordering.isLE_iff_ne_gt.mp (Wins.isLE (i := ⟨i, hwins.lt⟩) hwins (hpicks.mem hlt) hj)

/-- No number, nothing, infinity, and two equal numbers of which the second belongs to the
smaller program. -/
def mixedPool : List Individual :=
  let x : Program := .feature 0
  [⟨x, some Binary64.nan, none, 0⟩, ⟨x, none, none, 0⟩, ⟨x, some Binary64.infinity, none, 0⟩,
    ⟨.call .neg [x], some 1.0, none, 0⟩, ⟨x, some 1.0, none, 0⟩]

theorem select_outdoes_mixedPool : mixedPool ≠ [] ∧
    (∃ (i : Fin mixedPool.length) (s' : Scripted.Stream),
      (select 3 mixedPool).run ⟨[], 1⟩ = .ok (i.val, s') ∧ 2 ≤ (outdone mixedPool i).card) ∧
    ∃ s' : Scripted.Stream, (select 9 mixedPool).run ⟨[], 1⟩ = .ok (4, s') := by
  have hpool : mixedPool ≠ [] := List.cons_ne_nil _ _
  have hleast : ∀ i : Fin mixedPool.length,
      (∀ other ∈ mixedPool, (mixedPool.get i).compare other ≠ .gt) → i.val = 4 := by
    decide +kernel
  obtain ⟨i, s', hrun, hcard, -⟩ :=
    select_outdoes (by decide : 1 ≤ 3) hpool (⟨[], 1⟩ : Scripted.Stream)
  obtain ⟨j, t, hrun', -, hall⟩ :=
    select_outdoes (by decide : 1 ≤ 9) hpool (⟨[], 1⟩ : Scripted.Stream)
  rw [hleast j (hall (by decide))] at hrun'
  exact ⟨hpool, ⟨i, s', hrun, hcard⟩, t, hrun'⟩

end Tournament
end SymbolicRegression
