import SymbolicRegression.Proofs.Evolution.BestSoFar

/-!
What a fit returns and what it has recorded.

A fit is a run of a model that notes a record for every generation.  The record of a
generation knows the leader of that generation alone, while the model keeps the best of all;
the two meet in the minimum of the recorded fitnesses.
-/

namespace SymbolicRegression

open Individual (Leads FirstBest)
open IslandModel (Run onIsland)

namespace Estimator

variable {e : Estimator} {f : Fitness} {b : Breeder} {val : Option Dataset} {count size : ℕ}
  {past : List (List (List Individual))}

/-- The best fitness among some individuals. -/
def leadingFitness (is : List Individual) : Float :=
  ((GenerationRecord.leader? is).map (·.fitnessOrWorst)).getD Binary64.infinity

/-! ## Records -/

/-- A fit that has noted every generation of its past. -/
structure Follows (r : Evolving) (count size : ℕ) (past : List (List (List Individual))) :
    Prop where
  model : r.model.Tracks count size past
  history : r.generations.map (·.bestFitness) = past.map fun g => leadingFitness g.flatten

theorem ensures_recordGeneration (m : IslandModel ChaCha.Stream) :
    Ensures (e.recordGeneration val m) fun g =>
      g.bestFitness = leadingFitness m.populations.flatten := by
  refine Ensures.bind' fun validation => Ensures.bind' fun _ => .of_pure ?_
  rw [← IslandModel.individuals_eq]
  rfl

theorem ensures_note {generations : List GenerationRecord} {bests : List Float}
    {m : IslandModel ChaCha.Stream} (hmodel : m.Tracks count size (past ++ [m.populations]))
    (hhistory : generations.map (·.bestFitness) = past.map fun g => leadingFitness g.flatten) :
    Ensures (e.note val generations bests m) (Follows · count size (past ++ [m.populations])) := by
  refine (ensures_recordGeneration m).bind fun g hg => .of_pure ⟨hmodel, ?_⟩
  show (generations ++ [g]).map (·.bestFitness) = _
  rw [List.map_append, List.map_append, hhistory, List.map_singleton, List.map_singleton, hg]

/-! ## The run -/

theorem ensures_start {m : IslandModel ChaCha.Stream} (h : m.Fresh count size) :
    Ensures (e.start f val m) fun r =>
      0 < count ∧ 0 < size ∧ ∃ past, Follows r count size past := by
  refine ensures_start_of fun m' hstart => ?_
  obtain ⟨htracks, hcheck⟩ := h.start hstart
  obtain ⟨hcount, hsize⟩ := htracks.pos_of_checkBest hcheck.symm
  have hempty : ([] : List GenerationRecord).map (·.bestFitness) =
      ([] : List (List (List Individual))).map fun g => leadingFitness g.flatten := rfl
  exact (ensures_note htracks hempty).mono fun r hr => ⟨hcount, hsize, _, hr⟩

theorem Follows.step {r : Evolving} (h : Follows r count size past) (hsize : 0 < size) :
    Ensures (e.step f b val r) fun r => ∃ past, Follows r count size past := by
  refine ensures_step_of fun m hstep => ?_
  obtain ⟨htracks, -⟩ := h.model.step hsize hstep
  exact (ensures_note htracks h.history).mono fun r hr => ⟨_, hr⟩

theorem ensures_run (hsize : 0 < size) (left : ℕ) {r : Evolving}
    (h : ∃ past, Follows r count size past) :
    Ensures (e.run f b val left r) fun out => ∃ past, Follows out.1 count size past := by
  refine (ensures_run_of (P := fun _ r => ∃ past, Follows r count size past) ?_ left h).mono
    fun out hout => hout.2.elim fun _ hleft => hleft.1
  intro _ r hr _
  obtain ⟨past, hpast⟩ := hr
  exact hpast.step hsize

/-- The best of all leads its own generation, and no generation has a better leader. -/
theorem Follows.minimum {r : Evolving} {best : Individual} (h : Follows r count size past)
    (hcount : 0 < count) (hsize : 0 < size) (hbest : r.model.best = some best) :
    best.fitnessOrWorst ∈ r.generations.map (·.bestFitness) ∧
      ∀ x ∈ r.generations.map (·.bestFitness), (Binary64.rank best.fitnessOrWorst x).isLE := by
  obtain ⟨b, hb, hfirst⟩ := h.model.exists_best hcount hsize
  obtain rfl : b = best := Option.some.inj (hb.symm.trans hbest)
  have hlead : ∀ g ∈ past, ∃ c, FirstBest c g.flatten ∧
      leadingFitness g.flatten = c.fitnessOrWorst := by
    intro g hg
    obtain ⟨c, hc, hfirst⟩ := (Individual.leads_leader? g.flatten).exists_of_ne_nil
      (h.model.generation_ne_nil hcount hsize hg)
    refine ⟨c, hfirst, ?_⟩
    unfold leadingFitness
    rw [hc]
    rfl
  have hle : ∀ g ∈ past, (Binary64.rank b.fitnessOrWorst (leadingFitness g.flatten)).isLE := by
    intro g hg
    obtain ⟨c, hc, heq⟩ := hlead g hg
    rw [heq]
    have hmem : c ∈ past.flatten.flatten := by
      rw [List.flatten_flatten]
      exact List.mem_flatten_of_mem (List.mem_map_of_mem hg) hc.mem
    exact Individual.rank_isLE (hfirst.isLE c hmem)
  rw [h.history]
  refine ⟨?_, fun x hx => ?_⟩
  · have hmem := hfirst.mem
    rw [List.flatten_flatten] at hmem
    obtain ⟨l, hl, hbl⟩ := List.mem_flatten.mp hmem
    obtain ⟨g, hg, rfl⟩ := List.mem_map.mp hl
    obtain ⟨c, hc, heq⟩ := hlead g hg
    have hcb := Individual.rank_isLE (hc.isLE b hbl)
    have hbc := hle g hg
    rw [heq] at hbc
    have heq' : b.fitnessOrWorst = c.fitnessOrWorst :=
      Binary64.rank_eq_iff.mp (Std.OrientedCmp.isLE_antisymm hbc hcb)
    rw [heq', ← heq]
    exact List.mem_map_of_mem hg
  · obtain ⟨g, hg, rfl⟩ := List.mem_map.mp hx
    exact hle g hg

/-- The constants of the best program are not moved in the end. -/
def Unpolished (e : Estimator) : Prop :=
  e.settings.polishBest = false ∨ e.settings.polishGenerations = 0

theorem ensures_finish (hplain : e.Unpolished) (best : Individual) (s : ChaCha.Stream) :
    Ensures (e.finish f best s) (· = best) := by
  unfold finish
  rcases hplain with hoff | hzero
  · rw [if_neg (by rw [hoff]; exact Bool.false_ne_true)]
    exact .of_pure rfl
  · unfold Polishing.polish
    rw [hzero]
    split
    · split
      · exact (Ensures.of_pure rfl : Ensures (pure (best, s) : Logged _) fun r => r.1 = best).bind
          fun r hr => .of_pure hr
      · exact (Ensures.of_pure rfl : Ensures (pure (best, s) : Logged _) fun r => r.1 = best).bind
          fun r hr => .of_pure hr
    · exact .of_pure rfl

theorem ensures_evolve (hplain : e.Unpolished) (entropy : ℕ) (train : Dataset) :
    Ensures (e.evolve entropy train val) fun out =>
      out.best.fitnessOrWorst ∈ out.record.history ∧
        ∀ x ∈ out.record.history, (Binary64.rank out.best.fitnessOrWorst x).isLE := by
  unfold evolve
  split
  · intro out hout
    obtain ⟨u, hu, -⟩ := Logged.result_bind_eq_ok.mp hout
    cases hu
  · refine (Ensures.of_misuse (IslandModel.ensures_create_fresh.of_run _)).bind fun m hm => ?_
    refine (ensures_start hm).bind fun r hr => ?_
    obtain ⟨hcount, hsize, hfollows⟩ := hr
    refine (ensures_run hsize _ hfollows).bind fun out hout => ?_
    obtain ⟨past, hpast⟩ := hout
    have hconverge : out.1.model.converge.best = out.1.model.best := rfl
    dsimp only
    rw [hconverge]
    cases hbest : out.1.model.best with
    | none =>
      intro evolved hevolved
      cases hevolved
    | some best =>
      refine (ensures_finish hplain best _).bind fun polished hpolished => ?_
      refine Ensures.bind' fun _ => .of_pure ?_
      rw [hpolished]
      exact hpast.minimum hcount hsize hbest

/-- Whatever the fitness, the breeder and the source of random words are: in a run of islands
that are not empty every call succeeds, every island knows the first of the best individuals
it has had, and the model the first of all in the order of generations, islands and slots, so
that no step makes it worse.  A fit that does not polish returns a program whose fitness is
the least on record. -/
theorem best_so_far_is_exact :
    (∀ {τ : Type} [SeededSource τ] {g : Generator} {count size : ℕ}
      {past : List (List (List Individual))} {m : IslandModel τ} {outcome : Except Error Unit},
      0 < count → 0 < size → Run g count size past m outcome →
        outcome = .ok () ∧ m.islands.length = count ∧ past.length = m.generation + 1 ∧
        (∀ (k : ℕ) (i : Island τ), m.islands[k]? = some i →
          ∃ b, i.best = some b ∧ FirstBest b (onIsland k past)) ∧
        ∃ b, m.best = some b ∧ FirstBest b past.flatten.flatten ∧
          ∀ (f : Fitness) (breeder : Breeder) (m' : IslandModel τ) (outcome' : Except Error Unit),
            m.step f breeder = .ok (m', outcome') →
              ∃ b', m'.best = some b' ∧ (b'.compare b).isLE) ∧
    ∀ (e : Estimator) (entropy : ℕ) (train : Dataset) (val : Option Dataset) (p : Program),
      e.Unpolished → (e.fit entropy train val).2.result = .ok p →
        ∃ out, (e.fit entropy train val).1.last = some out ∧ out.best.program = p ∧
          out.best.fitnessOrWorst ∈ out.record.history ∧
          ∀ x ∈ out.record.history, (Binary64.rank out.best.fitnessOrWorst x).isLE := by
  refine ⟨?_, ?_⟩
  · intro τ _ g count size past m outcome hcount hsize hrun
    obtain ⟨htracks, hcheck⟩ := hrun.tracks hsize
    obtain ⟨b, hb, hfirst⟩ := htracks.exists_best hcount hsize
    refine ⟨hcheck.trans (htracks.checkBest hcount hsize), htracks.length, htracks.generation,
      fun k i hk => htracks.exists_island_best hsize hk, b, hb, hfirst, ?_⟩
    intro f breeder m' outcome' hstep
    obtain ⟨b', hb', hfirst'⟩ := (htracks.step hsize hstep).1.exists_best hcount hsize
    refine ⟨b', hb', hfirst'.isLE b ?_⟩
    rw [List.flatten_append, List.flatten_append]
    exact List.mem_append_left _ hfirst.mem
  · intro e entropy train val p hplain hfit
    have hevolve : Ensures (e.evolve entropy train val) _ := ensures_evolve hplain entropy train
    unfold fit at hfit ⊢
    obtain ⟨out, hout, hp⟩ := Logged.result_bind_eq_ok.mp hfit
    cases hp
    refine ⟨out, ?_, rfl, hevolve out hout⟩
    simp only [hout]

/-- Two points of a line. -/
def twoPoints : Dataset where
  columns := [[0.0, 1.0]]
  target := [1.0, 2.0]
  weights := none

theorem sumsAndNegations_ne_nil : [Operator.add, .neg] ≠ [] := List.cons_ne_nil _ _

/-- One generation on two islands.  Its best program is not as good as that of the first
populations. -/
def setback : Estimator where
  settings := {
    islands := 2
    islandSize := 3
    generations := 1
    minHeight := 1
    maxHeight := 2
    seed := 10 }
  loss := .mae
  eval := .mae
  functions := ⟨[.add, .neg], sumsAndNegations_ne_nil⟩
  last := none

theorem best_so_far_is_exact_setback :
    (∃ (m₁ m₂ : IslandModel ChaCha.Stream) (b : Individual),
      Run IslandModel.shrubs.generator 2 3 [m₁.populations, m₂.populations] m₂ (.ok ()) ∧
        m₂.best = some b ∧ FirstBest b (m₁.populations ++ m₂.populations).flatten) ∧
    ∃ out, (setback.fit 0 twoPoints none).1.last = some out ∧
      out.best.fitnessOrWorst ∈ out.record.history ∧
      out.record.history.map (Binary64.rank out.best.fitnessOrWorst) = [.eq, .lt] := by
  refine ⟨?_, ?_⟩
  · obtain ⟨m₂, h⟩ := Except.exists_eq_ok
      (by decide +kernel : IslandModel.shrubRun.toOption.isSome = true)
    obtain ⟨⟨m₀, s⟩, hcreate, h⟩ := Except.bind_eq_ok.mp h
    obtain ⟨⟨m₁, outcome₁⟩, hstart, h⟩ := Except.bind_eq_ok.mp h
    obtain ⟨⟨m₂, outcome₂⟩, hstep, h⟩ := Except.bind_eq_ok.mp h
    cases h
    have hreached := (Run.start hcreate hstart).step hstep
    obtain ⟨hok, -, -, -, b, hb, hfirst, -⟩ :=
      best_so_far_is_exact.1 (by decide : 0 < 2) (by decide : 0 < 3) hreached
    subst hok
    refine ⟨m₁, m₂, b, hreached, hb, ?_⟩
    have hflat : [m₁.populations, m₂.populations].flatten = m₁.populations ++ m₂.populations := by
      simp
    rw [← hflat]
    exact hfirst
  · -- One evaluation of the fit for both of its facts.
    obtain ⟨hok, hrecord⟩ : (setback.fit 0 twoPoints none).2.result.toOption.isSome = true ∧
        ((setback.fit 0 twoPoints none).1.last.map fun out =>
          out.record.history.map (Binary64.rank out.best.fitnessOrWorst)) = some [.eq, .lt] := by
      decide +kernel
    obtain ⟨p, hp⟩ := Except.exists_eq_ok hok
    obtain ⟨out, hout, -, hmem, -⟩ :=
      best_so_far_is_exact.2 setback 0 twoPoints none p (.inl rfl) hp
    refine ⟨out, hout, hmem, ?_⟩
    generalize (setback.fit 0 twoPoints none).1.last = last at hout hrecord
    subst hout
    exact Option.some.inj hrecord

end Estimator
end SymbolicRegression
