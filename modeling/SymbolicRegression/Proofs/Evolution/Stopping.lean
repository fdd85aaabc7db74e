import SymbolicRegression.Proofs.Evolution.FailedFits
import SymbolicRegression.Proofs.Evolution.Isolation

/-!
How many generations a fit runs.

The models of a run are given without a look at any rule, so the generation at which a run is to
end is the least one that says so of them.  A run goes through these models one by one, keeps the
best fitness of each, and asks its rules of what it has kept.
-/

namespace SymbolicRegression

variable {f : Fitness} {b : Breeder} {count size generations g : ℕ}

/-- What holds of all members of a list at their places, and of one more at the end. -/
theorem forall_getElem?_concat {α : Type} {P : ℕ → α → Prop} {l : List α} {a : α}
    (h : ∀ k x, l[k]? = some x → P k x) (ha : P l.length a) :
    ∀ k x, (l ++ [a])[k]? = some x → P k x := by
  intro k x hx
  by_cases hk : k < l.length
  · rw [List.getElem?_append_left hk] at hx
    exact h k x hx
  · rw [List.getElem?_append_right (by omega)] at hx
    have hlast : k - l.length < 1 := (List.getElem?_eq_some_iff.mp hx).1
    obtain rfl : k = l.length := by omega
    rw [Nat.sub_self] at hx
    cases hx
    exact ha

/-! ## The past of a model -/

namespace IslandModel

variable {τ : Type} [SeededSource τ] {m m' : IslandModel τ}

/-- The past of a model is made of the populations it has had. -/
theorem Fresh.exists_past (h : m.Fresh count size) (hsize : 0 < size)
    (hafter : m.after f b generations = .ok m') :
    ∃ past, m'.Tracks count size past ∧ past.length = generations + 1 ∧
      ∀ k l, past[k]? = some l → ∃ before, m.after f b k = .ok before ∧ before.populations = l := by
  induction generations generalizing m' with
  | zero =>
    obtain ⟨⟨m₁, outcome⟩, hstart, rfl⟩ := Except.map_eq_ok.mp hafter
    exact ⟨_, (h.start hstart).1, rfl,
      forall_getElem?_concat (l := []) nofun ⟨m₁, hafter, rfl⟩⟩
  | succ generations ih =>
    obtain ⟨m₁, hm₁, hstep⟩ := Except.bind_eq_ok.mp hafter
    obtain ⟨past, htracks, hlength, hpast⟩ := ih hm₁
    obtain ⟨⟨m₂, outcome⟩, hm₂, rfl⟩ := Except.map_eq_ok.mp hstep
    refine ⟨_, (htracks.step hsize hm₂).1, by simp [hlength],
      forall_getElem?_concat hpast ⟨m₂, ?_, rfl⟩⟩
    rw [hlength]
    exact hafter

end IslandModel

/-! ## Rules -/

namespace StoppingRule

variable {span : ℕ} {history : List Float} {now before : Float}

theorem gain?_eq (hlength : history.length = g + 1) (hspan : span ≤ g)
    (hnow : history[g]? = some now) (hbefore : history[g - span]? = some before) :
    gain? span history = some (before - now) := by
  have hlast : history.getLast? = some now := by
    rw [List.getLast?_eq_getElem?, hlength]
    exact hnow
  have hback : history.reverse[span]? = some before := by
    rw [List.getElem?_reverse (by omega), hlength, Nat.add_sub_cancel]
    exact hbefore
  unfold gain?
  rw [hlast, hback]
  rfl

theorem gain?_eq_none (hspan : history.length ≤ span) : gain? span history = none := by
  have hback : history.reverse[span]? = none := by
    rw [List.getElem?_eq_none_iff, List.length_reverse]
    exact hspan
  unfold gain?
  rw [hback]
  cases history.getLast? <;> rfl

/-- The best fitness has not become less in the last `span` generations. -/
theorem applies_stagnation_iff (hlength : history.length = g + 1) :
    applies g history (.stagnation span 0.0) = true ↔ 0 < span ∧ span ≤ g ∧
      ∃ now before, history[g]? = some now ∧ history[g - span]? = some before ∧
        ¬now < before := by
  cases span with
  | zero => exact iff_of_false nofun fun h => absurd h.1 (lt_irrefl 0)
  | succ span =>
    show (gain? (span + 1) history).any (fun gain => !decide (gain > 0.0)) = true ↔ _
    by_cases hspan : span + 1 ≤ g
    · have hg : g < history.length := by omega
      have hb : g - (span + 1) < history.length := by omega
      rw [gain?_eq hlength hspan (List.getElem?_eq_getElem hg) (List.getElem?_eq_getElem hb)]
      show (!decide (0.0 < history[g - (span + 1)] - history[g])) = true ↔ _
      rw [Bool.not_eq_true', decide_eq_false_iff_not, Binary64.zero_lt_sub]
      constructor
      · intro hlt
        exact ⟨Nat.succ_pos span, hspan, _, _, List.getElem?_eq_getElem hg,
          List.getElem?_eq_getElem hb, hlt⟩
      · intro ⟨_, _, now, before, hnow, hbefore, hlt⟩
        rw [List.getElem?_eq_getElem hg, Option.some_inj] at hnow
        rw [List.getElem?_eq_getElem hb, Option.some_inj] at hbefore
        rw [hnow, hbefore]
        exact hlt
    · rw [gain?_eq_none (by omega)]
      exact iff_of_false nofun fun h => hspan h.2.1

end StoppingRule

namespace Estimator

variable {e : Estimator} {entropy : ℕ} {train : Dataset} {val : Option Dataset}
  {m m' : IslandModel ChaCha.Stream} {bests : List Float}

theorem first?_stoppingRules : StoppingRule.first? e.stoppingRules g bests =
    if e.settings.generations ≤ g then some (.generations e.settings.generations)
    else if StoppingRule.applies g bests (.stagnation e.settings.stagnation 0.0) then
      some (.stagnation e.settings.stagnation 0.0)
    else none := by
  unfold StoppingRule.first? stoppingRules
  by_cases hlimit : e.settings.generations ≤ g
  · rw [if_pos hlimit]
    exact List.find?_cons_of_pos (decide_eq_true hlimit)
  · rw [if_neg hlimit, List.find?_cons_of_neg (by simpa [StoppingRule.applies] using hlimit)]
    by_cases hzero : e.settings.stagnation = 0
    · rw [if_pos hzero, hzero]
      rfl
    · rw [if_neg hzero, List.find?_singleton]

/-! ## The models of a fit -/

/-- The model of a fit after some generations, if no rule stops it before. -/
def modelAfter (e : Estimator) (entropy : ℕ) (train : Dataset) (generations : ℕ) :
    Except Misuse (IslandModel ChaCha.Stream) :=
  IslandModel.fromStream e.settings.islands e.settings.islandSize (e.breeder train).generator
    (e.fitness train) (e.breeder train) generations (stream e.settings entropy)

/-- An individual of the first generations that is not worse than any other one. -/
def BestSoFar (e : Estimator) (entropy : ℕ) (train : Dataset) (g : ℕ) (best : Individual) : Prop :=
  (∃ k ≤ g, ∃ m, e.modelAfter entropy train k = .ok m ∧ best ∈ m.individuals) ∧
    ∀ k ≤ g, ∃ m, e.modelAfter entropy train k = .ok m ∧
      ∀ i ∈ m.individuals, (best.compare i).isLE

/-- The best fitness is not less than as many generations ago as the settings look back. -/
def Stagnates (e : Estimator) (entropy : ℕ) (train : Dataset) (g : ℕ) : Prop :=
  0 < e.settings.stagnation ∧ e.settings.stagnation ≤ g ∧
    ∃ now before, e.modelAfter entropy train g = .ok now ∧
      e.modelAfter entropy train (g - e.settings.stagnation) = .ok before ∧
      ¬now.bestFitness < before.bestFitness

/-- There is a reason to end after so many generations. -/
def Ends (e : Estimator) (entropy : ℕ) (train : Dataset) (g : ℕ) : Prop :=
  g = e.settings.generations ∨ e.Stagnates entropy train g

theorem modelAfter_zero {m₀ : IslandModel ChaCha.Stream} {s : ChaCha.Stream}
    {outcome : Except Error Unit} (hcreate : (IslandModel.create e.settings.islands
      e.settings.islandSize (e.breeder train).generator).run (stream e.settings entropy) =
        .ok (m₀, s)) (hstart : m₀.start (e.fitness train) = .ok (m, outcome)) :
    e.modelAfter entropy train 0 = .ok m :=
  Except.bind_eq_ok.mpr ⟨_, hcreate, Except.map_eq_ok.mpr ⟨_, hstart, rfl⟩⟩

theorem modelAfter_succ {outcome : Except Error Unit} (h : e.modelAfter entropy train g = .ok m)
    (hstep : m.step (e.fitness train) (e.breeder train) = .ok (m', outcome)) :
    e.modelAfter entropy train (g + 1) = .ok m' := by
  obtain ⟨r, hcreate, hafter⟩ := Except.bind_eq_ok.mp h
  exact Except.bind_eq_ok.mpr ⟨r, hcreate,
    Except.bind_eq_ok.mpr ⟨m, hafter, Except.map_eq_ok.mpr ⟨_, hstep, rfl⟩⟩⟩

/-- The best individual that a model keeps is the best so far. -/
theorem exists_bestSoFar (hmade : e.Made) (h : e.modelAfter entropy train g = .ok m) :
    m.generation = g ∧ ∃ best, m.best = some best ∧ e.BestSoFar entropy train g best := by
  obtain ⟨⟨m₀, s⟩, hcreate, hafter⟩ := Except.bind_eq_ok.mp h
  have hmodel (k : ℕ) : e.modelAfter entropy train k =
      m₀.after (e.fitness train) (e.breeder train) k := by
    unfold modelAfter IslandModel.fromStream
    rw [hcreate]
    rfl
  have hfresh := IslandModel.ensures_create_fresh m₀ ⟨_, _, hcreate⟩
  obtain ⟨past, htracks, hlength, hpast⟩ := hfresh.exists_past hmade.valid.islandSize hafter
  obtain ⟨best, hbest, hfirst⟩ := htracks.exists_best hmade.valid.islands hmade.valid.islandSize
  have hgeneration := htracks.generation
  rw [List.flatten_flatten] at hfirst
  refine ⟨by omega, best, hbest, ?_, fun k hk => ?_⟩
  · obtain ⟨l, hl, hmem⟩ := List.mem_flatten.mp hfirst.mem
    obtain ⟨p, hp, rfl⟩ := List.mem_map.mp hl
    obtain ⟨k, hk⟩ := List.getElem?_of_mem hp
    obtain ⟨before, hbefore, rfl⟩ := hpast k p hk
    have hlt : k < past.length := (List.getElem?_eq_some_iff.mp hk).1
    exact ⟨k, by omega, before, (hmodel k).trans hbefore, by rw [before.individuals_eq]; exact hmem⟩
  · have hlt : k < past.length := by omega
    obtain ⟨before, hbefore, hpopulations⟩ := hpast k past[k] (List.getElem?_eq_getElem hlt)
    refine ⟨before, (hmodel k).trans hbefore, fun i hi => hfirst.isLE i ?_⟩
    rw [before.individuals_eq, hpopulations] at hi
    exact List.mem_flatten_of_mem (List.mem_map_of_mem (List.getElem_mem hlt)) hi

/-! ## What a fit records -/

/-- A record of the generation, with the score of the best program so far on validation data. -/
def Records (e : Estimator) (entropy : ℕ) (train : Dataset) (val : Option Dataset) (g : ℕ)
    (r : GenerationRecord) : Prop :=
  ∃ m best, e.modelAfter entropy train g = .ok m ∧ m.best = some best ∧
    e.BestSoFar entropy train g best ∧ r.generation = g ∧
    (val = none → r.validation = none) ∧
    ∀ v ∈ val, ∃ pred score, best.program.predict v = .ok pred ∧
      e.eval.score v.target pred v.weights = .ok score ∧ r.validation = some score

/-- A record of all generations from the first population to the first one that gives a reason to
end, and of that reason. -/
structure RecordsRun (e : Estimator) (entropy : ℕ) (train : Dataset) (val : Option Dataset)
    (record : RunRecord) (last : ℕ) : Prop where
  least : IsLeast {g | e.Ends entropy train g} last
  numbers : record.generations.map (·.generation) = List.range (last + 1)
  reason : record.reason = some (if last = e.settings.generations then
    "Maximum generations reached" else "Fitness stagnation detected")
  generations : ∀ g r, record.generations[g]? = some r → e.Records entropy train val g r

theorem validation_eq_ok {v : Dataset} {best : Individual} {score : Option Float}
    (h : e.validation (some v) (some best) = .ok score) :
    ∃ pred s, best.program.predict v = .ok pred ∧
      e.eval.score v.target pred v.weights = .ok s ∧ score = some s := by
  obtain ⟨pred, hpred, h⟩ := Except.bind_eq_ok.mp h
  obtain ⟨s, hs, h⟩ := Except.bind_eq_ok.mp h
  cases h
  exact ⟨pred, s, hpred, Except.mapError_eq_ok.mp hs, rfl⟩

theorem ensures_note_records (hmade : e.Made) {records : List GenerationRecord}
    (h : e.modelAfter entropy train g = .ok m) :
    Ensures (e.note val records bests m) fun r => r.model = m ∧
      r.bests = bests ++ [m.bestFitness] ∧
        ∃ record, r.generations = records ++ [record] ∧ e.Records entropy train val g record := by
  intro r hr
  change (e.note val records bests m).result = .ok r at hr
  rw [result_note] at hr
  obtain ⟨score, hscore, rfl⟩ := Except.map_eq_ok.mp hr
  obtain ⟨hgeneration, best, hbest, hsofar⟩ := exists_bestSoFar hmade h
  rw [hbest] at hscore
  refine ⟨rfl, rfl, _, rfl, m, best, h, hbest, hsofar, hgeneration, fun hnone => ?_, ?_⟩
  · rw [hnone] at hscore
    cases hscore
    rfl
  · rintro v ⟨⟩
    exact validation_eq_ok hscore

/-! ## The run -/

/-- A run has kept what there is to keep of its generations, and had no reason to end before. -/
structure Keeps (e : Estimator) (entropy : ℕ) (train : Dataset) (val : Option Dataset)
    (r : Evolving) : Prop where
  model : e.modelAfter entropy train r.model.generation = .ok r.model
  bests_length : r.bests.length = r.model.generation + 1
  bests : ∀ k x, r.bests[k]? = some x →
    ∃ m, e.modelAfter entropy train k = .ok m ∧ x = m.bestFitness
  records_length : r.generations.length = r.model.generation + 1
  records : ∀ k record, r.generations[k]? = some record → e.Records entropy train val k record
  goes : ∀ k < r.model.generation, ¬e.Ends entropy train k

variable {r : Evolving}

theorem Keeps.applies_iff (h : e.Keeps entropy train val r) :
    StoppingRule.applies r.model.generation r.bests (.stagnation e.settings.stagnation 0.0) =
      true ↔ e.Stagnates entropy train r.model.generation := by
  rw [StoppingRule.applies_stagnation_iff h.bests_length]
  refine and_congr_right fun _ => and_congr_right fun hspan => ?_
  constructor
  · intro ⟨now, before, hnow, hbefore, hlt⟩
    obtain ⟨m, hm, rfl⟩ := h.bests _ _ hnow
    obtain ⟨m', hm', rfl⟩ := h.bests _ _ hbefore
    exact ⟨m, m', hm, hm', hlt⟩
  · intro ⟨m, m', hm, hm', hlt⟩
    have hlength := h.bests_length
    have hkept (k : ℕ) (hk : k < r.bests.length) (m : IslandModel ChaCha.Stream)
        (hm : e.modelAfter entropy train k = .ok m) : r.bests[k]? = some m.bestFitness := by
      obtain ⟨m', hm', hx⟩ := h.bests k _ (List.getElem?_eq_getElem hk)
      rw [hm] at hm'
      cases hm'
      rw [← hx]
      exact List.getElem?_eq_getElem hk
    exact ⟨_, _, hkept _ (by omega) m hm, hkept _ (by omega) m' hm', hlt⟩

theorem Keeps.generation_le (h : e.Keeps entropy train val r) :
    r.model.generation ≤ e.settings.generations :=
  not_lt.mp fun hlt => h.goes _ hlt (.inl rfl)

theorem Keeps.not_ends (h : e.Keeps entropy train val r)
    (hgoes : StoppingRule.first? e.stoppingRules r.model.generation r.bests = none) :
    ¬e.Ends entropy train r.model.generation := by
  rw [first?_stoppingRules] at hgoes
  by_cases hlimit : e.settings.generations ≤ r.model.generation
  · rw [if_pos hlimit] at hgoes
    cases hgoes
  · rw [if_neg hlimit] at hgoes
    intro hends
    rcases hends with heq | hstagnates
    · exact hlimit heq.ge
    · rw [if_pos (h.applies_iff.mpr hstagnates)] at hgoes
      cases hgoes

theorem Keeps.ends (h : e.Keeps entropy train val r) {rule : StoppingRule}
    (hstops : StoppingRule.first? e.stoppingRules r.model.generation r.bests = some rule) :
    e.Ends entropy train r.model.generation ∧
      rule.reason = if r.model.generation = e.settings.generations then
        "Maximum generations reached" else "Fitness stagnation detected" := by
  have hle := h.generation_le
  rw [first?_stoppingRules] at hstops
  by_cases hlimit : e.settings.generations ≤ r.model.generation
  · rw [if_pos hlimit] at hstops
    cases hstops
    have heq : r.model.generation = e.settings.generations := by omega
    exact ⟨.inl heq, (if_pos heq).symm⟩
  · rw [if_neg hlimit] at hstops
    have hne : ¬r.model.generation = e.settings.generations := by omega
    split at hstops
    · next happlies =>
      cases hstops
      exact ⟨.inr (h.applies_iff.mp happlies), (if_neg hne).symm⟩
    · cases hstops

theorem ensures_start_keeps (hmade : e.Made) {m₀ : IslandModel ChaCha.Stream} {s : ChaCha.Stream}
    (hcreate : (IslandModel.create e.settings.islands e.settings.islandSize
      (e.breeder train).generator).run (stream e.settings entropy) = .ok (m₀, s)) :
    Ensures (e.start (e.fitness train) val m₀) (e.Keeps entropy train val) := by
  refine ensures_start_of fun m hstart => ?_
  have hm := modelAfter_zero hcreate hstart
  obtain ⟨hzero, -⟩ := exists_bestSoFar hmade hm
  refine (ensures_note_records hmade hm).mono fun r hr => ?_
  obtain ⟨rfl, hbests, record, hrecords, hrecord⟩ := hr
  exact {
    model := by rw [hzero]; exact hm
    bests_length := by rw [hbests, hzero]; rfl
    bests := by
      rw [hbests]
      exact forall_getElem?_concat nofun ⟨_, hm, rfl⟩
    records_length := by rw [hrecords, hzero]; rfl
    records := by
      rw [hrecords]
      exact forall_getElem?_concat nofun hrecord
    goes := by
      rw [hzero]
      nofun }

theorem Keeps.step (hmade : e.Made) (h : e.Keeps entropy train val r)
    (hgoes : StoppingRule.first? e.stoppingRules r.model.generation r.bests = none) :
    Ensures (e.step (e.fitness train) (e.breeder train) val r) fun r' =>
      e.Keeps entropy train val r' ∧ r'.model.generation = r.model.generation + 1 := by
  refine ensures_step_of fun m hstep => ?_
  have hm := modelAfter_succ h.model hstep
  obtain ⟨hnext, -⟩ := exists_bestSoFar hmade hm
  refine (ensures_note_records hmade hm).mono fun r' hr => ?_
  obtain ⟨rfl, hbests, record, hrecords, hrecord⟩ := hr
  refine ⟨?_, hnext⟩
  exact {
    model := by rw [hnext]; exact hm
    bests_length := by rw [hbests, hnext, List.length_append, h.bests_length]; rfl
    bests := by
      rw [hbests]
      refine forall_getElem?_concat h.bests ⟨_, ?_, rfl⟩
      rw [h.bests_length]
      exact hm
    records_length := by rw [hrecords, hnext, List.length_append, h.records_length]; rfl
    records := by
      rw [hrecords]
      refine forall_getElem?_concat h.records ?_
      rw [h.records_length]
      exact hrecord
    goes := by
      intro k hk
      rw [hnext] at hk
      by_cases hlast : k = r.model.generation
      · rw [hlast]
        exact h.not_ends hgoes
      · exact h.goes k (by omega) }

/-- A run that has ended, with what it has kept until then and with the reason of a rule. -/
theorem Keeps.run (hmade : e.Made) {left : ℕ} (h : e.Keeps entropy train val r)
    (hleft : e.settings.generations ≤ r.model.generation + left) :
    Ensures (e.run (e.fitness train) (e.breeder train) val left r) fun out =>
      e.Keeps entropy train val out.1 ∧ ∃ rule, out.2 = some rule ∧
        StoppingRule.first? e.stoppingRules out.1.model.generation out.1.bests = some rule := by
  have hstep : ∀ (left : ℕ) (r : Evolving),
      (e.Keeps entropy train val r ∧ e.settings.generations ≤ r.model.generation + (left + 1)) →
      StoppingRule.first? e.stoppingRules r.model.generation r.bests = none →
      Ensures (e.step (e.fitness train) (e.breeder train) val r) fun r' =>
        e.Keeps entropy train val r' ∧ e.settings.generations ≤ r'.model.generation + left := by
    intro left r ⟨hkeeps, hleft⟩ hgoes
    exact (hkeeps.step hmade hgoes).mono fun r' hr' => ⟨hr'.1, by omega⟩
  refine (ensures_run_of (P := fun left r => e.Keeps entropy train val r ∧
    e.settings.generations ≤ r.model.generation + left) hstep left ⟨h, hleft⟩).mono ?_
  intro out ⟨hrule, left, ⟨hkeeps, hleft⟩, hzero⟩
  refine ⟨hkeeps, ?_⟩
  cases hout : out.2 with
  | some rule => exact ⟨rule, rfl, by rw [← hrule, hout]⟩
  | none =>
    -- With no generation left the limit has been reached, so its rule applies.
    have hlimit : e.settings.generations ≤ out.1.model.generation := by
      rw [hzero hout] at hleft
      exact hleft
    rw [hout, first?_stoppingRules, if_pos hlimit] at hrule
    cases hrule

theorem ensures_conclude_record (s : ChaCha.Stream) (out : Evolving × Option StoppingRule) :
    Ensures (e.conclude train s out) fun evolved =>
      evolved.record.generations = out.1.generations ∧
        evolved.record.reason = out.2.map StoppingRule.reason := by
  unfold conclude
  dsimp only
  split
  · nofun
  · exact Ensures.bind' fun _ => Ensures.bind' fun _ => .of_pure ⟨rfl, rfl⟩

theorem Keeps.generations_eq (h : e.Keeps entropy train val r) :
    r.generations.map (·.generation) = List.range (r.model.generation + 1) := by
  refine List.ext_getElem? fun k => ?_
  rw [List.getElem?_map]
  by_cases hk : k < r.generations.length
  · obtain ⟨m, best, hm, hbest, hsofar, hnumber, -⟩ := h.records k _ (List.getElem?_eq_getElem hk)
    rw [List.getElem?_eq_getElem hk, List.getElem?_range (by rw [← h.records_length]; exact hk),
      Option.map_some, hnumber]
  · have hlength := h.records_length
    rw [List.getElem?_eq_none_iff.mpr (by omega), List.getElem?_eq_none_iff.mpr
      (by rw [List.length_range]; omega)]
    rfl

theorem ensures_evolve_records (hmade : e.Made) (htrain : train.WellFormed)
    (hval : ∀ v ∈ val, v.WellFormed) : Ensures (e.evolve entropy train val) fun out =>
      ∃ last, e.RecordsRun entropy train val out.record last := by
  rw [evolve_eq htrain.rowCount_pos htrain.featureCount_pos, Dataset.filter_eq_of_wellFormed hval]
  refine (Ensures.of_misuse (fun _ hr => hr)).bind fun created hcreate => ?_
  refine (ensures_start_keeps hmade hcreate).bind fun r hr => ?_
  refine (hr.run hmade (Nat.le_add_left _ _)).bind fun out ⟨hout, rule, hrule, hstops⟩ => ?_
  refine (ensures_conclude_record created.2 out).mono fun evolved ⟨hrecords, hreason⟩ => ?_
  obtain ⟨hends, htext⟩ := hout.ends hstops
  exact ⟨out.1.model.generation, {
    least := ⟨hends, fun g hg => not_lt.mp fun hlt => hout.goes g hlt hg⟩
    numbers := by rw [hrecords]; exact hout.generations_eq
    reason := by rw [hreason, hrule, Option.map_some, htext]
    generations := by rw [hrecords]; exact hout.records }⟩

/-- A fit whose constants lie close enough together returns, unless the best program so far reads
a feature that validation data lack.  A fit that has returned has run until the first generation
that gives a reason to end.  It has recorded all generations from the first population on, with the
scores of the programs that were the best so far, and names the limit on generations as its reason
just if it has reached it. -/
theorem fit_runs_to_first_end (hmade : e.Made) (hword : e.settings.maxHeight < 2 ^ 64)
    (htrain : train.WellFormed) (hval : ∀ v ∈ val, v.WellFormed) :
    ((e.settings.constMax - e.settings.constMin).isFinite = true →
      ¬e.Overreaches entropy train val → ∃ p, (e.fit entropy train val).2.result = .ok p) ∧
    ∀ p, (e.fit entropy train val).2.result = .ok p →
      ∃ out last, (e.fit entropy train val).1.last = some out ∧ out.best.program = p ∧
        e.RecordsRun entropy train val out.record last := by
  constructor
  · intro hwidth hreads
    have hnever : Confines (e.evolve entropy train val) Failure.Never :=
      confines_evolve_of hmade hword hval (fun hcause => absurd hcause hreads) htrain
        (confined_breeder_of_width hmade hwidth)
    obtain ⟨out, hout⟩ : ∃ out, (e.evolve entropy train val).result = .ok out :=
      Confines.exists_ok fun _ ⟨failure, hfailure, _⟩ => hnever failure hfailure
    refine ⟨out.best.program, ?_⟩
    show ((·.best.program) <$> e.evolve entropy train val).result = _
    rw [Logged.result_map, hout]
    rfl
  · intro p hfit
    unfold fit at hfit ⊢
    obtain ⟨out, hout, hp⟩ := Logged.result_bind_eq_ok.mp hfit
    cases hp
    obtain ⟨last, hrecords⟩ := ensures_evolve_records hmade htrain hval out hout
    refine ⟨out, last, ?_, rfl, hrecords⟩
    simp only [hout]

/-! ## A feature among large constants -/

/-- Leaves are the only feature or constants up to `bound`.  The squares of most such constants
are infinite, so that the feature fits best. -/
def amongConstants (bound : Float) : Estimator where
  settings := {
    lossMetric := "mse"
    functions := "add"
    constMin := -bound
    constMax := bound
    minHeight := 0
    maxHeight := 0
    islandSize := 2
    generations := 3
    stagnation := 1
    seed := 3 }
  loss := .mse
  eval := .mse
  functions := ⟨[.add], List.cons_ne_nil _ _⟩
  last := none

theorem made_amongConstants (bound : Float) (hmin : (-bound).isFinite = true)
    (hmax : bound.isFinite = true) (hle : -bound ≤ bound) : (amongConstants bound).Made := by
  have hmse : Metric.parse "mse" = .ok .mse := by cbv
  have hvalid : (amongConstants bound).settings.Valid := {
    loss := ⟨.mse, hmse⟩
    eval := ⟨.mse, hmse⟩
    functions := ⟨_, EvolutionSettings.parse_sums⟩
    heights := le_refl 0
    islands := Nat.one_pos
    islandSize := Nat.succ_pos 1
    constMin := hmin
    constMax := hmax
    constants := hle
    parsimony := (by decide +kernel : (1e-5 : Float).isFinite = true ∧ ¬(1e-5 : Float) < 0.0)
    probabilities := (by decide +kernel :
      ∀ p ∈ (amongConstants 1.0).settings.probabilities, 0.0 ≤ p.2 ∧ p.2 ≤ 1.0) }
  exact ofSettings_eq_ok_iff.mpr ⟨hvalid, hmse, hmse, EvolutionSettings.parse_sums, rfl, rfl⟩

/-- Two points of the line on which the target is the feature. -/
def identity : Dataset where
  columns := [[1.0, 2.0]]
  target := [1.0, 2.0]
  weights := none

theorem wellFormed_identity : identity.WellFormed :=
  have h : Dataset.ofColumns identity.columns identity.target none = .ok identity := rfl
  Dataset.wellFormed_of_ofColumns h

/-- The feature is among the first individuals, and one generation later nothing is gained. -/
theorem fit_runs_to_first_end_among_constants :
    ∃ out, ((amongConstants 8e307).fit 0 identity (some identity)).1.last = some out ∧
      IsLeast {g | (amongConstants 8e307).Ends 0 identity g} 1 ∧
      out.record.generations.map (·.generation) = [0, 1] ∧
      out.record.reason = some "Fitness stagnation detected" := by
  have hmade : (amongConstants 8e307).Made :=
    made_amongConstants 8e307 (by decide +kernel) (by decide +kernel) (by decide +kernel)
  have hword : (amongConstants 8e307).settings.maxHeight < 2 ^ 64 := Nat.two_pow_pos 64
  have hval : ∀ v ∈ some identity, v.WellFormed := by
    rintro v ⟨⟩
    exact wellFormed_identity
  obtain ⟨hreturns, hstops⟩ := @fit_runs_to_first_end (amongConstants 8e307) 0 identity
    (some identity) hmade hword wellFormed_identity hval
  have hreads : ¬(amongConstants 8e307).Overreaches 0 identity (some identity) :=
    not_overreaches_of_le hmade hword le_rfl
  obtain ⟨p, hp⟩ := hreturns (by decide +kernel) hreads
  obtain ⟨out, last, hout, -, hleast, hnumbers, hreason, -⟩ := hstops p hp
  have hcount : (((amongConstants 8e307).fit 0 identity (some identity)).1.last.map fun out =>
      out.record.generations.length) = some 2 := by
    decide +kernel
  have hlast : last = 1 := by
    rw [hout, Option.map_some, Option.some_inj] at hcount
    have hlength := congrArg List.length hnumbers
    rw [List.length_map, hcount, List.length_range] at hlength
    omega
  rw [hlast] at hleast hnumbers hreason
  exact ⟨out, hout, hleast, hnumbers, hreason⟩

/-- Constants that lie farther apart cannot be drawn, though they are valid. -/
theorem fit_among_wide_constants_refused : (amongConstants 1e308).Made ∧
    ¬∃ p, ((amongConstants 1e308).fit 0 identity none).2.result = .ok p := by
  refine ⟨made_amongConstants 1e308 (by decide +kernel) (by decide +kernel) (by decide +kernel),
    fun ⟨p, hp⟩ => ?_⟩
  have hfails : ((amongConstants 1e308).fit 0 identity none).2.result.toOption.isSome = false := by
    decide +kernel
  rw [hp] at hfails
  exact Bool.noConfusion hfails

end Estimator

end SymbolicRegression
