import SymbolicRegression.Proofs.Evolution.Islands
import SymbolicRegression.Proofs.Evolution.Ranking
import SymbolicRegression.Evolution.Estimator

/-!
The best individuals of a run are exact.

A run is followed together with its past: for every generation, the individuals of every
island as they stood after their evaluation.  `Tracks` is the invariant, for an island and for
a model of islands.  An island is evaluated exactly once in a generation, so its best is the
best known merged with the best of the new population.  The model takes over the bests of its
islands without asking whether they are new; `Leads.merge_of_append` is why this does not
matter, not even for ties.
-/

namespace SymbolicRegression

open Individual (Leads FirstBest)

variable {f : Fitness} {size : ℕ}

/-! ## Populations -/

namespace Population

variable {p q : Population}

theorem ensures_isEvaluated (i : Individual) :
    Ensures (evaluateOne f i) fun j => j.isEvaluated = true := by
  unfold evaluateOne
  split
  · next hi => exact .of_pure hi
  · exact Ensures.bind' fun _ => .of_pure rfl

theorem ensures_evaluate (p : Population) :
    Ensures (p.evaluate f) fun q => q.size = p.size ∧ q.isEvaluated = true := by
  have hall := Ensures.of_mapM fun i (_ : i ∈ p.individuals) => ensures_isEvaluated (f := f) i
  refine hall.bind fun is his => .of_pure ⟨his.1, ?_⟩
  exact List.all_eq_true.mpr his.2

theorem leads_best? (h : p.isEvaluated = true) : Leads p.best? p.individuals := by
  have hall : p.individuals.filter (·.isEvaluated) = p.individuals :=
    List.filter_eq_self.mpr (List.all_eq_true.mp h)
  unfold best?
  rw [hall]
  exact Individual.leads_best? _

end Population

/-! ## Islands -/

namespace Island

variable {τ : Type} {i : Island τ} {seen : List Individual}

/-- An island that goes on, is evaluated, and knows the best of all it has seen. -/
structure Tracks (i : Island τ) (size : ℕ) (seen : List Individual) : Prop where
  phase : i.phase ≠ .converged
  size : i.population.size = size
  evaluated : i.population.isEvaluated = true
  best : Leads i.best seen

theorem ensures_evaluate (hphase : i.phase ≠ .converged) (hsize : i.population.size = size)
    (hbest : Leads i.best seen) :
    Ensures (i.evaluate f) fun j => j.Tracks size (seen ++ j.population.individuals) := by
  refine (Population.ensures_evaluate i.population).bind fun p hp => .of_pure ?_
  exact ⟨hphase, hp.1.trans hsize, hp.2, hbest.merge (Population.leads_best? hp.2)⟩

theorem Tracks.ne_nil (h : i.Tracks size seen) (hsize : 0 < size) :
    i.population.individuals ≠ [] := by
  rw [← h.size] at hsize
  exact List.ne_nil_of_length_pos hsize

variable [RandomSource τ] {b : Breeder}

theorem Tracks.renew (h : i.Tracks size seen) :
    Ensures (i.renew f b) fun r => r.1.Tracks size (seen ++ r.1.population.individuals) := by
  have hnext := Draw.ensures_times (Ensures.trivial (b.breed (σ := τ) i.population.individuals
    (i.population.generation + 1))) i.population.individuals.length
  refine (hnext.of_run i.stream).bind fun r hr => ?_
  have hsize : (i.population.succeed (r.1.map (·.individual))).size = size := by
    show (r.1.map (·.individual)).length = size
    rw [List.length_map, hr.1]
    exact h.size
  have hmoved : Ensures (Island.evaluate f { i with population := _, stream := r.2 }) _ :=
    ensures_evaluate h.phase hsize h.best
  refine (Ensures.of_misuse hmoved).bind fun j hj => .of_pure ?_
  exact ⟨nofun, hj.size, hj.evaluated, hj.best⟩

theorem Tracks.evolve_eq_renew (h : i.Tracks size seen) (hsize : 0 < size) :
    i.evolve f b = i.renew f b := by
  rw [evolve_eq h.phase (h.ne_nil hsize), if_pos h.evaluated]
  rfl

theorem faultless_breed (pool : List Individual) (generation : ℕ) (s : τ) :
    ((b.breed pool generation).run s).Faultless :=
  (Logged.faultless_misuse _).bind fun _ => nofun

theorem faultless_nextGeneration (pool : List Individual) (generation : ℕ) (s : τ) :
    ((b.nextGeneration pool generation).run s).Faultless := by
  unfold Breeder.nextGeneration
  generalize pool.length = n
  induction n generalizing s with
  | zero => exact Logged.faultless_pure _
  | succ n ih =>
    exact (faultless_breed pool generation s).bind fun r =>
      Logged.Faultless.bind (ih r.2) fun _ => Logged.faultless_pure _

theorem faultless_renew (i : Island τ) : (i.renew f b).Faultless :=
  (faultless_nextGeneration _ _ _).bind fun _ =>
    (Logged.faultless_misuse _).bind fun _ => Logged.faultless_pure _

theorem faultless_evolve (hne : i.population.individuals ≠ []) : (i.evolve f b).Faultless := by
  by_cases hphase : i.phase = .converged
  · rw [evolve_of_converged hphase]
    exact Logged.faultless_pure _
  · rw [evolve_eq hphase hne]
    split
    · exact faultless_renew i
    · exact (Logged.faultless_misuse _).bind fun j => faultless_renew j

/-- Only an island without individuals cannot evolve. -/
theorem mapM_evolve_ne_error {is : List (Island τ)}
    (hne : ∀ i ∈ is, i.population.individuals ≠ []) (e : Error) :
    is.mapM (fun i => (·.1) <$> (i.evolve f b).result) ≠ .error (.error e) := by
  intro he
  obtain ⟨i, hi, herror⟩ := Except.exists_of_mapM_error he
  exact (faultless_evolve (hne i hi)).map_ne _ e herror

end Island

/-! ## Models -/

namespace IslandModel

variable {τ : Type} {m m' : IslandModel τ} {count : ℕ}

def populations (m : IslandModel τ) : List (List Individual) :=
  m.islands.map (·.population.individuals)

theorem individuals_eq (m : IslandModel τ) : m.individuals = m.populations.flatten :=
  List.flatMap_def

/-- What has stood on one island in the generations of a past. -/
def onIsland (k : ℕ) (past : List (List (List Individual))) : List Individual :=
  past.flatMap fun generation => generation.getD k []

theorem mem_of_mem_onIsland {k : ℕ} {past : List (List (List Individual))} {i : Individual}
    (h : i ∈ onIsland k past) : i ∈ past.flatten.flatten := by
  obtain ⟨generation, hgeneration, hi⟩ := List.mem_flatMap.mp h
  rw [List.getD_eq_getElem?_getD] at hi
  cases hk : generation[k]? with
  | none =>
    rw [hk] at hi
    contradiction
  | some l =>
    rw [hk] at hi
    have hl := List.mem_flatten_of_mem hgeneration (List.mem_of_getElem? hk)
    exact List.mem_flatten_of_mem hl hi

/-- A model that goes on, has a past of generations of its size, and knows the best of it. -/
structure Tracks (m : IslandModel τ) (count size : ℕ) (past : List (List (List Individual))) :
    Prop where
  length : m.islands.length = count
  generation : past.length = m.generation + 1
  sizes : ∀ generation ∈ past, generation.length = count ∧ ∀ l ∈ generation, l.length = size
  islands : ∀ (k : ℕ) (i : Island τ), m.islands[k]? = some i → i.Tracks size (onIsland k past)
  best : Leads m.best past.flatten.flatten

variable {past : List (List (List Individual))}

/-- Gathering takes over the best of an island, which need not be new, island by island. -/
theorem leads_gather {islands : List (Island τ)} {known : Option Individual}
    {l : List Individual} (hknown : Leads known l)
    (h : ∀ i ∈ islands, ∃ seen, (∀ x ∈ seen, x ∈ l) ∧
      Leads i.best (seen ++ i.population.individuals)) :
    Leads (islands.foldl (fun known i => Individual.merge known i.best) known)
      (l ++ islands.flatMap (·.population.individuals)) := by
  induction islands generalizing known l with
  | nil =>
    rw [List.flatMap_nil, List.append_nil]
    exact hknown
  | cons i islands ih =>
    obtain ⟨seen, hseen, hbest⟩ := h i List.mem_cons_self
    rw [List.flatMap_cons, ← List.append_assoc]
    -- What the other islands have seen is still in the longer list.
    refine ih (hknown.merge_of_append hbest hseen) fun j hj => ?_
    obtain ⟨seen, hseen, hbest⟩ := h j (List.mem_cons_of_mem i hj)
    exact ⟨seen, fun x hx => List.mem_append_left _ (hseen x hx), hbest⟩

/-- Islands that have moved, brought together with the best known before. -/
theorem tracks_gatherBest (hcount : m.islands.length = count)
    (hgeneration : past.length = m.generation)
    (hsizes : ∀ generation ∈ past, generation.length = count ∧ ∀ l ∈ generation, l.length = size)
    (hislands : ∀ (k : ℕ) (i : Island τ), m.islands[k]? = some i →
      i.Tracks size (onIsland k past ++ i.population.individuals))
    (hbest : Leads m.best past.flatten.flatten) :
    m.gatherBest.Tracks count size (past ++ [m.populations]) where
  length := hcount
  generation := by
    rw [List.length_append, hgeneration]
    rfl
  sizes := by
    intro generation hmem
    rcases List.mem_append.mp hmem with hmem | hmem
    · exact hsizes generation hmem
    · obtain rfl := List.mem_singleton.mp hmem
      refine ⟨(List.length_map _).trans hcount, fun l hl => ?_⟩
      obtain ⟨i, hi, rfl⟩ := List.mem_map.mp hl
      obtain ⟨k, hk⟩ := List.getElem?_of_mem hi
      exact (hislands k i hk).size
  islands := by
    intro k i hk
    have hlast : onIsland k (past ++ [m.populations]) =
        onIsland k past ++ i.population.individuals := by
      have hnow : m.populations[k]? = some i.population.individuals := by
        rw [populations, List.getElem?_map, show m.islands[k]? = some i from hk]
        rfl
      rw [onIsland, List.flatMap_append, List.flatMap_singleton, List.getD_eq_getElem?_getD, hnow]
      rfl
    rw [hlast]
    exact hislands k i hk
  best := by
    have hlast : (past ++ [m.populations]).flatten.flatten =
        past.flatten.flatten ++ m.islands.flatMap (·.population.individuals) := by
      rw [List.flatten_concat, List.flatten_append]
      rfl
    rw [hlast]
    refine leads_gather hbest fun i hi => ?_
    obtain ⟨k, hk⟩ := List.getElem?_of_mem hi
    exact ⟨onIsland k past, fun x => mem_of_mem_onIsland, (hislands k i hk).best⟩

section

variable (h : m.Tracks count size past) (hcount : 0 < count) (hsize : 0 < size)

include h hsize

theorem Tracks.exists_island_best {k : ℕ} {i : Island τ} (hk : m.islands[k]? = some i) :
    ∃ b, i.best = some b ∧ FirstBest b (onIsland k past) := by
  refine (h.islands k i hk).best.exists_of_ne_nil ?_
  have hpast : 0 < past.length := by
    rw [h.generation]
    exact Nat.succ_pos _
  obtain ⟨hlength, hall⟩ := h.sizes _ (List.getElem_mem hpast)
  have hlt : k < past[0].length := by
    rw [hlength, ← h.length]
    exact (List.getElem?_eq_some_iff.mp hk).1
  have hl := hall _ (List.getElem_mem hlt)
  intro hnil
  have hempty := List.flatMap_eq_nil_iff.mp hnil _ (List.getElem_mem hpast)
  rw [List.getD_eq_getElem?_getD, List.getElem?_eq_getElem hlt, Option.getD_some] at hempty
  rw [hempty] at hl
  exact hsize.ne hl

include hcount

theorem Tracks.generation_ne_nil {generation : List (List Individual)} (hmem : generation ∈ past) :
    generation.flatten ≠ [] := by
  obtain ⟨hlength, hall⟩ := h.sizes generation hmem
  rw [← hlength] at hcount
  have hl := hall _ (List.getElem_mem hcount)
  intro hnil
  have hempty := List.flatten_eq_nil_iff.mp hnil _ (List.getElem_mem hcount)
  rw [hempty] at hl
  exact hsize.ne hl

theorem Tracks.exists_best : ∃ b, m.best = some b ∧ FirstBest b past.flatten.flatten := by
  refine h.best.exists_of_ne_nil ?_
  have hpast : 0 < past.length := by
    rw [h.generation]
    exact Nat.succ_pos _
  intro hnil
  refine h.generation_ne_nil hcount hsize (List.getElem_mem hpast) ?_
  rw [List.flatten_eq_nil_iff]
  exact fun l hl => List.flatten_eq_nil_iff.mp hnil l
    (List.mem_flatten_of_mem (List.getElem_mem hpast) hl)

theorem Tracks.checkBest : m.checkBest = .ok () := by
  obtain ⟨b, hb, -⟩ := h.exists_best hcount hsize
  unfold IslandModel.checkBest
  rw [hb]
  rfl

end

/-- A best individual has stood somewhere. -/
theorem Tracks.pos_of_checkBest (h : m.Tracks count size past) (hok : m.checkBest = .ok ()) :
    0 < count ∧ 0 < size := by
  have hbest := h.best
  unfold IslandModel.checkBest at hok
  cases hb : m.best with
  | none =>
    rw [hb] at hok
    cases hok
  | some b =>
    rw [hb] at hbest
    obtain ⟨l, hl, hmem⟩ := List.mem_flatten.mp (FirstBest.mem hbest)
    obtain ⟨generation, hgeneration, hl⟩ := List.mem_flatten.mp hl
    obtain ⟨hlength, hall⟩ := h.sizes generation hgeneration
    rw [← hlength, ← hall l hl]
    exact ⟨List.length_pos_of_mem hl, List.length_pos_of_mem hmem⟩

/-! ## Steps -/

/-- Islands as they were made, before their first evaluation. -/
structure Fresh (m : IslandModel τ) (count size : ℕ) : Prop where
  length : m.islands.length = count
  generation : m.generation = 0
  best : m.best = none
  islands : ∀ i ∈ m.islands, i.phase ≠ .converged ∧ i.population.size = size ∧ i.best = none

theorem Fresh.start {outcome : Except Error Unit} (h : m.Fresh count size)
    (hstart : m.start f = .ok (m', outcome)) :
    m'.Tracks count size [m'.populations] ∧ outcome = m'.checkBest := by
  obtain ⟨is, his, hm⟩ := Except.bind_eq_ok.mp hstart
  cases hm
  have hlength := Ensures.of_mapM (fun i _ => Ensures.trivial (Island.evaluate f i)) is his
  refine ⟨?_, rfl⟩
  have hempty : ([] : List (List (List Individual))).length = m.generation := h.generation.symm
  refine tracks_gatherBest (m := { m with islands := is }) (hlength.1.trans h.length) hempty nofun
    ?_ ?_
  · intro k j hj
    obtain ⟨i, hi, hij⟩ := Except.getElem?_of_mapM his k j hj
    obtain ⟨hphase, hsize, hbest⟩ := h.islands i (List.mem_of_getElem? hi)
    have hleads : Leads i.best [] := by
      rw [hbest]
      rfl
    exact Island.ensures_evaluate hphase hsize hleads j hij
  · show Leads m.best []
    rw [h.best]
    rfl

variable [SeededSource τ] {b : Breeder}

/-- No island fails, because none is empty. -/
theorem Tracks.step {outcome : Except Error Unit} (h : m.Tracks count size past)
    (hsize : 0 < size) (hstep : m.step f b = .ok (m', outcome)) :
    m'.Tracks count size (past ++ [m'.populations]) ∧ outcome = m'.checkBest := by
  unfold IslandModel.step at hstep
  split at hstep
  · next is his =>
    cases hstep
    have hlength := Ensures.of_mapM
      (fun i _ => Ensures.trivial ((·.1) <$> (Island.evolve f b i).result)) is his
    refine ⟨?_, rfl⟩
    refine tracks_gatherBest (hlength.1.trans h.length) h.generation h.sizes ?_ h.best
    intro k j hj
    obtain ⟨i, hi, hij⟩ := Except.getElem?_of_mapM his k j hj
    obtain ⟨r, hr, rfl⟩ := Except.map_eq_ok.mp hij
    rw [(h.islands k i hi).evolve_eq_renew hsize] at hr
    exact (h.islands k i hi).renew r hr
  · next e he =>
    have hne : ∀ i ∈ m.islands, i.population.individuals ≠ [] := by
      intro i hi
      obtain ⟨k, hk⟩ := List.getElem?_of_mem hi
      exact (h.islands k i hk).ne_nil hsize
    exact absurd he (Island.mapM_evolve_ne_error hne e)
  · cases hstep

theorem Tracks.generation_step {outcome : Except Error Unit} (h : m.Tracks count size past)
    (hsize : 0 < size) (hstep : m.step f b = .ok (m', outcome)) :
    m'.generation = m.generation + 1 := by
  have hlast := (h.step hsize hstep).1.generation
  rw [List.length_append, List.length_singleton, h.generation] at hlast
  exact (Nat.succ.inj hlast).symm

/-! ## Runs -/

variable {σ : Type} [RandomSource σ] {g : Generator}

theorem ensures_create_fresh :
    Ensures (create count size g : Draw σ (IslandModel τ)) (Fresh · count size) := by
  have hisland (index : ℕ) (stream : τ) : Ensures (Island.create index size g stream) fun i =>
      i.phase ≠ .converged ∧ i.population.size = size ∧ i.best = none :=
    ((Population.ensures_random (Ensures.trivial _)).of_run _).bind fun r hr =>
      .of_pure ⟨nofun, hr.size, rfl⟩
  exact (ensures_createIslands_of hisland 0 count).bind fun _ his =>
    .of_pure ⟨his.1, rfl, rfl, his.2⟩

/-- A model that was made, started and taken some steps further, with its past and the
outcome of the last of these calls. -/
inductive Run (g : Generator) (count size : ℕ) :
    List (List (List Individual)) → IslandModel τ → Except Error Unit → Prop
  | start {σ : Type} [RandomSource σ] {s s' : σ} {f : Fitness} {m m' : IslandModel τ}
      {outcome : Except Error Unit} :
      (create count size g).run s = .ok (m, s') → m.start f = .ok (m', outcome) →
        Run g count size [m'.populations] m' outcome
  | step {f : Fitness} {b : Breeder} {past : List (List (List Individual))}
      {m m' : IslandModel τ} {before outcome : Except Error Unit} :
      Run g count size past m before → m.step f b = .ok (m', outcome) →
        Run g count size (past ++ [m'.populations]) m' outcome

theorem Run.tracks {outcome : Except Error Unit} (hsize : 0 < size)
    (h : Run g count size past m outcome) :
    m.Tracks count size past ∧ outcome = m.checkBest := by
  induction h with
  | start hcreate hstart => exact (ensures_create_fresh _ ⟨_, _, hcreate⟩).start hstart
  | step _ hstep ih => exact ih.1.step hsize hstep

end IslandModel

/-! ## Fits -/

namespace Estimator

variable {e : Estimator} {f : Fitness} {b : Breeder} {val : Option Dataset} {r : Evolving}

section

variable {m₀ : IslandModel ChaCha.Stream} {P : Evolving → Prop}

/-- A fit that has started has noted a model that has. -/
theorem ensures_start_of (h : ∀ m, m₀.start f = .ok (m, .ok ()) →
    Ensures (e.note val [] [] m) P) : Ensures (e.start f val m₀) P := by
  intro r hr
  obtain ⟨⟨m, outcome⟩, hstart, hr⟩ := Logged.result_bind_eq_ok.mp hr
  obtain ⟨u, houtcome, hr⟩ := Logged.result_bind_eq_ok.mp hr
  have houtcome : outcome = .ok () := Except.mapError_eq_ok.mp houtcome
  have hstart : m₀.start f = .ok (m, outcome) := Except.mapError_eq_ok.mp hstart
  rw [houtcome] at hstart
  exact h m hstart r hr

/-- A fit that has made a step has noted a model that has. -/
theorem ensures_step_of (h : ∀ m, r.model.step f b = .ok (m, .ok ()) →
    Ensures (e.note val r.generations r.bests m) P) : Ensures (e.step f b val r) P := by
  intro r' hr
  obtain ⟨⟨m, outcome⟩, hstep, hr⟩ := Logged.result_bind_eq_ok.mp hr
  obtain ⟨u, houtcome, hr⟩ := Logged.result_bind_eq_ok.mp hr
  have houtcome : outcome = .ok () := Except.mapError_eq_ok.mp houtcome
  have hstep : r.model.step f b = .ok (m, outcome) := Except.mapError_eq_ok.mp hstep
  rw [houtcome] at hstep
  exact h m hstep r' hr

end

variable {P : ℕ → Evolving → Prop}

/-- What holds with so many generations left, and keeps holding with one less after a step, holds
where a run ends.  It ends where a rule applies, or with none left. -/
theorem ensures_run_of (hstep : ∀ left r, P (left + 1) r →
      StoppingRule.first? e.stoppingRules r.model.generation r.bests = none →
        Ensures (e.step f b val r) (P left)) (left : ℕ) (h : P left r) :
    Ensures (e.run f b val left r) fun out =>
      out.2 = StoppingRule.first? e.stoppingRules out.1.model.generation out.1.bests ∧
        ∃ left, P left out.1 ∧ (out.2 = none → left = 0) := by
  induction left generalizing r with
  | zero =>
    unfold run
    split
    · next rule hstops => exact .of_pure ⟨hstops.symm, 0, h, fun _ => rfl⟩
    · next hgoes => exact .of_pure ⟨hgoes.symm, 0, h, fun _ => rfl⟩
  | succ left ih =>
    unfold run
    split
    · next rule hstops => exact .of_pure ⟨hstops.symm, left + 1, h, nofun⟩
    · next hgoes => exact (hstep left r h hgoes).bind fun r' hr' => ih hr'

end Estimator

end SymbolicRegression
