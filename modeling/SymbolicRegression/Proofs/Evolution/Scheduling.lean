import SymbolicRegression.Proofs.Evolution.BestSoFar
import Mathlib.Logic.Relation

/-!
Islands move in any order, and individuals are evaluated in any order.

A worker is an island in the middle of a call, with what the call has to remember.  One move
of a worker evaluates one individual, breeds one child, or goes on to the next stage of the
call; while individuals are being evaluated, any of those that are left may be the next.  A
schedule is a sequence of moves of any workers.  The best of all islands is gathered when every
worker has finished, and not before.

`Worker.finish` is the computation that a worker has still before it, if it goes on alone and
takes its individuals from the first slot to the last.  No move changes what comes out of it,
and the argument is no more than this: a schedule that has come to its end has computed what
every island would have computed alone.
-/

namespace SymbolicRegression

open Relation (ReflTransGen)

variable {τ : Type} {f : Fitness} {b : Breeder}

theorem map_set_of_eq {α β : Type} {g : α → β} {l : List α} {k : ℕ} {x y : α}
    (hk : l[k]? = some x) (h : g y = g x) : (l.set k y).map g = l.map g := by
  obtain ⟨hlt, rfl⟩ := List.getElem?_eq_some_iff.mp hk
  rw [List.map_set, h, ← List.map_set, List.set_getElem_self]

/-! ## One individual -/

namespace Population

variable {p : Population} {k : ℕ} {x : Individual} {e : Evaluation}

/-- Another individual in one of the slots. -/
def put (p : Population) (k : ℕ) (x : Individual) : Population :=
  { p with individuals := p.individuals.set k x }

theorem evaluate_put (hk : p.individuals[k]? = some x) (hx : x.isEvaluated = false)
    (he : f x.program = .ok e) : (p.put k (x.withEvaluation e)).evaluate f = p.evaluate f := by
  have hone : evaluateOne f (x.withEvaluation e) = evaluateOne f x := by
    rw [evaluateOne_of_isEvaluated rfl, evaluateOne_of_pending hx, he]
    rfl
  have hall : (p.put k (x.withEvaluation e)).individuals.mapM (evaluateOne f) =
      p.individuals.mapM (evaluateOne f) := by
    rw [← Function.id_comp (evaluateOne f), ← List.mapM_map, ← List.mapM_map]
    exact congrArg (List.mapM id) (map_set_of_eq hk hone)
  unfold evaluate evaluateM
  rw [hall]
  rfl

theorem pendingCount_put (hk : p.individuals[k]? = some x) (hx : x.isEvaluated = false) :
    (p.put k (x.withEvaluation e)).pendingCount + 1 = p.pendingCount := by
  obtain ⟨hlt, rfl⟩ := List.getElem?_eq_some_iff.mp hk
  have hpos : 0 < p.individuals.countP (!·.isEvaluated) :=
    List.countP_pos_iff.mpr ⟨_, List.getElem_mem hlt, by rw [hx]; rfl⟩
  show (p.individuals.set k _).countP (!·.isEvaluated) + 1 = p.individuals.countP (!·.isEvaluated)
  rw [List.countP_set hlt, hx]
  show p.individuals.countP (!·.isEvaluated) - 1 + 0 + 1 = _
  omega

theorem pendingCount_eq_zero : p.pendingCount = 0 ↔ p.isEvaluated = true := by
  unfold pendingCount isEvaluated
  rw [List.countP_eq_zero, List.all_eq_true]
  simp

theorem exists_pending (h : 0 < p.pendingCount) :
    ∃ (k : ℕ) (x : Individual), p.individuals[k]? = some x ∧ x.isEvaluated = false := by
  obtain ⟨x, hmem, hx⟩ := List.countP_pos_iff.mp h
  obtain ⟨k, hk⟩ := List.getElem?_of_mem hmem
  exact ⟨k, x, hk, by simpa using hx⟩

theorem evaluate_of_isEvaluated (h : p.isEvaluated = true) : p.evaluate f = .ok p := by
  have hall : p.individuals.mapM (evaluateOne f) = .ok (p.individuals.map id) := by
    exact Except.mapM_eq_ok fun x hx => evaluateOne_of_isEvaluated (List.all_eq_true.mp h x hx)
  unfold evaluate evaluateM
  rw [hall, List.map_id]
  rfl

end Population

namespace Island

variable {i : Island τ}

/-- So many evaluations more. -/
def count (i : Island τ) (done : ℕ) : Island τ := { i with evaluations := i.evaluations + done }

/-- What is left of an evaluation when all individuals have been evaluated. -/
def settle (i : Island τ) (done : ℕ) : Island τ :=
  { i.count done with
    best := match i.population.best? with
      | some candidate => some (Individual.improve i.best candidate)
      | none => i.best }

theorem evaluate_of_isEvaluated (h : i.population.isEvaluated = true) (done : ℕ) :
    (i.count done).evaluate f = .ok (i.settle done) := by
  have hnone : i.population.pendingCount = 0 := Population.pendingCount_eq_zero.mpr h
  have hsame : (i.count done).population.evaluateM f = .ok i.population :=
    Population.evaluate_of_isEvaluated h
  unfold evaluate evaluateM
  rw [hsame]
  show Except.ok _ = Except.ok _
  rw [show (i.count done).population.pendingCount = 0 from hnone]
  rfl

theorem evaluate_put {k done : ℕ} {x : Individual} {e : Evaluation}
    (hk : i.population.individuals[k]? = some x) (hx : x.isEvaluated = false)
    (he : f x.program = .ok e) :
    (count { i with population := i.population.put k (x.withEvaluation e) } (done + 1)).evaluate f =
      (i.count done).evaluate f := by
  have hsame : (i.population.put k (x.withEvaluation e)).evaluateM f = i.population.evaluateM f :=
    Population.evaluate_put hk hx he
  have hcount := Population.pendingCount_put (e := e) hk hx
  unfold evaluate evaluateM count
  dsimp only
  rw [hsame, ← hcount]
  simp only [Nat.add_assoc, Nat.add_comm 1]

theorem exists_evaluation {j : Island τ} {x : Individual} (h : i.evaluate f = .ok j)
    (hmem : x ∈ i.population.individuals) (hx : x.isEvaluated = false) :
    ∃ e, f x.program = .ok e := by
  obtain ⟨p, hp, -⟩ := Except.bind_eq_ok.mp h
  obtain ⟨xs, hxs, -⟩ := Except.bind_eq_ok.mp hp
  obtain ⟨y, hy⟩ := Except.exists_eq_ok_of_mapM hxs x hmem
  rw [Population.evaluateOne_of_pending hx] at hy
  obtain ⟨e, he, -⟩ := Except.bind_eq_ok.mp hy
  exact ⟨e, he⟩

end Island

/-! ## Workers -/

/-- What follows on a pass over the individuals of an island. -/
inductive Pass where
  /-- Nothing: these are the first populations. -/
  | opening
  /-- The island breeds. -/
  | preparing
  /-- This generation is complete. -/
  | closing (generation : ℕ)

inductive Stage where
  /-- The island has been asked for a generation. -/
  | ready
  /-- So many individuals have been evaluated in this pass. -/
  | evaluating (pass : Pass) (done : ℕ)
  /-- These children have been bred, and so many are still to be. -/
  | breeding (children : List Individual) (left : ℕ)
  | finished

structure Worker (τ : Type) where
  island : Island τ
  stage : Stage

/-- An island whose individuals have all been evaluated goes on. -/
def Pass.leave (i : Island τ) : Pass → Worker τ
  | opening => ⟨i, .finished⟩
  | preparing => ⟨i, .breeding [] i.population.size⟩
  | closing generation => ⟨{ i with phase := .evolving generation }, .finished⟩

namespace Worker

variable [RandomSource τ] {w w' : Worker τ} {i j : Island τ}

/-- One move of a worker.  Only the choice of the next individual is free. -/
inductive Moves (f : Fitness) (b : Breeder) : Worker τ → Worker τ → Prop where
  | rest {i : Island τ} :
      i.phase = .converged → Moves f b ⟨i, .ready⟩ ⟨i, .finished⟩
  | prepare {i : Island τ} :
      i.phase ≠ .converged → i.population.individuals ≠ [] → i.population.isEvaluated = false →
        Moves f b ⟨i, .ready⟩ ⟨i, .evaluating .preparing 0⟩
  | begin {i : Island τ} :
      i.phase ≠ .converged → i.population.individuals ≠ [] → i.population.isEvaluated = true →
        Moves f b ⟨i, .ready⟩ ⟨i, .breeding [] i.population.size⟩
  | evaluate {i : Island τ} {pass : Pass} {done k : ℕ} {x : Individual} {e : Evaluation} :
      i.population.individuals[k]? = some x → x.isEvaluated = false → f x.program = .ok e →
        Moves f b ⟨i, .evaluating pass done⟩
          ⟨{ i with population := i.population.put k (x.withEvaluation e) },
            .evaluating pass (done + 1)⟩
  | settle {i : Island τ} {pass : Pass} {done : ℕ} :
      i.population.isEvaluated = true →
        Moves f b ⟨i, .evaluating pass done⟩ (pass.leave (i.settle done))
  | breed {i : Island τ} {children : List Individual} {left : ℕ} {o : Offspring} {stream : τ} :
      ((b.breed i.population.individuals (i.population.generation + 1)).run i.stream).result =
          .ok (o, stream) →
        Moves f b ⟨i, .breeding children (left + 1)⟩
          ⟨{ i with stream }, .breeding (children ++ [o.individual]) left⟩
  | succeed {i : Island τ} {children : List Individual} :
      Moves f b ⟨i, .breeding children 0⟩
        ⟨{ i with population := i.population.succeed children },
          .evaluating (.closing (i.population.generation + 1)) 0⟩

/-- What a worker that goes on alone does after a pass. -/
def afterPass (f : Fitness) (b : Breeder) (i : Island τ) : Pass → Logged (Island τ)
  | .opening => return i
  | .preparing => do return (← i.renew f b).1
  | .closing generation => return { i with phase := .evolving generation }

/-- What it does when all children have been bred. -/
def afterBreeding (f : Fitness) (i : Island τ) (children : List Individual) (stream : τ) :
    Logged (Island τ) := do
  let population := i.population.succeed children
  let j ← ({ i with population, stream }.evaluate f : Except Misuse _)
  return { j with phase := .evolving (i.population.generation + 1) }

/-- All that a worker does if it goes on alone, with its individuals in their order. -/
def finish (f : Fitness) (b : Breeder) : Worker τ → Logged (Island τ)
  | ⟨i, .ready⟩ => do return (← i.evolve f b).1
  | ⟨i, .evaluating pass done⟩ => do
    let i ← ((i.count done).evaluate f : Except Misuse _)
    afterPass f b i pass
  | ⟨i, .breeding children left⟩ => do
    let draw := b.breed i.population.individuals (i.population.generation + 1)
    let (offspring, stream) ← (Draw.times left draw).run i.stream
    afterBreeding f i (children ++ offspring.map (·.individual)) stream
  | ⟨i, .finished⟩ => return i

/-! ### Moves change nothing that comes out -/

theorem result_finish_breeding (i : Island τ) :
    (finish f b ⟨i, .breeding [] i.population.size⟩).result =
      (do return (← i.renew f b).1 : Logged (Island τ)).result := by
  unfold finish Island.renew Island.renewM Breeder.nextGeneration
  simp only [afterBreeding, Logged.result_bind, bind_assoc]
  rfl

theorem result_finish_leave (i : Island τ) (pass : Pass) :
    (finish f b (pass.leave i)).result = (afterPass f b i pass).result := by
  cases pass with
  | opening => rfl
  | preparing => exact result_finish_breeding i
  | closing generation => rfl

theorem result_finish_evaluating {pass : Pass} {done : ℕ}
    (h : (i.count done).evaluate f = .ok j) :
    (finish f b ⟨i, .evaluating pass done⟩).result = (finish f b (pass.leave j)).result := by
  rw [result_finish_leave]
  unfold finish
  dsimp only
  rw [h]
  rfl

theorem Moves.result_finish (h : w.Moves f b w') :
    (w'.finish f b).result = (w.finish f b).result := by
  cases h with
  | rest hphase =>
    unfold finish
    dsimp only
    rw [Island.evolve_of_converged hphase]
    rfl
  | prepare hphase hne hpending =>
    unfold finish
    dsimp only
    rw [Island.evolve_eq hphase hne, if_neg (by rw [hpending]; exact Bool.false_ne_true)]
    simp only [afterPass, Logged.result_bind, bind_assoc]
    rfl
  | begin hphase hne hevaluated =>
    rw [result_finish_breeding]
    show _ = (do return (← Island.evolve f b _).1 : Logged (Island τ)).result
    rw [Island.evolve_eq hphase hne, if_pos hevaluated]
    rfl
  | evaluate hk hx he =>
    unfold finish
    dsimp only
    rw [Island.evaluate_put hk hx he]
  | settle hevaluated =>
    exact (result_finish_evaluating (Island.evaluate_of_isEvaluated hevaluated _)).symm
  | @breed i children left o stream hbreed =>
    unfold finish
    simp only [Draw.times, StateT.run_bind, Logged.result_bind, hbreed, bind_assoc,
      List.append_assoc]
    rfl
  | @succeed i children =>
    show _ = (afterBreeding f i (children ++ []) i.stream).result
    rw [List.append_nil]
    rfl

/-! ### Every worker that can finish alone gets there by moves -/

/-- The individuals that are left are evaluated one after the other, whichever is the first. -/
theorem moves_leave {pass : Pass} {done : ℕ} (h : (i.count done).evaluate f = .ok j) :
    ReflTransGen (Moves f b) ⟨i, .evaluating pass done⟩ (pass.leave j) := by
  induction hn : i.population.pendingCount generalizing i done with
  | zero =>
    have hevaluated := Population.pendingCount_eq_zero.mp hn
    rw [Island.evaluate_of_isEvaluated hevaluated] at h
    cases h
    exact .single (.settle hevaluated)
  | succ n ih =>
    have hpos : 0 < i.population.pendingCount := by
      rw [hn]
      exact Nat.succ_pos n
    obtain ⟨k, x, hk, hx⟩ := Population.exists_pending hpos
    obtain ⟨e, he⟩ := Island.exists_evaluation h (List.mem_of_getElem? hk) hx
    refine .head (.evaluate hk hx he) (ih ?_ ?_)
    · rw [Island.evaluate_put hk hx he]
      exact h
    · have := Population.pendingCount_put (e := e) hk hx
      exact Nat.succ.inj (this.trans hn)

theorem moves_of_breeding {children : List Individual} {left : ℕ}
    (h : (finish f b ⟨i, .breeding children left⟩).result = .ok j) :
    ReflTransGen (Moves f b) ⟨i, .breeding children left⟩ ⟨j, .finished⟩ := by
  induction left generalizing i children with
  | zero =>
    have hmove : Moves f b ⟨i, .breeding children 0⟩ _ := .succeed
    rw [← hmove.result_finish] at h
    obtain ⟨j', hj', h⟩ := Logged.result_bind_eq_ok.mp h
    cases h
    exact .head hmove (moves_leave (Except.mapError_eq_ok.mp hj'))
  | succ left ih =>
    obtain ⟨⟨offspring, stream⟩, hdraw, -⟩ := Logged.result_bind_eq_ok.mp h
    obtain ⟨⟨o, s⟩, hbreed, -⟩ := Logged.result_bind_eq_ok.mp hdraw
    have hmove : Moves f b ⟨i, .breeding children (left + 1)⟩ _ := .breed hbreed
    rw [← hmove.result_finish] at h
    exact .head hmove (ih h)

theorem moves_of_evaluating {pass : Pass} {done : ℕ}
    (h : (finish f b ⟨i, .evaluating pass done⟩).result = .ok j) :
    ReflTransGen (Moves f b) ⟨i, .evaluating pass done⟩ ⟨j, .finished⟩ := by
  obtain ⟨i', hi', -⟩ := Logged.result_bind_eq_ok.mp h
  have hpass := Except.mapError_eq_ok.mp hi'
  rw [result_finish_evaluating hpass] at h
  refine (moves_leave hpass).trans ?_
  cases pass with
  | opening =>
    cases h
    exact .refl
  | preparing => exact moves_of_breeding h
  | closing generation =>
    cases h
    exact .refl

theorem moves_of_ready (h : (finish f b ⟨i, .ready⟩).result = .ok j) :
    ReflTransGen (Moves f b) ⟨i, .ready⟩ ⟨j, .finished⟩ := by
  by_cases hphase : i.phase = .converged
  · have hmove : Moves f b ⟨i, .ready⟩ _ := .rest hphase
    rw [← hmove.result_finish] at h
    cases h
    exact .single hmove
  · obtain ⟨r, hr, -⟩ := Logged.result_bind_eq_ok.mp h
    have hne := Island.ne_nil_of_evolve hphase hr
    cases hevaluated : i.population.isEvaluated with
    | false =>
      have hmove : Moves f b ⟨i, .ready⟩ _ := .prepare hphase hne hevaluated
      rw [← hmove.result_finish] at h
      exact .head hmove (moves_of_evaluating h)
    | true =>
      have hmove : Moves f b ⟨i, .ready⟩ _ := .begin hphase hne hevaluated
      rw [← hmove.result_finish] at h
      exact .head hmove (moves_of_breeding h)

theorem moves_of_finish {w : Worker τ} (h : (w.finish f b).result = .ok j) :
    ReflTransGen (Moves f b) w ⟨j, .finished⟩ := by
  obtain ⟨i, stage⟩ := w
  cases stage with
  | ready => exact moves_of_ready h
  | evaluating pass done => exact moves_of_evaluating h
  | breeding children left => exact moves_of_breeding h
  | finished =>
    cases h
    exact .refl

/-! ### Schedules -/

/-- A move of any of the workers. -/
inductive AnyMoves (f : Fitness) (b : Breeder) : List (Worker τ) → List (Worker τ) → Prop where
  | move {ws : List (Worker τ)} {k : ℕ} {w w' : Worker τ} :
      ws[k]? = some w → w.Moves f b w' → AnyMoves f b ws (ws.set k w')

/-- A schedule that ends with these islands. -/
def Ends (f : Fitness) (b : Breeder) (ws : List (Worker τ)) (islands : List (Island τ)) : Prop :=
  ReflTransGen (AnyMoves f b) ws (islands.map fun i => ⟨i, .finished⟩)

variable {ws ws' : List (Worker τ)} {islands : List (Island τ)}

theorem AnyMoves.results (h : AnyMoves f b ws ws') :
    ws'.map (fun w => (w.finish f b).result) = ws.map fun w => (w.finish f b).result := by
  obtain ⟨hk, hmove⟩ := h
  exact map_set_of_eq hk hmove.result_finish

theorem results_of_schedule (h : ReflTransGen (AnyMoves f b) ws ws') :
    ws'.map (fun w => (w.finish f b).result) = ws.map fun w => (w.finish f b).result := by
  induction h with
  | refl => rfl
  | tail _ hmove ih => exact hmove.results.trans ih

theorem AnyMoves.cons {w : Worker τ} (h : AnyMoves f b ws ws') :
    AnyMoves f b (w :: ws) (w :: ws') := by
  obtain ⟨hk, hmove⟩ := h
  exact .move (k := _ + 1) hk hmove

/-- The islands that a schedule ends with are those that the workers finish with alone. -/
theorem ends_iff : Ends f b ws islands ↔
    ws.map (fun w => (w.finish f b).result) = islands.map .ok := by
  constructor
  · intro h
    rw [← results_of_schedule h, List.map_map]
    rfl
  · intro h
    induction ws generalizing islands with
    | nil =>
      rw [List.map_eq_nil_iff.mp h.symm]
      exact .refl
    | cons w ws ih =>
      cases islands with
      | nil => cases h
      | cons j islands =>
        obtain ⟨hw, hws⟩ := List.cons.inj h
        have hhead := ReflTransGen.lift (p := AnyMoves f b) (· :: ws)
          (fun w w' hmove => .move (k := 0) rfl hmove) _ _ (moves_of_finish hw)
        have htail := ReflTransGen.lift (p := AnyMoves f b) ((⟨j, .finished⟩ : Worker τ) :: ·)
          (fun ws ws' hmove => hmove.cons) _ _ (ih hws)
        exact hhead.trans htail

theorem ends_iff_of_schedule (h : ReflTransGen (AnyMoves f b) ws ws') :
    Ends f b ws islands ↔ Ends f b ws' islands := by
  rw [ends_iff, ends_iff, results_of_schedule h]

end Worker

/-! ## Models -/

namespace IslandModel

open Worker (AnyMoves Ends)

variable {m m' : IslandModel τ} {islands : List (Island τ)} {outcome : Except Error Unit}

/-- The workers of a call that evaluates the first populations. -/
def opening (m : IslandModel τ) : List (Worker τ) :=
  m.islands.map fun i => ⟨i, .evaluating .opening 0⟩

/-- The workers of a call that makes a generation. -/
def ready (m : IslandModel τ) : List (Worker τ) := m.islands.map fun i => ⟨i, .ready⟩

theorem start_eq_ok : m.start f = .ok (m', outcome) ↔
    ∃ islands, m.islands.mapM (Island.evaluate f) = .ok islands ∧
      m' = { m with islands }.gatherBest ∧ outcome = m'.checkBest := by
  unfold start
  rw [Except.bind_eq_ok]
  refine exists_congr fun islands => and_congr_right fun _ => ?_
  constructor
  · intro h
    cases h
    exact ⟨rfl, rfl⟩
  · rintro ⟨rfl, rfl⟩
    rfl

section

variable [RandomSource τ]

theorem ends_opening_iff :
    Ends f b m.opening islands ↔ m.islands.mapM (Island.evaluate f) = .ok islands := by
  rw [Worker.ends_iff, opening, List.map_map, Except.mapM_eq_ok_iff]
  refine Except.map_eq_map_ok_congr fun i _ j => ?_
  show (Worker.finish f b ⟨i, .evaluating .opening 0⟩).result = .ok j ↔ i.evaluate f = .ok j
  constructor
  · intro h
    obtain ⟨j', hj', h⟩ := Logged.result_bind_eq_ok.mp h
    cases h
    exact Except.mapError_eq_ok.mp hj'
  · intro h
    rw [Worker.result_finish_evaluating h]
    rfl

theorem ends_ready_iff : Ends f b m.ready islands ↔
    m.islands.mapM (fun i => (·.1) <$> (i.evolve f b).result) = .ok islands := by
  rw [Worker.ends_iff, ready, List.map_map, Except.mapM_eq_ok_iff]
  refine Except.map_eq_map_ok_congr fun i _ j => ?_
  show (Worker.finish f b ⟨i, .ready⟩).result = .ok j ↔ _
  rw [Except.map_eq_ok]
  refine Logged.result_bind_eq_ok.trans (exists_congr fun r => and_congr_right fun _ => ?_)
  exact ⟨Except.ok.inj, congrArg Except.ok⟩

end

variable [SeededSource τ]

/-- No island fails if none is empty. -/
theorem step_eq_ok (hne : ∀ i ∈ m.islands, i.population.individuals ≠ []) :
    m.step f b = .ok (m', outcome) ↔
      ∃ islands, m.islands.mapM (fun i => (·.1) <$> (i.evolve f b).result) = .ok islands ∧
        m' = { m with islands, generation := m.generation + 1 }.gatherBest ∧
        outcome = m'.checkBest := by
  unfold step
  split
  · next islands hislands =>
    constructor
    · intro h
      cases h
      exact ⟨islands, hislands, rfl, rfl⟩
    · rintro ⟨islands', hislands', rfl, rfl⟩
      cases hislands.symm.trans hislands'
      rfl
  · next e he => exact absurd he (Island.mapM_evolve_ne_error hne e)
  · next u hu =>
    rw [hu]
    constructor
    · nofun
    · rintro ⟨islands, hislands, -⟩
      cases hislands

/-- At every point of a schedule: it can be brought to its end exactly if the call succeeds that
takes the islands in their order and their individuals slot by slot, and then the end is the
model which that call returns, with the same outcome. -/
theorem any_schedule_agrees (f : Fitness) (b : Breeder) (m m' : IslandModel τ)
    (outcome : Except Error Unit) :
    (∀ ws, ReflTransGen (AnyMoves f b) m.opening ws →
      (m.start f = .ok (m', outcome) ↔
        ∃ islands, Ends f b ws islands ∧
          m' = { m with islands }.gatherBest ∧ outcome = m'.checkBest)) ∧
    ((∀ i ∈ m.islands, i.population.individuals ≠ []) →
      ∀ ws, ReflTransGen (AnyMoves f b) m.ready ws →
        (m.step f b = .ok (m', outcome) ↔
          ∃ islands, Ends f b ws islands ∧
            m' = { m with islands, generation := m.generation + 1 }.gatherBest ∧
            outcome = m'.checkBest)) := by
  refine ⟨fun ws hws => ?_, fun hne ws hws => ?_⟩
  · rw [start_eq_ok]
    refine exists_congr fun islands => and_congr_left fun _ => ?_
    rw [← ends_opening_iff (b := b), Worker.ends_iff_of_schedule hws]
  · rw [step_eq_ok hne]
    refine exists_congr fun islands => and_congr_left fun _ => ?_
    rw [← ends_ready_iff, Worker.ends_iff_of_schedule hws]

/-- On two islands of shrubs the second moves first, and the generation is the same. -/
theorem any_schedule_agrees_shrubs : ∃ (m₀ m₁ m₂ : IslandModel ChaCha.Stream)
    (is₁ is₂ : List (Island ChaCha.Stream)) (i : Island ChaCha.Stream)
    (f : Fitness) (outcome : Except Error Unit),
    m₁.islands[1]? = some i ∧ m₁.step f shrubs = .ok (m₂, outcome) ∧
    Ends f shrubs m₀.opening is₁ ∧ m₁ = { m₀ with islands := is₁ }.gatherBest ∧
    Ends f shrubs (m₁.ready.set 1 ⟨i, .breeding [] 3⟩) is₂ ∧
    m₂ = { m₁ with islands := is₂, generation := m₁.generation + 1 }.gatherBest := by
  obtain ⟨m₂, h⟩ := Except.exists_eq_ok
    (by decide +kernel : shrubRun.toOption.isSome = true)
  obtain ⟨⟨m₀, s⟩, hcreate, h⟩ := Except.bind_eq_ok.mp h
  obtain ⟨⟨m₁, outcome₁⟩, hstart, h⟩ := Except.bind_eq_ok.mp h
  obtain ⟨⟨m₂, outcome₂⟩, hstep, h⟩ := Except.bind_eq_ok.mp h
  cases h
  obtain ⟨htracks, -⟩ := (ensures_create_fresh _ ⟨_, _, hcreate⟩).start hstart
  have hislands : ∀ i ∈ m₁.islands, i.population.individuals ≠ [] := by
    intro i hi
    obtain ⟨k, hk⟩ := List.getElem?_of_mem hi
    exact (htracks.islands k i hk).ne_nil (by decide)
  have hlt : 1 < m₁.islands.length := by
    rw [htracks.length]
    decide
  have hi : m₁.islands[1]? = some m₁.islands[1] := List.getElem?_eq_getElem hlt
  have hsecond := htracks.islands 1 _ hi
  have hne := hislands _ (List.getElem_mem hlt)
  have hmove := Worker.Moves.begin (f := fun _ => .ok ⟨0.0, 0.0⟩) (b := shrubs) hsecond.phase hne
    hsecond.evaluated
  rw [hsecond.size] at hmove
  have hready : m₁.ready[1]? = some ⟨m₁.islands[1], .ready⟩ := by
    rw [ready, List.getElem?_map, hi]
    rfl
  obtain ⟨is₁, hends₁, hm₁, -⟩ :=
    ((any_schedule_agrees _ shrubs _ _ _).1 _ .refl).mp hstart
  obtain ⟨is₂, hends₂, hm₂, -⟩ :=
    ((any_schedule_agrees _ _ _ _ _).2 hislands _ (.single (.move hready hmove))).mp hstep
  exact ⟨m₀, m₁, m₂, is₁, is₂, _, _, _, hi, hstep, hends₁, hm₁, hends₂, hm₂⟩

end IslandModel

end SymbolicRegression
