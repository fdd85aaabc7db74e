import SymbolicRegression.Evolution.Polishing
import SymbolicRegression.Proofs.Evolution.Caching
import SymbolicRegression.Proofs.Program.Constants

/-!
Polishing moves constants and nothing else, and it never makes a program worse.

A round draws candidates around its incumbent, evaluates them, and goes on with the best of them
if it is strictly better.  `Polishing.accept` is that last step, and everything about a polishing
follows from what it ensures: its result is the incumbent or better than it, and no candidate is
better than the result.  To speak of the candidates, `Polishing.watch` polishes and keeps them;
they are all it adds (`Polishing.fst_watch`).

The constants may leave the range they were drawn from; a move that would make one infinite is not
made.
-/

namespace SymbolicRegression

open Program

variable {P : Program → Prop} {Q : Failure → Prop} {f : Fitness} {size : ℕ}

/-! ## Evaluations -/

/-- The fitness of every program of a kind, if it fails, fails within bounds. -/
def Fitness.ConfinedOn (f : Fitness) (P : Program → Prop) (Q : Failure → Prop) : Prop :=
  ∀ p, P p → Confines (f p) Q

theorem Population.Holds.confines_evaluate {p : Population} (h : p.Holds size P)
    (hf : f.ConfinedOn P Q) : Confines (p.evaluate f) Q := by
  refine (Confines.of_mapM fun i hi => ?_).bind' fun _ => .of_pure
  unfold evaluateOne
  split
  · exact .of_pure
  · exact (hf i.program (h.programs i hi)).bind' fun _ => .of_pure

/-- What is not evaluated yet is scored, with the program and the birth it has. -/
theorem Population.ensures_evaluate_new {is : List Individual} {birth : ℕ}
    (hnew : ∀ i ∈ is, i.isEvaluated = false ∧ i.birth = birth) (hP : ∀ i ∈ is, P i.program) :
    Ensures ((ofIndividuals is).evaluate f) fun q =>
      q.individuals.length = is.length ∧
        ∀ j ∈ q.individuals, j.Scored f ∧ j.birth = birth ∧ P j.program := by
  have hone (i : Individual) (hi : i ∈ is) :
      Ensures (evaluateOne f i) fun j => j.Scored f ∧ j.birth = birth ∧ P j.program := by
    intro j hj
    obtain ⟨hscored, hbirth⟩ := scored_of_evaluateOne (hnew i hi).1 hj
    exact ⟨hscored, hbirth.trans (hnew i hi).2, ensures_evaluateOne f (hP i hi) j hj⟩
  exact (Ensures.of_mapM hone).bind fun js hjs => .of_pure hjs

namespace Variation

variable {σ : Type} [RandomSource σ]

theorem ensures_jitter (sigma c : Float) :
    Ensures (jitter sigma c : Draw σ Float) fun d => c.isFinite = true → d.isFinite = true := by
  refine Ensures.bind' fun z => .of_pure fun hc => ?_
  split
  · next hshifted => exact hshifted
  · exact hc

theorem confines_jitter (sigma c : Float) : Confines (jitter sigma c : Draw σ Float) Q :=
  Draw.confines_normal.bind' fun _ => .of_pure

/-- A program like the first one up to its constants, which are finite if they were. -/
structure Retuned (p q : Program) : Prop where
  alike : q.Alike p
  finite : p.IsFinite → q.IsFinite

theorem Retuned.refl (p : Program) : Retuned p p := ⟨.refl p, id⟩

theorem Retuned.trans {p q r : Program} (h : Retuned p q) (h' : Retuned q r) : Retuned p r :=
  ⟨h'.alike.trans h.alike, h'.finite ∘ h.finite⟩

theorem ensures_constants (sigma : Float) (p : Program) :
    Ensures (constants sigma p : Draw σ Program) (Retuned p) := by
  refine (ensures_mapConstantsM (ensures_jitter sigma) p).mono fun q hq => ⟨hq.1, ?_⟩
  intro hp d hd
  obtain ⟨k, hk⟩ := List.getElem?_of_mem hd
  obtain ⟨hlt, rfl⟩ := List.getElem?_eq_some_iff.mp hk
  have hlt' : k < p.constants.length := hq.2.length_eq ▸ hlt
  exact hq.2.get hlt' hlt (hp _ (List.getElem_mem hlt'))

end Variation

namespace Polishing

open Variation (Retuned)

variable {σ : Type} [RandomSource σ] {incumbent : Individual}

/-! ## One round -/

/-- The candidates of one round, evaluated. -/
def candidates (f : Fitness) (size : ℕ) (incumbent : Individual) : Draw σ Population := do
  let drawn ← Draw.times size (candidate incumbent)
  ((Population.ofIndividuals drawn).evaluate f : Except Misuse _)

/-- The incumbent of the next round. -/
def accept (round : ℕ) (incumbent : Individual) (found : Option Individual) :
    LoggedDraw σ Individual :=
  match found with
  | none => return incumbent
  | some c =>
    if c.isBetterThan incumbent then do
      Logged.write [moveRecord round incumbent c]
      return c
    else return incumbent

theorem challenger_eq :
    (challenger f size incumbent : Draw σ _) = (·.best?) <$> candidates f size incumbent := by
  unfold challenger candidates
  rw [map_bind]
  rfl

omit [RandomSource σ] in
/-- What is made of the value of a draw may be made of it outside. -/
theorem liftM_map {α β : Type} (g : α → β) (d : Draw σ α) :
    (liftM (g <$> d) : LoggedDraw σ β) = g <$> (liftM d : LoggedDraw σ α) := by
  funext s
  have hrun : (g <$> d).run s = (fun r => (g r.1, r.2)) <$> d.run s := StateT.run_map g d s
  show (⟨((g <$> d).run s).mapError _, []⟩ : Logged _) =
    (fun r => (g r.1, r.2)) <$> (⟨(d.run s).mapError _, []⟩ : Logged _)
  rw [hrun]
  cases d.run s <;> rfl

theorem rounds_succ (round n : ℕ) :
    (rounds f size round (n + 1) incumbent : LoggedDraw σ Individual) = (do
      let p ← (candidates f size incumbent : Draw σ _)
      let next ← accept round incumbent p.best?
      rounds f size (round + 1) n next) := by
  rw [rounds, challenger_eq, liftM_map, bind_map_left]
  refine bind_congr fun p => ?_
  unfold accept
  cases p.best? with
  | none => rw [pure_bind]
  | some c =>
    dsimp only
    split
    · rw [bind_assoc]
      simp only [pure_bind]
    · rw [pure_bind]

variable (incumbent) in
theorem ensures_candidate : Ensures (candidate incumbent : Draw σ Individual) fun c =>
    ∃ q, Retuned incumbent.program q ∧ c = .ofProgram q 0 :=
  (Variation.ensures_constants _ _).bind fun q hq => .of_pure ⟨q, hq, rfl⟩

variable (size incumbent) in
theorem ensures_candidates : Ensures (candidates f size incumbent : Draw σ Population) fun p =>
    p.individuals.length = size ∧
      ∀ c ∈ p.individuals, c.Scored f ∧ c.birth = 0 ∧ Retuned incumbent.program c.program := by
  refine (Draw.ensures_times (ensures_candidate incumbent) size).bind fun drawn hdrawn =>
    Ensures.of_except ?_
  have hnew : ∀ c ∈ drawn, c.isEvaluated = false ∧ c.birth = 0 := by
    intro c hc
    obtain ⟨q, -, rfl⟩ := hdrawn.2 c hc
    exact ⟨rfl, rfl⟩
  have hretuned : ∀ c ∈ drawn, Retuned incumbent.program c.program := by
    intro c hc
    obtain ⟨q, hq, rfl⟩ := hdrawn.2 c hc
    exact hq
  exact (Population.ensures_evaluate_new (f := f) hnew hretuned).mono fun p hp =>
    ⟨hp.1.trans hdrawn.1, hp.2⟩

omit [RandomSource σ] in
/-- The next incumbent is the old one or a better candidate, and no candidate is better. -/
theorem ensures_accept {l : List Individual} {found : Option Individual} (round : ℕ)
    (h : Individual.Leads found l) :
    Ensures (accept round incumbent found : LoggedDraw σ Individual) fun next =>
      (next = incumbent ∨ next ∈ l ∧ next.compare incumbent = .lt) ∧
        ∀ c ∈ l, (next.compare c).isLE := by
  unfold accept
  cases found with
  | none =>
    obtain rfl : l = [] := h
    exact .of_pure ⟨.inl rfl, nofun⟩
  | some b =>
    have hfirst : Individual.FirstBest b l := h
    dsimp only
    split
    · next hbetter =>
      exact Ensures.bind' fun _ =>
        .of_pure ⟨.inr ⟨hfirst.mem, Individual.isBetterThan_iff.mp hbetter⟩, hfirst.isLE⟩
    · next hbetter =>
      refine .of_pure ⟨.inl rfl, fun c hc => ?_⟩
      have hle : (incumbent.compare b).isLE :=
        Individual.isLE_of_not_lt (Individual.isBetterThan_iff.not.mp hbetter)
      exact Std.TransCmp.isLE_trans hle (hfirst.isLE c hc)

theorem confines_candidates (hf : f.ConfinedOn (·.Alike incumbent.program) Q) :
    Confines (candidates f size incumbent : Draw σ Population) Q := by
  have hdraw : Confines (candidate incumbent : Draw σ Individual) Q :=
    (confines_mapConstantsM (fun c => Variation.confines_jitter _ c) _).bind' fun _ => .of_pure
  refine (Confines.of_times hdraw size).bind
    (Draw.ensures_times (ensures_candidate incumbent) size) fun drawn hdrawn => ?_
  have hall : (Population.ofIndividuals drawn).Holds size (·.Alike incumbent.program) := by
    refine ⟨hdrawn.1, fun c hc => ?_⟩
    obtain ⟨q, hq, rfl⟩ := hdrawn.2 c hc
    exact hq.alike
  exact Confines.of_lift (hall.confines_evaluate hf)

omit [RandomSource σ] in
theorem confines_accept (round : ℕ) (found : Option Individual) :
    Confines (accept round incumbent found : LoggedDraw σ Individual) Q := by
  unfold accept
  cases found with
  | none => exact .of_pure
  | some c =>
    dsimp only
    split
    · exact (Confines.of_lift Logged.confines_write).bind' fun _ => .of_pure
    · exact .of_pure

/-! ## All rounds, with their candidates -/

def watchRounds (f : Fitness) (size round : ℕ) :
    ℕ → Individual → LoggedDraw σ (Individual × List (List Individual))
  | 0, incumbent => return (incumbent, [])
  | n + 1, incumbent => do
    let p ← (candidates f size incumbent : Draw σ _)
    let next ← accept round incumbent p.best?
    let (out, seen) ← watchRounds f size (round + 1) n next
    return (out, p.individuals :: seen)

/-- Polishes, and keeps the evaluated candidates of every round. -/
def watch (f : Fitness) (size count : ℕ) (best : Individual) :
    LoggedDraw σ (Individual × List (List Individual)) :=
  if best.program.constants.isEmpty then return (best, []) else watchRounds f size 0 count best

theorem fst_watchRounds (round n : ℕ) :
    Prod.fst <$> (watchRounds f size round n incumbent : LoggedDraw σ _) =
      rounds f size round n incumbent := by
  induction n generalizing round incumbent with
  | zero => rw [watchRounds, map_pure, rounds]
  | succ n ih =>
    rw [rounds_succ, watchRounds]
    simp only [map_bind, bind_pure_comp, Functor.map_map]
    simp only [ih]

theorem fst_watch (count : ℕ) :
    Prod.fst <$> (watch f size count incumbent : LoggedDraw σ _) =
      polish f size count incumbent := by
  unfold watch polish
  split
  · rw [map_pure]
  · exact fst_watchRounds 0 count

/-- What a polishing has made of an individual, and what it has seen on the way. -/
structure Refines (f : Fitness) (size : ℕ) (incumbent out : Individual)
    (seen : List (List Individual)) : Prop where
  retuned : Retuned incumbent.program out.program
  scored : incumbent.Scored f → out.Scored f
  birth : out.birth ≤ incumbent.birth
  better : out = incumbent ∨ out.compare incumbent = .lt
  sizes : ∀ l ∈ seen, l.length = size
  candidates : ∀ l ∈ seen, ∀ c ∈ l,
    c.Scored f ∧ c.birth = 0 ∧ Retuned incumbent.program c.program ∧ (out.compare c).isLE

theorem Refines.refl (incumbent : Individual) : Refines f size incumbent incumbent [] :=
  ⟨.refl _, id, le_rfl, .inl rfl, nofun, nofun⟩

/-- A round in front of others: what is seen in it is not better than its result, and the result
of all is not worse. -/
theorem Refines.round {next out : Individual} {l : List Individual} {seen : List (List Individual)}
    (hsize : l.length = size)
    (hl : ∀ c ∈ l, c.Scored f ∧ c.birth = 0 ∧ Retuned incumbent.program c.program)
    (hnext : next = incumbent ∨ next ∈ l ∧ next.compare incumbent = .lt)
    (hbeaten : ∀ c ∈ l, (next.compare c).isLE) (h : Refines f size next out seen) :
    Refines f size incumbent out (l :: seen) := by
  have hmoved : Retuned incumbent.program next.program ∧ (incumbent.Scored f → next.Scored f) ∧
      next.birth ≤ incumbent.birth ∧ (next = incumbent ∨ next.compare incumbent = .lt) := by
    rcases hnext with rfl | ⟨hmem, hlt⟩
    · exact ⟨.refl _, id, le_rfl, .inl rfl⟩
    · obtain ⟨hscored, hbirth, hretuned⟩ := hl next hmem
      exact ⟨hretuned, fun _ => hscored, hbirth.trans_le (Nat.zero_le _), .inr hlt⟩
  have hle : (out.compare next).isLE := by
    rcases h.better with rfl | hlt
    · rw [Individual.compare_self]
      rfl
    · rw [hlt]
      rfl
  refine ⟨hmoved.1.trans h.retuned, h.scored ∘ hmoved.2.1, h.birth.trans hmoved.2.2.1, ?_, ?_, ?_⟩
  · rcases hmoved.2.2.2 with rfl | hlt
    · exact h.better
    · exact .inr (Std.TransCmp.lt_of_isLE_of_lt hle hlt)
  · exact List.forall_mem_cons.mpr ⟨hsize, h.sizes⟩
  · refine List.forall_mem_cons.mpr ⟨fun c hc => ?_, fun l' hl' c hc => ?_⟩
    · obtain ⟨hscored, hbirth, hretuned⟩ := hl c hc
      exact ⟨hscored, hbirth, hretuned, Std.TransCmp.isLE_trans hle (hbeaten c hc)⟩
    · obtain ⟨hscored, hbirth, hretuned, hc⟩ := h.candidates l' hl' c hc
      exact ⟨hscored, hbirth, hmoved.1.trans hretuned, hc⟩

theorem ensures_watchRounds (round n : ℕ) :
    Ensures (watchRounds f size round n incumbent : LoggedDraw σ _) fun r =>
      Refines f size incumbent r.1 r.2 ∧ r.2.length = n := by
  induction n generalizing round incumbent with
  | zero => exact .of_pure ⟨.refl incumbent, rfl⟩
  | succ n ih =>
    refine (Ensures.of_draw (ensures_candidates size incumbent)).bind fun p hp => ?_
    have hleads : Individual.Leads p.best? p.individuals :=
      Population.leads_best? (List.all_eq_true.mpr fun c hc => (hp.2 c hc).1.isEvaluated)
    refine (ensures_accept round hleads).bind fun next hnext => ?_
    exact (ih (round + 1)).bind fun r hr =>
      .of_pure ⟨.round hp.1 hp.2 hnext.1 hnext.2 hr.1, congrArg (· + 1) hr.2⟩

variable (f size incumbent) in
theorem ensures_watch (count : ℕ) : Ensures (watch f size count incumbent : LoggedDraw σ _) fun r =>
    Refines f size incumbent r.1 r.2 ∧
      r.2.length = if incumbent.program.constants.isEmpty then 0 else count := by
  unfold watch
  split
  · exact .of_pure ⟨.refl incumbent, rfl⟩
  · exact ensures_watchRounds 0 count

theorem confines_watchRounds (hf : f.ConfinedOn (·.Alike incumbent.program) Q) (round n : ℕ) :
    Confines (watchRounds f size round n incumbent : LoggedDraw σ _) Q := by
  induction n generalizing round incumbent with
  | zero => exact .of_pure
  | succ n ih =>
    refine (Confines.of_draw (confines_candidates hf)).bind
      (Ensures.of_draw (ensures_candidates size incumbent)) fun p hp => ?_
    have hleads : Individual.Leads p.best? p.individuals :=
      Population.leads_best? (List.all_eq_true.mpr fun c hc => (hp.2 c hc).1.isEvaluated)
    refine (confines_accept round _).bind (ensures_accept round hleads) fun next hnext => ?_
    have halike : next.program.Alike incumbent.program := by
      rcases hnext.1 with rfl | ⟨hmem, -⟩
      · exact .refl _
      · exact (hp.2 next hmem).2.2.alike
    exact (ih (fun q hq => hf q (hq.trans halike)) (round + 1)).bind' fun _ => .of_pure

theorem confines_watch (hf : f.ConfinedOn (·.Alike incumbent.program) Q) (count : ℕ) :
    Confines (watch f size count incumbent : LoggedDraw σ _) Q := by
  unfold watch
  split
  · exact .of_pure
  · exact confines_watchRounds hf 0 count

/-! ## What fits need of it -/

/-- A polishing returns what the one that is watched returns. -/
theorem ensures_polish (count : ℕ) :
    Ensures (polish f size count incumbent : LoggedDraw σ Individual) fun out =>
      ∃ seen, Refines f size incumbent out seen := by
  rw [← fst_watch, ← bind_pure_comp]
  exact (ensures_watch f size incumbent count).bind fun r hr => .of_pure ⟨r.2, hr.1⟩

theorem confines_polish (hf : f.ConfinedOn (·.Alike incumbent.program) Q) (count : ℕ) :
    Confines (polish f size count incumbent : LoggedDraw σ Individual) Q := by
  rw [← fst_watch, ← bind_pure_comp]
  exact (confines_watch hf count).bind' fun _ => .of_pure

/-! ## Whole polishings -/

/-- Where the fitness scores every program like the incumbent's, a polishing ends on every
stream. -/
theorem exists_run_watch (hf : ∀ p, p.Alike incumbent.program → ∃ e, f p = .ok e) (size count : ℕ)
    (s : σ) : ∃ r, ((watch f size count incumbent).run s).result = .ok r := by
  have hnever : f.ConfinedOn (·.Alike incumbent.program) Failure.Never := by
    intro p hp
    obtain ⟨e, he⟩ := hf p hp
    exact .of_ok he
  cases hr : ((watch f size count incumbent).run s).result with
  | ok r => exact ⟨r, rfl⟩
  | error e => exact (confines_watch hnever count e ⟨s, hr⟩).elim

theorem result_polish {size count : ℕ} {s s' : σ} {out : Individual}
    {seen : List (List Individual)}
    (h : ((watch f size count incumbent).run s).result = .ok ((out, seen), s')) :
    ((polish f size count incumbent).run s).result = .ok (out, s') := by
  rw [← fst_watch, StateT.run_map, Logged.result_map, h]
  rfl

/-- At one size it is the fitness that makes an individual better. -/
theorem rank_lt_of_compare {a b : Individual} (hsize : a.program.size = b.program.size)
    (h : a.compare b = .lt) : Binary64.rank a.fitnessOrWorst b.fitnessOrWorst = .lt := by
  unfold Individual.compare at h
  rw [hsize, compare_eq_iff_eq.mpr rfl] at h
  cases hr : Binary64.rank a.fitnessOrWorst b.fitnessOrWorst with
  | lt => rfl
  | eq =>
    rw [hr] at h
    contradiction
  | gt =>
    rw [hr] at h
    contradiction

/-- From an individual with its own evaluation, and on every stream, polishing returns one with
its own evaluation whose program is the same up to constants, finite if they were.  It is the
individual itself or has a strictly lower fitness, and no candidate of any round is better. -/
theorem polish_only_improves (hscored : incumbent.Scored f)
    (hf : ∀ p, p.Alike incumbent.program → ∃ e, f p = .ok e) (size count : ℕ) (s : σ) :
    ∃ (out : Individual) (seen : List (List Individual)) (s' : σ),
      ((watch f size count incumbent).run s).result = .ok ((out, seen), s') ∧
      ((polish f size count incumbent).run s).result = .ok (out, s') ∧
      out.program.Alike incumbent.program ∧
      out.program.positions = incumbent.program.positions ∧
      out.program.size = incumbent.program.size ∧
      out.program.height = incumbent.program.height ∧
      (incumbent.program.IsFinite → out.program.IsFinite) ∧
      out.Scored f ∧
      (out = incumbent ∨
        Binary64.rank out.fitnessOrWorst incumbent.fitnessOrWorst = .lt ∧
        (out.fitnessOrWorst.isNaN = false → incumbent.fitnessOrWorst.isNaN = false →
          out.fitnessOrWorst < incumbent.fitnessOrWorst ∨
          out.fitnessOrWorst = -0.0 ∧ incumbent.fitnessOrWorst = 0.0)) ∧
      seen.length = (if incumbent.program.constants.isEmpty then 0 else count) ∧
      ∀ l ∈ seen, l.length = size ∧ ∀ c ∈ l,
        c.Scored f ∧ c.program.Alike incumbent.program ∧ c.isBetterThan out = false := by
  obtain ⟨⟨⟨out, seen⟩, s'⟩, hrun⟩ := exists_run_watch hf size count s
  obtain ⟨h, hlength⟩ := ensures_watch f size incumbent count (out, seen) ⟨s, s', hrun⟩
  have halike := h.retuned.alike
  refine ⟨out, seen, s', hrun, result_polish hrun, halike, halike.positions, halike.size,
    halike.height, h.retuned.finite, h.scored hscored, ?_, hlength, fun l hl => ?_⟩
  · refine h.better.imp_right fun hlt => ?_
    have hrank := rank_lt_of_compare halike.size hlt
    exact ⟨hrank, fun hout hin => Binary64.lt_or_zeros_of_rank hout hin hrank⟩
  · refine ⟨h.sizes l hl, fun c hc => ?_⟩
    obtain ⟨hc, -, hretuned, hle⟩ := h.candidates l hl c hc
    refine ⟨hc, hretuned.alike, Bool.eq_false_iff.mpr fun hbetter => ?_⟩
    have hlt := Individual.isBetterThan_iff.mp hbetter
    have hself := Std.TransCmp.lt_of_lt_of_isLE hlt hle
    rw [Individual.compare_self] at hself
    contradiction

/-- How far the constants of a program are from three, all together. -/
def farFromThree : Fitness := fun p =>
  let far := Scalar.sum (p.constants.map fun c => (c - 3.0).abs)
  .ok ⟨far, far⟩

/-- One plus the first feature, with its evaluation. -/
def oneAbove : Individual :=
  { program := .call .add [.feature 0, .constant 1.0], fitness := some 2.0, loss := some 2.0,
    birth := 4 }

/-- Two rounds of three candidates bring a constant nearer to three. -/
theorem polish_only_improves_oneAbove : oneAbove.Scored farFromThree ∧
    (∀ p, p.Alike oneAbove.program → ∃ e, farFromThree p = .ok e) ∧
    ∃ (out : Individual) (seen : List (List Individual)) (s' : ChaCha.Stream),
      ((polish farFromThree 3 2 oneAbove).run (ChaCha.Stream.ofSeedWord 1)).result =
        .ok (out, s') ∧
      out.fitnessOrWorst < 2.0 ∧ out.program.positions = oneAbove.program.positions ∧
      out.program.IsFinite ∧ out.Scored farFromThree ∧
      seen.length = 2 ∧ ∀ l ∈ seen, l.length = 3 ∧ ∀ c ∈ l, c.isBetterThan out = false := by
  have hscored : oneAbove.Scored farFromThree := by
    refine ⟨⟨2.0, 2.0⟩, ?_, rfl, rfl⟩
    have hfar : Scalar.sum (oneAbove.program.constants.map fun c => (c - 3.0).abs) = 2.0 := by
      decide +kernel
    unfold farFromThree
    rw [hfar]
  have hf (p : Program) (_ : p.Alike oneAbove.program) : ∃ e, farFromThree p = .ok e := ⟨_, rfl⟩
  refine ⟨hscored, hf, ?_⟩
  obtain ⟨out, seen, s', -, hrun, -, hpositions, -, -, hfinite, hout, -, hlength, hseen⟩ :=
    polish_only_improves hscored hf 3 2 (ChaCha.Stream.ofSeedWord 1)
  have hlow : (((polish farFromThree 3 2 oneAbove).run
      (ChaCha.Stream.ofSeedWord 1)).result.toOption.any fun r => r.1.fitnessOrWorst < 2.0) =
        true := by
    decide +kernel
  rw [hrun] at hlow
  have hconstants : oneAbove.program.constants.all Float.isFinite = true := by decide +kernel
  exact ⟨out, seen, s', hrun, of_decide_eq_true hlow, hpositions,
    hfinite (List.all_eq_true.mp hconstants), hout, hlength,
    fun l hl => ⟨(hseen l hl).1, fun c hc => ((hseen l hl).2 c hc).2.2⟩⟩

end Polishing

end SymbolicRegression
