import SymbolicRegression.Proofs.Evolution.Scheduling

/-!
Islands do not interfere.

`Island.alone` is an island that is made and moves by itself; it knows of no model.  A run of a
model ends well exactly if each of its islands does alone, and then these are its islands: the
master stream gives nothing but the seeds, in the order of the islands, and no step looks from one
island at another.  So a model with more islands from the same master stream has those of the
smaller one in front, and the best of all it knows is at least as good.
-/

namespace SymbolicRegression

open Individual (FirstBest)

variable {τ : Type} {f : Fitness} {b : Breeder} {size count : ℕ}

theorem take_zipIdx {α : Type} (l : List α) (n : ℕ) : l.zipIdx.take n = (l.take n).zipIdx := by
  refine List.ext_getElem? fun j => ?_
  rw [List.getElem?_take, List.getElem?_zipIdx, List.getElem?_zipIdx, List.getElem?_take]
  split
  · rfl
  · rfl

/-! ## Draws -/

namespace Draw

variable {σ α : Type} {d : Draw σ α} {n k : ℕ} {s s' : σ} {as : List α}

theorem times_succ_eq_ok : (times (n + 1) d).run s = .ok (as, s') ↔
    ∃ a t as', d.run s = .ok (a, t) ∧ (times n d).run t = .ok (as', s') ∧ as = a :: as' := by
  rw [times, run_bind_eq_ok]
  refine exists_congr fun a => exists_congr fun t => ?_
  rw [run_bind_eq_ok]
  constructor
  · intro h
    obtain ⟨ha, as', t', has, hpure⟩ := h
    cases hpure
    exact ⟨as', ha, has, rfl⟩
  · intro h
    obtain ⟨as', ha, has, rfl⟩ := h
    exact ⟨ha, as', s', has, rfl⟩

/-- Fewer draws from the same stream are the first ones. -/
theorem times_take (h : (times (n + k) d).run s = .ok (as, s')) :
    ∃ t, (times n d).run s = .ok (as.take n, t) := by
  induction n generalizing s as with
  | zero => exact ⟨s, rfl⟩
  | succ n ih =>
    rw [Nat.succ_add] at h
    obtain ⟨a, s₁, as', ha, has, rfl⟩ := times_succ_eq_ok.mp h
    obtain ⟨t, ht⟩ := ih has
    exact ⟨t, times_succ_eq_ok.mpr ⟨a, s₁, as'.take n, ha, ht, rfl⟩⟩

end Draw

/-! ## One island -/

namespace Island

section

variable [RandomSource τ] {i : Island τ} {seen : List Individual}

/-- The island one generation on.  One that cannot evolve stays as it is. -/
def advance (f : Fitness) (b : Breeder) (i : Island τ) : Except Misuse (Island τ) :=
  match (i.evolve f b).result with
  | .ok (i, _) => .ok i
  | .error (.error _) => .ok i
  | .error (.misuse u) => .error u

/-- The island after its first evaluation and so many generations. -/
def after (f : Fitness) (b : Breeder) (i : Island τ) : ℕ → Except Misuse (Island τ)
  | 0 => i.evaluate f
  | generations + 1 => i.after f b generations >>= advance f b

theorem advance_eq_ok (h : (i.evolve f b).Faultless) {j : Island τ} :
    i.advance f b = .ok j ↔ (·.1) <$> (i.evolve f b).result = .ok j := by
  unfold advance
  split
  · next hr =>
    rw [hr, Except.map_eq_ok]
    exact ⟨fun hj => ⟨_, rfl, Except.ok.inj hj⟩, fun ⟨_, hr, hj⟩ => by cases hr; rw [← hj]⟩
  · next e he => exact absurd he (h e)
  · next u hu =>
    rw [hu]
    exact ⟨nofun, nofun⟩

theorem advance_of_nil (hphase : i.phase ≠ .converged) (hnil : i.population.individuals = []) :
    i.advance f b = .ok i := by
  unfold advance
  rw [evolve_of_nil hphase hnil]

end

/-- An island that is made from its seed, under its index, and goes so many generations by
itself. -/
def alone [SeededSource τ] (size : ℕ) (g : Generator) (f : Fitness) (b : Breeder)
    (generations : ℕ) (seed : List UInt8) (index : ℕ) : Except Misuse (Island τ) :=
  create index size g (SeededSource.ofSeed seed) >>= fun i => i.after f b generations

end Island

/-! ## Steps of a model -/

namespace IslandModel

variable {m m' : IslandModel τ} {past : List (List (List Individual))} {is : List (Island τ)}

/-- Islands have one size, so all of them have individuals or none has. -/
theorem Tracks.forall_ne_nil_or_forall_nil (h : m.Tracks count size past) :
    (∀ i ∈ m.islands, i.population.individuals ≠ []) ∨
      m.islands ≠ [] ∧ ∀ i ∈ m.islands, i.population.individuals = [] := by
  have hsize : ∀ i ∈ m.islands, i.population.individuals.length = size := by
    intro i hi
    obtain ⟨k, hk⟩ := List.getElem?_of_mem hi
    exact (h.islands k i hk).size
  by_cases hnil : m.islands = []
  · exact .inl (by simp [hnil])
  · by_cases hzero : size = 0
    · refine .inr ⟨hnil, fun i hi => List.eq_nil_of_length_eq_zero ?_⟩
      rw [hsize i hi, hzero]
    · refine .inl fun i hi => List.ne_nil_of_length_pos ?_
      rw [hsize i hi]
      exact Nat.pos_of_ne_zero hzero

theorem Tracks.phase_ne (h : m.Tracks count size past) :
    ∀ i ∈ m.islands, i.phase ≠ .converged := by
  intro i hi
  obtain ⟨k, hk⟩ := List.getElem?_of_mem hi
  exact (h.islands k i hk).phase

variable [SeededSource τ]

/-- Empty islands cannot evolve, and the model stays. -/
theorem Tracks.step_of_nil (h : m.Tracks count size past) (hislands : m.islands ≠ [])
    (hnil : ∀ i ∈ m.islands, i.population.individuals = []) :
    m.step f b = .ok (m, .error .emptyPopulation) := by
  obtain ⟨i, is, hi⟩ := List.exists_cons_of_ne_nil hislands
  have hmem : i ∈ m.islands := by simp [hi]
  unfold IslandModel.step
  rw [hi, List.mapM_cons, Island.evolve_of_nil (h.phase_ne i hmem) (hnil i hmem)]
  rfl

theorem Tracks.exists_step {outcome : Except Error Unit} (h : m.Tracks count size past)
    (hstep : m.step f b = .ok (m', outcome)) : ∃ past', m'.Tracks count size past' := by
  rcases h.forall_ne_nil_or_forall_nil with hne | ⟨hislands, hnil⟩
  · by_cases hsize : 0 < size
    · exact ⟨_, (h.step hsize hstep).1⟩
    · -- There are no islands then, and their generation is counted all the same.
      have hnone : m.islands = [] := by
        refine List.eq_nil_iff_forall_not_mem.mpr fun i hi => hne i hi ?_
        obtain ⟨k, hk⟩ := List.getElem?_of_mem hi
        have hlength : i.population.individuals.length = size := (h.islands k i hk).size
        exact List.eq_nil_of_length_eq_zero (by omega)
      obtain ⟨islands, hmoved, rfl, -⟩ := (step_eq_ok hne).mp hstep
      rw [hnone] at hmoved
      cases hmoved
      have hcount : 0 = count := by rw [← h.length, hnone, List.length_nil]
      exact ⟨_, tracks_gatherBest hcount h.generation h.sizes nofun h.best⟩
  · rw [h.step_of_nil hislands hnil] at hstep
    cases hstep
    exact ⟨past, h⟩

/-- A step moves every island as if it were alone. -/
theorem Tracks.step_islands_iff (h : m.Tracks count size past) :
    (∃ m', (·.1) <$> m.step f b = .ok m' ∧ m'.islands = is) ↔
      m.islands.map (Island.advance f b) = is.map .ok := by
  rcases h.forall_ne_nil_or_forall_nil with hne | ⟨hislands, hnil⟩
  · rw [Except.map_eq_map_ok_congr fun i hi _ =>
      Island.advance_eq_ok (Island.faultless_evolve (hne i hi)), ← Except.mapM_eq_ok_iff]
    constructor
    · rintro ⟨m', hm', rfl⟩
      obtain ⟨⟨m'', outcome⟩, hstep, rfl⟩ := Except.map_eq_ok.mp hm'
      obtain ⟨islands, hmoved, rfl, -⟩ := (step_eq_ok hne).mp hstep
      exact hmoved
    · intro hmoved
      exact ⟨_, Except.map_eq_ok.mpr ⟨_, (step_eq_ok hne).mpr ⟨is, hmoved, rfl, rfl⟩, rfl⟩, rfl⟩
  · have hstay : m.islands.map (Island.advance f b) = m.islands.map .ok :=
      List.map_congr_left fun i hi => Island.advance_of_nil (h.phase_ne i hi) (hnil i hi)
    rw [h.step_of_nil hislands hnil, hstay]
    constructor
    · rintro ⟨m', hm', rfl⟩
      cases hm'
      rfl
    · intro his
      exact ⟨m, rfl, List.map_injective_iff.mpr (fun _ _ => Except.ok.inj) his⟩

/-! ## Runs of a model -/

/-- The model after its start and so many steps, whatever their outcomes were. -/
def after (f : Fitness) (b : Breeder) (m : IslandModel τ) : ℕ → Except Misuse (IslandModel τ)
  | 0 => (·.1) <$> m.start f
  | generations + 1 => m.after f b generations >>= fun m => (·.1) <$> m.step f b

variable {generations : ℕ}

theorem Fresh.tracks_after (h : m.Fresh count size) (hafter : m.after f b generations = .ok m') :
    ∃ past, m'.Tracks count size past := by
  induction generations generalizing m' with
  | zero =>
    obtain ⟨⟨m₁, outcome⟩, hstart, rfl⟩ := Except.map_eq_ok.mp hafter
    exact ⟨_, (h.start hstart).1⟩
  | succ generations ih =>
    obtain ⟨m₁, hm₁, hstep⟩ := Except.bind_eq_ok.mp hafter
    obtain ⟨past, htracks⟩ := ih hm₁
    obtain ⟨⟨m₂, outcome⟩, hm₂, rfl⟩ := Except.map_eq_ok.mp hstep
    exact htracks.exists_step hm₂

theorem Fresh.after_islands_iff (h : m.Fresh count size) :
    (∃ m', m.after f b generations = .ok m' ∧ m'.islands = is) ↔
      m.islands.map (Island.after f b · generations) = is.map .ok := by
  induction generations generalizing is with
  | zero =>
    show _ ↔ m.islands.map (Island.evaluate f) = is.map .ok
    rw [← Except.mapM_eq_ok_iff]
    constructor
    · rintro ⟨m', hm', rfl⟩
      obtain ⟨⟨m₁, outcome⟩, hstart, rfl⟩ := Except.map_eq_ok.mp hm'
      obtain ⟨islands, hislands, rfl, -⟩ := start_eq_ok.mp hstart
      exact hislands
    · intro his
      exact ⟨_, Except.map_eq_ok.mpr ⟨_, start_eq_ok.mpr ⟨is, his, rfl, rfl⟩, rfl⟩, rfl⟩
  | succ generations ih =>
    show _ ↔ m.islands.map (fun i => i.after f b generations >>= Island.advance f b) = is.map .ok
    rw [Except.map_bind_eq_map_ok]
    constructor
    · intro ⟨m', hm', his⟩
      obtain ⟨m₁, hm₁, hstep⟩ := Except.bind_eq_ok.mp hm'
      obtain ⟨past, htracks⟩ := h.tracks_after hm₁
      exact ⟨m₁.islands, ih.mp ⟨m₁, hm₁, rfl⟩, htracks.step_islands_iff.mp ⟨m', hstep, his⟩⟩
    · intro ⟨is₁, his₁, his⟩
      obtain ⟨m₁, hm₁, rfl⟩ := ih.mpr his₁
      obtain ⟨past, htracks⟩ := h.tracks_after hm₁
      obtain ⟨m', hstep, his⟩ := htracks.step_islands_iff.mpr his
      exact ⟨m', Except.bind_eq_ok.mpr ⟨m₁, hm₁, hstep⟩, his⟩

variable {σ : Type} [RandomSource σ] {g : Generator}

/-- The master stream gives the seeds of the islands, in their order, and nothing else. -/
theorem createIslands_eq_ok {index : ℕ} {s s' : σ} :
    (createIslands size g index count).run s = .ok (is, s') ↔
      ∃ seeds, (Draw.times count Draw.seed).run s = .ok (seeds, s') ∧
        (seeds.zipIdx index).map (fun r => Island.create r.2 size g (SeededSource.ofSeed r.1)) =
          is.map .ok := by
  induction count generalizing index s is with
  | zero =>
    constructor
    · intro h
      cases h
      exact ⟨[], rfl, rfl⟩
    · intro ⟨seeds, hseeds, his⟩
      cases hseeds
      cases is with
      | nil => rfl
      | cons i is => cases his
  | succ count ih =>
    rw [createIslands]
    constructor
    · intro h
      obtain ⟨seed, s₁, hseed, hrest⟩ := Draw.run_bind_eq_ok.mp h
      obtain ⟨i, s₂, hmade, hothers⟩ := Draw.run_bind_eq_ok.mp hrest
      obtain ⟨is', s₃, his', hpure⟩ := Draw.run_bind_eq_ok.mp hothers
      obtain ⟨hi, rfl⟩ := Draw.run_lift_eq_ok.mp hmade
      cases hpure
      obtain ⟨seeds, hseeds, his⟩ := ih.mp his'
      refine ⟨seed :: seeds, Draw.times_succ_eq_ok.mpr ⟨seed, _, seeds, hseed, hseeds, rfl⟩, ?_⟩
      rw [List.zipIdx_cons, List.map_cons, List.map_cons, his, hi]
    · intro ⟨seeds, hseeds, his⟩
      obtain ⟨seed, s₁, seeds', hseed, hseeds', rfl⟩ := Draw.times_succ_eq_ok.mp hseeds
      cases is with
      | nil => cases his
      | cons i is =>
        obtain ⟨hi, his⟩ := List.cons.inj his
        refine Draw.run_bind_eq_ok.mpr ⟨seed, s₁, hseed, ?_⟩
        refine Draw.run_bind_eq_ok.mpr ⟨i, s₁, Draw.run_lift_eq_ok.mpr ⟨hi, rfl⟩, ?_⟩
        exact Draw.run_bind_eq_ok.mpr ⟨is, s', ih.mpr ⟨seeds', hseeds', his⟩, rfl⟩

/-- A model that is made from a master stream and goes so many generations. -/
def fromStream (count size : ℕ) (g : Generator) (f : Fitness) (b : Breeder) (generations : ℕ)
    (s : σ) : Except Misuse (IslandModel τ) :=
  (create count size g).run s >>= fun r => r.1.after f b generations

theorem create_eq_ok {s s' : σ} : (create count size g).run s = .ok (m, s') ↔
    ∃ is, (createIslands size g 0 count).run s = .ok (is, s') ∧ m = ⟨is, none, 0⟩ := by
  constructor
  · intro h
    obtain ⟨⟨is, s₁⟩, his, h⟩ := Except.bind_eq_ok.mp h
    cases h
    exact ⟨is, his, rfl⟩
  · intro ⟨is, his, hm⟩
    rw [hm]
    exact Except.bind_eq_ok.mpr ⟨(is, s'), his, rfl⟩

theorem fromStream_islands_iff {s : σ} :
    (∃ m, fromStream count size g f b generations s = .ok m ∧ m.islands = is) ↔
      ∃ seeds s', (Draw.times count Draw.seed).run s = .ok (seeds, s') ∧
        seeds.zipIdx.map (fun r => Island.alone size g f b generations r.1 r.2) = is.map .ok := by
  constructor
  · intro ⟨m, hm, his⟩
    obtain ⟨⟨m₀, s'⟩, hcreate, hafter⟩ := Except.bind_eq_ok.mp hm
    have hfresh := ensures_create_fresh m₀ ⟨s, s', hcreate⟩
    obtain ⟨is₀, his₀, rfl⟩ := create_eq_ok.mp hcreate
    obtain ⟨seeds, hseeds, his₀⟩ := createIslands_eq_ok.mp his₀
    refine ⟨seeds, s', hseeds, Except.map_bind_eq_map_ok.mpr ⟨is₀, his₀, ?_⟩⟩
    exact hfresh.after_islands_iff.mp ⟨m, hafter, his⟩
  · intro ⟨seeds, s', hseeds, his⟩
    obtain ⟨is₀, his₀, his⟩ := Except.map_bind_eq_map_ok.mp his
    have hcreate := create_eq_ok.mpr ⟨is₀, createIslands_eq_ok.mpr ⟨seeds, hseeds, his₀⟩, rfl⟩
    have hfresh := ensures_create_fresh _ ⟨s, s', hcreate⟩
    obtain ⟨m, hafter, his⟩ := hfresh.after_islands_iff.mpr his
    exact ⟨m, Except.bind_eq_ok.mpr ⟨_, hcreate, hafter⟩, his⟩

theorem exists_tracks_of_fromStream {s : σ}
    (h : fromStream count size g f b generations s = .ok m) :
    ∃ past, m.Tracks count size past := by
  obtain ⟨⟨m₀, s'⟩, hcreate, hafter⟩ := Except.bind_eq_ok.mp h
  exact (ensures_create_fresh m₀ ⟨s, s', hcreate⟩).tracks_after hafter

/-! ## The best of more islands -/

omit [SeededSource τ] in
/-- No individual of a past is better than the best of the island it stood on. -/
theorem Tracks.exists_island_isLE {best : Individual} (h : m.Tracks count size past)
    (hbest : m.best = some best) :
    ∃ (k : ℕ) (i : Island τ) (c : Individual),
      m.islands[k]? = some i ∧ i.best = some c ∧ (c.compare best).isLE := by
  have hfirst := h.best
  rw [hbest] at hfirst
  obtain ⟨l, hl, hmem⟩ := List.mem_flatten.mp (FirstBest.mem hfirst)
  obtain ⟨generation, hgeneration, hl⟩ := List.mem_flatten.mp hl
  obtain ⟨k, hk, rfl⟩ := List.getElem_of_mem hl
  have hlt : k < m.islands.length := by
    rw [h.length, ← (h.sizes generation hgeneration).1]
    exact hk
  have hstood : best ∈ onIsland k past := by
    refine List.mem_flatMap.mpr ⟨generation, hgeneration, ?_⟩
    rw [List.getD_eq_getElem?_getD, List.getElem?_eq_getElem hk]
    exact hmem
  have hi : m.islands[k]? = some m.islands[k] := List.getElem?_eq_getElem hlt
  have hseen : onIsland k past ≠ [] := List.ne_nil_of_mem hstood
  obtain ⟨c, hc, hleads⟩ := (h.islands k _ hi).best.exists_of_ne_nil hseen
  exact ⟨k, _, c, hi, hc, hleads.isLE best hstood⟩

omit [SeededSource τ] in
theorem Tracks.exists_best_isLE {k : ℕ} {i : Island τ} {c : Individual}
    (h : m.Tracks count size past) (hi : m.islands[k]? = some i) (hc : i.best = some c) :
    ∃ best, m.best = some best ∧ (best.compare c).isLE := by
  have hfirst := (h.islands k i hi).best
  rw [hc] at hfirst
  have hmem := mem_of_mem_onIsland (FirstBest.mem hfirst)
  obtain ⟨best, hbest, hleads⟩ := h.best.exists_of_ne_nil (List.ne_nil_of_mem hmem)
  exact ⟨best, hbest, hleads.isLE c hmem⟩

/-- A run has exactly the islands that its seeds come to alone, one after the other, and ends well
exactly if all of them do.  With more islands from the same master stream the first ones are the
same in everything they hold, and the best of all is no worse. -/
theorem islands_do_not_interfere (n k size generations : ℕ) (g : Generator) (f : Fitness)
    (b : Breeder) (s : σ) :
    (∀ is : List (Island τ),
      (∃ m, fromStream n size g f b generations s = .ok m ∧ m.islands = is) ↔
        ∃ seeds s', (Draw.times n Draw.seed).run s = .ok (seeds, s') ∧
          seeds.zipIdx.map (fun r => Island.alone size g f b generations r.1 r.2) = is.map .ok) ∧
    ∀ more : IslandModel τ, fromStream (n + k) size g f b generations s = .ok more →
      ∃ m : IslandModel τ, fromStream n size g f b generations s = .ok m ∧
        more.islands.take n = m.islands ∧
        ∀ best, m.best = some best →
          ∃ best', more.best = some best' ∧ (best'.compare best).isLE := by
  refine ⟨fun is => fromStream_islands_iff, fun more hmore => ?_⟩
  obtain ⟨seeds, s', hseeds, halone⟩ := fromStream_islands_iff.mp ⟨more, hmore, rfl⟩
  obtain ⟨t, hfirst⟩ := Draw.times_take hseeds
  have halone' : (seeds.take n).zipIdx.map
      (fun r => Island.alone size g f b generations r.1 r.2) = (more.islands.take n).map .ok := by
    rw [← take_zipIdx, List.map_take, halone, List.map_take]
  obtain ⟨m, hm, his⟩ := fromStream_islands_iff.mpr ⟨seeds.take n, t, hfirst, halone'⟩
  refine ⟨m, hm, his.symm, fun best hbest => ?_⟩
  obtain ⟨past, htracks⟩ := exists_tracks_of_fromStream hm
  obtain ⟨past', htracks'⟩ := exists_tracks_of_fromStream hmore
  -- The island that has the best of the few is one of the many.
  obtain ⟨j, i, c, hj, hc, hle⟩ := htracks.exists_island_isLE hbest
  have hi : more.islands[j]? = some i := by
    rw [his, List.getElem?_take] at hj
    exact (Option.ite_none_right_eq_some.mp hj).2
  obtain ⟨best', hbest', hle'⟩ := htracks'.exists_best_isLE hi hc
  exact ⟨best', hbest', Std.TransCmp.isLE_trans hle' hle⟩

/-- Two islands of shrubs, after one generation, and the first of them by itself. -/
theorem islands_do_not_interfere_shrubs :
    ∃ more m : IslandModel ChaCha.Stream,
      fromStream (1 + 1) 3 shrubs.generator (fun p => .ok ⟨Float.ofNat p.size, 0.0⟩) shrubs 1
        (ChaCha.Stream.ofSeedWord 1) = .ok more ∧
      fromStream 1 3 shrubs.generator (fun p => .ok ⟨Float.ofNat p.size, 0.0⟩) shrubs 1
        (ChaCha.Stream.ofSeedWord 1) = .ok m ∧
      more.islands.take 1 = m.islands := by
  have hrun : (fromStream (1 + 1) 3 shrubs.generator (fun p => .ok ⟨Float.ofNat p.size, 0.0⟩)
      shrubs 1 (ChaCha.Stream.ofSeedWord 1) :
        Except Misuse (IslandModel ChaCha.Stream)).toOption.isSome = true := by
    decide +kernel
  obtain ⟨more, hmore⟩ := Except.exists_eq_ok hrun
  obtain ⟨m, hm, his, -⟩ := (islands_do_not_interfere 1 1 3 1 _ _ _ _).2 more hmore
  exact ⟨more, m, hmore, hm, his⟩

end IslandModel
end SymbolicRegression
