import SymbolicRegression.Evolution.Record
import SymbolicRegression.Proofs.Json.Records
import SymbolicRegression.Proofs.Program.Stored

/-!
What is read back of individuals and of the figures of a generation.

JSON has no infinities.  Where a number might be missing, an infinite one is written as if it
were, so that an unfit individual comes back as one that has not been evaluated.  Where a number
must be there, an infinite one cannot be read at all.  An individual opens one more object than
its program does, so the limit of the reader comes one level of operators earlier.
-/

namespace SymbolicRegression

open Json Program Grammar

/-- A program that can be written. -/
structure Program.Storable (p : Program) : Prop where
  built : p.BuiltFrom printable
  finite : p.IsFinite

/-! ## Individuals -/

namespace Individual

variable {i : Individual}

def fields : List String := ["program", "fitness", "loss", "birth_generation"]

def values (i : Individual) : List Json :=
  [i.program.form, .ofOption .ofFloat i.fitness, .ofOption .ofFloat i.loss, .ofNat i.birth]

/-- The value that an individual is written as, if its program can be written. -/
def form (i : Individual) : Json := record (fields.zip i.values)

/-- An individual that can be written, program and all. -/
structure Storable (i : Individual) : Prop where
  program : i.program.Storable
  birth : i.birth < Decimal.wordLimit

theorem Storable.toJson (h : i.Storable) : i.toJson = .ok i.form := by
  unfold Individual.toJson
  rw [toJson_of_isFinite h.program.finite]
  rfl

theorem Storable.writable (h : i.Storable) : i.form.Writable := by
  refine writable_record_zip fun j hj => ?_
  simp only [values, List.mem_cons, List.not_mem_nil, or_false] at hj
  rcases hj with rfl | rfl | rfl | rfl
  · exact writable_form h.program.built h.program.finite
  · exact writable_ofOption i.fitness
  · exact writable_ofOption i.loss
  · exact h.birth

/-- The fields in their order, whatever stands in them. -/
theorem ofJson_fields (program fitness loss birth : Json) :
    ofJson (record (fields.zip [program, fitness, loss, birth])) = (do
      let program ← Program.ofJson false program
      let fitness ← toOption toFloat fitness
      let loss ← toOption toFloat loss
      let birth ← toNat birth
      return { program, fitness, loss, birth }) := by
  have hnames : fields.Nodup := by decide
  have hvisit : visitRecord fields Draft.put ⟨none, none, none, none⟩
      (record (fields.zip [program, fitness, loss, birth])) = (do
        let program ← Program.ofJson false program
        let fitness ← toOption toFloat fitness
        let loss ← toOption toFloat loss
        let birth ← toNat birth
        return ⟨some program, fitness, loss, some birth⟩) := by
    rw [visitRecord_zip hnames rfl]
    show (do
      let d ← Draft.put ⟨none, none, none, none⟩ 0 program
      let d ← Draft.put d 1 fitness
      let d ← Draft.put d 2 loss
      Draft.put d 3 birth >>= pure) = _
    simp only [Draft.put, bind_assoc, pure_bind]
  unfold ofJson
  rw [show ["program", "fitness", "loss", "birth_generation"] = fields from rfl, hvisit]
  simp only [bind_assoc, pure_bind]

/-- What an individual keeps when it is written and read: everything but infinite numbers. -/
def kept (i : Individual) : Individual :=
  { i with fitness := i.fitness.filter (·.isFinite), loss := i.loss.filter (·.isFinite) }

theorem decodeText_compact (h : i.Storable) :
    decodeText ofJson (compact i.form) =
      if i.program.height ≤ 62 then .ok i.kept else malformed := by
  have hfitness := cut_eq_self 126 _ ((nesting_ofOption i.fitness).trans_le (Nat.zero_le 126))
  have hloss := cut_eq_self 126 _ ((nesting_ofOption i.loss).trans_le (Nat.zero_le 126))
  have hcut : cut Reader.depthLimit i.form = record (fields.zip [cut 126 i.program.form,
      .ofOption .ofFloat i.fitness, .ofOption .ofFloat i.loss, .ofNat i.birth]) := by
    show cut (126 + 1) (record (fields.zip i.values)) = _
    rw [cut_record_zip, values, List.map_cons, List.map_cons, List.map_cons, hfitness, hloss]
    rfl
  rw [Json.decodeText_compact _ h.writable, hcut, ofJson_fields]
  have hnesting := nesting_form h.program.built
  have hwritable := writable_form h.program.built h.program.finite
  by_cases hheight : i.program.height ≤ 62
  · rw [if_pos hheight, cut_eq_self 126 _ (by omega),
      ofJson_eq_ok false h.program.built h.program.finite, toOption_ofOption, toOption_ofOption]
    rfl
  · have hdeep : (cut 126 i.program.form).isReadable = false := by
      rw [Bool.eq_false_iff, ne_eq, isReadable_cut_iff _ _ hwritable]
      omega
    rw [if_neg hheight, ofJson_refuses false hdeep]
    rfl

theorem kept_eq_self (hfitness : ∀ x ∈ i.fitness, x.isFinite = true)
    (hloss : ∀ x ∈ i.loss, x.isFinite = true) : i.kept = i := by
  unfold kept
  rw [filter_isFinite hfitness, filter_isFinite hloss]

end Individual

/-! ## Figures of a generation -/

namespace GenerationRecord

variable {r : GenerationRecord}

/-- The counts of a record are words. -/
structure InWords (r : GenerationRecord) : Prop where
  generation : r.generation < Decimal.wordLimit
  evaluations : r.evaluations < Decimal.wordLimit
  unfit : r.unfit < Decimal.wordLimit

/-- The numbers of a record are finite. -/
structure IsFinite (r : GenerationRecord) : Prop where
  bestFitness : r.bestFitness.isFinite = true
  bestLoss : r.bestLoss.isFinite = true
  meanFitness : r.meanFitness.isFinite = true
  medianFitness : r.medianFitness.isFinite = true
  meanSize : r.meanSize.isFinite = true
  validation : ∀ x ∈ r.validation, x.isFinite = true
  elapsed : r.elapsed.isFinite = true

/-- The same figures with the time they took. -/
def withElapsed (r : GenerationRecord) (elapsed : Float) : GenerationRecord := { r with elapsed }

theorem InWords.withElapsed (h : r.InWords) (elapsed : Float) : (r.withElapsed elapsed).InWords :=
  ⟨h.generation, h.evaluations, h.unfit⟩

def values (r : GenerationRecord) : List Json :=
  [.ofNat r.generation, .ofNat r.evaluations, .ofFloat r.bestFitness, .ofFloat r.bestLoss,
    .ofFloat r.meanFitness, .ofFloat r.medianFitness, .ofFloat r.meanSize, .ofNat r.unfit,
    .ofOption .ofFloat r.validation, .ofFloat r.elapsed]

theorem writable_toJson (h : r.InWords) : r.toJson.Writable := by
  refine writable_record_zip fun j hj => ?_
  simp only [List.mem_cons, List.not_mem_nil, or_false] at hj
  rcases hj with rfl | rfl | rfl | rfl | rfl | rfl | rfl | rfl | rfl | rfl
  · exact h.generation
  · exact h.evaluations
  · exact writable_ofFloat r.bestFitness
  · exact writable_ofFloat r.bestLoss
  · exact writable_ofFloat r.meanFitness
  · exact writable_ofFloat r.medianFitness
  · exact writable_ofFloat r.meanSize
  · exact h.unfit
  · exact writable_ofOption r.validation
  · exact writable_ofFloat r.elapsed

theorem nesting_toJson_le (r : GenerationRecord) : r.toJson.nesting ≤ 1 := by
  have hflat : ∀ j ∈ r.values, j.nesting = 0 := by
    intro j hj
    simp only [values, List.mem_cons, List.not_mem_nil, or_false] at hj
    rcases hj with rfl | rfl | rfl | rfl | rfl | rfl | rfl | rfl | rfl | rfl
    · rfl
    · rfl
    · exact nesting_ofFloat r.bestFitness
    · exact nesting_ofFloat r.bestLoss
    · exact nesting_ofFloat r.meanFitness
    · exact nesting_ofFloat r.medianFitness
    · exact nesting_ofFloat r.meanSize
    · rfl
    · exact nesting_ofOption r.validation
    · exact nesting_ofFloat r.elapsed
  refine nesting_record_le_iff.mpr fun m hm => ?_
  exact (hflat m.2 (List.of_mem_zip hm).2).le

theorem slots_toJson (r : GenerationRecord) : slots names r.toJson = .ok (r.values.map some) :=
  slots_zip (by decide) rfl

theorem ofJson_toJson (h : r.IsFinite) : ofJson r.toJson = .ok r := by
  unfold ofJson
  rw [slots_toJson]
  show (do
    let generation ← toNat (.ofNat r.generation)
    let evaluations ← toNat (.ofNat r.evaluations)
    let bestFitness ← toFloat (.ofFloat r.bestFitness)
    let bestLoss ← toFloat (.ofFloat r.bestLoss)
    let meanFitness ← toFloat (.ofFloat r.meanFitness)
    let medianFitness ← toFloat (.ofFloat r.medianFitness)
    let meanSize ← toFloat (.ofFloat r.meanSize)
    let unfit ← toNat (.ofNat r.unfit)
    let validation ← toOption toFloat (.ofOption .ofFloat r.validation)
    let elapsed ← toFloat (.ofFloat r.elapsed)
    return GenerationRecord.mk generation evaluations bestFitness bestLoss meanFitness
      medianFitness meanSize unfit validation elapsed) = _
  rw [toFloat_ofFloat h.bestFitness, toFloat_ofFloat h.bestLoss, toFloat_ofFloat h.meanFitness,
    toFloat_ofFloat h.medianFitness, toFloat_ofFloat h.meanSize, toFloat_ofFloat h.elapsed,
    toOption_ofOption, filter_isFinite h.validation]
  rfl

/-- One infinite number is enough for a record to be refused. -/
theorem ofJson_of_bestFitness (h : r.bestFitness.isFinite = false) :
    ofJson r.toJson = malformed := by
  have hnull : Json.ofFloat r.bestFitness = null := by
    unfold Json.ofFloat
    rw [h]
    rfl
  unfold ofJson
  rw [slots_toJson, values, hnull]
  rfl

theorem decodeText_compact (h : r.InWords) :
    decodeText ofJson (compact r.toJson) = ofJson r.toJson := by
  have hnesting := nesting_toJson_le r
  rw [Json.decodeText_compact _ (writable_toJson h), cut_eq_self]
  exact hnesting.trans (by decide)

end GenerationRecord

end SymbolicRegression
