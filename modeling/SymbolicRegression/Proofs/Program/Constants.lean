import SymbolicRegression.Proofs.Failures
import SymbolicRegression.Proofs.Program.Stored

/-!
Programs that differ in the values of their constants only.

With all constants blanked a program keeps its positions, operators and features, and with them
its size and its height.  Two programs are alike if they are the same program blanked.  Whatever
is asked of the constants one by one, visiting them leads to such a program, and nowhere else does
a visit come from.
-/

namespace SymbolicRegression
namespace Program

mutual

/-- The program with every constant put to zero. -/
def blank : Program → Program
  | feature i => feature i
  | constant _ => constant 0.0
  | call op ps => call op (blanks ps)

def blanks : List Program → List Program
  | [] => []
  | p :: ps => p.blank :: blanks ps

end

/-- Constants apart, the two programs are one. -/
def Alike (p q : Program) : Prop := p.blank = q.blank

/-! ## What blanking keeps -/

theorem length_blanks (ps : List Program) : (blanks ps).length = ps.length := by
  induction ps with
  | nil => rfl
  | cons p ps ih => exact congrArg (· + 1) ih

mutual

theorem positions_blank : ∀ p : Program, p.blank.positions = p.positions
  | feature _ => rfl
  | constant _ => rfl
  | call _ ps => congrArg ([] :: ·) (positionsFrom_blanks ps 0)

theorem positionsFrom_blanks : ∀ (ps : List Program) (i : ℕ),
    positionsFrom i (blanks ps) = positionsFrom i ps
  | [], _ => rfl
  | p :: ps, i => by
    rw [blanks, positionsFrom, positionsFrom, positions_blank p, positionsFrom_blanks ps (i + 1)]

end

mutual

theorem size_blank : ∀ p : Program, p.blank.size = p.size
  | feature _ => rfl
  | constant _ => rfl
  | call _ ps => congrArg (1 + ·) (sizes_blanks ps)

theorem sizes_blanks : ∀ ps : List Program, sizes (blanks ps) = sizes ps
  | [] => rfl
  | p :: ps => by rw [blanks, sizes, sizes, size_blank p, sizes_blanks ps]

end

mutual

theorem height_blank : ∀ p : Program, p.blank.height = p.height
  | feature _ => rfl
  | constant _ => rfl
  | call _ ps => congrArg (1 + ·) (heights_blanks ps)

theorem heights_blanks : ∀ ps : List Program, heights (blanks ps) = heights ps
  | [] => rfl
  | p :: ps => by rw [blanks, heights, heights, height_blank p, heights_blanks ps]

end

mutual

theorem builtFrom_blank {v : Vocabulary} (hv : ∀ c, v.constant c) :
    ∀ p : Program, p.blank.BuiltFrom v ↔ p.BuiltFrom v
  | feature _ => Iff.rfl
  | constant c => iff_of_true (hv _) (hv c)
  | call op ps => by
    show v.operator op ∧ (blanks ps).length = op.arity ∧ AllBuiltFrom v (blanks ps) ↔ _
    rw [length_blanks, allBuiltFrom_blanks hv ps]
    rfl

theorem allBuiltFrom_blanks {v : Vocabulary} (hv : ∀ c, v.constant c) :
    ∀ ps : List Program, AllBuiltFrom v (blanks ps) ↔ AllBuiltFrom v ps
  | [] => Iff.rfl
  | p :: ps => and_congr (builtFrom_blank hv p) (allBuiltFrom_blanks hv ps)

end

namespace Alike

variable {p q r : Program}

theorem refl (p : Program) : p.Alike p := rfl

theorem trans (h : p.Alike q) (h' : q.Alike r) : p.Alike r := Eq.trans h h'

theorem positions (h : p.Alike q) : p.positions = q.positions := by
  rw [← positions_blank p, h, positions_blank]

theorem size (h : p.Alike q) : p.size = q.size := by
  rw [← size_blank p, h, size_blank]

theorem height (h : p.Alike q) : p.height = q.height := by
  rw [← height_blank p, h, height_blank]

theorem builtFrom {v : Vocabulary} (hv : ∀ c, v.constant c) (h : p.Alike q)
    (hq : q.BuiltFrom v) : p.BuiltFrom v := by
  rwa [← builtFrom_blank hv, h, builtFrom_blank hv]

end Alike

/-! ## Visits -/

section

variable {m : Type → Type} [Monad m] [Ending m] {move : Float → m Float} {R : Float → Float → Prop}

mutual

/-- A visit leads to a program alike, whose constants are what the visit makes of the constants,
one by one. -/
theorem ensures_mapConstantsM (hmove : ∀ c, Ensures (move c) (R c)) : ∀ p : Program,
    Ensures (p.mapConstantsM move) fun q =>
      q.Alike p ∧ List.Forall₂ R p.constants q.constants
  | feature i => by
    rw [mapConstantsM]
    exact .of_pure ⟨rfl, .nil⟩
  | constant c => by
    rw [mapConstantsM]
    exact (hmove c).bind fun d hd => .of_pure ⟨rfl, .cons hd .nil⟩
  | call op ps => by
    rw [mapConstantsM]
    exact (ensures_mapConstantsOfM hmove ps).bind fun qs hqs =>
      .of_pure ⟨congrArg (call op) hqs.1, hqs.2⟩

theorem ensures_mapConstantsOfM (hmove : ∀ c, Ensures (move c) (R c)) : ∀ ps : List Program,
    Ensures (mapConstantsOfM move ps) fun qs =>
      blanks qs = blanks ps ∧ List.Forall₂ R (constantsOf ps) (constantsOf qs)
  | [] => by
    rw [mapConstantsOfM]
    exact .of_pure ⟨rfl, .nil⟩
  | p :: ps => by
    rw [mapConstantsOfM]
    exact (ensures_mapConstantsM hmove p).bind fun q hq =>
      (ensures_mapConstantsOfM hmove ps).bind fun qs hqs =>
        .of_pure ⟨congrArg₂ List.cons hq.1 hqs.1, List.rel_append hq.2 hqs.2⟩

end

variable [Failing m] {Q : Failure → Prop}

mutual

theorem confines_mapConstantsM (hmove : ∀ c, Confines (move c) Q) :
    ∀ p : Program, Confines (p.mapConstantsM move) Q
  | feature i => by
    rw [mapConstantsM]
    exact .of_pure
  | constant c => by
    rw [mapConstantsM]
    exact (hmove c).bind' fun _ => .of_pure
  | call op ps => by
    rw [mapConstantsM]
    exact (confines_mapConstantsOfM hmove ps).bind' fun _ => .of_pure

theorem confines_mapConstantsOfM (hmove : ∀ c, Confines (move c) Q) :
    ∀ ps : List Program, Confines (mapConstantsOfM move ps) Q
  | [] => by
    rw [mapConstantsOfM]
    exact .of_pure
  | p :: ps => by
    rw [mapConstantsOfM]
    exact (confines_mapConstantsM hmove p).bind' fun _ =>
      (confines_mapConstantsOfM hmove ps).bind' fun _ => .of_pure

end

end

end Program
end SymbolicRegression
