import SymbolicRegression.Decimal.Places
import SymbolicRegression.Evolution.Population
import SymbolicRegression.Evolution.Variation
import SymbolicRegression.Logged

/-!
Polishing: the constants of one program are improved by chance.  In every round a
number of candidates are drawn around the incumbent, and the best of them takes its
place if it is strictly better.
-/

namespace SymbolicRegression
namespace Polishing

variable {σ : Type} [RandomSource σ]

/-- A program like the incumbent's with moved constants, not evaluated yet. -/
def candidate (incumbent : Individual) : Draw σ Individual := do
  return .ofProgram (← Variation.constants Variation.usualSigma incumbent.program) 0

def challenger (f : Fitness) (size : Nat) (incumbent : Individual) :
    Draw σ (Option Individual) := do
  let drawn ← Draw.times size (candidate incumbent)
  return (← ((Population.ofIndividuals drawn).evaluate f : Except Misuse _)).best?

def moveRecord (round : Nat) (before after : Individual) : LogRecord :=
  .debug ("polish generation " ++ toString round ++ ": fitness " ++
    Decimal.fixed 6 before.fitnessOrWorst ++ " -> " ++ Decimal.fixed 6 after.fitnessOrWorst)

/-- A number of rounds, counted from `round` on. -/
def rounds (f : Fitness) (size round : Nat) : Nat → Individual → LoggedDraw σ Individual
  | 0, incumbent => return incumbent
  | n + 1, incumbent => do
    match ← (challenger f size incumbent : Draw σ _) with
    | none => rounds f size (round + 1) n incumbent
    | some c =>
      if c.isBetterThan incumbent then
        Logged.write [moveRecord round incumbent c]
        rounds f size (round + 1) n c
      else rounds f size (round + 1) n incumbent

/-- Polishes an individual in `count` rounds of `size` candidates.  A program without
constants stays as it is, and nothing is drawn. -/
def polish (f : Fitness) (size count : Nat) (best : Individual) : LoggedDraw σ Individual :=
  if best.program.constants.isEmpty then return best else rounds f size 0 count best

end Polishing
end SymbolicRegression
