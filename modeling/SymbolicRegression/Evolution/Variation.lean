import SymbolicRegression.Program.Generator
import SymbolicRegression.Random.Normal

/-!
Variation of programs: three mutations and a crossover that change the structure, and
a mutation of the constants alone.
-/

namespace SymbolicRegression
namespace Variation

variable {σ : Type} [RandomSource σ]

mutual

/-- Point mutation: every node is swapped with the given probability, a leaf for a new
leaf and an operator for one of the same arity, if there is one.  The shape stays. -/
def point (rate : Float) (g : Generator) : Program → Draw σ Program
  | .call op ps => do
    let op ←
      if ← Draw.bool rate then pure ((← g.functions.drawOfArity op.arity).getD op) else pure op
    return .call op (← pointAll rate g ps)
  | p => do if ← Draw.bool rate then g.leaf else return p

def pointAll (rate : Float) (g : Generator) : List Program → Draw σ (List Program)
  | [] => return []
  | p :: ps => do
    let q ← point rate g p
    return q :: (← pointAll rate g ps)

end

/-- Subtree mutation: a random node gives way to a new subtree with no more height than
the generator's limit leaves at that place. -/
def subtree (g : Generator) (p : Program) : Draw σ Program := do
  let path ← Draw.choose p.positions
  let new ← g.subtree (g.maxHeight - path.length)
  return (p.replace? path new).getD p

/-- Hoist mutation: a random proper subtree becomes the program.  A leaf has none and
stays. -/
def hoist (p : Program) : Draw σ Program :=
  match p.positions with
  | _ :: q :: qs => do return (p.subtree? (← Draw.choose (q :: qs))).getD p
  | _ => return p

/-- Subtree crossover: a random node of the recipient gives way to a random subtree of
the donor. -/
def crossover (recipient donor : Program) : Draw σ Program := do
  let place ← Draw.choose recipient.positions
  let source ← Draw.choose donor.positions
  match donor.subtree? source with
  | some graft => return (recipient.replace? place graft).getD recipient
  | none => return recipient

/-- Moves a constant by a normal draw, scaled by its size but at least by one.  The
constant stays if it would not stay finite. -/
def jitter (sigma c : Float) : Draw σ Float := do
  let z ← Draw.normal
  let shifted := c + z * sigma * Comparable.greater c.abs 1.0
  return if shifted.isFinite then shifted else c

def usualSigma : Float := 0.1

/-- Constant mutation: every constant moves, and nothing else changes. -/
def constants (sigma : Float) (p : Program) : Draw σ Program := p.mapConstantsM (jitter sigma)

end Variation
end SymbolicRegression
