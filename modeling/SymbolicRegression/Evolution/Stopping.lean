/-!
When evolution stops.
-/

namespace SymbolicRegression

/-- A rule that is asked after every generation, with the number of completed generations
and the best fitness after each of them, the first population included. -/
inductive StoppingRule where
  | generations (limit : Nat)
  /-- The best fitness has not gained more than `threshold` over so many generations.  The rule
  for no generations never applies. -/
  | stagnation (span : Nat) (threshold : Float)

namespace StoppingRule

def reason : StoppingRule → String
  | generations _ => "Maximum generations reached"
  | stagnation _ _ => "Fitness stagnation detected"

/-- What the last `span` steps of a history have gained, if it is that long. -/
def gain? (span : Nat) (history : List Float) : Option Float := do
  let now ← history.getLast?
  let before ← history.reverse[span]?
  return before - now

/-- Two infinities have no difference, and count as no gain. -/
def applies (generation : Nat) (history : List Float) : StoppingRule → Bool
  | generations limit => limit ≤ generation
  | stagnation 0 _ => false
  | stagnation span threshold => (gain? span history).any fun gain => !(gain > threshold)

def first? (rules : List StoppingRule) (generation : Nat) (history : List Float) :
    Option StoppingRule :=
  rules.find? (applies generation history)

end StoppingRule

end SymbolicRegression
