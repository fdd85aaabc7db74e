import SymbolicRegression.Random.Draw

/-!
Distinct members of a range, in random order.

Small samples grow a list: the `j`-th step draws a number up to `j` and takes `j`
itself if that number is taken.  Large samples of small ranges shuffle the whole range as
far as needed.  Large samples of larger ranges, and all of ranges beyond 32 bits, draw
each number again until it is new.
-/

namespace SymbolicRegression
namespace Draw

variable {σ : Type} [RandomSource σ]

/-- Puts `new` before the first occurrence of `old`. -/
def insertBefore (old new : Nat) : List Nat → List Nat
  | [] => []
  | x :: xs => if x = old then new :: x :: xs else x :: insertBefore old new xs

/-- Steps `j`, `j + 1`, …; a number that is taken already gives its place to `j`, which
keeps the list in random order. -/
def growShuffled (j : Nat) : Nat → List Nat → Draw σ (List Nat)
  | 0, taken => return taken
  | n + 1, taken => do
    let t ← shortRange 0 j
    growShuffled (j + 1) n (if taken.contains t then insertBefore t j taken else taken ++ [t])

/-- The same steps with every number put at the end. -/
def growInTurn (j : Nat) : Nat → List Nat → Draw σ (List Nat)
  | 0, taken => return taken
  | n + 1, taken => do
    let t ← shortRange 0 j
    growInTurn (j + 1) n (taken ++ [if taken.contains t then j else t])

/-- Swaps each position from `i` down to one with a random one not after it. -/
def shuffleDown : Nat → Array Nat → Draw σ (Array Nat)
  | 0, a => return a
  | i + 1, a => do
    let j ← shortRange 0 (i + 1)
    shuffleDown i (a.swapIfInBounds (i + 1) j)

/-- Swaps `n` positions from `i` on with a random one not before it. -/
def shuffleUp (last i : Nat) : Nat → Array Nat → Draw σ (Array Nat)
  | 0, a => return a
  | n + 1, a => do
    let j ← shortRange i last
    shuffleUp last (i + 1) n (a.swapIfInBounds i j)

/-- The first number that is not taken: one more number than are taken has to be tried. -/
def firstFree (taken : List Nat) : Nat :=
  ((List.range (taken.length + 1)).find? fun t => !taken.contains t).getD 0

/-- A number below `n` that is not taken.  When the attempts are used up, it is the first
of these. -/
def fresh (n : Nat) (taken : List Nat) : Nat → Draw σ Nat
  | 0 => return firstFree taken
  | fuel + 1 => do
    let t ← index n
    if taken.contains t then fresh n taken fuel else return t

/-- As many new numbers as wanted, each put before the ones already taken, and all of
them in the order in which they came. -/
def freshInTurn (n : Nat) : Nat → List Nat → Draw σ (List Nat)
  | 0, taken => return taken.reverse
  | k + 1, taken => do
    let t ← fresh n taken attempts
    freshInTurn n k (t :: taken)

inductive SampleWay where
  | shuffled
  | grown
  | redrawn

/-- The cheapest way to a sample.  The bounds are fitted to the cost of the ways; single
precision is part of them. -/
def SampleWay.cheapest (n k : Nat) : SampleWay :=
  let isShort := n < 500000
  let n' := Float32.ofNat n
  let k' := Float32.ofNat k
  if Nat.pow 2 32 ≤ n then redrawn
  else if k < 163 then
    let (slope, offset) : Float32 × Float32 :=
      if isShort then (1.6, 10.0) else (8.0 / 45.0, 70.0 / 9.0)
    if 11 < k && n' < (offset + slope * k') * k' then shuffled else grown
  else
    let factor : Float32 := if isShort then 270.0 else 330.0 / 9.0
    if n' < factor * k' then shuffled else redrawn

/-- Distinct numbers below `n`, `k` of them. -/
def sample (n k : Nat) : Draw σ (List Nat) := do
  if n < k then throw (.tooFew n k)
  match SampleWay.cheapest n k with
  | .shuffled =>
    let a ← shuffleUp (n - 1) 0 k (Array.range n)
    return a.toList.take k
  | .grown =>
    if k < 50 then growShuffled (n - k) k []
    else
      let taken ← growInTurn (n - k) k []
      return (← shuffleDown (k - 1) taken.toArray).toList
  | .redrawn => freshInTurn n k []

end Draw
end SymbolicRegression
