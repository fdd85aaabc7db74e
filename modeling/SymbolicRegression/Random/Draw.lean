import SymbolicRegression.Random.Source

/-!
Uniform draws: words, numbers in a range, truth values and reals.

A range is drawn from by rejection, which by itself may go on for ever.  Here the number
of attempts is bounded, so that every draw ends; what is taken when they are used up is
said at each function.
-/

namespace SymbolicRegression
namespace Draw

variable {σ : Type} [RandomSource σ]

def word32 : Draw σ UInt32 := fun s => .ok (RandomSource.next32 s)

def word64 : Draw σ UInt64 := fun s => .ok (RandomSource.next64 s)

/-- How often a candidate outside the range may be drawn. -/
def attempts : Nat := 65536

/-- A number below `size`, from words of the given number of bits.  The product of a
word and the size, cut in two, gives a member of the range and a rest; a rest that is
not below the bound is drawn again.  The bound is a multiple of the size, so that no
member is favoured.  When the attempts are used up, one more member is taken whatever its
rest. -/
def member (bits : Nat) (word : Draw σ Nat) (size bound : Nat) : Nat → Draw σ Nat
  | 0 => do return ((← word) * size) / Nat.pow 2 bits
  | fuel + 1 => do
    let product := (← word) * size
    if product % Nat.pow 2 bits < bound then return product / Nat.pow 2 bits
    else member bits word size bound fuel

/-- The size moved up to the highest bit of a word, a bound that is quick to find. -/
def quickBound (bits size : Nat) : Nat := size * Nat.pow 2 (bits - 1 - size.log2)

/-- The greatest multiple of the size that words reach, the bound that refuses least. -/
def tightBound (bits size : Nat) : Nat := Nat.pow 2 bits - Nat.pow 2 bits % size

/-- A number from `lo` to `hi`, both included, from words of the given number of bits.
If the range holds all words, a word is taken as it is. -/
def between (bits : Nat) (word : Draw σ Nat) (lo hi : Nat) : Draw σ Nat := do
  if hi < lo then throw (.emptyRange lo hi)
  let size := hi - lo + 1
  if size = Nat.pow 2 bits then word
  else return lo + (← member bits word size (quickBound bits size) attempts)

def natWord32 : Draw σ Nat := do return (← word32).toNat

def natWord64 : Draw σ Nat := do return (← word64).toNat

/-- A number from `lo` to `hi`, both included. -/
def range (lo hi : Nat) : Draw σ Nat := between 64 natWord64 lo hi

def below (n : Nat) : Draw σ Nat := do
  if n = 0 then throw (.emptyRange 0 0)
  range 0 (n - 1)

/-- A number from `lo` to `hi`, from short words. -/
def shortRange (lo hi : Nat) : Draw σ Nat := between 32 natWord32 lo hi

/-- A number below `size`, from short words if these hold it, with as few refusals as
can be. -/
def index (size : Nat) : Draw σ Nat :=
  if size < Nat.pow 2 32 then member 32 natWord32 size (tightBound 32 size) attempts
  else member 64 natWord64 size (tightBound 64 size) attempts

/-- A real from zero up to below one, on a grid of `2 ^ -53`. -/
def unit : Draw σ Float := do
  return (Float.ofNat ((← word64) >>> 11).toNat) * Float.ofScientific 11102230246251565 true 32

/-- A real from zero up to below one, on a grid of `2 ^ -52`. -/
def coarseUnit : Draw σ Float := do
  return (Float.ofNat ((← word64) >>> 12).toNat) * Float.ofScientific 2220446049250313 true 31

/-- True with probability `p`.  Certainty draws nothing. -/
def bool (p : Float) : Draw σ Bool := do
  if p == 1.0 then return true
  if 0.0 ≤ p && p < 1.0 then
    let threshold := (p * 18446744073709551616.0).toUInt64
    return (← word64) < threshold
  throw (.badProbability p)

/-- A real from `lo` up to below `hi`.  Candidates that rounding puts at `hi` are drawn again.
The method itself sets no bound to that; here the real is `lo` when the attempts are used
up. -/
def realFrom (lo hi : Float) : Nat → Draw σ Float
  | 0 => return lo
  | fuel + 1 => do
    let r := (← coarseUnit) * (hi - lo) + lo
    if r < hi then return r else realFrom lo hi fuel

def real (lo hi : Float) : Draw σ Float := do
  if lo < hi && (hi - lo).isFinite then realFrom lo hi attempts
  else throw (.badInterval lo hi)

/-- The given number of draws, one after the other, logged or not. -/
def times {m : Type → Type} [Monad m] {α : Type} (n : Nat) (d : m α) : m (List α) :=
  match n with
  | 0 => return []
  | n + 1 => do
    let a ← d
    return a :: (← times n d)

/-- A member of a list, all with the same probability. -/
def choose {α : Type} (l : List α) : Draw σ α := do
  let i ← below l.length
  memberAt l i

/-- A seed of 32 bytes, one from each word. -/
def seed : Draw σ (List UInt8) := times 32 (do return (← word32).toUInt8)

def seedWord : Draw σ Nat := range 1 (Nat.pow 2 64 - 1)

end Draw
end SymbolicRegression
