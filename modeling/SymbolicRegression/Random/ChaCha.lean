import SymbolicRegression.Random.Source

/-!
The stream cipher ChaCha with twelve rounds as a source of random words.

The state is a square of four rows of four words.  A round works on all four columns
at once; rotating the rows against each other turns the diagonals into columns and
back.
-/

namespace SymbolicRegression
namespace ChaCha

/-- Four words side by side. -/
structure Row where
  a : UInt32
  b : UInt32
  c : UInt32
  d : UInt32

namespace Row

def map₂ (f : UInt32 → UInt32 → UInt32) (x y : Row) : Row :=
  ⟨f x.a y.a, f x.b y.b, f x.c y.c, f x.d y.d⟩

def add : Row → Row → Row := map₂ (· + ·)

/-- The exclusive or of two rows, with every word then turned left by `n` bits. -/
def xorTurn (n : UInt32) : Row → Row → Row :=
  map₂ fun x y => let z := x ^^^ y; (z <<< n) ||| (z >>> (32 - n))

/-- The words moved one place to the left, the first one to the end. -/
def shift (x : Row) : Row := ⟨x.b, x.c, x.d, x.a⟩

def toList (x : Row) : List UInt32 := [x.a, x.b, x.c, x.d]

end Row

structure Square where
  constants : Row
  keyLow : Row
  keyHigh : Row
  counter : Row

namespace Square

def add (x y : Square) : Square :=
  ⟨x.constants.add y.constants, x.keyLow.add y.keyLow, x.keyHigh.add y.keyHigh,
    x.counter.add y.counter⟩

def toList (x : Square) : List UInt32 :=
  x.constants.toList ++ x.keyLow.toList ++ x.keyHigh.toList ++ x.counter.toList

def columns (s : Square) : Square :=
  let a := s.constants.add s.keyLow
  let d := s.counter.xorTurn 16 a
  let c := s.keyHigh.add d
  let b := s.keyLow.xorTurn 12 c
  let a := a.add b
  let d := d.xorTurn 8 a
  let c := c.add d
  let b := b.xorTurn 7 c
  ⟨a, b, c, d⟩

def diagonals (s : Square) : Square :=
  let t := columns ⟨s.constants, s.keyLow.shift, s.keyHigh.shift.shift, s.counter.shift.shift.shift⟩
  ⟨t.constants, t.keyLow.shift.shift.shift, t.keyHigh.shift.shift, t.counter.shift⟩

def doubleRounds : Nat → Square → Square
  | 0, s => s
  | n + 1, s => doubleRounds n s.columns.diagonals

end Square

/-- A position in the stream of a key: the number of the next block and the words
left of the current one. -/
structure Stream where
  keyLow : Row
  keyHigh : Row
  block : UInt64
  pending : List UInt32

namespace Stream

def square (s : Stream) : Square where
  constants := ⟨0x61707865, 0x3320646e, 0x79622d32, 0x6b206574⟩
  keyLow := s.keyLow
  keyHigh := s.keyHigh
  counter := ⟨s.block.toUInt32, (s.block >>> 32).toUInt32, 0, 0⟩

/-- The sixteen words of the next block: the square after twelve rounds, added to
itself before them. -/
def blockWords (s : Stream) : List UInt32 := ((s.square.doubleRounds 6).add s.square).toList

def next32 (s : Stream) : UInt32 × Stream :=
  match s.pending with
  | w :: ws => (w, { s with pending := ws })
  | [] =>
    match s.blockWords with
    | w :: ws => (w, { s with block := s.block + 1, pending := ws })
    | [] => (0, s)

/-- Two words, the low half first. -/
def next64 (s : Stream) : UInt64 × Stream :=
  let (low, s) := s.next32
  let (high, s) := s.next32
  ((high.toUInt64 <<< 32) ||| low.toUInt64, s)

def ofKey (key : Nat → UInt32) : Stream where
  keyLow := ⟨key 0, key 1, key 2, key 3⟩
  keyHigh := ⟨key 4, key 5, key 6, key 7⟩
  block := 0
  pending := []

/-- The word of four bytes, the low byte first. -/
def wordAt (bytes : List UInt8) (i : Nat) : UInt32 :=
  let byte := fun j => (bytes[4 * i + j]?.getD 0).toUInt32
  byte 0 ||| (byte 1 <<< 8) ||| (byte 2 <<< 16) ||| (byte 3 <<< 24)

def ofBytes (bytes : List UInt8) : Stream := ofKey (wordAt bytes)

/-- One step of the generator that stretches a seed of one word into a key. -/
def stretch (state : UInt64) : UInt64 := state * 6364136223846793005 + 11634580027462260723

/-- The word that a state of that generator stands for. -/
def squeeze (state : UInt64) : UInt32 :=
  let x := (((state >>> 18) ^^^ state) >>> 27).toUInt32
  let turn := (state >>> 59).toUInt32
  (x >>> turn) ||| (x <<< ((32 - turn) % 32))

def ofSeedWord (seed : UInt64) : Stream :=
  ofKey fun i => squeeze (Nat.repeat stretch (i + 1) seed)

end Stream

instance : SeededSource Stream where
  next32 := Stream.next32
  next64 := Stream.next64
  ofSeed := Stream.ofBytes

end ChaCha
end SymbolicRegression
