import SymbolicRegression.Random.Source

/-!
A source that yields given words first and then those of a counter whose states are
mixed.
-/

namespace SymbolicRegression
namespace Scripted

structure Stream where
  words : List UInt64
  tail : UInt64

namespace Stream

def mix (state : UInt64) : UInt64 :=
  let z := (state ^^^ (state >>> 30)) * 0xBF58476D1CE4E5B9
  let z := (z ^^^ (z >>> 27)) * 0x94D049BB133111EB
  z ^^^ (z >>> 31)

def next64 (s : Stream) : UInt64 × Stream :=
  match s.words with
  | w :: ws => (w, { s with words := ws })
  | [] =>
    let state := s.tail + 0x9E3779B97F4A7C15
    (mix state, { s with tail := state })

def next32 (s : Stream) : UInt32 × Stream :=
  let (w, s) := s.next64
  (w.toUInt32, s)

end Stream

instance : RandomSource Stream where
  next32 := Stream.next32
  next64 := Stream.next64

end Scripted
end SymbolicRegression
