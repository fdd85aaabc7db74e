import SymbolicRegression.Misuse

/-!
Sources of random words, and the monad of draws from them.
-/

namespace SymbolicRegression

/-- A source yields words of 32 and of 64 bits and moves on. -/
class RandomSource (σ : Type) where
  next32 : σ → UInt32 × σ
  next64 : σ → UInt64 × σ

/-- A source that a seed of 32 bytes determines. -/
class SeededSource (σ : Type) extends RandomSource σ where
  ofSeed : List UInt8 → σ

/-- A computation that draws from a source.  It fails only if a draw is misused. -/
abbrev Draw (σ : Type) := StateT σ (Except Misuse)

end SymbolicRegression
