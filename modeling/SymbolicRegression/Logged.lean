import SymbolicRegression.Error
import SymbolicRegression.Log
import SymbolicRegression.Random.Source

/-!
Computations that keep a log.  The log survives a failure, and the result never
depends on it: the result of a composite computation is the composition of the results.
-/

namespace SymbolicRegression

structure Logged (α : Type) where
  result : Except Failure α
  log : List LogRecord

namespace Logged

protected def pure {α : Type} (a : α) : Logged α := ⟨.ok a, []⟩

/-- The log of the second computation follows that of the first, if it is reached. -/
protected def bind {α β : Type} (x : Logged α) (f : α → Logged β) : Logged β :=
  match x.result with
  | .ok a =>
    let y := f a
    { result := y.result, log := x.log ++ y.log }
  | .error e => { result := .error e, log := x.log }

instance : Monad Logged where
  pure := Logged.pure
  bind := Logged.bind

theorem result_bind {α β : Type} (x : Logged α) (f : α → Logged β) :
    (x >>= f).result = x.result >>= fun a => (f a).result := by
  change (Logged.bind x f).result = _
  unfold Logged.bind
  cases x.result <;> rfl

def write (records : List LogRecord) : Logged Unit := ⟨.ok (), records⟩

instance : MonadLift (Except Failure) Logged where
  monadLift x := ⟨x, []⟩

instance : MonadLift (Except Error) Logged where
  monadLift x := ⟨x.mapError Failure.error, []⟩

instance : MonadLift (Except Misuse) Logged where
  monadLift x := ⟨x.mapError Failure.misuse, []⟩

end Logged

/-- A draw that keeps a log. -/
abbrev LoggedDraw (σ : Type) := StateT σ Logged

instance {σ : Type} : MonadLift (Draw σ) (LoggedDraw σ) where
  monadLift d := fun s => (d.run s : Except Misuse _)

end SymbolicRegression
