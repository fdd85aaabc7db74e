import SymbolicRegression.Proofs.Outcomes
import SymbolicRegression.Random.Draw

/-!
What a computation that has failed says about its parts.

`Failing.Fails x e` says that `x` may end in the failure `e`, whatever the state it starts
from, and `Confines x Q` that all failures of `x` satisfy `Q`.  Errors of the library and
misuses are failures alike, so that one bound serves for both: a computation confined to
`Failure.OfDraw` returns no error, and the only calls it misuses are draws.

A part of a sequence is only reached with a value of the part before it.  The rule for
sequences therefore asks what this part `Ensures`.
-/

namespace SymbolicRegression

/-! ## Failures -/

/-- Errors that are failures, or kinds of them. -/
class Cause (ε : Type) where
  failure : ε → Failure

instance : Cause Failure := ⟨id⟩

instance : Cause Error := ⟨.error⟩

instance : Cause Misuse := ⟨.misuse⟩

/-- A draw from a range, an interval, a probability or a pool that does not allow it. -/
def Misuse.OfDraw : Misuse → Prop
  | emptyRange _ _ | badInterval _ _ | badProbability _ | tooFew _ _ => True
  | outOfRange _ _ | missingOperand _ => False

/-- A draw was misused. -/
def Failure.OfDraw : Failure → Prop
  | error _ => False
  | misuse u => u.OfDraw

/-- No failure at all. -/
def Failure.Never (_ : Failure) : Prop := False

/-- Monads of computations that may fail. -/
class Failing (m : Type → Type) [Monad m] [Ending m] where
  Fails {α : Type} : m α → Failure → Prop
  not_fails_pure {α : Type} {a : α} {e : Failure} : ¬Fails (pure a) e
  fails_bind {α β : Type} {x : m α} {f : α → m β} {e : Failure} :
    Fails (x >>= f) e → Fails x e ∨ ∃ a, Ending.Returns x a ∧ Fails (f a) e

namespace Failing

instance {ε : Type} [Cause ε] : Failing (Except ε) where
  Fails x e := ∃ e', x = .error e' ∧ Cause.failure e' = e
  not_fails_pure := by
    rintro α a e ⟨e', h, -⟩
    cases h
  fails_bind {α β x f e} h := by
    cases x with
    | error e' =>
      obtain ⟨_, h, he⟩ := h
      cases h
      exact .inl ⟨e', rfl, he⟩
    | ok a => exact .inr ⟨a, rfl, h⟩

instance : Failing Logged where
  Fails x e := x.result = .error e
  not_fails_pure := nofun
  fails_bind {α β x f e} h := by
    rw [Logged.result_bind] at h
    cases hx : x.result with
    | error e' =>
      rw [hx] at h
      cases h
      exact .inl rfl
    | ok a =>
      rw [hx] at h
      exact .inr ⟨a, hx, h⟩

/-- A failure may come from any state. -/
instance {σ : Type} {m : Type → Type} [Monad m] [Ending m] [Failing m] : Failing (StateT σ m) where
  Fails x e := ∃ s, Fails (x.run s) e
  not_fails_pure := by
    rintro α a e ⟨s, h⟩
    exact not_fails_pure h
  fails_bind := by
    rintro α β x f e ⟨s, h⟩
    rw [StateT.run_bind] at h
    rcases fails_bind h with h | ⟨⟨a, t⟩, hx, h⟩
    · exact .inl ⟨s, h⟩
    · exact .inr ⟨a, ⟨s, t, hx⟩, ⟨t, h⟩⟩

end Failing

/-- Every failure a computation may end in satisfies a predicate. -/
def Confines {m : Type → Type} [Monad m] [Ending m] [Failing m] {α : Type} (x : m α)
    (Q : Failure → Prop) : Prop :=
  ∀ e, Failing.Fails x e → Q e

namespace Confines

variable {m : Type → Type} [Monad m] [Ending m] [Failing m] {α β : Type} {Q : Failure → Prop}

/-! ## Rules -/

theorem of_pure {a : α} : Confines (pure a : m α) Q :=
  fun _ h => absurd h Failing.not_fails_pure

theorem bind {x : m α} {f : α → m β} {P : α → Prop} (hx : Confines x Q) (hP : Ensures x P)
    (hf : ∀ a, P a → Confines (f a) Q) : Confines (x >>= f) Q := by
  intro e he
  rcases Failing.fails_bind he with he | ⟨a, ha, he⟩
  · exact hx e he
  · exact hf a (hP a ha) e he

/-- Nothing is known of the value of the first part. -/
theorem bind' {x : m α} {f : α → m β} (hx : Confines x Q) (hf : ∀ a, Confines (f a) Q) :
    Confines (x >>= f) Q :=
  hx.bind (Ensures.trivial x) fun a _ => hf a

theorem mono {x : m α} {R : Failure → Prop} (h : Confines x Q) (hQR : ∀ e, Q e → R e) :
    Confines x R :=
  fun e he => hQR e (h e he)

theorem of_mapM [LawfulMonad m] {f : α → m β} {l : List α} (h : ∀ a ∈ l, Confines (f a) Q) :
    Confines (l.mapM f) Q := by
  induction l with
  | nil =>
    rw [List.mapM_nil]
    exact of_pure
  | cons a l ih =>
    rw [List.mapM_cons]
    exact (h a List.mem_cons_self).bind' fun b =>
      (ih fun c hc => h c (List.mem_cons_of_mem a hc)).bind' fun bs => of_pure

theorem of_times {d : m α} (h : Confines d Q) (n : Nat) : Confines (Draw.times n d) Q := by
  induction n with
  | zero => exact of_pure
  | succ n ih => exact h.bind' fun a => ih.bind' fun as => of_pure

theorem of_ok {ε : Type} [Cause ε] {x : Except ε α} {a : α} (h : x = .ok a) : Confines x Q := by
  rintro e ⟨e', he, -⟩
  rw [h] at he
  cases he

/-- What cannot fail returns a value. -/
theorem exists_ok {ε : Type} [Cause ε] {x : Except ε α} (h : Confines x Failure.Never) :
    ∃ a, x = .ok a := by
  cases x with
  | error e => exact (h _ ⟨e, rfl, rfl⟩).elim
  | ok a => exact ⟨a, rfl⟩

theorem of_throw {ε σ : Type} [Cause ε] {e : ε} (h : Q (Cause.failure e)) :
    Confines (throw e : StateT σ (Except ε) α) Q := by
  rintro _ ⟨s, e', he, rfl⟩
  cases he
  exact h

theorem of_run {σ : Type} {d : StateT σ m α} (h : Confines d Q) (s : σ) : Confines (d.run s) Q :=
  fun e he => h e ⟨s, he⟩

/-! ## Lifts -/

theorem of_mapError {ε : Type} [Cause ε] {x : Except ε α} (h : Confines x Q) :
    Confines (x.mapError Cause.failure) Q := by
  rintro e ⟨e', he, rfl⟩
  cases x with
  | ok a => cases he
  | error u =>
    cases he
    exact h _ ⟨u, rfl, rfl⟩

theorem of_misuse {x : Except Misuse α} (h : Confines x Q) : Confines (liftM x : Logged α) Q :=
  fun e he => of_mapError h e ⟨e, he, rfl⟩

theorem of_error {x : Except Error α} (h : Confines x Q) : Confines (liftM x : Logged α) Q :=
  fun e he => of_mapError h e ⟨e, he, rfl⟩

theorem of_lift {σ : Type} {x : m α} (h : Confines x Q) : Confines (liftM x : StateT σ m α) Q := by
  rintro e ⟨s, he⟩
  exact (h.bind' fun a => of_pure (a := (a, s))) e he

theorem of_draw {σ : Type} {d : Draw σ α} (h : Confines d Q) :
    Confines (liftM d : LoggedDraw σ α) Q := by
  rintro e ⟨s, he⟩
  exact of_misuse (h.of_run s) e he

end Confines

/-- A log can always be written. -/
theorem Logged.confines_write {records : List LogRecord} {Q : Failure → Prop} :
    Confines (Logged.write records) Q :=
  nofun

theorem confines_memberAt {α : Type} {l : List α} {i : Nat} {Q : Failure → Prop}
    (h : i < l.length) : Confines (memberAt l i) Q :=
  .of_ok (memberAt_eq_ok.mpr (List.getElem?_eq_getElem h))

end SymbolicRegression
