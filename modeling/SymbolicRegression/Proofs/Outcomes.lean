import SymbolicRegression.Logged

/-!
What a computation that has ended well says about its parts.

Two views are used.  An equation `x = .ok a` is taken apart step by step where the steps
matter.  Where only the value matters, and neither the log nor the stream of random words
it came from, `Ending.Returns x a` says that `a` is a value `x` may end in, and
`Ensures x P` that all such values satisfy `P`.
-/

namespace SymbolicRegression

/-! ## Equations -/

theorem Except.bind_eq_ok {ε α β : Type} {x : Except ε α} {f : α → Except ε β} {b : β} :
    (x >>= f) = .ok b ↔ ∃ a, x = .ok a ∧ f a = .ok b := by
  cases x with
  | error e => simp [bind, Except.bind]
  | ok a => simp [bind, Except.bind]

theorem Except.mapError_eq_ok {ε ε' α : Type} {x : Except ε α} {f : ε → ε'} {a : α} :
    x.mapError f = .ok a ↔ x = .ok a := by
  cases x with
  | error e => exact ⟨nofun, nofun⟩
  | ok b => exact ⟨congrArg _ ∘ Except.ok.inj, congrArg _ ∘ Except.ok.inj⟩

theorem Except.map_eq_ok {ε α β : Type} {x : Except ε α} {f : α → β} {b : β} :
    f <$> x = .ok b ↔ ∃ a, x = .ok a ∧ f a = b := by
  cases x <;> simp [Functor.map, Except.map]

/-- The values of a list of calls belong to the members of the list, one by one. -/
theorem Except.getElem?_of_mapM {ε α β : Type} {f : α → Except ε β} {l : List α} {bs : List β}
    (h : l.mapM f = .ok bs) : ∀ (k : Nat) (b : β), bs[k]? = some b →
      ∃ a, l[k]? = some a ∧ f a = .ok b := by
  induction l generalizing bs with
  | nil =>
    cases h
    nofun
  | cons a l ih =>
    rw [List.mapM_cons] at h
    obtain ⟨b, hb, h⟩ := Except.bind_eq_ok.mp h
    obtain ⟨bs, hbs, h⟩ := Except.bind_eq_ok.mp h
    cases h
    intro k c hc
    cases k with
    | zero =>
      cases hc
      exact ⟨a, rfl, hb⟩
    | succ k => exact ih hbs k c hc

theorem Except.mapM_eq_ok {ε α β : Type} {f : α → Except ε β} {g : α → β} {l : List α}
    (h : ∀ a ∈ l, f a = .ok (g a)) : l.mapM f = .ok (l.map g) := by
  induction l with
  | nil => rfl
  | cons a l ih =>
    rw [List.mapM_cons, h a List.mem_cons_self, ih fun b hb => h b (List.mem_cons_of_mem a hb)]
    rfl

theorem Except.exists_eq_ok_of_mapM {ε α β : Type} {f : α → Except ε β} {l : List α} {bs : List β}
    (h : l.mapM f = .ok bs) : ∀ a ∈ l, ∃ b, f a = .ok b := by
  induction l generalizing bs with
  | nil => nofun
  | cons a l ih =>
    rw [List.mapM_cons] at h
    obtain ⟨b, hb, h⟩ := Except.bind_eq_ok.mp h
    obtain ⟨bs, hbs, -⟩ := Except.bind_eq_ok.mp h
    exact List.forall_mem_cons.mpr ⟨⟨b, hb⟩, ih hbs⟩

theorem Except.mapM_eq_ok_iff {ε α β : Type} {f : α → Except ε β} {l : List α} {bs : List β} :
    l.mapM f = .ok bs ↔ l.map f = bs.map .ok := by
  constructor
  · intro h
    induction l generalizing bs with
    | nil =>
      cases h
      rfl
    | cons a l ih =>
      rw [List.mapM_cons] at h
      obtain ⟨b, hb, h⟩ := Except.bind_eq_ok.mp h
      obtain ⟨bs, hbs, h⟩ := Except.bind_eq_ok.mp h
      cases h
      rw [List.map_cons, List.map_cons, hb, ih hbs]
  · intro h
    calc
      l.mapM f = (l.map f).mapM id := by rw [List.mapM_map, Function.id_comp]
      _ = bs.mapM .ok := by rw [h, List.mapM_map, Function.id_comp]
      _ = .ok (bs.map id) := Except.mapM_eq_ok fun _ _ => rfl
      _ = .ok bs := by rw [List.map_id]

/-- Two lists of calls have the same values if every two calls have. -/
theorem Except.map_eq_map_ok_congr {ε ε' α β : Type} {f : α → Except ε β} {g : α → Except ε' β}
    {l : List α} {bs : List β} (h : ∀ a ∈ l, ∀ b, f a = .ok b ↔ g a = .ok b) :
    l.map f = bs.map .ok ↔ l.map g = bs.map .ok := by
  induction l generalizing bs with
  | nil => cases bs <;> simp
  | cons a l ih =>
    obtain ⟨ha, hl⟩ := List.forall_mem_cons.mp h
    cases bs with
    | nil => exact ⟨nofun, nofun⟩
    | cons b bs => simp only [List.map_cons, List.cons.injEq, ha, ih hl]

/-- Calls in two stages may be made stage by stage. -/
theorem Except.map_bind_eq_map_ok {ε α β γ : Type} {f : α → Except ε β} {g : β → Except ε γ}
    {l : List α} {cs : List γ} :
    l.map (fun a => f a >>= g) = cs.map .ok ↔
      ∃ bs : List β, l.map f = bs.map .ok ∧ bs.map g = cs.map .ok := by
  induction l generalizing cs with
  | nil => cases cs <;> simp
  | cons a l ih =>
    cases cs with
    | nil => simp
    | cons c cs =>
      rw [List.map_cons, List.map_cons, List.cons.injEq, Except.bind_eq_ok, ih]
      constructor
      · intro ⟨⟨b, hb, hc⟩, bs, hbs, hcs⟩
        exact ⟨b :: bs, by simp [hb, hbs], by simp [hc, hcs]⟩
      · intro ⟨bs, hbs, hcs⟩
        cases bs with
        | nil => cases hbs
        | cons b bs =>
          obtain ⟨hb, hbs⟩ := List.cons.inj hbs
          obtain ⟨hc, hcs⟩ := List.cons.inj hcs
          exact ⟨⟨b, hb, hc⟩, bs, hbs, hcs⟩

/-- A list of calls fails with one of their errors. -/
theorem Except.exists_of_mapM_error {ε α β : Type} {f : α → Except ε β} {l : List α} {e : ε}
    (h : l.mapM f = .error e) : ∃ a ∈ l, f a = .error e := by
  induction l with
  | nil => cases h
  | cons a l ih =>
    rw [List.mapM_cons] at h
    cases ha : f a with
    | error e' =>
      rw [ha] at h
      cases h
      exact ⟨a, List.mem_cons_self, ha⟩
    | ok b =>
      rw [ha] at h
      cases hl : l.mapM f with
      | error e' =>
        rw [hl] at h
        cases h
        obtain ⟨c, hc, he⟩ := ih hl
        exact ⟨c, List.mem_cons_of_mem a hc, he⟩
      | ok bs =>
        rw [hl] at h
        cases h

theorem Except.exists_eq_ok {ε α : Type} {x : Except ε α} (h : x.toOption.isSome = true) :
    ∃ a, x = .ok a := by
  cases x with
  | error e => contradiction
  | ok a => exact ⟨a, rfl⟩

/-- A test that is passed is passed by a value. -/
theorem Except.exists_of_any {ε α : Type} {x : Except ε α} {p : α → Bool}
    (h : x.toOption.any p = true) : ∃ a, x = .ok a ∧ p a = true := by
  cases x with
  | error e => contradiction
  | ok a => exact ⟨a, rfl, h⟩

theorem memberAt_eq_ok {α : Type} {l : List α} {i : Nat} {a : α} :
    memberAt l i = .ok a ↔ l[i]? = some a := by
  unfold memberAt
  cases l[i]? <;> simp

theorem mem_of_memberAt {α : Type} {l : List α} {i : Nat} {a : α} (h : memberAt l i = .ok a) :
    a ∈ l :=
  List.mem_of_getElem? (memberAt_eq_ok.mp h)

namespace Logged

variable {α β : Type}

theorem result_bind_eq_ok {x : Logged α} {f : α → Logged β} {b : β} :
    (x >>= f).result = .ok b ↔ ∃ a, x.result = .ok a ∧ (f a).result = .ok b := by
  rw [result_bind, Except.bind_eq_ok]

theorem result_misuse_bind {x : Except Misuse α} {f : α → Logged β} {a : α} (h : x = .ok a) :
    ((liftM x : Logged α) >>= f).result = (f a).result := by
  rw [h]
  exact result_bind _ f

theorem result_failure_bind {x : Except Failure α} {f : α → Logged β} {a : α} (h : x = .ok a) :
    ((liftM x : Logged α) >>= f).result = (f a).result := by
  rw [h]
  exact result_bind _ f

/-- The log of a sequence is one list, however the sequence is grouped. -/
instance : LawfulMonad Logged := by
  refine LawfulMonad.mk' Logged (fun {α} x => ?_) (fun _ _ => rfl) fun {α β γ} x f g => ?_
  · obtain ⟨result, log⟩ := x
    cases result with
    | error e => rfl
    | ok a => exact congrArg (Logged.mk (.ok a)) (List.append_nil log)
  · obtain ⟨result, log⟩ := x
    cases result with
    | error e => rfl
    | ok a =>
      change Logged.bind (Logged.bind ⟨.ok a, log⟩ f) g =
        Logged.bind ⟨.ok a, log⟩ fun a => Logged.bind (f a) g
      unfold Logged.bind
      cases hf : (f a).result with
      | error e => simp only [hf]
      | ok b => simp only [hf, List.append_assoc]

theorem result_map (f : α → β) (x : Logged α) : (f <$> x).result = f <$> x.result := by
  show (x >>= fun a => pure (f a)).result = _
  rw [result_bind]
  cases x.result <;> rfl

/-- A computation without errors of the library; it may be misused. -/
def Faultless (x : Logged α) : Prop := ∀ e, x.result ≠ .error (.error e)

theorem faultless_pure (a : α) : (pure a : Logged α).Faultless := nofun

theorem faultless_misuse (x : Except Misuse α) : (liftM x : Logged α).Faultless := by
  intro e he
  change x.mapError Failure.misuse = _ at he
  cases x with
  | error m => cases he
  | ok a => cases he

theorem Faultless.map_ne {x : Logged α} (h : x.Faultless) (f : α → β) (e : Error) :
    f <$> x.result ≠ .error (.error e) := by
  intro he
  cases hr : x.result with
  | error e' =>
    rw [hr] at he
    cases he
    exact h e hr
  | ok a =>
    rw [hr] at he
    cases he

theorem Faultless.bind {x : Logged α} {f : α → Logged β} (hx : x.Faultless)
    (hf : ∀ a, (f a).Faultless) : (x >>= f).Faultless := by
  intro e he
  rw [result_bind] at he
  cases hr : x.result with
  | error e' =>
    rw [hr] at he
    cases he
    exact hx e hr
  | ok a =>
    rw [hr] at he
    exact hf a e he

end Logged

/-! ## Values -/

/-- Monads of computations that may end in a value. -/
class Ending (m : Type → Type) [Monad m] where
  Returns {α : Type} : m α → α → Prop
  returns_pure {α : Type} {a b : α} : Returns (pure a) b → b = a
  returns_bind {α β : Type} {x : m α} {f : α → m β} {b : β} :
    Returns (x >>= f) b → ∃ a, Returns x a ∧ Returns (f a) b

namespace Ending

instance {ε : Type} : Ending (Except ε) where
  Returns x a := x = .ok a
  returns_pure h := (Except.ok.inj h).symm
  returns_bind h := Except.bind_eq_ok.mp h

instance : Ending Logged where
  Returns x a := x.result = .ok a
  returns_pure h := (Except.ok.inj h).symm
  returns_bind h := Logged.result_bind_eq_ok.mp h

/-- A value may come from any state. -/
instance {σ : Type} {m : Type → Type} [Monad m] [Ending m] : Ending (StateT σ m) where
  Returns x a := ∃ s s', Returns (x.run s) (a, s')
  returns_pure := by
    rintro α a b ⟨s, s', h⟩
    exact congrArg Prod.fst (returns_pure h)
  returns_bind := by
    rintro α β x f b ⟨s, s', h⟩
    rw [StateT.run_bind] at h
    obtain ⟨⟨a, t⟩, hx, hf⟩ := returns_bind h
    exact ⟨a, ⟨s, t, hx⟩, ⟨t, s', hf⟩⟩

end Ending

/-- Every value a computation may end in satisfies a predicate. -/
def Ensures {m : Type → Type} [Monad m] [Ending m] {α : Type} (x : m α) (P : α → Prop) : Prop :=
  ∀ a, Ending.Returns x a → P a

namespace Ensures

variable {m : Type → Type} [Monad m] [Ending m] {α β : Type}

theorem of_pure {a : α} {P : α → Prop} (h : P a) : Ensures (pure a : m α) P := by
  intro b hb
  rw [Ending.returns_pure hb]
  exact h

theorem bind {x : m α} {f : α → m β} {P : α → Prop} {Q : β → Prop} (hx : Ensures x P)
    (hf : ∀ a, P a → Ensures (f a) Q) : Ensures (x >>= f) Q := by
  intro b hb
  obtain ⟨a, ha, hb⟩ := Ending.returns_bind hb
  exact hf a (hx a ha) b hb

theorem mono {x : m α} {P Q : α → Prop} (h : Ensures x P) (hPQ : ∀ a, P a → Q a) : Ensures x Q :=
  fun a ha => hPQ a (h a ha)

theorem trivial (x : m α) : Ensures x fun _ => True := fun _ _ => True.intro

/-- Nothing is known of the value of the first part. -/
theorem bind' {x : m α} {f : α → m β} {Q : β → Prop} (hf : ∀ a, Ensures (f a) Q) :
    Ensures (x >>= f) Q :=
  (trivial x).bind fun a _ => hf a

/-- What each call ensures holds of all values of a list of calls. -/
theorem of_mapM [LawfulMonad m] {f : α → m β} {P : β → Prop} {l : List α}
    (h : ∀ a ∈ l, Ensures (f a) P) :
    Ensures (l.mapM f) fun bs => bs.length = l.length ∧ ∀ b ∈ bs, P b := by
  induction l with
  | nil =>
    rw [List.mapM_nil]
    exact of_pure ⟨rfl, nofun⟩
  | cons a l ih =>
    rw [List.mapM_cons]
    refine (h a List.mem_cons_self).bind fun b hb => ?_
    refine (ih fun c hc => h c (List.mem_cons_of_mem a hc)).bind fun bs hbs => of_pure ?_
    exact ⟨congrArg (· + 1) hbs.1, List.forall_mem_cons.mpr ⟨hb, hbs.2⟩⟩

theorem of_throw {ε σ : Type} {e : ε} {P : α → Prop} :
    Ensures (throw e : StateT σ (Except ε) α) P := by
  rintro a ⟨s, s', h⟩
  cases h

theorem of_misuse {x : Except Misuse α} {P : α → Prop} (h : Ensures x P) :
    Ensures (liftM x : Logged α) P :=
  fun a ha => h a (Except.mapError_eq_ok.mp ha)

theorem of_run {σ : Type} {d : StateT σ m α} {P : α → Prop} (h : Ensures d P) (s : σ) :
    Ensures (d.run s) fun r => P r.1 :=
  fun r hr => h r.1 ⟨s, r.2, hr⟩

/-- A draw that keeps a log returns what the draw returns. -/
theorem of_draw {σ : Type} {d : Draw σ α} {P : α → Prop} (h : Ensures d P) :
    Ensures (liftM d : LoggedDraw σ α) P := by
  rintro a ⟨s, s', hs⟩
  exact h a ⟨s, s', Except.mapError_eq_ok.mp hs⟩

theorem of_except {σ ε : Type} {x : Except ε α} {P : α → Prop} (h : Ensures x P) :
    Ensures (liftM x : StateT σ (Except ε) α) P := by
  rintro a ⟨s, s', hs⟩
  obtain ⟨b, hb, heq⟩ := Except.bind_eq_ok.mp hs
  cases heq
  exact h a hb

end Ensures

end SymbolicRegression
