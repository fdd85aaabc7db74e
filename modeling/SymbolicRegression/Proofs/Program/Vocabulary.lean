import SymbolicRegression.Program.Basic
import Mathlib.Data.List.Basic

/-!
What a program is built from.

A vocabulary says which features, constants and operators may stand in a program.  Being
built from one is kept by everything that only cuts out subtrees and puts them in other
places.
-/

namespace SymbolicRegression

theorem Operator.arity_pos (op : Operator) : 0 < op.arity := by
  cases op <;> decide

namespace Program

/-- The features, constants and operators that are allowed. -/
structure Vocabulary where
  feature : Nat → Prop
  constant : Float → Prop
  operator : Operator → Prop

/-- Nothing is forbidden. -/
def Vocabulary.any : Vocabulary where
  feature _ := True
  constant _ := True
  operator _ := True

/-- Everything but features from `n` on. -/
def Vocabulary.upTo (n : Nat) : Vocabulary where
  feature := (· < n)
  constant _ := True
  operator _ := True

/-- Whatever is allowed in `v` is allowed in `w`. -/
structure Vocabulary.Within (v w : Vocabulary) : Prop where
  feature : ∀ i, v.feature i → w.feature i
  constant : ∀ c, v.constant c → w.constant c
  operator : ∀ op, v.operator op → w.operator op

mutual

/-- Every node is of the vocabulary, and every operator has as many operands as it takes. -/
def BuiltFrom (v : Vocabulary) : Program → Prop
  | feature i => v.feature i
  | constant c => v.constant c
  | call op ps => v.operator op ∧ ps.length = op.arity ∧ AllBuiltFrom v ps

def AllBuiltFrom (v : Vocabulary) : List Program → Prop
  | [] => True
  | p :: ps => p.BuiltFrom v ∧ AllBuiltFrom v ps

end

variable {v w : Vocabulary}

theorem allBuiltFrom_iff {ps : List Program} : AllBuiltFrom v ps ↔ ∀ p ∈ ps, p.BuiltFrom v := by
  induction ps with
  | nil => exact ⟨fun _ => nofun, fun _ => trivial⟩
  | cons p ps ih => rw [AllBuiltFrom, ih, List.forall_mem_cons]

theorem BuiltFrom.operands_ne_nil {op : Operator} {ps : List Program}
    (h : (call op ps).BuiltFrom v) : ps ≠ [] := by
  obtain ⟨-, hlen, -⟩ := h
  exact List.ne_nil_of_length_pos (hlen ▸ op.arity_pos)

mutual

theorem BuiltFrom.mono (h : v.Within w) : ∀ {p : Program}, p.BuiltFrom v → p.BuiltFrom w
  | feature i, hp => h.feature i hp
  | constant c, hp => h.constant c hp
  | call op _, ⟨hop, hlen, hps⟩ => ⟨h.operator op hop, hlen, AllBuiltFrom.mono h hps⟩

theorem AllBuiltFrom.mono (h : v.Within w) : ∀ {ps : List Program}, AllBuiltFrom v ps →
    AllBuiltFrom w ps
  | [], _ => trivial
  | _ :: _, ⟨hp, hps⟩ => ⟨BuiltFrom.mono h hp, AllBuiltFrom.mono h hps⟩

end

mutual

theorem BuiltFrom.constants : ∀ {p : Program}, p.BuiltFrom v → ∀ c ∈ p.constants, v.constant c
  | feature _, _, _, hc => nomatch hc
  | constant _, h, _, hc => List.mem_singleton.mp hc ▸ h
  | call _ _, ⟨_, _, hps⟩, c, hc => AllBuiltFrom.constants hps c hc

theorem AllBuiltFrom.constants : ∀ {ps : List Program}, AllBuiltFrom v ps →
    ∀ c ∈ constantsOf ps, v.constant c
  | [], _, _, hc => nomatch hc
  | _ :: _, ⟨hp, hps⟩, c, hc =>
    (List.mem_append.mp hc).elim (BuiltFrom.constants hp c) (AllBuiltFrom.constants hps c)

end

/-! ## Subtrees -/

mutual

theorem BuiltFrom.subtree : ∀ {p : Program} {path : List Nat} {q : Program}, p.BuiltFrom v →
    p.subtree? path = some q → q.BuiltFrom v
  | p, [], q, hp, h => by
    rw [subtree?] at h
    cases h
    exact hp
  | call _ _, _ :: _, _, ⟨_, _, hps⟩, h => AllBuiltFrom.subtreeIn hps h

theorem AllBuiltFrom.subtreeIn : ∀ {ps : List Program} {i : Nat} {path : List Nat} {q : Program},
    AllBuiltFrom v ps → subtreeIn? ps i path = some q → q.BuiltFrom v
  | _ :: _, 0, _, _, ⟨hp, _⟩, h => BuiltFrom.subtree hp h
  | _ :: _, _ + 1, _, _, ⟨_, hps⟩, h => AllBuiltFrom.subtreeIn hps h

end

mutual

theorem BuiltFrom.replace : ∀ {p : Program} {path : List Nat} {new q : Program}, p.BuiltFrom v →
    new.BuiltFrom v → p.replace? path new = some q → q.BuiltFrom v
  | p, [], new, q, _, hnew, h => by
    rw [replace?] at h
    cases h
    exact hnew
  | call op ps, i :: path, new, q, ⟨hop, hlen, hps⟩, hnew, h => by
    rw [replace?, Option.map_eq_some_iff] at h
    obtain ⟨qs, hqs, rfl⟩ := h
    obtain ⟨hlen', hqs'⟩ := AllBuiltFrom.replaceIn hps hnew hqs
    exact ⟨hop, hlen'.trans hlen, hqs'⟩

theorem AllBuiltFrom.replaceIn : ∀ {ps : List Program} {i : Nat} {path : List Nat} {new : Program}
    {qs : List Program}, AllBuiltFrom v ps → new.BuiltFrom v →
    replaceIn? ps i path new = some qs → qs.length = ps.length ∧ AllBuiltFrom v qs
  | p :: ps, 0, path, new, qs, ⟨hp, hps⟩, hnew, h => by
    rw [replaceIn?, Option.map_eq_some_iff] at h
    obtain ⟨q, hq, rfl⟩ := h
    exact ⟨rfl, BuiltFrom.replace hp hnew hq, hps⟩
  | p :: ps, i + 1, path, new, qs, ⟨hp, hps⟩, hnew, h => by
    rw [replaceIn?, Option.map_eq_some_iff] at h
    obtain ⟨rs, hrs, rfl⟩ := h
    obtain ⟨hlen, hrs'⟩ := AllBuiltFrom.replaceIn hps hnew hrs
    exact ⟨congrArg (· + 1) hlen, hp, hrs'⟩

end

end Program
end SymbolicRegression
