import SymbolicRegression.Program.Parser
import Mathlib.Data.List.TakeWhile

/-!
The grammar of program texts.

A text is put together from words, blanks and the three marks `(`, `,` and `)`.  A word is
followed by a blank, a mark or the end wherever it stands, so that a derivation never cuts a
word short: the words are the longest runs of such characters.
-/

namespace SymbolicRegression
namespace Program
namespace Grammar

open SymbolicRegression.Program.Parser Text

/-- Characters that may stand before every token. -/
def Blanks (b : List Char) : Prop := ∀ c ∈ b, isBlank c

/-- Characters other than marks and blanks, at least one. -/
structure IsWord (t : List Char) : Prop where
  ne_nil : t ≠ []
  plain : ∀ c ∈ t, isDelimiter c = false

/-- The letter of a feature and its index. -/
def NamesFeature (t : List Char) (i : ℕ) : Prop := ∃ ds, t = 'x' :: ds ∧ Decimal.index? ds = some i

/-- The name of an operator in any case, or the other name of addition. -/
def NamesOperator (t : List Char) (op : Operator) : Prop :=
  t.map Char.toLower = op.name.toList ∨ t.map Char.toLower = "sum".toList ∧ op = .add

mutual

/-- The text, which may start with blanks, derives the program.  A word that can be read in
several ways is a feature first, then a number, then an operator. -/
inductive Node : List Char → Program → Prop where
  | feature {b t : List Char} {i : ℕ} (hb : Blanks b) (ht : IsWord t) (h : NamesFeature t i) :
      Node (b ++ t) (.feature i)
  | number {b t : List Char} {x : Float} (hb : Blanks b) (ht : IsWord t)
      (hf : ¬ ∃ i, NamesFeature t i) (h : Decimal.double? t = some x) : Node (b ++ t) (.constant x)
  | call {b t b₁ body b₂ : List Char} {op : Operator} {ps : List Program} (hb : Blanks b)
      (ht : IsWord t) (hf : ¬ ∃ i, NamesFeature t i) (hn : Decimal.double? t = none)
      (h : NamesOperator t op) (hb₁ : Blanks b₁) (hps : Operands body ps)
      (hlen : ps.length = op.arity) (hb₂ : Blanks b₂) :
      Node (b ++ t ++ b₁ ++ '(' :: (body ++ b₂ ++ [')'])) (.call op ps)

/-- Nodes with commas between them, at least one. -/
inductive Operands : List Char → List Program → Prop where
  | one {t : List Char} {p : Program} (h : Node t p) : Operands t [p]
  | more {t b ts : List Char} {p : Program} {ps : List Program} (h : Node t p) (hb : Blanks b)
      (hps : Operands ts ps) : Operands (t ++ b ++ ',' :: ts) (p :: ps)

end

/-- The whole text derives the program: a node with blanks around it. -/
def Derives (s : List Char) (p : Program) : Prop :=
  ∃ t b, s = t ++ b ∧ Node t p ∧ Blanks b

/-! ## Words -/

variable {t rest : List Char} {op : Operator}

/-- A text at which a word ends. -/
def Stops (rest : List Char) : Prop := ∀ c ∈ rest.head?, isDelimiter c

theorem stops_nil : Stops [] := nofun

theorem stops_cons {c : Char} (h : isDelimiter c) : Stops (c :: rest) := by
  rintro d ⟨⟩
  exact h

theorem isDelimiter_of_isBlank {c : Char} (h : isBlank c) : isDelimiter c := by
  simp [isDelimiter, h]

theorem stops_append {b : List Char} (hb : Blanks b) (h : Stops rest) : Stops (b ++ rest) := by
  cases b with
  | nil => exact h
  | cons c cs => exact stops_cons (isDelimiter_of_isBlank (hb c List.mem_cons_self))

/-- A word is taken from a text in full and no further. -/
theorem IsWord.token (ht : IsWord t) (h : Stops rest) :
    Parser.token (t ++ rest) = t ∧ afterToken (t ++ rest) = rest := by
  have hplain : ∀ c ∈ t, (!isDelimiter c) = true := fun c hc => by rw [ht.plain c hc]; rfl
  unfold Parser.token afterToken
  rw [List.takeWhile_append_of_pos hplain, List.dropWhile_append_of_pos hplain]
  cases rest with
  | nil => exact ⟨List.append_nil t, rfl⟩
  | cons c cs =>
    have hc : isDelimiter c = true := h c rfl
    rw [List.takeWhile_cons, List.dropWhile_cons, hc]
    exact ⟨List.append_nil t, rfl⟩

theorem isWord_token {s : List Char} (h : Parser.token s ≠ []) : IsWord (Parser.token s) := by
  refine ⟨h, fun c hc => ?_⟩
  have := List.mem_takeWhile_imp hc
  simpa using this

theorem dropBlanks_append {b : List Char} (hb : Blanks b) (s : List Char) :
    dropBlanks (b ++ s) = dropBlanks s := List.dropWhile_append_of_pos hb

theorem dropBlanks_cons {c : Char} {s : List Char} (h : isBlank c = false) :
    dropBlanks (c :: s) = c :: s := by
  unfold dropBlanks
  rw [List.dropWhile_cons, h]
  rfl

/-- Dropping blanks leaves a word alone. -/
theorem IsWord.dropBlanks (ht : IsWord t) (rest : List Char) :
    Text.dropBlanks (t ++ rest) = t ++ rest := by
  obtain ⟨c, cs, rfl⟩ := List.exists_cons_of_ne_nil ht.ne_nil
  have hc := ht.plain c List.mem_cons_self
  refine dropBlanks_cons ?_
  by_contra hblank
  have := isDelimiter_of_isBlank (Bool.of_not_eq_false hblank)
  rw [hc] at this
  contradiction

/-- A text is what is dropped from it and what is left. -/
theorem exists_blanks (s : List Char) : ∃ b, Blanks b ∧ s = b ++ Text.dropBlanks s :=
  ⟨s.takeWhile isBlank, fun _ hc => List.mem_takeWhile_imp hc, List.takeWhile_append_dropWhile.symm⟩

/-! ## What a word is -/

theorem feature?_eq_some_iff {i : ℕ} : feature? t = some i ↔ NamesFeature t i := by
  unfold feature? NamesFeature
  split
  · next ds =>
    refine ⟨fun h => ⟨ds, rfl, h⟩, fun ⟨ds', h, hi⟩ => ?_⟩
    rw [(List.cons.inj h).2]
    exact hi
  · next h =>
    refine ⟨nofun, fun ⟨ds, hds, _⟩ => absurd hds (h ds)⟩

theorem feature?_eq_none_iff : feature? t = none ↔ ¬ ∃ i, NamesFeature t i := by
  simp only [← feature?_eq_some_iff, ← Option.isSome_iff_exists, Option.not_isSome_iff_eq_none]

theorem IsWord.reverse (ht : IsWord t) : IsWord t.reverse :=
  ⟨List.reverse_ne_nil_iff.mpr ht.ne_nil, fun c hc => ht.plain c (List.mem_reverse.mp hc)⟩

theorem IsWord.fold (ht : IsWord t) : (Text.fold (String.ofList t)).toList = t.map Char.toLower := by
  have hfront := ht.dropBlanks []
  have hback := ht.reverse.dropBlanks []
  rw [List.append_nil] at hfront hback
  rw [Text.fold, Text.strip, String.toList_map, String.toList_ofList, String.toList_ofList, hfront,
    hback, List.reverse_reverse]

theorem name_injective : Function.Injective Operator.name := by
  intro a b h
  cases a <;> cases b <;> first | rfl | exact absurd h (by decide)

theorem mem_all (op : Operator) : op ∈ Operator.all := by
  cases op <;> decide

/-- The names tell the operators apart, so that the first one found is the only one. -/
theorem find?_name_eq_some_iff {n : String} :
    (Operator.all.find? fun op => op.name = n) = some op ↔ op.name = n := by
  constructor
  · intro h
    simpa using List.find?_some h
  · intro h
    have hsome : (Operator.all.find? fun op => op.name = n).isSome :=
      List.find?_isSome.mpr ⟨op, mem_all op, by simpa using h⟩
    obtain ⟨op', hop'⟩ := Option.isSome_iff_exists.mp hsome
    have hname : op'.name = n := by simpa using List.find?_some hop'
    rw [hop', name_injective (hname.trans h.symm)]

theorem ofName?_eq_some_iff (ht : IsWord t) :
    Operator.ofName? (String.ofList t) = some op ↔ NamesOperator t op := by
  have hfold (n : String) : Text.fold (String.ofList t) = n ↔ t.map Char.toLower = n.toList := by
    rw [← String.toList_inj, ht.fold]
  unfold Operator.ofName? NamesOperator
  simp only
  split
  · next hsum =>
    have hname : t.map Char.toLower ≠ op.name.toList := by
      rw [(hfold "sum").mp hsum]
      cases op <;> decide
    rw [Option.some_inj]
    constructor
    · rintro rfl
      exact .inr ⟨(hfold "sum").mp hsum, rfl⟩
    · rintro (h | ⟨-, rfl⟩)
      · exact absurd h hname
      · rfl
  · next hsum =>
    rw [find?_name_eq_some_iff, eq_comm, hfold]
    constructor
    · exact .inl
    · rintro (h | ⟨h, -⟩)
      · exact h
      · exact absurd ((hfold "sum").mpr h) hsum

/-- What the reader takes a word for. -/
theorem ofChars_feature {i : ℕ} (h : NamesFeature t i) : Token.ofChars t = .feature i := by
  rw [Token.ofChars, feature?_eq_some_iff.mpr h]

theorem ofChars_number {x : Float} (hf : ¬ ∃ i, NamesFeature t i)
    (h : Decimal.double? t = some x) : Token.ofChars t = .number x := by
  rw [Token.ofChars, feature?_eq_none_iff.mpr hf, h]

theorem ofChars_operator (ht : IsWord t) (hf : ¬ ∃ i, NamesFeature t i)
    (hn : Decimal.double? t = none) (h : NamesOperator t op) : Token.ofChars t = .operator op := by
  rw [Token.ofChars, feature?_eq_none_iff.mpr hf, hn, (ofName?_eq_some_iff ht).mpr h]

/-- The kinds of words, and what each one says. -/
theorem ofChars_cases (ht : IsWord t) :
    (∃ i, Token.ofChars t = .feature i ∧ NamesFeature t i) ∨
    (∃ x, Token.ofChars t = .number x ∧ (¬ ∃ i, NamesFeature t i) ∧ Decimal.double? t = some x) ∨
    (∃ op, Token.ofChars t = .operator op ∧ (¬ ∃ i, NamesFeature t i) ∧
      Decimal.double? t = none ∧ NamesOperator t op) ∨
    Token.ofChars t = .unknown := by
  cases hf : feature? t with
  | some i => exact .inl ⟨i, by rw [Token.ofChars, hf], feature?_eq_some_iff.mp hf⟩
  | none =>
    have hnot := feature?_eq_none_iff.mp hf
    right
    cases hn : Decimal.double? t with
    | some x => exact .inl ⟨x, ofChars_number hnot hn, hnot, rfl⟩
    | none =>
      right
      cases ho : Operator.ofName? (String.ofList t) with
      | some op =>
        have hop := (ofName?_eq_some_iff ht).mp ho
        exact .inl ⟨op, ofChars_operator ht hnot hn hop, hnot, rfl, hop⟩
      | none =>
        right
        rw [Token.ofChars, hf, hn, ho]

end Grammar
end Program
end SymbolicRegression
