import SymbolicRegression.Proofs.Decimal.RoundTrip
import SymbolicRegression.Proofs.Program.Parsing
import SymbolicRegression.Program.Printer

/-!
Printed programs are read back.

The printed form of a tree is a derivation of the tree, word by word.  So the reader, which
accepts all that is derived, gives the tree back, and with it every constant bit for bit.
-/

namespace SymbolicRegression
namespace Program
namespace Grammar

open SymbolicRegression.Program.Parser Text Decimal

/-! ## Words that are printed -/

theorem isDelimiter_of_isDigit {c : Char} (h : c.isDigit) : isDelimiter c = false := by
  have hval : 48 ≤ c.toNat ∧ c.toNat ≤ 57 := by
    rw [Char.isDigit, Bool.and_eq_true, decide_eq_true_eq, decide_eq_true_eq] at h
    exact h
  have hblank : isBlank c = false := by
    simp [isBlank, inRanges, blankRanges]
    omega
  have hne (d : Char) (hd : d.isDigit = false) : (c == d) = false := by
    rw [beq_eq_false_iff_ne]
    rintro rfl
    rw [h] at hd
    contradiction
  rw [isDelimiter, hne '(' (by decide), hne ')' (by decide), hne ',' (by decide), hblank]
  rfl

theorem isWord_feature (i : ℕ) : IsWord ('x' :: digitsOf i) := by
  refine ⟨nofun, fun c hc => ?_⟩
  rcases List.mem_cons.mp hc with rfl | hc
  · decide
  · exact isDelimiter_of_isDigit (isDigit_of_mem_digitsOf hc)

theorem isWord_exact (x : Float) : IsWord (exact x) := by
  have hmarks : marks.all (!isDelimiter ·) := by decide
  refine ⟨exact_ne_nil x, fun c hc => ?_⟩
  rcases exact_chars x c hc with hdigit | hmark
  · exact isDelimiter_of_isDigit hdigit
  · simpa using List.all_eq_true.mp hmarks c hmark

/-- A constant is not taken for a feature. -/
theorem not_namesFeature_exact (x : Float) : ¬ ∃ i, NamesFeature (exact x) i := by
  rintro ⟨i, ds, hds, -⟩
  rcases exact_chars x 'x' (by rw [hds]; exact List.mem_cons_self) with h | h
  · exact absurd h (by decide)
  · exact absurd h (by decide)

theorem isWord_name (op : Operator) : IsWord op.name.toList := by
  have hall : op.name.toList.all (!isDelimiter ·) := by cases op <;> decide
  refine ⟨by cases op <;> decide, fun c hc => ?_⟩
  simpa using List.all_eq_true.mp hall c hc

theorem namesOperator_name (op : Operator) : NamesOperator op.name.toList op := by
  left
  cases op <;> decide

/-- No name of an operator is taken for a feature or a number. -/
theorem name_not_leaf (op : Operator) :
    (¬ ∃ i, NamesFeature op.name.toList i) ∧ double? op.name.toList = none := by
  rw [← feature?_eq_none_iff]
  cases op <;> decide

/-! ## Trees that are printed -/

theorem Node.blank {b t : List Char} {p : Program} (hb : Blanks b) (h : Node t p) :
    Node (b ++ t) p := by
  have happend {b' : List Char} (hb' : Blanks b') : Blanks (b ++ b') := by
    intro c hc
    rcases List.mem_append.mp hc with hc | hc
    · exact hb c hc
    · exact hb' c hc
  cases h with
  | feature hb' ht h =>
    rw [← List.append_assoc]
    exact .feature (happend hb') ht h
  | number hb' ht hf h =>
    rw [← List.append_assoc]
    exact .number (happend hb') ht hf h
  | call hb' ht hf hn h hb₁ hps hlen hb₂ =>
    simp only [← List.append_assoc]
    have := Node.call (happend hb') ht hf hn h hb₁ hps hlen hb₂
    simpa [List.append_assoc] using this

theorem Operands.blank {b t : List Char} {ps : List Program} (hb : Blanks b)
    (h : Operands t ps) : Operands (b ++ t) ps := by
  cases h with
  | one h => exact .one (h.blank hb)
  | more h hb' hps =>
    have := Operands.more (h.blank hb) hb' hps
    simpa [List.append_assoc] using this

/-- Features that fit a word, and any constants and operators. -/
def printable : Vocabulary := ⟨(· < wordLimit), fun _ => True, fun _ => True⟩

theorem blanks_nil : Blanks [] := nofun

mutual

/-- The text of a tree derives the tree. -/
theorem derives_print : ∀ {p : Program}, p.BuiltFrom printable → Node p.print p
  | feature i, h => .feature blanks_nil (isWord_feature i) ⟨_, rfl, index?_digitsOf h⟩
  | constant c, _ => .number blanks_nil (isWord_exact c) (not_namesFeature_exact c) (double?_exact c)
  | call op ps, h@⟨_, hlen, hps⟩ => by
    have hne := h.operands_ne_nil
    have := Node.call blanks_nil (isWord_name op) (name_not_leaf op).1 (name_not_leaf op).2
      (namesOperator_name op) blanks_nil (derives_printAll hps hne) hlen blanks_nil
    simpa [print] using this

theorem derives_printAll : ∀ {ps : List Program}, AllBuiltFrom printable ps → ps ≠ [] →
    Operands (printAll ps) ps
  | [], _, hne => absurd rfl hne
  | [p], ⟨hp, _⟩, _ => by
    rw [printAll, printRest, List.append_nil]
    exact .one (derives_print hp)
  | p :: q :: qs, ⟨hp, hqs⟩, _ => by
    have hspace : Blanks [' '] := by
      intro c hc
      rw [List.mem_singleton.mp hc]
      decide
    have hrest := (derives_printAll hqs (List.cons_ne_nil q qs)).blank hspace
    have := Operands.more (derives_print hp) blanks_nil hrest
    simpa [printAll, printRest] using this

end

/-! ## Trees that are read -/

theorem lt_wordLimit {ds : List Char} {i : ℕ} (h : index? ds = some i) : i < wordLimit := by
  unfold index? at h
  rw [Option.filter_eq_some_iff] at h
  simpa using h.2

mutual

theorem builtFrom_of_node : ∀ {t : List Char} {p : Program}, Node t p → p.BuiltFrom printable
  | _, _, .feature _ _ ⟨_, _, hi⟩ => lt_wordLimit hi
  | _, _, .number _ _ _ _ => trivial
  | _, _, .call _ _ _ _ _ _ hps hlen _ => ⟨trivial, hlen, allBuiltFrom_of_operands hps⟩

theorem allBuiltFrom_of_operands : ∀ {t : List Char} {ps : List Program}, Operands t ps →
    AllBuiltFrom printable ps
  | _, _, .one h => ⟨builtFrom_of_node h, trivial⟩
  | _, _, .more h _ hps => ⟨builtFrom_of_node h, allBuiltFrom_of_operands hps⟩

end

theorem derives_text {p : Program} (h : p.BuiltFrom printable) : Derives p.text.toList p := by
  rw [text, String.toList_ofList]
  exact ⟨p.print, [], (List.append_nil _).symm, derives_print h, blanks_nil⟩

end Grammar

open Grammar

/-- A printed tree is read back as it was, with every constant the same bit for bit. -/
theorem ofText_text {p : Program} (h : p.BuiltFrom printable) : ofText p.text = .ok p :=
  ofText_eq_ok_iff.mpr (derives_text h)

/-- The greatest feature, an infinity, a zero with a sign, the smallest double and no number. -/
def extremes : Program :=
  .call .min [.call .sub [.feature 18446744073709551615, .constant (1.0 / 0.0)],
    .call .neg [.call .max [.constant (-0.0), .call .pow
      [.constant (Float.ofBits 1), .constant (0.0 / 0.0)]]]]

theorem ofText_text_extremes :
    extremes.BuiltFrom printable ∧ ofText extremes.text = .ok extremes := by
  have h : extremes.BuiltFrom printable := by
    simp [extremes, BuiltFrom, AllBuiltFrom, printable, Decimal.wordLimit, Operator.arity]
  exact ⟨h, ofText_text h⟩

/-- The reader accepts just the texts that the grammar derives, with the tree they derive.  It
refuses every other one with a fault of the text form at a place in it, and what it accepts
is built as it should be and comes back when it is printed and read again. -/
theorem ofText_reads_grammar (input : String) :
    (∀ p, ofText input = .ok p ↔ Derives input.toList p) ∧
    (∀ e, ofText input = .error e → ∃ fault, e = .parse fault ∧ Located input fault) ∧
    (∀ p, ofText input = .ok p → p.BuiltFrom printable ∧ ofText p.text = .ok p) := by
  refine ⟨fun p => ofText_eq_ok_iff, fun e => exists_located, fun p h => ?_⟩
  obtain ⟨t, b, -, hnode, -⟩ := ofText_eq_ok_iff.mp h
  have hbuilt := builtFrom_of_node hnode
  exact ⟨hbuilt, ofText_eq_ok_iff.mpr (derives_text hbuilt)⟩

end Program
end SymbolicRegression
