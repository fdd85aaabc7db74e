import SymbolicRegression.Program.Stored
import SymbolicRegression.Proofs.Json.Reading
import SymbolicRegression.Proofs.Outcomes
import SymbolicRegression.Proofs.Program.Printing

/-!
Stored programs are read back.

A level of operators opens an object and an array of operands, so a program nests its JSON
form twice as deep as it is high, and once more for the node at the bottom.  The limit of the
reader is therefore met between two heights: all programs up to the one are read back as they
were, and none above it is read at all.
-/

namespace SymbolicRegression
namespace Program

open Json Grammar

mutual

/-- The value that a program is written as.  Numbers are taken as they are. -/
def form : Program → Json
  | feature i => record [("type", .text "var"), ("value", .ofNat i)]
  | constant c => record [("type", .text "const"), ("value", .number (.real c))]
  | call op ps =>
    record [("type", .text "func"), ("value", .text op.name), ("operands", .array (forms ps))]

def forms : List Program → List Json
  | [] => []
  | p :: ps => p.form :: forms ps

end

/-! ## Writing -/

mutual

/-- A program is refused for the first of its constants that is not finite. -/
theorem toJson_eq : ∀ p : Program, p.toJson =
    (p.constants.find? (!·.isFinite)).elim (.ok p.form) fun c => .error (.nonFinite c)
  | feature i => rfl
  | constant c => by
    rw [toJson, constants, List.find?_cons, List.find?_nil]
    cases c.isFinite with
    | true => rfl
    | false => rfl
  | call op ps => by
    rw [toJson, constants, allToJson_eq ps]
    cases (constantsOf ps).find? (!·.isFinite) with
    | none => rfl
    | some c => rfl

theorem allToJson_eq : ∀ ps : List Program, allToJson ps =
    ((constantsOf ps).find? (!·.isFinite)).elim (.ok (forms ps)) fun c => .error (.nonFinite c)
  | [] => rfl
  | p :: ps => by
    rw [allToJson, constantsOf, List.find?_append, toJson_eq p, allToJson_eq ps]
    cases p.constants.find? (!·.isFinite) with
    | some c => rfl
    | none =>
      cases (constantsOf ps).find? (!·.isFinite) with
      | none => rfl
      | some c => rfl

end

/-- All constants are finite. -/
def IsFinite (p : Program) : Prop := ∀ c ∈ p.constants, c.isFinite = true

theorem toJson_of_isFinite {p : Program} (h : p.IsFinite) : p.toJson = .ok p.form := by
  have hnone : p.constants.find? (!·.isFinite) = none := by
    rw [List.find?_eq_none]
    intro c hc
    rw [h c hc]
    exact Bool.false_ne_true
  rw [toJson_eq, hnone]
  rfl

theorem toJson_of_not_isFinite {p : Program} (h : ¬p.IsFinite) :
    ∃ c ∈ p.constants, c.isFinite = false ∧ p.toJson = .error (.nonFinite c) := by
  cases hfound : p.constants.find? (!·.isFinite) with
  | none =>
    refine absurd (fun c hc => ?_) h
    simpa using List.find?_eq_none.mp hfound c hc
  | some c =>
    refine ⟨c, List.mem_of_find?_eq_some hfound, by simpa using List.find?_some hfound, ?_⟩
    rw [toJson_eq, hfound]
    rfl

theorem toJson_eq_ok_iff {p : Program} {j : Json} :
    p.toJson = .ok j ↔ p.IsFinite ∧ p.form = j := by
  by_cases hfinite : p.IsFinite
  · rw [toJson_of_isFinite hfinite, Except.ok.injEq, and_iff_right hfinite]
  · obtain ⟨c, -, -, herror⟩ := toJson_of_not_isFinite hfinite
    rw [herror]
    exact iff_of_false nofun fun h => hfinite h.1

mutual

theorem writable_form : ∀ {p : Program}, p.BuiltFrom printable → p.IsFinite → p.form.Writable
  | feature _, h, _ => ⟨rfl, trivial, rfl, h, trivial⟩
  | constant c, _, hfinite => ⟨rfl, trivial, rfl, hfinite c List.mem_cons_self, trivial⟩
  | call _ _, ⟨_, _, hps⟩, hfinite =>
    ⟨rfl, trivial, rfl, trivial, rfl, allWritable_forms hps hfinite, trivial⟩

theorem allWritable_forms : ∀ {ps : List Program}, AllBuiltFrom printable ps →
    (∀ c ∈ constantsOf ps, c.isFinite = true) → AllWritable (forms ps)
  | [], _, _ => trivial
  | _ :: _, ⟨hp, hps⟩, hfinite =>
    ⟨writable_form hp fun c hc => hfinite c (List.mem_append_left _ hc),
      allWritable_forms hps fun c hc => hfinite c (List.mem_append_right _ hc)⟩

end

/-! ## How deep a program is nested -/

mutual

theorem nesting_form : ∀ {p : Program}, p.BuiltFrom printable → p.form.nesting = 2 * p.height + 1
  | feature _, _ => rfl
  | constant _, _ => rfl
  | call _ ps, h@⟨_, _, hps⟩ => by
    -- Every operator takes an operand, so the array is never the deepest level.
    have hforms := nestingAll_forms hps h.operands_ne_nil
    show max 0 (max 0 (max (nestingAll (forms ps) + 1) 0)) + 1 = 2 * (1 + heights ps) + 1
    omega

theorem nestingAll_forms : ∀ {ps : List Program}, AllBuiltFrom printable ps → ps ≠ [] →
    nestingAll (forms ps) = 2 * heights ps + 1
  | [], _, hne => absurd rfl hne
  | [p], ⟨hp, _⟩, _ => by
    have hform := nesting_form hp
    show max p.form.nesting 0 = 2 * max p.height 0 + 1
    omega
  | p :: q :: qs, ⟨hp, hqs⟩, _ => by
    have hform := nesting_form hp
    have hforms := nestingAll_forms hqs (List.cons_ne_nil q qs)
    show max p.form.nesting (nestingAll (forms (q :: qs))) =
      2 * max p.height (heights (q :: qs)) + 1
    omega

end

/-! ## Reading -/

theorem ofName?_name (op : Operator) : Operator.ofName? op.name = some op := by
  have hname := (ofName?_eq_some_iff (isWord_name op)).mpr (namesOperator_name op)
  rwa [String.ofList_toList] at hname

mutual

/-- A program whose operators are still names. -/
def outline : Program → Outline
  | feature i => .feature i
  | constant c => .constant c
  | call op ps => .call op.name (outlines ps)

def outlines : List Program → List Outline
  | [] => []
  | p :: ps => p.outline :: outlines ps

end

mutual

theorem ofJson_form : ∀ (nested : Bool) (p : Program), Outline.ofJson nested p.form = some p.outline
  | _, feature _ => rfl
  | _, constant _ => rfl
  | nested, call op ps => by
    have hoperands : Outline.listOf (.array (forms ps)) = some (outlines ps) := allOf_forms ps
    show Outline.assemble nested ⟨[.text "func"], [.text op.name],
      [Outline.listOf (.array (forms ps))]⟩ = _
    rw [hoperands]
    rfl

theorem allOf_forms : ∀ ps : List Program, Outline.allOf (forms ps) = some (outlines ps)
  | [] => rfl
  | p :: ps => by
    rw [forms, Outline.allOf, ofJson_form true p, allOf_forms ps]
    rfl

end

theorem length_outlines : ∀ ps : List Program, (outlines ps).length = ps.length
  | [] => rfl
  | _ :: ps => congrArg (· + 1) (length_outlines ps)

mutual

theorem toProgram_outline : ∀ {p : Program}, p.BuiltFrom printable → p.outline.toProgram = .ok p
  | feature _, _ => rfl
  | constant _, _ => rfl
  | call op ps, ⟨_, hlen, hps⟩ => by
    rw [outline, Outline.toProgram, ofName?_name]
    dsimp only
    rw [if_pos ((length_outlines ps).trans hlen), allToProgram_outlines hps]
    rfl

theorem allToProgram_outlines : ∀ {ps : List Program}, AllBuiltFrom printable ps →
    Outline.allToProgram (outlines ps) = .ok ps
  | [], _ => rfl
  | p :: ps, ⟨hp, hps⟩ => by
    rw [outlines, Outline.allToProgram, toProgram_outline hp, allToProgram_outlines hps]
    rfl

end

theorem ofJson_eq_ok (nested : Bool) {p : Program} (h : p.BuiltFrom printable)
    (hfinite : p.IsFinite) : ofJson nested p.form = .ok p := by
  rw [ofJson, if_pos (isReadable_of_writable (writable_form h hfinite)), ofJson_form]
  exact toProgram_outline h

theorem ofJson_refuses (nested : Bool) {j : Json} (h : j.isReadable = false) :
    ofJson nested j = malformed := by
  rw [ofJson, h]
  rfl

/-- Two levels for every edge and one for a leaf, out of the 127 that there are. -/
theorem nesting_form_le_iff {p : Program} (h : p.BuiltFrom printable) :
    p.form.nesting ≤ Reader.depthLimit ↔ p.height ≤ 63 := by
  rw [nesting_form h, Reader.depthLimit]
  omega

theorem ofJsonText_compact {p : Program} (h : p.BuiltFrom printable) (hfinite : p.IsFinite) :
    ofJsonText (compact p.form) =
      if p.height ≤ 63 then .ok p else .error (.json .malformed) := by
  rw [ofJsonText, decodeText_compact_of_refuses (fun _ => ofJson_refuses false)
    (writable_form h hfinite), ofJson_eq_ok false h hfinite]
  by_cases hheight : p.height ≤ 63
  · rw [if_pos ((nesting_form_le_iff h).mpr hheight), if_pos hheight]
    rfl
  · rw [if_neg fun hnesting => hheight ((nesting_form_le_iff h).mp hnesting), if_neg hheight]
    rfl

/-- Just the programs with finite constants have a JSON text, and the text of a program gives
the program back, every constant bit for bit, up to height 63.  Above it the text is refused. -/
theorem json_reads_back {p : Program} (h : p.BuiltFrom printable) :
    ((∃ e, p.json = .error e) ↔ ∃ c ∈ p.constants, c.isFinite = false) ∧
    (∀ e, p.json = .error e → ∃ c ∈ p.constants, c.isFinite = false ∧ e = .json (.nonFinite c)) ∧
    ((∀ c ∈ p.constants, c.isFinite = true) → ∃ s, p.json = .ok s ∧
      ofJsonText s = if p.height ≤ 63 then .ok p else .error (.json .malformed)) := by
  by_cases hfinite : p.IsFinite
  · have hok : p.json = .ok (compact p.form) := by
      rw [json, toJson_of_isFinite hfinite]
      rfl
    refine ⟨iff_of_false ?_ ?_, ?_, fun _ => ⟨_, hok, ofJsonText_compact h hfinite⟩⟩
    · rintro ⟨e, he⟩
      cases hok.symm.trans he
    · rintro ⟨c, hc, hinfinite⟩
      rw [hfinite c hc] at hinfinite
      contradiction
    · intro e he
      cases hok.symm.trans he
  · obtain ⟨c, hc, hinfinite, hj⟩ := toJson_of_not_isFinite hfinite
    have herror : p.json = .error (.json (.nonFinite c)) := by
      rw [json, hj]
      rfl
    refine ⟨iff_of_true ⟨_, herror⟩ ⟨c, hc, hinfinite⟩, ?_, fun hall => absurd hall hfinite⟩
    intro e he
    cases herror.symm.trans he
    exact ⟨c, hc, hinfinite, rfl⟩

/-- The greatest feature, a zero with a sign, the smallest and the greatest double. -/
def finest : Program :=
  .call .max [.call .pow [.feature 18446744073709551615, .constant (-0.0)], .call .neg
    [.call .div [.constant (Float.ofBits 1), .constant (Float.ofBits 0x7FEFFFFFFFFFFFFF)]]]

theorem builtFrom_finest : finest.BuiltFrom printable := by
  simp [finest, BuiltFrom, AllBuiltFrom, printable, Decimal.wordLimit, Operator.arity]

theorem isFinite_finest : finest.IsFinite := by
  have hall : finest.constants.all Float.isFinite = true := by decide +kernel
  exact List.all_eq_true.mp hall

/-- A feature under so many signs. -/
def tower : ℕ → Program
  | 0 => .feature 0
  | n + 1 => .call .neg [tower n]

theorem builtFrom_tower : ∀ n : ℕ, (tower n).BuiltFrom printable
  | 0 => show 0 < Decimal.wordLimit by decide
  | n + 1 => ⟨trivial, rfl, builtFrom_tower n, trivial⟩

theorem height_tower : ∀ n : ℕ, (tower n).height = n
  | 0 => rfl
  | n + 1 => by
    show 1 + max (tower n).height 0 = n + 1
    rw [height_tower n]
    omega

theorem isFinite_tower : ∀ n : ℕ, (tower n).IsFinite
  | 0 => nofun
  | n + 1 => fun c hc => isFinite_tower n c (by simpa [tower, constants, constantsOf] using hc)

theorem json_reads_back_finest :
    finest.BuiltFrom printable ∧ (∃ s, finest.json = .ok s ∧ ofJsonText s = .ok finest) ∧
    (∃ s, (tower 64).json = .ok s ∧ ofJsonText s = .error (.json .malformed)) := by
  obtain ⟨-, -, hread⟩ := json_reads_back builtFrom_finest
  obtain ⟨-, -, hrefused⟩ := json_reads_back (builtFrom_tower 64)
  refine ⟨builtFrom_finest, ?_, ?_⟩
  · rw [if_pos (by decide)] at hread
    exact hread isFinite_finest
  · rw [height_tower, if_neg (by decide)] at hrefused
    exact hrefused (isFinite_tower 64)

end Program
end SymbolicRegression
