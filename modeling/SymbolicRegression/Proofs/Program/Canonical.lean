import SymbolicRegression.Proofs.Json.Accepted
import SymbolicRegression.Proofs.Program.Stored

/-!
A program that has been read, in whatever spelling, has a canonical text.

A level of operators takes two levels of the value it is read from, as an object with a list of
operands or as an array with one.  The canonical text takes just as many, so it is never nested
deeper than the text that was read.
-/

namespace SymbolicRegression
namespace Program

open Json Grammar

namespace Outline

/-! ## Outlines of values -/

mutual

/-- The features are words, the constants are finite, and the outline comes from a value nested
no deeper than this. -/
def Fits : ℕ → Outline → Prop
  | depth, feature i => 1 ≤ depth ∧ i < Decimal.wordLimit
  | depth, constant c => 1 ≤ depth ∧ c.isFinite = true
  | depth, call _ os => 2 ≤ depth ∧ AllFit (depth - 2) os

def AllFit : ℕ → List Outline → Prop
  | _, [] => True
  | depth, o :: os => o.Fits depth ∧ AllFit depth os

end

/-- The operands come from an array, which takes a level for itself. -/
def OperandsFit (depth : ℕ) (operands : Option (List Outline)) : Prop :=
  ∀ os ∈ operands, 1 ≤ depth ∧ AllFit (depth - 1) os

structure Parts.Fit (depth : ℕ) (parts : Parts) : Prop where
  values : ∀ j ∈ parts.values, j.Writable
  operands : ∀ os ∈ parts.operands, OperandsFit depth os

variable {depth : ℕ} {nested : Bool} {o : Outline}

theorem lt_of_toNat {j : Json} {i : ℕ} (hj : j.Writable) (h : j.toNat.toOption = some i) :
    i < Decimal.wordLimit := by
  unfold Json.toNat at h
  split at h
  · cases h
    exact hj
  · cases h

theorem isFinite_of_toFloat {j : Json} {x : Float} (hj : j.Writable)
    (h : j.toFloat.toOption = some x) : x.isFinite = true := by
  unfold Json.toFloat at h
  split at h
  · next n =>
    cases h
    exact Binary64.isFinite_ofNat (Nat.le_of_lt hj)
  · next n =>
    cases h
    rw [Binary64.isFinite_double_neg]
    exact Binary64.isFinite_ofNat (hj.2.trans (by decide))
  · cases h
    exact hj
  · cases h

theorem fits_assemble {parts : Parts} (hparts : parts.Fit (depth - 1)) (hdepth : 1 ≤ depth)
    (h : assemble nested parts = some o) : o.Fits depth := by
  unfold assemble at h
  split at h
  · next type _ =>
    obtain ⟨kind, -, h⟩ := Option.bind_eq_some_iff.mp h
    cases kind with
    | feature =>
      dsimp only at h
      split at h
      · next value hvalue =>
        obtain ⟨i, hi, h⟩ := Option.bind_eq_some_iff.mp h
        cases h
        exact ⟨hdepth, lt_of_toNat (hparts.values value (by simp [hvalue])) hi⟩
      · cases h
    | constant =>
      dsimp only at h
      split at h
      · next value hvalue =>
        obtain ⟨x, hx, h⟩ := Option.bind_eq_some_iff.mp h
        cases h
        exact ⟨hdepth, isFinite_of_toFloat (hparts.values value (by simp [hvalue])) hx⟩
      · cases h
    | call =>
      dsimp only at h
      split at h
      · obtain ⟨name, -, h⟩ := Option.bind_eq_some_iff.mp h
        split at h
        · next os hos =>
          cases h
          obtain ⟨hpos, hfit⟩ := hparts.operands (some os) (by simp [hos]) os rfl
          exact ⟨by omega, hfit⟩
        · cases h
      · cases h
  · cases h

theorem fits_assembleRow {entries : List (Json × Option (List Outline))}
    (hentries : ∀ p ∈ entries, p.1.Writable ∧ OperandsFit (depth - 1) p.2) (hdepth : 1 ≤ depth)
    (h : assembleRow nested entries = some o) : o.Fits depth := by
  unfold assembleRow at h
  split at h
  · next type a value b =>
    refine fits_assemble ⟨?_, by simp⟩ hdepth h
    simp only [List.forall_mem_singleton]
    exact (hentries (value, b) (by simp)).1
  · next type a value b third operands =>
    obtain ⟨kind, -, h⟩ := Option.bind_eq_some_iff.mp h
    split at h
    · refine fits_assemble ⟨?_, ?_⟩ hdepth h
      · simp only [List.forall_mem_singleton]
        exact (hentries (value, b) (by simp)).1
      · simp only [List.forall_mem_singleton]
        exact (hentries (third, operands) (by simp)).2
    · cases h
  · cases h

mutual

theorem fits_ofJson : ∀ {depth : ℕ} {nested : Bool} {j : Json} {o : Outline}, j.Writable →
    j.nesting ≤ depth → ofJson nested j = some o → o.Fits depth
  | depth, nested, .object members, o, hj, hdepth, h => by
    have hmembers : nestingMembers members + 1 ≤ depth := hdepth
    exact fits_assemble (fit_parts hj (by omega)) (by omega) h
  | depth, nested, .array items, o, hj, hdepth, h => by
    have hitems : nestingAll items + 1 ≤ depth := hdepth
    exact fits_assembleRow (fit_row hj (by omega)) (by omega) h
  | _, _, .null, _, _, _, h => nomatch h
  | _, _, .bool _, _, _, _, h => nomatch h
  | _, _, .number _, _, _, _, h => nomatch h
  | _, _, .text _, _, _, _, h => nomatch h
  | _, _, .unreadable, _, _, _, h => nomatch h
  | _, _, .broken, _, _, _, h => nomatch h

theorem fit_parts : ∀ {depth : ℕ} {ms : List (Option String × Json)}, MembersWritable ms →
    nestingMembers ms ≤ depth → (parts ms).Fit depth
  | _, [], _, _ => ⟨nofun, nofun⟩
  | depth, (key, j) :: ms, hms, hdepth => by
    obtain ⟨hj, hdeepest⟩ := Nat.max_le.mp hdepth
    obtain ⟨hvalues, hoperands⟩ := fit_parts hms.2.2 hdeepest
    have hlist := operandsFit_listOf hms.2.1 hj
    unfold parts
    split
    · exact ⟨hvalues, hoperands⟩
    · exact ⟨List.forall_mem_cons.mpr ⟨hms.2.1, hvalues⟩, hoperands⟩
    · exact ⟨hvalues, List.forall_mem_cons.mpr ⟨hlist, hoperands⟩⟩
    · exact ⟨hvalues, hoperands⟩

theorem fit_row : ∀ {depth : ℕ} {js : List Json}, AllWritable js → nestingAll js ≤ depth →
    ∀ p ∈ row js, p.1.Writable ∧ OperandsFit depth p.2
  | _, [], _, _ => nofun
  | depth, j :: js, hjs, hdepth => by
    obtain ⟨hj, hdeepest⟩ := Nat.max_le.mp hdepth
    exact List.forall_mem_cons.mpr
      ⟨⟨hjs.1, operandsFit_listOf hjs.1 hj⟩, fit_row hjs.2 hdeepest⟩

theorem operandsFit_listOf : ∀ {depth : ℕ} {j : Json}, j.Writable → j.nesting ≤ depth →
    OperandsFit depth (listOf j)
  | depth, .array items, hj, hdepth => by
    have hitems : nestingAll items + 1 ≤ depth := hdepth
    intro os hos
    exact ⟨by omega, allFit_allOf hj (by omega) hos⟩
  | _, .object _, _, _ => nofun
  | _, .null, _, _ => nofun
  | _, .bool _, _, _ => nofun
  | _, .number _, _, _ => nofun
  | _, .text _, _, _ => nofun
  | _, .unreadable, _, _ => nofun
  | _, .broken, _, _ => nofun

theorem allFit_allOf : ∀ {depth : ℕ} {js : List Json} {os : List Outline}, AllWritable js →
    nestingAll js ≤ depth → allOf js = some os → AllFit depth os
  | _, [], _, _, _, h => by
    cases h
    exact trivial
  | depth, j :: js, os, hjs, hdepth, h => by
    obtain ⟨hj, hdeepest⟩ := Nat.max_le.mp hdepth
    rw [allOf] at h
    obtain ⟨o, ho, h⟩ := Option.bind_eq_some_iff.mp h
    obtain ⟨rest, hrest, h⟩ := Option.bind_eq_some_iff.mp h
    cases h
    exact ⟨fits_ofJson hjs.1 hj ho, allFit_allOf hjs.2 hdeepest hrest⟩

end

/-! ## Programs of outlines -/

mutual

theorem built_of_toProgram : ∀ {depth : ℕ} {o : Outline} {p : Program}, o.Fits depth →
    o.toProgram = .ok p →
      p.BuiltFrom printable ∧ p.IsFinite ∧ 2 * p.height + 1 ≤ depth
  | _, feature i, _, ⟨hdepth, hi⟩, h => by
    cases h
    exact ⟨hi, nofun, hdepth⟩
  | _, constant c, _, ⟨hdepth, hc⟩, h => by
    cases h
    exact ⟨trivial, List.forall_mem_singleton.mpr hc, hdepth⟩
  | depth, call name os, p, ⟨hdepth, hos⟩, h => by
    rw [toProgram] at h
    split at h
    · cases h
    · next op _ =>
      split at h
      · next hlen =>
        obtain ⟨ps, hps, h⟩ := Except.bind_eq_ok.mp h
        cases h
        obtain ⟨hlength, hbuilt, hfinite, hheights⟩ := allBuilt_of_allToProgram hos hps
        have hne : ps ≠ [] := by
          have := op.arity_pos
          exact List.ne_nil_of_length_pos (by omega)
        refine ⟨⟨trivial, hlength.trans hlen, hbuilt⟩, hfinite, ?_⟩
        have := hheights hne
        show 2 * (1 + heights ps) + 1 ≤ depth
        omega
      · cases h

theorem allBuilt_of_allToProgram : ∀ {depth : ℕ} {os : List Outline} {ps : List Program},
    AllFit depth os → allToProgram os = .ok ps →
      ps.length = os.length ∧ AllBuiltFrom printable ps ∧
      (∀ c ∈ constantsOf ps, c.isFinite = true) ∧ (ps ≠ [] → 2 * heights ps + 1 ≤ depth)
  | _, [], _, _, h => by
    cases h
    exact ⟨rfl, trivial, nofun, fun hne => absurd rfl hne⟩
  | depth, o :: os, ps, ⟨ho, hos⟩, h => by
    rw [allToProgram] at h
    obtain ⟨p, hp, h⟩ := Except.bind_eq_ok.mp h
    obtain ⟨qs, hqs, h⟩ := Except.bind_eq_ok.mp h
    cases h
    obtain ⟨hbuilt, hfinite, hheight⟩ := built_of_toProgram ho hp
    obtain ⟨hlength, hbuilt', hfinite', hheights⟩ := allBuilt_of_allToProgram hos hqs
    refine ⟨congrArg (· + 1) hlength, ⟨hbuilt, hbuilt'⟩, List.forall_mem_append.mpr
      ⟨hfinite, hfinite'⟩, fun _ => ?_⟩
    show 2 * max p.height (heights qs) + 1 ≤ depth
    cases qs with
    | nil =>
      show 2 * max p.height 0 + 1 ≤ depth
      omega
    | cons q qs =>
      have := hheights (List.cons_ne_nil q qs)
      omega

end

end Outline

/-! ## Canonical texts -/

theorem built_of_ofJsonText {s : String} {p : Program} (h : ofJsonText s = .ok p) :
    p.BuiltFrom printable ∧ p.IsFinite ∧
      2 * p.height + 1 ≤ (ofChars s.toList).1.nesting ∧
      (ofChars s.toList).1.nesting ≤ Reader.depthLimit := by
  have hkept := kept_ofChars s.toList
  have hread := decode_ofChars (Except.mapError_eq_ok.mp h)
  unfold ofJson at hread
  split at hread
  · next hreadable =>
    obtain ⟨hwritable, hnesting⟩ := hkept hreadable
    split at hread
    · next o ho =>
      have hfits := Outline.fits_ofJson hwritable (Nat.le_refl _) ho
      obtain ⟨hbuilt, hfinite, hheight⟩ := Outline.built_of_toProgram hfits hread
      exact ⟨hbuilt, hfinite, hheight, hnesting⟩
    · cases hread
  · cases hread

/-- Whatever text a program has been read from, all its operators have their operands and all
its constants are finite.  So it has a canonical text, which is read back as the same program
and is not nested deeper than the text that was read. -/
theorem read_then_rewritten {s : String} {p : Program} (h : ofJsonText s = .ok p) :
    p.BuiltFrom printable ∧ (∀ c ∈ p.constants, c.isFinite = true) ∧
    ∃ s', p.json = .ok s' ∧ ofJsonText s' = .ok p ∧
      (ofChars s'.toList).1.nesting ≤ (ofChars s.toList).1.nesting ∧
      (ofChars s.toList).1.nesting ≤ Reader.depthLimit := by
  obtain ⟨hbuilt, hfinite, hheight, hnesting⟩ := built_of_ofJsonText h
  have hform : p.form.nesting ≤ (ofChars s.toList).1.nesting := by
    rw [nesting_form hbuilt]
    exact hheight
  have hlimit := hform.trans hnesting
  refine ⟨hbuilt, hfinite, compact p.form, ?_, ?_, ?_, hnesting⟩
  · rw [json, toJson_of_isFinite hfinite]
    rfl
  · rw [ofJsonText_compact hbuilt hfinite, if_pos ((nesting_form_le_iff hbuilt).mp hlimit)]
  · rw [ofChars_compact (writable_form hbuilt hfinite), cut_eq_self _ _ hlimit]
    exact hform

/-- A sum and two leaves in a spelling that is far from the canonical one. -/
def spelled : String :=
  " \x7b\"note\": [[1e9, null]], \"operands\": [[\"var\", 3], \x7b\"value\": -2, \"type\": 1\x7d],
    \"value\": \" SUM \", \"type\": \"func\"\x7d"

theorem read_then_rewritten_spelled : ∃ p s', ofJsonText spelled = .ok p ∧
    p.height = 1 ∧ p.json = .ok s' ∧ ofJsonText s' = .ok p := by
  have hread : (ofJsonText spelled).toOption.map (·.height) = some 1 := by decide +kernel
  cases h : ofJsonText spelled with
  | error e =>
    rw [h] at hread
    contradiction
  | ok p =>
    rw [h] at hread
    obtain ⟨-, -, s', hs', hback, -⟩ := read_then_rewritten h
    exact ⟨p, s', rfl, Option.some.inj hread, hs', hback⟩

end Program
end SymbolicRegression
