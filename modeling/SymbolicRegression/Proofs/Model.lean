import SymbolicRegression.Model
import SymbolicRegression.Proofs.Json.Records
import SymbolicRegression.Proofs.Program.Stored

/-!
Stored models are read back.

Nothing in the text of a model says whether it is a program or an ensemble, but an ensemble is
never taken for a program: it has no type.  Around each of its programs an ensemble opens an
object, an array and another object, so that the reader's limit comes two levels of operators
earlier than for a program alone.
-/

namespace SymbolicRegression

open Json Program Grammar

/-! ## Ensembles -/

/-- The value that a learner is written as, if its program can be written. -/
def Learner.form (l : Learner) : Json :=
  record [("program", l.program.form), ("step", .ofFloat l.step)]

namespace Ensemble

def form (e : Ensemble) : Json :=
  record [("base", .ofFloat e.base), ("learners", .array (e.learners.map Learner.form))]

theorem toJson_of_isFinite {e : Ensemble} (h : ∀ l ∈ e.learners, l.program.IsFinite) :
    e.toJson = .ok e.form := by
  rw [toJson, Except.mapM_eq_ok (g := Learner.form)]
  · rfl
  · intro l hl
    rw [Program.toJson_of_isFinite (h l hl)]
    rfl

/-- Just the ensembles whose programs can be written are written, whatever the base and the
steps are. -/
theorem toJson_eq_ok_iff {e : Ensemble} {j : Json} :
    e.toJson = .ok j ↔ (∀ l ∈ e.learners, l.program.IsFinite) ∧ e.form = j := by
  constructor
  · intro h
    have hfinite : ∀ l ∈ e.learners, l.program.IsFinite := by
      obtain ⟨js, hjs, -⟩ := Except.bind_eq_ok.mp h
      intro l hl
      obtain ⟨k, hk⟩ := Except.exists_eq_ok_of_mapM hjs l hl
      obtain ⟨i, hi, -⟩ := Except.bind_eq_ok.mp hk
      exact (Program.toJson_eq_ok_iff.mp hi).1
    exact ⟨hfinite, Except.ok.inj ((toJson_of_isFinite hfinite).symm.trans h)⟩
  · rintro ⟨hfinite, rfl⟩
    exact toJson_of_isFinite hfinite

theorem learnerOfJson_form {l : Learner} (hbuilt : l.program.BuiltFrom printable)
    (hfinite : l.program.IsFinite) (hstep : l.step.isFinite = true) :
    learnerOfJson true l.form = .ok l := by
  rw [learnerOfJson, Learner.form, visitRecord_pair (by decide)]
  simp only [ofJson_eq_ok true hbuilt hfinite, toFloat_ofFloat hstep]
  rfl

theorem ofJson_form {e : Ensemble} (hbuilt : ∀ l ∈ e.learners, l.program.BuiltFrom printable)
    (hfinite : ∀ l ∈ e.learners, l.program.IsFinite) (hbase : e.base.isFinite = true)
    (hsteps : ∀ l ∈ e.learners, l.step.isFinite = true) : ofJson true e.form = .ok e := by
  have hlearners : toList (learnerOfJson true) (.array (e.learners.map Learner.form)) =
      .ok e.learners := by
    rw [toList, List.mapM_map, Except.mapM_eq_ok (g := id), List.map_id]
    intro l hl
    exact learnerOfJson_form (hbuilt l hl) (hfinite l hl) (hsteps l hl)
  rw [ofJson, form, visitRecord_pair (by decide)]
  simp only [toFloat_ofFloat hbase, hlearners]
  rfl

theorem writable_form {e : Ensemble} (hbuilt : ∀ l ∈ e.learners, l.program.BuiltFrom printable)
    (hfinite : ∀ l ∈ e.learners, l.program.IsFinite) : e.form.Writable := by
  refine ⟨rfl, writable_ofFloat e.base, rfl, allWritable_iff.mpr fun j hj => ?_, trivial⟩
  obtain ⟨l, hl, rfl⟩ := List.mem_map.mp hj
  exact ⟨rfl, Program.writable_form (hbuilt l hl) (hfinite l hl), rfl, writable_ofFloat l.step,
    trivial⟩

theorem nesting_learner {l : Learner} (hbuilt : l.program.BuiltFrom printable) :
    l.form.nesting = 2 * l.program.height + 2 := by
  show max l.program.form.nesting (max (Json.ofFloat l.step).nesting 0) + 1 = _
  rw [nesting_form hbuilt, nesting_ofFloat]
  omega

theorem nesting_form_le_iff {e : Ensemble}
    (hbuilt : ∀ l ∈ e.learners, l.program.BuiltFrom printable) :
    e.form.nesting ≤ Reader.depthLimit ↔ ∀ l ∈ e.learners, l.program.height ≤ 61 := by
  have hlimit : e.form.nesting ≤ Reader.depthLimit ↔
      nestingAll (e.learners.map Learner.form) ≤ 125 := by
    show max (Json.ofFloat e.base).nesting
      (max (nestingAll (e.learners.map Learner.form) + 1) 0) + 1 ≤ 127 ↔ _
    rw [nesting_ofFloat]
    omega
  rw [hlimit, nestingAll_le_iff, List.forall_mem_map]
  refine forall₂_congr fun l hl => ?_
  rw [nesting_learner (hbuilt l hl)]
  omega

/-- A base that is not finite is written as `null`, which is no number. -/
theorem ofJson_form_of_base {e : Ensemble} (h : e.base.isFinite = false) :
    ofJson true e.form = malformed := by
  have hnull : Json.ofFloat e.base = null := by
    rw [Json.ofFloat, h]
    rfl
  rw [ofJson, form, visitRecord_pair (by decide), hnull]
  rfl

/-- An ensemble has no type, so it is not a program. -/
theorem program_ofJson_form (nested : Bool) (e : Ensemble) :
    Program.ofJson nested e.form = malformed := by
  have houtline : Outline.ofJson nested e.form = none := rfl
  rw [Program.ofJson, houtline, ite_self]

end Ensemble

/-! ## Models -/

namespace Model

def form : Model → Json
  | program p => p.form
  | ensemble e => e.form

def programs : Model → List Program
  | program p => [p]
  | ensemble e => e.learners.map (·.program)

/-- The numbers that stand outside of programs: the base and the steps. -/
def weights : Model → List Float
  | program _ => []
  | ensemble e => e.base :: e.learners.map (·.step)

/-- How high a program may be at its place in a model for the text to be read. -/
def heightLimit : Model → ℕ
  | program _ => 63
  | ensemble _ => 61

variable {m : Model}

theorem toJson_eq_ok_iff {j : Json} :
    m.toJson = .ok j ↔ (∀ p ∈ m.programs, p.IsFinite) ∧ m.form = j := by
  cases m with
  | program p =>
    rw [programs, List.forall_mem_singleton]
    exact Program.toJson_eq_ok_iff
  | ensemble e =>
    rw [programs, List.forall_mem_map]
    exact Ensemble.toJson_eq_ok_iff

theorem json_eq_ok_iff {s : String} :
    m.json = .ok s ↔ (∀ p ∈ m.programs, p.IsFinite) ∧ compact m.form = s := by
  constructor
  · intro h
    obtain ⟨j, hj, rfl⟩ := Except.map_eq_ok.mp (Except.mapError_eq_ok.mp h)
    obtain ⟨hfinite, rfl⟩ := toJson_eq_ok_iff.mp hj
    exact ⟨hfinite, rfl⟩
  · rintro ⟨hfinite, rfl⟩
    rw [json, toJson_eq_ok_iff.mpr ⟨hfinite, rfl⟩]
    rfl

theorem writable_form (hbuilt : ∀ p ∈ m.programs, p.BuiltFrom printable)
    (hfinite : ∀ p ∈ m.programs, p.IsFinite) : m.form.Writable := by
  cases m with
  | program p =>
    exact Program.writable_form (hbuilt p List.mem_cons_self) (hfinite p List.mem_cons_self)
  | ensemble e =>
    exact Ensemble.writable_form (List.forall_mem_map.mp hbuilt) (List.forall_mem_map.mp hfinite)

theorem nesting_form_le_iff (hbuilt : ∀ p ∈ m.programs, p.BuiltFrom printable) :
    m.form.nesting ≤ Reader.depthLimit ↔ ∀ p ∈ m.programs, p.height ≤ m.heightLimit := by
  cases m with
  | program p =>
    rw [programs, List.forall_mem_singleton]
    exact Program.nesting_form_le_iff (hbuilt p List.mem_cons_self)
  | ensemble e =>
    rw [programs, List.forall_mem_map]
    exact Ensemble.nesting_form_le_iff (List.forall_mem_map.mp hbuilt)

theorem ofJson_form (hbuilt : ∀ p ∈ m.programs, p.BuiltFrom printable)
    (hfinite : ∀ p ∈ m.programs, p.IsFinite) (hweights : ∀ w ∈ m.weights, w.isFinite = true) :
    ofJson m.form = .ok m := by
  rw [ofJson, if_pos (isReadable_of_writable (writable_form hbuilt hfinite))]
  cases m with
  | program p =>
    rw [form, ofJson_eq_ok true (hbuilt p List.mem_cons_self) (hfinite p List.mem_cons_self)]
  | ensemble e =>
    obtain ⟨hbase, hsteps⟩ := List.forall_mem_cons.mp hweights
    rw [form, Ensemble.program_ofJson_form, Ensemble.ofJson_form (List.forall_mem_map.mp hbuilt)
      (List.forall_mem_map.mp hfinite) hbase (List.forall_mem_map.mp hsteps)]
    rfl

theorem ofJson_refuses {j : Json} (h : j.isReadable = false) : ofJson j = malformed := by
  rw [ofJson, h]
  rfl

theorem ofJsonText_compact (hbuilt : ∀ p ∈ m.programs, p.BuiltFrom printable)
    (hfinite : ∀ p ∈ m.programs, p.IsFinite) :
    ofJsonText (compact m.form) = if ∀ p ∈ m.programs, p.height ≤ m.heightLimit
      then (ofJson m.form).mapError Error.json else .error (.json .malformed) := by
  rw [ofJsonText, decodeText_compact_of_refuses (fun _ => ofJson_refuses)
    (writable_form hbuilt hfinite)]
  by_cases hheights : ∀ p ∈ m.programs, p.height ≤ m.heightLimit
  · rw [if_pos ((nesting_form_le_iff hbuilt).mpr hheights), if_pos hheights]
  · rw [if_neg fun hnesting => hheights ((nesting_form_le_iff hbuilt).mp hnesting),
      if_neg hheights]
    rfl

theorem ofJsonText_compact_of_base {e : Ensemble}
    (hbuilt : ∀ p ∈ (ensemble e).programs, p.BuiltFrom printable)
    (hfinite : ∀ p ∈ (ensemble e).programs, p.IsFinite) (hbase : e.base.isFinite = false) :
    ofJsonText (compact (ensemble e).form) = .error (.json .malformed) := by
  have hread : ofJson (ensemble e).form = malformed := by
    rw [ofJson, form, Ensemble.program_ofJson_form, Ensemble.ofJson_form_of_base hbase]
    exact ite_self malformed
  rw [ofJsonText_compact hbuilt hfinite, hread]
  exact ite_self _

/-- The text of a model gives the same model back, with every number the same bit for bit, if
its base and its steps are finite and none of its programs is too high.  A model with a higher
program is written, but its text is refused. -/
theorem text_reads_back {s : String} (hbuilt : ∀ p ∈ m.programs, p.BuiltFrom printable)
    (hweights : ∀ w ∈ m.weights, w.isFinite = true) (h : m.json = .ok s) :
    ofJsonText s = if ∀ p ∈ m.programs, p.height ≤ m.heightLimit then .ok m
      else .error (.json .malformed) := by
  obtain ⟨hfinite, rfl⟩ := json_eq_ok_iff.mp h
  rw [ofJsonText_compact hbuilt hfinite, ofJson_form hbuilt hfinite hweights]
  rfl

/-- A base that is a zero with a sign, and a step that is the smallest double. -/
def faint : Model :=
  ensemble ⟨-0.0, [⟨finest, Float.ofBits 1⟩, ⟨tower 61, 0.1⟩]⟩

theorem text_reads_back_faint :
    (∀ p ∈ faint.programs, p.BuiltFrom printable) ∧
    (∀ w ∈ faint.weights, w.isFinite = true) ∧
    ∃ s, faint.json = .ok s ∧ ofJsonText s = .ok faint := by
  have hprograms : faint.programs = [finest, tower 61] := rfl
  have hbuilt : ∀ p ∈ faint.programs, p.BuiltFrom printable := by
    rw [hprograms]
    simpa using ⟨builtFrom_finest, builtFrom_tower 61⟩
  have hfinite : ∀ p ∈ faint.programs, p.IsFinite := by
    rw [hprograms]
    simpa using ⟨isFinite_finest, isFinite_tower 61⟩
  have hweights : ∀ w ∈ faint.weights, w.isFinite = true :=
    List.all_eq_true.mp (by decide +kernel)
  have hheights : ∀ p ∈ faint.programs, p.height ≤ faint.heightLimit := by
    rw [hprograms, List.forall_mem_cons, List.forall_mem_singleton, height_tower]
    decide
  have hjson := json_eq_ok_iff.mpr ⟨hfinite, rfl⟩
  have hread := text_reads_back hbuilt hweights hjson
  rw [if_pos hheights] at hread
  exact ⟨hbuilt, hweights, _, hjson, hread⟩

/-- Of a tower that is one level too high, and of an ensemble without learners whose base is
infinite, there is a text, but it is refused. -/
theorem written_but_refused :
    (tower 64).BuiltFrom printable ∧
    (∃ s, (program (tower 64)).json = .ok s ∧ ofJsonText s = .error (.json .malformed)) ∧
    (∃ s, (ensemble (.ofBase Binary64.infinity)).json = .ok s ∧
      ofJsonText s = .error (.json .malformed)) := by
  refine ⟨builtFrom_tower 64, ?_, ?_⟩
  · have hbuilt : ∀ p ∈ (program (tower 64)).programs, p.BuiltFrom printable := by
      simpa [programs] using builtFrom_tower 64
    have hfinite : ∀ p ∈ (program (tower 64)).programs, p.IsFinite := by
      simpa [programs] using isFinite_tower 64
    refine ⟨_, json_eq_ok_iff.mpr ⟨hfinite, rfl⟩, ?_⟩
    rw [ofJsonText_compact hbuilt hfinite, if_neg]
    simp [programs, heightLimit, height_tower]
  · have hbuilt : ∀ p ∈ (ensemble (.ofBase Binary64.infinity)).programs, p.BuiltFrom printable :=
      nofun
    have hfinite : ∀ p ∈ (ensemble (.ofBase Binary64.infinity)).programs, p.IsFinite := nofun
    exact ⟨_, json_eq_ok_iff.mpr ⟨hfinite, rfl⟩,
      ofJsonText_compact_of_base hbuilt hfinite (by decide +kernel)⟩

end Model
end SymbolicRegression
