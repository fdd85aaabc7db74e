import SymbolicRegression.Proofs.Json.Reading
import SymbolicRegression.Proofs.Outcomes

/-!
What has been read can be written.

Whatever the text was, a value that came out of it either cannot be read or has a written form,
and then it is nested no deeper than the reader goes.  The reader keeps two promises for this: a
number it gives out fits a word or is a finite double, and what it opens without a level to go
it seals.
-/

namespace SymbolicRegression
namespace Json

/-- A value that can be read can be written as well, and is nested no deeper than this. -/
def Kept (depth : ℕ) (j : Json) : Prop := j.isReadable = true → j.Writable ∧ j.nesting ≤ depth

def KeptAll (depth : ℕ) (js : List Json) : Prop :=
  allReadable js = true → AllWritable js ∧ nestingAll js ≤ depth

def KeptMembers (depth : ℕ) (ms : List (Option String × Json)) : Prop :=
  membersReadable ms = true → MembersWritable ms ∧ nestingMembers ms ≤ depth

namespace Reader

variable {depth : ℕ} {s : List Char} {j : Json} {js : List Json}
  {ms : List (Option String × Json)}

/-! ## Lists of values -/

theorem kept_leaf (hj : j.Writable) (hnesting : j.nesting = 0) : Kept depth j := by
  intro _
  rw [hnesting]
  exact ⟨hj, Nat.zero_le depth⟩

theorem kept_unreadable : Kept depth unreadable := nofun

theorem kept_broken : Kept depth broken := nofun

theorem keptAll_nil : KeptAll depth [] := fun _ => ⟨trivial, Nat.zero_le depth⟩

theorem keptAll_cons (hj : Kept depth j) (hjs : KeptAll depth js) : KeptAll depth (j :: js) := by
  intro h
  rw [allReadable, Bool.and_eq_true] at h
  obtain ⟨hwritable, hnesting⟩ := hj h.1
  obtain ⟨hall, hdeepest⟩ := hjs h.2
  exact ⟨⟨hwritable, hall⟩, Nat.max_le.mpr ⟨hnesting, hdeepest⟩⟩

theorem keptMembers_nil : KeptMembers depth [] := fun _ => ⟨trivial, Nat.zero_le depth⟩

theorem keptMembers_cons {key : Option String} (hj : Kept depth j) (hms : KeptMembers depth ms) :
    KeptMembers depth ((key, j) :: ms) := by
  intro h
  rw [membersReadable, Bool.and_eq_true, Bool.and_eq_true] at h
  obtain ⟨hwritable, hnesting⟩ := hj h.1.2
  obtain ⟨hall, hdeepest⟩ := hms h.2
  exact ⟨⟨h.1.1, hwritable, hall⟩, Nat.max_le.mpr ⟨hnesting, hdeepest⟩⟩

theorem kept_sealed_array (h : KeptAll (depth - 1) js) : Kept depth (sealed depth (array js)) := by
  cases depth with
  | zero => exact fun hread => absurd hread (not_isReadable_sealed_zero (array js))
  | succ depth =>
    intro hread
    obtain ⟨hwritable, hnesting⟩ := h hread
    exact ⟨hwritable, Nat.succ_le_succ hnesting⟩

theorem kept_sealed_object (h : KeptMembers (depth - 1) ms) :
    Kept depth (sealed depth (object ms)) := by
  cases depth with
  | zero => exact fun hread => absurd hread (not_isReadable_sealed_zero (object ms))
  | succ depth =>
    intro hread
    obtain ⟨hwritable, hnesting⟩ := h hread
    exact ⟨hwritable, Nat.succ_le_succ hnesting⟩

/-! ## Numbers and words -/

theorem kept_numberValue (negative : Bool) (whole : List Char) (fraction : Option (List Char))
    (exponent : Option ℤ) : Kept depth (numberValue negative whole fraction exponent) := by
  unfold numberValue
  dsimp only
  split
  · next h =>
    simp only [Bool.and_eq_true, decide_eq_true_eq] at h
    exact kept_leaf h.2 rfl
  · split
    · next h =>
      simp only [Bool.and_eq_true, decide_eq_true_eq] at h
      exact kept_leaf ⟨h.1.2, h.2⟩ rfl
    · split
      · next hx =>
        refine kept_leaf ?_ rfl
        show Float.isFinite _ = true
        split
        · rw [Binary64.isFinite_double_neg]
          exact hx
        · exact hx
      · exact kept_unreadable

theorem kept_unsigned? {negative : Bool} {r : { r : List Char // r.length < s.length }}
    (h : unsigned? negative s = some (j, r)) : Kept depth j := by
  rw [unsigned?.eq_def] at h
  split at h
  · cases h
  · dsimp only at h
    split at h
    · split at h
      · cases h
      · split at h
        · cases h
        · split at h
          · cases h
          · cases h
            exact kept_numberValue _ _ _ _
    · cases h

theorem kept_number? {r : { r : List Char // r.length < s.length }}
    (h : number? s = some (j, r)) : Kept depth j := by
  unfold number? at h
  split at h
  · obtain ⟨⟨k, q⟩, hk, hj⟩ := Option.map_eq_some_iff.mp h
    cases hj
    exact kept_unsigned? hk
  · exact kept_unsigned? h

theorem kept_word {t letters : List Char} {h : t.length < s.length} (hj : j.Writable)
    (hnesting : j.nesting = 0) : Kept depth (word j letters t h).1 := by
  unfold word
  split
  · exact kept_leaf hj hnesting
  · exact kept_broken

/-! ## The reader -/

mutual

theorem kept_value (depth : ℕ) (s : List Char) : Kept depth (value depth s).1 := by
  rw [value.eq_def]
  split
  · exact kept_broken
  · next c t h =>
    have ht := length_lt_of_dropSpaces h
    dsimp only
    split
    · -- a text
      split
      · exact kept_leaf trivial rfl
      · exact kept_unreadable
      · exact kept_broken
    split
    · -- an array
      split
      · exact kept_sealed_array keptAll_nil
      · exact kept_sealed_array (keptAll_items (depth - 1) t)
    split
    · -- an object
      split
      · split
        · exact kept_sealed_object keptMembers_nil
        · exact kept_sealed_object (keptMembers_members (depth - 1) t)
      · exact kept_sealed_object (keptMembers_cons kept_broken keptMembers_nil)
    split
    · exact kept_word trivial rfl
    split
    · exact kept_word trivial rfl
    split
    · exact kept_word trivial rfl
    split
    · next hnumber => exact kept_number? hnumber
    · exact kept_broken
termination_by 2 * s.length

theorem keptAll_items (depth : ℕ) (s : List Char) : KeptAll depth (items depth s).1 := by
  have hvalue := kept_value depth s
  rw [items.eq_def]
  split
  · next j heq =>
    rw [heq] at hvalue
    exact keptAll_cons hvalue keptAll_nil
  · next j r hr heq =>
    rw [heq] at hvalue
    dsimp only
    split
    · next t h =>
      have ht := length_lt_of_dropSpaces h
      exact keptAll_cons hvalue (keptAll_items depth t)
    · exact keptAll_cons hvalue keptAll_nil
    · exact keptAll_cons hvalue (keptAll_cons kept_broken keptAll_nil)
termination_by 2 * s.length + 1

theorem keptMembers_members (depth : ℕ) (s : List Char) :
    KeptMembers depth (members depth s).1 := by
  have hfault {key : Option String} : KeptMembers depth [(key, broken)] :=
    keptMembers_cons kept_broken keptMembers_nil
  rw [members.eq_def]
  split
  · exact hfault
  next c t h =>
  have ht := length_lt_of_dropSpaces h
  dsimp only
  split
  · split
    · exact hfault
    next key u hu heq =>
    split
    · next v h' =>
      have hv := length_lt_of_dropSpaces h'
      have hvalue := kept_value depth v
      split
      · next j heq =>
        rw [heq] at hvalue
        exact keptMembers_cons hvalue keptMembers_nil
      · next j r hr heq =>
        rw [heq] at hvalue
        split
        · exact keptMembers_cons hvalue hfault
        · next d w h'' =>
          have hw := length_lt_of_dropSpaces h''
          split
          · exact keptMembers_cons hvalue (keptMembers_members depth w)
          split
          · exact keptMembers_cons hvalue keptMembers_nil
          · exact keptMembers_cons hvalue hfault
    · exact hfault
  · exact hfault
termination_by 2 * s.length + 1

end

end Reader

theorem kept_ofChars (s : List Char) : Kept Reader.depthLimit (ofChars s).1 := by
  have hvalue := Reader.kept_value Reader.depthLimit s
  unfold ofChars
  split
  · next heq =>
    rw [heq] at hvalue
    exact hvalue
  · next heq =>
    rw [heq] at hvalue
    exact hvalue

/-- What a text is decoded to has been decoded from the value at its start. -/
theorem decode_ofChars {α : Type} {decode : Json → Except JsonFault α} {s : String} {a : α}
    (h : decodeText decode s = .ok a) : decode (ofChars s.toList).1 = .ok a := by
  unfold decodeText at h
  generalize ofChars s.toList = read at h
  obtain ⟨j, atEnd⟩ := read
  obtain ⟨b, hb, h⟩ := Except.bind_eq_ok.mp h
  cases atEnd with
  | false => cases h
  | true =>
    cases h
    exact hb

end Json
end SymbolicRegression
