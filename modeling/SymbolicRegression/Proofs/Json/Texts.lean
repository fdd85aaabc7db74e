import SymbolicRegression.Json.Reader
import SymbolicRegression.Json.Writer

/-!
Texts in JSON are read as they were written.

Every character is written as one unit, plain, behind a backslash or as a code, and the reader
finds the same units again.  The only codes that are written are those of control characters,
so that no surrogates come up.
-/

namespace SymbolicRegression
namespace Json
namespace Reader

open Text

variable {c x : Char} {t r : List Char} {us : List TextUnit} {n : Nat}

/-! ## Units -/

theorem units_plain (hquote : c ≠ quoteMark) (hslash : c ≠ backslash) (hcontrol : ¬c.toNat < 32)
    {hr : r.length < t.length} (h : units t = some (us, ⟨r, hr⟩)) :
    units (c :: t) = some (.plain c :: us, ⟨r, Nat.lt_succ_of_lt hr⟩) := by
  rw [units.eq_def]
  dsimp only
  rw [if_neg hquote, if_neg hslash, if_neg hcontrol, h]
  rfl

theorem units_escaped (hu : c ≠ 'u') (hc : unescape? c = some x) {hr : r.length < t.length}
    (h : units t = some (us, ⟨r, hr⟩)) :
    units (backslash :: c :: t) =
      some (.plain x :: us, ⟨r, Nat.lt_succ_of_lt (Nat.lt_succ_of_lt hr)⟩) := by
  rw [units]
  · rw [if_neg (by decide), if_pos rfl, hc, h]
    rfl
  · intro a b c' d rest hc'
    exact absurd hc' hu

theorem units_code {a b d e : Char} (hn : code? a b d e = some n) {hr : r.length < t.length}
    (h : units t = some (us, ⟨r, hr⟩)) :
    ∃ hr, units (backslash :: 'u' :: a :: b :: d :: e :: t) = some (.code n :: us, ⟨r, hr⟩) := by
  rw [units, if_neg (by decide), if_pos rfl, hn, h]
  exact ⟨_, rfl⟩

theorem units_quoteMark (t : List Char) :
    units (quoteMark :: t) = some ([], ⟨t, Nat.lt_succ_self _⟩) := by
  rw [units.eq_def]
  dsimp only
  rw [if_pos rfl]

/-- The unit a character is written as. -/
def unitOf (c : Char) : TextUnit :=
  if c.toNat < 32 ∧ c.toNat ∉ [8, 9, 10, 12, 13] then .code c.toNat else .plain c

theorem code?_control : ∀ n < 32,
    code? '0' '0' (Nat.digitChar (n / 16)) (Nat.digitChar (n % 16)) = some n := by
  decide

/-- A character is written behind a backslash, as a code or as itself. -/
theorem escape_cases (c : Char) :
    (∃ e, escape c = [backslash, e] ∧ e ≠ 'u' ∧ unescape? e = some c ∧ unitOf c = .plain c) ∨
    (escape c = [backslash, 'u', '0', '0', Nat.digitChar (c.toNat / 16),
      Nat.digitChar (c.toNat % 16)] ∧ c.toNat < 32 ∧ unitOf c = .code c.toNat) ∨
    (escape c = [c] ∧ c ≠ quoteMark ∧ c ≠ backslash ∧ ¬c.toNat < 32 ∧ unitOf c = .plain c) := by
  by_cases hmark : c = quoteMark ∨ c = backslash
  · refine .inl ⟨c, if_pos hmark, ?_⟩
    rcases hmark with rfl | rfl
    · exact ⟨by decide, rfl, rfl⟩
    · exact ⟨by decide, rfl, rfl⟩
  · obtain ⟨hquote, hslash⟩ := not_or.mp hmark
    have hshort {k : Nat} {e : Char} (hk : c.toNat = k) (hu : e ≠ 'u')
        (hc : unescape? e = some (Char.ofNat k))
        (hunit : unitOf (Char.ofNat k) = .plain (Char.ofNat k)) :
        ∃ e', [backslash, e] = [backslash, e'] ∧ e' ≠ 'u' ∧ unescape? e' = some c ∧
          unitOf c = .plain c := by
      subst hk
      rw [Char.ofNat_toNat] at hc hunit
      exact ⟨e, rfl, hu, hc, hunit⟩
    unfold escape
    rw [if_neg hmark]
    split
    · next hk => exact .inl (hshort hk (by decide) rfl rfl)
    · next hk => exact .inl (hshort hk (by decide) rfl rfl)
    · next hk => exact .inl (hshort hk (by decide) rfl rfl)
    · next hk => exact .inl (hshort hk (by decide) rfl rfl)
    · next hk => exact .inl (hshort hk (by decide) rfl rfl)
    · next h8 h9 h10 h12 h13 =>
      refine .inr ?_
      by_cases hcontrol : c.toNat < 32
      · have hother : c.toNat ∉ [8, 9, 10, 12, 13] := by simpa using ⟨h8, h9, h10, h12, h13⟩
        exact .inl ⟨if_pos hcontrol, hcontrol, if_pos ⟨hcontrol, hother⟩⟩
      · exact .inr ⟨if_neg hcontrol, hquote, hslash, hcontrol, if_neg fun h => hcontrol h.1⟩

theorem units_escape (c : Char) {hr : r.length < t.length} (h : units t = some (us, ⟨r, hr⟩)) :
    ∃ hr, units (escape c ++ t) = some (unitOf c :: us, ⟨r, hr⟩) := by
  rcases escape_cases c with ⟨e, hescape, hu, hc, hunit⟩ | ⟨hescape, hcontrol, hunit⟩ |
    ⟨hescape, hquote, hslash, hcontrol, hunit⟩
  · rw [hescape, hunit]
    exact ⟨_, units_escaped hu hc h⟩
  · rw [hescape, hunit]
    exact units_code (code?_control c.toNat hcontrol) h
  · rw [hescape, hunit]
    exact ⟨_, units_plain hquote hslash hcontrol h⟩

theorem units_flatMap (s rest : List Char) : ∃ hr,
    units (s.flatMap escape ++ quoteMark :: rest) = some (s.map unitOf, ⟨rest, hr⟩) := by
  induction s with
  | nil => exact ⟨_, units_quoteMark rest⟩
  | cons c s ih =>
    obtain ⟨hr, h⟩ := ih
    rw [List.flatMap_cons, List.append_assoc]
    exact units_escape c h

/-! ## Characters -/

theorem characters?_map (s : List Char) : characters? (s.map unitOf) = some s := by
  induction s with
  | nil => rfl
  | cons c s ih =>
    rw [List.map_cons]
    by_cases hcontrol : c.toNat < 32 ∧ c.toNat ∉ [8, 9, 10, 12, 13]
    · have hunit : unitOf c = .code c.toNat := if_pos hcontrol
      have hlow : c.toNat < 0xD800 ∨ 0xDFFF < c.toNat := .inl (by omega)
      rw [hunit, characters?.eq_def]
      dsimp only
      rw [if_pos hlow, ih, Char.ofNat_toNat]
      rfl
    · have hunit : unitOf c = .plain c := if_neg hcontrol
      rw [hunit, characters?.eq_def]
      dsimp only
      rw [ih]
      rfl

/-- A text is read back from what stands behind its opening quote. -/
theorem quoted_append (s : String) (rest : List Char) : ∃ hr,
    quoted (s.toList.flatMap escape ++ quoteMark :: rest) = some (some s, ⟨rest, hr⟩) := by
  obtain ⟨hr, h⟩ := units_flatMap s.toList rest
  refine ⟨hr, ?_⟩
  unfold quoted
  rw [h, Option.map_some]
  dsimp only
  rw [characters?_map, Option.map_some, String.ofList_toList]

end Reader
end Json
end SymbolicRegression
