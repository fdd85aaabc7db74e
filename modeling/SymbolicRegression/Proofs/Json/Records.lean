import SymbolicRegression.Proofs.Json.Reading

/-!
Records are read as they were written.

A record is written with its fields under their names and in their order, and it is read just as
the array of its values is (`visitRecord_zip`).  A decoder therefore meets the values one by one,
and no proof about a particular record looks up a name.
-/

namespace SymbolicRegression
namespace Json

variable {σ : Type} {put : σ → Nat → Json → Except JsonFault σ} {acc : σ}

/-! ## Fields in their order -/

theorem idxOf?_append_cons {past names : List String} {name : String} (h : name ∉ past) :
    (past ++ name :: names).idxOf? name = some past.length := by
  induction past with
  | nil => simp [List.idxOf?, List.findIdx?_cons]
  | cons other past ih =>
    rw [List.mem_cons, not_or] at h
    have hne : (other == name) = false := by simpa using Ne.symm h.1
    have hrest := ih h.2
    unfold List.idxOf? at hrest ⊢
    rw [List.cons_append, List.findIdx?_cons, hne, hrest]
    rfl

/-- The fields that are still to come, behind others that have been seen. -/
theorem visitMembers_zip {past names : List String} {values : List Json} {seen : List ℕ}
    (hnames : (past ++ names).Nodup) (hlength : values.length = names.length)
    (hseen : ∀ i ∈ seen, i < past.length) :
    visitMembers (past ++ names) put seen acc ((names.zip values).map fun m => (some m.1, m.2)) =
      visitItems put names.length past.length acc values := by
  induction names generalizing past values seen acc with
  | nil =>
    obtain rfl := List.eq_nil_of_length_eq_zero hlength
    rfl
  | cons name names ih =>
    obtain ⟨j, values, rfl⟩ := List.exists_cons_of_length_eq_add_one hlength
    have hnew : name ∉ past := fun hmem =>
      List.disjoint_of_nodup_append hnames hmem List.mem_cons_self
    have hfirst : seen.contains past.length = false := by
      rw [Bool.eq_false_iff, ne_eq, List.contains_iff_mem]
      exact fun hmem => lt_irrefl _ (hseen _ hmem)
    have hseen' : ∀ i ∈ past.length :: seen, i < (past ++ [name]).length := by
      intro i hi
      rw [List.length_append, List.length_singleton, Nat.lt_succ_iff]
      rcases List.mem_cons.mp hi with rfl | hi
      · exact le_refl _
      · exact (hseen i hi).le
    have hrest (next : σ) := @ih next (past ++ [name]) values (past.length :: seen)
      (by rwa [← List.append_cons]) (Nat.succ.inj hlength) hseen'
    rw [← List.append_cons, List.length_append] at hrest
    rw [List.zip_cons_cons, List.map_cons, visitMembers, idxOf?_append_cons hnew]
    dsimp only
    rw [hfirst, if_neg Bool.false_ne_true]
    exact bind_congr hrest

/-- A record with all its fields in their order is read like the array of their values. -/
theorem visitRecord_zip {names : List String} {values : List Json} (hnames : names.Nodup)
    (hlength : values.length = names.length) :
    visitRecord names put acc (record (names.zip values)) =
      visitRecord names put acc (array values) :=
  @visitMembers_zip _ _ _ [] _ _ [] hnames hlength nofun

theorem visitRecord_pair {a b : String} (hab : a ≠ b) (x y : Json) :
    visitRecord [a, b] put acc (record [(a, x), (b, y)]) = (do put (← put acc 0 x) 1 y) := by
  have hnames : [a, b].Nodup := by simpa using hab
  have hitems : visitRecord [a, b] put acc (array [x, y]) =
      (do put (← put acc 0 x) 1 y >>= pure) := rfl
  rw [show record [(a, x), (b, y)] = record ([a, b].zip [x, y]) from rfl,
    visitRecord_zip hnames rfl, hitems]
  simp only [bind_pure]

/-- Slots fill from the left. -/
theorem visitItems_slots (past values : List Json) :
    visitItems (fun acc i v => .ok (acc.set i (some v))) values.length past.length
      (past.map some ++ List.replicate values.length none) values =
        .ok ((past ++ values).map some) := by
  induction values generalizing past with
  | nil => simp [visitItems]
  | cons j values ih =>
    have hset : (past.map some ++ List.replicate (values.length + 1) none).set past.length
        (some j) = (past ++ [j]).map some ++ List.replicate values.length none := by
      rw [List.set_append_right _ _ (by simp), List.length_map, Nat.sub_self,
        List.replicate_succ, List.set_cons_zero]
      simp
    have hrest := ih (past ++ [j])
    rw [List.length_append, ← List.append_cons, ← hset] at hrest
    exact hrest

theorem slots_zip {names : List String} {values : List Json} (hnames : names.Nodup)
    (hlength : values.length = names.length) :
    slots names (record (names.zip values)) = .ok (values.map some) := by
  have hfill := visitItems_slots [] values
  rw [hlength] at hfill
  rw [slots, visitRecord_zip hnames hlength]
  exact hfill

/-- Of a record that is not too deep itself the reader keeps all fields, as far as they go. -/
theorem cut_record_zip (depth : ℕ) (names : List String) (values : List Json) :
    cut (depth + 1) (record (names.zip values)) = record (names.zip (values.map (cut depth))) := by
  have hmembers (ms : List (Option String × Json)) :
      cutMembers depth ms = ms.map fun m => (m.1, cut depth m.2) := by
    induction ms with
    | nil => rfl
    | cons m ms ih => rw [cutMembers, ih, List.map_cons]
  show object (cutMembers depth _) = object _
  rw [hmembers, List.map_map, List.zip_map_right, List.map_map]
  rfl

theorem writable_record_zip {names : List String} {values : List Json}
    (h : ∀ j ∈ values, j.Writable) : (record (names.zip values)).Writable :=
  writable_record.mpr fun m hm => h m.2 (List.of_mem_zip hm).2

/-! ## Optional numbers -/

theorem writable_ofOption (o : Option Float) : (ofOption ofFloat o).Writable := by
  cases o with
  | none => trivial
  | some x => exact writable_ofFloat x

theorem nesting_ofOption (o : Option Float) : (ofOption ofFloat o).nesting = 0 := by
  cases o with
  | none => rfl
  | some x => exact nesting_ofFloat x

/-- An infinite number that might be missing is missing when it is read. -/
theorem toOption_ofOption (o : Option Float) :
    toOption toFloat (ofOption ofFloat o) = .ok (o.filter (·.isFinite)) := by
  cases o with
  | none => rfl
  | some x =>
    show toOption toFloat (ofFloat x) = .ok (Option.filter _ (some x))
    unfold ofFloat
    by_cases hx : x.isFinite = true
    · rw [if_pos hx, Option.filter_some_pos hx]
      rfl
    · rw [if_neg hx, Option.filter_some_neg (Bool.eq_false_iff.mpr hx)]
      rfl

theorem filter_isFinite {o : Option Float} (h : ∀ x ∈ o, x.isFinite = true) :
    o.filter (·.isFinite) = o := by
  cases o with
  | none => rfl
  | some x => exact Option.filter_some_pos (h x rfl)

end Json
end SymbolicRegression
