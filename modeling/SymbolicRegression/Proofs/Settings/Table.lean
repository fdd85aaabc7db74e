import SymbolicRegression.Settings.Table
import SymbolicRegression.Proofs.Json.Reading
import SymbolicRegression.Proofs.Outcomes

/-!
Tables of settings.

A table is lawful if no two settings share a name, if a slot that is written changes its own value
and no other, and if the slots tell records apart.  Then the members of an object may come in any
order and under any of their names: what they leave behind is read off slot by slot.
-/

namespace SymbolicRegression

variable {σ ρ : Type}

namespace Slot

/-- What a slot holds. -/
inductive Value where
  | text (s : String)
  | optionalText (s : Option String)
  | real (x : Float)
  | natural (n : ℕ)
  | flag (b : Bool)

def value (s : σ) : Slot σ → Value
  | text p => .text (p.get s)
  | optionalText p => .optionalText (p.get s)
  | real p => .real (p.get s)
  | natural p => .natural (p.get s)
  | flag p => .flag (p.get s)

/-- The record `t` with the slot as it is in `s`. -/
def copy (s t : σ) : Slot σ → σ
  | text p => p.set (p.get s) t
  | optionalText p => p.set (p.get s) t
  | real p => p.set (p.get s) t
  | natural p => p.set (p.get s) t
  | flag p => p.set (p.get s) t

/-- The value stands in a file of settings as it is: reals are finite and counts are words. -/
def Value.Storable : Value → Prop
  | real x => x.isFinite = true
  | natural n => n < Decimal.wordLimit
  | _ => True

def Value.real? : Value → Option Float
  | real x => some x
  | _ => none

variable {f : Slot σ} {s t : σ}

theorem toOption_ofOption_text (o : Option String) :
    (Json.ofOption Json.text o).toOption Json.toText = .ok o := by
  cases o <;> rfl

theorem put_toJson (h : (f.value s).Storable) : f.put (f.toJson s) t = .ok (f.copy s t) := by
  cases f with
  | text p => rfl
  | optionalText p =>
    show (do return p.set (← (Json.ofOption Json.text (p.get s)).toOption Json.toText) t) = _
    rw [toOption_ofOption_text]
    rfl
  | real p =>
    show (do return p.set (← (Json.ofFloat (p.get s)).toFloat) t) = _
    rw [Json.toFloat_ofFloat h]
    rfl
  | natural p => rfl
  | flag p => rfl

theorem writable_toJson (h : (f.value s).Storable) : (f.toJson s).Writable := by
  cases f with
  | optionalText p =>
    show (Json.ofOption Json.text (p.get s)).Writable
    cases p.get s <;> trivial
  | real p => exact Json.writable_ofFloat _
  | natural p => exact h
  | _ => trivial

theorem nesting_toJson : (f.toJson s).nesting = 0 := by
  cases f with
  | optionalText p =>
    show (Json.ofOption Json.text (p.get s)).nesting = 0
    cases p.get s <;> rfl
  | real p => exact Json.nesting_ofFloat _
  | _ => rfl

end Slot

namespace Setting

variable {table : List (Setting σ)} {rest : σ → ρ}

/-- The settings do not get in each other's way.  `rest` is what no setting of the table holds. -/
structure Lawful (table : List (Setting σ)) (rest : σ → ρ) : Prop where
  names : (table.flatMap fun f => f.name :: f.aliases).Nodup
  values_copy : ∀ (i : ℕ) (f : Setting σ), table[i]? = some f → ∀ s t,
    table.map (·.slot.value (f.slot.copy s t)) =
      (table.map (·.slot.value t)).set i (f.slot.value s)
  rest_copy : ∀ f ∈ table, ∀ s t, rest (f.slot.copy s t) = rest t
  ext : ∀ s t, table.map (·.slot.value s) = table.map (·.slot.value t) → rest s = rest t → s = t

theorem hasName_iff {f : Setting σ} {key : String} :
    f.hasName key = true ↔ key ∈ f.name :: f.aliases := by
  rw [hasName, Bool.or_eq_true, beq_iff_eq, List.contains_iff_mem, List.mem_cons]
  exact or_congr_left eq_comm

/-- The key is a name of no setting. -/
def isForeign (table : List (Setting σ)) (key : String) : Bool := table.all (!hasName key ·)

theorem isForeign_iff {key : String} :
    isForeign table key = true ↔ table.findIdx? (hasName key) = none := by
  rw [List.findIdx?_eq_none_iff, isForeign, List.all_eq_true]
  simp only [Bool.not_eq_true']

/-! ## What a lawful table says about its settings -/

section

variable (h : Lawful table rest) {i j : ℕ} {f g : Setting σ} {s t : σ} {key : String}

include h

theorem Lawful.findIdx?_eq_some (hf : table[i]? = some f) (hname : f.hasName key = true) :
    table.findIdx? (hasName key) = some i := by
  obtain ⟨hi, rfl⟩ := List.getElem?_eq_some_iff.mp hf
  refine List.findIdx?_eq_some_iff_getElem.mpr ⟨hi, hname, fun j hj hother => ?_⟩
  have hdisjoint := List.pairwise_iff_getElem.mp (List.nodup_flatMap.mp h.names).2 j i
    (hj.trans hi) hi hj
  exact hdisjoint (hasName_iff.mp hother) (hasName_iff.mp hname)

theorem Lawful.eq_of_hasName (hg : table[i]? = some g) (hname : g.hasName key = true)
    (hf : f ∈ table) (hname' : f.hasName key = true) : f = g := by
  obtain ⟨j, hj⟩ := List.getElem?_of_mem hf
  have hidx := (h.findIdx?_eq_some hg hname).symm.trans (h.findIdx?_eq_some hj hname')
  rw [Option.some.inj hidx, hj] at hg
  exact Option.some.inj hg

/-- A slot that is written changes its own value and no other. -/
theorem Lawful.value_copy (hf : table[i]? = some f) (hg : table[j]? = some g) :
    g.slot.value (f.slot.copy s t) = if i = j then f.slot.value s else g.slot.value t := by
  have hvalues := congrArg (·[j]?) (h.values_copy i f hf s t)
  have hlt : i < table.length := (List.getElem?_eq_some_iff.mp hf).1
  simp only [List.getElem?_map, List.getElem?_set, hg, Option.map_some, List.length_map] at hvalues
  by_cases hij : i = j
  · rw [if_pos hij, if_pos hlt] at hvalues
    rw [if_pos hij]
    exact Option.some.inj hvalues
  · rw [if_neg hij] at hvalues
    rw [if_neg hij]
    exact Option.some.inj hvalues

/-- A key names the setting that is found by it. -/
theorem Lawful.hasName_iff_eq (hidx : table.findIdx? (hasName key) = some i)
    (hg : table[j]? = some g) : g.hasName key = true ↔ i = j := by
  constructor
  · intro hname
    exact Option.some.inj (hidx.symm.trans (h.findIdx?_eq_some hg hname))
  · rintro rfl
    obtain ⟨hi, hname, -⟩ := List.findIdx?_eq_some_iff_getElem.mp hidx
    rw [List.getElem?_eq_getElem hi] at hg
    cases hg
    exact hname

/-- Under a key of its own a setting is written, and all others stay. -/
theorem Lawful.value_copy_of_key (hidx : table.findIdx? (hasName key) = some i)
    (hf : table[i]? = some f) (hg : g ∈ table) :
    g.slot.value (f.slot.copy s t) =
      if g.hasName key = true then g.slot.value s else g.slot.value t := by
  obtain ⟨j, hj⟩ := List.getElem?_of_mem hg
  have hname := h.hasName_iff_eq hidx hj
  rw [h.value_copy hf hj]
  by_cases hij : i = j
  · subst hij
    rw [if_pos rfl, if_pos (hname.mpr rfl)]
    rw [hf] at hj
    cases hj
    rfl
  · rw [if_neg hij, if_neg (hname.not.mpr hij)]

/-! ## Members in any order -/

variable {members : List (String × Json)}

/-- Members that give every setting at most once, as it is in `s`, are put into a record.  What
comes out is as `s` in the settings that are named and as before in all others. -/
theorem Lawful.exists_putMembers (seen : List ℕ) (acc : σ)
    (hvalues : ∀ m ∈ members, ∀ f ∈ table, f.hasName m.1 = true →
      m.2 = f.slot.toJson s ∧ (f.slot.value s).Storable)
    (honce : members.Pairwise fun m m' =>
      ∀ f ∈ table, ¬(f.hasName m.1 = true ∧ f.hasName m'.1 = true))
    (hseen : ∀ m ∈ members, ∀ i f, table[i]? = some f → f.hasName m.1 = true → i ∉ seen) :
    ∃ out, putMembers table seen (members.map fun m => (some m.1, m.2)) acc =
        .ok (out, (members.map (·.1)).filter (isForeign table)) ∧
      rest out = rest acc ∧
      ∀ f ∈ table, f.slot.value out =
        if members.any (fun m => f.hasName m.1) then f.slot.value s else f.slot.value acc := by
  induction members generalizing seen acc with
  | nil => exact ⟨acc, rfl, rfl, fun f hf => rfl⟩
  | cons m ms ih =>
    obtain ⟨hvaluem, hvaluems⟩ := List.forall_mem_cons.mp hvalues
    obtain ⟨honcem, honcems⟩ := List.pairwise_cons.mp honce
    obtain ⟨hseenm, hseenms⟩ := List.forall_mem_cons.mp hseen
    cases hidx : table.findIdx? (hasName m.1) with
    | none =>
      have hforeign : isForeign table m.1 = true := isForeign_iff.mpr hidx
      obtain ⟨out, hout, hrest, hread⟩ := ih seen acc hvaluems honcems hseenms
      refine ⟨out, ?_, hrest, fun f hf => ?_⟩
      · rw [List.map_cons, List.map_cons, List.filter_cons_of_pos hforeign]
        simp only [putMembers, hidx, hout]
        rfl
      · rw [hread f hf, List.any_cons, List.findIdx?_eq_none_iff.mp hidx f hf, Bool.false_or]
    | some i =>
      obtain ⟨hi, hname, -⟩ := List.findIdx?_eq_some_iff_getElem.mp hidx
      have hf : table[i]? = some table[i] := List.getElem?_eq_getElem hi
      have hmem : table[i] ∈ table := List.getElem_mem hi
      obtain ⟨hj, hstorable⟩ := hvaluem _ hmem hname
      have hfresh : ∀ m' ∈ ms, ∀ j g, table[j]? = some g → g.hasName m'.1 = true →
          j ∉ i :: seen := by
        intro m' hm' j g hg hname' hmem'
        rcases List.mem_cons.mp hmem' with rfl | hmem'
        · rw [hf] at hg
          cases hg
          exact honcem m' hm' _ hmem ⟨hname, hname'⟩
        · exact hseenms m' hm' j g hg hname' hmem'
      obtain ⟨out, hout, hrest, hread⟩ :=
        ih (i :: seen) (table[i].slot.copy s acc) hvaluems honcems hfresh
      refine ⟨out, ?_, hrest.trans (h.rest_copy _ hmem s acc), fun g hg => ?_⟩
      · have hnotforeign : ¬isForeign table m.1 = true := by
          rw [isForeign_iff, hidx]
          nofun
        have hnew : ¬seen.contains i = true := by
          rw [List.contains_iff_mem]
          exact hseenm i _ hf hname
        rw [List.map_cons, List.map_cons, List.filter_cons_of_neg hnotforeign]
        simp only [putMembers, hidx, if_neg hnew, hf]
        rw [hj, Slot.put_toJson hstorable]
        exact hout
      · rw [hread g hg, h.value_copy_of_key hidx hf hg, List.any_cons]
        cases ms.any fun m => g.hasName m.1 with
        | true => simp
        | false => simp

end

/-! ## Settings given twice -/

variable {s : σ} {seen : List ℕ} {m : String × Json} {members : List (String × Json)}

/-- A fault that later members have in any record, after what has been seen so far, remains. -/
theorem exists_fault_cons (h : ∀ (seen' : List ℕ) (s' : σ), (∀ i ∈ seen, i ∈ seen') →
      (∀ i, table.findIdx? (hasName m.1) = some i → i ∈ seen') →
        ∃ fault, putMembers table seen' (members.map fun m => (some m.1, m.2)) s' = .error fault) :
    ∃ fault, putMembers table seen ((m :: members).map fun m => (some m.1, m.2)) s =
      .error fault := by
  cases hidx : table.findIdx? (hasName m.1) with
  | none =>
    rw [hidx] at h
    obtain ⟨fault, hfault⟩ := h seen s (fun _ hi => hi) nofun
    refine ⟨fault, ?_⟩
    simp only [List.map_cons, putMembers, hidx, hfault]
    rfl
  | some j =>
    obtain ⟨hj, -⟩ := List.findIdx?_eq_some_iff_getElem.mp hidx
    have hf : table[j]? = some table[j] := List.getElem?_eq_getElem hj
    by_cases hseen : seen.contains j = true
    · exact ⟨.malformed, by simp only [List.map_cons, putMembers, hidx, if_pos hseen]; rfl⟩
    · simp only [List.map_cons, putMembers, hidx, if_neg hseen, hf]
      cases table[j].slot.put m.2 s with
      | error fault => exact ⟨fault, rfl⟩
      | ok t =>
        refine h (j :: seen) t (fun i hi => List.mem_cons_of_mem j hi) fun i hi => ?_
        rw [hidx] at hi
        cases hi
        exact List.mem_cons_self

theorem exists_fault_of_seen {i : ℕ} (hi : i ∈ seen) (hm : m ∈ members)
    (hidx : table.findIdx? (hasName m.1) = some i) :
    ∃ fault, putMembers table seen (members.map fun m => (some m.1, m.2)) s = .error fault := by
  induction members generalizing seen s with
  | nil => cases hm
  | cons m' members ih =>
    rcases List.mem_cons.mp hm with rfl | hm
    · have hseen : seen.contains i = true := List.contains_iff_mem.mpr hi
      exact ⟨.malformed, by simp only [List.map_cons, putMembers, hidx, if_pos hseen]; rfl⟩
    · exact exists_fault_cons fun seen' s' hsub _ => ih (hsub i hi) hm

theorem Lawful.exists_fault_of_twice (h : Lawful table rest) {f : Setting σ} (hf : f ∈ table)
    (htwice : 2 ≤ members.countP fun m => f.hasName m.1) (seen : List ℕ) (s : σ) :
    ∃ fault, putMembers table seen (members.map fun m => (some m.1, m.2)) s = .error fault := by
  obtain ⟨i, hi⟩ := List.getElem?_of_mem hf
  induction members generalizing seen s with
  | nil => cases htwice
  | cons m members ih =>
    refine exists_fault_cons fun seen' s' _ hnew => ?_
    rw [List.countP_cons] at htwice
    by_cases hname : f.hasName m.1 = true
    · rw [if_pos hname] at htwice
      have hlater : 0 < members.countP fun m => f.hasName m.1 := by omega
      obtain ⟨m', hm', hname'⟩ := List.countP_pos_iff.mp hlater
      have hseen := hnew i (h.findIdx?_eq_some hi hname)
      exact exists_fault_of_seen hseen hm' (h.findIdx?_eq_some hi hname')
    · rw [if_neg hname] at htwice
      exact ih htwice seen' s'

end Setting
end SymbolicRegression
