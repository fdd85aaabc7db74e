import SymbolicRegression.Settings.Fit
import SymbolicRegression.Proofs.Numeric.Whole
import SymbolicRegression.Proofs.Evolution.SafeDraws
import SymbolicRegression.Proofs.Settings
import SymbolicRegression.Proofs.Settings.Table

/-!
Settings in a file, under any of their names.

All settings of a fit make up one lawful table, so an object that gives some of them, each at most
once, leaves a record that agrees with the settings wherever they are given and has the usual
values elsewhere.  Validated settings are ones that JSON can hold, as long as their counts are
words.
-/

namespace SymbolicRegression

open Setting (isForeign isForeign_iff hasName hasName_iff)

/-! ## Names in ascending order -/

theorem pairwise_lt_eraseDups {l : List String} (h : l.Pairwise (· ≤ ·)) :
    l.eraseDups.Pairwise (· < ·) := by
  induction hlength : l.length using Nat.strong_induction_on generalizing l with
  | _ n ih =>
    cases l with
    | nil => exact .nil
    | cons a l =>
      obtain ⟨ha, hl⟩ := List.pairwise_cons.mp h
      have hsub : (l.filter fun b => !b == a).Sublist l := List.filter_sublist
      have hlt : (l.filter fun b => !b == a).length < n := by
        have hle := hsub.length_le
        rw [List.length_cons] at hlength
        omega
      rw [List.eraseDups_cons]
      refine List.pairwise_cons.mpr ⟨fun b hb => ?_, ih _ hlt (hl.sublist hsub) rfl⟩
      obtain ⟨hmem, hne⟩ := List.mem_filter.mp (List.mem_eraseDups.mp hb)
      exact lt_of_le_of_ne (ha b hmem) fun heq => by simp [heq] at hne

theorem pairwise_mergeSort_le (l : List String) :
    (l.mergeSort fun a b => decide (a ≤ b)).Pairwise (· ≤ ·) := by
  have hpairs : (l.mergeSort fun a b => decide (a ≤ b)).Pairwise fun a b => decide (a ≤ b) = true :=
    List.pairwise_mergeSort
      (fun a b c hab hbc => decide_eq_true ((of_decide_eq_true hab).trans (of_decide_eq_true hbc)))
      (fun a b => by simpa using le_total a b) l
  exact hpairs.imp fun h => of_decide_eq_true h

theorem pairwise_of_countP_le_one {α : Type} {p : α → Bool} {l : List α} (h : l.countP p ≤ 1) :
    l.Pairwise fun a b => ¬(p a = true ∧ p b = true) := by
  induction l with
  | nil => exact .nil
  | cons a l ih =>
    rw [List.countP_cons] at h
    refine List.pairwise_cons.mpr ⟨fun b hb ⟨hpa, hpb⟩ => ?_, ih (by omega)⟩
    have hpos : 0 < l.countP p := List.countP_pos_iff.mpr ⟨b, hb, hpb⟩
    rw [if_pos hpa] at h
    omega

namespace FitSettings

variable {s : FitSettings} {members : List (String × Json)}

/-! ## The table -/

/-- No two settings have a name in common, no setting writes into another one, and settings and
unknown names are all there is to a record. -/
theorem lawful_table : Setting.Lawful table FitSettings.unknown where
  names := by decide +kernel
  values_copy := by
    have hcopies (s t : FitSettings) :
        table.map (fun f => table.map (·.slot.value (f.slot.copy s t))) =
          table.zipIdx.map fun r => (table.map (·.slot.value t)).set r.2 (r.1.slot.value s) := by
      exact rfl
    intro i f hf s t
    have hcopy := congrArg (·[i]?) (hcopies s t)
    simp only [List.getElem?_map, List.getElem?_zipIdx, hf, Option.map_some, Nat.zero_add] at hcopy
    exact Option.some.inj hcopy
  rest_copy := by
    have hcopies (s t : FitSettings) : table.map (fun f => (f.slot.copy s t).unknown) =
        table.map fun _ => t.unknown := by
      exact rfl
    exact fun f hf s t => List.map_inj_left.mp (hcopies s t) f hf
  ext := by
    intro s t hvalues hunknown
    obtain ⟨flavor, ⟨⟩, ⟨⟩, unknown⟩ := s
    obtain ⟨flavor', ⟨⟩, ⟨⟩, unknown'⟩ := t
    cases hvalues
    cases hunknown
    rfl

/-- The counts among the settings, and the seed, are words. -/
def Words (s : FitSettings) : Prop :=
  ∀ f ∈ table, ∀ n, f.slot.value s = .natural n → n < Decimal.wordLimit

theorem validate_eq_ok_iff : s.validate = .ok () ↔ s.unknown = [] ∧
    (∃ flavor, Flavor.parse s.flavor = .ok flavor) ∧ s.evolution.Valid ∧ s.boosting.Valid := by
  have hunknown : s.checkUnknown = .ok () ↔ s.unknown = [] := by
    unfold checkUnknown
    cases s.unknown with
    | nil => exact iff_of_true rfl rfl
    | cons key keys => exact iff_of_false nofun nofun
  unfold validate
  simp only [Except.bind_eq_ok, hunknown, ← EvolutionSettings.validate_eq_ok_iff,
    ← BoostingSettings.validate_eq_ok_iff]
  constructor
  · intro ⟨⟨⟩, hunknown, flavor, hflavor, ⟨⟩, hevolution, hboosting⟩
    exact ⟨hunknown, ⟨flavor, hflavor⟩, hevolution, hboosting⟩
  · intro ⟨hunknown, ⟨flavor, hflavor⟩, hevolution, hboosting⟩
    exact ⟨(), hunknown, flavor, hflavor, (), hevolution, hboosting⟩

/-- What validation lets pass can be stored. -/
theorem storable_of_validate (hvalid : s.validate = .ok ()) (hwords : s.Words) :
    ∀ f ∈ table, (f.slot.value s).Storable := by
  obtain ⟨-, -, hevolution, hboosting⟩ := validate_eq_ok_iff.mp hvalid
  have hprobabilities : ∀ p ∈ s.evolution.probabilities, p.2.isFinite = true := by
    intro p hp
    obtain ⟨hlow, hhigh⟩ := hevolution.probabilities p hp
    exact Binary64.isFinite_of_le_of_le hlow hhigh
  simp only [EvolutionSettings.probabilities, List.forall_mem_cons] at hprobabilities
  obtain ⟨hconst, hfull, hleaf, hhoist, hsubtree, hpoint, hrate, hcrossover, -⟩ := hprobabilities
  have hrows := Binary64.isFinite_of_lt_of_le hboosting.rowShare.1 hboosting.rowShare.2
  have hfeatures := Binary64.isFinite_of_lt_of_le hboosting.featureShare.1 hboosting.featureShare.2
  have hreals : table.filterMap (fun f => (f.slot.value s).real?) =
      [s.evolution.parsimony, s.evolution.constMin, s.evolution.constMax, s.evolution.pConst,
        s.evolution.pFull, s.evolution.pLeaf, s.evolution.pHoist, s.evolution.pSubtree,
        s.evolution.pPoint, s.evolution.pointRate, s.evolution.pCrossover,
        s.boosting.learningRate, s.boosting.rowShare, s.boosting.featureShare] := by
    exact rfl
  have hfinite : ∀ x ∈ table.filterMap (fun f => (f.slot.value s).real?), x.isFinite = true := by
    rw [hreals]
    simp only [List.forall_mem_cons]
    exact ⟨hevolution.parsimony.1, hevolution.constMin, hevolution.constMax, hconst, hfull, hleaf,
      hhoist, hsubtree, hpoint, hrate, hcrossover, hboosting.learningRate.1, hrows, hfeatures,
      nofun⟩
  intro f hf
  cases hvalue : f.slot.value s with
  | real x => exact hfinite x (List.mem_filterMap.mpr ⟨f, hf, by rw [hvalue]; rfl⟩)
  | natural n => exact hwords f hf n hvalue
  | _ => trivial

/-! ## Objects of settings -/

/-- The members give settings of `s`, each at most once and under any of its names, and what they
leave out has its usual value in `s`.  There may be other members, which belong to no setting. -/
structure Presents (members : List (String × Json)) (s : FitSettings) : Prop where
  values : ∀ m ∈ members, ∀ f ∈ table, f.hasName m.1 = true → m.2 = f.slot.toJson s
  once : ∀ f ∈ table, (members.countP fun m => f.hasName m.1) ≤ 1
  omitted : ∀ f ∈ table, (∀ m ∈ members, f.hasName m.1 = false) →
    f.slot.value s = f.slot.value {}
  others : ∀ m ∈ members, (∀ f ∈ table, f.hasName m.1 = false) →
    m.2.Writable ∧ m.2.nesting < Json.Reader.depthLimit

theorem ofJson_refuses {j : Json} (h : j.isReadable = false) : ofJson j = Json.malformed := by
  cases j with
  | object members => exact if_neg (by rw [h]; exact Bool.false_ne_true)
  | _ => rfl

/-- The text of an object is read member by member, if these are not nested too deep. -/
theorem ofJsonText_compact (hwritable : ∀ m ∈ members, m.2.Writable) :
    ofJsonText (Json.record members).compact =
      if ∀ m ∈ members, m.2.nesting < Json.Reader.depthLimit then do
        let (s, unknown) ←
          (Setting.putMembers table [] (members.map fun m => (some m.1, m.2)) {}).mapError Error.json
        (s.addUnknown unknown).checkUnknown
        return s.addUnknown unknown
      else .error (.json .malformed) := by
  have hrecord := Json.writable_record.mpr hwritable
  have hlimit : Json.Reader.depthLimit = 126 + 1 := rfl
  have hdepth : (Json.record members).nesting ≤ Json.Reader.depthLimit ↔
      ∀ m ∈ members, m.2.nesting < Json.Reader.depthLimit := by
    rw [hlimit, Json.nesting_record_le_iff]
    simp only [Nat.lt_add_one_iff]
  unfold ofJsonText
  rw [Json.decodeText_compact_of_refuses (fun j => ofJson_refuses) hrecord]
  simp only [hdepth]
  split
  · have hread : ofJson (Json.record members) = (do
        let (s, unknown) ← Setting.putMembers table [] (members.map fun m => (some m.1, m.2)) {}
        return s.addUnknown unknown) :=
      if_pos (Json.isReadable_of_writable hrecord)
    rw [hread]
    cases Setting.putMembers table [] (members.map fun m => (some m.1, m.2)) {} <;> rfl
  · rfl

theorem Presents.pairwise (h : s.Presents members) : members.Pairwise fun m m' =>
    ∀ f ∈ table, ¬(f.hasName m.1 = true ∧ f.hasName m'.1 = true) := by
  refine List.pairwise_iff_getElem.mpr fun i j hi hj hij f hf => ?_
  exact List.pairwise_iff_getElem.mp (pairwise_of_countP_le_one (h.once f hf)) i j hi hj hij

/-- Members that present storable settings can be written, and are not nested too deep. -/
theorem Presents.writable (h : s.Presents members)
    (hstorable : ∀ f ∈ table, (f.slot.value s).Storable) :
    ∀ m ∈ members, m.2.Writable ∧ m.2.nesting < Json.Reader.depthLimit := by
  intro m hm
  by_cases hforeign : ∀ f ∈ table, f.hasName m.1 = false
  · exact h.others m hm hforeign
  · simp only [not_forall, Bool.not_eq_false] at hforeign
    obtain ⟨f, hf, hname⟩ := hforeign
    rw [h.values m hm f hf hname]
    refine ⟨Slot.writable_toJson (hstorable f hf), ?_⟩
    rw [Slot.nesting_toJson]
    decide

/-- The keys that belong to no setting, in their order. -/
def foreignKeys (members : List (String × Json)) : List String :=
  (members.map (·.1)).filter (isForeign table)

theorem mem_foreignKeys {key : String} : key ∈ foreignKeys members ↔
    (∃ m ∈ members, m.1 = key) ∧ ∀ f ∈ table, f.hasName key = false := by
  rw [foreignKeys, List.mem_filter, List.mem_map, isForeign_iff, List.findIdx?_eq_none_iff]

/-- The settings come out of the object as they are, and the other names beside them. -/
theorem Presents.putMembers_eq (h : s.Presents members) (hunknown : s.unknown = [])
    (hstorable : ∀ f ∈ table, (f.slot.value s).Storable) :
    Setting.putMembers table [] (members.map fun m => (some m.1, m.2)) {} =
      .ok (s, foreignKeys members) := by
  obtain ⟨out, hout, hrest, hread⟩ := lawful_table.exists_putMembers [] {}
    (fun m hm f hf hname => ⟨h.values m hm f hf hname, hstorable f hf⟩)
    h.pairwise (fun _ _ _ _ _ _ => List.not_mem_nil)
  rw [hout]
  have hvalues : table.map (·.slot.value out) = table.map (·.slot.value s) := by
    refine List.map_congr_left fun f hf => ?_
    rw [hread f hf]
    split
    · rfl
    · next hnone =>
      have hnot := List.any_eq_false.mp (Bool.not_eq_true _ ▸ hnone)
      exact (h.omitted f hf fun m hm => Bool.eq_false_iff.mpr (hnot m hm)).symm
  have hsame : out = s := lawful_table.ext out s hvalues (hrest.trans hunknown.symm)
  rw [hsame]
  rfl

theorem Presents.ofJsonText_eq (h : s.Presents members) (hunknown : s.unknown = [])
    (hstorable : ∀ f ∈ table, (f.slot.value s).Storable) :
    ofJsonText (Json.record members).compact = do
      (s.addUnknown (foreignKeys members)).checkUnknown
      return s.addUnknown (foreignKeys members) := by
  have hwritable := h.writable hstorable
  rw [ofJsonText_compact fun m hm => (hwritable m hm).1, if_pos fun m hm => (hwritable m hm).2,
    h.putMembers_eq hunknown hstorable]
  rfl

/-! ## Unknown names -/

theorem addUnknown_nil (hunknown : s.unknown = []) : s.addUnknown [] = s := by
  obtain ⟨flavor, evolution, boosting, unknown⟩ := s
  cases hunknown
  simp [addUnknown]

variable {keys : List String}

theorem unknown_addUnknown (hunknown : s.unknown = []) : (s.addUnknown keys).unknown =
    (keys.mergeSort fun a b => decide (a ≤ b)).eraseDups := by
  show ((s.unknown ++ keys).mergeSort _).eraseDups = _
  rw [hunknown, List.nil_append]

theorem mem_unknown_addUnknown (hunknown : s.unknown = []) {key : String} :
    key ∈ (s.addUnknown keys).unknown ↔ key ∈ keys := by
  rw [unknown_addUnknown hunknown, List.mem_eraseDups, (List.mergeSort_perm ..).mem_iff]

theorem pairwise_unknown_addUnknown (hunknown : s.unknown = []) :
    (s.addUnknown keys).unknown.Pairwise (· < ·) := by
  rw [unknown_addUnknown hunknown]
  exact pairwise_lt_eraseDups (pairwise_mergeSort_le keys)

/-- Validated settings whose counts are words are read back from any object that presents them,
whatever the names, the order, and what is left out as usual.  With names that belong to no setting
reading fails and reports just these, in ascending order.  An object that gives a setting more than
once, with any values, is no object of settings. -/
theorem presented_settings_read_back (hvalid : s.validate = .ok ()) (hwords : s.Words) :
    (∀ members, s.Presents members → (∀ m ∈ members, ∃ f ∈ table, f.hasName m.1 = true) →
      ofJsonText (Json.record members).compact = .ok s) ∧
    (∀ members, s.Presents members → (∃ m ∈ members, ∀ f ∈ table, f.hasName m.1 = false) →
      ∃ names : List String, names.Pairwise (· < ·) ∧
        (∀ key, key ∈ names ↔
          (∃ m ∈ members, m.1 = key) ∧ ∀ f ∈ table, f.hasName key = false) ∧
        ofJsonText (Json.record members).compact =
          .error (.configuration (.unknownOptions names))) ∧
    ∀ members : List (String × Json), (∀ m ∈ members, m.2.Writable) →
      (∃ f ∈ table, 2 ≤ members.countP fun m => f.hasName m.1) →
        ∃ fault, ofJsonText (Json.record members).compact = .error (.json fault) := by
  have hstorable := storable_of_validate hvalid hwords
  obtain ⟨hunknown, -⟩ := validate_eq_ok_iff.mp hvalid
  refine ⟨fun members h hknown => ?_, fun members h hforeign => ?_, fun members hw htwice => ?_⟩
  · have hnone : foreignKeys members = [] := by
      refine List.eq_nil_iff_forall_not_mem.mpr fun key hkey => ?_
      obtain ⟨⟨m, hm, rfl⟩, hall⟩ := mem_foreignKeys.mp hkey
      obtain ⟨f, hf, hname⟩ := hknown m hm
      rw [hall f hf] at hname
      contradiction
    have hcheck : s.checkUnknown = .ok () := if_pos (by rw [hunknown]; rfl)
    rw [h.ofJsonText_eq hunknown hstorable, hnone, addUnknown_nil hunknown, hcheck]
    rfl
  · obtain ⟨m, hm, hall⟩ := hforeign
    have hkey := mem_foreignKeys.mpr ⟨⟨m, hm, rfl⟩, hall⟩
    have hne := List.ne_nil_of_mem ((mem_unknown_addUnknown hunknown).mpr hkey)
    refine ⟨_, pairwise_unknown_addUnknown hunknown, fun key =>
      (mem_unknown_addUnknown hunknown).trans mem_foreignKeys, ?_⟩
    rw [h.ofJsonText_eq hunknown hstorable, checkUnknown, if_neg (by simpa using hne)]
    rfl
  · obtain ⟨f, hf, htwice⟩ := htwice
    rw [ofJsonText_compact hw]
    split
    · obtain ⟨fault, hfault⟩ := lawful_table.exists_fault_of_twice hf htwice [] {}
      exact ⟨fault, by rw [hfault]; rfl⟩
    · exact ⟨.malformed, rfl⟩

/-! ## A file with other names -/

/-- Squared errors, one operator, a seed, and a quick boosting. -/
def brisk : FitSettings where
  evolution := { lossMetric := "mse", functions := "add", seed := 7 }
  boosting := { learningRate := 0.5 }

theorem valid_brisk : brisk.validate = .ok () := by
  refine validate_eq_ok_iff.mpr ⟨rfl, ⟨.vanilla, ?_⟩, ⟨⟨.mse, ?_⟩, ⟨.mse, ?_⟩,
    ⟨_, EvolutionSettings.parse_sums⟩, ?_, ?_, ?_, ?_, ?_, ?_, ?_, ?_⟩, ⟨?_, ?_, ?_, ?_, ?_⟩⟩
  · show Flavor.parse "vanilla" = _
    cbv
  · show Metric.parse "mse" = _
    cbv
  · show Metric.parse "mse" = _
    cbv
  all_goals decide +kernel

theorem words_brisk : brisk.Words := by
  have hcounts : table.filterMap (fun f => match f.slot.value brisk with
      | .natural n => some n
      | _ => none) = [0, 3, 5, 1, 100, 30, 0, 7, 100, 0, 1] := by
    exact rfl
  intro f hf n hn
  have hmem : n ∈ [0, 3, 5, 1, 100, 30, 0, 7, 100, 0, 1] := by
    rw [← hcounts]
    exact List.mem_filterMap.mpr ⟨f, hf, by rw [hn]⟩
  exact (by decide : ∀ n ∈ [0, 3, 5, 1, 100, 30, 0, 7, 100, 0, 1], n < Decimal.wordLimit) n hmem

/-- What is not usual about these settings, under further names and in another order. -/
def briskMembers : List (String × Json) :=
  [("learningRate", .ofFloat 0.5), ("rng_seed", .ofNat 7), ("funcs", .text "add"),
    ("lossMetric", .text "mse")]

/-- Two names that nobody knows, one of them given twice. -/
def briskExtras : List (String × Json) :=
  [("zeal", .null), ("colour", .array []), ("zeal", .bool true)]

theorem presents_brisk (extra : List (String × Json))
    (hextra : ∀ m ∈ extra, (∀ f ∈ table, f.hasName m.1 = false) ∧
      m.2.Writable ∧ m.2.nesting < Json.Reader.depthLimit) :
    brisk.Presents (briskMembers ++ extra) where
  values := by
    intro m hm f hf hname
    rcases List.mem_append.mp hm with hm | hm
    · simp only [briskMembers, List.mem_cons, List.not_mem_nil, or_false] at hm
      rcases hm with rfl | rfl | rfl | rfl
      · rw [lawful_table.eq_of_hasName (i := 27) rfl (by decide) hf hname]
        rfl
      · rw [lawful_table.eq_of_hasName (i := 23) rfl (by decide) hf hname]
        rfl
      · rw [lawful_table.eq_of_hasName (i := 6) rfl (by decide) hf hname]
        rfl
      · rw [lawful_table.eq_of_hasName (i := 1) rfl (by decide) hf hname]
        rfl
    · rw [(hextra m hm).1 f hf] at hname
      contradiction
  once := by
    have hbase : ∀ f ∈ table, (briskMembers.countP fun m => f.hasName m.1) ≤ 1 := by
      decide +kernel
    intro f hf
    have hnone : (extra.countP fun m => f.hasName m.1) = 0 :=
      List.countP_eq_zero.mpr fun m hm => by simp [(hextra m hm).1 f hf]
    rw [List.countP_append, hnone]
    exact hbase f hf
  omitted := by
    have hvalues : table.map (·.slot.value brisk) =
        ((((table.map (·.slot.value {})).set 1 (.text "mse")).set 6 (.text "add")).set 23
          (.natural 7)).set 27 (.real 0.5) := by
      exact rfl
    intro f hf hnone
    obtain ⟨j, hj⟩ := List.getElem?_of_mem hf
    have hne (i : ℕ) (g : Setting FitSettings) (hg : table[i]? = some g)
        (hnamed : ∃ m ∈ briskMembers, g.hasName m.1 = true) : i ≠ j := by
      rintro rfl
      rw [hj] at hg
      cases hg
      obtain ⟨m, hm, hname⟩ := hnamed
      rw [hnone m (List.mem_append_left _ hm)] at hname
      contradiction
    have hvalue := congrArg (·[j]?) hvalues
    simp only [List.getElem?_set, hne 1 _ rfl (by decide), hne 6 _ rfl (by decide),
      hne 23 _ rfl (by decide), hne 27 _ rfl (by decide), if_false, List.getElem?_map, hj,
      Option.map_some] at hvalue
    exact Option.some.inj hvalue
  others := by
    intro m hm hforeign
    rcases List.mem_append.mp hm with hm | hm
    · have hknown : ∀ m ∈ briskMembers, ∃ f ∈ table, f.hasName m.1 = true := by decide +kernel
      obtain ⟨f, hf, hname⟩ := hknown m hm
      rw [hforeign f hf] at hname
      contradiction
    · exact (hextra m hm).2

/-- Two names that nobody knows are reported, one of them given twice, and a seed under two names is
refused although one of its values is none. -/
theorem presented_settings_read_back_brisk :
    ofJsonText (Json.record briskMembers).compact = .ok brisk ∧
    (∃ names : List String, names.Pairwise (· < ·) ∧ "zeal" ∈ names ∧ "colour" ∈ names ∧
      "funcs" ∉ names ∧
      ofJsonText (Json.record (briskMembers ++ briskExtras)).compact =
        .error (.configuration (.unknownOptions names))) ∧
    ∃ fault, ofJsonText (Json.record [("seed", .ofNat 1), ("random_state", .null)]).compact =
      .error (.json fault) := by
  obtain ⟨hread, hforeign, htwice⟩ := presented_settings_read_back valid_brisk words_brisk
  have hzeal : ∀ f ∈ table, f.hasName "zeal" = false := by decide +kernel
  have hcolour : ∀ f ∈ table, f.hasName "colour" = false := by decide +kernel
  refine ⟨?_, ?_, ?_⟩
  · have hknown : ∀ m ∈ briskMembers, ∃ f ∈ table, f.hasName m.1 = true := by decide +kernel
    have hplain := presents_brisk [] nofun
    rw [List.append_nil] at hplain
    exact hread _ hplain hknown
  · have hextra : ∀ m ∈ briskExtras, (∀ f ∈ table, f.hasName m.1 = false) ∧
        m.2.Writable ∧ m.2.nesting < Json.Reader.depthLimit := by
      simp only [briskExtras, List.forall_mem_cons]
      exact ⟨⟨hzeal, trivial, by decide⟩, ⟨hcolour, trivial, by decide⟩,
        ⟨hzeal, trivial, by decide⟩, nofun⟩
    obtain ⟨names, hsorted, hnames, herror⟩ :=
      hforeign _ (presents_brisk _ hextra) ⟨("zeal", .null), by simp [briskExtras], hzeal⟩
    refine ⟨names, hsorted, (hnames _).mpr ⟨⟨("zeal", .null), by simp [briskExtras]⟩, hzeal⟩,
      (hnames _).mpr ⟨⟨("colour", .array []), by simp [briskExtras]⟩, hcolour⟩,
      fun hfuncs => ?_, herror⟩
    have hnone := ((hnames _).mp hfuncs).2
    exact absurd hnone (by decide +kernel)
  · refine htwice _ ?_ ⟨_, List.mem_of_getElem? (show table[23]? = some _ from rfl), by decide⟩
    simp only [List.forall_mem_cons]
    exact ⟨(by decide : 1 < Decimal.wordLimit), trivial, nofun⟩

end FitSettings
end SymbolicRegression
