import Mathlib
import SymbolicRegression.Metric.RocCurve
import SymbolicRegression.Proofs.Numeric.Exact
import SymbolicRegression.Proofs.Numeric.Ordinal

/-!
The area under the curve counts pairs.

A sweep over sorted rows adds, for every group of equal predictions, what its positive rows win
over the negative rows below and beside them.  `Sweep.run_eq` is the invariant: after any number
of rows the area is the sum over all pairs of a positive and a negative row among them.  Such a
sum does not depend on the order of the rows, so that sorting leaves no trace, and in particular
it does not matter that the order which sorts tells minus zero from zero.
-/

namespace SymbolicRegression

open Comparable

/-- On these values the comparisons are those of the keys.  The ranking may tell values with the
same key apart. -/
structure Comparable.Keyed {β L : Type} [Comparable β] [LinearOrder L] (key : β → L)
    (ok : β → Prop) : Prop where
  same_iff {p q : β} (hp : ok p) (hq : ok q) : same p q = true ↔ key p = key q
  le_of_rank {p q : β} (hp : ok p) (hq : ok q) (h : rank p q ≠ .gt) : key p ≤ key q

/-- Doubles that are numbers have their ordinals for keys. -/
theorem Binary64.keyed : Keyed (fun x : Float => ordinal (view x)) (·.isNaN = false) where
  same_iff hp hq := beq_iff_ordinal (ne_nan_of_isNaN hp) (ne_nan_of_isNaN hq)
  le_of_rank hp hq h := ordinal_le_of_rank (ne_nan_of_isNaN hp) (ne_nan_of_isNaN hq) h

instance : Std.TransCmp (rank : Float → Float → Ordering) :=
  inferInstanceAs (Std.TransCmp Binary64.rank)

namespace Metric
namespace Roc

/-! ## The loop -/

section

variable {α β : Type} [Scalar α] [Comparable β] {rows : List (Row α β)}

/-- One pass of the loop over the rows that are left: those in front that are level with the
first one, itself included, are the next group. -/
def Sweep.pass : Sweep α × List (Row α β) → Sweep α × List (Row α β)
  | (s, []) => (s, [])
  | (s, r :: rest) => (s.add ((r :: rest).takeWhile (level r)), (r :: rest).dropWhile (level r))

/-- Every pass takes the first row at least, if it is level with itself. -/
theorem Sweep.iterate_pass (hself : ∀ r ∈ rows, level r r = true) (s : Sweep α) {passes : ℕ}
    (hpasses : rows.length ≤ passes) : Sweep.pass^[passes] (s, rows) = (s.run rows, []) := by
  induction passes generalizing s rows with
  | zero =>
    obtain rfl := List.eq_nil_of_length_eq_zero (Nat.le_zero.mp hpasses)
    rw [Sweep.run]
    rfl
  | succ passes ih =>
    rw [Function.iterate_succ_apply]
    cases rows with
    | nil => exact ih hself s (Nat.zero_le _)
    | cons r rest =>
      obtain ⟨hr, hrest⟩ := List.forall_mem_cons.mp hself
      have hsub : (rest.dropWhile (level r)).Sublist rest := List.dropWhile_sublist _
      have hlength := hsub.length_le
      rw [List.length_cons] at hpasses
      rw [Sweep.pass, List.takeWhile_cons_of_pos hr, List.dropWhile_cons_of_pos hr, Sweep.run]
      exact ih (fun q hq => hrest q (hsub.subset hq)) _ (by omega)

end

variable {K β L : Type} {as bs cs rows : List (Row K β)}

/-! ## Sorted rows -/

section

variable [Comparable β]

theorem sorted_pairwise [Std.TransCmp (rank : β → β → Ordering)] (rows : List (Row K β)) :
    (sorted rows).Pairwise fun p q => rank p.pred q.pred ≠ .gt :=
  pairwise_mergeSort_key (fun r : Row K β => r.pred) rows

variable [LinearOrder L] {key : β → L}

/-- Behind a group of the least rows all others are greater. -/
theorem lt_of_mem_dropWhile {r : Row K β}
    (hlevel : ∀ q ∈ rows, level r q = true ↔ key q.pred = key r.pred)
    (hsorted : rows.Pairwise fun p q => key p.pred ≤ key q.pred)
    (hle : ∀ q ∈ rows, key r.pred ≤ key q.pred) :
    ∀ q ∈ rows.dropWhile (level r), key r.pred < key q.pred := by
  induction rows with
  | nil => nofun
  | cons p rows ih =>
    obtain ⟨hp, hrows⟩ := List.forall_mem_cons.mp hlevel
    obtain ⟨hfirst, hrest⟩ := List.pairwise_cons.mp hsorted
    obtain ⟨hlep, hlerows⟩ := List.forall_mem_cons.mp hle
    by_cases hlev : level r p = true
    · rw [List.dropWhile_cons_of_pos hlev]
      exact ih hrows hrest hlerows
    · rw [List.dropWhile_cons_of_neg hlev]
      have hlt : key r.pred < key p.pred := lt_of_le_of_ne hlep fun h => hlev (hp.mpr h.symm)
      exact List.forall_mem_cons.mpr ⟨hlt, fun q hq => hlt.trans_le (hfirst q hq)⟩

end

/-! ## Sums over pairs -/

/-- The rows of one class. -/
def ofClass (positive : Bool) (rows : List (Row K β)) : List (Row K β) :=
  rows.filter (·.positive == positive)

theorem ofClass_append (positive : Bool) :
    ofClass positive (as ++ bs) = ofClass positive as ++ ofClass positive bs :=
  List.filter_append ..

variable [Field K] [LinearOrder L] {key : β → L}

/-- What a pair counts: one if the first row stands above the second, one half if they are
level. -/
def credit (key : β → L) (r q : Row K β) : K :=
  if key q.pred < key r.pred then 1 else if key r.pred = key q.pred then 1 / 2 else 0

/-- The weighted pairs of a positive row and a negative one. -/
def pairs (key : β → L) (as bs : List (Row K β)) : K :=
  ((ofClass true as).map fun r =>
    ((ofClass false bs).map fun q => r.weight * q.weight * credit key r q).sum).sum

theorem pairs_append_left : pairs key (as ++ bs) cs = pairs key as cs + pairs key bs cs := by
  rw [pairs, ofClass_append, List.map_append, List.sum_append]
  rfl

theorem pairs_append_right : pairs key as (bs ++ cs) = pairs key as bs + pairs key as cs := by
  simp only [pairs, ofClass_append, List.map_append, List.sum_append, List.sum_map_add]

theorem pairs_perm (h : as.Perm bs) : pairs key as as = pairs key bs bs := by
  have hclass (positive : Bool) : (ofClass positive as).Perm (ofClass positive bs) := h.filter _
  calc pairs key as as = pairs key as bs := by
        unfold pairs
        refine congrArg List.sum (List.map_congr_left fun r _ => ?_)
        exact ((hclass false).map _).sum_eq
    _ = pairs key bs bs := ((hclass true).map _).sum_eq

variable [LinearOrder K] [Elementary K]

theorem classWeight_eq (positive : Bool) :
    classWeight positive as = ((ofClass positive as).map (·.weight)).sum := by
  have hsum := Exact.foldl_add_eq (fun r : Row K β => r.weight) (ofClass positive as) 0
  rw [zero_add] at hsum
  rw [← hsum, ← Exact.ofNat_zero]
  rfl

theorem classWeight_append (positive : Bool) :
    (classWeight positive (as ++ bs) : K) = classWeight positive as + classWeight positive bs := by
  rw [classWeight_eq, classWeight_eq, classWeight_eq, ofClass_append, List.map_append,
    List.sum_append]

theorem classWeight_perm (h : as.Perm bs) (positive : Bool) :
    classWeight positive as = classWeight positive bs := by
  rw [classWeight_eq, classWeight_eq]
  exact ((h.filter _).map _).sum_eq

/-- If all pairs count the same, the classes count with their weights. -/
theorem pairs_eq_mul {c : K} (h : ∀ r ∈ as, ∀ q ∈ bs, credit key r q = c) :
    pairs key as bs = classWeight true as * classWeight false bs * c := by
  have hinner : ∀ r ∈ ofClass true as,
      ((ofClass false bs).map fun q => r.weight * q.weight * credit key r q).sum =
        r.weight * (classWeight false bs * c) := by
    intro r hr
    rw [classWeight_eq, ← List.sum_map_mul_right, ← List.sum_map_mul_left]
    refine congrArg List.sum (List.map_congr_left fun q hq => ?_)
    rw [h r (List.mem_of_mem_filter hr) q (List.mem_of_mem_filter hq), mul_assoc]
  unfold pairs
  rw [List.map_congr_left hinner, List.sum_map_mul_right, classWeight_eq true, mul_assoc]

/-! ## The sweep -/

variable [Comparable β] {ok : β → Prop} [IsStrictOrderedRing K]

theorem half_eq : (half : K) = 1 / 2 := by
  show ((5 : ℕ) : K) / 10 ^ 1 = 1 / 2
  norm_num

/-- What a sweep over sorted rows comes to. -/
theorem Sweep.run_eq (hkeyed : Keyed key ok) (s : Sweep K) (hok : ∀ r ∈ rows, ok r.pred)
    (hsorted : rows.Pairwise fun p q => key p.pred ≤ key q.pred) :
    s.run rows = {
      negative := s.negative + classWeight false rows
      positive := s.positive + classWeight true rows
      area := s.area + classWeight true rows * s.negative + pairs key rows rows } := by
  induction s, rows using Sweep.run.induct with
  | case1 s =>
    have hnone (positive : Bool) : (classWeight positive ([] : List (Row K β)) : K) = 0 :=
      Nat.cast_zero
    have hnopair : pairs key ([] : List (Row K β)) [] = 0 := rfl
    rw [Sweep.run, hnone, hnone, hnopair]
    simp
  | case2 s r rest ih =>
    obtain ⟨hfirst, hrest⟩ := List.pairwise_cons.mp hsorted
    obtain ⟨hokr, hokrest⟩ := List.forall_mem_cons.mp hok
    have hlevel : ∀ q ∈ rest, level r q = true ↔ key q.pred = key r.pred := fun q hq =>
      hkeyed.same_iff (hokrest q hq) hokr
    have hothers := lt_of_mem_dropWhile hlevel hrest hfirst
    have hsub : (rest.dropWhile (level r)).Sublist rest := List.dropWhile_sublist _
    rw [Sweep.run, ih (fun q hq => hokrest q (hsub.subset hq)) (hrest.sublist hsub)]
    have hgroup : ∀ q ∈ r :: rest.takeWhile (level r), key q.pred = key r.pred := by
      refine List.forall_mem_cons.mpr ⟨rfl, fun q hq => ?_⟩
      exact (hlevel q (List.takeWhile_subset _ hq)).mp (List.mem_takeWhile_imp hq)
    have hsplit : r :: rest = r :: rest.takeWhile (level r) ++ rest.dropWhile (level r) := by
      rw [List.cons_append, List.takeWhile_append_dropWhile]
    generalize r :: rest.takeWhile (level r) = group at hgroup hsplit ⊢
    generalize rest.dropWhile (level r) = others at hothers hsplit ⊢
    -- A group is level in itself, below all others, and above none of them.
    have hbeside : pairs key group group =
        classWeight true group * classWeight false group * (1 / 2) := by
      refine pairs_eq_mul fun p hp q hq => ?_
      rw [credit, hgroup p hp, hgroup q hq, if_neg (lt_irrefl _), if_pos rfl]
    have habove : pairs key others group =
        classWeight true others * classWeight false group * 1 := by
      refine pairs_eq_mul fun p hp q hq => ?_
      rw [credit, hgroup q hq, if_pos (hothers p hp)]
    have hbelow : pairs key group others =
        classWeight true group * classWeight false others * 0 := by
      refine pairs_eq_mul fun p hp q hq => ?_
      have hlt := hothers q hq
      rw [credit, hgroup p hp, if_neg hlt.not_gt, if_neg hlt.ne]
    rw [hsplit, classWeight_append, classWeight_append, pairs_append_left, pairs_append_right,
      pairs_append_right, hbeside, habove, hbelow]
    simp only [Sweep.add, half_eq, Sweep.mk.injEq]
    exact ⟨by ring, by ring, by ring⟩

theorem area_eq [Std.TransCmp (rank : β → β → Ordering)] (hkeyed : Keyed key ok)
    (hok : ∀ r ∈ rows, ok r.pred) :
    (area rows : K) = if classWeight true rows * classWeight false rows = (0 : K) then 0
      else pairs key rows rows / (classWeight true rows * classWeight false rows) := by
  have hperm : (sorted rows).Perm rows := List.mergeSort_perm ..
  have hoks : ∀ r ∈ sorted rows, ok r.pred := fun r hr => hok r (hperm.subset hr)
  have hsorted : (sorted rows).Pairwise fun p q => key p.pred ≤ key q.pred := by
    refine (sorted_pairwise rows).imp_of_mem fun hp hq h => ?_
    exact hkeyed.le_of_rank (hoks _ hp) (hoks _ hq) h
  unfold area
  rw [Sweep.run_eq hkeyed _ hoks hsorted, Exact.ratio_eq, classWeight_perm hperm,
    classWeight_perm hperm, pairs_perm hperm]
  simp only [Exact.ofNat_zero, zero_add, mul_zero]

/-! ## Rows by their index -/

section

variable {K : Type} [Field K] {n : ℕ}

theorem sum_filter_ofFn {ι : Type} (f : Fin n → ι) (p : ι → Bool) (g : ι → K) :
    (((List.ofFn f).filter p).map g).sum = ∑ i with p (f i) = true, g (f i) := by
  rw [Exact.sum_filter, List.map_ofFn, List.sum_ofFn, Finset.sum_filter]
  rfl

/-- The weight of a row, one where there are no weights. -/
def weightOf (w : Option (Fin n → K)) (i : Fin n) : K :=
  match w with
  | none => 1
  | some w => w i

/-- What a pair of predictions counts, that of the positive row first. -/
def worth (p q : Float) : K := if q < p then 1 else if p == q then 1 / 2 else 0

/-- The row with an index. -/
def rowOf (y pred : Fin n → Float) (w : Option (Fin n → K)) (i : Fin n) : Row K Float :=
  ⟨pred i, isPositive (y i), weightOf w i⟩

variable {y pred : Fin n → Float} {w : Option (Fin n → K)}

theorem positive_rowOf {i : Fin n} :
    ((rowOf y pred w i).positive == true) = true ↔ 0.5 < y i := by
  rw [beq_true]
  exact decide_eq_true_iff

theorem negative_rowOf {i : Fin n} :
    ((rowOf y pred w i).positive == false) = true ↔ ¬0.5 < y i := by
  rw [← @positive_rowOf K _ n y pred w]
  cases (rowOf y pred w i).positive <;> decide

theorem pairs_ofFn (hpred : ∀ i, (pred i).isNaN = false) :
    pairs (fun x : Float => Binary64.ordinal (Binary64.view x)) (List.ofFn (rowOf y pred w))
        (List.ofFn (rowOf y pred w)) =
      ∑ i with 0.5 < y i, ∑ j with ¬0.5 < y j,
        weightOf w i * weightOf w j * worth (pred i) (pred j) := by
  have hworth (i j : Fin n) :
      (credit (fun x => Binary64.ordinal (Binary64.view x)) (rowOf y pred w i)
        (rowOf y pred w j) : K) = worth (pred i) (pred j) := by
    have hi := Binary64.ne_nan_of_isNaN (hpred i)
    have hj := Binary64.ne_nan_of_isNaN (hpred j)
    exact if_congr (Binary64.lt_iff_ordinal hj hi).symm rfl
      (if_congr (Binary64.beq_iff_ordinal hi hj).symm rfl rfl)
  unfold pairs ofClass
  rw [sum_filter_ofFn]
  simp only [sum_filter_ofFn, positive_rowOf, negative_rowOf, hworth]
  rfl

variable [LinearOrder K] [Elementary K]

theorem rowWeights_ofFn : rowWeights n (w.map List.ofFn) = .ok (List.ofFn (weightOf w)) := by
  cases w with
  | none =>
    show Except.ok (List.replicate n (Scalar.ofNat 1 : K)) = _
    rw [Exact.ofNat_one, ← List.ofFn_const]
    rfl
  | some w =>
    have hlength : (List.ofFn w).length = n := List.length_ofFn
    show (if n ≤ (List.ofFn w).length then _ else _) = _
    rw [if_pos hlength.ge, List.take_of_length_le hlength.le]
    rfl

theorem rows_ofFn : Roc.rows (List.ofFn y) (List.ofFn pred) (w.map List.ofFn) =
    .ok (List.ofFn (rowOf y pred w)) := by
  unfold Roc.rows
  rw [List.length_ofFn, List.length_ofFn, if_neg (lt_irrefl n), rowWeights_ofFn]
  refine congrArg Except.ok (List.ext_getElem (by simp) fun i hi hi' => ?_)
  simp [rowOf]

theorem classWeight_true_ofFn : (classWeight true (List.ofFn (rowOf y pred w)) : K) =
    ∑ i with 0.5 < y i, weightOf w i := by
  rw [classWeight_eq, ofClass, sum_filter_ofFn]
  simp only [positive_rowOf]
  rfl

theorem classWeight_false_ofFn : (classWeight false (List.ofFn (rowOf y pred w)) : K) =
    ∑ i with ¬0.5 < y i, weightOf w i := by
  rw [classWeight_eq, ofClass, sum_filter_ofFn]
  simp only [negative_rowOf]
  rfl

end

/-- Without a prediction that is no number, the score is the weight of the pairs of a positive and a
negative row in the right order, level ones counting for one half, over the product of the weights
of the classes, and zero if that product is; and the loop that computes it has taken all rows after
at most as many passes as there are rows.  With one, the score is undefined, and no loop is
entered. -/
theorem score_counts_pairs {K : Type} [Field K] [LinearOrder K] [IsStrictOrderedRing K]
    [Elementary K] {n : ℕ} (y pred : Fin n → Float) (w : Option (Fin n → K)) :
    ((∃ i, (pred i).isNaN = true) →
      Roc.score (List.ofFn y) (List.ofFn pred) (w.map List.ofFn) = .ok Elementary.undefined) ∧
    ((∀ i, (pred i).isNaN = false) →
      Roc.score (List.ofFn y) (List.ofFn pred) (w.map List.ofFn) = .ok (
        let total := (∑ i with 0.5 < y i, weightOf w i) * ∑ j with ¬0.5 < y j, weightOf w j
        if total = 0 then 0
        else (∑ i with 0.5 < y i, ∑ j with ¬0.5 < y j,
          weightOf w i * weightOf w j * worth (pred i) (pred j)) / total) ∧
      ∃ rows, Roc.rows (List.ofFn y) (List.ofFn pred) (w.map List.ofFn) = .ok rows ∧
        ∀ (s : Sweep K) (passes : ℕ), n ≤ passes →
          Sweep.pass^[passes] (s, sorted rows) = (s.run (sorted rows), [])) := by
  refine ⟨fun ⟨i, hi⟩ => ?_, fun hpred => ⟨?_, _, rows_ofFn, fun s passes hpasses => ?_⟩⟩
  · have hany : (List.ofFn pred).any isNaN = true :=
      List.any_eq_true.mpr ⟨pred i, List.mem_ofFn.mpr ⟨i, rfl⟩, hi⟩
    unfold Roc.score
    rw [if_pos hany]
    rfl
  · have hok : ∀ r ∈ List.ofFn (rowOf y pred w), r.pred.isNaN = false := by
      intro r hr
      obtain ⟨i, rfl⟩ := List.mem_ofFn.mp hr
      exact hpred i
    have hnone : ¬(List.ofFn pred).any isNaN = true := by
      rw [List.any_eq_true]
      intro ⟨p, hp, hnan⟩
      obtain ⟨i, rfl⟩ := List.mem_ofFn.mp hp
      have hnot : isNaN (pred i) = false := hpred i
      rw [hnot] at hnan
      contradiction
    unfold Roc.score
    rw [if_neg hnone, rows_ofFn]
    refine congrArg Except.ok ?_
    rw [area_eq Binary64.keyed hok, classWeight_true_ofFn, classWeight_false_ofFn,
      pairs_ofFn hpred]
  · have hperm : (sorted (List.ofFn (rowOf y pred w))).Perm (List.ofFn (rowOf y pred w)) :=
      List.mergeSort_perm ..
    refine Sweep.iterate_pass (fun r hr => ?_) s ?_
    · obtain ⟨i, rfl⟩ := List.mem_ofFn.mp (hperm.subset hr)
      exact (Binary64.keyed.same_iff (hpred i) (hpred i)).mpr rfl
    · rw [hperm.length_eq, List.length_ofFn]
      exact hpasses

/-- Functions of rationals that no score here asks for. -/
@[reducible]
def unasked : Elementary ℚ := ⟨0, id, id, id⟩

/-- A positive row is level with a negative one across the two zeros, and infinity stands above
both negative rows. -/
theorem score_counts_pairs_zeros :
    letI := unasked
    (∀ i, (![0.0, -0.0, Binary64.infinity, 0.25] i : Float).isNaN = false) ∧
      Roc.score (List.ofFn ![1.0, 0.0, 1.0, 0.0]) (List.ofFn ![0.0, -0.0, Binary64.infinity, 0.25])
        ((some ![1, 2, 3, 1 / 2]).map List.ofFn) = .ok (17 / 20 : ℚ) := by
  let := unasked
  have hpred : ∀ i, (![0.0, -0.0, Binary64.infinity, 0.25] i : Float).isNaN = false := by
    decide +kernel
  refine ⟨hpred, ?_⟩
  rw [((score_counts_pairs ![1.0, 0.0, 1.0, 0.0] _ (some ![1, 2, 3, 1 / 2])).2 hpred).1]
  refine congrArg Except.ok ?_
  decide +kernel

end Roc
end Metric
end SymbolicRegression
