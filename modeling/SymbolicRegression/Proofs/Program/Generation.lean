import SymbolicRegression.Proofs.Program.Paths
import SymbolicRegression.Proofs.Random.Draws
import SymbolicRegression.Program.Generator
import SymbolicRegression.Random.Scripted

/-!
Random programs keep to their generator.

They are built from what it offers, and their leaves lie between two depths: a tree grows by one
level for each level of its target, and a branch is cut short only where the least height has
been reached.  The height is the depth of a leaf and keeps to the same bounds.

A program can be drawn whenever a leaf can.  The probabilities and lists that are drawn from allow
it, so that only a constant may be missing, between bounds that are too far apart.
-/

namespace SymbolicRegression

namespace Generator

/-- What the generator builds programs from. -/
def vocabulary (g : Generator) : Program.Vocabulary where
  feature i := i < g.featureCount
  constant c := g.constMin ≤ c ∧ c ≤ g.constMax
  operator op := op ∈ g.functions.ops

/-- What it builds them from when its bounds of constants need not be in order: constants keep to
the bounds if these are. -/
def material (g : Generator) : Program.Vocabulary where
  feature i := i < g.featureCount
  constant c := g.constMin ≤ g.constMax → g.constMin ≤ c ∧ c ≤ g.constMax
  operator op := op ∈ g.functions.ops

/-- A program of the generator's vocabulary with a height between two bounds. -/
structure Makes (g : Generator) (lo hi : ℕ) (p : Program) : Prop where
  built : p.BuiltFrom g.vocabulary
  low : lo ≤ p.height
  high : p.height ≤ hi

/-- A program of the generator's material with all leaves between two depths. -/
structure Grows (g : Generator) (lo hi : ℕ) (p : Program) : Prop where
  built : p.BuiltFrom g.material
  leaves : p.LeavesBetween lo hi

variable {g : Generator} {lo hi : ℕ} {p : Program}

theorem material_within (hconst : g.constMin ≤ g.constMax) : g.material.Within g.vocabulary where
  feature _ h := h
  constant _ h := h hconst
  operator _ h := h

theorem Grows.makes (h : g.Grows lo hi p) (hconst : g.constMin ≤ g.constMax) :
    g.Makes lo hi p where
  built := h.built.mono (material_within hconst)
  low := (h.leaves.height h.built).1
  high := (h.leaves.height h.built).2

theorem Grows.mono {lo' hi' : ℕ} (h : g.Grows lo hi p) (hlo : lo' ≤ lo) (hhi : hi ≤ hi') :
    g.Grows lo' hi' p :=
  ⟨h.built, h.leaves.mono hlo hhi⟩

theorem grows_leaf (hbuilt : p.BuiltFrom g.material) (hleaf : p.isLeaf = true) : g.Grows 0 0 p :=
  ⟨hbuilt, Program.leavesBetween_leaf hleaf⟩

/-- A node over operands is one level higher than these. -/
theorem grows_call {op : Operator} {ps : List Program} (hop : op ∈ g.functions.ops)
    (hlen : ps.length = op.arity) (hps : ∀ p ∈ ps, g.Grows lo hi p) :
    g.Grows (lo + 1) (hi + 1) (.call op ps) where
  built := ⟨hop, hlen, Program.allBuiltFrom_iff.mpr fun p hp => (hps p hp).built⟩
  leaves := Program.leavesBetween_call fun p hp => (hps p hp).leaves

/-! ## What is drawn -/

variable {σ : Type} [RandomSource σ]

theorem ensures_drawConstant : Ensures (g.drawConstant : Draw σ Float) g.material.constant := by
  unfold drawConstant
  split
  · exact .of_pure fun hconst => ⟨Binary64.le_refl (Binary64.ne_nan_of_le hconst), hconst⟩
  · exact (Draw.ensures_real _ _).mono fun _ hc _ => hc

theorem ensures_leaf : Ensures (g.leaf : Draw σ Program) fun p =>
    p.isLeaf = true ∧ g.Grows 0 0 p := by
  have hconstant : Ensures (do return .constant (← g.drawConstant) : Draw σ Program) fun p =>
      p.isLeaf = true ∧ g.Grows 0 0 p :=
    ensures_drawConstant.bind fun _ hc => .of_pure ⟨rfl, grows_leaf hc rfl⟩
  unfold leaf
  split
  · exact hconstant
  · refine Ensures.bind' fun isConstant => ?_
    split
    · exact hconstant
    · exact (Draw.ensures_below _).bind fun _ hi => .of_pure ⟨rfl, grows_leaf hi rfl⟩

/-- A node over operands that are all drawn in one way. -/
theorem ensures_node {d : Draw σ Program} (hd : Ensures d (g.Grows lo hi)) :
    Ensures (do
      let op ← g.functions.draw
      return .call op (← Draw.times op.arity d) : Draw σ Program) (g.Grows (lo + 1) (hi + 1)) :=
  (Draw.ensures_choose _).bind fun _ hop => (Draw.ensures_times hd _).bind fun _ hps =>
    .of_pure (grows_call hop hps.1 hps.2)

theorem ensures_full (height : ℕ) :
    Ensures (g.full height : Draw σ Program) (g.Grows height height) := by
  induction height with
  | zero => exact ensures_leaf.mono fun _ hp => hp.2
  | succ height ih => exact ensures_node ih

theorem ensures_grow (required height : ℕ) (h : required ≤ height) :
    Ensures (g.grow required height : Draw σ Program) (g.Grows required height) := by
  -- One level down both bounds are one less, until nothing is required any more.
  induction height generalizing required with
  | zero =>
    obtain rfl : required = 0 := by omega
    rw [grow]
    exact ensures_leaf.mono fun _ hp => hp.2
  | succ height ih =>
    cases required with
    | zero =>
      rw [grow]
      refine Ensures.bind' fun ends => ?_
      split
      · exact ensures_leaf.mono fun p hp => hp.2.mono le_rfl (Nat.zero_le _)
      · exact (ensures_node (ih 0 (Nat.zero_le _))).mono fun p hp => hp.mono (Nat.zero_le _) le_rfl
    | succ required =>
      rw [grow]
      exact ensures_node (ih required (by omega))

/-- A full tree has all leaves at its height, the others may have them from the required one on. -/
theorem ensures_tree {required height : ℕ} (h : required ≤ height) (isFull : Bool) :
    Ensures (g.tree required height isFull : Draw σ Program)
      (g.Grows (if isFull then height else required) height) := by
  unfold tree
  cases isFull with
  | true => exact ensures_full height
  | false => exact ensures_grow required height h

/-! ## Plans -/

/-- A tree from the stream `s` whose first two draws choose a height between two bounds and
whether all leaves lie there; otherwise they lie from the lower bound to that height. -/
structure Planned (g : Generator) (lo hi : ℕ) (s : σ) (p : Program) : Prop where
  plan : ∃ height s₁ isFull s₂, (Draw.range lo hi).run s = .ok (height, s₁) ∧
    (Draw.bool g.pFull).run s₁ = .ok (isFull, s₂) ∧
    p.LeavesBetween (if isFull then height else lo) height
  grows : g.Grows lo hi p
  height : lo ≤ p.height ∧ p.height ≤ hi

/-- Drawing a height and the way to reach it, then the tree. -/
theorem planned_of_run {s t : σ}
    (hrange : Ensures (Draw.range lo hi : Draw σ ℕ) fun n => lo ≤ n ∧ n ≤ hi)
    (h : (do
      let height ← Draw.range lo hi
      g.tree (min lo height) height (← Draw.bool g.pFull) : Draw σ Program).run s = .ok (p, t)) :
    g.Planned lo hi s p := by
  obtain ⟨height, s₁, hheight, h⟩ := Draw.run_bind_eq_ok.mp h
  obtain ⟨isFull, s₂, hfull, h⟩ := Draw.run_bind_eq_ok.mp h
  obtain ⟨hlow, hhigh⟩ := hrange height ⟨s, s₁, hheight⟩
  rw [Nat.min_eq_left hlow] at h
  have htree := ensures_tree hlow isFull p ⟨s₂, t, h⟩
  have hgrows : g.Grows lo hi p := htree.mono (by split <;> omega) hhigh
  exact ⟨⟨height, s₁, isFull, s₂, hheight, hfull, htree.leaves⟩, hgrows,
    hgrows.leaves.height hgrows.built⟩

theorem planned_of_run_draw (hword : max g.maxHeight g.minHeight < 2 ^ 64) {s s' : σ}
    (h : g.draw.run s = .ok (p, s')) :
    g.Planned g.minHeight (max g.maxHeight g.minHeight) s p :=
  planned_of_run (Draw.ensures_range hword) h

theorem planned_of_run_subtree {room : ℕ} {s s' : σ} (h : (g.subtree room).run s = .ok (p, s')) :
    g.Planned 0 room s p := by
  refine planned_of_run (t := s') (Draw.ensures_between Draw.ensures_natWord64 (.inl rfl)) ?_
  simp only [Nat.zero_min]
  exact h

theorem ensures_draw (hheight : g.minHeight ≤ g.maxHeight) (hword : g.maxHeight < 2 ^ 64)
    (hconst : g.constMin ≤ g.constMax) :
    Ensures (g.draw : Draw σ Program) (g.Makes g.minHeight g.maxHeight) := by
  rintro p ⟨s, s', h⟩
  have hmax : max g.maxHeight g.minHeight = g.maxHeight := Nat.max_eq_left hheight
  have hplanned := planned_of_run_draw (by rw [hmax]; exact hword) h
  rw [hmax] at hplanned
  exact hplanned.grows.makes hconst

theorem ensures_subtree (hconst : g.constMin ≤ g.constMax) (room : ℕ) :
    Ensures (g.subtree room : Draw σ Program) fun p => p.BuiltFrom g.vocabulary := by
  rintro p ⟨s, s', h⟩
  exact (planned_of_run_subtree h).grows.built.mono (material_within hconst)

/-! ## Draws that end -/

variable {Q : Failure → Prop}

/-- The probabilities of a generator. -/
structure Probable (g : Generator) : Prop where
  const : 0.0 ≤ g.pConst ∧ g.pConst ≤ 1.0
  full : 0.0 ≤ g.pFull ∧ g.pFull ≤ 1.0
  leaf : 0.0 ≤ g.pLeaf ∧ g.pLeaf ≤ 1.0

/-- A constant can be drawn: there is only one, or the bounds lie a finite number apart. -/
def Drawable (g : Generator) : Prop :=
  g.constMax ≤ g.constMin ∨ (g.constMax - g.constMin).isFinite = true

theorem confines_drawConstant :
    Confines (g.drawConstant : Draw σ Float)
      (· = .misuse (.badInterval g.constMin g.constMax)) := by
  unfold drawConstant
  split
  · exact .of_pure
  · exact Draw.confines_real_badInterval _ _

theorem confines_drawConstant_of_drawable (h : g.Drawable) :
    Confines (g.drawConstant : Draw σ Float) Q := by
  unfold drawConstant
  split
  · exact .of_pure
  · next hle =>
    have hwidth := h.resolve_left hle
    obtain ⟨hmax, hmin⟩ := Binary64.isFinite_of_sub hwidth
    exact Draw.confines_real (Binary64.lt_of_not_le hmax hmin hle) hwidth

theorem confines_leaf (hp : 0.0 ≤ g.pConst ∧ g.pConst ≤ 1.0)
    (hconst : Confines (g.drawConstant : Draw σ Float) Q) :
    Confines (g.leaf : Draw σ Program) Q := by
  unfold leaf
  split
  · exact hconst.bind' fun _ => .of_pure
  · next hn =>
    refine (Draw.confines_bool hp.1 hp.2).bind' fun isConstant => ?_
    split
    · exact hconst.bind' fun _ => .of_pure
    · exact (Draw.confines_below (Nat.pos_of_ne_zero hn)).bind' fun _ => .of_pure

theorem total_leaf (hp : 0.0 ≤ g.pConst ∧ g.pConst ≤ 1.0) (h : g.Drawable) :
    Draw.Total (g.leaf : Draw σ Program) :=
  Draw.total_iff.mpr (confines_leaf hp (confines_drawConstant_of_drawable h))

theorem confines_operator (fs : FunctionSet) : Confines (fs.draw : Draw σ Operator) Q :=
  Draw.confines_choose fs.ops_ne_nil

theorem confines_node {d : Draw σ Program} (hd : Confines d Q) :
    Confines (do
      let op ← g.functions.draw
      return .call op (← Draw.times op.arity d) : Draw σ Program) Q :=
  (confines_operator g.functions).bind' fun op => (Confines.of_times hd op.arity).bind' fun _ =>
    .of_pure

/-! A tree asks for nothing but leaves, operators and whether a branch ends. -/

section

variable (hp : g.Probable) (hleaf : Confines (g.leaf : Draw σ Program) Q)

include hleaf in
theorem confines_full (height : ℕ) : Confines (g.full height : Draw σ Program) Q := by
  induction height with
  | zero => exact hleaf
  | succ height ih => exact confines_node ih

include hp hleaf

theorem confines_grow (required height : ℕ) :
    Confines (g.grow required height : Draw σ Program) Q := by
  induction height generalizing required with
  | zero =>
    rw [grow]
    exact hleaf
  | succ height ih =>
    cases required with
    | zero =>
      rw [grow]
      refine (Draw.confines_bool hp.leaf.1 hp.leaf.2).bind' fun ends => ?_
      split
      · exact hleaf
      · exact confines_node (ih 0)
    | succ required =>
      rw [grow]
      exact confines_node (ih required)

theorem confines_tree (required height : ℕ) (isFull : Bool) :
    Confines (g.tree required height isFull : Draw σ Program) Q := by
  unfold tree
  split
  · exact confines_full hleaf height
  · exact confines_grow hp hleaf required height

theorem confines_draw : Confines (g.draw : Draw σ Program) Q :=
  (Draw.confines_range (Nat.le_max_right _ _)).bind' fun _ =>
    (Draw.confines_bool hp.full.1 hp.full.2).bind' fun _ => confines_tree hp hleaf _ _ _

theorem confines_subtree (room : ℕ) : Confines (g.subtree room : Draw σ Program) Q :=
  (Draw.confines_range (Nat.zero_le _)).bind' fun _ =>
    (Draw.confines_bool hp.full.1 hp.full.2).bind' fun _ => confines_tree hp hleaf _ _ _

end

/-! ## The band of the leaves -/

/-- On every stream a random program has all leaves between the least and the greatest height, a
full one all of them at the height that was drawn, and a random subtree has none below its room;
all are built from the generator's material.  If leaves can be drawn then programs can, whatever
the heights, and leaves can be drawn if constants can. -/
theorem leaves_keep_to_band (hp : g.Probable) (hword : max g.maxHeight g.minHeight < 2 ^ 64) :
    (∀ (s s' : σ) (p : Program), g.draw.run s = .ok (p, s') →
      g.Planned g.minHeight (max g.maxHeight g.minHeight) s p) ∧
    (∀ (room : ℕ) (s s' : σ) (p : Program), (g.subtree room).run s = .ok (p, s') →
      g.Planned 0 room s p) ∧
    (∀ height : ℕ, Ensures (g.full height : Draw σ Program) (g.Grows height height)) ∧
    (Draw.Total (g.leaf : Draw σ Program) → Draw.Total (g.draw : Draw σ Program) ∧
      (∀ room : ℕ, Draw.Total (g.subtree room : Draw σ Program)) ∧
      ∀ height : ℕ, Draw.Total (g.full height : Draw σ Program)) ∧
    (g.Drawable → Draw.Total (g.leaf : Draw σ Program)) := by
  refine ⟨fun s s' p => planned_of_run_draw hword, fun room s s' p => planned_of_run_subtree,
    ensures_full, fun htotal => ?_, total_leaf hp.const⟩
  have hleaf := Draw.total_iff.mp htotal
  exact ⟨Draw.total_iff.mpr (confines_draw hp hleaf),
    fun room => Draw.total_iff.mpr (confines_subtree hp hleaf room),
    fun height => Draw.total_iff.mpr (confines_full hleaf height)⟩

/-- Sums and cosines of two features and of constants between two bounds. -/
def ofBounds (lo hi : Float) : Generator :=
  { ofFunctions ⟨[.add, .cos], List.cons_ne_nil _ _⟩ 2 with
    constMin := lo, constMax := hi, minHeight := 2, maxHeight := 4 }

theorem probable_ofBounds (lo hi : Float) : (ofBounds lo hi).Probable where
  const := (by decide +kernel : (0.0 : Float) ≤ 0.5 ∧ (0.5 : Float) ≤ 1.0)
  full := (by decide +kernel : (0.0 : Float) ≤ 0.5 ∧ (0.5 : Float) ≤ 1.0)
  leaf := (by decide +kernel : (0.0 : Float) ≤ 0.3 ∧ (0.3 : Float) ≤ 1.0)

theorem leaves_keep_to_band_ofBounds : (ofBounds (-1.0) 1.0).Probable ∧ (4 : ℕ) < 2 ^ 64 ∧
    (ofBounds (-1.0) 1.0).Drawable ∧ ∃ p s',
      (ofBounds (-1.0) 1.0).draw.run (⟨[3, 7], 1⟩ : Scripted.Stream) = .ok (p, s') ∧
      (ofBounds (-1.0) 1.0).Planned 2 4 (⟨[3, 7], 1⟩ : Scripted.Stream) p := by
  have hdrawable : (ofBounds (-1.0) 1.0).Drawable := .inr (by decide +kernel)
  obtain ⟨hdraw, -, -, hends, hleaf⟩ := leaves_keep_to_band (σ := Scripted.Stream)
    (probable_ofBounds (-1.0) 1.0) (by decide)
  obtain ⟨⟨p, s'⟩, hrun⟩ := (hends (hleaf hdrawable)).1 ⟨[3, 7], 1⟩
  exact ⟨probable_ofBounds _ _, by decide, hdrawable, p, s', hrun, hdraw _ s' p hrun⟩

/-- With an end that is infinite there is no constant to draw. -/
def unbounded : Generator :=
  { ofBounds 1.7976931348623157e308 (1.0 / 0.0) with pConst := 1.0, minHeight := 0, maxHeight := 0 }

theorem draw_of_unbounded_refused : unbounded.Probable ∧
    ¬Draw.Total (unbounded.draw : Draw Scripted.Stream Program) :=
  ⟨⟨by decide +kernel, by decide +kernel, by decide +kernel⟩,
    Draw.not_total_of_run ⟨[0, 0, 0, 7], 1⟩ (by decide +kernel)⟩

end Generator
end SymbolicRegression
