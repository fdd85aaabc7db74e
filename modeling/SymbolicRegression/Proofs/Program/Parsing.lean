import SymbolicRegression.Proofs.Program.Grammar
import SymbolicRegression.Proofs.Program.Vocabulary

/-!
The reader of program texts accepts exactly the grammar.

A reader takes a front of a text that the grammar derives, or it stops with a fault at some
end of the text.  `Outcome` says both in one, so that soundness and the places of the faults
come from one induction over the length of the text.  Completeness goes by induction over
the derivation, with any text behind it at which a word ends.
-/

namespace SymbolicRegression
namespace Program
namespace Grammar

open SymbolicRegression.Program.Parser Text

/-! ## Readers without their proofs -/

variable {α β : Type}

/-- A result without the proof that the rest of the text is shorter. -/
def bare {P : List Char → Prop} : Except Stop (α × { r : List Char // P r }) →
    Except Stop (α × List Char)
  | .ok (a, ⟨r, _⟩) => .ok (a, r)
  | .error stop => .error stop

def bareExpect (c : Char) (s : List Char) : Except Stop (Unit × List Char) :=
  match expect c s with
  | .ok ⟨r, _⟩ => .ok ((), r)
  | .error stop => .error stop

def bareNode (s : List Char) : Except Stop (Program × List Char) := bare (node s)

def bareOperands (n : ℕ) (first : Bool) (s : List Char) : Except Stop (List Program × List Char) :=
  bare (operands n first s)

theorem bareExpect_eq (c : Char) (s : List Char) :
    bareExpect c s = match dropBlanks s with
      | d :: rest => if d = c then .ok ((), rest) else .error ⟨d :: rest, ParseFault.expectedChar c⟩
      | [] => .error ⟨[], ParseFault.expectedChar c⟩ := by
  unfold bareExpect
  split
  · next r hr heq =>
    unfold expect at heq
    split at heq
    · next d rest h =>
      split at heq
      · next hd =>
        cases heq
        simp only [h, if_pos hd]
      · cases heq
    · cases heq
  · next stop heq =>
    unfold expect at heq
    split at heq
    · next d rest h =>
      split at heq
      · cases heq
      · next hd =>
        cases heq
        simp only [h, if_neg hd]
    · next h =>
      cases heq
      simp only [h]

theorem bareNode_eq (s : List Char) :
    bareNode s =
      if token (dropBlanks s) = [] then .error ⟨dropBlanks s, ParseFault.expectedNode⟩
      else match Token.ofChars (token (dropBlanks s)) with
        | .feature i => .ok (.feature i, afterToken (dropBlanks s))
        | .number x => .ok (.constant x, afterToken (dropBlanks s))
        | .unknown =>
          .error ⟨dropBlanks s, ParseFault.unknownToken (String.ofList (token (dropBlanks s)))⟩
        | .operator op => do
          let (_, opened) ← bareExpect '(' (afterToken (dropBlanks s))
          let (ps, rest) ← bareOperands op.arity true opened
          let (_, closed) ← bareExpect ')' rest
          return (.call op ps, closed) := by
  rw [bareNode, node]
  simp only
  split
  · rfl
  · cases Token.ofChars (token (dropBlanks s)) with
    | feature i => rfl
    | number x => rfl
    | unknown => rfl
    | operator op =>
      unfold bareExpect bareOperands
      rcases expect '(' (afterToken (dropBlanks s)) with stop | ⟨opened, ho⟩
      · rfl
      · simp only [bind, Except.bind]
        rcases operands op.arity true opened with stop | ⟨ps, rest, hrest⟩
        · rfl
        · simp only [bare]
          rcases expect ')' rest with stop | ⟨closed, hc⟩
          · rfl
          · rfl

theorem bareOperands_zero (first : Bool) (s : List Char) :
    bareOperands 0 first s = .ok ([], s) := by
  rw [bareOperands, operands]
  rfl

theorem bareOperands_first (n : ℕ) (s : List Char) :
    bareOperands (n + 1) true s = do
      let (p, rest) ← bareNode s
      let (ps, left) ← bareOperands n false rest
      return (p :: ps, left) := by
  rw [bareOperands, operands, if_pos rfl]
  unfold bareNode bareOperands
  simp only [bind, Except.bind, pure, Except.pure]
  rcases node s with stop | ⟨p, rest, hrest⟩
  · rfl
  · simp only [bare]
    rcases operands n false rest with stop | ⟨ps, left, hleft⟩
    · rfl
    · rfl

theorem bareOperands_next (n : ℕ) (s : List Char) :
    bareOperands (n + 1) false s =
      bareExpect ',' s >>= fun (_, start) => bareOperands (n + 1) true start := by
  simp only [bareOperands_first]
  rw [bareOperands, operands, if_neg Bool.false_ne_true]
  unfold bareExpect bareNode bareOperands
  simp only [bind, Except.bind, pure, Except.pure]
  rcases expect ',' s with stop | ⟨start, hs⟩
  · rfl
  · simp only
    rcases node start with stop | ⟨p, rest, hrest⟩
    · rfl
    · simp only [bare]
      rcases operands n false rest with stop | ⟨ps, left, hleft⟩
      · rfl
      · rfl

/-! ## Soundness -/

/-- The faults a reader stops with, each at the place that it names. -/
inductive Fault : Stop → Prop where
  | node (rest : List Char) : Fault ⟨rest, ParseFault.expectedNode⟩
  | mark (rest : List Char) {c : Char} (hc : c ∈ ['(', ',', ')']) :
      Fault ⟨rest, ParseFault.expectedChar c⟩
  | word (rest : List Char) : Fault ⟨rest, ParseFault.unknownToken (String.ofList (token rest))⟩

/-- A reader takes a front `t` of the text with `G t a`, or stops at an end of it. -/
inductive Outcome (s : List Char) (G : List Char → α → Prop) :
    Except Stop (α × List Char) → Prop where
  | ok {t rest : List Char} {a : α} (hs : s = t ++ rest) (h : G t a) : Outcome s G (.ok (a, rest))
  | error {front : List Char} {stop : Stop} (hs : s = front ++ stop.rest) (h : Fault stop) :
      Outcome s G (.error stop)

variable {s t rest : List Char} {G : List Char → α → Prop} {H : List Char → β → Prop}

/-- What is read behind a front belongs to the whole text. -/
theorem Outcome.behind {G' : List Char → α → Prop} {x : Except Stop (α × List Char)}
    (h : Outcome rest G x) (hs : s = t ++ rest) (hG : ∀ u a, G u a → G' (t ++ u) a) :
    Outcome s G' x := by
  cases h with
  | ok hr hg => exact .ok (by rw [hs, hr, List.append_assoc]) (hG _ _ hg)
  | error hr hf => exact .error (by rw [hs, hr, ← List.append_assoc]) hf

theorem Outcome.bind {x : Except Stop (α × List Char)}
    {f : α × List Char → Except Stop (β × List Char)} (hx : Outcome s G x)
    (hf : ∀ t rest a, s = t ++ rest → G t a → Outcome s H (f (a, rest))) :
    Outcome s H (x >>= f) := by
  cases hx with
  | ok hs h => exact hf _ _ _ hs h
  | error hs h => exact .error hs h

theorem outcome_expect {c : Char} (hc : c ∈ ['(', ',', ')']) (s : List Char) :
    Outcome s (fun t _ => ∃ b, Blanks b ∧ t = b ++ [c]) (bareExpect c s) := by
  obtain ⟨b, hb, hs⟩ := exists_blanks s
  rw [bareExpect_eq]
  split
  · next d rest h =>
    rw [h] at hs
    split
    · next hd =>
      subst hd
      exact .ok (by rw [hs, List.append_assoc]; rfl) ⟨b, hb, rfl⟩
    · exact .error hs (.mark _ hc)
  · next h =>
    rw [h] at hs
    exact .error hs (.mark _ hc)

/-- The operands of an operator, if nodes are read soundly from here on. -/
theorem outcome_operands (n : ℕ) (s : List Char)
    (hnode : ∀ s' : List Char, s'.length ≤ s.length → Outcome s' Node (bareNode s')) :
    Outcome s (fun t ps => Operands t ps ∧ ps.length = n + 1) (bareOperands (n + 1) true s) := by
  induction n generalizing s with
  | zero =>
    rw [bareOperands_first]
    refine (hnode s le_rfl).bind fun t rest p hs hp => ?_
    simp only [bareOperands_zero]
    exact .ok hs ⟨.one hp, rfl⟩
  | succ n ih =>
    rw [bareOperands_first]
    refine (hnode s le_rfl).bind fun t rest p hs hp => ?_
    have hrest : rest.length ≤ s.length := by rw [hs, List.length_append]; omega
    -- the comma and what is behind it
    have hnext : Outcome rest (fun u ps => ∃ b ts, u = b ++ ',' :: ts ∧ Blanks b ∧ Operands ts ps ∧
        ps.length = n + 1) (bareOperands (n + 1) false rest) := by
      rw [bareOperands_next]
      refine (outcome_expect (by decide) rest).bind fun u start _ hr ⟨b, hb, hu⟩ => ?_
      have hstart : start.length ≤ rest.length := by rw [hr, List.length_append]; omega
      refine (ih start fun s' hs' => hnode s' (by omega)).behind hr ?_
      rintro ts ps ⟨hps, hlen⟩
      exact ⟨b, ts, by rw [hu, List.append_assoc]; rfl, hb, hps, hlen⟩
    refine Outcome.behind (G := fun u ps => Operands (t ++ u) ps ∧ ps.length = n + 1 + 1) ?_ hs
      fun _ _ h => h
    refine hnext.bind fun u left ps hr ⟨b, ts, hu, hb, hps, hlen⟩ => .ok hr ⟨?_, ?_⟩
    · rw [hu, ← List.append_assoc]
      exact .more hp hb hps
    · rw [List.length_cons, hlen]

/-- An operator is read soundly behind its name, if nodes are from there on. -/
theorem outcome_call {b t tail : List Char} {op : Operator} (hb : Blanks b) (ht : IsWord t)
    (hf : ¬ ∃ i, NamesFeature t i) (hn : Decimal.double? t = none) (hop : NamesOperator t op)
    (hnode : ∀ s' : List Char, s'.length ≤ tail.length → Outcome s' Node (bareNode s')) :
    Outcome tail (fun u p => Node (b ++ t ++ u) p) (do
      let (_, opened) ← bareExpect '(' tail
      let (ps, rest) ← bareOperands op.arity true opened
      let (_, closed) ← bareExpect ')' rest
      return (.call op ps, closed)) := by
  obtain ⟨n, harity⟩ := Nat.exists_eq_add_one.mpr op.arity_pos
  refine (outcome_expect (by decide) tail).bind fun u opened _ htail ⟨b₁, hb₁, hu⟩ => ?_
  have hopened : opened.length ≤ tail.length := by rw [htail, List.length_append]; omega
  simp only [harity]
  refine Outcome.behind (G := fun v p => Node (b ++ t ++ (u ++ v)) p) ?_ htail fun _ _ h => h
  refine (outcome_operands n opened fun s' hs' => hnode s' (by omega)).bind
    fun body rest ps hr ⟨hps, hlen⟩ => ?_
  refine Outcome.behind (G := fun v p => Node (b ++ t ++ (u ++ (body ++ v))) p) ?_ hr
    fun _ _ h => h
  refine (outcome_expect (by decide) rest).bind fun v closed _ hc ⟨b₂, hb₂, hv⟩ => .ok hc ?_
  have hcall := Node.call hb ht hf hn hop hb₁ hps (hlen.trans harity.symm) hb₂
  rw [hu, hv]
  simpa [List.append_assoc] using hcall

/-- Reading a node is sound at every text. -/
theorem outcome_node (s : List Char) : Outcome s Node (bareNode s) := by
  induction hlen : s.length using Nat.strong_induction_on generalizing s with
  | h n ih =>
    subst hlen
    obtain ⟨b, hb, hs⟩ := exists_blanks s
    rw [bareNode_eq]
    split
    · exact .error hs (.node _)
    · next hne =>
      have ht := isWord_token hne
      have hsplit : s = b ++ token (dropBlanks s) ++ afterToken (dropBlanks s) := by
        rw [List.append_assoc, show token (dropBlanks s) ++ afterToken (dropBlanks s) = dropBlanks s
          from List.takeWhile_append_dropWhile]
        exact hs
      rcases ofChars_cases ht with ⟨i, h, hi⟩ | ⟨x, h, hf, hx⟩ | ⟨op, h, hf, hn, hop⟩ | h
      · rw [h]
        exact .ok hsplit (.feature hb ht hi)
      · rw [h]
        exact .ok hsplit (.number hb ht hf hx)
      · rw [h]
        refine (outcome_call hb ht hf hn hop fun s' hs' => ?_).behind hsplit fun _ _ h => h
        refine ih s'.length (lt_of_le_of_lt hs' ?_) s' rfl
        exact lt_of_lt_of_le (length_afterToken_lt hne) (length_dropBlanks_le s)
      · rw [h]
        exact .error hs (.word _)

/-! ## Completeness -/

theorem bareExpect_blanks {b : List Char} {c : Char} (hb : Blanks b) (hc : c ∈ ['(', ',', ')'])
    (rest : List Char) : bareExpect c (b ++ c :: rest) = .ok ((), rest) := by
  have hall : ['(', ',', ')'].all (!isBlank ·) := by decide
  have hblank : isBlank c = false := by simpa using List.all_eq_true.mp hall c hc
  rw [bareExpect_eq, dropBlanks_append hb, dropBlanks_cons hblank]
  exact if_pos rfl

theorem bareNode_word {b : List Char} (hb : Blanks b) (ht : IsWord t) (hrest : Stops rest) :
    dropBlanks (b ++ t ++ rest) = t ++ rest ∧ token (t ++ rest) = t ∧ afterToken (t ++ rest) = rest := by
  refine ⟨?_, ht.token hrest⟩
  rw [List.append_assoc, dropBlanks_append hb, ht.dropBlanks]

theorem Operands.length_ne_zero {ps : List Program} (h : Operands t ps) : ps.length ≠ 0 := by
  cases h <;> exact Nat.succ_ne_zero _

mutual

/-- What derives a node is read as that node, whatever stands behind it. -/
theorem Node.read {t : List Char} {p : Program} : Node t p → ∀ {rest : List Char}, Stops rest →
    bareNode (t ++ rest) = .ok (p, rest)
  | .feature hb ht h, rest, hrest => by
    obtain ⟨hdrop, htoken, hafter⟩ := bareNode_word hb ht hrest
    rw [bareNode_eq, hdrop, htoken, hafter, if_neg ht.ne_nil, ofChars_feature h]
  | .number hb ht hf h, rest, hrest => by
    obtain ⟨hdrop, htoken, hafter⟩ := bareNode_word hb ht hrest
    rw [bareNode_eq, hdrop, htoken, hafter, if_neg ht.ne_nil, ofChars_number hf h]
  | @Node.call b t b₁ body b₂ op ps hb ht hf hn h hb₁ hps hlen hb₂, rest, hrest => by
    have htail : Stops (b₁ ++ '(' :: (body ++ (b₂ ++ ')' :: rest))) :=
      stops_append hb₁ (stops_cons (by decide))
    have hclose : Stops (b₂ ++ ')' :: rest) := stops_append hb₂ (stops_cons (by decide))
    obtain ⟨hdrop, htoken, hafter⟩ := bareNode_word hb ht htail
    have hsplit : b ++ t ++ b₁ ++ '(' :: (body ++ b₂ ++ [')']) ++ rest =
        b ++ t ++ (b₁ ++ '(' :: (body ++ (b₂ ++ ')' :: rest))) := by simp
    rw [hsplit, bareNode_eq, hdrop, htoken, hafter, if_neg ht.ne_nil, ofChars_operator ht hf hn h]
    simp only [bareExpect_blanks hb₁ (by decide : '(' ∈ ['(', ',', ')']), ← hlen, hps.read hclose,
      bareExpect_blanks hb₂ (by decide : ')' ∈ ['(', ',', ')']), bind, Except.bind, pure, Except.pure]

theorem Operands.read {t : List Char} {ps : List Program} : Operands t ps → ∀ {rest : List Char},
    Stops rest → bareOperands ps.length true (t ++ rest) = .ok (ps, rest)
  | .one h, rest, hrest => by
    rw [List.length_singleton, bareOperands_first, h.read hrest]
    simp only [bareOperands_zero, bind, Except.bind, pure, Except.pure]
  | @Operands.more t b ts p ps h hb hps, rest, hrest => by
    have hcomma : Stops (b ++ ',' :: (ts ++ rest)) := stops_append hb (stops_cons (by decide))
    have hsplit : t ++ b ++ ',' :: ts ++ rest = t ++ (b ++ ',' :: (ts ++ rest)) := by simp
    obtain ⟨n, hn⟩ := Nat.exists_eq_succ_of_ne_zero hps.length_ne_zero
    have hread := hps.read hrest
    rw [hn] at hread
    rw [hsplit, List.length_cons, hn, bareOperands_first, h.read hcomma]
    simp only [bareOperands_next, bareExpect_blanks hb (by decide : ',' ∈ ['(', ',', ')']), hread,
      bind, Except.bind, pure, Except.pure]

end

/-! ## Whole texts -/

theorem byteSize_cons (c : Char) (cs : List Char) :
    byteSize (c :: cs) = c.utf8Size + byteSize cs := by
  have hfold : ∀ (cs : List Char) (k : ℕ),
      cs.foldl (fun n c => n + c.utf8Size) k = k + byteSize cs := by
    intro cs
    induction cs with
    | nil => exact fun k => rfl
    | cons d ds ih =>
      intro k
      rw [byteSize, List.foldl_cons, List.foldl_cons, ih, ih]
      omega
  rw [byteSize, List.foldl_cons, hfold]
  omega

theorem byteSize_eq (cs : List Char) : byteSize cs = (String.ofList cs).utf8ByteSize := by
  induction cs with
  | nil => rfl
  | cons c cs ih =>
    rw [byteSize_cons, ih, String.ofList_cons, String.utf8ByteSize_append,
      String.utf8ByteSize_singleton]

/-- A fault of the text form, at a place between two characters of the text. -/
inductive Located (input : String) : ParseFault → Prop where
  | node {front rest : String} (h : input = front ++ rest) :
      Located input (.expectedNode front.utf8ByteSize input)
  | mark {front rest : String} {c : Char} (h : input = front ++ rest) (hc : c ∈ ['(', ',', ')']) :
      Located input (.expectedChar c front.utf8ByteSize input)
  | word {front rest : String} (h : input = front ++ rest) :
      Located input (.unknownToken (String.ofList (token rest.toList)) front.utf8ByteSize input)
  | trailing {front rest : String} (h : input = front ++ rest) :
      Located input (.trailingInput front.utf8ByteSize input)

variable {input : String} {p : Program}

/-- The offset is the size of what stands before the place. -/
theorem offset_eq {front rest : List Char} (h : input.toList = front ++ rest) :
    byteSize input.toList - byteSize rest = (String.ofList front).utf8ByteSize ∧
      input = String.ofList front ++ String.ofList rest := by
  have hinput : input = String.ofList front ++ String.ofList rest := by
    rw [← String.ofList_toList (s := input), h, String.ofList_append]
  have hsize := congrArg String.utf8ByteSize hinput
  rw [String.utf8ByteSize_append] at hsize
  refine ⟨?_, hinput⟩
  rw [byteSize_eq, byteSize_eq, String.ofList_toList]
  omega

theorem located_of_fault {front : List Char} {stop : Stop} (h : Fault stop)
    (hs : input.toList = front ++ stop.rest) :
    Located input (stop.reason (byteSize input.toList - byteSize stop.rest) input) := by
  obtain ⟨hoffset, hsplit⟩ := offset_eq hs
  rw [hoffset]
  cases h with
  | node rest => exact .node hsplit
  | mark rest hc => exact .mark hsplit hc
  | word rest =>
    have := Located.word hsplit
    rwa [String.toList_ofList] at this

/-- What is made of the node at the start of a text. -/
theorem ofText_of_bareNode (input : String) :
    (∀ p rest, bareNode input.toList = .ok (p, rest) → dropBlanks rest = [] →
      ofText input = .ok p) ∧
    (∀ p rest, bareNode input.toList = .ok (p, rest) → dropBlanks rest ≠ [] →
      ofText input = .error (.parse (.trailingInput
        (byteSize input.toList - byteSize (dropBlanks rest)) input))) ∧
    (∀ stop, bareNode input.toList = .error stop → ofText input =
      .error (.parse (stop.reason (byteSize input.toList - byteSize stop.rest) input))) := by
  unfold ofText bareNode
  simp only
  rcases node input.toList with stop | ⟨p, rest, hrest⟩
  · exact ⟨nofun, nofun, by rintro _ ⟨⟩; rfl⟩
  · refine ⟨?_, ?_, nofun⟩
    · rintro _ _ ⟨⟩ hempty
      simp only [hempty]
    · rintro _ _ ⟨⟩ hleft
      cases hdrop : dropBlanks rest with
      | nil => exact absurd hdrop hleft
      | cons c cs => simp only [hdrop]

theorem ofText_eq_ok_iff : ofText input = .ok p ↔ Derives input.toList p := by
  obtain ⟨hok, htrailing, hstop⟩ := ofText_of_bareNode input
  have houtcome := outcome_node input.toList
  constructor
  · intro h
    generalize hnode : bareNode input.toList = result at houtcome
    cases houtcome with
    | @ok t rest q hs hq =>
      by_cases hempty : dropBlanks rest = []
      · rw [hok _ _ hnode hempty] at h
        cases h
        obtain ⟨b, hb, hrest⟩ := exists_blanks rest
        rw [hempty, List.append_nil] at hrest
        exact ⟨t, rest, hs, hq, hrest ▸ hb⟩
      · rw [htrailing _ _ hnode hempty] at h
        contradiction
    | error hs hf =>
      rw [hstop _ hnode] at h
      contradiction
  · rintro ⟨t, b, hs, hnode, hb⟩
    have hstops : Stops b := by
      have := stops_append hb stops_nil
      rwa [List.append_nil] at this
    have hempty : dropBlanks b = [] := by
      have := dropBlanks_append hb []
      rwa [List.append_nil] at this
    refine hok p b ?_ hempty
    rw [hs]
    exact hnode.read hstops

/-- A text that is refused is refused with a fault of its own form, at a place in it. -/
theorem exists_located {e : Error} (h : ofText input = .error e) :
    ∃ fault, e = .parse fault ∧ Located input fault := by
  obtain ⟨hok, htrailing, hstop⟩ := ofText_of_bareNode input
  have houtcome := outcome_node input.toList
  generalize hnode : bareNode input.toList = result at houtcome
  cases houtcome with
  | @ok t rest q hs hq =>
    by_cases hempty : dropBlanks rest = []
    · rw [hok _ _ hnode hempty] at h
      contradiction
    · rw [htrailing _ _ hnode hempty] at h
      cases h
      obtain ⟨b, -, hrest⟩ := exists_blanks rest
      have hfront : input.toList = t ++ b ++ dropBlanks rest := by
        rw [List.append_assoc, ← hrest]
        exact hs
      obtain ⟨hoffset, hsplit⟩ := offset_eq hfront
      rw [hoffset]
      exact ⟨_, rfl, .trailing hsplit⟩
  | @error front stop hs hf =>
    rw [hstop _ hnode] at h
    cases h
    exact ⟨_, rfl, located_of_fault hf hs⟩

end Grammar
end Program
end SymbolicRegression
