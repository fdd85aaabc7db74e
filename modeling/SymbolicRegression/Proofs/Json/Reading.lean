import SymbolicRegression.Json.Decode
import SymbolicRegression.Proofs.Json.Numbers
import SymbolicRegression.Proofs.Json.Texts

/-!
JSON is read as it was written, down to the depth that is kept.

`cut` says what the reader keeps of a value.  It is the value itself as long as the nesting of
arrays and objects does not go beyond the levels that are left, and else a value that cannot be
read, although the text can be skipped.
-/

namespace SymbolicRegression
namespace Json

open Text

/-! ## Values that can be written -/

mutual

/-- The written form says everything about the value. -/
def Writable : Json → Prop
  | number n => n.Writable
  | array items => AllWritable items
  | object members => MembersWritable members
  | unreadable => False
  | broken => False
  | _ => True

def AllWritable : List Json → Prop
  | [] => True
  | j :: js => j.Writable ∧ AllWritable js

def MembersWritable : List (Option String × Json) → Prop
  | [] => True
  | (key, j) :: ms => key.isSome = true ∧ j.Writable ∧ MembersWritable ms

end

mutual

/-- How deep arrays and objects are nested. -/
def nesting : Json → ℕ
  | array items => nestingAll items + 1
  | object members => nestingMembers members + 1
  | _ => 0

def nestingAll : List Json → ℕ
  | [] => 0
  | j :: js => max j.nesting (nestingAll js)

def nestingMembers : List (Option String × Json) → ℕ
  | [] => 0
  | (_, j) :: ms => max j.nesting (nestingMembers ms)

end

theorem allWritable_iff {js : List Json} : AllWritable js ↔ ∀ j ∈ js, j.Writable := by
  induction js with
  | nil => exact ⟨fun _ => nofun, fun _ => trivial⟩
  | cons j js ih => rw [AllWritable, ih, List.forall_mem_cons]

theorem nestingAll_le_iff {js : List Json} {depth : ℕ} :
    nestingAll js ≤ depth ↔ ∀ j ∈ js, j.nesting ≤ depth := by
  induction js with
  | nil => exact ⟨fun _ => nofun, fun _ => Nat.zero_le depth⟩
  | cons j js ih => rw [nestingAll, Nat.max_le, ih, List.forall_mem_cons]

theorem writable_record {ms : List (String × Json)} :
    (record ms).Writable ↔ ∀ m ∈ ms, m.2.Writable := by
  show MembersWritable (ms.map fun m => (some m.1, m.2)) ↔ _
  induction ms with
  | nil => exact ⟨fun _ => nofun, fun _ => trivial⟩
  | cons m ms ih =>
    rw [List.map_cons, MembersWritable, ih, List.forall_mem_cons]
    exact and_iff_right rfl

theorem nesting_record_le_iff {ms : List (String × Json)} {depth : ℕ} :
    (record ms).nesting ≤ depth + 1 ↔ ∀ m ∈ ms, m.2.nesting ≤ depth := by
  show nestingMembers (ms.map fun m => (some m.1, m.2)) + 1 ≤ depth + 1 ↔ _
  rw [Nat.add_le_add_iff_right]
  induction ms with
  | nil => exact ⟨fun _ => nofun, fun _ => Nat.zero_le depth⟩
  | cons m ms ih => rw [List.map_cons, nestingMembers, Nat.max_le, ih, List.forall_mem_cons]

theorem writable_ofFloat (x : Float) : (ofFloat x).Writable := by
  unfold ofFloat
  split
  · next hx => exact hx
  · trivial

theorem nesting_ofFloat (x : Float) : (ofFloat x).nesting = 0 := by
  unfold ofFloat
  split
  · rfl
  · rfl

/-! ## What is kept -/

mutual

/-- What the reader keeps of a value with so many levels to go. -/
def cut : ℕ → Json → Json
  | depth, array items => Reader.sealed depth (array (cutAll (depth - 1) items))
  | depth, object members => Reader.sealed depth (object (cutMembers (depth - 1) members))
  | _, j => j

def cutAll : ℕ → List Json → List Json
  | _, [] => []
  | depth, j :: js => cut depth j :: cutAll depth js

def cutMembers : ℕ → List (Option String × Json) → List (Option String × Json)
  | _, [] => []
  | depth, (key, j) :: ms => (key, cut depth j) :: cutMembers depth ms

end

mutual

theorem cut_eq_self : ∀ (depth : ℕ) (j : Json), j.nesting ≤ depth → cut depth j = j
  | 0, array _, h => absurd h (Nat.not_succ_le_zero _)
  | depth + 1, array items, h =>
    congrArg array (cutAll_eq_self depth items (Nat.le_of_succ_le_succ h))
  | 0, object _, h => absurd h (Nat.not_succ_le_zero _)
  | depth + 1, object members, h =>
    congrArg object (cutMembers_eq_self depth members (Nat.le_of_succ_le_succ h))
  | _, null, _ => rfl
  | _, bool _, _ => rfl
  | _, number _, _ => rfl
  | _, text _, _ => rfl
  | _, unreadable, _ => rfl
  | _, broken, _ => rfl

theorem cutAll_eq_self : ∀ (depth : ℕ) (js : List Json), nestingAll js ≤ depth →
    cutAll depth js = js
  | _, [], _ => rfl
  | depth, j :: js, h => by
    obtain ⟨hj, hjs⟩ := Nat.max_le.mp h
    show cut depth j :: cutAll depth js = j :: js
    rw [cut_eq_self depth j hj, cutAll_eq_self depth js hjs]

theorem cutMembers_eq_self : ∀ (depth : ℕ) (ms : List (Option String × Json)),
    nestingMembers ms ≤ depth → cutMembers depth ms = ms
  | _, [], _ => rfl
  | depth, (key, j) :: ms, h => by
    obtain ⟨hj, hms⟩ := Nat.max_le.mp h
    show (key, cut depth j) :: cutMembers depth ms = (key, j) :: ms
    rw [cut_eq_self depth j hj, cutMembers_eq_self depth ms hms]

end

theorem not_isReadable_sealed_zero (j : Json) : ¬(Reader.sealed 0 j).isReadable = true := by
  unfold Reader.sealed
  dsimp only
  split
  · exact Bool.false_ne_true
  · exact Bool.false_ne_true

mutual

/-- What is nested too deep cannot be read, and everything else can. -/
theorem isReadable_cut_iff : ∀ (depth : ℕ) (j : Json), j.Writable →
    ((cut depth j).isReadable = true ↔ j.nesting ≤ depth)
  | 0, array items, _ =>
    iff_of_false (not_isReadable_sealed_zero (array (cutAll 0 items))) (Nat.not_succ_le_zero _)
  | depth + 1, array items, h => by
    show allReadable (cutAll depth items) = true ↔ nestingAll items + 1 ≤ depth + 1
    rw [allReadable_cutAll_iff depth items h, Nat.succ_le_succ_iff]
  | 0, object members, _ =>
    iff_of_false (not_isReadable_sealed_zero (object (cutMembers 0 members)))
      (Nat.not_succ_le_zero _)
  | depth + 1, object members, h => by
    show membersReadable (cutMembers depth members) = true ↔ nestingMembers members + 1 ≤ depth + 1
    rw [membersReadable_cutMembers_iff depth members h, Nat.succ_le_succ_iff]
  | depth, null, _ => iff_of_true rfl (Nat.zero_le depth)
  | depth, bool _, _ => iff_of_true rfl (Nat.zero_le depth)
  | depth, number _, _ => iff_of_true rfl (Nat.zero_le depth)
  | depth, text _, _ => iff_of_true rfl (Nat.zero_le depth)
  | _, unreadable, h => h.elim
  | _, broken, h => h.elim

theorem allReadable_cutAll_iff : ∀ (depth : ℕ) (js : List Json), AllWritable js →
    (allReadable (cutAll depth js) = true ↔ nestingAll js ≤ depth)
  | depth, [], _ => iff_of_true rfl (Nat.zero_le depth)
  | depth, j :: js, h => by
    show ((cut depth j).isReadable && allReadable (cutAll depth js)) = true ↔
      max j.nesting (nestingAll js) ≤ depth
    rw [Bool.and_eq_true, isReadable_cut_iff depth j h.1, allReadable_cutAll_iff depth js h.2,
      Nat.max_le]

theorem membersReadable_cutMembers_iff : ∀ (depth : ℕ) (ms : List (Option String × Json)),
    MembersWritable ms → (membersReadable (cutMembers depth ms) = true ↔ nestingMembers ms ≤ depth)
  | depth, [], _ => iff_of_true rfl (Nat.zero_le depth)
  | depth, (key, j) :: ms, h => by
    show (key.isSome && (cut depth j).isReadable && membersReadable (cutMembers depth ms)) = true ↔
      max j.nesting (nestingMembers ms) ≤ depth
    rw [h.1, Bool.true_and, Bool.and_eq_true, isReadable_cut_iff depth j h.2.1,
      membersReadable_cutMembers_iff depth ms h.2.2, Nat.max_le]

end

theorem isReadable_of_writable {j : Json} (h : j.Writable) : j.isReadable = true := by
  have hcut := (isReadable_cut_iff j.nesting j h).mpr (Nat.le_refl _)
  rwa [cut_eq_self j.nesting j (Nat.le_refl _)] at hcut

/-! ## Steps of the reader -/

namespace Reader

/-- A value is read from the front of a text, and what is left of it. -/
def Reads {α : Type} {s : List Char} (x : α × Rest s) (a : α) (rest : List Char) : Prop :=
  ∃ h, x = (a, some ⟨rest, h⟩)

variable {depth : ℕ} {c : Char} {s t rest : List Char} {j : Json} {js : List Json}
  {ms : List (Option String × Json)} {key : String}

theorem dropSpaces_of_not_isSpace (h : isSpace c = false) : dropSpaces (c :: t) = c :: t :=
  List.dropWhile_cons_of_neg (by rw [h]; exact Bool.false_ne_true)

theorem printText_append (key : String) (rest : List Char) :
    printText key ++ rest = quoteMark :: (key.toList.flatMap escape ++ quoteMark :: rest) := by
  unfold printText
  simp

theorem reads_text (s : String) : Reads (value depth (printText s ++ rest)) (text s) rest := by
  obtain ⟨hlt, hquoted⟩ := quoted_append s rest
  rw [printText_append]
  generalize s.toList.flatMap escape ++ quoteMark :: rest = t at hlt hquoted
  rw [value.eq_def]
  split
  · next heq => exact absurd heq (List.cons_ne_nil quoteMark t)
  · next c t' heq =>
    obtain ⟨rfl, rfl⟩ := List.cons.inj (heq : quoteMark :: t = c :: t')
    dsimp only
    rw [if_pos rfl, hquoted]
    exact ⟨_, rfl⟩

theorem reads_array_nil :
    Reads (value depth ('[' :: ']' :: rest)) (sealed depth (array [])) rest := by
  rw [value.eq_def]
  split
  · next heq => exact absurd heq (List.cons_ne_nil '[' _)
  · next c t heq =>
    obtain ⟨rfl, rfl⟩ := List.cons.inj (heq : '[' :: ']' :: rest = c :: t)
    dsimp only
    rw [if_neg (by decide), if_pos rfl]
    split
    · next r heq =>
      obtain rfl := (List.cons.inj (heq : ']' :: rest = ']' :: r)).2
      exact ⟨_, rfl⟩
    · next hne => exact absurd rfl (hne rest)

theorem reads_array (hc : isSpace c = false) (hclose : c ≠ ']')
    (h : Reads (items (depth - 1) (c :: t)) js rest) :
    Reads (value depth ('[' :: c :: t)) (sealed depth (array js)) rest := by
  obtain ⟨hlt, hitems⟩ := h
  rw [value.eq_def]
  split
  · next heq => exact absurd heq (List.cons_ne_nil '[' _)
  · next d u heq =>
    obtain ⟨rfl, rfl⟩ := List.cons.inj (heq : '[' :: c :: t = d :: u)
    dsimp only
    rw [if_neg (by decide), if_pos rfl]
    split
    · next r heq =>
      rw [dropSpaces_of_not_isSpace hc] at heq
      exact absurd (List.cons.inj heq).1 hclose
    · rw [hitems]
      exact ⟨_, rfl⟩

theorem reads_object_nil :
    Reads (value depth (openBrace :: closeBrace :: rest)) (sealed depth (object [])) rest := by
  rw [value.eq_def]
  split
  · next heq => exact absurd heq (List.cons_ne_nil openBrace _)
  · next c t heq =>
    obtain ⟨rfl, rfl⟩ := List.cons.inj (heq : openBrace :: closeBrace :: rest = c :: t)
    dsimp only
    rw [if_neg (by decide), if_neg (by decide), if_pos (by decide)]
    split
    · next d r heq =>
      obtain ⟨rfl, rfl⟩ := List.cons.inj (heq : closeBrace :: rest = d :: r)
      rw [if_pos (by decide)]
      exact ⟨_, rfl⟩
    · next heq => exact absurd heq (List.cons_ne_nil closeBrace _)

theorem reads_object (h : Reads (members (depth - 1) (quoteMark :: t)) ms rest) :
    Reads (value depth (openBrace :: quoteMark :: t)) (sealed depth (object ms)) rest := by
  obtain ⟨hlt, hmembers⟩ := h
  rw [value.eq_def]
  split
  · next heq => exact absurd heq (List.cons_ne_nil openBrace _)
  · next c u heq =>
    obtain ⟨rfl, rfl⟩ := List.cons.inj (heq : openBrace :: quoteMark :: t = c :: u)
    dsimp only
    rw [if_neg (by decide), if_neg (by decide), if_pos (by decide)]
    split
    · next d r heq =>
      obtain ⟨rfl, rfl⟩ := List.cons.inj (heq : quoteMark :: t = d :: r)
      rw [if_neg (by decide), hmembers]
      exact ⟨_, rfl⟩
    · next heq => exact absurd heq (List.cons_ne_nil quoteMark _)

theorem reads_word {letters : List Char} {h : (letters ++ rest).length < s.length} :
    Reads (word j letters (letters ++ rest) h) j rest := by
  have hprefix : letters.isPrefixOf (letters ++ rest) = true :=
    List.isPrefixOf_iff_prefix.mpr (List.prefix_append letters rest)
  have hdrop : (letters ++ rest).drop letters.length = rest := List.drop_left
  have hlt : rest.length < s.length := by
    rw [List.length_append] at h
    omega
  unfold word
  rw [if_pos hprefix]
  refine ⟨hlt, ?_⟩
  simp only [hdrop]

theorem reads_null : Reads (value depth (['n', 'u', 'l', 'l'] ++ rest)) null rest := by
  rw [value.eq_def]
  split
  · next heq => exact absurd heq (List.cons_ne_nil 'n' _)
  · next c t heq =>
    obtain ⟨rfl, rfl⟩ := List.cons.inj (heq : 'n' :: (['u', 'l', 'l'] ++ rest) = c :: t)
    dsimp only
    rw [if_neg (by decide), if_neg (by decide), if_neg (by decide), if_neg (by decide),
      if_neg (by decide), if_pos rfl]
    exact reads_word

theorem reads_true : Reads (value depth (['t', 'r', 'u', 'e'] ++ rest)) (bool true) rest := by
  rw [value.eq_def]
  split
  · next heq => exact absurd heq (List.cons_ne_nil 't' _)
  · next c t heq =>
    obtain ⟨rfl, rfl⟩ := List.cons.inj (heq : 't' :: (['r', 'u', 'e'] ++ rest) = c :: t)
    dsimp only
    rw [if_neg (by decide), if_neg (by decide), if_neg (by decide), if_pos rfl]
    exact reads_word

theorem reads_false :
    Reads (value depth (['f', 'a', 'l', 's', 'e'] ++ rest)) (bool false) rest := by
  rw [value.eq_def]
  split
  · next heq => exact absurd heq (List.cons_ne_nil 'f' _)
  · next c t heq =>
    obtain ⟨rfl, rfl⟩ := List.cons.inj (heq : 'f' :: (['a', 'l', 's', 'e'] ++ rest) = c :: t)
    dsimp only
    rw [if_neg (by decide), if_neg (by decide), if_neg (by decide), if_neg (by decide), if_pos rfl]
    exact reads_word

theorem ne_of_starts_number (hc : c.isDigit = true ∨ c = '-') {d : Char}
    (hd : d.isDigit = false ∧ d ≠ '-') : c ≠ d := by
  rintro rfl
  rcases hc with hc | hc
  · rw [hd.1] at hc
    contradiction
  · exact hd.2 hc

theorem isSpace_of_starts_number (hc : c.isDigit = true ∨ c = '-') : isSpace c = false := by
  have hne {d : Char} (hd : d.isDigit = false ∧ d ≠ '-') : (c == d) = false :=
    beq_eq_false_iff_ne.mpr (ne_of_starts_number hc hd)
  unfold isSpace
  rw [hne (by decide), hne (by decide), hne (by decide), hne (by decide)]
  rfl

theorem reads_of_number? (hc : c.isDigit = true ∨ c = '-') {hr : rest.length < (c :: t).length}
    (h : number? (c :: t) = some (j, ⟨rest, hr⟩)) : Reads (value depth (c :: t)) j rest := by
  have hspace := isSpace_of_starts_number hc
  have hne {d : Char} (hd : d.isDigit = false ∧ d ≠ '-') : c ≠ d := ne_of_starts_number hc hd
  rw [value.eq_def]
  split
  · next heq =>
    rw [dropSpaces_of_not_isSpace hspace] at heq
    contradiction
  · next d u heq =>
    rw [dropSpaces_of_not_isSpace hspace] at heq
    obtain ⟨rfl, rfl⟩ := List.cons.inj heq
    dsimp only
    rw [if_neg (hne (by decide)), if_neg (hne (by decide)), if_neg (hne (by decide)),
      if_neg (hne (by decide)), if_neg (hne (by decide)), if_neg (hne (by decide)), h]
    exact ⟨_, rfl⟩

theorem items_last (h : Reads (value depth s) j (']' :: rest)) :
    Reads (items depth s) [j] rest := by
  obtain ⟨hlt, hvalue⟩ := h
  rw [items.eq_def, hvalue]
  dsimp only
  split
  · next t heq => exact absurd (List.cons.inj (heq : ']' :: rest = ',' :: t)).1 (by decide)
  · next t heq =>
    obtain rfl := (List.cons.inj (heq : ']' :: rest = ']' :: t)).2
    exact ⟨_, rfl⟩
  · next hcomma hclose => exact absurd rfl (hclose rest)

theorem items_more (h : Reads (value depth s) j (',' :: t)) (ht : Reads (items depth t) js rest) :
    Reads (items depth s) (j :: js) rest := by
  obtain ⟨hlt, hvalue⟩ := h
  obtain ⟨hlt', hitems⟩ := ht
  rw [items.eq_def, hvalue]
  dsimp only
  split
  · next u heq =>
    obtain rfl := (List.cons.inj (heq : ',' :: t = ',' :: u)).2
    rw [hitems]
    exact ⟨_, rfl⟩
  · next u heq => exact absurd (List.cons.inj (heq : ',' :: t = ']' :: u)).1 (by decide)
  · next hcomma hclose => exact absurd rfl (hcomma t)

theorem members_last (h : Reads (value depth t) j (closeBrace :: rest)) :
    Reads (members depth (printText key ++ ':' :: t)) [(some key, j)] rest := by
  obtain ⟨hlt, hvalue⟩ := h
  obtain ⟨hlt', hquoted⟩ := quoted_append key (':' :: t)
  rw [printText_append]
  generalize key.toList.flatMap escape ++ quoteMark :: ':' :: t = u at hlt' hquoted
  rw [members.eq_def]
  split
  · next heq => exact absurd heq (List.cons_ne_nil quoteMark u)
  · next c u' heq =>
    obtain ⟨rfl, rfl⟩ := List.cons.inj (heq : quoteMark :: u = c :: u')
    dsimp only
    rw [if_pos rfl, hquoted]
    dsimp only
    split
    · next v heq =>
      obtain rfl := (List.cons.inj (heq : ':' :: t = ':' :: v)).2
      rw [hvalue]
      dsimp only
      split
      · next heq => exact absurd heq (List.cons_ne_nil closeBrace _)
      · next d w heq =>
        obtain ⟨rfl, rfl⟩ := List.cons.inj (heq : closeBrace :: rest = d :: w)
        rw [if_neg (by decide), if_pos (by decide)]
        exact ⟨_, rfl⟩
    · next hcolon => exact absurd rfl (hcolon t)

theorem members_more (h : Reads (value depth t) j (',' :: s))
    (hs : Reads (members depth s) ms rest) :
    Reads (members depth (printText key ++ ':' :: t)) ((some key, j) :: ms) rest := by
  obtain ⟨hlt, hvalue⟩ := h
  obtain ⟨hlt', hmembers⟩ := hs
  obtain ⟨hlt'', hquoted⟩ := quoted_append key (':' :: t)
  rw [printText_append]
  generalize key.toList.flatMap escape ++ quoteMark :: ':' :: t = u at hlt'' hquoted
  rw [members.eq_def]
  split
  · next heq => exact absurd heq (List.cons_ne_nil quoteMark u)
  · next c u' heq =>
    obtain ⟨rfl, rfl⟩ := List.cons.inj (heq : quoteMark :: u = c :: u')
    dsimp only
    rw [if_pos rfl, hquoted]
    dsimp only
    split
    · next v heq =>
      obtain rfl := (List.cons.inj (heq : ':' :: t = ':' :: v)).2
      rw [hvalue]
      dsimp only
      split
      · next heq => exact absurd heq (List.cons_ne_nil ',' s)
      · next d w heq =>
        obtain ⟨rfl, rfl⟩ := List.cons.inj (heq : ',' :: s = d :: w)
        rw [if_pos rfl, hmembers]
        exact ⟨_, rfl⟩
    · next hcolon => exact absurd rfl (hcolon t)

/-! ## Values that were written -/

theorem ends_comma (rest : List Char) : Ends (',' :: rest) := ends_cons (by decide) rest

theorem ends_bracket (rest : List Char) : Ends (']' :: rest) := ends_cons (by decide) rest

theorem ends_brace (rest : List Char) : Ends (closeBrace :: rest) := ends_cons (by decide) rest

theorem printNumber_head {n : Number} (hn : n.Writable) :
    ∃ c cs, printNumber n = c :: cs ∧ (c.isDigit = true ∨ c = '-') := by
  cases n with
  | natural n =>
    obtain ⟨c, cs, hcons, hc⟩ := Decimal.exists_cons_digitsOf n
    exact ⟨c, cs, hcons, .inl hc⟩
  | negative n => exact ⟨'-', _, rfl, .inr rfl⟩
  | real x =>
    obtain ⟨text, v, y, hnumeral, -, -, ⟨hwrite, -⟩ | ⟨hwrite, -⟩⟩ := write_numeral hn
    · obtain ⟨c, cs, hcons, hc⟩ := hnumeral.exists_cons
      exact ⟨c, cs, hwrite.trans hcons, .inl hc⟩
    · exact ⟨'-', text, hwrite, .inr rfl⟩

theorem reads_number {n : Number} (hn : n.Writable) (hrest : Ends rest) :
    Reads (value depth (printNumber n ++ rest)) (number n) rest := by
  obtain ⟨hlt, h⟩ := number?_printNumber hn hrest
  obtain ⟨c, cs, hcons, hc⟩ := printNumber_head hn
  generalize printNumber n = text at hlt h hcons
  subst hcons
  exact reads_of_number? hc h

/-- No written value starts with a blank or a closing bracket. -/
theorem print_head {j : Json} (h : j.Writable) :
    ∃ c cs, j.print = c :: cs ∧ isSpace c = false ∧ c ≠ ']' := by
  cases j with
  | null => exact ⟨'n', _, rfl, rfl, by decide⟩
  | bool b =>
    cases b with
    | true => exact ⟨'t', _, rfl, rfl, by decide⟩
    | false => exact ⟨'f', _, rfl, rfl, by decide⟩
  | number n =>
    obtain ⟨c, cs, hcons, hc⟩ := printNumber_head h
    exact ⟨c, cs, hcons, isSpace_of_starts_number hc, ne_of_starts_number hc (by decide)⟩
  | text s => exact ⟨quoteMark, _, rfl, rfl, by decide⟩
  | array items => exact ⟨'[', _, rfl, rfl, by decide⟩
  | object members => exact ⟨openBrace, _, rfl, rfl, by decide⟩
  | unreadable => exact h.elim
  | broken => exact h.elim

mutual

/-- A value is read from its written form as far as its nesting allows, and nothing behind it
is touched. -/
theorem reads_print : ∀ (depth : ℕ) (j : Json) (rest : List Char), j.Writable → Ends rest →
    Reads (value depth (j.print ++ rest)) (cut depth j) rest
  | _, null, rest, _, _ => reads_null
  | _, bool true, rest, _, _ => reads_true
  | _, bool false, rest, _, _ => reads_false
  | _, number n, rest, h, hrest => reads_number h hrest
  | _, text s, rest, _, _ => reads_text s
  | depth, array [], rest, _, _ => reads_array_nil
  | depth, array (j :: js), rest, h, _ => by
    have hitems := reads_printItems (depth - 1) (j :: js) rest (List.cons_ne_nil j js) h
    -- The reader looks at the first character of the items before it takes them for items.
    obtain ⟨c, cs, hcons, hspace, hclose⟩ := print_head h.1
    have hprint : printItems (j :: js) ++ ']' :: rest =
        c :: (cs ++ (printMoreItems js ++ ']' :: rest)) := by
      show (j.print ++ printMoreItems js) ++ ']' :: rest = _
      rw [hcons]
      simp
    have harray :
        (array (j :: js)).print ++ rest = '[' :: (printItems (j :: js) ++ ']' :: rest) := by
      show ('[' :: (printItems (j :: js) ++ [']'])) ++ rest = _
      simp
    rw [hprint] at hitems
    rw [harray, hprint]
    exact reads_array hspace hclose hitems
  | depth, object [], rest, _, _ => reads_object_nil
  | depth, object ((key, j) :: ms), rest, h, _ => by
    have hmembers := reads_printMembers (depth - 1) ((key, j) :: ms) rest (List.cons_ne_nil _ ms) h
    have hobject : (object ((key, j) :: ms)).print ++ rest =
        openBrace :: (printMembers ((key, j) :: ms) ++ closeBrace :: rest) := by
      show (openBrace :: (printMembers ((key, j) :: ms) ++ [closeBrace])) ++ rest = _
      simp
    obtain ⟨t, ht⟩ : ∃ t, printMembers ((key, j) :: ms) ++ closeBrace :: rest = quoteMark :: t :=
      ⟨_, rfl⟩
    rw [ht] at hmembers
    rw [hobject, ht]
    exact reads_object hmembers
  | _, unreadable, _, h, _ => h.elim
  | _, broken, _, h, _ => h.elim

theorem reads_printItems : ∀ (depth : ℕ) (js : List Json) (rest : List Char), js ≠ [] →
    AllWritable js → Reads (items depth (printItems js ++ ']' :: rest)) (cutAll depth js) rest
  | _, [], _, hne, _ => absurd rfl hne
  | depth, [j], rest, _, h => by
    have hprint : printItems [j] ++ ']' :: rest = j.print ++ ']' :: rest := by
      show (j.print ++ []) ++ ']' :: rest = _
      simp
    rw [hprint]
    exact items_last (reads_print depth j _ h.1 (ends_bracket rest))
  | depth, j :: k :: js, rest, _, h => by
    have hprint : printItems (j :: k :: js) ++ ']' :: rest =
        j.print ++ ',' :: (printItems (k :: js) ++ ']' :: rest) := by
      show (j.print ++ ',' :: printItems (k :: js)) ++ ']' :: rest = _
      simp
    rw [hprint]
    exact items_more (reads_print depth j _ h.1 (ends_comma _))
      (reads_printItems depth (k :: js) rest (List.cons_ne_nil k js) h.2)

theorem reads_printMembers : ∀ (depth : ℕ) (ms : List (Option String × Json)) (rest : List Char),
    ms ≠ [] → MembersWritable ms →
      Reads (members depth (printMembers ms ++ closeBrace :: rest)) (cutMembers depth ms) rest
  | _, [], _, hne, _ => absurd rfl hne
  | _, (none, _) :: _, _, _, h => absurd h.1 Bool.false_ne_true
  | depth, [(some key, j)], rest, _, h => by
    have hprint : printMembers [(some key, j)] ++ closeBrace :: rest =
        printText key ++ ':' :: (j.print ++ closeBrace :: rest) := by
      show (printText key ++ ':' :: (j.print ++ [])) ++ closeBrace :: rest = _
      simp
    rw [hprint]
    exact members_last (reads_print depth j _ h.2.1 (ends_brace rest))
  | depth, (some key, j) :: m :: ms, rest, _, h => by
    have hprint : printMembers ((some key, j) :: m :: ms) ++ closeBrace :: rest =
        printText key ++ ':' ::
          (j.print ++ ',' :: (printMembers (m :: ms) ++ closeBrace :: rest)) := by
      show (printText key ++ ':' :: (j.print ++ ',' :: printMembers (m :: ms))) ++
        closeBrace :: rest = _
      simp
    rw [hprint]
    exact members_more (reads_print depth j _ h.2.1 (ends_comma _))
      (reads_printMembers depth (m :: ms) rest (List.cons_ne_nil m ms) h.2.2)

end

end Reader

/-! ## Decoding -/

theorem toFloat_ofFloat {x : Float} (h : x.isFinite = true) : (ofFloat x).toFloat = .ok x := by
  rw [ofFloat, if_pos h]
  rfl

/-- A written text is read to its end, and this is what is kept of the value. -/
theorem ofChars_compact {j : Json} (h : j.Writable) :
    ofChars (compact j).toList = (cut Reader.depthLimit j, true) := by
  have hlist : (compact j).toList = j.print ++ [] := by
    rw [compact, String.toList_ofList, List.append_nil]
  obtain ⟨hlt, hvalue⟩ := Reader.reads_print Reader.depthLimit j [] h Reader.ends_nil
  unfold ofChars
  rw [hlist, hvalue]
  rfl

theorem decodeText_compact {α : Type} (decode : Json → Except JsonFault α) {j : Json}
    (h : j.Writable) :
    decodeText decode (compact j) = decode (cut Reader.depthLimit j) := by
  unfold decodeText
  rw [ofChars_compact h]
  dsimp only
  cases decode (cut Reader.depthLimit j) with
  | error e => rfl
  | ok a => rfl

/-- A decoder that refuses what cannot be read gets the value that was written, unless it is
nested too deep. -/
theorem decodeText_compact_of_refuses {α : Type} {decode : Json → Except JsonFault α}
    (hrefuses : ∀ j, j.isReadable = false → decode j = malformed) {j : Json} (h : j.Writable) :
    decodeText decode (compact j) =
      if j.nesting ≤ Reader.depthLimit then decode j else malformed := by
  rw [decodeText_compact decode h]
  by_cases hdepth : j.nesting ≤ Reader.depthLimit
  · rw [if_pos hdepth, cut_eq_self _ j hdepth]
  · have hcut : (cut Reader.depthLimit j).isReadable = false :=
      Bool.eq_false_iff.mpr fun hcut => hdepth ((isReadable_cut_iff _ j h).mp hcut)
    rw [if_neg hdepth, hrefuses _ hcut]

end Json
end SymbolicRegression
