import Mathlib.Logic.Relation
import Munch.Proofs.Pattern.Blame
import Munch.Proofs.Pattern.Count

/-!
# Reading a pattern advances

Offsets are indices into the pattern: whatever is read ends at an index that is behind the
one where it began, and leaves the bytes from there on.  Only concatenations and alternations
may read nothing.

`Calls` says what is started while something is read: the functions that are called, and the
next turn of a loop once a turn has read its item.  A call begins further on in the pattern,
or at the same byte and deeper in the grammar, so no pattern keeps the descent from ending.

**Results.**
* `exists_read`: where a reading ends, from how the offset is carried along.
* `advances`: where each function ends.
* `Calls.weight_lt`, `length_le_of_isChain`: calls end, loops and groups included.
* `Calls.inBounds`, `inBounds_of_calls`: no call begins behind the end of the pattern.
* `parse_advances`: all of this for every pattern, and that its counts are computed in small
  numbers.
-/

namespace Munch
namespace Pattern

/-! ### Where a reading ends -/

section Readings

variable {p w bytes : List Byte} {offset i n : Nat} {α : Type}
  {result : Except PatternError (Reading n α)} {r : Reading n α}

/-- The reading ends at an index of the pattern, and leaves what is behind it. -/
structure Reading.EndsIn (p : List Byte) (r : Reading n α) : Prop where
  offset_le : r.offset ≤ p.length
  rest_eq : r.rest = p.drop r.offset

/-- The reading has read the bytes of the pattern from index `i` up to its own offset. -/
def Reading.BeganAt (p : List Byte) (i : Nat) (r : Reading n α) : Prop :=
  ∃ read, p.drop i = read ++ r.rest ∧ r.offset = i + read.length

namespace Reading.BeganAt

theorem rest_eq (h : r.BeganAt p i) : r.rest = p.drop r.offset := by
  obtain ⟨read, hdrop, hoffset⟩ := h
  rw [hoffset, ← List.drop_drop, hdrop, List.drop_left]

theorem le_offset (h : r.BeganAt p i) : i ≤ r.offset := by
  obtain ⟨read, -, hoffset⟩ := h
  omega

theorem lt_offset (h : r.BeganAt p i) (hlt : r.rest.length < (p.drop i).length) :
    i < r.offset := by
  obtain ⟨read, hdrop, hoffset⟩ := h
  rw [hdrop, List.length_append] at hlt
  omega

theorem endsIn (h : r.BeganAt p i) (hi : i ≤ p.length) : r.EndsIn p := by
  refine ⟨?_, h.rest_eq⟩
  obtain ⟨read, hdrop, hoffset⟩ := h
  have hlength := congrArg List.length hdrop
  rw [List.length_drop, List.length_append] at hlength
  omega

end Reading.BeganAt

/-- A reader that keeps track of its place has read the bytes up to its new place, whatever
pattern they stand in.  It may ask for some bytes in front of them. -/
theorem exists_read (htracks : ∀ q, Remains q offset (w ++ bytes) → Tracks q result)
    (h : result = .ok r) (hle : r.rest.length ≤ bytes.length) :
    ∃ read, bytes = read ++ r.rest ∧ r.offset = offset + w.length + read.length := by
  let before := List.replicate offset (0 : Byte) ++ w
  have hbefore : before.length = offset + w.length := by
    simp [before]
  have hplace : Remains (before ++ bytes) offset (w ++ bytes) :=
    ⟨List.replicate offset 0, List.append_assoc _ _ _, List.length_replicate⟩
  obtain ⟨passed, hpassed, hoffset⟩ := (htracks _ hplace).remains h
  rcases List.append_eq_append_iff.1 hpassed with ⟨read, hw, hrest⟩ | ⟨more, hw, hrest⟩
  · refine ⟨read, hrest, ?_⟩
    rw [← hoffset, hw, List.length_append, hbefore]
  · have hmore : more = [] := by
      rw [hrest, List.length_append] at hle
      exact List.length_eq_zero_iff.1 (by omega)
    rw [hmore, List.append_nil] at hw
    rw [hmore, List.nil_append] at hrest
    exact ⟨[], hrest.symm, by rw [← hoffset, ← hw, hbefore]; rfl⟩

theorem beganAt_of_tracks (htracks : ∀ q, Remains q i (p.drop i) → Tracks q result)
    (h : result = .ok r) (hle : r.rest.length ≤ (p.drop i).length) : r.BeganAt p i :=
  exists_read (w := []) htracks h hle

/-- The reader is told the place of the byte in front of those that it reads. -/
theorem beganAt_succ_of_tracks {b : Byte}
    (htracks : ∀ q, Remains q i (b :: p.drop (i + 1)) → Tracks q result)
    (h : result = .ok r) (hle : r.rest.length ≤ (p.drop (i + 1)).length) : r.BeganAt p (i + 1) :=
  exists_read (w := [b]) htracks h hle

end Readings

section Readers

variable {p : List Byte} {i : Nat}

theorem counted_beganAt {r : Reading (p.drop (i + 1)).length (Nat × Option Nat)}
    (h : counted i (p.drop (i + 1)) = .ok r) : r.BeganAt p (i + 1) :=
  beganAt_succ_of_tracks (fun _ => counted_tracks) h (Nat.le_of_lt r.shorter)

theorem escape_beganAt {r : Reading (p.drop (i + 1)).length Member}
    (h : escape i (p.drop (i + 1)) = .ok r) : r.BeganAt p (i + 1) :=
  beganAt_succ_of_tracks (fun _ => escape_tracks) h (Nat.le_of_lt r.shorter)

theorem characterClass_beganAt {r : Reading (p.drop (i + 1)).length ByteSet}
    (h : characterClass i (p.drop (i + 1)) = .ok r) : r.BeganAt p (i + 1) :=
  beganAt_succ_of_tracks (fun _ => characterClass_tracks) h (Nat.le_of_lt r.shorter)

/-- Readers that read something find no answer at the end. -/
theorem ne_nil_of_shorter {bytes : List Byte} {α : Type} (r : Reading bytes.length α) :
    bytes ≠ [] := by
  rintro rfl
  exact Nat.not_lt_zero _ r.shorter

theorem atom_beganAt {r : Reading (p.drop i).length Pattern}
    (h : atom i (p.drop i) = .ok r) : r.BeganAt p i :=
  beganAt_of_tracks (fun _ => atom_tracks (ne_nil_of_shorter r)) h (Nat.le_of_lt r.shorter)

theorem repetition_beganAt {r : Reading (p.drop i).length Pattern}
    (h : repetition i (p.drop i) = .ok r) : r.BeganAt p i :=
  beganAt_of_tracks (fun _ => repetition_tracks (ne_nil_of_shorter r)) h (Nat.le_of_lt r.shorter)

theorem concatenation_beganAt {r : Reading ((p.drop i).length + 1) Pattern}
    (h : concatenation i (p.drop i) = .ok r) : r.BeganAt p i :=
  beganAt_of_tracks (fun _ => concatenation_tracks) h (Nat.le_of_lt_succ r.shorter)

theorem alternation_beganAt {r : Reading ((p.drop i).length + 1) Pattern}
    (h : alternation i (p.drop i) = .ok r) : r.BeganAt p i :=
  beganAt_of_tracks (fun _ => alternation_tracks) h (Nat.le_of_lt_succ r.shorter)

theorem number_beganAt {r : Reading ((p.drop (i + 1)).length + 1) (Option Nat)}
    (h : number (i + 1) (p.drop (i + 1)) = .ok r) : r.BeganAt p (i + 1) :=
  beganAt_succ_of_tracks (fun _ hplace => number_tracks hplace (.inl rfl)) h
    (Nat.le_of_lt_succ r.shorter)

theorem quantifier_beganAt {q : Reading (p.drop i).length (Nat × Option Nat)}
    (h : quantifier i (p.drop i) = .ok (some q)) : q.BeganAt p i := by
  have htracks : ∀ p', Remains p' i (p.drop i) → Tracks p' (.ok q) := by
    intro p' hplace
    have hquantifier := quantifier_tracks hplace
    rw [h] at hquantifier
    exact hquantifier
  exact beganAt_of_tracks htracks rfl (Nat.le_of_lt q.shorter)

theorem element_beganAt {b : Byte} {rest : List Byte} {r : Reading (rest.length + 1) ByteSet}
    (hdrop : p.drop i = b :: rest) (h : element i b rest = .ok r) : r.BeganAt p i := by
  apply beganAt_of_tracks _ h
  · rw [hdrop]
    exact Nat.le_of_lt_succ (Nat.lt_succ_of_lt r.shorter)
  · intro q hq
    rw [hdrop] at hq
    exact element_tracks hq

end Readers

/-! ### Where each function ends -/

/-- Where the functions end that are called with the pattern's bytes from index `i` on.  A
repetition is counted behind its brace, which is at `i`; an escape and a class are read behind
their first byte, and end behind the byte after that. -/
structure Advances (p : List Byte) (i : Nat) : Prop where
  atom : ∀ r, atom i (p.drop i) = .ok r → i < r.offset ∧ r.EndsIn p
  repetition : ∀ r, repetition i (p.drop i) = .ok r → i < r.offset ∧ r.EndsIn p
  counted : ∀ r, counted i (p.drop (i + 1)) = .ok r → i < r.offset ∧ r.EndsIn p
  escape : ∀ r, escape i (p.drop (i + 1)) = .ok r → i + 1 < r.offset ∧ r.EndsIn p
  characterClass : ∀ r, characterClass i (p.drop (i + 1)) = .ok r →
    i + 1 < r.offset ∧ r.EndsIn p
  concatenation : ∀ r, concatenation i (p.drop i) = .ok r → i ≤ r.offset ∧ r.EndsIn p ∧
    (r.offset = p.length ∨ p[r.offset]? = some Ascii.bar ∨ p[r.offset]? = some Ascii.closeParen)
  alternation : ∀ r, alternation i (p.drop i) = .ok r → i ≤ r.offset ∧ r.EndsIn p ∧
    (r.offset = p.length ∨ p[r.offset]? = some Ascii.closeParen)

section Ends

variable {p : List Byte} {i n : Nat} {α : Type} {r : Reading n α}

theorem Reading.BeganAt.advances (h : r.BeganAt p i) (hi : i ≤ p.length)
    (hlt : r.rest.length < (p.drop i).length) : i < r.offset ∧ r.EndsIn p :=
  ⟨h.lt_offset hlt, h.endsIn hi⟩

/-- Behind its first byte, which is there if anything is read at all. -/
theorem Reading.BeganAt.advances_succ (h : r.BeganAt p (i + 1))
    (hlt : r.rest.length < (p.drop (i + 1)).length) : i + 1 < r.offset ∧ r.EndsIn p := by
  apply h.advances _ hlt
  rw [List.length_drop] at hlt
  omega

theorem Reading.EndsIn.stops (h : r.EndsIn p) {s : Byte → Prop}
    (hstops : ∀ c, c ∈ r.rest.head? → s c) :
    r.offset = p.length ∨ ∃ c, p[r.offset]? = some c ∧ s c := by
  rcases Nat.eq_or_lt_of_le h.offset_le with hend | hlt
  · exact Or.inl hend
  · refine Or.inr ⟨p[r.offset], List.getElem?_eq_getElem hlt, hstops _ ?_⟩
    rw [h.rest_eq, List.drop_eq_getElem_cons hlt]
    rfl

end Ends

theorem advances {p : List Byte} {i : Nat} (hi : i ≤ p.length) : Advances p i where
  atom r h := (atom_beganAt h).advances hi r.shorter
  repetition r h := (repetition_beganAt h).advances hi r.shorter
  counted r h := by
    obtain ⟨hlt, hends⟩ := (counted_beganAt h).advances_succ r.shorter
    exact ⟨Nat.lt_of_succ_lt hlt, hends⟩
  escape r h := (escape_beganAt h).advances_succ r.shorter
  characterClass r h := (characterClass_beganAt h).advances_succ r.shorter
  concatenation r h := by
    have hbegan := concatenation_beganAt h
    refine ⟨hbegan.le_offset, hbegan.endsIn hi, ?_⟩
    rcases (hbegan.endsIn hi).stops fun c => concatenation_stops h with hend | ⟨c, hc, rfl | rfl⟩
    · exact Or.inl hend
    · exact Or.inr (Or.inl hc)
    · exact Or.inr (Or.inr hc)
  alternation r h := by
    have hbegan := alternation_beganAt h
    refine ⟨hbegan.le_offset, hbegan.endsIn hi, ?_⟩
    rcases (hbegan.endsIn hi).stops fun c => alternation_stops h with hend | ⟨c, hc, rfl⟩
    · exact Or.inl hend
    · exact Or.inr hc

/-! ### What is called -/

/-- The functions of the descent, and its loops. -/
inductive Stage
  | alternation
  /-- The loop over the branches of an alternation. -/
  | branches
  | concatenation
  /-- The loop over the parts of a concatenation. -/
  | parts
  | repetition
  | atom
  /-- The loop over the quantifiers of an operand. -/
  | quantifiers
  | counted
  /-- The loop over the digits of a count. -/
  | digits
  | characterClass
  /-- The loop over the elements of a class. -/
  | elements

/-- How deep a stage lies below the others that may begin at the same index. -/
def Stage.height : Stage → Nat
  | alternation => 5
  | branches => 4
  | concatenation => 3
  | parts => 2
  | repetition => 1
  | atom => 0
  | quantifiers => 2
  | counted => 1
  | digits => 0
  | characterClass => 1
  | elements => 0

/-- A function or a turn of a loop, and the index where it begins. -/
structure Call where
  stage : Stage
  index : Nat

/-- What the first call starts itself: calls of other functions, and its next turn if it is a
loop.  Functions that have no loop and call none of these are left out. -/
inductive Calls (p : List Byte) : Call → Call → Prop
  | branches {i : Nat} : Calls p ⟨.alternation, i⟩ ⟨.branches, i⟩
  | branch {i : Nat} : Calls p ⟨.branches, i⟩ ⟨.concatenation, i⟩
  | nextBranch {i : Nat} {r : Reading ((p.drop i).length + 1) Pattern}
      {bar : Reading (p.drop i).length Pattern} (read : concatenation i (p.drop i) = .ok r)
      (more : r.skip? Ascii.bar = some bar) : Calls p ⟨.branches, i⟩ ⟨.branches, bar.offset⟩
  | parts {i : Nat} : Calls p ⟨.concatenation, i⟩ ⟨.parts, i⟩
  | part {i : Nat} {b : Byte} (here : p[i]? = some b)
      (more : b ≠ Ascii.bar ∧ b ≠ Ascii.closeParen) : Calls p ⟨.parts, i⟩ ⟨.repetition, i⟩
  | nextPart {i : Nat} {r : Reading (p.drop i).length Pattern}
      (read : repetition i (p.drop i) = .ok r) : Calls p ⟨.parts, i⟩ ⟨.parts, r.offset⟩
  | operand {i : Nat} : Calls p ⟨.repetition, i⟩ ⟨.atom, i⟩
  | quantifiers {i : Nat} {r : Reading (p.drop i).length Pattern}
      (read : atom i (p.drop i) = .ok r) : Calls p ⟨.repetition, i⟩ ⟨.quantifiers, r.offset⟩
  | group {i : Nat} (here : p[i]? = some Ascii.openParen) :
      Calls p ⟨.atom, i⟩ ⟨.alternation, i + 1⟩
  | characterClass {i : Nat} (here : p[i]? = some Ascii.openBracket) :
      Calls p ⟨.atom, i⟩ ⟨.characterClass, i + 1⟩
  | counted {i : Nat} (here : p[i]? = some Ascii.openBrace) :
      Calls p ⟨.quantifiers, i⟩ ⟨.counted, i⟩
  | nextQuantifier {i : Nat} {q : Reading (p.drop i).length (Nat × Option Nat)}
      (read : quantifier i (p.drop i) = .ok (some q)) :
      Calls p ⟨.quantifiers, i⟩ ⟨.quantifiers, q.offset⟩
  | minimum {i : Nat} : Calls p ⟨.counted, i⟩ ⟨.digits, i + 1⟩
  | maximum {i : Nat} {r : Reading ((p.drop (i + 1)).length + 1) (Option Nat)}
      {comma : Reading (p.drop (i + 1)).length (Option Nat)}
      (read : number (i + 1) (p.drop (i + 1)) = .ok r)
      (more : r.skip? Ascii.comma = some comma) : Calls p ⟨.counted, i⟩ ⟨.digits, comma.offset⟩
  | nextDigit {i : Nat} {b : Byte} (here : p[i]? = some b) (more : b.isDigit = true) :
      Calls p ⟨.digits, i⟩ ⟨.digits, i + 1⟩
  | elements {i : Nat} : Calls p ⟨.characterClass, i⟩ ⟨.elements, i⟩
  | negated {i : Nat} (here : p[i]? = some Ascii.caret) :
      Calls p ⟨.characterClass, i⟩ ⟨.elements, i + 1⟩
  | nextElement {i : Nat} {b : Byte} {rest : List Byte} {r : Reading (rest.length + 1) ByteSet}
      (here : p.drop i = b :: rest) (read : element i b rest = .ok r) :
      Calls p ⟨.elements, i⟩ ⟨.elements, r.offset⟩

/-- What bounds the calls that can still follow each other. -/
def Call.weight (p : List Byte) (c : Call) : Nat :=
  6 * (p.drop c.index).length + c.stage.height

theorem Stage.height_le (s : Stage) : s.height ≤ 5 := by
  cases s <;> decide

section Weights

variable {p : List Byte} {i j n : Nat} {s t : Stage} {α : Type}

theorem weight_lt_of_drop_lt (h : (p.drop j).length < (p.drop i).length) :
    Call.weight p ⟨t, j⟩ < Call.weight p ⟨s, i⟩ := by
  have hheight := t.height_le
  simp only [Call.weight]
  omega

theorem weight_lt_of_height_lt (hle : (p.drop j).length ≤ (p.drop i).length)
    (hheight : t.height < s.height) : Call.weight p ⟨t, j⟩ < Call.weight p ⟨s, i⟩ := by
  simp only [Call.weight]
  omega

theorem Reading.BeganAt.weight_lt {r : Reading n α} (h : r.BeganAt p i)
    (hlt : r.rest.length < (p.drop i).length) :
    Call.weight p ⟨t, r.offset⟩ < Call.weight p ⟨s, i⟩ := by
  apply weight_lt_of_drop_lt
  rw [← h.rest_eq]
  exact hlt

theorem lt_length_of_getElem? {b : Byte} (h : p[i]? = some b) : i < p.length :=
  (List.getElem?_eq_some_iff.1 h).1

theorem length_drop_succ_lt {b : Byte} (h : p[i]? = some b) :
    (p.drop (i + 1)).length < (p.drop i).length := by
  have hi := lt_length_of_getElem? h
  simp only [List.length_drop]
  omega

theorem Reading.BeganAt.skip {b : Byte} {r : Reading (n + 1) α} {r' : Reading n α}
    (h : r.BeganAt p i) (hskip : r.skip? b = some r') : r'.BeganAt p i := by
  obtain ⟨read, hdrop, hoffset⟩ := h
  refine ⟨read ++ [b], ?_, ?_⟩
  · rw [hdrop, (rest_of_skip? hskip).1]
    simp
  · rw [offset_of_skip? hskip, hoffset]
    simp [Nat.add_assoc]

end Weights

/-- **Calls begin further on, or lower down.** -/
theorem Calls.weight_lt {p : List Byte} {c d : Call} (h : Calls p c d) :
    d.weight p < c.weight p := by
  cases h with
  | branches | branch | parts | operand | elements =>
      exact weight_lt_of_height_lt (Nat.le_refl _) (by decide)
  | part _ _ | counted _ =>
      exact weight_lt_of_height_lt (Nat.le_refl _) (by decide)
  | nextBranch read more =>
      exact ((concatenation_beganAt read).skip more).weight_lt (Reading.shorter _)
  | nextPart read =>
      exact (repetition_beganAt read).weight_lt (Reading.shorter _)
  | quantifiers read =>
      exact (atom_beganAt read).weight_lt (Reading.shorter _)
  | nextQuantifier read =>
      exact (quantifier_beganAt read).weight_lt (Reading.shorter _)
  | group here | characterClass here | negated here | nextDigit here _ =>
      exact weight_lt_of_drop_lt (length_drop_succ_lt here)
  | @minimum i =>
      apply weight_lt_of_height_lt _ (by decide)
      simp only [List.length_drop]
      omega
  | @maximum i r comma read more =>
      have hcomma := (number_beganAt read).skip more
      apply weight_lt_of_height_lt _ (by decide)
      have hlt := comma.shorter
      rw [← hcomma.rest_eq]
      simp only [List.length_drop] at hlt ⊢
      omega
  | nextElement here read =>
      apply (element_beganAt here read).weight_lt
      rw [here]
      exact Reading.shorter _

theorem calls_wellFounded (p : List Byte) : WellFounded fun d c => Calls p c d :=
  Subrelation.wf Calls.weight_lt (InvImage.wf (Call.weight p) Nat.lt_wfRel.wf)

/-- However calls follow each other, there are no more of them than the first one weighs. -/
theorem length_le_of_isChain {p : List Byte} {c : Call} {calls : List Call}
    (h : List.IsChain (Calls p) (c :: calls)) : calls.length ≤ c.weight p := by
  induction calls generalizing c with
  | nil =>
      exact Nat.zero_le _
  | cons d calls ih =>
      obtain ⟨hcall, hrest⟩ := List.isChain_cons_cons.1 h
      exact Nat.succ_le_of_lt (Nat.lt_of_le_of_lt (ih hrest) hcall.weight_lt)

/-- The index is one of the pattern's, and a count is read only where there is a brace. -/
structure Call.InBounds (p : List Byte) (c : Call) : Prop where
  index_le : c.index ≤ p.length
  index_lt : c.stage = .counted → c.index < p.length

theorem Calls.inBounds {p : List Byte} {c d : Call} (h : Calls p c d) (hc : c.InBounds p) :
    d.InBounds p := by
  cases h with
  | branches | branch | parts | operand | elements =>
      exact ⟨hc.index_le, nofun⟩
  | part _ _ =>
      exact ⟨hc.index_le, nofun⟩
  | counted here =>
      exact ⟨hc.index_le, fun _ => lt_length_of_getElem? here⟩
  | nextBranch read more =>
      exact ⟨(((concatenation_beganAt read).skip more).endsIn hc.index_le).offset_le, nofun⟩
  | nextPart read =>
      exact ⟨((repetition_beganAt read).endsIn hc.index_le).offset_le, nofun⟩
  | quantifiers read =>
      exact ⟨((atom_beganAt read).endsIn hc.index_le).offset_le, nofun⟩
  | nextQuantifier read =>
      exact ⟨((quantifier_beganAt read).endsIn hc.index_le).offset_le, nofun⟩
  | group here | characterClass here | negated here | nextDigit here _ =>
      exact ⟨lt_length_of_getElem? here, nofun⟩
  | minimum =>
      exact ⟨hc.index_lt rfl, nofun⟩
  | maximum read more =>
      exact ⟨(((number_beganAt read).skip more).endsIn (hc.index_lt rfl)).offset_le, nofun⟩
  | nextElement here read =>
      exact ⟨((element_beganAt here read).endsIn hc.index_le).offset_le, nofun⟩

theorem inBounds_of_calls {p : List Byte} {c d : Call}
    (calls : Relation.ReflTransGen (Calls p) c d) (hc : c.InBounds p) : d.InBounds p := by
  induction calls with
  | refl =>
      exact hc
  | tail _ call ih =>
      exact call.inBounds ih

/-! ### Every pattern -/

/-- **Reading a pattern advances and ends.** -/
theorem parse_advances (p : List Byte) :
    (∀ i ≤ p.length, Advances p i) ∧
    (WellFounded (fun d c => Calls p c d) ∧
      (∀ calls, List.IsChain (Calls p) (⟨.alternation, 0⟩ :: calls) →
        calls.length ≤ 6 * p.length + 5) ∧
      ∀ c, Relation.ReflTransGen (Calls p) ⟨.alternation, 0⟩ c → c.index ≤ p.length) ∧
    ∀ bytes : List Byte, (∀ offset, ReadsValues offset bytes) ∧
      (∀ v ∈ runningValues 0 bytes, v ≤ 2559) ∧
      (runningWords 0 bytes).map UInt32.toNat = runningValues 0 bytes := by
  refine ⟨fun i hi => advances hi, ⟨calls_wellFounded p, ?_, ?_⟩, ?_⟩
  · intro calls hchain
    exact length_le_of_isChain hchain
  · intro c calls
    have hstart : Call.InBounds p ⟨.alternation, 0⟩ := ⟨Nat.zero_le _, nofun⟩
    exact (inBounds_of_calls calls hstart).index_le
  · intro bytes
    exact ⟨fun offset => readsValues offset bytes, runningValues_le bytes (Nat.zero_le _),
      toNat_runningWords bytes (Nat.zero_le _)⟩

/-- In `(a|b)c` the first repetition ends behind the group, and the alternation in the group at
its closing parenthesis. -/
theorem parse_advances_group :
    (∃ r, repetition 0 [40, 97, 124, 98, 41, 99] = .ok r ∧
      0 < r.offset ∧ r.EndsIn [40, 97, 124, 98, 41, 99]) ∧
    ∃ r, alternation 1 [97, 124, 98, 41, 99] = .ok r ∧
      r.EndsIn [40, 97, 124, 98, 41, 99] ∧ r.rest = [41, 99] := by
  obtain ⟨hadvances, -⟩ := parse_advances [40, 97, 124, 98, 41, 99]
  have hrepetition : repetition 0 [40, 97, 124, 98, 41, 99] =
      .ok ⟨.choice [.literal [97], .literal [98]], 5, [99], by decide⟩ := by
    cbv
  have halternation : alternation 1 [97, 124, 98, 41, 99] =
      .ok ⟨.choice [.literal [97], .literal [98]], 4, [41, 99], by decide⟩ := by
    cbv
  exact ⟨⟨_, hrepetition, (hadvances 0 (by decide)).repetition _ hrepetition⟩,
    _, halternation, ((hadvances 1 (by decide)).alternation _ halternation).2.1, rfl⟩

end Pattern
end Munch
