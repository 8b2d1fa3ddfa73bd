import Munch.Proofs.Pattern.Soundness

/-!
# What is derived is read

The other direction: a word that a nonterminal derives is read by the function of
the nonterminal, whatever follows it.  Where a function reads on as long as it can,
what follows must not be something that it would read.

**Results.**
* `quantified_complete`, `escape_complete`, `characterClass_complete`: the parts
  without recursion through groups.
* `alternation_complete`: the descent, by recursion on the derivation.
* `parse_eq_ok_iff`: the whole patterns are the words of the grammar.
-/

namespace Munch
namespace Pattern

section Yields

variable {n : Nat} {α : Type}

/-- A value is read, and `rest` is left. -/
def Yields (result : Except PatternError (Reading n α)) (value : α) (rest : List Byte) : Prop :=
  ∃ r, result = .ok r ∧ r.value = value ∧ r.rest = rest

theorem Reading.skip?_eq_some {b : Byte} {r : Reading (n + 1) α} {rest : List Byte}
    (h : r.rest = b :: rest) : ∃ r', r.skip? b = some r' ∧ r'.value = r.value ∧ r'.rest = rest := by
  obtain ⟨value, offset, bytes, hshorter⟩ := r
  obtain rfl : bytes = b :: rest := h
  exact ⟨_, if_pos rfl, rfl, rfl⟩

theorem Reading.skip?_eq_none {b : Byte} {r : Reading (n + 1) α} (h : r.rest.head? ≠ some b) :
    r.skip? b = none := by
  cases hskip : r.skip? b with
  | none =>
      rfl
  | some r' =>
      rw [(rest_of_skip? hskip).1] at h
      exact absurd rfl h

end Yields

/-! ### Quantifiers -/

theorem le_foldl_appendDigit (w : List Byte) (n : Nat) : n ≤ w.foldl appendDigit n := by
  induction w generalizing n with
  | nil =>
      exact Nat.le_refl n
  | cons b w ih =>
      have := ih (appendDigit n b)
      rw [List.foldl_cons]
      unfold appendDigit at this ⊢
      omega

theorem digits_complete (start offset : Nat) {value : Nat} {bytes rest w : List Byte}
    (hdigits : ∀ b ∈ w, b.isDigit = true) (hbound : w.foldl appendDigit value ≤ 255)
    (hrest : ∀ b ∈ rest.head?, b.isDigit = false) (hbytes : bytes = w ++ rest) :
    Yields (digits start value offset bytes) (w.foldl appendDigit value) rest := by
  induction w generalizing value offset bytes with
  | nil =>
      obtain rfl : bytes = rest := hbytes
      cases bytes with
      | nil =>
          exact ⟨_, rfl, rfl, rfl⟩
      | cons b bytes =>
          have hb : b.digit? = none := by
            rw [Byte.digit?, hrest b rfl]
            rfl
          rw [digits, hb]
          exact ⟨_, rfl, rfl, rfl⟩
  | cons b w ih =>
      subst hbytes
      have hb : b.digit? = some (b.toNat - 0x30) := by
        rw [Byte.digit?, hdigits b List.mem_cons_self]
        rfl
      have hle : value * 10 + (b.toNat - 0x30) ≤ maxCount :=
        Nat.le_trans (le_foldl_appendDigit w (appendDigit value b)) hbound
      have hothers : Yields (digits start (value * 10 + (b.toNat - 0x30)) (offset + 1) (w ++ rest))
          (w.foldl appendDigit (appendDigit value b)) rest :=
        ih (offset + 1) (fun a ha => hdigits a (List.mem_cons_of_mem b ha)) hbound rfl
      obtain ⟨r, hr, hvalue, hleft⟩ := hothers
      rw [List.cons_append, digits, hb]
      simp only [if_pos hle]
      rw [hr]
      exact ⟨_, rfl, hvalue, hleft⟩

theorem number_complete (offset : Nat) {n : Nat} {bytes rest u : List Byte} (hu : Numeral u n)
    (hrest : ∀ b ∈ rest.head?, b.isDigit = false) (hbytes : bytes = u ++ rest) :
    Yields (number offset bytes) (some n) rest := by
  obtain ⟨hne, hdigits, hvalue, hbound⟩ := hu
  have hhead : bytes.head?.any Byte.isDigit = true := by
    cases u with
    | nil =>
        exact absurd rfl hne
    | cons b u =>
        subst hbytes
        exact hdigits b List.mem_cons_self
  rw [← hvalue] at hbound
  have hread : Yields (digits offset 0 offset bytes) (decimalValue u) rest :=
    digits_complete offset offset hdigits hbound hrest hbytes
  obtain ⟨r, hr, hr', hleft⟩ := hread
  rw [number, if_pos hhead, hr]
  exact ⟨_, rfl, congrArg some (hr'.trans hvalue), hleft⟩

theorem number_absent (offset : Nat) {bytes rest : List Byte}
    (hrest : ∀ b ∈ rest.head?, b.isDigit = false) (hbytes : bytes = rest) :
    Yields (number offset bytes) none rest := by
  subst hbytes
  have hhead : ¬bytes.head?.any Byte.isDigit = true := by
    intro hany
    obtain ⟨b, hb, hdigit⟩ := (Option.any_eq_true _ _).1 hany
    rw [hrest b hb] at hdigit
    cases hdigit
  rw [number, if_neg hhead]
  exact ⟨_, rfl, rfl, rfl⟩

/-- The part of a counted quantifier behind its brace. -/
theorem counted_complete (offset : Nat) {min : Nat} {max : Option Nat} {bytes rest w : List Byte}
    (hw : Quantifier (Ascii.openBrace :: w) min max) (hbytes : bytes = w ++ rest) :
    Yields (counted offset bytes) (min, max) rest := by
  generalize hword : Ascii.openBrace :: w = word at hw
  cases hw with
  | star | plus | question =>
      exact absurd (List.cons.inj hword).1 (by decide)
  | @exactly u n hu =>
      obtain rfl : w = u ++ [Ascii.closeBrace] := (List.cons.inj hword).2
      rw [List.append_assoc] at hbytes
      obtain ⟨first, hfirst, hvalue, hleft⟩ :=
        number_complete (offset + 1) hu (by rintro _ ⟨⟩; rfl) hbytes
      have hcomma : first.skip? Ascii.comma = none :=
        Reading.skip?_eq_none (by rw [hleft]; rintro ⟨⟩)
      obtain ⟨r, hclose, -, hrest⟩ := Reading.skip?_eq_some hleft
      simp only [counted, hfirst, hvalue, hcomma, hclose]
      exact ⟨_, rfl, rfl, hrest⟩
  | @atLeast u n hu =>
      obtain rfl : w = u ++ [Ascii.comma, Ascii.closeBrace] := (List.cons.inj hword).2
      rw [List.append_assoc] at hbytes
      obtain ⟨first, hfirst, hvalue, hleft⟩ :=
        number_complete (offset + 1) hu (by rintro _ ⟨⟩; rfl) hbytes
      obtain ⟨comma, hcomma, -, hcommaLeft⟩ := Reading.skip?_eq_some hleft
      obtain ⟨second, hsecond, hnone, hsecondLeft⟩ :=
        number_absent comma.offset (by rintro _ ⟨⟩; rfl) hcommaLeft
      obtain ⟨r, hclose, hr, hrest⟩ := Reading.skip?_eq_some hsecondLeft
      rw [hnone] at hr
      simp only [counted, hfirst, hvalue, hcomma, hsecond, hclose, hr]
      exact ⟨_, rfl, by simp [hr], hrest⟩
  | @between u v n m hu hv hle =>
      obtain rfl : w = u ++ Ascii.comma :: v ++ [Ascii.closeBrace] := (List.cons.inj hword).2
      have hsplit : bytes = u ++ Ascii.comma :: (v ++ Ascii.closeBrace :: rest) := by
        simp [hbytes]
      obtain ⟨first, hfirst, hvalue, hleft⟩ :=
        number_complete (offset + 1) hu (by rintro _ ⟨⟩; rfl) hsplit
      obtain ⟨comma, hcomma, -, hcommaLeft⟩ := Reading.skip?_eq_some hleft
      obtain ⟨second, hsecond, hmax, hsecondLeft⟩ :=
        number_complete comma.offset hv (by rintro _ ⟨⟩; rfl) hcommaLeft
      obtain ⟨r, hclose, hr, hrest⟩ := Reading.skip?_eq_some hsecondLeft
      rw [hmax] at hr
      simp only [counted, hfirst, hvalue, hcomma, hsecond, hclose, hr, if_pos hle]
      exact ⟨_, rfl, by simp [hr], hrest⟩

theorem quantifier_complete (offset : Nat) {min : Nat} {max : Option Nat}
    {bytes rest w : List Byte} (hw : Quantifier w min max) (hbytes : bytes = w ++ rest) :
    ∃ r, quantifier offset bytes = .ok (some r) ∧ r.value = (min, max) ∧ r.rest = rest := by
  have hbrace : ∀ {u : List Byte}, Quantifier (Ascii.openBrace :: u) min max →
      bytes = Ascii.openBrace :: u ++ rest →
      ∃ r, quantifier offset bytes = .ok (some r) ∧ r.value = (min, max) ∧ r.rest = rest := by
    rintro u hu rfl
    obtain ⟨r, hr, hvalue, hleft⟩ := counted_complete offset hu rfl
    refine ⟨r.widen (Nat.le_succ _), ?_, hvalue, hleft⟩
    show quantifier offset (Ascii.openBrace :: (u ++ rest)) = _
    rw [quantifier, hr]
    rfl
  cases hw with
  | star | plus | question =>
      subst hbytes
      exact ⟨_, rfl, rfl, rfl⟩
  | exactly hu =>
      exact hbrace (.exactly hu) hbytes
  | atLeast hu =>
      exact hbrace (.atLeast hu) hbytes
  | between hu hv hle =>
      exact hbrace (.between hu hv hle) hbytes

theorem quantifier_absent (offset : Nat) {bytes : List Byte}
    (hbytes : ∀ b ∈ bytes.head?, isQuantifier b = false) :
    quantifier offset bytes = .ok none := by
  cases bytes with
  | nil =>
      rfl
  | cons b bytes =>
      have hb := hbytes b rfl
      simp only [isQuantifier, Bool.or_eq_false_iff, beq_eq_false_iff_ne] at hb
      simp [quantifier, hb]

theorem quantified_complete (offset : Nat) {p q : Pattern} {bytes rest w : List Byte}
    (hw : Quantifiers p w q) (hrest : ∀ b ∈ rest.head?, isQuantifier b = false)
    (hbytes : bytes = w ++ rest) :
    Yields (quantified p offset bytes) q rest := by
  induction hw generalizing offset bytes with
  | none p =>
      obtain rfl : bytes = rest := hbytes
      rw [quantified, quantifier_absent offset hrest]
      exact ⟨_, rfl, rfl, rfl⟩
  | more hu _ ih =>
      rw [List.append_assoc] at hbytes
      obtain ⟨r, hr, hvalue, hleft⟩ := quantifier_complete offset hu hbytes
      obtain ⟨r', hr', hvalue', hleft'⟩ := ih r.offset hleft
      rw [quantified, hr]
      simp only [hvalue, hr']
      exact ⟨_, rfl, hvalue', hleft'⟩

/-! ### Escapes and classes -/

theorem escape_complete (offset : Nat) {m : Member} {bytes rest w : List Byte}
    (hw : Escaped w m) (hbytes : bytes = w ++ rest) : Yields (escape offset bytes) m rest := by
  subst hbytes
  cases hw with
  | control hc =>
      cases hc <;> exact ⟨_, rfl, rfl, rfl⟩
  | hex hhi hlo =>
      simp only [List.cons_append, List.nil_append, escape, if_true, hexEscape, hhi, hlo]
      exact ⟨_, rfl, rfl, rfl⟩
  | shorthand hs =>
      cases hs <;> exact ⟨_, rfl, rfl, rfl⟩
  | @literal b halnum =>
      have hx : b ≠ Ascii.lowerX := by
        rintro rfl
        cases halnum
      have hcontrol : controlByte? b = none := by
        rw [Option.eq_none_iff_forall_ne_some]
        intro c hc
        rw [controlByte?_eq_some] at hc
        cases hc <;> cases halnum
      simp only [List.cons_append, List.nil_append, escape, if_neg hx, hcontrol, halnum]
      exact ⟨_, rfl, rfl, rfl⟩

theorem member_complete (offset : Nat) {m : Member} {b : Byte} {bytes rest w : List Byte}
    (hw : ClassMember w m) (hbytes : b :: bytes = w ++ rest) :
    Yields (member offset b bytes) m rest := by
  cases hw with
  | plain hb =>
      obtain ⟨rfl, rfl⟩ := List.cons.inj hbytes
      rw [member, if_neg hb]
      exact ⟨_, rfl, rfl, rfl⟩
  | escaped hw =>
      obtain ⟨rfl, hsplit⟩ := List.cons.inj hbytes
      obtain ⟨r, hr, hvalue, hleft⟩ := escape_complete offset hw hsplit
      rw [member, if_pos rfl, hr]
      exact ⟨_, rfl, hvalue, hleft⟩

theorem element_complete_single (offset : Nat) {m : Member} {b : Byte} {bytes rest u : List Byte}
    (hu : ClassMember u m) (hfollow : ¬Hyphenated rest) (hbytes : b :: bytes = u ++ rest) :
    Yields (element offset b bytes) m.toSet rest := by
  obtain ⟨first, hfirst, rfl, hleft⟩ := member_complete offset hu hbytes
  have hend : rangeEnd? first.rest = none := by
    rwa [hleft, rangeEnd?_eq_none_iff]
  rw [element, hfirst]
  simp only
  split
  · exact ⟨_, rfl, rfl, hleft⟩
  · rename_i c more hsome
    rw [hend] at hsome
    cases hsome

theorem element_complete_range (offset : Nat) {lo hi b : Byte} {bytes rest u v : List Byte}
    (hu : ClassMember u (.byte lo)) (hfollow : Hyphenated (Ascii.hyphen :: v ++ rest))
    (hv : ClassMember v (.byte hi)) (hle : lo ≤ hi)
    (hbytes : b :: bytes = u ++ Ascii.hyphen :: v ++ rest) :
    Yields (element offset b bytes) (ByteSet.range lo hi) rest := by
  rw [List.append_assoc] at hbytes
  obtain ⟨first, hfirst, hlo, hleft⟩ := member_complete offset hu hbytes
  obtain ⟨c, more, hmore, hc⟩ := hfollow
  obtain hmore : v ++ rest = c :: more := (List.cons.inj hmore).2
  have hend : rangeEnd? first.rest = some (c, more) := by
    rw [hleft, List.cons_append, hmore]
    exact if_pos ⟨rfl, hc⟩
  obtain ⟨last, hlast, hhi, hlastLeft⟩ := member_complete (first.offset + 1) hv hmore.symm
  rw [element, hfirst]
  simp only
  split
  · rename_i hnone
    rw [hend] at hnone
    cases hnone
  · rename_i c' more' hsome
    obtain ⟨rfl, rfl⟩ : c = c' ∧ more = more' := by
      rw [hend] at hsome
      cases hsome
      exact ⟨rfl, rfl⟩
    simp only [hlo, hlast, hhi, if_pos hle]
    exact ⟨_, rfl, rfl, hlastLeft⟩

/-- An element that may begin here is not taken for the closing bracket. -/
theorem not_closing_of_mayBegin {first : Bool} {u v bytes : List Byte} {m : Member} {b : Byte}
    (hbegin : MayBegin first u) (hu : ClassMember u m) (hbytes : b :: bytes = u ++ v) :
    ¬(b = Ascii.closeBracket ∧ first = false) := by
  rintro ⟨rfl, rfl⟩
  cases u with
  | nil =>
      exact hu.ne_nil rfl
  | cons c u =>
      obtain ⟨rfl, -⟩ := List.cons.inj hbytes
      cases hbegin rfl

/-- One element, and then the others. -/
theorem elements_cons {opening offset : Nat} {first : Bool} {set t value : ByteSet} {b : Byte}
    {bytes more rest : List Byte} (hopen : ¬(b = Ascii.closeBracket ∧ first = false))
    (hitem : Yields (element offset b bytes) t more)
    (hothers : ∀ (offset : Nat) {bytes : List Byte}, bytes = more →
      Yields (elements opening false (set.union t) offset bytes) value rest) :
    Yields (elements opening first set offset (b :: bytes)) value rest := by
  obtain ⟨item, hitem, rfl, hleft⟩ := hitem
  obtain ⟨r, hr, hvalue, hrest⟩ := hothers item.offset hleft
  rw [elements, if_neg hopen, hitem]
  simp only [hr]
  exact ⟨_, rfl, hvalue, hrest⟩

theorem elements_complete (opening offset : Nat) {first : Bool} {set s : ByteSet}
    {bytes rest w : List Byte} (hw : Elements first w s)
    (hbytes : bytes = w ++ Ascii.closeBracket :: rest) :
    Yields (elements opening first set offset bytes) (set.union s) rest := by
  induction hw generalizing set offset bytes with
  | none =>
      subst hbytes
      rw [List.nil_append, elements, if_pos ⟨rfl, rfl⟩]
      exact ⟨_, rfl, (ByteSet.union_empty set).symm, rfl⟩
  | @single first u v m s hbegin hu hfollow _ ih =>
      rw [List.append_assoc] at hbytes
      cases bytes with
      | nil =>
          exact absurd hbytes.symm (by simp [hu.ne_nil])
      | cons b bytes =>
          rw [← hyphenated_append_iff] at hfollow
          rw [← ByteSet.union_assoc]
          exact elements_cons (not_closing_of_mayBegin hbegin hu hbytes)
            (element_complete_single offset hu hfollow hbytes) (fun offset _ h => ih offset h)
  | @range first u v w lo hi s hbegin hu hfollow hv hle _ ih =>
      rw [List.append_assoc] at hbytes
      cases bytes with
      | nil =>
          exact absurd hbytes.symm (by simp)
      | cons b bytes =>
          rw [← hyphenated_append_iff, List.append_assoc] at hfollow
          rw [← ByteSet.union_assoc]
          have hopen := not_closing_of_mayBegin hbegin hu (hbytes.trans (List.append_assoc _ _ _))
          exact elements_cons hopen (element_complete_range offset hu hfollow hv hle hbytes)
            (fun offset _ h => ih offset h)

theorem classBody_plain (offset : Nat) {bytes : List Byte}
    (h : bytes.head? ≠ some Ascii.caret) :
    classBody offset bytes = elements offset true .empty (offset + 1) bytes := by
  cases bytes with
  | nil =>
      rfl
  | cons b bytes =>
      exact if_neg fun hb => h (congrArg some hb)

theorem characterClass_complete (offset : Nat) {s : ByteSet} {bytes rest w : List Byte}
    (hw : Class w s) (hbytes : Ascii.openBracket :: bytes = w ++ rest) :
    Yields (characterClass offset bytes) s rest := by
  have hbody : ∀ {t : ByteSet}, t ≠ .empty → Yields (classBody offset bytes) t rest →
      Yields (characterClass offset bytes) t rest := by
    rintro t hempty ⟨r, hr, rfl, hleft⟩
    have hempty : ¬r.value.isEmpty = true := mt ByteSet.isEmpty_eq_true_iff.1 hempty
    rw [characterClass, hr]
    simp only [if_neg hempty]
    exact ⟨r, rfl, rfl, hleft⟩
  cases hw with
  | @plain w _ hw hcaret hempty =>
      have hsplit : bytes = w ++ Ascii.closeBracket :: rest := by
        simpa using hbytes
      have hhead : bytes.head? ≠ some Ascii.caret := by
        rw [hsplit]
        cases w with
        | nil =>
            rintro ⟨⟩
        | cons b w =>
            exact hcaret
      apply hbody hempty
      rw [classBody_plain offset hhead, ← ByteSet.empty_union s]
      exact elements_complete offset (offset + 1) hw hsplit
  | @negated w s hw hempty =>
      obtain rfl : bytes = Ascii.caret :: (w ++ Ascii.closeBracket :: rest) := by
        simpa using hbytes
      apply hbody hempty
      have hread : Yields (elements offset true .empty (offset + 2)
          (w ++ Ascii.closeBracket :: rest)) (ByteSet.empty.union s) rest :=
        elements_complete offset (offset + 2) hw rfl
      obtain ⟨r, hr, hvalue, hleft⟩ := hread
      rw [ByteSet.empty_union] at hvalue
      rw [classBody, if_pos rfl, hr]
      exact ⟨_, rfl, congrArg ByteSet.negate hvalue, hleft⟩

/-! ### The descent -/

theorem sequenceOf_of_two_le {ps : List Pattern} (h : 2 ≤ ps.length) :
    sequenceOf ps = .sequence ps := by
  match ps with
  | [] | [_] =>
      simp at h
  | _ :: _ :: _ =>
      rfl

theorem choiceOf_of_two_le {ps : List Pattern} (h : 2 ≤ ps.length) :
    choiceOf ps = .choice ps := by
  match ps with
  | [] | [_] =>
      simp at h
  | _ :: _ :: _ =>
      rfl

theorem Repetition.front {w : List Byte} {p : Pattern} (h : Repetition w p) :
    ∃ b rest, w = b :: rest ∧ isQuantifier b = false ∧ b ≠ Ascii.bar ∧ b ≠ Ascii.closeParen := by
  obtain ⟨hatom, -⟩ := h
  obtain ⟨b, rest, rfl, hb⟩ := hatom.front
  exact ⟨b, _, rfl, hb⟩

/-- What follows a repetition is not read as one more quantifier. -/
theorem Repetitions.no_quantifier {v rest : List Byte} {ps : List Pattern}
    (h : Repetitions v ps)
    (hrest : ∀ b ∈ rest.head?, b = Ascii.bar ∨ b = Ascii.closeParen) :
    ∀ b ∈ (v ++ rest).head?, isQuantifier b = false := by
  cases h with
  | none =>
      intro b hb
      rcases hrest b hb with rfl | rfl <;> rfl
  | more hu _ =>
      obtain ⟨b, rest, rfl, hb, -, -⟩ := hu.front
      rintro _ ⟨⟩
      exact hb

theorem repetitions_none (offset : Nat) {bytes rest : List Byte}
    (hrest : ∀ b ∈ rest.head?, b = Ascii.bar ∨ b = Ascii.closeParen) (hbytes : bytes = rest) :
    Yields (repetitions offset bytes) [] rest := by
  subst hbytes
  cases bytes with
  | nil =>
      rw [repetitions]
      exact ⟨_, rfl, rfl, rfl⟩
  | cons b bytes =>
      rw [repetitions, if_pos (hrest b rfl)]
      exact ⟨_, rfl, rfl, rfl⟩

theorem concatenation_of_yields {offset : Nat} {bytes rest : List Byte} {ps : List Pattern}
    (h : Yields (repetitions offset bytes) ps rest) :
    Yields (concatenation offset bytes) (sequenceOf ps) rest := by
  obtain ⟨r, hr, rfl, hleft⟩ := h
  rw [concatenation, hr]
  exact ⟨_, rfl, rfl, hleft⟩

theorem alternation_of_yields {offset : Nat} {bytes rest : List Byte} {ps : List Pattern}
    (h : Yields (concatenations offset bytes) ps rest) :
    Yields (alternation offset bytes) (choiceOf ps) rest := by
  obtain ⟨r, hr, rfl, hleft⟩ := h
  rw [alternation, hr]
  exact ⟨_, rfl, rfl, hleft⟩

mutual

theorem atom_complete : ∀ {w : List Byte} {p : Pattern}, Atom w p →
    ∀ (offset : Nat) {bytes rest : List Byte}, bytes = w ++ rest →
    Yields (atom offset bytes) p rest
  | _, _, @Atom.group w p hw, offset, bytes, rest, hbytes => by
      obtain rfl : bytes = Ascii.openParen :: (w ++ Ascii.closeParen :: rest) := by
        simpa using hbytes
      have hread : Yields (alternation (offset + 1) (w ++ Ascii.closeParen :: rest)) p
          (Ascii.closeParen :: rest) :=
        alternation_complete hw (offset + 1) (by rintro _ ⟨⟩; rfl) rfl
      obtain ⟨inner, hinner, rfl, hleft⟩ := hread
      obtain ⟨r, hr, hvalue, hrest⟩ := Reading.skip?_eq_some hleft
      rw [atom, if_pos rfl, hinner]
      simp only [hr]
      exact ⟨_, rfl, hvalue, hrest⟩
  | _, _, .brackets hw, offset, bytes, rest, hbytes => by
      have hopen : ∃ more, bytes = Ascii.openBracket :: more := by
        subst hbytes
        cases hw <;> exact ⟨_, rfl⟩
      obtain ⟨more, rfl⟩ := hopen
      obtain ⟨r, hr, rfl, hleft⟩ := characterClass_complete offset hw hbytes
      rw [atom, if_neg (by decide), if_pos rfl, hr]
      exact ⟨_, rfl, rfl, hleft⟩
  | _, _, .dot, offset, bytes, rest, hbytes => by
      subst hbytes
      rw [List.cons_append, atom, if_neg (by decide), if_neg (by decide), if_pos rfl]
      exact ⟨_, rfl, rfl, rfl⟩
  | _, _, @Atom.escape w m hw, offset, bytes, rest, hbytes => by
      obtain rfl : bytes = Ascii.backslash :: (w ++ rest) := hbytes
      have hread : Yields (escape offset (w ++ rest)) m rest := escape_complete offset hw rfl
      obtain ⟨r, hr, rfl, hleft⟩ := hread
      rw [atom, if_neg (by decide), if_neg (by decide), if_neg (by decide), if_pos rfl, hr]
      exact ⟨_, rfl, rfl, hleft⟩
  | _, _, @Atom.literal b hb, offset, bytes, rest, hbytes => by
      obtain rfl : bytes = b :: rest := hbytes
      simp only [special, List.mem_cons, List.not_mem_nil, or_false, not_or] at hb
      have hquantifier : isQuantifier b = false := by
        simp [isQuantifier, hb]
      simp only [atom, hb, hquantifier, if_false]
      exact ⟨_, rfl, rfl, rfl⟩

theorem repetition_complete : ∀ {w : List Byte} {p : Pattern}, Repetition w p →
    ∀ (offset : Nat) {bytes rest : List Byte}, (∀ b ∈ rest.head?, isQuantifier b = false) →
    bytes = w ++ rest → Yields (repetition offset bytes) p rest
  | _, _, .mk hu hv, offset, bytes, rest, hrest, hbytes => by
      rw [List.append_assoc] at hbytes
      obtain ⟨operand, hoperand, hvalue, hleft⟩ := atom_complete hu offset hbytes
      obtain ⟨r, hr, hvalue', hleft'⟩ := quantified_complete operand.offset hv hrest hleft
      rw [repetition, hoperand]
      simp only [hvalue, hr]
      exact ⟨_, rfl, hvalue', hleft'⟩

theorem repetitions_complete : ∀ {w : List Byte} {ps : List Pattern}, Repetitions w ps →
    ∀ (offset : Nat) {bytes rest : List Byte},
    (∀ b ∈ rest.head?, b = Ascii.bar ∨ b = Ascii.closeParen) → bytes = w ++ rest →
    Yields (repetitions offset bytes) ps rest
  | _, _, .none, offset, bytes, rest, hrest, hbytes => repetitions_none offset hrest hbytes
  | _, _, .more hu hv, offset, bytes, rest, hrest, hbytes => by
      rw [List.append_assoc] at hbytes
      have hfront : ∃ b more, bytes = b :: more ∧ b ≠ Ascii.bar ∧ b ≠ Ascii.closeParen := by
        obtain ⟨b, more, rfl, -, hb⟩ := hu.front
        exact ⟨b, _, hbytes, hb⟩
      obtain ⟨b, more, rfl, hbar, hclose⟩ := hfront
      obtain ⟨part, hpart, rfl, hleft⟩ :=
        repetition_complete hu offset (hv.no_quantifier hrest) hbytes
      obtain ⟨r, hr, rfl, hleft'⟩ := repetitions_complete hv part.offset hrest hleft
      rw [repetitions, if_neg (not_or.2 ⟨hbar, hclose⟩), hpart]
      simp only [hr]
      exact ⟨_, rfl, rfl, hleft'⟩

theorem concatenation_complete : ∀ {w : List Byte} {p : Pattern}, Concatenation w p →
    ∀ (offset : Nat) {bytes rest : List Byte},
    (∀ b ∈ rest.head?, b = Ascii.bar ∨ b = Ascii.closeParen) → bytes = w ++ rest →
    Yields (concatenation offset bytes) p rest
  | _, _, .none, offset, bytes, rest, hrest, hbytes =>
      concatenation_of_yields (repetitions_none offset hrest hbytes)
  | _, _, .one hw, offset, bytes, rest, hrest, hbytes =>
      concatenation_of_yields (repetitions_complete hw offset hrest hbytes)
  | _, _, .many hw hlength, offset, bytes, rest, hrest, hbytes => by
      rw [← sequenceOf_of_two_le hlength]
      exact concatenation_of_yields (repetitions_complete hw offset hrest hbytes)

theorem concatenations_complete : ∀ {w : List Byte} {ps : List Pattern}, Branches w ps →
    ∀ (offset : Nat) {bytes rest : List Byte}, (∀ b ∈ rest.head?, b = Ascii.closeParen) →
    bytes = w ++ rest → Yields (concatenations offset bytes) ps rest
  | _, _, .last hw, offset, bytes, rest, hrest, hbytes => by
      obtain ⟨branch, hbranch, rfl, hleft⟩ :=
        concatenation_complete hw offset (fun b hb => .inr (hrest b hb)) hbytes
      have hbar : branch.skip? Ascii.bar = none := by
        apply Reading.skip?_eq_none
        rw [hleft]
        intro hhead
        cases hrest _ hhead
      rw [concatenations, hbranch]
      simp only [hbar]
      exact ⟨_, rfl, rfl, hleft⟩
  | _, _, .more hu hv, offset, bytes, rest, hrest, hbytes => by
      rw [List.append_assoc] at hbytes
      obtain ⟨branch, hbranch, rfl, hleft⟩ :=
        concatenation_complete hu offset (by rintro _ ⟨⟩; exact .inl rfl) hbytes
      obtain ⟨bar, hbar, -, hbarLeft⟩ := Reading.skip?_eq_some hleft
      obtain ⟨r, hr, rfl, hleft'⟩ := concatenations_complete hv bar.offset hrest hbarLeft
      rw [concatenations, hbranch]
      simp only [hbar, hr]
      exact ⟨_, rfl, rfl, hleft'⟩

theorem alternation_complete : ∀ {w : List Byte} {p : Pattern}, Alternation w p →
    ∀ (offset : Nat) {bytes rest : List Byte}, (∀ b ∈ rest.head?, b = Ascii.closeParen) →
    bytes = w ++ rest → Yields (alternation offset bytes) p rest
  | _, _, .one hw, offset, bytes, rest, hrest, hbytes =>
      alternation_of_yields (concatenations_complete hw offset hrest hbytes)
  | _, _, .many hw hlength, offset, bytes, rest, hrest, hbytes => by
      rw [← choiceOf_of_two_le hlength]
      exact alternation_of_yields (concatenations_complete hw offset hrest hbytes)

end

theorem parse_sound {bytes : List Byte} {p : Pattern} (h : parse bytes = .ok p) :
    Alternation bytes p := by
  unfold parse at h
  split at h
  · cases h
  · rename_i r hr
    obtain ⟨w, hbytes, hw⟩ := alternation_sound hr
    split at h
    · rename_i hrest
      cases h
      rw [hrest, List.append_nil] at hbytes
      subst hbytes
      exact hw
    · split at h <;> cases h

theorem parse_complete {bytes : List Byte} {p : Pattern} (h : Alternation bytes p) :
    parse bytes = .ok p := by
  obtain ⟨r, hr, rfl, hrest⟩ :=
    alternation_complete h 0 (by rintro _ ⟨⟩) (List.append_nil bytes).symm
  rw [parse, hr]
  simp only [hrest]

/-- **A pattern is read exactly as the grammar derives it.** -/
theorem parse_eq_ok_iff (bytes : List Byte) (p : Pattern) :
    parse bytes = .ok p ↔ Alternation bytes p :=
  ⟨parse_sound, parse_complete⟩

end Pattern
end Munch
