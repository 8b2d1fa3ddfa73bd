import Munch.Proofs.Pattern.Completeness

/-!
# What an error of a pattern points at

While a pattern is read, the offset that is carried along is that of the bytes that
are still to be read.  Errors name the offset of a byte read before, and the byte there
is what the reason of the error speaks of: the bracket that is not closed, the brace
that opens no repetition, the first digit of a count.

**Invariant.**  `Tracks`: an answer leaves the pattern from its offset on, and an error
is explained by the byte at its offset.

**Results.**
* `counted_tracks`, `escape_tracks`, `element_tracks`, `characterClass_tracks`: the
  parts without recursion through groups.
* `alternation_stops`: a descent stops at a closing parenthesis or at the end, so that
  no byte is left over that a pattern could not explain.
* `alternation_tracks`: the descent, which looks for an operand only where a byte is
  left.
* `parse_error_explained`: what an error of a whole pattern points at.
-/

namespace Munch
namespace Pattern

/-! ### Explanations -/

/-- The word goes on with a count that is too large, written with at least one digit. -/
def BeginsLargeCount (w : List Byte) : Prop :=
  ∃ u rest, w = u ++ rest ∧ (∀ b ∈ u, b.isDigit = true) ∧ 255 < decimalValue u

/-- The word goes on with a range from `lo` to the smaller byte `hi`. -/
def BeginsReversedRange (w : List Byte) (lo hi : Byte) : Prop :=
  ∃ u v rest, w = u ++ Ascii.hyphen :: v ++ rest ∧ ClassMember u (.byte lo) ∧
    ClassMember v (.byte hi) ∧ hi < lo

/-- The reason speaks of the byte `b`, which stands between the other bytes of the
pattern. -/
def Reason.Explained (before : List Byte) (b : Byte) (after : List Byte) : Reason → Prop
  | unclosedGroup => b = Ascii.openParen
  | unbalancedClose => b = Ascii.closeParen
  | unclosedClass => b = Ascii.openBracket
  | emptyClass => b = Ascii.openBracket
  | missingOperand quantifier => b = quantifier ∧ isQuantifier b = true
  | malformedRepetition => b = Ascii.openBrace
  | invertedRepetition min max => b = Ascii.openBrace ∧ max < min
  | countTooLarge limit => limit = 255 ∧ b.isDigit = true ∧ BeginsLargeCount (b :: after) ∧
      (before.getLast? = some Ascii.openBrace ∨ before.getLast? = some Ascii.comma)
  | trailingBackslash => b = Ascii.backslash ∧ after = []
  | unknownEscape letter => b = Ascii.backslash ∧ after.head? = some letter
  | badHexEscape => b = Ascii.backslash ∧ after.head? = some Ascii.lowerX
  | invalidRangeEndpoint => b = Ascii.backslash ∧ ∃ letter ∈ after.head?, ∃ s, Shorthand letter s
  | reversedRange lo hi => BeginsReversedRange (b :: after) lo hi
  | patternEnded => False
  | unexpectedByte _ => False

/-- The error points at a byte of the pattern `p` that its reason speaks of. -/
def Explains (p : List Byte) (e : PatternError) : Prop :=
  ∃ before b after, p = before ++ b :: after ∧ before.length = e.offset ∧
    e.reason.Explained before b after

/-! ### Places in a pattern -/

section Places

variable {p : List Byte} {offset m n : Nat} {b : Byte} {w rest : List Byte} {α : Type}

/-- The bytes are those of the pattern `p` from `offset` on. -/
def Remains (p : List Byte) (offset : Nat) (bytes : List Byte) : Prop :=
  ∃ before, p = before ++ bytes ∧ before.length = offset

theorem Remains.append (h : Remains p offset (w ++ rest)) :
    Remains p (offset + w.length) rest := by
  obtain ⟨before, rfl, rfl⟩ := h
  exact ⟨before ++ w, (List.append_assoc _ _ _).symm, List.length_append⟩

theorem Remains.next (h : Remains p offset (b :: rest)) : Remains p (offset + 1) rest :=
  Remains.append (w := [b]) h

theorem Reading.offset_of_skip? {r : Reading (n + 1) α} {r' : Reading n α}
    (h : r.skip? b = some r') : r'.offset = r.offset + 1 := by
  obtain ⟨value, offset, rest, hshorter⟩ := r
  cases rest with
  | nil =>
      cases h
  | cons c rest =>
      simp only [skip?] at h
      split at h <;> cases h
      rfl

theorem Reading.remains_of_skip? {r : Reading (n + 1) α} {r' : Reading n α}
    (hskip : r.skip? b = some r') (h : Remains p r.offset r.rest) :
    Remains p r'.offset r'.rest := by
  rw [(rest_of_skip? hskip).1] at h
  rw [offset_of_skip? hskip]
  exact h.next

/-- An answer leaves the pattern `p` from its offset on, and an error is explained. -/
def Tracks (p : List Byte) : Except PatternError (Reading n α) → Prop
  | .ok r => Remains p r.offset r.rest
  | .error e => Explains p e

theorem Tracks.remains {result : Except PatternError (Reading n α)} {r : Reading n α}
    (h : Tracks p result) (heq : result = .ok r) : Remains p r.offset r.rest := by
  rw [heq] at h
  exact h

theorem Tracks.explains {result : Except PatternError (Reading n α)} {e : PatternError}
    (h : Tracks p result) (heq : result = .error e) : Explains p e := by
  rw [heq] at h
  exact h

/-- The byte at the front of what remains explains a reason that speaks of it alone. -/
theorem Remains.explains {reason : Reason} (h : Remains p offset (b :: rest))
    (hreason : ∀ before, reason.Explained before b rest) : Explains p ⟨offset, reason⟩ := by
  obtain ⟨before, rfl, rfl⟩ := h
  exact ⟨before, b, rest, rfl, rfl, hreason before⟩

end Places

/-! ### Quantifiers -/

section Quantifiers

variable {p : List Byte} {n offset : Nat} {bytes : List Byte} {α : Type}

theorem decimalValue_concat_digit {w : List Byte} {b : Byte} {d : Nat} (hd : b.digit? = some d) :
    decimalValue (w ++ [b]) = decimalValue w * 10 + d := by
  rw [(digit?_eq_some hd).2, decimalValue, List.foldl_append]
  rfl

/-- The digits read so far are `w`, behind the byte `c` in front of the count. -/
theorem digits_tracks {c : Byte} {w : List Byte} {start value : Nat}
    (h : Remains p n (c :: (w ++ bytes))) (hc : c = Ascii.openBrace ∨ c = Ascii.comma)
    (hstart : start = n + 1) (hoffset : offset = start + w.length)
    (hdigits : ∀ b ∈ w, b.isDigit = true) (hvalue : decimalValue w = value) :
    Tracks p (digits start value offset bytes) := by
  induction bytes generalizing w value offset with
  | nil =>
      rw [hoffset, hstart]
      exact h.next.append
  | cons b bytes ih =>
      rw [digits]
      split
      · rw [hoffset, hstart]
        exact h.next.append
      · rename_i d hd
        have hgrown := decimalValue_concat_digit (w := w) hd
        have hall : ∀ a ∈ w ++ [b], a.isDigit = true := by
          intro a ha
          rcases List.mem_append.1 ha with ha | ha
          · exact hdigits a ha
          · rw [List.mem_singleton.1 ha]
            exact (digit?_eq_some hd).1
        rw [hvalue] at hgrown
        split
        · have hrest : Tracks p (digits start (value * 10 + d) (offset + 1) bytes) := by
            apply ih (w := w ++ [b]) _ _ hall hgrown
            · simpa using h
            · simp [hoffset, Nat.add_assoc]
          split
          · rename_i e he
            exact hrest.explains he
          · rename_i r hr
            exact hrest.remains hr
        · rename_i hlarge
          obtain ⟨before, rfl, rfl⟩ := h
          -- The count begins with a digit read before, or with this one.
          obtain ⟨a, rest, hsplit, ha⟩ : ∃ a rest, w ++ b :: bytes = a :: rest ∧
              a.isDigit = true := by
            cases w with
            | nil => exact ⟨b, bytes, rfl, hall b (by simp)⟩
            | cons a w => exact ⟨a, w ++ b :: bytes, rfl, hdigits a List.mem_cons_self⟩
          refine ⟨before ++ [c], a, rest, by simp [hsplit], by simp [hstart], rfl, ha,
            ⟨w ++ [b], bytes, by simp [← hsplit], hall, ?_⟩, ?_⟩
          · rw [hgrown]
            exact Nat.lt_of_not_le hlarge
          · simpa using hc

theorem number_tracks {c : Byte} (h : Remains p n (c :: bytes))
    (hc : c = Ascii.openBrace ∨ c = Ascii.comma) : Tracks p (number (n + 1) bytes) := by
  unfold number
  split
  · have hdigits : Tracks p (digits (n + 1) 0 (n + 1) bytes) :=
      digits_tracks (w := []) h hc rfl rfl (by simp) rfl
    split
    · rename_i e he
      exact hdigits.explains he
    · rename_i r hr
      exact hdigits.remains hr
  · exact h.next

theorem counted_tracks (h : Remains p offset (Ascii.openBrace :: bytes)) :
    Tracks p (counted offset bytes) := by
  have hmalformed : Explains p ⟨offset, .malformedRepetition⟩ := h.explains fun _ => rfl
  have hnumber := number_tracks h (.inl rfl)
  unfold counted
  split
  · rename_i e he
    exact hnumber.explains he
  · rename_i first hfirst
    have hfirst := hnumber.remains hfirst
    split
    · exact hmalformed
    · rename_i min hmin
      split
      · split
        · exact hmalformed
        · rename_i r hr
          have hleft := Reading.remains_of_skip? hr hfirst
          exact hleft
      · rename_i comma hcomma
        rw [(Reading.rest_of_skip? hcomma).1] at hfirst
        have hnumber' := number_tracks hfirst (.inr rfl)
        rw [← Reading.offset_of_skip? hcomma] at hnumber'
        split
        · rename_i e he
          exact hnumber'.explains he
        · rename_i second hsecond
          split
          · exact hmalformed
          · rename_i r hr
            have hleft := Reading.remains_of_skip? hr (hnumber'.remains hsecond)
            split
            · exact hleft
            · split
              · exact hleft
              · rename_i hgreater
                exact h.explains fun _ => ⟨rfl, Nat.lt_of_not_le hgreater⟩

/-- If a quantifier is read, it leaves the pattern from its offset on. -/
def TracksIfAny (p : List Byte) : Except PatternError (Option (Reading n α)) → Prop
  | .ok none => True
  | .ok (some r) => Remains p r.offset r.rest
  | .error e => Explains p e

theorem quantifier_tracks (h : Remains p offset bytes) :
    TracksIfAny p (quantifier offset bytes) := by
  cases bytes with
  | nil =>
      trivial
  | cons b bytes =>
      rw [quantifier]
      split
      · exact h.next
      · split
        · exact h.next
        · split
          · exact h.next
          · split
            · rename_i hb
              rw [hb] at h
              have hcounted := counted_tracks h
              split
              · rename_i e he
                exact hcounted.explains he
              · rename_i r hr
                exact hcounted.remains hr
            · trivial

theorem quantified_tracks (operand : Pattern) {offset : Nat} {bytes : List Byte}
    (h : Remains p offset bytes) :
    Tracks p (quantified operand offset bytes) := by
  have hquantifier := quantifier_tracks h
  rw [quantified]
  split
  · rename_i e he
    rw [he] at hquantifier
    exact hquantifier
  · exact h
  · rename_i q hq
    rw [hq] at hquantifier
    have hrest : Tracks p (quantified (.repeated operand q.value.1 q.value.2) q.offset q.rest) :=
      quantified_tracks _ hquantifier
    split
    · rename_i e he
      exact hrest.explains he
    · rename_i r hr
      exact hrest.remains hr
termination_by bytes.length
decreasing_by exact Reading.shorter _

end Quantifiers

/-! ### Escapes and classes -/

section Classes

variable {p : List Byte} {offset : Nat} {bytes : List Byte} {b : Byte}

theorem hexEscape_tracks (h : Remains p offset (Ascii.backslash :: Ascii.lowerX :: bytes)) :
    Tracks p (hexEscape offset bytes) := by
  have hbad : Explains p ⟨offset, .badHexEscape⟩ := h.explains fun _ => ⟨rfl, rfl⟩
  unfold hexEscape
  split
  · split
    · exact h.next.next.next.next
    · exact hbad
  · exact hbad

theorem escape_tracks (h : Remains p offset (Ascii.backslash :: bytes)) :
    Tracks p (escape offset bytes) := by
  cases bytes with
  | nil =>
      exact h.explains fun _ => ⟨rfl, rfl⟩
  | cons b bytes =>
      rw [escape]
      split
      · rename_i hb
        rw [hb] at h
        have hhex := hexEscape_tracks h
        split
        · rename_i e he
          exact hhex.explains he
        · rename_i r hr
          exact hhex.remains hr
      · split
        · exact h.next.next
        · split
          · split
            · exact h.next.next
            · exact h.explains fun _ => ⟨rfl, rfl⟩
          · exact h.next.next

theorem member_tracks (h : Remains p offset (b :: bytes)) :
    Tracks p (member offset b bytes) := by
  unfold member
  split
  · rename_i hb
    rw [hb] at h
    have hescape := escape_tracks h
    split
    · rename_i e he
      exact hescape.explains he
    · rename_i r hr
      exact hescape.remains hr
  · exact h.next

/-- Only an escape stands for a set. -/
theorem ClassMember.eq_shorthand {w : List Byte} {s : ByteSet} (h : ClassMember w (.set s)) :
    ∃ letter, w = [Ascii.backslash, letter] ∧ Shorthand letter s := by
  cases h with
  | escaped hw =>
      cases hw with
      | shorthand hletter =>
          exact ⟨_, rfl, hletter⟩

/-- A set that is made an end of a range is to blame for it. -/
theorem Remains.explains_invalidRangeEndpoint {w : List Byte} {s : ByteSet}
    (h : Remains p offset (w ++ bytes)) (hw : ClassMember w (.set s)) :
    Explains p ⟨offset, .invalidRangeEndpoint⟩ := by
  obtain ⟨letter, rfl, hletter⟩ := hw.eq_shorthand
  exact h.explains fun _ => ⟨rfl, letter, rfl, s, hletter⟩

theorem element_tracks (h : Remains p offset (b :: bytes)) :
    Tracks p (element offset b bytes) := by
  have hmember := member_tracks h
  unfold element
  split
  · rename_i e he
    exact hmember.explains he
  · rename_i first hfirst
    have hremains := hmember.remains hfirst
    obtain ⟨u, hu, hlow⟩ := member_sound hfirst
    rw [hu] at h
    split
    · exact hremains
    · rename_i c more hend
      obtain ⟨hrest, -⟩ := rangeEnd?_eq_some hend
      rw [hrest] at hremains h
      split
      · rename_i s hs
        rw [hs] at hlow
        exact Remains.explains_invalidRangeEndpoint (w := b :: u) h hlow
      · rename_i lo hlo
        rw [hlo] at hlow
        have hmember' := member_tracks hremains.next
        split
        · rename_i e he
          exact hmember'.explains he
        · rename_i last hlast
          obtain ⟨v, hv, hhigh⟩ := member_sound hlast
          split
          · rename_i s hs
            rw [hs] at hhigh
            rw [hv] at hremains
            exact Remains.explains_invalidRangeEndpoint (w := c :: v) hremains.next hhigh
          · rename_i hi hhi
            rw [hhi] at hhigh
            split
            · exact hmember'.remains hlast
            · rename_i hgreater
              rw [hv] at h
              refine h.explains fun _ => ⟨b :: u, c :: v, last.rest, ?_, hlow, hhigh, ?_⟩
              · simp
              · exact UInt8.not_le.1 hgreater

/-- The class was opened by the bracket at `opening`, and `inside` is behind it. -/
theorem elements_tracks {opening : Nat} {inside : List Byte} (first : Bool) (set : ByteSet)
    {offset : Nat} {bytes : List Byte}
    (hopening : Remains p opening (Ascii.openBracket :: inside)) (h : Remains p offset bytes) :
    Tracks p (elements opening first set offset bytes) := by
  match bytes with
  | [] =>
      rw [elements]
      exact hopening.explains fun _ => rfl
  | b :: bytes =>
      have helement := element_tracks h
      rw [elements]
      split
      · exact h.next
      · split
        · rename_i e he
          exact helement.explains he
        · rename_i r hr
          have hrest := elements_tracks false (set.union r.value) hopening (helement.remains hr)
          split
          · rename_i e he
            exact hrest.explains he
          · rename_i r' hr'
            exact hrest.remains hr'
termination_by bytes.length
decreasing_by exact Reading.shorter _

theorem classBody_tracks (h : Remains p offset (Ascii.openBracket :: bytes)) :
    Tracks p (classBody offset bytes) := by
  cases bytes with
  | nil =>
      exact elements_tracks _ _ h h.next
  | cons b bytes =>
      rw [classBody]
      split
      · have helements : Tracks p (elements offset true .empty (offset + 2) bytes) :=
          elements_tracks _ _ h h.next.next
        split
        · rename_i e he
          exact helements.explains he
        · rename_i r hr
          have hleft := helements.remains hr
          exact hleft
      · exact elements_tracks _ _ h h.next

theorem characterClass_tracks (h : Remains p offset (Ascii.openBracket :: bytes)) :
    Tracks p (characterClass offset bytes) := by
  have hbody := classBody_tracks h
  unfold characterClass
  split
  · rename_i e he
    exact hbody.explains he
  · rename_i r hr
    split
    · exact h.explains fun _ => rfl
    · exact hbody.remains hr

end Classes

/-! ### The descent -/

section Descent

variable {p : List Byte}

mutual

theorem atom_tracks {offset : Nat} {bytes : List Byte} (hne : bytes ≠ [])
    (h : Remains p offset bytes) : Tracks p (atom offset bytes) := by
  match bytes with
  | [] =>
      exact absurd rfl hne
  | b :: bytes =>
      rw [atom]
      split
      · rename_i hb
        have halternation : Tracks p (alternation (offset + 1) bytes) := alternation_tracks h.next
        split
        · rename_i e he
          exact halternation.explains he
        · rename_i inner hinner
          split
          · exact h.explains fun _ => hb
          · rename_i r hr
            have hleft := Reading.remains_of_skip? hr (halternation.remains hinner)
            exact hleft
      · split
        · rename_i hb
          rw [hb] at h
          have hclass := characterClass_tracks h
          split
          · rename_i e he
            exact hclass.explains he
          · rename_i r hr
            exact hclass.remains hr
        · split
          · exact h.next
          · split
            · rename_i hb
              rw [hb] at h
              have hescape := escape_tracks h
              split
              · rename_i e he
                exact hescape.explains he
              · rename_i r hr
                exact hescape.remains hr
            · split
              · rename_i hquantifier
                exact h.explains fun _ => ⟨rfl, hquantifier⟩
              · exact h.next
termination_by (bytes.length, 0)

theorem repetition_tracks {offset : Nat} {bytes : List Byte} (hne : bytes ≠ [])
    (h : Remains p offset bytes) : Tracks p (repetition offset bytes) := by
  have hatom : Tracks p (atom offset bytes) := atom_tracks hne h
  rw [repetition]
  split
  · rename_i e he
    exact hatom.explains he
  · rename_i operand hoperand
    have hquantified := quantified_tracks operand.value (hatom.remains hoperand)
    split
    · rename_i e he
      exact hquantified.explains he
    · rename_i r hr
      exact hquantified.remains hr
termination_by (bytes.length, 1)

theorem repetitions_tracks {offset : Nat} {bytes : List Byte} (h : Remains p offset bytes) :
    Tracks p (repetitions offset bytes) := by
  match bytes with
  | [] =>
      rw [repetitions]
      exact h
  | b :: bytes =>
      have hrepetition : Tracks p (repetition offset (b :: bytes)) :=
        repetition_tracks (List.cons_ne_nil b bytes) h
      rw [repetitions]
      split
      · exact h
      · split
        · rename_i e he
          exact hrepetition.explains he
        · rename_i part hpart
          have hrest : Tracks p (repetitions part.offset part.rest) :=
            repetitions_tracks (hrepetition.remains hpart)
          split
          · rename_i e he
            exact hrest.explains he
          · rename_i r hr
            have hleft := hrest.remains hr
            exact hleft
termination_by (bytes.length, 2)
decreasing_by
  · exact Prod.Lex.right _ (Nat.lt_succ_self _)
  · exact Prod.Lex.left _ _ (Reading.shorter _)

theorem concatenation_tracks {offset : Nat} {bytes : List Byte} (h : Remains p offset bytes) :
    Tracks p (concatenation offset bytes) := by
  have hrepetitions : Tracks p (repetitions offset bytes) := repetitions_tracks h
  rw [concatenation]
  split
  · rename_i e he
    exact hrepetitions.explains he
  · rename_i r hr
    exact hrepetitions.remains hr
termination_by (bytes.length, 3)

theorem concatenations_tracks {offset : Nat} {bytes : List Byte} (h : Remains p offset bytes) :
    Tracks p (concatenations offset bytes) := by
  have hconcatenation : Tracks p (concatenation offset bytes) := concatenation_tracks h
  rw [concatenations]
  split
  · rename_i e he
    exact hconcatenation.explains he
  · rename_i branch hbranch
    split
    · exact hconcatenation.remains hbranch
    · rename_i bar hbar
      have hrest : Tracks p (concatenations bar.offset bar.rest) :=
        concatenations_tracks (Reading.remains_of_skip? hbar (hconcatenation.remains hbranch))
      split
      · rename_i e he
        exact hrest.explains he
      · rename_i r hr
        have hleft := hrest.remains hr
        exact hleft
termination_by (bytes.length, 4)
decreasing_by
  · exact Prod.Lex.right _ (Nat.lt_succ_self _)
  · exact Prod.Lex.left _ _ (Reading.shorter _)

theorem alternation_tracks {offset : Nat} {bytes : List Byte} (h : Remains p offset bytes) :
    Tracks p (alternation offset bytes) := by
  have hconcatenations : Tracks p (concatenations offset bytes) := concatenations_tracks h
  rw [alternation]
  split
  · rename_i e he
    exact hconcatenations.explains he
  · rename_i r hr
    exact hconcatenations.remains hr
termination_by (bytes.length, 5)

end

end Descent

/-! ### Where a descent stops -/

theorem repetitions_stops {offset : Nat} {bytes : List Byte} {c : Byte}
    {r : Reading (bytes.length + 1) (List Pattern)} (h : repetitions offset bytes = .ok r)
    (hc : c ∈ r.rest.head?) : c = Ascii.bar ∨ c = Ascii.closeParen := by
  match bytes with
  | [] =>
      rw [repetitions] at h
      cases h
      cases hc
  | b :: bytes =>
      rw [repetitions] at h
      split at h
      · rename_i hb
        cases h
        cases hc
        exact hb
      · split at h
        · cases h
        · rename_i part hpart
          split at h
          · cases h
          · rename_i r' hr'
            cases h
            exact repetitions_stops hr' hc
termination_by bytes.length
decreasing_by exact Reading.shorter _

theorem concatenation_stops {offset : Nat} {bytes : List Byte} {c : Byte}
    {r : Reading (bytes.length + 1) Pattern} (h : concatenation offset bytes = .ok r)
    (hc : c ∈ r.rest.head?) : c = Ascii.bar ∨ c = Ascii.closeParen := by
  rw [concatenation] at h
  split at h
  · cases h
  · rename_i r' hr'
    cases h
    exact repetitions_stops hr' hc

theorem concatenations_stops {offset : Nat} {bytes : List Byte} {c : Byte}
    {r : Reading (bytes.length + 1) (List Pattern)} (h : concatenations offset bytes = .ok r)
    (hc : c ∈ r.rest.head?) : c = Ascii.closeParen := by
  rw [concatenations] at h
  split at h
  · cases h
  · rename_i branch hbranch
    split at h
    · rename_i hbar
      cases h
      apply (concatenation_stops hbranch hc).resolve_left
      rintro rfl
      obtain ⟨rest, hrest⟩ := List.head?_eq_some_iff.1 hc
      rw [Reading.rest_map] at hrest
      obtain ⟨r', hr', -⟩ := Reading.skip?_eq_some hrest
      rw [hbar] at hr'
      cases hr'
    · rename_i bar hbar
      split at h
      · cases h
      · rename_i r' hr'
        cases h
        exact concatenations_stops hr' hc
termination_by bytes.length
decreasing_by exact Reading.shorter _

theorem alternation_stops {offset : Nat} {bytes : List Byte} {c : Byte}
    {r : Reading (bytes.length + 1) Pattern} (h : alternation offset bytes = .ok r)
    (hc : c ∈ r.rest.head?) : c = Ascii.closeParen := by
  rw [alternation] at h
  split at h
  · cases h
  · rename_i r' hr'
    cases h
    exact concatenations_stops hr' hc

/-! ### Whole patterns -/

theorem parse_tracks {p : List Byte} {e : PatternError} (h : parse p = .error e) :
    Explains p e := by
  have halternation : Tracks p (alternation 0 p) := alternation_tracks ⟨[], rfl, rfl⟩
  unfold parse at h
  split at h
  · rename_i e' he'
    cases h
    exact halternation.explains he'
  · rename_i r hr
    split at h
    · cases h
    · rename_i b rest hrest
      have hleft := halternation.remains hr
      rw [hrest] at hleft
      have hb : b = Ascii.closeParen := by
        apply alternation_stops hr
        rw [hrest]
        rfl
      rw [if_pos hb] at h
      cases h
      exact hleft.explains fun _ => hb

/-- The reasons that are never given are those whose message begins in this way. -/
theorem Reason.Explained.message_ne {before after : List Byte} {b : Byte} {reason : Reason}
    (h : reason.Explained before b after) :
    ¬"unexpected ".toList <+: reason.message.toList := by
  cases reason with
  | patternEnded => exact h.elim
  | unexpectedByte byte => exact h.elim
  | _ =>
      unfold message
      simp

/-- **An error points at its culprit.**  It names a byte of the pattern, and its reason
speaks of that byte; an operand is never missed at the end, and no byte is left over but
a closing parenthesis. -/
theorem parse_error_explained {p : List Byte} {e : PatternError} (h : parse p = .error e) :
    e.offset < p.length ∧ Explains p e ∧
    e.reason ≠ .patternEnded ∧ (∀ b, e.reason ≠ .unexpectedByte b) ∧
    ¬"unexpected ".toList <+: e.reason.message.toList := by
  obtain ⟨before, b, after, hp, hoffset, hreason⟩ := parse_tracks h
  refine ⟨?_, ⟨before, b, after, hp, hoffset, hreason⟩, ?_, ?_, hreason.message_ne⟩
  · rw [hp, ← hoffset, List.length_append, List.length_cons]
    omega
  · intro hended
    rw [hended] at hreason
    exact hreason
  · intro c hunexpected
    rw [hunexpected] at hreason
    exact hreason

/-- The count in `(a{2,300})` is at fault, not a brace or a parenthesis. -/
theorem parse_error_explained_count :
    parse [40, 97, 123, 50, 44, 51, 48, 48, 125, 41] = .error ⟨5, .countTooLarge 255⟩ ∧
    Explains [40, 97, 123, 50, 44, 51, 48, 48, 125, 41] ⟨5, .countTooLarge 255⟩ := by
  have h : parse [40, 97, 123, 50, 44, 51, 48, 48, 125, 41] =
      .error ⟨5, .countTooLarge 255⟩ := by cbv
  exact ⟨h, (parse_error_explained h).2.1⟩

end Pattern
end Munch
