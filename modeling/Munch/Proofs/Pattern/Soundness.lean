import Munch.Proofs.ByteSet
import Munch.Proofs.Pattern.Grammar

/-!
# What is read is derived

Each function of the descent answers with a value that its nonterminal derives from
the bytes it took.  The recursion is that of the functions: on what is left, and for
equal lengths on how deep the nonterminal stands in the grammar.

**Results.**
* `counted_sound`, `quantified_sound`, `escape_sound`, `characterClass_sound`: the
  parts without recursion through groups.
* `alternation_sound`: the descent.
-/

namespace Munch
namespace Pattern

section Readings

variable {m n : Nat} {α β : Type}

@[simp] theorem Reading.value_map (f : α → β) (r : Reading m α) : (r.map f).value = f r.value :=
  rfl

@[simp] theorem Reading.rest_map (f : α → β) (r : Reading m α) : (r.map f).rest = r.rest :=
  rfl

@[simp] theorem Reading.value_widen (r : Reading m α) (h : m ≤ n) :
    (r.widen h).value = r.value :=
  rfl

theorem eq_append_append {bytes more rest u v : List Byte} (h : bytes = u ++ more)
    (hmore : more = v ++ rest) : bytes = u ++ v ++ rest := by
  rw [h, hmore, List.append_assoc]

theorem Reading.rest_of_skip? {b : Byte} {r : Reading (n + 1) α} {r' : Reading n α}
    (h : r.skip? b = some r') : r.rest = b :: r'.rest ∧ r'.value = r.value := by
  obtain ⟨value, offset, rest, hshorter⟩ := r
  cases rest with
  | nil =>
      cases h
  | cons c rest =>
      simp only [skip?] at h
      split at h
      · rename_i hc
        cases h
        exact ⟨by rw [hc], rfl⟩
      · cases h

end Readings

/-! ### Quantifiers -/

theorem digit?_eq_some {b : Byte} {d : Nat} (h : b.digit? = some d) :
    b.isDigit = true ∧ d = b.toNat - 0x30 := by
  unfold Byte.digit? at h
  split at h
  · rename_i hdigit
    cases h
    exact ⟨hdigit, rfl⟩
  · cases h

theorem digit?_eq_none {b : Byte} (h : b.digit? = none) : b.isDigit = false := by
  unfold Byte.digit? at h
  split at h
  · cases h
  · rename_i hdigit
    simpa using hdigit

theorem digits_sound {start value offset : Nat} {bytes : List Byte}
    {r : Reading (bytes.length + 1) Nat} (h : digits start value offset bytes = .ok r) :
    ∃ w, bytes = w ++ r.rest ∧ (∀ b ∈ w, b.isDigit = true) ∧ r.value = w.foldl appendDigit value ∧
      (w ≠ [] → r.value ≤ 255) ∧ ∀ b ∈ r.rest.head?, b.isDigit = false := by
  induction bytes generalizing value offset with
  | nil =>
      cases h
      exact ⟨[], rfl, by simp, rfl, by simp, by simp⟩
  | cons b bytes ih =>
      rw [digits] at h
      split at h
      · rename_i hnone
        cases h
        refine ⟨[], rfl, by simp, rfl, by simp, ?_⟩
        rintro _ ⟨⟩
        exact digit?_eq_none hnone
      · rename_i d hd
        obtain ⟨hdigit, rfl⟩ := digit?_eq_some hd
        split at h
        · rename_i hle
          split at h
          · cases h
          · rename_i r' hr'
            cases h
            obtain ⟨w, hbytes, hdigits, hvalue, hbound, hrest⟩ := ih hr'
            refine ⟨b :: w, congrArg (b :: ·) hbytes, List.forall_mem_cons.2 ⟨hdigit, hdigits⟩,
              hvalue, ?_, hrest⟩
            intro _
            by_cases hw : w = []
            · subst hw
              rw [Reading.value_widen, hvalue]
              exact hle
            · exact hbound hw
        · cases h

theorem rest_of_number {offset : Nat} {bytes : List Byte}
    {r : Reading (bytes.length + 1) (Option Nat)} (h : number offset bytes = .ok r)
    (hnone : r.value = none) : r.rest = bytes := by
  unfold number at h
  split at h
  · split at h
    · cases h
    · cases h
      cases hnone
  · cases h
    rfl

theorem number_sound {offset n : Nat} {bytes : List Byte}
    {r : Reading (bytes.length + 1) (Option Nat)} (h : number offset bytes = .ok r)
    (hvalue : r.value = some n) : ∃ u, bytes = u ++ r.rest ∧ Numeral u n := by
  unfold number at h
  split at h
  · rename_i hhead
    split at h
    · cases h
    · rename_i r' hr'
      cases h
      cases hvalue
      obtain ⟨u, hbytes, hdigits, hvalue, hbound, hrest⟩ := digits_sound hr'
      have hu : u ≠ [] := by
        rintro rfl
        rw [hbytes, List.nil_append] at hhead
        obtain ⟨b, hb, hdigit⟩ := (Option.any_eq_true _ _).1 hhead
        rw [hrest b hb] at hdigit
        cases hdigit
      exact ⟨u, hbytes, hu, hdigits, hvalue.symm, hbound hu⟩
  · cases h
    cases hvalue

/-- The part of a counted quantifier behind its brace. -/
theorem counted_sound {offset : Nat} {bytes : List Byte}
    {r : Reading bytes.length (Nat × Option Nat)} (h : counted offset bytes = .ok r) :
    ∃ w, bytes = w ++ r.rest ∧ Quantifier (Ascii.openBrace :: w) r.value.1 r.value.2 := by
  unfold counted at h
  split at h
  · cases h
  · rename_i first hfirst
    split at h
    · cases h
    · rename_i min hmin
      obtain ⟨u, hbytes, hu⟩ := number_sound hfirst hmin
      split at h
      · split at h
        · cases h
        · rename_i r' hclose
          cases h
          obtain ⟨hrest, -⟩ := Reading.rest_of_skip? hclose
          refine ⟨u ++ [Ascii.closeBrace], ?_, .exactly hu⟩
          calc bytes = u ++ first.rest := hbytes
            _ = u ++ [Ascii.closeBrace] ++ r'.rest := by simp [hrest]
      · rename_i comma hcomma
        obtain ⟨hcommaRest, -⟩ := Reading.rest_of_skip? hcomma
        split at h
        · cases h
        · rename_i second hsecond
          split at h
          · cases h
          · rename_i r' hclose
            obtain ⟨hrest, hvalue⟩ := Reading.rest_of_skip? hclose
            split at h
            · rename_i hmax
              cases h
              have hsame := rest_of_number hsecond (hvalue.symm.trans hmax)
              refine ⟨u ++ [Ascii.comma, Ascii.closeBrace], ?_, ?_⟩
              · calc bytes = u ++ first.rest := hbytes
                  _ = u ++ Ascii.comma :: second.rest := by rw [hcommaRest, hsame]
                  _ = u ++ [Ascii.comma, Ascii.closeBrace] ++ r'.rest := by simp [hrest]
              · rw [Reading.value_widen, Reading.value_map, hmax]
                exact .atLeast hu
            · rename_i max hmax
              split at h
              · rename_i hle
                cases h
                obtain ⟨v, hsplit, hv⟩ := number_sound hsecond (hvalue.symm.trans hmax)
                refine ⟨u ++ Ascii.comma :: v ++ [Ascii.closeBrace], ?_, ?_⟩
                · calc bytes = u ++ first.rest := hbytes
                    _ = u ++ Ascii.comma :: comma.rest := by rw [hcommaRest]
                    _ = u ++ Ascii.comma :: (v ++ second.rest) :=
                      congrArg (u ++ Ascii.comma :: ·) hsplit
                    _ = u ++ Ascii.comma :: v ++ [Ascii.closeBrace] ++ r'.rest := by simp [hrest]
                · rw [Reading.value_widen, Reading.value_map, hmax]
                  exact .between hu hv hle
              · cases h

theorem quantifier_sound {offset : Nat} {bytes : List Byte}
    {r : Reading bytes.length (Nat × Option Nat)} (h : quantifier offset bytes = .ok (some r)) :
    ∃ w, bytes = w ++ r.rest ∧ Quantifier w r.value.1 r.value.2 := by
  cases bytes with
  | nil =>
      cases h
  | cons b bytes =>
      rw [quantifier] at h
      split at h
      · rename_i hb
        cases h
        exact ⟨[b], rfl, hb ▸ .star⟩
      · split at h
        · rename_i hb
          cases h
          exact ⟨[b], rfl, hb ▸ .plus⟩
        · split at h
          · rename_i hb
            cases h
            exact ⟨[b], rfl, hb ▸ .question⟩
          · split at h
            · rename_i hb
              split at h
              · cases h
              · rename_i r' hcounted
                cases h
                obtain ⟨w, hbytes, hw⟩ := counted_sound hcounted
                exact ⟨b :: w, congrArg (b :: ·) hbytes, hb ▸ hw⟩
            · cases h

theorem quantified_sound {operand : Pattern} {offset : Nat} {bytes : List Byte}
    {r : Reading (bytes.length + 1) Pattern} (h : quantified operand offset bytes = .ok r) :
    ∃ w, bytes = w ++ r.rest ∧ Quantifiers operand w r.value := by
  rw [quantified] at h
  split at h
  · cases h
  · cases h
    exact ⟨[], rfl, .none operand⟩
  · rename_i q hq
    split at h
    · cases h
    · rename_i r' hr'
      cases h
      obtain ⟨u, hbytes, hu⟩ := quantifier_sound hq
      obtain ⟨v, hrest, hv⟩ := quantified_sound hr'
      exact ⟨u ++ v, eq_append_append hbytes hrest, .more hu hv⟩
termination_by bytes.length
decreasing_by exact Reading.shorter _

/-! ### Escapes and classes -/

theorem controlByte?_eq_some {b c : Byte} : controlByte? b = some c ↔ Control b c := by
  constructor
  · intro h
    unfold controlByte? at h
    split at h <;> cases h <;> constructor
  · intro h
    cases h <;> rfl

theorem shorthand?_eq_some {b : Byte} {s : ByteSet} :
    ByteSet.shorthand? b = some s ↔ Shorthand b s := by
  constructor
  · intro h
    unfold ByteSet.shorthand? at h
    split at h <;> cases h <;> constructor
  · intro h
    cases h <;> rfl

theorem hexEscape_sound {offset : Nat} {bytes : List Byte} {r : Reading bytes.length Byte}
    (h : hexEscape offset bytes = .ok r) :
    ∃ w, bytes = w ++ r.rest ∧ Escaped (Ascii.lowerX :: w) (.byte r.value) := by
  unfold hexEscape at h
  split at h
  · rename_i hi lo rest
    split at h
    · rename_i a b ha hb
      cases h
      exact ⟨[hi, lo], rfl, .hex ha hb⟩
    · cases h
  · cases h

theorem escape_sound {offset : Nat} {bytes : List Byte} {r : Reading bytes.length Member}
    (h : escape offset bytes = .ok r) :
    ∃ w, bytes = w ++ r.rest ∧ Escaped w r.value := by
  cases bytes with
  | nil =>
      cases h
  | cons b bytes =>
      rw [escape] at h
      split at h
      · rename_i hb
        split at h
        · cases h
        · rename_i r' hhex
          cases h
          obtain ⟨w, hbytes, hw⟩ := hexEscape_sound hhex
          exact ⟨b :: w, congrArg (b :: ·) hbytes, hb ▸ hw⟩
      · split at h
        · rename_i c hc
          cases h
          exact ⟨[b], rfl, .control (controlByte?_eq_some.1 hc)⟩
        · split at h
          · split at h
            · rename_i s hs
              cases h
              exact ⟨[b], rfl, .shorthand (shorthand?_eq_some.1 hs)⟩
            · cases h
          · rename_i halnum
            cases h
            exact ⟨[b], rfl, .literal (by simpa using halnum)⟩

theorem member_sound {offset : Nat} {b : Byte} {bytes : List Byte}
    {r : Reading (bytes.length + 1) Member} (h : member offset b bytes = .ok r) :
    ∃ w, bytes = w ++ r.rest ∧ ClassMember (b :: w) r.value := by
  unfold member at h
  split at h
  · rename_i hb
    split at h
    · cases h
    · rename_i r' hescape
      cases h
      obtain ⟨w, hbytes, hw⟩ := escape_sound hescape
      exact ⟨w, hbytes, hb ▸ .escaped hw⟩
  · rename_i hb
    cases h
    exact ⟨[], rfl, .plain hb⟩

theorem rangeEnd?_eq_some {bytes rest : List Byte} {b : Byte}
    (h : rangeEnd? bytes = some (b, rest)) :
    bytes = Ascii.hyphen :: b :: rest ∧ b ≠ Ascii.closeBracket := by
  unfold rangeEnd? at h
  split at h
  · rename_i hyphen c more
    split at h
    · rename_i hrange
      cases h
      exact ⟨by rw [hrange.1], hrange.2⟩
    · cases h
  · cases h

theorem rangeEnd?_eq_none_iff {bytes : List Byte} :
    rangeEnd? bytes = none ↔ ¬Hyphenated bytes := by
  constructor
  · rintro h ⟨b, rest, rfl, hb⟩
    simp [rangeEnd?, hb] at h
  · intro h
    cases hend : rangeEnd? bytes with
    | none =>
        rfl
    | some found =>
        obtain ⟨hbytes, hb⟩ := rangeEnd?_eq_some hend
        exact absurd ⟨_, _, hbytes, hb⟩ h

/-- What stands behind the closing bracket does not matter to a hyphen in front of it. -/
theorem hyphenated_append_iff {v rest : List Byte} :
    Hyphenated (v ++ Ascii.closeBracket :: rest) ↔ Hyphenated (v ++ [Ascii.closeBracket]) := by
  have hne : Ascii.closeBracket ≠ Ascii.hyphen := by decide
  match v with
  | [] =>
      simp [Hyphenated, hne]
  | [c] =>
      simp [Hyphenated]
  | c :: d :: v =>
      simp [Hyphenated]

/-- An element is a single member or a range, as what follows it demands. -/
theorem element_sound {offset : Nat} {b : Byte} {bytes : List Byte}
    {r : Reading (bytes.length + 1) ByteSet} (h : element offset b bytes = .ok r) :
    (∃ u m, bytes = u ++ r.rest ∧ ClassMember (b :: u) m ∧ ¬Hyphenated r.rest ∧
      r.value = m.toSet) ∨
    ∃ u v lo hi, bytes = u ++ Ascii.hyphen :: v ++ r.rest ∧ ClassMember (b :: u) (.byte lo) ∧
      Hyphenated (Ascii.hyphen :: v ++ r.rest) ∧ ClassMember v (.byte hi) ∧ lo ≤ hi ∧
      r.value = ByteSet.range lo hi := by
  unfold element at h
  split at h
  · cases h
  · rename_i first hfirst
    obtain ⟨u, hbytes, hu⟩ := member_sound hfirst
    split at h
    · rename_i hend
      cases h
      exact .inl ⟨u, first.value, hbytes, hu, rangeEnd?_eq_none_iff.1 hend, rfl⟩
    · rename_i c more hend
      obtain ⟨hrest, hc⟩ := rangeEnd?_eq_some hend
      split at h
      · cases h
      · rename_i lo hlo
        rw [hlo] at hu
        split at h
        · cases h
        · rename_i last hlast
          obtain ⟨v, hmore, hv⟩ := member_sound hlast
          split at h
          · cases h
          · rename_i hi hhi
            rw [hhi] at hv
            split at h
            · rename_i hle
              cases h
              refine .inr ⟨u, c :: v, lo, hi, ?_, hu, ⟨c, v ++ last.rest, rfl, hc⟩, hv, hle, rfl⟩
              exact eq_append_append hbytes
                (hrest.trans (congrArg (Ascii.hyphen :: c :: ·) hmore))
            · cases h

theorem elements_sound {opening : Nat} {first : Bool} {set : ByteSet} {offset : Nat}
    {bytes : List Byte} {r : Reading bytes.length ByteSet}
    (h : elements opening first set offset bytes = .ok r) :
    ∃ w s, bytes = w ++ Ascii.closeBracket :: r.rest ∧ Elements first w s ∧
      r.value = set.union s := by
  fun_induction elements opening first set offset bytes with
  | case1 first set offset =>
      cases h
  | case2 first set offset b bytes hclose =>
      obtain ⟨rfl, rfl⟩ := hclose
      cases h
      exact ⟨[], .empty, rfl, .none, (ByteSet.union_empty set).symm⟩
  | case3 first set offset b bytes hopen e hitem =>
      cases h
  | case4 first set offset b bytes hopen item hitem e hrest ih =>
      cases h
  | case5 first set offset b bytes hopen item hitem r' hr' ih =>
      cases h
      obtain ⟨w, s, hrest, hw, hvalue⟩ := ih hr'
      rw [ByteSet.union_assoc] at hvalue
      have hbegin : ∀ u, MayBegin first (b :: u) := by
        intro u hu
        cases first with
        | false =>
            exact absurd ⟨Option.some.inj hu, rfl⟩ hopen
        | true =>
            rfl
      rcases element_sound hitem with ⟨u, m, hbytes, hu, hfollow, hset⟩ |
        ⟨u, v, lo, hi, hbytes, hu, hfollow, hv, hle, hset⟩
      · rw [hset] at hvalue
        refine ⟨b :: u ++ w, _, ?_, .single (hbegin u) hu ?_ hw, hvalue⟩
        · exact congrArg (b :: ·) (eq_append_append hbytes hrest)
        · rwa [hrest, hyphenated_append_iff] at hfollow
      · rw [hset] at hvalue
        refine ⟨b :: u ++ Ascii.hyphen :: v ++ w, _, ?_, .range (hbegin u) hu ?_ hv hle hw, hvalue⟩
        · exact congrArg (b :: ·) (eq_append_append hbytes hrest)
        · rw [hrest, ← List.append_assoc, hyphenated_append_iff] at hfollow
          exact hfollow

theorem classBody_sound {offset : Nat} {bytes : List Byte} {r : Reading bytes.length ByteSet}
    (h : classBody offset bytes = .ok r) :
    (∃ w, bytes = w ++ Ascii.closeBracket :: r.rest ∧ Elements true w r.value ∧
      w.head? ≠ some Ascii.caret) ∨
    ∃ w s, bytes = Ascii.caret :: w ++ Ascii.closeBracket :: r.rest ∧ Elements true w s ∧
      r.value = s.negate := by
  cases bytes with
  | nil =>
      rw [classBody, elements] at h
      cases h
  | cons b bytes =>
      rw [classBody] at h
      split at h
      · rename_i hb
        split at h
        · cases h
        · rename_i r' hr'
          cases h
          obtain ⟨w, s, hbytes, hw, hvalue⟩ := elements_sound hr'
          rw [ByteSet.empty_union] at hvalue
          exact .inr ⟨w, s, hb ▸ congrArg (b :: ·) hbytes, hw, congrArg ByteSet.negate hvalue⟩
      · rename_i hb
        obtain ⟨w, s, hbytes, hw, hvalue⟩ := elements_sound h
        rw [ByteSet.empty_union] at hvalue
        refine .inl ⟨w, hbytes, hvalue ▸ hw, ?_⟩
        intro hcaret
        cases w with
        | nil =>
            cases hcaret
        | cons c w =>
            obtain ⟨rfl, -⟩ := List.cons.inj hbytes
            exact hb (Option.some.inj hcaret)

theorem characterClass_sound {offset : Nat} {bytes : List Byte}
    {r : Reading bytes.length ByteSet} (h : characterClass offset bytes = .ok r) :
    ∃ w, bytes = w ++ r.rest ∧ Class (Ascii.openBracket :: w) r.value := by
  unfold characterClass at h
  split at h
  · cases h
  · rename_i r' hr'
    split at h
    · cases h
    · rename_i hempty
      cases h
      rw [ByteSet.isEmpty_eq_true_iff] at hempty
      rcases classBody_sound hr' with ⟨w, hbytes, hw, hcaret⟩ | ⟨w, s, hbytes, hw, hvalue⟩
      · refine ⟨w ++ [Ascii.closeBracket], ?_, .plain hw hcaret hempty⟩
        exact hbytes.trans (by simp)
      · rw [hvalue] at hempty ⊢
        refine ⟨Ascii.caret :: w ++ [Ascii.closeBracket], ?_, .negated hw hempty⟩
        exact hbytes.trans (by simp)

/-! ### The descent -/

theorem concatenation_of_repetitions {w : List Byte} {ps : List Pattern}
    (h : Repetitions w ps) : Concatenation w (sequenceOf ps) := by
  match ps with
  | [] =>
      cases h
      exact .none
  | [p] =>
      exact .one h
  | p :: q :: ps =>
      exact .many h (by simp)

theorem alternation_of_branches {w : List Byte} {ps : List Pattern}
    (h : Branches w ps) : Alternation w (choiceOf ps) := by
  match ps with
  | [] =>
      cases h
  | [p] =>
      exact .one h
  | p :: q :: ps =>
      exact .many h (by simp)

theorem not_mem_special {b : Byte} (hparen : b ≠ Ascii.openParen) (hbracket : b ≠ Ascii.openBracket)
    (hdot : b ≠ Ascii.dot) (hbackslash : b ≠ Ascii.backslash) (hquantifier : isQuantifier b = false)
    (hbar : b ≠ Ascii.bar) (hclose : b ≠ Ascii.closeParen) : b ∉ special := by
  simp only [isQuantifier, Bool.or_eq_false_iff, beq_eq_false_iff_ne] at hquantifier
  simp [special, hparen, hbracket, hdot, hbackslash, hquantifier, hbar, hclose]

mutual

theorem atom_sound {offset : Nat} {bytes : List Byte} {r : Reading bytes.length Pattern}
    (h : atom offset bytes = .ok r)
    (hstart : ∀ b ∈ bytes.head?, b ≠ Ascii.bar ∧ b ≠ Ascii.closeParen) :
    ∃ w, bytes = w ++ r.rest ∧ Atom w r.value := by
  match bytes with
  | [] =>
      rw [atom] at h
      cases h
  | b :: bytes =>
      rw [atom] at h
      split at h
      · rename_i hb
        split at h
        · cases h
        · rename_i inner hinner
          split at h
          · cases h
          · rename_i r' hclose
            cases h
            obtain ⟨w, hbytes, hw⟩ := alternation_sound hinner
            obtain ⟨hrest, hvalue⟩ := Reading.rest_of_skip? hclose
            refine ⟨b :: w ++ [Ascii.closeParen], ?_, ?_⟩
            · calc b :: bytes = b :: (w ++ inner.rest) := congrArg (b :: ·) hbytes
                _ = b :: w ++ [Ascii.closeParen] ++ r'.rest := by simp [hrest]
            · rw [Reading.value_widen, hvalue, hb]
              exact .group hw
      · rename_i hparen
        split at h
        · rename_i hb
          split at h
          · cases h
          · rename_i r' hclass
            cases h
            obtain ⟨w, hbytes, hw⟩ := characterClass_sound hclass
            exact ⟨b :: w, congrArg (b :: ·) hbytes, hb ▸ .brackets hw⟩
        · rename_i hbracket
          split at h
          · rename_i hb
            cases h
            exact ⟨[b], rfl, hb ▸ .dot⟩
          · rename_i hdot
            split at h
            · rename_i hb
              split at h
              · cases h
              · rename_i r' hescape
                cases h
                obtain ⟨w, hbytes, hw⟩ := escape_sound hescape
                exact ⟨b :: w, congrArg (b :: ·) hbytes, hb ▸ .escape hw⟩
            · rename_i hbackslash
              split at h
              · cases h
              · rename_i hquantifier
                cases h
                obtain ⟨hbar, hclose⟩ := hstart b rfl
                exact ⟨[b], rfl, .literal (not_mem_special hparen hbracket hdot hbackslash
                  (by simpa using hquantifier) hbar hclose)⟩
termination_by (bytes.length, 0)

theorem repetition_sound {offset : Nat} {bytes : List Byte} {r : Reading bytes.length Pattern}
    (h : repetition offset bytes = .ok r)
    (hstart : ∀ b ∈ bytes.head?, b ≠ Ascii.bar ∧ b ≠ Ascii.closeParen) :
    ∃ w, bytes = w ++ r.rest ∧ Repetition w r.value := by
  rw [repetition] at h
  split at h
  · cases h
  · rename_i operand hatom
    split at h
    · cases h
    · rename_i r' hr'
      cases h
      obtain ⟨u, hbytes, hu⟩ := atom_sound hatom hstart
      obtain ⟨v, hrest, hv⟩ := quantified_sound hr'
      exact ⟨u ++ v, eq_append_append hbytes hrest, .mk hu hv⟩
termination_by (bytes.length, 1)

theorem repetitions_sound {offset : Nat} {bytes : List Byte}
    {r : Reading (bytes.length + 1) (List Pattern)} (h : repetitions offset bytes = .ok r) :
    ∃ w, bytes = w ++ r.rest ∧ Repetitions w r.value := by
  match bytes with
  | [] =>
      rw [repetitions] at h
      cases h
      exact ⟨[], rfl, .none⟩
  | b :: bytes =>
      rw [repetitions] at h
      split at h
      · cases h
        exact ⟨[], rfl, .none⟩
      · rename_i hb
        split at h
        · cases h
        · rename_i part hpart
          split at h
          · cases h
          · rename_i r' hr'
            cases h
            have hstart : ∀ c ∈ (b :: bytes).head?, c ≠ Ascii.bar ∧ c ≠ Ascii.closeParen := by
              rintro c ⟨⟩
              exact not_or.1 hb
            obtain ⟨u, hbytes, hu⟩ := repetition_sound hpart hstart
            obtain ⟨v, hrest, hv⟩ := repetitions_sound hr'
            exact ⟨u ++ v, eq_append_append hbytes hrest, .more hu hv⟩
termination_by (bytes.length, 2)
decreasing_by
  · exact Prod.Lex.right _ (Nat.lt_succ_self _)
  · exact Prod.Lex.left _ _ (Reading.shorter _)

theorem concatenation_sound {offset : Nat} {bytes : List Byte}
    {r : Reading (bytes.length + 1) Pattern} (h : concatenation offset bytes = .ok r) :
    ∃ w, bytes = w ++ r.rest ∧ Concatenation w r.value := by
  rw [concatenation] at h
  split at h
  · cases h
  · rename_i r' hr'
    cases h
    obtain ⟨w, hbytes, hw⟩ := repetitions_sound hr'
    exact ⟨w, hbytes, concatenation_of_repetitions hw⟩
termination_by (bytes.length, 3)

theorem concatenations_sound {offset : Nat} {bytes : List Byte}
    {r : Reading (bytes.length + 1) (List Pattern)} (h : concatenations offset bytes = .ok r) :
    ∃ w, bytes = w ++ r.rest ∧ Branches w r.value := by
  rw [concatenations] at h
  split at h
  · cases h
  · rename_i branch hbranch
    obtain ⟨u, hbytes, hu⟩ := concatenation_sound hbranch
    split at h
    · cases h
      exact ⟨u, hbytes, .last hu⟩
    · rename_i bar hbar
      split at h
      · cases h
      · rename_i r' hr'
        cases h
        obtain ⟨hrest, -⟩ := Reading.rest_of_skip? hbar
        obtain ⟨v, hmore, hv⟩ := concatenations_sound hr'
        have hbranch := hrest.trans (congrArg (Ascii.bar :: ·) hmore)
        exact ⟨u ++ Ascii.bar :: v, eq_append_append hbytes hbranch, .more hu hv⟩
termination_by (bytes.length, 4)
decreasing_by
  · exact Prod.Lex.right _ (Nat.lt_succ_self _)
  · exact Prod.Lex.left _ _ (Reading.shorter _)

theorem alternation_sound {offset : Nat} {bytes : List Byte}
    {r : Reading (bytes.length + 1) Pattern} (h : alternation offset bytes = .ok r) :
    ∃ w, bytes = w ++ r.rest ∧ Alternation w r.value := by
  rw [alternation] at h
  split at h
  · cases h
  · rename_i r' hr'
    cases h
    obtain ⟨w, hbytes, hw⟩ := concatenations_sound hr'
    exact ⟨w, hbytes, alternation_of_branches hw⟩
termination_by (bytes.length, 5)

end

end Pattern
end Munch
