import Mathlib.Data.List.Infix
import Munch.Pattern.Printer
import Munch.Proofs.Dfa.Exactness
import Munch.Proofs.FailureOffset
import Munch.Proofs.Segmentation

/-!
# A word without meaning

A word becomes a pattern that stands for the word and nothing else when its letters and
digits are written as they are, and every other byte behind a backslash.  Both spellings
are needed: a letter behind a backslash has a meaning, and so have some of the other bytes
without one.

**Results.**
* `repetitions_escapeWord`, `parse_escapeWord`: the spelling is read byte by byte.
* `language_literal_iff`: a literal is the pattern of one word.
* `ncard_reachableSets_literal_le`, `exists_ofNfa_literal`: the size of its automaton.
* `escapeWord_exact`: the word is found where it stands, and nowhere else.
-/

namespace Munch
namespace Pattern

variable {word : List Byte}

/-! ### Reading the spelling -/

theorem not_mem_special_of_isAlphanumeric {b : Byte} (h : b.isAlphanumeric = true) :
    b ∉ special := by
  have hspecial : special.all (fun c => !c.isAlphanumeric) = true := by decide
  intro hb
  simpa [h] using List.all_eq_true.1 hspecial b hb

/-- A byte in the spelling of a word is an operand. -/
theorem atom_escaped (b : Byte) :
    Atom (if b.isAlphanumeric then [b] else [Ascii.backslash, b]) (.oneOf (.single b)) := by
  split
  · rename_i halnum
    exact .literal (not_mem_special_of_isAlphanumeric halnum)
  · rename_i halnum
    exact .escape (.literal (Bool.eq_false_iff.2 halnum))

/-- No two bytes are read together. -/
theorem repetitions_escapeWord (word : List Byte) :
    Repetitions (escapeWord word) (word.map fun b => .oneOf (.single b)) := by
  induction word with
  | nil =>
      exact .none
  | cons b word ih =>
      have hfirst := Repetition.mk (atom_escaped b) (.none _)
      rw [List.append_nil] at hfirst
      exact .more hfirst ih

theorem parse_escapeWord (word : List Byte) : parse (escapeWord word) = .ok (literal word) :=
  parse_complete (.one (.last (concatenation_of_repetitions (repetitions_escapeWord word))))

theorem wellFormed_literal (word : List Byte) : (literal word).WellFormed :=
  (parse_sound (parse_escapeWord word)).wellFormed

/-! ### The language of a literal -/

theorem language_sequenceOf (parts : List Pattern) (w : List Byte) :
    (sequenceOf parts).language w ↔ (sequence parts).language w := by
  match parts with
  | [] =>
      rw [sequenceOf, language, language_sequence_nil]
  | [p] =>
      simp [sequenceOf, language_sequence_cons, language_sequence_nil]
  | p :: q :: parts =>
      rfl

theorem language_single_iff {b : Byte} {w : List Byte} :
    (oneOf (.single b)).language w ↔ w = [b] := by
  simp [language]

theorem language_literal_iff {w : List Byte} : (literal word).language w ↔ w = word := by
  rw [literal, language_sequenceOf]
  induction word generalizing w with
  | nil =>
      exact language_sequence_nil w
  | cons b word ih =>
      rw [List.map_cons, language_sequence_cons]
      simp only [ih]
      constructor
      · rintro ⟨u, _, rfl, hu, rfl⟩
        rw [language_single_iff.1 hu, List.singleton_append]
      · rintro rfl
        exact ⟨[b], word, rfl, language_single_iff.2 rfl, rfl⟩

/-! ### Its automaton -/

theorem begins_literal_iff {u : List Byte} : Begins [literal word] u ↔ u <+: word := by
  simp [Begins, language_literal_iff]

/-- The automaton is alive after the prefixes of the word only. -/
theorem ncard_reachableSets_literal_le (word : List Byte) :
    (Nfa.ofPatterns [literal word]).reachableSets.ncard ≤ word.length + 1 := by
  classical
  have hsubset : (Nfa.ofPatterns [literal word]).reachableSets ⊆
      ((word.inits.map (Nfa.ofPatterns [literal word]).walk).toFinset : Set (List Nat)) := by
    rintro _ ⟨halive, u, rfl⟩
    have hbegins := Nfa.begins_of_isSome_after (List.cons_ne_nil _ [])
      (List.forall_mem_singleton.2 (wellFormed_literal word))
      ((Nfa.isSome_after_ofPatterns_iff _).2 ((Nfa.walk_ne_nil_iff _).1 halive))
    rw [begins_literal_iff] at hbegins
    rw [List.coe_toFinset]
    exact List.mem_map_of_mem ((List.mem_inits _ _).2 hbegins)
  calc (Nfa.ofPatterns [literal word]).reachableSets.ncard
      ≤ (word.inits.map (Nfa.ofPatterns [literal word]).walk).toFinset.card := by
        rw [← Set.ncard_coe_finset]
        exact Set.ncard_le_ncard hsubset (Finset.finite_toSet _)
    _ ≤ (word.inits.map (Nfa.ofPatterns [literal word]).walk).length := List.toFinset_card_le _
    _ = word.length + 1 := by rw [List.length_map, List.length_inits]

/-- A table for a literal has room if there is some for a state for each prefix of the word
and for the dead state. -/
theorem exists_ofNfa_literal {limit : Nat} (hroom : word.length + 2 ≤ max limit 2) :
    ∃ dfa, Dfa.ofNfa (Nfa.ofPatterns [literal word]) limit = .ok dfa := by
  have hcount := ncard_reachableSets_literal_le word
  rw [Dfa.exists_ofNfa_iff (Nfa.initial_ofPatterns_ne_nil _)]
  omega

theorem isLongestMatch_literal_iff {rest : List Byte} {found : LongestMatch} :
    IsLongestMatch (Accepts [literal word]) rest found ↔
      word <+: rest ∧ found = ⟨word.length, 0, []⟩ := by
  have haccepts : ∀ {rule : Nat} {u : List Byte}, Accepts [literal word] rule u ↔
      rule = 0 ∧ u = word :=
    Nfa.accepts_singleton_iff.trans (and_congr_right' language_literal_iff)
  constructor
  · intro h
    obtain ⟨hwinner, htake⟩ := haccepts.1 h.accepts_winner
    have hlength : found.length = word.length := by
      rw [← htake, h.length_take]
    have hothers : found.others = [] := by
      rw [List.eq_nil_iff_forall_not_mem]
      intro rule hrule
      have hlt := (List.pairwise_cons.1 h.increasing).1 rule hrule
      have hzero := (haccepts.1 ((h.mem_rules rule).1 (List.mem_cons_of_mem _ hrule))).1
      omega
    refine ⟨htake ▸ List.take_prefix _ _, ?_⟩
    rw [← hlength, ← hwinner, ← hothers]
  · rintro ⟨hstands, rfl⟩
    exact
      { length_le := hstands.length_le
        mem_rules := by
          intro rule
          rw [haccepts, ← List.prefix_iff_eq_take.1 hstands]
          simp [LongestMatch.rules]
        increasing := List.pairwise_singleton _ _
        greatest := by
          intro rule u _ hu
          rw [(haccepts.1 hu).2] }

/-- **Escaping makes a literal of every word.**  The spelling is read as the pattern of the
word; its automaton matches a text exactly where the word stands, and then the word alone.
So does every matcher for it, and one can be built if a table has room for a state for each
prefix and for the dead state. -/
theorem escapeWord_exact (word : List Byte) :
    parse (escapeWord word) = .ok (literal word) ∧
    (∀ text offset found,
      (Nfa.ofPatterns [literal word]).tracker.longestAt text offset = .matched found ↔
        word <+: text.drop offset ∧ found = ⟨word.length, 0, []⟩) ∧
    ∀ config,
      ((config.determinize = true → word.length + 2 ≤ max config.maxDfaStates 2) →
        ∃ m, Matcher.build [literal word] config = .ok m) ∧
      ∀ m, Matcher.build [literal word] config = .ok m → ∀ text offset found,
        m.longestAt text offset = .matched found ↔
          word <+: text.drop offset ∧ found = ⟨word.length, 0, []⟩ := by
  have hsimulation : ∀ text offset found,
      (Nfa.ofPatterns [literal word]).tracker.longestAt text offset = .matched found ↔
        word <+: text.drop offset ∧ found = ⟨word.length, 0, []⟩ := by
    intro text offset found
    rw [Tracker.longestAt, Outcome.shift_eq_matched_iff, Nfa.longest_eq_matched_iff,
      isLongestMatch_literal_iff]
  refine ⟨parse_escapeWord word, hsimulation, fun config => ⟨?_, ?_⟩⟩
  · intro hroom
    unfold Matcher.build
    by_cases hconfig : config.determinize = true
    · obtain ⟨dfa, hdfa⟩ := exists_ofNfa_literal (hroom hconfig)
      rw [if_pos hconfig, hdfa]
      exact ⟨_, rfl⟩
    · rw [if_neg hconfig]
      exact ⟨_, rfl⟩
  · intro m hm text offset found
    rw [Matcher.longestAt, Matcher.longest_build hm]
    exact hsimulation text offset found

/-- The word is a star, a newline and a letter. -/
theorem escapeWord_exact_star :
    ∃ m, parse [92, 42, 92, 10, 110] = .ok (literal [42, 10, 110]) ∧
      Matcher.build [literal [42, 10, 110]] {} = .ok m ∧
      m.longestAt [110, 42, 10, 110] 1 = .matched ⟨3, 0, []⟩ ∧
      ∀ found, m.longestAt [110, 42, 10, 110] 0 ≠ .matched found := by
  obtain ⟨hparse, -, hmatchers⟩ := escapeWord_exact [42, 10, 110]
  obtain ⟨hexists, hexact⟩ := hmatchers {}
  obtain ⟨m, hm⟩ := hexists fun _ => by decide
  refine ⟨m, hparse, hm, (hexact m hm _ _ _).2 ⟨by decide, rfl⟩, ?_⟩
  intro found hfound
  exact absurd ((hexact m hm _ _ _).1 hfound).1 (by decide)

end Pattern
end Munch
