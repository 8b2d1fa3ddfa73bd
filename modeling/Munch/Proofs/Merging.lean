import Munch.Proofs.Compilation
import Munch.Proofs.Nfa.Viability
import Munch.Proofs.Segmentation

/-!
# Rules do not interfere

What an automaton of several rules finds can be told from what each of the rules finds
alone: the longest of the matches, and the rules that it belongs to; or, if none of them
matches, how far the last of them could read.

**Results.**
* `IsMerge.unique`, `IsMerge.append`: there is one merge, and what a further rule does to
  a match.
* `isMerge_longest`: the simulation of several rules, from those of the rules alone.
* `longestAt_eq_iff_isMerge`: the same for all matchers, at every place of a text.
-/

namespace Munch
namespace Outcome

/-- The outcome is put together from those that the rules have alone, at `offset`: the
longest of the matches, with all rules that have a match of this length, or the last of
the places where the rules fail. -/
def IsMerge (offset : Nat) (alone : List Outcome) : Outcome → Prop
  | matched found =>
      (∀ own, matched own ∈ alone → own.length ≤ found.length) ∧
      found.rules.Pairwise (· < ·) ∧
      ∀ rule : Nat, rule ∈ found.rules ↔
        ∃ own, alone[rule]? = some (matched own) ∧ own.length = found.length
  | unmatched failedAt =>
      (∀ o ∈ alone, ∃ n ≤ failedAt, o = unmatched n) ∧
      (alone = [] ∧ failedAt = offset ∨ unmatched failedAt ∈ alone)

section Merge

variable {offset : Nat} {alone : List Outcome} {found found' : LongestMatch}

/-- The winner has a match of the length of the merge when it is alone. -/
theorem IsMerge.exists_winner (h : IsMerge offset alone (matched found)) :
    ∃ own, alone[found.winner]? = some (matched own) ∧ own.length = found.length :=
  (h.2.2 found.winner).1 List.mem_cons_self

theorem IsMerge.length_le (h : IsMerge offset alone (matched found))
    (h' : IsMerge offset alone (matched found')) : found.length ≤ found'.length := by
  obtain ⟨own, hget, hlength⟩ := h.exists_winner
  rw [← hlength]
  exact h'.1 own (List.mem_of_getElem? hget)

theorem IsMerge.failedAt_le {m n : Nat} (h : IsMerge offset alone (unmatched m))
    (h' : IsMerge offset alone (unmatched n)) : m ≤ n := by
  obtain ⟨-, ⟨rfl, rfl⟩ | hmem⟩ := h
  · obtain ⟨-, ⟨-, rfl⟩ | hmem⟩ := h'
    · exact Nat.le_refl n
    · cases hmem
  · obtain ⟨k, hk, heq⟩ := h'.1 _ hmem
    cases heq
    exact hk

/-- No merge is a failure if a rule matches. -/
theorem IsMerge.not_unmatched (h : IsMerge offset alone (matched found)) {n : Nat} :
    ¬IsMerge offset alone (unmatched n) := by
  intro hnone
  obtain ⟨own, hget, -⟩ := h.exists_winner
  obtain ⟨k, -, heq⟩ := hnone.1 _ (List.mem_of_getElem? hget)
  cases heq

theorem IsMerge.unique {o o' : Outcome} (h : IsMerge offset alone o)
    (h' : IsMerge offset alone o') : o = o' := by
  cases o with
  | matched found =>
      cases o' with
      | matched found' =>
          have hlength := Nat.le_antisymm (h.length_le h') (h'.length_le h)
          have hrules : found.rules = found'.rules := by
            apply h.2.1.eq_of_mem_iff h'.2.1
            intro rule
            rw [h.2.2, h'.2.2, hlength]
          obtain ⟨n, winner, others⟩ := found
          obtain ⟨n', winner', others'⟩ := found'
          obtain rfl : n = n' := hlength
          cases hrules
          rfl
      | unmatched n =>
          exact absurd h' h.not_unmatched
  | unmatched n =>
      cases o' with
      | matched found' =>
          exact absurd h h'.not_unmatched
      | unmatched n' =>
          rw [Nat.le_antisymm (h.failedAt_le h') (h'.failedAt_le h)]

/-- A further outcome leaves a match as long as it was, and its winner the same unless the
further outcome is a longer match. -/
theorem IsMerge.append {further o : Outcome} (h : IsMerge offset alone (matched found))
    (h' : IsMerge offset (alone ++ [further]) o) :
    ∃ found', o = matched found' ∧ found.length ≤ found'.length ∧
      (found'.winner ≠ found.winner → ∃ own, further = matched own ∧
        found.length < own.length) := by
  obtain ⟨own, hget, hlength⟩ := h.exists_winner
  have hlt : found.winner < alone.length := (List.getElem?_eq_some_iff.1 hget).1
  have hget' : (alone ++ [further])[found.winner]? = some (matched own) := by
    rw [List.getElem?_append_left hlt, hget]
  cases o with
  | unmatched n =>
      obtain ⟨k, -, heq⟩ := h'.1 _ (List.mem_of_getElem? hget')
      cases heq
  | matched found' =>
      have hle : found.length ≤ found'.length := by
        rw [← hlength]
        exact h'.1 own (List.mem_of_getElem? hget')
      refine ⟨found', rfl, hle, ?_⟩
      intro hwinner
      obtain ⟨own', hown', hlength'⟩ := h'.exists_winner
      -- Among matches of the same length the rules that were there before come first.
      have hlonger : found.length < found'.length := by
        by_contra hsame
        have hmem' : found.winner ∈ found'.rules := (h'.2.2 _).2 ⟨own, hget', by omega⟩
        have hfirst' := LongestMatch.winner_le h'.2.1 hmem'
        rw [List.getElem?_append_left (by omega)] at hown'
        have hmem : found'.winner ∈ found.rules := (h.2.2 _).2 ⟨own', hown', by omega⟩
        have hfirst := LongestMatch.winner_le h.2.1 hmem
        omega
      rcases List.mem_append.1 (List.mem_of_getElem? hown') with hold | hnew
      · have hle' := h.1 own' hold
        omega
      · exact ⟨own', (List.mem_singleton.1 hnew).symm, by omega⟩

/-- Merging commutes with moving all attempts further on. -/
theorem IsMerge.shift {o : Outcome} (h : IsMerge 0 alone o) :
    IsMerge offset (alone.map (Outcome.shift offset)) (o.shift offset) := by
  cases o with
  | matched found =>
      obtain ⟨hgreatest, hincreasing, hmem⟩ := h
      refine ⟨?_, hincreasing, ?_⟩
      · intro own hown
        obtain ⟨o, ho, heq⟩ := List.mem_map.1 hown
        exact hgreatest own (shift_eq_matched_iff.1 heq ▸ ho)
      · intro rule
        simp only [hmem, List.getElem?_map, Option.map_eq_some_iff, shift_eq_matched_iff,
          exists_eq_right]
  | unmatched failedAt =>
      obtain ⟨hnone, hlast⟩ := h
      constructor
      · intro o ho
        obtain ⟨own, hown, rfl⟩ := List.mem_map.1 ho
        obtain ⟨n, hn, rfl⟩ := hnone own hown
        exact ⟨offset + n, Nat.add_le_add_left hn offset, rfl⟩
      · rcases hlast with ⟨rfl, rfl⟩ | hmem
        · exact .inl ⟨rfl, rfl⟩
        · exact .inr (List.mem_map.2 ⟨_, hmem, rfl⟩)

end Merge

end Outcome

namespace Nfa

variable {rules : List Pattern} {text : List Byte}

/-! ### Matches -/

theorem language_of_singleton {p : Pattern} {own : LongestMatch}
    (h : IsLongestMatch (Accepts [p]) text own) : p.language (text.take own.length) :=
  (accepts_singleton_iff.1 h.accepts_winner).2

/-- A match of a rule alone is no longer than that of several rules. -/
theorem length_le_of_singleton {p : Pattern} (hp : p ∈ rules) {own found : LongestMatch}
    (hown : IsLongestMatch (Accepts [p]) text own)
    (hfound : IsLongestMatch (Accepts rules) text found) : own.length ≤ found.length := by
  obtain ⟨rule, hrule⟩ := List.mem_iff_getElem?.1 hp
  rw [← hown.length_take]
  exact hfound.greatest rule _ (List.take_prefix _ _) ⟨p, hrule, language_of_singleton hown⟩

/-- The rules that a match belongs to are those that have a match of its length alone. -/
theorem language_take_iff {p : Pattern} (hp : p ∈ rules) {found : LongestMatch}
    (hfound : IsLongestMatch (Accepts rules) text found) :
    p.language (text.take found.length) ↔
      ∃ own, (ofPatterns [p]).tracker.longest text = .matched own ∧
        own.length = found.length := by
  constructor
  · intro hw
    have haccept : Accepts [p] 0 (text.take found.length) := accepts_singleton_iff.2 ⟨rfl, hw⟩
    cases hlongest : (ofPatterns [p]).tracker.longest text with
    | matched own =>
        have hown := (longest_eq_matched_iff [p]).1 hlongest
        have hle := length_le_of_singleton hp hown hfound
        have hge := hown.greatest 0 _ (List.take_prefix _ _) haccept
        rw [hfound.length_take] at hge
        exact ⟨own, rfl, Nat.le_antisymm hle hge⟩
    | unmatched read =>
        exact absurd haccept
          ((exists_unmatched_iff [p] text).1 ⟨read, hlongest⟩ 0 _ (List.take_prefix _ _))
  · rintro ⟨own, hlongest, hlength⟩
    rw [← hlength]
    exact language_of_singleton ((longest_eq_matched_iff [p]).1 hlongest)

/-! ### Failures -/

/-- An attempt that fails has read as far as the automaton is alive. -/
theorem le_iff_of_longest_eq_unmatched {read n : Nat}
    (h : (ofPatterns rules).tracker.longest text = .unmatched read) (hn : n ≤ text.length) :
    n ≤ read ↔ text.take n = [] ∨ ∃ p ∈ rules, p.viable (text.take n) :=
  (Tracker.le_iff_of_longest_eq_unmatched h hn).trans (isSome_after_ofPatterns_iff rules)

/-- Where several rules fail, each of them fails alone, and no later. -/
theorem exists_unmatched_of_mem {read : Nat}
    (h : (ofPatterns rules).tracker.longest text = .unmatched read) {p : Pattern}
    (hp : p ∈ rules) :
    ∃ n ≤ read, (ofPatterns [p]).tracker.longest text = .unmatched n := by
  cases hlongest : (ofPatterns [p]).tracker.longest text with
  | matched own =>
      obtain ⟨rule, hrule⟩ := List.mem_iff_getElem?.1 hp
      have hw := language_of_singleton ((longest_eq_matched_iff [p]).1 hlongest)
      exact absurd ⟨p, hrule, hw⟩
        ((exists_unmatched_iff rules text).1 ⟨read, h⟩ rule _ (List.take_prefix _ _))
  | unmatched n =>
      refine ⟨n, ?_, rfl⟩
      obtain ⟨-, hle, -⟩ := Tracker.longest_eq_unmatched_iff.1 hlongest
      apply (le_iff_of_longest_eq_unmatched h hle).2
      rcases (le_iff_of_longest_eq_unmatched hlongest hle).1 (Nat.le_refl n) with
        hnil | ⟨q, hq, hviable⟩
      · exact .inl hnil
      · obtain rfl := List.mem_singleton.1 hq
        exact .inr ⟨q, hp, hviable⟩

/-- Some rule fails where several rules fail, if there are any. -/
theorem unmatched_mem_map {read : Nat} (hne : rules ≠ [])
    (h : (ofPatterns rules).tracker.longest text = .unmatched read) :
    .unmatched read ∈ rules.map fun p => (ofPatterns [p]).tracker.longest text := by
  obtain ⟨-, hle, -⟩ := Tracker.longest_eq_unmatched_iff.1 h
  -- A rule that is alive there reads on no less far alone.
  have hlast : ∃ p ∈ rules, text.take read = [] ∨ ∃ q ∈ [p], q.viable (text.take read) := by
    rcases (le_iff_of_longest_eq_unmatched h hle).1 (Nat.le_refl read) with
      hnil | ⟨p, hp, hviable⟩
    · obtain ⟨p, hp⟩ := List.exists_mem_of_ne_nil rules hne
      exact ⟨p, hp, .inl hnil⟩
    · exact ⟨p, hp, .inr ⟨p, List.mem_cons_self, hviable⟩⟩
  obtain ⟨p, hp, halive⟩ := hlast
  obtain ⟨n, hn, hlongest⟩ := exists_unmatched_of_mem h hp
  have hge := (le_iff_of_longest_eq_unmatched hlongest hle).2 halive
  obtain rfl := Nat.le_antisymm hn hge
  exact List.mem_map.2 ⟨p, hp, hlongest⟩

theorem isMerge_longest (rules : List Pattern) (text : List Byte) :
    Outcome.IsMerge 0 (rules.map fun p => (ofPatterns [p]).tracker.longest text)
      ((ofPatterns rules).tracker.longest text) := by
  cases hlongest : (ofPatterns rules).tracker.longest text with
  | matched found =>
      have hfound := (longest_eq_matched_iff rules).1 hlongest
      refine ⟨?_, hfound.increasing, ?_⟩
      · intro own hown
        obtain ⟨p, hp, hlongest⟩ := List.mem_map.1 hown
        exact length_le_of_singleton hp ((longest_eq_matched_iff [p]).1 hlongest) hfound
      · intro rule
        rw [hfound.mem_rules, List.getElem?_map, Accepts]
        cases hp : rules[rule]? with
        | none =>
            simp
        | some p =>
            simp [language_take_iff (List.mem_of_getElem? hp) hfound]
  | unmatched read =>
      constructor
      · intro o ho
        obtain ⟨p, hp, rfl⟩ := List.mem_map.1 ho
        exact exists_unmatched_of_mem hlongest hp
      · cases rules with
        | nil =>
            obtain ⟨-, hle, -⟩ := Tracker.longest_eq_unmatched_iff.1 hlongest
            have hnil := (le_iff_of_longest_eq_unmatched hlongest hle).1 (Nat.le_refl read)
            have hlength : (text.take read).length = 0 := by simpa using hnil
            rw [List.length_take_of_le hle] at hlength
            exact .inl ⟨rfl, hlength⟩
        | cons p rules =>
            exact .inr (unmatched_mem_map (List.cons_ne_nil p rules) hlongest)

end Nfa

namespace Matcher

/-- The matchers are those of the rules alone, whatever their configurations. -/
def OfRulesAlone (rules : List Pattern) (alone : List Matcher) : Prop :=
  List.Forall₂ (fun p own => ∃ config, build [p] config = .ok own) rules alone

theorem OfRulesAlone.map_longestAt {rules : List Pattern} {alone : List Matcher}
    (h : OfRulesAlone rules alone) (text : List Byte) (offset : Nat) :
    alone.map (·.longestAt text offset) =
      (rules.map fun p => (Nfa.ofPatterns [p]).tracker.longest (text.drop offset)).map
        (Outcome.shift offset) := by
  induction h with
  | nil =>
      rfl
  | cons hown _ ih =>
      obtain ⟨config, hown⟩ := hown
      rw [List.map_cons, ih, longestAt, longest_build hown]
      rfl

theorem isMerge_longestAt {rules : List Pattern} {config : Config} {m : Matcher}
    {alone : List Matcher} (hm : build rules config = .ok m) (halone : OfRulesAlone rules alone)
    (text : List Byte) (offset : Nat) :
    Outcome.IsMerge offset (alone.map (·.longestAt text offset)) (m.longestAt text offset) := by
  rw [halone.map_longestAt, longestAt, longest_build hm]
  exact (Nfa.isMerge_longest rules (text.drop offset)).shift

/-- **Rules do not interfere.**  A matcher finds what its rules find alone, put together;
and a further rule makes no match shorter, and takes over only with a longer one. -/
theorem longestAt_eq_iff_isMerge {rules : List Pattern} {config : Config} {m : Matcher}
    {alone : List Matcher} (hm : build rules config = .ok m) (halone : OfRulesAlone rules alone)
    (text : List Byte) (offset : Nat) :
    (∀ o, m.longestAt text offset = o ↔
      Outcome.IsMerge offset (alone.map (·.longestAt text offset)) o) ∧
    ∀ (p : Pattern) (own further : Matcher), (∃ config, build [p] config = .ok own) →
      (∃ config, build (rules ++ [p]) config = .ok further) →
      ∀ found, m.longestAt text offset = .matched found →
        ∃ found', further.longestAt text offset = .matched found' ∧
          found.length ≤ found'.length ∧
          (found'.winner ≠ found.winner → ∃ longer,
            own.longestAt text offset = .matched longer ∧ found.length < longer.length) := by
  have hmerge := isMerge_longestAt hm halone text offset
  constructor
  · intro o
    constructor
    · rintro rfl
      exact hmerge
    · exact hmerge.unique
  · rintro p own further hown ⟨config', hfurther⟩ found hfound
    have hall : OfRulesAlone (rules ++ [p]) (alone ++ [own]) :=
      List.rel_append halone (.cons hown .nil)
    have hmerge' := isMerge_longestAt hfurther hall text offset
    rw [List.map_append] at hmerge'
    rw [hfound] at hmerge
    exact hmerge.append hmerge'

theorem longestAt_eq_iff_isMerge_letters :
    ∃ dfa rules m alone, rules = [.literal [97], .literal [97, 98]] ∧
      build rules { determinize := false } = .ok m ∧
      alone = [.tabulated dfa, .simulated (Nfa.ofPatterns [.literal [97, 98]])] ∧
      OfRulesAlone rules alone ∧ m.longestAt [97, 98] 0 = .matched ⟨2, 1, []⟩ := by
  obtain ⟨dfa, hdfa⟩ := exists_ofNfa_letter
  have hfirst : build [.literal [97]] {} = .ok (.tabulated dfa) := by
    simp [build, hdfa]
  have hsecond : build [.literal [97, 98]] { determinize := false } =
      .ok (.simulated (Nfa.ofPatterns [.literal [97, 98]])) := rfl
  have hm : build [.literal [97], .literal [97, 98]] { determinize := false } =
      .ok (.simulated (Nfa.ofPatterns [.literal [97], .literal [97, 98]])) := rfl
  have halone : OfRulesAlone [.literal [97], .literal [97, 98]]
      [.tabulated dfa, .simulated (Nfa.ofPatterns [.literal [97, 98]])] :=
    .cons ⟨_, hfirst⟩ (.cons ⟨_, hsecond⟩ .nil)
  refine ⟨dfa, _, _, _, rfl, hm, rfl, halone, ?_⟩
  apply ((longestAt_eq_iff_isMerge hm halone [97, 98] 0).1 _).2
  have houtcomes : ([.tabulated dfa, .simulated (Nfa.ofPatterns [.literal [97, 98]])] :
      List Matcher).map (·.longestAt [97, 98] 0) = [.matched ⟨1, 0, []⟩, .matched ⟨2, 0, []⟩] := by
    rw [halone.map_longestAt]
    cbv
  rw [houtcomes]
  refine ⟨by simp, List.pairwise_singleton _ _, ?_⟩
  rintro (_ | _ | rule) <;> simp [LongestMatch.rules]

end Matcher
end Munch
