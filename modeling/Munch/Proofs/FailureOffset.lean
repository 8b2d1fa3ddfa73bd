import Mathlib.Data.List.Permutation
import Mathlib.Order.Bounds.Basic
import Munch.Proofs.Dfa.Agreement
import Munch.Proofs.Nfa.Viability
import Munch.Proofs.Pattern.Completion

/-!
# Where a failed attempt stops

An attempt that fails has read as far as the automaton is alive.  For patterns that were
read off a spelling, being alive means that what was read begins a word of some rule: no
state of the automaton is useless.  So the byte at which the attempt stops is the first
that no word of any rule has there.

**Results.**
* `Nfa.isSome_after_iff_begins`: the words that keep an automaton alive.
* `Nfa.isGreatest_of_longest_eq_unmatched`: how far the simulation reads.
* `Matcher.isGreatest_of_longestAt_eq_unmatched`: the same for all matchers, at every place
  of a text.
-/

namespace Munch

/-- The bytes begin a word of some rule. -/
def Begins (rules : List Pattern) (u : List Byte) : Prop :=
  ∃ p ∈ rules, ∃ w, p.language w ∧ u <+: w

namespace Nfa

variable {rules : List Pattern}

/-- An automaton that accepts a word has been alive all the time. -/
theorem isSome_after_of_begins {u : List Byte} (h : Begins rules u) :
    ((ofPatterns rules).tracker.after (ofPatterns rules).tracker.start u).isSome = true := by
  obtain ⟨p, hp, _, hw, v, rfl⟩ := h
  obtain ⟨rule, hrule⟩ := List.mem_iff_getElem?.1 hp
  have haccepted := (mem_rulesAfter_iff rules).2 ⟨p, hrule, hw⟩
  by_contra hnone
  rw [Bool.not_eq_true, Option.isSome_eq_false_iff, Option.isNone_iff_eq_none] at hnone
  have hdead : (ofPatterns rules).tracker.after (ofPatterns rules).tracker.start (u ++ v) =
      none := by
    rw [Tracker.after_append, hnone]
    rfl
  rw [Tracker.rulesAfter_of_eq_none _ hdead] at haccepted
  cases haccepted

theorem begins_of_isSome_after (hne : rules ≠ []) (hrules : ∀ p ∈ rules, p.WellFormed)
    {u : List Byte}
    (h : ((ofPatterns rules).tracker.after (ofPatterns rules).tracker.start u).isSome = true) :
    Begins rules u := by
  rcases (isSome_after_ofPatterns_iff rules).1 h with rfl | ⟨p, hp, hviable⟩
  · obtain ⟨p, hp⟩ := List.exists_mem_of_ne_nil rules hne
    obtain ⟨w, hw⟩ := (hrules p hp).exists_language
    exact ⟨p, hp, w, hw, List.nil_prefix⟩
  · obtain ⟨v, hv⟩ := (hrules p hp).exists_append hviable
    exact ⟨p, hp, u ++ v, hv, List.prefix_append u v⟩

/-- The automaton of well-formed rules is alive after what begins their words. -/
theorem isSome_after_iff_begins (hne : rules ≠ []) (hrules : ∀ p ∈ rules, p.WellFormed)
    {u : List Byte} :
    ((ofPatterns rules).tracker.after (ofPatterns rules).tracker.start u).isSome = true ↔
      Begins rules u :=
  ⟨begins_of_isSome_after hne hrules, isSome_after_of_begins⟩

theorem isGreatest_of_longest_eq_unmatched (hne : rules ≠ [])
    (hrules : ∀ p ∈ rules, p.WellFormed) {rest : List Byte} {read : Nat}
    (h : (ofPatterns rules).tracker.longest rest = .unmatched read) :
    IsGreatest {n | n ≤ rest.length ∧ Begins rules (rest.take n)} read := by
  have hread : ∀ {n}, n ≤ rest.length → (n ≤ read ↔ Begins rules (rest.take n)) :=
    fun hn => (Tracker.le_iff_of_longest_eq_unmatched h hn).trans
      (isSome_after_iff_begins hne hrules)
  have hle := (Tracker.longest_eq_unmatched_iff.1 h).2.1
  constructor
  · exact ⟨hle, (hread hle).1 (Nat.le_refl read)⟩
  · rintro n ⟨hn, hbegins⟩
    exact (hread hn).2 hbegins

end Nfa

namespace Matcher

/-- **A failed attempt stops at the first hopeless byte.**  What it has read is the longest
prefix of the rest that begins a word of some rule; with one byte more, if there is one,
no word of any rule begins. -/
theorem isGreatest_of_longestAt_eq_unmatched {rules : List Pattern} {config : Config}
    {m : Matcher} (hne : rules ≠ []) (hread : ∀ p ∈ rules, ∃ w, Pattern.parse w = .ok p)
    (hm : build rules config = .ok m) {text : List Byte} {offset failedAt : Nat}
    (hoffset : offset ≤ text.length) (h : m.longestAt text offset = .unmatched failedAt) :
    IsGreatest {n | n ≤ text.length - offset ∧ Begins rules ((text.drop offset).take n)}
      (failedAt - offset) ∧
    offset ≤ failedAt ∧ failedAt ≤ text.length ∧
    (failedAt < text.length → ∀ p ∈ rules, ∀ w, p.language w →
      ¬text.extract offset (failedAt + 1) <+: w) := by
  have hrules : ∀ p ∈ rules, p.WellFormed := by
    intro p hp
    obtain ⟨w, hw⟩ := hread p hp
    exact (Pattern.parse_sound hw).wellFormed
  rw [longestAt, longest_build hm] at h
  obtain ⟨read, hlongest, rfl⟩ := Outcome.shift_eq_unmatched_iff.1 h
  have hgreatest := Nfa.isGreatest_of_longest_eq_unmatched hne hrules hlongest
  rw [List.length_drop] at hgreatest
  have hle := hgreatest.1.1
  refine ⟨?_, Nat.le_add_right _ _, by omega, ?_⟩
  · rwa [Nat.add_sub_cancel_left]
  · intro hlt p hp w hw hfront
    rw [List.extract, Nat.add_assoc, Nat.add_sub_cancel_left] at hfront
    have hmore : read + 1 ≤ read := hgreatest.2 ⟨by omega, p, hp, w, hw, hfront⟩
    omega

/-- The pattern is `(ab)*c`, and the text `xabad`. -/
theorem isGreatest_of_longestAt_eq_unmatched_loop :
    ∃ p m, Pattern.parse [40, 97, 98, 41, 42, 99] = .ok p ∧
      build [p] { determinize := false } = .ok m ∧
      m.longestAt [120, 97, 98, 97, 100] 1 = .unmatched 4 ∧
      IsGreatest {n | n ≤ 4 ∧ Begins [p] (([97, 98, 97, 100] : List Byte).take n)} 3 := by
  have hparse : Pattern.parse [40, 97, 98, 41, 42, 99] =
      .ok (.sequence [.repeated (.literal [97, 98]) 0 none, .literal [99]]) := by
    cbv
  have hread : ∀ p ∈ [Pattern.sequence [.repeated (.literal [97, 98]) 0 none, .literal [99]]],
      ∃ w, Pattern.parse w = .ok p :=
    List.forall_mem_singleton.2 ⟨_, hparse⟩
  have hbuild : build [.sequence [.repeated (.literal [97, 98]) 0 none, .literal [99]]]
      { determinize := false } = .ok (.simulated (Nfa.ofPatterns _)) :=
    rfl
  have hfails : (simulated (Nfa.ofPatterns [.sequence
      [.repeated (.literal [97, 98]) 0 none, .literal [99]]])).longestAt
        [120, 97, 98, 97, 100] 1 = .unmatched 4 := by
    cbv
  refine ⟨_, _, hparse, hbuild, hfails, ?_⟩
  exact (isGreatest_of_longestAt_eq_unmatched (List.cons_ne_nil _ []) hread hbuild (by decide)
    hfails).1

end Matcher
end Munch
