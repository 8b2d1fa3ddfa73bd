import Mathlib.Data.List.Sort
import Munch.Proofs.Nfa.Closure
import Munch.Proofs.Nfa.Fragment
import Munch.Proofs.Tracker

/-!
# The automaton of some rules finds their longest match

Rule `i` is a fragment in front of the only state that accepts for `i`, so a run
from the start to a state accepting for `i` reads a word of rule `i`, and only
such words.  The sets of states that the simulation keeps are those that runs
reach; a set that becomes empty stays empty, so stopping there loses no match.

**Results.**
* `mem_accepts_walk_iff`: after a word, exactly the rules are accepted that the
  word belongs to.
* `longestAt_ofPatterns_iff`: the simulation finds the longest prefix that some
  rule accepts, and all the rules that accept it.
-/

namespace Munch

/-- A word belongs to the rule with the given number. -/
def Accepts (rules : List Pattern) (rule : Nat) (w : List Byte) : Prop :=
  ∃ p, rules[rule]? = some p ∧ p.language w

/-- `found` is the longest prefix of `rest` that belongs to some rule, with the
strictly increasing list of all rules it belongs to. -/
structure IsLongestMatch (accepts : Nat → List Byte → Prop) (rest : List Byte)
    (found : LongestMatch) : Prop where
  length_le : found.length ≤ rest.length
  mem_rules : ∀ rule, rule ∈ found.rules ↔ accepts rule (rest.take found.length)
  increasing : found.rules.Pairwise (· < ·)
  greatest : ∀ rule u, u <+: rest → accepts rule u → u.length ≤ found.length

namespace Nfa

theorem accepts_singleton_iff {p : Pattern} {rule : Nat} {w : List Byte} :
    Accepts [p] rule w ↔ rule = 0 ∧ p.language w := by
  cases rule <;> simp [Accepts]

/-- The states appended to `states` to give `result` read the words of each rule
between one of the entries and a state accepting for the rule. -/
structure RuleBlock (states : Array State) (index : Nat) (rules : List Pattern)
    (entries : List Nat) (result : Array State) : Prop where
  size_le : states.size ≤ result.size
  kept : ∀ id, id < states.size → result[id]? = states[id]?
  enter : ∀ {whole : Array State} {rule : Nat} {w : List Byte},
    Holds states.size result whole → Accepts rules rule w →
    ∃ e ∈ entries, ∃ a, Accepting whole a (index + rule) ∧ Reaches whole e w a
  leave : ∀ {whole : Array State} {n e a rule : Nat} {w : List Byte},
    Holds states.size result whole → Accepting whole a rule → e ∈ entries →
    Run whole n e w a →
    ∃ k, rule = index + k ∧ Accepts rules k w

/-- An array that holds a rule and those behind it holds each part of them. -/
theorem RuleBlock.holds_parts {states mid result whole : Array State} {index next : Nat}
    {entry : Nat → Prop} {L : List Byte → Prop} {rules : List Pattern} {entries : List Nat}
    (hothers : RuleBlock mid (index + 1) rules entries result)
    (hfragment : Block (states.push (.accept index)) entry next L mid)
    (hwhole : Holds states.size result whole) :
    Accepting whole states.size index ∧
      Holds (states.push (.accept index)).size mid whole ∧ Holds mid.size result whole := by
  have hsize := hfragment.size_le
  rw [Array.size_push] at hsize
  have hmid : Holds states.size mid whole := hwhole.before hothers.size_le hothers.kept
  have hpush := hmid.before hfragment.size_le hfragment.kept
  exact ⟨hpush.top (Nat.le_refl _), hmid.above (by simp), hwhole.above (by omega)⟩

theorem ruleBlock_addRules (rules : List Pattern) (index : Nat) (states : Array State) :
    RuleBlock states index rules (addRules index rules states).1
      (addRules index rules states).2 := by
  induction rules generalizing index states with
  | nil =>
      refine ⟨Nat.le_refl _, fun _ _ => rfl, ?_, ?_⟩
      · rintro whole rule w - ⟨p, hp, -⟩
        cases hp
      · intro whole n e a rule w _ _ he
        cases he
  | cons p rules ih =>
      let accepting := states.push (.accept index)
      let entry := (Fragment.ofPattern p states.size accepting).1
      let mid := (Fragment.ofPattern p states.size accepting).2
      have hfragment : Block accepting (· = entry) states.size p.language mid :=
        recognizes_ofPattern p states.size accepting
      have hothers := ih (index + 1) mid
      let result := (addRules (index + 1) rules mid).2
      have hsize : states.size < mid.size := by
        have := hfragment.size_le
        rwa [Array.size_push] at this
      show RuleBlock states index (p :: rules) (entry :: _) result
      refine ⟨?_, ?_, ?_, ?_⟩
      · exact Nat.le_trans (Nat.le_of_lt hsize) hothers.size_le
      · intro id hid
        have hid' : id < accepting.size := by
          rw [Array.size_push]
          omega
        rw [hothers.kept id (Nat.lt_trans hid hsize), hfragment.kept id hid',
          Array.getElem?_push_lt hid, Array.getElem?_eq_getElem hid]
      · rintro whole rule w hwhole ⟨q, hq, hw⟩
        obtain ⟨hstate, hinner, hrest⟩ := hothers.holds_parts hfragment hwhole
        cases rule with
        | zero =>
            cases hq
            obtain ⟨e, rfl, hreach⟩ := hfragment.enter hinner hw (.refl states.size)
            rw [List.append_nil] at hreach
            exact ⟨entry, List.mem_cons_self, states.size, hstate, hreach⟩
        | succ rule =>
            obtain ⟨e, he, a, ha, hreach⟩ := hothers.enter hrest ⟨q, hq, hw⟩
            rw [show index + 1 + rule = index + (rule + 1) by omega] at ha
            exact ⟨e, List.mem_cons_of_mem _ he, a, ha, hreach⟩
      · intro whole n e a rule w hwhole ha he hrun
        obtain ⟨hstate, hinner, hrest⟩ := hothers.holds_parts hfragment hwhole
        rcases List.mem_cons.1 he with rfl | he
        · obtain ⟨u, v, m, rfl, -, hu, hend⟩ := hfragment.leave hinner ha rfl hrun
          obtain ⟨rfl, rfl⟩ := hend.of_accept hstate
          rw [Accepting, hstate] at ha
          cases ha
          exact ⟨0, rfl, p, rfl, by rwa [List.append_nil]⟩
        · obtain ⟨k, rfl, q, hq, hw⟩ := hothers.leave hrest ha he hrun
          exact ⟨k + 1, by omega, q, hq, hw⟩

section Automaton

variable (rules : List Pattern)

theorem start_ofPatterns :
    (ofPatterns rules).states[(ofPatterns rules).start]? =
      some (.split (addRules 0 rules #[]).1) :=
  Array.getElem?_push_size

theorem holds_ofPatterns :
    Holds 0 (addRules 0 rules #[]).2 (ofPatterns rules).states := by
  intro id _ hlt
  show ((addRules 0 rules #[]).2.push _)[id]? = _
  rw [Array.getElem?_push_lt hlt, Array.getElem?_eq_getElem hlt]

/-- Runs from the start to an accepting state read exactly the words of its rule. -/
theorem reaches_accepting_iff {rule : Nat} {w : List Byte} :
    (∃ a, Accepting (ofPatterns rules).states a rule ∧
      Reaches (ofPatterns rules).states (ofPatterns rules).start w a) ↔
      Accepts rules rule w := by
  have hblock := ruleBlock_addRules rules 0 #[]
  constructor
  · rintro ⟨a, ha, n, hrun⟩
    obtain ⟨e, he, m, -, hrest⟩ := hrun.of_split (start_ofPatterns rules) ha
    obtain ⟨k, hk, hw⟩ := hblock.leave (holds_ofPatterns rules) ha he hrest
    obtain rfl : rule = k := by omega
    exact hw
  · intro hw
    obtain ⟨e, he, a, ha, hreach⟩ := hblock.enter (holds_ofPatterns rules) hw
    rw [Nat.zero_add] at ha
    exact ⟨a, ha, .silent ⟨_, start_ofPatterns rules, he⟩ hreach⟩

theorem mem_accepts_walk_iff {rule : Nat} {w : List Byte} :
    rule ∈ (ofPatterns rules).accepts ((ofPatterns rules).walk w) ↔ Accepts rules rule w := by
  rw [mem_accepts_iff, ← reaches_accepting_iff]
  constructor
  · rintro ⟨a, ha, haccept⟩
    exact ⟨a, haccept, ((ofPatterns rules).mem_walk_iff.1 ha).2⟩
  · rintro ⟨a, haccept, hreach⟩
    exact ⟨a, (ofPatterns rules).mem_walk_iff.2 ⟨haccept.lt_size, hreach⟩, haccept⟩

end Automaton

/-! ### The simulation -/

theorem foldl_step_nil (nfa : Nfa) (w : List Byte) : w.foldl nfa.step [] = [] := by
  induction w with
  | nil =>
      rfl
  | cons b w ih =>
      rw [List.foldl_cons, step_nil, ih]

/-- A simulation that has died accepts as little as the empty set of states. -/
theorem elim_after_tracker (nfa : Nfa) (set : List Nat) (w : List Byte) :
    (nfa.tracker.after set w).elim [] nfa.accepts = nfa.accepts (w.foldl nfa.step set) := by
  induction w generalizing set with
  | nil =>
      rfl
  | cons b w ih =>
      rw [List.foldl_cons, Tracker.after]
      cases hstep : nfa.step set b with
      | nil =>
          have hdead : nfa.tracker.step set b = none := by
            simp [tracker, hstep]
          rw [hdead, foldl_step_nil, accepts_nil]
          rfl
      | cons q next =>
          have halive : nfa.tracker.step set b = some (q :: next) := by
            simp [tracker, hstep]
          rw [halive]
          exact ih (q :: next)

theorem rulesAfter_tracker (nfa : Nfa) (w : List Byte) :
    nfa.tracker.rulesAfter w = nfa.accepts (nfa.walk w) :=
  nfa.elim_after_tracker nfa.initial w

theorem mem_rulesAfter_iff (rules : List Pattern) {rule : Nat} {w : List Byte} :
    rule ∈ (ofPatterns rules).tracker.rulesAfter w ↔ Accepts rules rule w := by
  rw [rulesAfter_tracker, mem_accepts_walk_iff]

theorem rulesAfter_eq_nil_iff (rules : List Pattern) {w : List Byte} :
    (ofPatterns rules).tracker.rulesAfter w = [] ↔ ∀ rule, ¬Accepts rules rule w := by
  simp only [List.eq_nil_iff_forall_not_mem, mem_rulesAfter_iff]

theorem longest_eq_matched_iff (rules : List Pattern) {rest : List Byte} {found : LongestMatch} :
    (ofPatterns rules).tracker.longest rest = .matched found ↔
      IsLongestMatch (Accepts rules) rest found := by
  rw [Tracker.longest_eq_matched_iff]
  constructor
  · rintro ⟨hle, hrules, hlast⟩
    refine ⟨hle, ?_, ?_, ?_⟩
    · intro rule
      rw [← hrules, mem_rulesAfter_iff]
    · rw [← hrules, rulesAfter_tracker]
      exact accepts_pairwise _ _
    · intro rule u hu haccept
      by_contra hlt
      have hnil := hlast u.length (by omega) hu.length_le
      rw [← List.prefix_iff_eq_take.1 hu, rulesAfter_eq_nil_iff] at hnil
      exact hnil rule haccept
  · rintro ⟨hle, hmem, hincreasing, hgreatest⟩
    refine ⟨hle, ?_, ?_⟩
    · rw [rulesAfter_tracker]
      apply (accepts_pairwise _ _).eq_of_mem_iff hincreasing
      intro rule
      exact (mem_accepts_walk_iff rules).trans (hmem rule).symm
    · intro n hlt hn
      rw [rulesAfter_eq_nil_iff]
      intro rule haccept
      have hlength := hgreatest rule _ (List.take_prefix n rest) haccept
      rw [List.length_take_of_le hn] at hlength
      omega

theorem exists_unmatched_iff (rules : List Pattern) (rest : List Byte) :
    (∃ read, (ofPatterns rules).tracker.longest rest = .unmatched read) ↔
      ∀ rule u, u <+: rest → ¬Accepts rules rule u := by
  cases houtcome : (ofPatterns rules).tracker.longest rest with
  | matched found =>
      obtain ⟨-, hmem, -, -⟩ := (longest_eq_matched_iff rules).1 houtcome
      have hwinner := (hmem found.winner).1 List.mem_cons_self
      simp only [reduceCtorEq, exists_false, false_iff]
      intro hnone
      exact hnone _ _ (List.take_prefix _ _) hwinner
  | unmatched read =>
      obtain ⟨hnone, -⟩ := Tracker.longest_eq_unmatched_iff.1 houtcome
      simp only [Outcome.unmatched.injEq, exists_eq', true_iff]
      intro rule u hu
      have hnil := hnone u.length hu.length_le
      rw [← List.prefix_iff_eq_take.1 hu, rulesAfter_eq_nil_iff] at hnil
      exact hnil rule

/-- **The simulation finds the longest match.** -/
theorem longestAt_ofPatterns_iff (rules : List Pattern) (text : List Byte) (offset : Nat) :
    ((∃ found, (ofPatterns rules).tracker.longestAt text offset = .matched found) ↔
      ∃ rule u, u <+: text.drop offset ∧ Accepts rules rule u) ∧
    ∀ found, (ofPatterns rules).tracker.longestAt text offset = .matched found ↔
      IsLongestMatch (Accepts rules) (text.drop offset) found := by
  have hshift : ∀ found, (ofPatterns rules).tracker.longestAt text offset = .matched found ↔
      (ofPatterns rules).tracker.longest (text.drop offset) = .matched found :=
    fun found => Outcome.shift_eq_matched_iff
  constructor
  · simp only [hshift]
    have hnone := exists_unmatched_iff rules (text.drop offset)
    constructor
    · rintro ⟨found, hfound⟩
      by_contra habsent
      obtain ⟨read, hread⟩ := hnone.2 fun rule u hu haccept => habsent ⟨rule, u, hu, haccept⟩
      rw [hfound] at hread
      cases hread
    · rintro ⟨rule, u, hu, haccept⟩
      cases houtcome : (ofPatterns rules).tracker.longest (text.drop offset) with
      | matched found =>
          exact ⟨found, rfl⟩
      | unmatched read =>
          exact absurd haccept (hnone.1 ⟨read, houtcome⟩ rule u hu)
  · intro found
    rw [hshift, longest_eq_matched_iff]

end Nfa
end Munch
