import Munch.Matcher
import Munch.Proofs.Dfa.Subsets
import Munch.Proofs.Tracker

/-!
# The table and the simulation give the same answers

A state of the table is related to the set of states that it stands for.  Related
states move to related states; the table dies in the state of the empty set, which
is where the simulation dies.

**Results.**
* `Dfa.longest_eq_of_simulates`: both find the same outcome in every text.
* `Matcher.longest_build`: whichever matcher is built, it answers as the simulation.
-/

namespace Munch

theorem Nfa.initial_ofPatterns_ne_nil (rules : List Pattern) :
    (Nfa.ofPatterns rules).initial ≠ [] := by
  have hstart : (Nfa.ofPatterns rules).start ∈ (Nfa.ofPatterns rules).initial := by
    rw [Nfa.initial, Nfa.mem_closure_iff]
    refine ⟨?_, _, List.mem_cons_self, .refl _⟩
    simp [Nfa.ofPatterns]
  exact List.ne_nil_of_mem hstart

namespace Dfa

/-- A state of the table dies under a byte when the set it stands for does. -/
theorem Simulates.next_eq_dead_iff {dfa : Dfa} {nfa : Nfa} (h : dfa.Simulates nfa) {q : Nat}
    {set : List Nat} (hq : dfa.subsets[q]? = some set) (b : Byte) :
    dfa.next q b = dead ↔ nfa.step set b = [] := by
  have hnext := h.next_eq b hq
  constructor
  · intro hdead
    rw [hdead, h.dead_eq] at hnext
    exact (Option.some.inj hnext).symm
  · intro hempty
    rw [hempty] at hnext
    exact h.distinct hnext h.dead_eq

/-- Both trackers die together, and otherwise move to related states. -/
theorem Simulates.rel_step {dfa : Dfa} {nfa : Nfa} (h : dfa.Simulates nfa) {q : Nat}
    {set : List Nat} (hq : dfa.subsets[q]? = some set) (b : Byte) :
    Option.Rel (fun p s => dfa.subsets[p]? = some s) (dfa.tracker.step q b)
      (nfa.tracker.step set b) := by
  have hdead := h.next_eq_dead_iff hq b
  have hnext := h.next_eq b hq
  simp only [tracker, Nfa.tracker]
  cases hstep : nfa.step set b with
  | nil =>
      rw [if_pos (hdead.2 hstep)]
      exact .none
  | cons p others =>
      rw [hstep] at hdead hnext
      rw [if_neg (fun heq => List.cons_ne_nil p others (hdead.1 heq))]
      exact .some hnext

theorem longest_eq_of_simulates {dfa : Dfa} {nfa : Nfa} (h : dfa.Simulates nfa)
    (text : List Byte) : dfa.tracker.longest text = nfa.tracker.longest text := by
  apply Tracker.longest_eq_of_bisimulation (R := fun q set => dfa.subsets[q]? = some set)
  · exact h.start_eq
  · intro q set b hq
    exact h.rel_step hq b
  · intro q set hq
    exact h.accepts_eq hq

theorem longest_ofNfa {rules : List Pattern} {limit : Nat} {dfa : Dfa}
    (h : ofNfa (Nfa.ofPatterns rules) limit = .ok dfa) (text : List Byte) :
    dfa.tracker.longest text = (Nfa.ofPatterns rules).tracker.longest text :=
  longest_eq_of_simulates (simulates_ofNfa (Nfa.initial_ofPatterns_ne_nil rules) h) text

end Dfa

theorem Matcher.longest_build {rules : List Pattern} {config : Config} {m : Matcher}
    (h : Matcher.build rules config = .ok m) (text : List Byte) :
    m.longest text = (Nfa.ofPatterns rules).tracker.longest text := by
  simp only [build] at h
  split at h
  · split at h
    · cases h
    · rename_i dfa hdfa
      cases h
      exact Dfa.longest_ofNfa hdfa text
  · cases h
    rfl

end Munch
