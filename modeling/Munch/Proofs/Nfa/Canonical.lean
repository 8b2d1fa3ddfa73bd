import Munch.Proofs.Nfa.Isolation

/-!
# Closures are canonical

A closure lists its states in increasing order, so it is told by its members, and these by the
set of the seeds: their order and how often they occur do not matter, nor does the order of
the search.

**Results.**
* `closure_congr`, `step_congr`: closures and steps depend only on the set they are of.
* `closure_closure`, `mem_closure_append_iff`: closing again adds nothing, and the closure of
  two lists is the union of their closures.
* `closure_canonical`: in the automaton of some rules, searches end with the states that silent
  moves reach, and closures and steps are determined by them.
-/

namespace Munch
namespace Nfa

variable (nfa : Nfa) {seeds more : List Nat}

theorem closure_congr (h : ∀ s, s ∈ more ↔ s ∈ seeds) : nfa.closure more = nfa.closure seeds := by
  apply (nfa.closure_pairwise more).eq_of_mem_iff (nfa.closure_pairwise seeds)
  intro q
  simp only [mem_closure_iff, h]

theorem targets_congr (h : ∀ s, s ∈ more ↔ s ∈ seeds) (b : Byte) (q : Nat) :
    q ∈ nfa.targets more b ↔ q ∈ nfa.targets seeds b := by
  simp only [mem_targets_iff, h]

theorem step_congr (h : ∀ s, s ∈ more ↔ s ∈ seeds) (b : Byte) :
    nfa.step more b = nfa.step seeds b :=
  nfa.closure_congr fun q => nfa.targets_congr h b q

theorem closure_closure (seeds : List Nat) :
    nfa.closure (nfa.closure seeds) = nfa.closure seeds := by
  apply (nfa.closure_pairwise _).eq_of_mem_iff (nfa.closure_pairwise seeds)
  intro q
  simp only [mem_closure_iff]
  constructor
  · rintro ⟨hlt, p, ⟨-, s, hs, hfirst⟩, hrest⟩
    exact ⟨hlt, s, hs, hfirst.trans hrest⟩
  · rintro ⟨hlt, s, hs, hreach⟩
    exact ⟨hlt, q, ⟨hlt, s, hs, hreach⟩, .refl q⟩

theorem mem_closure_append_iff {q : Nat} :
    q ∈ nfa.closure (seeds ++ more) ↔ q ∈ nfa.closure seeds ∨ q ∈ nfa.closure more := by
  simp only [mem_closure_iff, List.mem_append, or_and_right, exists_or, and_or_left]

variable {nfa}

/-- In a closed automaton, what states reach silently are states. -/
theorem Closed.lt_of_silent (h : Closed nfa.states) {s q : Nat}
    (hreach : Relation.ReflTransGen (Silent nfa.states) s q) (hs : s < nfa.states.size) :
    q < nfa.states.size := by
  induction hreach with
  | refl =>
      exact hs
  | tail _ move _ =>
      exact h _ _ move.leads

theorem Closed.mem_closure_iff (h : Closed nfa.states) (hseeds : ∀ s ∈ seeds, s < nfa.states.size)
    {q : Nat} : q ∈ nfa.closure seeds ↔
      ∃ s ∈ seeds, Relation.ReflTransGen (Silent nfa.states) s q := by
  simp only [nfa.mem_closure_iff, reaches_nil_iff, and_iff_right_iff_imp, forall_exists_index,
    and_imp]
  exact fun s hs hreach => h.lt_of_silent hreach (hseeds s hs)

/-- A search that can go on no further has nothing pending, and has seen the closure. -/
theorem Closed.stuck_eq (h : Closed nfa.states) (hseeds : ∀ s ∈ seeds, s < nfa.states.size)
    {c : SearchState} (turns : Relation.ReflTransGen (Turn nfa) (∅, seeds) c)
    (hstuck : ¬∃ d, Turn nfa c d) : c.2 = [] ∧ c.1.toList = nfa.closure seeds := by
  obtain ⟨seen, pending⟩ := c
  cases pending with
  | nil =>
      exact ⟨rfl, (searching_of_turns turns).toList_eq_closure⟩
  | cons id rest =>
      have hid : id < nfa.states.size :=
        pending_lt_of_turns h turns hseeds id List.mem_cons_self
      have hturn : ∃ d, Turn nfa (seen, [] ++ id :: rest) d := exists_turn hid
      exact absurd hturn hstuck

/-- Closing and stepping from the seeds, described without any search. -/
structure CanonicalFrom (nfa : Nfa) (seeds : List Nat) : Prop where
  /-- Every search ends, whichever pending state it takes, -/
  terminates : WellFounded fun c d => Turn nfa d c
  /-- the search that takes the last one is such a search, -/
  takes_last : ∀ (seen : Std.TreeSet Nat) (before : List Nat) (id : Nat), id < nfa.states.size →
    Turn nfa (seen, before ++ [id]) (nfa.takeLast seen before id)
  /-- and at its end it has seen the closure, with nothing pending. -/
  complete : ∀ c, Relation.ReflTransGen (Turn nfa) (∅, seeds) c → (¬∃ d, Turn nfa c d) →
    c.2 = [] ∧ c.1.toList = nfa.closure seeds
  increasing : (nfa.closure seeds).Pairwise (· < ·)
  mem_iff : ∀ q, q ∈ nfa.closure seeds ↔
    ∃ s ∈ seeds, Relation.ReflTransGen (Silent nfa.states) s q
  congr : ∀ more : List Nat, (∀ s, s ∈ more ↔ s ∈ seeds) → nfa.closure more = nfa.closure seeds
  idempotent : nfa.closure (nfa.closure seeds) = nfa.closure seeds
  mem_append_iff : ∀ (more : List Nat) (q : Nat), q ∈ nfa.closure (seeds ++ more) ↔
    q ∈ nfa.closure seeds ∨ q ∈ nfa.closure more
  step_eq : ∀ (b : Byte) (next : List Nat),
    (∀ q, q ∈ next ↔ ∃ p ∈ seeds, Reads nfa.states p b q) → nfa.step seeds b = nfa.closure next
  step_congr : ∀ (b : Byte) (more : List Nat), (∀ s, s ∈ more ↔ s ∈ seeds) →
    nfa.step more b = nfa.step seeds b

theorem Closed.canonicalFrom (h : Closed nfa.states) (hseeds : ∀ s ∈ seeds, s < nfa.states.size) :
    nfa.CanonicalFrom seeds where
  terminates := turn_wellFounded nfa
  takes_last _ _ _ hid := turn_takeLast nfa hid
  complete _ turns hstuck := h.stuck_eq hseeds turns hstuck
  increasing := nfa.closure_pairwise seeds
  mem_iff _ := h.mem_closure_iff hseeds
  congr _ hmore := nfa.closure_congr hmore
  idempotent := nfa.closure_closure seeds
  mem_append_iff _ _ := nfa.mem_closure_append_iff
  step_eq b next hnext := by
    apply nfa.closure_congr
    intro q
    rw [mem_targets_iff, hnext]
  step_congr b _ hmore := nfa.step_congr hmore b

/-- **Closures are exact and canonical** in the automaton of some rules. -/
theorem closure_canonical (rules : List Pattern)
    (hseeds : ∀ s ∈ seeds, s < (ofPatterns rules).states.size) :
    (ofPatterns rules).CanonicalFrom seeds :=
  (wellFormed_ofPatterns rules).closed.canonicalFrom hseeds

/-- The pattern is `(a*)*`, whose two loops lead to each other silently. -/
theorem closure_canonical_loops :
    (∀ q, q ∈ [0, 1, 2, 3] ↔ ∃ s ∈ [2, 1, 2], Relation.ReflTransGen
      (Silent (ofPatterns [.repeated (.repeated (.literal [97]) 0 none) 0 none]).states) s q) ∧
    (ofPatterns [.repeated (.repeated (.literal [97]) 0 none) 0 none]).closure [1, 2] =
      (ofPatterns [.repeated (.repeated (.literal [97]) 0 none) 0 none]).closure [2, 1, 2] := by
  have hsize : (ofPatterns [.repeated (.repeated (.literal [97]) 0 none) 0 none]).states.size =
      5 := by
    cbv
  have hclosure : (ofPatterns [.repeated (.repeated (.literal [97]) 0 none) 0 none]).closure
      [2, 1, 2] = [0, 1, 2, 3] := by
    cbv
  have hseeds : ∀ s ∈ [2, 1, 2],
      s < (ofPatterns [.repeated (.repeated (.literal [97]) 0 none) 0 none]).states.size := by
    rw [hsize]
    decide
  have hcanonical := closure_canonical [.repeated (.repeated (.literal [97]) 0 none) 0 none] hseeds
  refine ⟨?_, hcanonical.congr [1, 2] (by simp)⟩
  intro q
  rw [← hclosure]
  exact hcanonical.mem_iff q

end Nfa
end Munch
