import Std.Data.TreeSet
import Munch.ByteSet
import Munch.Longest

/-!
# Nondeterministic automata

States are numbered, and a set of states is the increasing list of its numbers.
A state reads one byte, splits silently, or accepts a rule.

**Algorithm.**  `Nfa.closure` follows silent moves depth first and keeps the
states it has met in an ordered set, so its listing does not depend on the
order of the search.  `Nfa.step` closes the successors of a set of states under
one byte.

**Results.**
* `Nfa.unseen_insert_lt`: every state that the search meets for the first time
  leaves fewer to meet, which ends the search also on silent cycles.
-/

namespace Munch
namespace Nfa

/-- One state of an automaton. -/
inductive State
  /-- Reads a byte of the set and goes on to `next`. -/
  | bytes (set : ByteSet) (next : Nat)
  /-- Moves to any of the targets without reading. -/
  | split (targets : List Nat)
  /-- Accepts for the rule. -/
  | accept (rule : Nat)
deriving DecidableEq

/-- The states reached without reading. -/
def State.silent : State → List Nat
  | split targets => targets
  | _ => []

/-- The state reached by reading `b`. -/
def State.after? (b : Byte) : State → Option Nat
  | bytes set next => if set.contains b then some next else none
  | _ => none

/-- The rule that is accepted. -/
def State.rule? : State → Option Nat
  | accept rule => some rule
  | _ => none

/-- The set of bytes that is read. -/
def State.set? : State → Option ByteSet
  | bytes set _ => some set
  | _ => none

end Nfa

/-- A recognizer for a list of rules. -/
structure Nfa where
  states : Array Nfa.State
  start : Nat
  ruleCount : Nat

namespace Nfa

/-- The set of a state's transition, for every state that reads, in the order of
the states. -/
def byteSets (nfa : Nfa) : List ByteSet := nfa.states.toList.filterMap State.set?

/-- How many of the states are not in `seen`. -/
def unseen (nfa : Nfa) (seen : Std.TreeSet Nat) : Nat :=
  ((List.range nfa.states.size).filter fun id => !seen.contains id).length

theorem unseen_insert_lt {nfa : Nfa} {seen : Std.TreeSet Nat} {id : Nat}
    (hid : id < nfa.states.size) (hnew : seen.contains id = false) :
    nfa.unseen (seen.insert id) < nfa.unseen seen := by
  have hsub : (List.range nfa.states.size).filter (fun x => !(seen.insert id).contains x) =
      ((List.range nfa.states.size).filter (fun x => !seen.contains x)).filter (fun x => x ≠ id) := by
    rw [List.filter_filter]
    apply List.filter_congr
    intro x _
    by_cases hx : id = x
    · simp [Std.TreeSet.contains_insert, hx]
    · simp [Std.TreeSet.contains_insert, hx, Ne.symm hx]
  unfold unseen
  rw [hsub, List.length_filter_lt_length_iff_exists]
  exact ⟨id, by simp [hid, hnew], by simp⟩

/-- Adds to `seen` every state that silent moves reach from `pending`. -/
def reach (nfa : Nfa) : Std.TreeSet Nat → List Nat → Std.TreeSet Nat
  | seen, [] => seen
  | seen, id :: rest =>
    if h : id < nfa.states.size ∧ seen.contains id = false then
      reach nfa (seen.insert id) (nfa.states[id].silent ++ rest)
    else reach nfa seen rest
termination_by seen pending => (nfa.unseen seen, pending.length)
decreasing_by
  · exact Prod.Lex.left _ _ (unseen_insert_lt h.1 h.2)
  · exact Prod.Lex.right _ (Nat.lt_succ_self _)

/-- The states that silent moves reach from `seeds`, in increasing order. -/
def closure (nfa : Nfa) (seeds : List Nat) : List Nat := (nfa.reach ∅ seeds).toList

/-- The states that one of `states` reaches by reading `b`. -/
def targets (nfa : Nfa) (states : List Nat) (b : Byte) : List Nat :=
  states.filterMap fun id => nfa.states[id]?.bind (State.after? b)

/-- The closed set of states after `states` have read `b`. -/
def step (nfa : Nfa) (states : List Nat) (b : Byte) : List Nat := nfa.closure (nfa.targets states b)

/-- The rules accepted by some of `states`, in increasing order. -/
def accepts (nfa : Nfa) (states : List Nat) : List Nat :=
  (Std.TreeSet.ofList (states.filterMap fun id => nfa.states[id]?.bind State.rule?)).toList

/-- The closed set of states in which nothing has been read. -/
def initial (nfa : Nfa) : List Nat := nfa.closure [nfa.start]

/-- Simulation that keeps every live state at once and dies with the last. -/
def tracker (nfa : Nfa) : Tracker (List Nat) where
  start := nfa.initial
  step states b :=
    match nfa.step states b with
    | [] => none
    | next => some next
  accepts := nfa.accepts

end Nfa
end Munch
