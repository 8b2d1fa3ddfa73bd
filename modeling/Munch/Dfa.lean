import Std.Data.HashMap
import Munch.ByteClasses
import Munch.Error
import Munch.Nfa.Basic

/-!
# Deterministic automata

**Input.**  A nondeterministic automaton and a limit on the number of states.

**Algorithm.**  Each state stands for a set of states of the given automaton.
State 0 is dead and stands for the empty set, state 1 is the start.  The rows of
the transition table are filled in the order of the states; the entry for a byte
class is found by stepping on the least byte of the class, and a set that has no
number yet gets the next one.  States are therefore numbered breadth first.

A set that would be numbered at or past the limit ends the construction.

**Results.**
* `Census.size_le`: the states never outgrow the limit, or the two that always
  exist; the construction ends because rows are filled up to that bound.
-/

namespace Munch

/-- A recognizer with one state at a time. -/
structure Dfa where
  classes : ByteClasses
  /-- The set of states that each state stands for. -/
  subsets : Array (List Nat)
  /-- For each state, its successors by byte class. -/
  rows : Array (Array Nat)
  /-- For each state, the rules it accepts. -/
  accepted : Array (List Nat)

namespace Dfa

/-- The state from which nothing is accepted. -/
def dead : Nat := 0

/-- The state in which nothing has been read. -/
def start : Nat := 1

/-- The number of states, the dead state included. -/
def stateCount (dfa : Dfa) : Nat := dfa.subsets.size

/-- The state after `state` has read `b`. -/
def next (dfa : Dfa) (state : Nat) (b : Byte) : Nat :=
  (dfa.rows.getD state #[]).getD (dfa.classes.number b) dead

/-- The rules accepted in a state, in increasing order. -/
def accepts (dfa : Dfa) (state : Nat) : List Nat := dfa.accepted.getD state []

/-- Walking the table, which ends in the dead state. -/
def tracker (dfa : Dfa) : Tracker Nat where
  start := start
  step state b :=
    let target := dfa.next state b
    if target = dead then none else some target
  accepts := dfa.accepts

/-- The sets that have a number, at most `limit` of them or the first two. -/
structure Census (limit : Nat) where
  /-- The sets in the order of their numbers. -/
  sets : Array (List Nat)
  /-- The number of each set. -/
  number : Std.HashMap (List Nat) Nat
  size_le : sets.size ≤ max limit 2

namespace Census

variable {limit : Nat}

/-- The empty set has number 0 and the set of the start state number 1. -/
def first (limit : Nat) (initial : List Nat) : Census limit where
  sets := #[[], initial]
  number := ((∅ : Std.HashMap (List Nat) Nat).insert [] dead).insert initial start
  size_le := Nat.le_max_right limit 2

/-- The number of a set, which gets the next one if it is new. -/
def intern (census : Census limit) (set : List Nat) : Except ErrorKind (Nat × Census limit) :=
  match census.number[set]? with
  | some n => .ok (n, census)
  | none =>
    if h : census.sets.size < limit then
      .ok (census.sets.size,
        { sets := census.sets.push set
          number := census.number.insert set census.sets.size
          size_le := by rw [Array.size_push]; exact Nat.le_trans h (Nat.le_max_left limit 2) })
    else .error (.automatonTooLarge (census.sets.size + 1) limit)

/-- The numbers of the successors of `set` under the bytes, in order. -/
def successors (nfa : Nfa) (set : List Nat) :
    List Byte → Census limit → Except ErrorKind (List Nat × Census limit)
  | [], census => .ok ([], census)
  | b :: bytes, census =>
    match census.intern (nfa.step set b) with
    | .error e => .error e
    | .ok (n, grown) =>
      match successors nfa set bytes grown with
      | .error e => .error e
      | .ok (row, last) => .ok (n :: row, last)

/-- Fills the rows of the table that are still missing, while there are numbered
sets without one. -/
def explore (nfa : Nfa) (bytes : List Byte) (rows : Array (Array Nat)) (census : Census limit) :
    Except ErrorKind (Array (Array Nat) × Census limit) :=
  if h : rows.size < census.sets.size then
    match successors nfa census.sets[rows.size] bytes census with
    | .error e => .error e
    | .ok (row, grown) => explore nfa bytes (rows.push row.toArray) grown
  else .ok (rows, census)
termination_by max limit 2 - rows.size
decreasing_by
  have := census.size_le
  rw [Array.size_push]
  omega

end Census

/-- The automaton that stands for the reachable sets of states of `nfa`, if they
fit the limit. -/
def ofNfa (nfa : Nfa) (limit : Nat) : Except ErrorKind Dfa :=
  let classes := ByteClasses.ofSets nfa.byteSets.eraseDups
  let deadRow := Array.replicate classes.count dead
  match (Census.first limit nfa.initial).explore nfa classes.representatives #[deadRow] with
  | .error e => .error e
  | .ok (rows, census) =>
    .ok
      { classes := classes
        subsets := census.sets
        rows := rows
        accepted := census.sets.map nfa.accepts }

end Dfa
end Munch
