import Munch.Nfa.Basic
import Munch.Pattern.Basic

/-!
# Automata from patterns

**Input.**  A list of patterns, one for each rule.

**Algorithm.**  A fragment is built backwards: it is told the state that follows
it, appends its own states to those built so far, and answers with its entry.
Rule `i` is a fragment in front of a state that accepts for `i`; the start state
comes last and splits to the entries of all rules in order.

Fragments only append states.  The one exception is the loop, which reserves a
state, builds its body in front of it, and then fills that state in.
-/

namespace Munch
namespace Nfa

/-- A way to build states in front of a given state: from the number of that state
and the states so far, the entry and the states with the fragment added. -/
abbrev Fragment := Nat → Array State → Nat × Array State

namespace Fragment

/-- One more state. -/
def push (state : State) (states : Array State) : Nat × Array State :=
  (states.size, states.push state)

/-- The fragment that reads nothing. -/
def nothing : Fragment := fun next states => (next, states)

/-- The fragment that reads one byte of a set. -/
def oneOf (set : ByteSet) : Fragment := fun next states => push (.bytes set next) states

/-- The first fragment in front of the second. -/
def followedBy (first second : Fragment) : Fragment := fun next states =>
  let (entry, states) := second next states
  first entry states

/-- So many copies, one in front of the other. -/
def times (body : Fragment) : Nat → Fragment
  | 0 => nothing
  | n + 1 => fun next states =>
    let (entry, states) := body next states
    times body n entry states

/-- Any number of copies: a split that leads into the body, which leads back to
the split, or out. -/
def loop (body : Fragment) : Fragment := fun next states =>
  let hole := states.size
  let (entry, states) := body hole (states.push (.split []))
  (hole, states.setIfInBounds hole (.split [entry, next]))

/-- Up to `n` further copies in front of `tail`, each of which may be left out
together with those behind it by going on to `exit`. -/
def optional (body : Fragment) (exit : Nat) : Nat → Fragment
  | 0 => nothing
  | n + 1 => fun tail states =>
    let (entry, states) := body tail states
    let (tail, states) := push (.split [entry, exit]) states
    optional body exit n tail states

/-- At least `min` copies and at most `max`, if that is given. -/
def repeated (body : Fragment) (min : Nat) (max : Option Nat) : Fragment := fun next states =>
  let (entry, states) :=
    match max with
    | none => loop body next states
    | some max => optional body next (max - min) next states
  times body min entry states

end Fragment

mutual

/-- The fragment of a pattern. -/
def Fragment.ofPattern : Pattern → Fragment
  | .empty => nothing
  | .oneOf set => oneOf set
  | .sequence parts => ofSequence parts
  | .choice branches => fun next states =>
    let (entries, states) := entriesOf branches next states
    push (.split entries) states
  | .repeated body min max => repeated (ofPattern body) min max

/-- The fragments of the parts, one in front of the other. -/
def Fragment.ofSequence : List Pattern → Fragment
  | [] => nothing
  | part :: parts => followedBy (ofPattern part) (ofSequence parts)

/-- The entries of fragments that all go on to the same state, built in order. -/
def Fragment.entriesOf : List Pattern → Nat → Array State → List Nat × Array State
  | [], _, states => ([], states)
  | branch :: branches, next, states =>
    let (entry, states) := ofPattern branch next states
    let (entries, states) := entriesOf branches next states
    (entry :: entries, states)

end

/-- Appends a fragment for each rule, numbering the rules from `index`, and
answers with the entries. -/
def addRules (index : Nat) : List Pattern → Array State → List Nat × Array State
  | [], states => ([], states)
  | rule :: rules, states =>
    let (entry, states) := Fragment.ofPattern rule states.size (states.push (.accept index))
    let (entries, states) := addRules (index + 1) rules states
    (entry :: entries, states)

/-- The automaton of a list of rules. -/
def ofPatterns (rules : List Pattern) : Nfa :=
  let (entries, states) := addRules 0 rules #[]
  { states := states.push (.split entries), start := states.size, ruleCount := rules.length }

end Nfa
end Munch
