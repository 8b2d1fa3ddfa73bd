import Munch.Config
import Munch.Dfa
import Munch.Nfa.Construction

/-!
# Matchers

A matcher recognizes a whole list of rules at once, by simulation or from a
table.  Both answer the same question: how long is the longest prefix that some
rule accepts, and which rules accept exactly that prefix.
-/

namespace Munch

/-- A compiled recognizer. -/
inductive Matcher
  | simulated (nfa : Nfa)
  | tabulated (dfa : Dfa)

namespace Matcher

/-- The matcher that a configuration asks for. -/
def build (rules : List Pattern) (config : Config) : Except ErrorKind Matcher :=
  let compiled := Nfa.ofPatterns rules
  if config.determinize then
    match Dfa.ofNfa compiled config.maxDfaStates with
    | .error e => .error e
    | .ok dfa => .ok (.tabulated dfa)
  else .ok (.simulated compiled)

/-- The longest match at the front of a text. -/
def longest : Matcher → List Byte → Outcome
  | simulated nfa, text => nfa.tracker.longest text
  | tabulated dfa, text => dfa.tracker.longest text

/-- The longest match at `offset`. -/
def longestAt (m : Matcher) (text : List Byte) (offset : Nat) : Outcome :=
  (m.longest (text.drop offset)).shift offset

end Matcher
end Munch
