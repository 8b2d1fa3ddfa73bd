import Munch.Position
import Munch.Text.Quoted

/-!
# Errors of compilation and scanning

An error is a cause and the position where it arose.  Its name, its message, the
advice it carries and the rule it is attributed to are read off the cause.
-/

namespace Munch

/-- What can go wrong. -/
inductive ErrorKind
  /-- The pattern of a rule cannot be read. -/
  | invalidPattern (rule offset : Nat) (reason : String)
  /-- Determinizing the rules needs more states than allowed. -/
  | automatonTooLarge (states limit : Nat)
  /-- The rules were not compiled since the last one was added. -/
  | notCompiled
  /-- No rule matches at the cursor, where `text` stands. -/
  | unconsumedInput (text : String) (failedAt : Nat)
  /-- The action of a rule refused its match. -/
  | actionFailed (rule : Nat) (message : String)
  /-- A rule won without consuming anything. -/
  | zeroLengthMatch (rule : Nat)
deriving DecidableEq, Repr

namespace ErrorKind

/-- The name of the kind. -/
def name : ErrorKind → String
  | invalidPattern .. => "InvalidPattern"
  | automatonTooLarge .. => "AutomatonTooLarge"
  | notCompiled => "NotCompiled"
  | unconsumedInput .. => "UnconsumedInput"
  | actionFailed .. => "ActionFailed"
  | zeroLengthMatch _ => "ZeroLengthMatch"

/-- What happened, in words. -/
def message : ErrorKind → String
  | invalidPattern rule offset reason =>
    "invalid pattern for rule " ++ toString rule ++ " at byte " ++ toString offset ++ ": " ++ reason
  | automatonTooLarge states limit =>
    "automaton needs " ++ toString states ++ " states, limit is " ++ toString limit
  | notCompiled => "lexer has not been compiled"
  | unconsumedInput text failedAt =>
    "unconsumed input: " ++ Quoted.quote text ++ " (automaton failed at offset "
      ++ toString failedAt ++ ")"
  | actionFailed rule message => "action of rule " ++ toString rule ++ " failed: " ++ message
  | zeroLengthMatch rule => "zero-length match of rule " ++ toString rule ++ " would not terminate"

/-- What to do about it, where there is something to say. -/
def tip : ErrorKind → Option String
  | invalidPattern rule offset reason =>
    some ("Pattern of rule " ++ toString rule ++ " is malformed at byte " ++ toString offset
      ++ ": " ++ reason)
  | automatonTooLarge _ limit =>
    some ("The rules determinize to more than " ++ toString limit
      ++ " states, simplify them or raise `max_dfa_states`")
  | notCompiled => some "Call `compile` after the last `add` and before creating a scanner"
  | unconsumedInput .. => none
  | actionFailed _ message => some message
  | zeroLengthMatch rule =>
    some ("Rule " ++ toString rule
      ++ " matched the empty string, make its pattern consume at least one byte")

/-- The rule to which the error is attributed. -/
def rule? : ErrorKind → Option Nat
  | invalidPattern rule .. => some rule
  | actionFailed rule _ => some rule
  | zeroLengthMatch rule => some rule
  | _ => none

end ErrorKind

/-- A cause and its position. -/
structure LexError where
  kind : ErrorKind
  position : Position
deriving DecidableEq, Repr

namespace LexError

/-- Whether no rule matched. -/
def isUnconsumedInput (e : LexError) : Bool :=
  match e.kind with
  | .unconsumedInput .. => true
  | _ => false

/-- What happened, and at which line and column. -/
def message (e : LexError) : String := e.kind.message ++ " at " ++ e.position.display

end LexError
end Munch
