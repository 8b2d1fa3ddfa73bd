import Munch.ByteSet

/-!
# Patterns

A pattern describes a regular language over bytes.  Sequences and choices are
lists of any length, and a repetition carries its bounds as they were written:
nothing here simplifies a pattern or checks it.
-/

namespace Munch

/-- A regular expression over bytes. -/
inductive Pattern
  /-- The empty word. -/
  | empty
  /-- One byte of a set. -/
  | oneOf (set : ByteSet)
  /-- The parts one after the other. -/
  | sequence (parts : List Pattern)
  /-- Any one of the branches. -/
  | choice (branches : List Pattern)
  /-- The body at least `min` times, and at most `max` times if that is given. -/
  | repeated (body : Pattern) (min : Nat) (max : Option Nat)

namespace Pattern

instance : Inhabited Pattern := ⟨empty⟩

/-- The largest count that a written repetition may have. -/
def maxCount : Nat := 255

/-- The parts in sequence, where no part is the empty pattern and a single part
stands for itself. -/
def sequenceOf : List Pattern → Pattern
  | [] => empty
  | [part] => part
  | parts => sequence parts

/-- A choice between branches, where a single branch stands for itself. -/
def choiceOf : List Pattern → Pattern
  | [branch] => branch
  | branches => choice branches

/-- The pattern of exactly one word. -/
def literal (word : List Byte) : Pattern :=
  sequenceOf (word.map fun b => oneOf (ByteSet.single b))

mutual

/-- Whether the pattern accepts the empty word. -/
def matchesEmpty : Pattern → Bool
  | empty => true
  | oneOf _ => false
  | sequence parts => allMatchEmpty parts
  | choice branches => someMatchesEmpty branches
  | repeated body min _ => min == 0 || body.matchesEmpty

/-- Whether every pattern of a list accepts the empty word. -/
def allMatchEmpty : List Pattern → Bool
  | [] => true
  | part :: parts => part.matchesEmpty && allMatchEmpty parts

/-- Whether some pattern of a list accepts the empty word. -/
def someMatchesEmpty : List Pattern → Bool
  | [] => false
  | branch :: branches => branch.matchesEmpty || someMatchesEmpty branches

end

end Pattern
end Munch
