import Munch.Pattern.Basic

/-!
# Writing patterns

Two ways back from the meaning of a pattern to its spelling: a whole pattern is
written so that every part of it is one operand, and a word is written so that
each of its bytes stands for itself.
-/

namespace Munch
namespace Pattern

/-- The digits of a number. -/
def decimal (n : Nat) : List Byte := (Nat.toDigits 10 n).map fun c => UInt8.ofNat c.toNat

/-- A byte by its hexadecimal digits. -/
def hexEscaped (b : Byte) : List Byte :=
  Ascii.backslash :: Ascii.lowerX ::
    [Nat.digitChar (b.toNat / 16), Nat.digitChar (b.toNat % 16)].map fun c => UInt8.ofNat c.toNat

/-- The bounds of a repetition in braces. -/
def printBounds (min : Nat) (max : Option Nat) : List Byte :=
  Ascii.openBrace :: decimal min ++
    Ascii.comma :: (max.elim [] decimal ++ [Ascii.closeBrace])

mutual

/-- The pattern as one operand. -/
def print : Pattern → List Byte
  | empty => [Ascii.openParen, Ascii.closeParen]
  | oneOf set =>
    Ascii.openBracket :: (set.members.flatMap hexEscaped ++ [Ascii.closeBracket])
  | sequence parts => Ascii.openParen :: (printSequence parts ++ [Ascii.closeParen])
  | choice branches => Ascii.openParen :: (printChoice branches ++ [Ascii.closeParen])
  | repeated body min max =>
    Ascii.openParen :: (print body ++ printBounds min max ++ [Ascii.closeParen])

/-- The operands one after the other. -/
def printSequence : List Pattern → List Byte
  | [] => []
  | part :: parts => print part ++ printSequence parts

/-- The operands with bars between them. -/
def printChoice : List Pattern → List Byte
  | [] => []
  | [branch] => print branch
  | branch :: branches => print branch ++ Ascii.bar :: printChoice branches

end

/-- A word as a pattern: letters and digits as they are, and every other byte
behind a backslash. -/
def escapeWord (word : List Byte) : List Byte :=
  word.flatMap fun b => if b.isAlphanumeric then [b] else [Ascii.backslash, b]

end Pattern
end Munch
