import Munch.Byte

/-!
# Why a pattern is refused

An error of the pattern parser is a reason together with the offset of the byte
that is to blame.
-/

namespace Munch
namespace Pattern

/-- What is wrong with a pattern. -/
inductive Reason
  /-- A group is never closed. -/
  | unclosedGroup
  /-- A closing parenthesis has no opening one. -/
  | unbalancedClose
  /-- A class is never closed. -/
  | unclosedClass
  /-- A class has no member. -/
  | emptyClass
  /-- A quantifier stands where an operand is expected. -/
  | missingOperand (quantifier : Byte)
  /-- A brace does not open a counted repetition. -/
  | malformedRepetition
  /-- The bounds of a repetition are the wrong way round. -/
  | invertedRepetition (min max : Nat)
  /-- A count is larger than `maxCount`. -/
  | countTooLarge (limit : Nat)
  /-- The pattern ends in a backslash. -/
  | trailingBackslash
  /-- A letter or digit after a backslash means nothing. -/
  | unknownEscape (letter : Byte)
  /-- A hexadecimal escape lacks its digits. -/
  | badHexEscape
  /-- An end of a range is a set of bytes. -/
  | invalidRangeEndpoint
  /-- The ends of a range are the wrong way round. -/
  | reversedRange (lo hi : Byte)
  /-- An operand is expected and the pattern has ended. -/
  | patternEnded
  /-- A byte is left over that closes nothing. -/
  | unexpectedByte (byte : Byte)
deriving DecidableEq, Repr

/-- The reason in words. -/
def Reason.message : Reason → String
  | unclosedGroup => "unclosed '('"
  | unbalancedClose => "unbalanced ')'"
  | unclosedClass => "unclosed '['"
  | emptyClass => "character class matches nothing"
  | missingOperand quantifier => "quantifier '" ++ quantifier.char.toString ++ "' without operand"
  | malformedRepetition => "malformed repetition"
  | invertedRepetition min max =>
    "repetition minimum " ++ toString min ++ " exceeds maximum " ++ toString max
  | countTooLarge limit => "repetition count exceeds " ++ toString limit
  | trailingBackslash => "trailing '\\'"
  | unknownEscape letter => "unknown escape '\\" ++ letter.char.toString ++ "'"
  | badHexEscape => "'\\x' needs two hex digits"
  | invalidRangeEndpoint => "invalid range endpoint"
  | reversedRange lo hi => "reversed range '" ++ lo.escaped ++ "-" ++ hi.escaped ++ "'"
  | patternEnded => "unexpected end of pattern"
  | unexpectedByte byte => "unexpected '" ++ byte.escaped ++ "'"

end Pattern

/-- A reason to refuse a pattern, and the offset of the byte to blame. -/
structure PatternError where
  offset : Nat
  reason : Pattern.Reason
deriving DecidableEq, Repr

/-- The error in words. -/
def PatternError.message (e : PatternError) : String :=
  e.reason.message ++ " at byte " ++ toString e.offset

end Munch
