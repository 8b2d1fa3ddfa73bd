import Munch.Pattern.Basic
import Munch.Pattern.Error

/-!
# Reading patterns

**Input.**  A pattern as bytes, written in the grammar

* alternation: concatenations separated by `|`;
* concatenation: repetitions, one after the other;
* repetition: an atom and any number of the quantifiers `*`, `+`, `?`, `{n}`,
  `{n,}` and `{n,m}`;
* atom: a group in parentheses, a class in brackets, `.`, an escape, or any
  other byte for itself.

**Algorithm.**  Recursive descent, one function for each nonterminal.  A
function gets the offset of the bytes still to be read and those bytes, and
answers with a `Reading`: the value, and a remainder that is proved to be
shorter.  The proofs end the recursion; no bound on the nesting is needed.

Errors name the leftmost fault that the descent meets.
-/

namespace Munch
namespace Pattern

/-- A value read from the front of some bytes, with the offset and the bytes that
are left, of which there are fewer than `bound`. -/
structure Reading (bound : Nat) (α : Type) where
  value : α
  offset : Nat
  rest : List Byte
  shorter : rest.length < bound

namespace Reading

variable {m n : Nat} {α β : Type}

/-- The same reading under a larger bound. -/
def widen (r : Reading m α) (h : m ≤ n) : Reading n α :=
  ⟨r.value, r.offset, r.rest, Nat.lt_of_lt_of_le r.shorter h⟩

/-- The same reading of another value. -/
def map (f : α → β) (r : Reading m α) : Reading m β :=
  ⟨f r.value, r.offset, r.rest, r.shorter⟩

/-- The reading with the byte `b` taken off the front of what is left. -/
def skip? (b : Byte) (r : Reading (n + 1) α) : Option (Reading n α) :=
  match r.rest, r.shorter with
  | [], _ => none
  | c :: rest, h =>
    if c = b then some ⟨r.value, r.offset + 1, rest, Nat.lt_of_succ_lt_succ h⟩ else none

end Reading

/-! ### Quantifiers -/

/-- Reads the further digits of a count that began at `start`, after digits
worth `value`. -/
def digits (start value offset : Nat) :
    (bytes : List Byte) → Except PatternError (Reading (bytes.length + 1) Nat)
  | [] => .ok ⟨value, offset, [], by simp⟩
  | b :: rest =>
    match b.digit? with
    | none => .ok ⟨value, offset, b :: rest, by simp⟩
    | some d =>
      if value * 10 + d ≤ maxCount then
        match digits start (value * 10 + d) (offset + 1) rest with
        | .error e => .error e
        | .ok r => .ok (r.widen (by simp))
      else .error ⟨start, .countTooLarge maxCount⟩

/-- Reads a count, if there is one. -/
def number (offset : Nat) (bytes : List Byte) :
    Except PatternError (Reading (bytes.length + 1) (Option Nat)) :=
  if bytes.head?.any Byte.isDigit then
    match digits offset 0 offset bytes with
    | .error e => .error e
    | .ok r => .ok (r.map some)
  else .ok ⟨none, offset, bytes, Nat.lt_succ_self _⟩

/-- Reads `n}`, `n,}` or `n,m}` after the brace at `offset`. -/
def counted (offset : Nat) (bytes : List Byte) :
    Except PatternError (Reading bytes.length (Nat × Option Nat)) :=
  match number (offset + 1) bytes with
  | .error e => .error e
  | .ok first =>
    match first.value with
    | none => .error ⟨offset, .malformedRepetition⟩
    | some min =>
      match first.skip? Ascii.comma with
      | none =>
        match first.skip? Ascii.closeBrace with
        | none => .error ⟨offset, .malformedRepetition⟩
        | some r => .ok (r.map fun _ => (min, some min))
      | some comma =>
        match number comma.offset comma.rest with
        | .error e => .error e
        | .ok second =>
          match second.skip? Ascii.closeBrace with
          | none => .error ⟨offset, .malformedRepetition⟩
          | some r =>
            match r.value with
            | none => .ok ((r.map fun max => (min, max)).widen (Nat.le_of_lt comma.shorter))
            | some max =>
              if min ≤ max then
                .ok ((r.map fun max => (min, max)).widen (Nat.le_of_lt comma.shorter))
              else .error ⟨offset, .invertedRepetition min max⟩

/-- Reads one quantifier, if there is one, as the bounds of a repetition. -/
def quantifier (offset : Nat) :
    (bytes : List Byte) → Except PatternError (Option (Reading bytes.length (Nat × Option Nat)))
  | [] => .ok none
  | b :: rest =>
    if b = Ascii.star then .ok (some ⟨(0, none), offset + 1, rest, Nat.lt_succ_self _⟩)
    else if b = Ascii.plus then .ok (some ⟨(1, none), offset + 1, rest, Nat.lt_succ_self _⟩)
    else if b = Ascii.question then
      .ok (some ⟨(0, some 1), offset + 1, rest, Nat.lt_succ_self _⟩)
    else if b = Ascii.openBrace then
      match counted offset rest with
      | .error e => .error e
      | .ok r => .ok (some (r.widen (Nat.le_succ _)))
    else .ok none

/-- Reads the quantifiers that follow `operand`, each applied to the pattern so
far. -/
def quantified (operand : Pattern) (offset : Nat) (bytes : List Byte) :
    Except PatternError (Reading (bytes.length + 1) Pattern) :=
  match quantifier offset bytes with
  | .error e => .error e
  | .ok none => .ok ⟨operand, offset, bytes, Nat.lt_succ_self _⟩
  | .ok (some q) =>
    match quantified (.repeated operand q.value.1 q.value.2) q.offset q.rest with
    | .error e => .error e
    | .ok r => .ok (r.widen (Nat.le_succ_of_le q.shorter))
termination_by bytes.length
decreasing_by exact q.shorter

/-! ### Escapes and classes -/

/-- What an escape stands for: one byte, which may end a range, or a set. -/
inductive Member
  | byte (b : Byte)
  | set (s : ByteSet)

/-- The set of bytes a member stands for. -/
def Member.toSet : Member → ByteSet
  | byte b => ByteSet.single b
  | set s => s

/-- The control byte that a letter or digit after a backslash names. -/
def controlByte? (letter : Byte) : Option Byte :=
  match letter with
  | 0x6E => some 0x0A
  | 0x72 => some 0x0D
  | 0x74 => some 0x09
  | 0x66 => some 0x0C
  | 0x76 => some 0x0B
  | 0x30 => some 0x00
  | _ => none

/-- Reads the two digits of a hexadecimal escape whose backslash is at `offset`. -/
def hexEscape (offset : Nat) :
    (bytes : List Byte) → Except PatternError (Reading bytes.length Byte)
  | hi :: lo :: rest =>
    match hi.hexDigit?, lo.hexDigit? with
    | some h, some l => .ok ⟨UInt8.ofNat (16 * h + l), offset + 4, rest,
        Nat.lt_succ_of_lt (Nat.lt_succ_self _)⟩
    | _, _ => .error ⟨offset, .badHexEscape⟩
  | _ => .error ⟨offset, .badHexEscape⟩

/-- Reads what follows the backslash at `offset`. -/
def escape (offset : Nat) :
    (bytes : List Byte) → Except PatternError (Reading bytes.length Member)
  | [] => .error ⟨offset, .trailingBackslash⟩
  | b :: rest =>
    if b = Ascii.lowerX then
      match hexEscape offset rest with
      | .error e => .error e
      | .ok r => .ok ((r.map .byte).widen (Nat.le_succ _))
    else
      match controlByte? b with
      | some c => .ok ⟨.byte c, offset + 2, rest, Nat.lt_succ_self _⟩
      | none =>
        if b.isAlphanumeric then
          match ByteSet.shorthand? b with
          | some s => .ok ⟨.set s, offset + 2, rest, Nat.lt_succ_self _⟩
          | none => .error ⟨offset, .unknownEscape b⟩
        else .ok ⟨.byte b, offset + 2, rest, Nat.lt_succ_self _⟩

/-- Reads the class member that begins with the byte `b` at `offset`. -/
def member (offset : Nat) (b : Byte) (rest : List Byte) :
    Except PatternError (Reading (rest.length + 1) Member) :=
  if b = Ascii.backslash then
    match escape offset rest with
    | .error e => .error e
    | .ok r => .ok (r.widen (Nat.le_succ _))
  else .ok ⟨.byte b, offset + 1, rest, Nat.lt_succ_self _⟩

/-- The byte that ends a range, when the bytes go on with a hyphen that makes
one: neither a closing bracket nor the end of the pattern follows it. -/
def rangeEnd? : List Byte → Option (Byte × List Byte)
  | hyphen :: b :: rest =>
    if hyphen = Ascii.hyphen ∧ b ≠ Ascii.closeBracket then some (b, rest) else none
  | _ => none

theorem length_of_rangeEnd? {bytes rest : List Byte} {b : Byte}
    (h : rangeEnd? bytes = some (b, rest)) : bytes.length = rest.length + 2 := by
  unfold rangeEnd? at h
  split at h
  · split at h <;> simp_all
  · simp at h

/-- Reads one element of a class, a member or a range of two single bytes,
beginning with the byte `b` at `offset`. -/
def element (offset : Nat) (b : Byte) (rest : List Byte) :
    Except PatternError (Reading (rest.length + 1) ByteSet) :=
  match member offset b rest with
  | .error e => .error e
  | .ok first =>
    match h : rangeEnd? first.rest with
    | none => .ok (first.map Member.toSet)
    | some (c, more) =>
      match first.value with
      | .set _ => .error ⟨offset, .invalidRangeEndpoint⟩
      | .byte lo =>
        match member (first.offset + 1) c more with
        | .error e => .error e
        | .ok last =>
          match last.value with
          | .set _ => .error ⟨first.offset + 1, .invalidRangeEndpoint⟩
          | .byte hi =>
            if lo ≤ hi then
              .ok ((last.map fun _ => ByteSet.range lo hi).widen (by
                have := length_of_rangeEnd? h
                have := first.shorter
                omega))
            else .error ⟨offset, .reversedRange lo hi⟩

/-- Reads the elements of the class that was opened at `opening`, up to its
closing bracket, and adds them to `set`.  A closing bracket in first place is
an ordinary byte. -/
def elements (opening : Nat) (first : Bool) (set : ByteSet) (offset : Nat) (bytes : List Byte) :
    Except PatternError (Reading bytes.length ByteSet) :=
  match bytes with
  | [] => .error ⟨opening, .unclosedClass⟩
  | b :: rest =>
    if b = Ascii.closeBracket ∧ first = false then
      .ok ⟨set, offset + 1, rest, Nat.lt_succ_self _⟩
    else
      match element offset b rest with
      | .error e => .error e
      | .ok r =>
        match elements opening false (set.union r.value) r.offset r.rest with
        | .error e => .error e
        | .ok r' => .ok (r'.widen (Nat.le_of_lt r.shorter))
termination_by bytes.length
decreasing_by exact r.shorter

/-- Reads the body of the class whose opening bracket is at `offset`, the
complement of its elements when it begins with a caret. -/
def classBody (offset : Nat) :
    (bytes : List Byte) → Except PatternError (Reading bytes.length ByteSet)
  | [] => elements offset true ByteSet.empty (offset + 1) []
  | b :: rest =>
    if b = Ascii.caret then
      match elements offset true ByteSet.empty (offset + 2) rest with
      | .error e => .error e
      | .ok r => .ok ((r.map ByteSet.negate).widen (Nat.le_succ _))
    else elements offset true ByteSet.empty (offset + 1) (b :: rest)

/-- Reads the class whose opening bracket is at `offset`. -/
def characterClass (offset : Nat) (bytes : List Byte) :
    Except PatternError (Reading bytes.length ByteSet) :=
  match classBody offset bytes with
  | .error e => .error e
  | .ok r => if r.value.isEmpty then .error ⟨offset, .emptyClass⟩ else .ok r

/-! ### The descent -/

/-- The bytes that begin a quantifier. -/
def isQuantifier (b : Byte) : Bool :=
  b == Ascii.star || b == Ascii.plus || b == Ascii.question || b == Ascii.openBrace

mutual

/-- Reads one operand. -/
def atom (offset : Nat) (bytes : List Byte) :
    Except PatternError (Reading bytes.length Pattern) :=
  match bytes with
  | [] => .error ⟨offset, .patternEnded⟩
  | b :: rest =>
    if b = Ascii.openParen then
      match alternation (offset + 1) rest with
      | .error e => .error e
      | .ok inner =>
        match inner.skip? Ascii.closeParen with
        | none => .error ⟨offset, .unclosedGroup⟩
        | some r => .ok (r.widen (Nat.le_succ _))
    else if b = Ascii.openBracket then
      match characterClass offset rest with
      | .error e => .error e
      | .ok r => .ok ((r.map .oneOf).widen (Nat.le_succ _))
    else if b = Ascii.dot then
      .ok ⟨.oneOf ByteSet.anyButNewline, offset + 1, rest, Nat.lt_succ_self _⟩
    else if b = Ascii.backslash then
      match escape offset rest with
      | .error e => .error e
      | .ok r => .ok ((r.map fun m => .oneOf m.toSet).widen (Nat.le_succ _))
    else if isQuantifier b then .error ⟨offset, .missingOperand b⟩
    else .ok ⟨.oneOf (ByteSet.single b), offset + 1, rest, Nat.lt_succ_self _⟩
termination_by (bytes.length, 0)

/-- Reads an operand and its quantifiers. -/
def repetition (offset : Nat) (bytes : List Byte) :
    Except PatternError (Reading bytes.length Pattern) :=
  match atom offset bytes with
  | .error e => .error e
  | .ok operand =>
    match quantified operand.value operand.offset operand.rest with
    | .error e => .error e
    | .ok r => .ok (r.widen operand.shorter)
termination_by (bytes.length, 1)

/-- Reads repetitions up to a bar, a closing parenthesis or the end. -/
def repetitions (offset : Nat) (bytes : List Byte) :
    Except PatternError (Reading (bytes.length + 1) (List Pattern)) :=
  match bytes with
  | [] => .ok ⟨[], offset, [], Nat.lt_succ_self _⟩
  | b :: rest =>
    if b = Ascii.bar ∨ b = Ascii.closeParen then
      .ok ⟨[], offset, b :: rest, Nat.lt_succ_self _⟩
    else
      match repetition offset (b :: rest) with
      | .error e => .error e
      | .ok part =>
        match repetitions part.offset part.rest with
        | .error e => .error e
        | .ok r => .ok ((r.map (part.value :: ·)).widen (Nat.le_succ_of_le part.shorter))
termination_by (bytes.length, 2)
decreasing_by
  · exact Prod.Lex.right _ (Nat.lt_succ_self _)
  · exact Prod.Lex.left _ _ part.shorter

/-- Reads a concatenation. -/
def concatenation (offset : Nat) (bytes : List Byte) :
    Except PatternError (Reading (bytes.length + 1) Pattern) :=
  match repetitions offset bytes with
  | .error e => .error e
  | .ok r => .ok (r.map sequenceOf)
termination_by (bytes.length, 3)

/-- Reads concatenations separated by bars. -/
def concatenations (offset : Nat) (bytes : List Byte) :
    Except PatternError (Reading (bytes.length + 1) (List Pattern)) :=
  match concatenation offset bytes with
  | .error e => .error e
  | .ok branch =>
    match branch.skip? Ascii.bar with
    | none => .ok (branch.map ([·]))
    | some bar =>
      match concatenations bar.offset bar.rest with
      | .error e => .error e
      | .ok r => .ok ((r.map (branch.value :: ·)).widen (Nat.le_succ_of_le bar.shorter))
termination_by (bytes.length, 4)
decreasing_by
  · exact Prod.Lex.right _ (Nat.lt_succ_self _)
  · exact Prod.Lex.left _ _ bar.shorter

/-- Reads an alternation. -/
def alternation (offset : Nat) (bytes : List Byte) :
    Except PatternError (Reading (bytes.length + 1) Pattern) :=
  match concatenations offset bytes with
  | .error e => .error e
  | .ok r => .ok (r.map choiceOf)
termination_by (bytes.length, 5)

end

/-- Reads a whole pattern. -/
def parse (bytes : List Byte) : Except PatternError Pattern :=
  match alternation 0 bytes with
  | .error e => .error e
  | .ok r =>
    match r.rest with
    | [] => .ok r.value
    | b :: _ =>
      if b = Ascii.closeParen then .error ⟨r.offset, .unbalancedClose⟩
      else .error ⟨r.offset, .unexpectedByte b⟩

end Pattern
end Munch
