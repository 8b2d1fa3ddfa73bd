import Munch.Byte

/-!
# Reading UTF-8

Bytes are read as characters in two ways: strictly, where one ill-formed byte
refuses the whole, and with replacement, where each maximal ill-formed part
becomes one U+FFFD.

**Algorithm.**  A lead byte announces how many bytes follow, and which values the
first of them may have; that second limit is what excludes overlong forms,
surrogates and numbers above U+10FFFF.  Reading stops in front of the first byte
that does not fit, and the bytes read up to there are the ill-formed part.

**Results.**
* `front_length_le`: reading a character from the front never lengthens the rest.
-/

namespace Munch
namespace Utf8

/-- The character that stands for an ill-formed part. -/
def replacement : Char := '\uFFFD'

/-- What a lead byte announces. -/
structure Lead where
  /-- The number of bytes that follow. -/
  more : Nat
  /-- The least value of the first of them. -/
  lo : Byte
  /-- The greatest value of the first of them. -/
  hi : Byte
  /-- The bits of the character that the lead byte holds. -/
  bits : Nat

/-- The announcement of a byte, if it can begin a character. -/
def lead? (b : Byte) : Option Lead :=
  if b < 0x80 then some ⟨0, 0x80, 0xBF, b.toNat⟩
  else if b < 0xC2 then none
  else if b < 0xE0 then some ⟨1, 0x80, 0xBF, b.toNat - 0xC0⟩
  else if b = 0xE0 then some ⟨2, 0xA0, 0xBF, 0⟩
  else if b = 0xED then some ⟨2, 0x80, 0x9F, 0xD⟩
  else if b < 0xF0 then some ⟨2, 0x80, 0xBF, b.toNat - 0xE0⟩
  else if b = 0xF0 then some ⟨3, 0x90, 0xBF, 0⟩
  else if b < 0xF4 then some ⟨3, 0x80, 0xBF, b.toNat - 0xF0⟩
  else if b = 0xF4 then some ⟨3, 0x80, 0x8F, 4⟩
  else none

/-- Reads `more` further bytes of a character whose bits so far are `bits`: the
character, if they are all there, and what is left in front of the first byte
that does not fit. -/
def trail (bits : Nat) : Nat → Byte → Byte → List Byte → Option Char × List Byte
  | 0, _, _, bytes => (some (Char.ofNat bits), bytes)
  | _ + 1, _, _, [] => (none, [])
  | more + 1, lo, hi, b :: rest =>
    if lo ≤ b ∧ b ≤ hi then trail (bits * 64 + (b.toNat - 0x80)) more 0x80 0xBF rest
    else (none, b :: rest)

/-- Reads one character, or one ill-formed part, beginning with the byte `b`. -/
def front (b : Byte) (rest : List Byte) : Option Char × List Byte :=
  match lead? b with
  | none => (none, rest)
  | some lead => trail lead.bits lead.more lead.lo lead.hi rest

theorem trail_length_le (bits more : Nat) (lo hi : Byte) (bytes : List Byte) :
    (trail bits more lo hi bytes).2.length ≤ bytes.length := by
  induction bytes generalizing bits more lo hi with
  | nil => cases more <;> simp [trail]
  | cons b rest ih =>
    cases more with
    | zero => simp [trail]
    | succ more =>
      rw [trail]
      split
      · exact Nat.le_succ_of_le (ih _ _ _ _)
      · simp

theorem front_length_le (b : Byte) (rest : List Byte) :
    (front b rest).2.length ≤ rest.length := by
  unfold front
  split
  · simp
  · exact trail_length_le _ _ _ _ _

/-- The characters of the bytes, each maximal ill-formed part replaced. -/
def lossyChars : List Byte → List Char
  | [] => []
  | b :: rest => (front b rest).1.getD replacement :: lossyChars (front b rest).2
termination_by bytes => bytes.length
decreasing_by exact Nat.lt_succ_of_le (front_length_le b rest)

/-- The text of the bytes, each maximal ill-formed part replaced. -/
def lossy (bytes : List Byte) : String := String.ofList (lossyChars bytes)

/-- The characters of the bytes, if all of them are well-formed. -/
def decode? : List Byte → Option (List Char)
  | [] => some []
  | b :: rest =>
    match (front b rest).1 with
    | none => none
    | some c => (decode? (front b rest).2).map (c :: ·)
termination_by bytes => bytes.length
decreasing_by exact Nat.lt_succ_of_le (front_length_le b rest)

/-- The number of bytes of a character, as far as its first byte tells. -/
def announcedWidth (b : Byte) : Nat :=
  if b < 0xC0 then 1
  else if b < 0xE0 then 2
  else if b < 0xF0 then 3
  else if b < 0xF8 then 4
  else 1

/-- The character at the front of some bytes: the announced number of bytes when
they are well-formed, and otherwise the first byte alone, with replacement. -/
def frontText : List Byte → String
  | [] => ""
  | b :: rest =>
    match decode? ((b :: rest).take (announcedWidth b)) with
    | some chars => String.ofList chars
    | none => lossy [b]

/-- The bytes of a text. -/
def encode (s : String) : List Byte := s.toUTF8.toList

end Utf8
end Munch
