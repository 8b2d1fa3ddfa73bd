/-!
# Bytes and their ASCII spellings

The alphabet of patterns and texts is the 256 byte values.  This module names
the bytes that pattern syntax uses, classifies bytes as ASCII characters, and
writes a byte the way it is shown inside messages.

**Results.**
* `Byte.mem_all`: the enumeration `Byte.all` misses no byte.
* `Byte.all_pairwise`: it lists them in strictly increasing order.
* `Byte.mem_interval`: the bytes between two bounds.
-/

namespace Munch

/-- One unit of the alphabet. -/
abbrev Byte := UInt8

/-! ### Bytes of pattern syntax, by name -/

namespace Ascii

abbrev newline : Byte := 0x0A
abbrev openParen : Byte := 0x28
abbrev closeParen : Byte := 0x29
abbrev star : Byte := 0x2A
abbrev plus : Byte := 0x2B
abbrev comma : Byte := 0x2C
abbrev hyphen : Byte := 0x2D
abbrev dot : Byte := 0x2E
abbrev question : Byte := 0x3F
abbrev openBracket : Byte := 0x5B
abbrev backslash : Byte := 0x5C
abbrev closeBracket : Byte := 0x5D
abbrev caret : Byte := 0x5E
abbrev lowerX : Byte := 0x78
abbrev openBrace : Byte := 0x7B
abbrev bar : Byte := 0x7C
abbrev closeBrace : Byte := 0x7D

end Ascii

namespace Byte

/-- Every byte, in increasing order. -/
def all : List Byte := (List.range 256).map UInt8.ofNat

theorem mem_all (b : Byte) : b ∈ all :=
  List.mem_map.2 ⟨b.toNat, List.mem_range.2 b.toNat_lt, UInt8.ofNat_toNat⟩

theorem all_pairwise : all.Pairwise (· < ·) := by
  refine List.pairwise_map.2 (List.pairwise_lt_range.imp_of_mem ?_)
  intro m n hm hn hmn
  have hm := List.mem_range.1 hm
  have hn := List.mem_range.1 hn
  simpa [UInt8.lt_iff_toNat_lt, Nat.mod_eq_of_lt hm, Nat.mod_eq_of_lt hn] using hmn

/-- The bytes from `lo` to `hi`, both included, in increasing order; none when `lo` exceeds
`hi`. -/
def interval (lo hi : Byte) : List Byte :=
  (List.range' lo.toNat (hi.toNat + 1 - lo.toNat)).map UInt8.ofNat

theorem mem_interval {lo hi b : Byte} : b ∈ interval lo hi ↔ lo ≤ b ∧ b ≤ hi := by
  have hhi := hi.toNat_lt
  simp only [interval, List.mem_map, List.mem_range'_1, UInt8.le_iff_toNat_le]
  constructor
  · rintro ⟨n, ⟨hlo, hn⟩, rfl⟩
    rw [UInt8.toNat_ofNat_of_lt' (show n < 256 by omega)]
    omega
  · rintro ⟨hlo, hb⟩
    exact ⟨b.toNat, by omega, UInt8.ofNat_toNat⟩

/-- Decimal digits. -/
def isDigit (b : Byte) : Bool := 0x30 ≤ b && b ≤ 0x39

/-- Lower-case ASCII letters. -/
def isLower (b : Byte) : Bool := 0x61 ≤ b && b ≤ 0x7A

/-- Upper-case ASCII letters. -/
def isUpper (b : Byte) : Bool := 0x41 ≤ b && b ≤ 0x5A

/-- ASCII letters and digits. -/
def isAlphanumeric (b : Byte) : Bool := b.isDigit || b.isLower || b.isUpper

/-- The value of a decimal digit. -/
def digit? (b : Byte) : Option Nat :=
  if b.isDigit then some (b.toNat - 0x30) else none

/-- The value of a hexadecimal digit, in either case. -/
def hexDigit? (b : Byte) : Option Nat :=
  if b.isDigit then some (b.toNat - 0x30)
  else if 0x61 ≤ b && b ≤ 0x66 then some (b.toNat - 0x61 + 10)
  else if 0x41 ≤ b && b ≤ 0x46 then some (b.toNat - 0x41 + 10)
  else none

/-- The character with the byte's value, which is its ASCII character below
`0x80`. -/
def char (b : Byte) : Char := Char.ofUInt8 b

/-- Two lower-case hexadecimal digits. -/
def hex (b : Byte) : String :=
  String.ofList [Nat.digitChar (b.toNat / 16), Nat.digitChar (b.toNat % 16)]

/-- The byte as messages show it: a short escape for tab, carriage return,
newline, quotes and backslash, itself when printable ASCII, and `\xhh`
otherwise. -/
def escaped (b : Byte) : String :=
  match b with
  | 0x09 => "\\t"
  | 0x0A => "\\n"
  | 0x0D => "\\r"
  | 0x22 => "\\\""
  | 0x27 => "\\'"
  | 0x5C => "\\\\"
  | _ => if 0x20 ≤ b && b ≤ 0x7E then b.char.toString else "\\x" ++ b.hex

end Byte
end Munch
