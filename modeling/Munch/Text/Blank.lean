/-!
# White space

The characters that have the property of being white space, of which a line is
rid at its end when it is shown.
-/

namespace Munch
namespace Blank

/-- Tab, newline, vertical tab, form feed, carriage return, the spaces of every
width, next line, and the line and paragraph separators. -/
def isBlank (c : Char) : Bool :=
  (0x09 ≤ c.toNat && c.toNat ≤ 0x0D) || c.toNat == 0x20 || c.toNat == 0x85 || c.toNat == 0xA0
    || c.toNat == 0x1680 || (0x2000 ≤ c.toNat && c.toNat ≤ 0x200A) || c.toNat == 0x2028
    || c.toNat == 0x2029 || c.toNat == 0x202F || c.toNat == 0x205F || c.toNat == 0x3000

/-- The characters up to the last that is not white space. -/
def trimEnd (cs : List Char) : List Char := (cs.reverse.dropWhile isBlank).reverse

end Blank
end Munch
