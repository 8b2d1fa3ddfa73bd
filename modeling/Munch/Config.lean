/-!
# Configuration of a lexer
-/

namespace Munch

/-- How a lexer counts positions and compiles its rules. -/
structure Config where
  /-- The number of the first line of a text. -/
  firstLine : Nat := 1
  /-- The column of the first byte of each line. -/
  firstColumn : Nat := 1
  /-- Compilation fails when it needs more states than this. -/
  maxDfaStates : Nat := 10000
  /-- Whether the rules are determinized; if not, they are simulated, and
  `maxDfaStates` plays no part. -/
  determinize : Bool := true
deriving DecidableEq, Repr

end Munch
