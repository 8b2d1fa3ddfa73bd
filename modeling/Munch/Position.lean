import Munch.Byte

/-!
# Positions and spans

A position counts the bytes in front of it, the lines begun, and the bytes since
the line began, the last two from baselines of the caller's choice.
-/

namespace Munch

/-- A place in a text. -/
structure Position where
  offset : Nat
  line : Nat
  column : Nat
deriving DecidableEq, Repr

namespace Position

/-- The position of errors that point at no text. -/
def null : Position := ⟨0, 0, 0⟩

/-- The position after the byte `b`, where lines begin at `firstColumn`. -/
def step (p : Position) (b : Byte) (firstColumn : Nat) : Position :=
  if b = Ascii.newline then ⟨p.offset + 1, p.line + 1, firstColumn⟩
  else ⟨p.offset + 1, p.line, p.column + 1⟩

@[simp] theorem offset_step (p : Position) (b : Byte) (firstColumn : Nat) :
    (p.step b firstColumn).offset = p.offset + 1 := by
  unfold step
  split <;> rfl

/-- Line and column. -/
def display (p : Position) : String := toString p.line ++ ":" ++ toString p.column

end Position

/-- The positions of a first and a last byte. -/
structure Span where
  start : Position
  stop : Position
deriving DecidableEq, Repr

/-- Both ends. -/
def Span.display (s : Span) : String := s.start.display ++ "-" ++ s.stop.display

end Munch
