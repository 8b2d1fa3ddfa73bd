import Munch.Position

/-!
# Cursors

A cursor is a place in a text: its position, and the bytes from there on.  It
only ever moves forward, one byte at a time, so that its line and column follow
from those of its starting point.

**Results.**
* `Cursor.offset_lt`: a cursor with bytes left stands before the end of the text.
* `Cursor.offset_advance`: how far an advance goes.
-/

namespace Munch

/-- A place in `text`. -/
structure Cursor (text : List Byte) where
  position : Position
  /-- The bytes from the place on. -/
  rest : List Byte
  drop_eq : text.drop position.offset = rest

namespace Cursor

variable {text : List Byte}

/-- The number of bytes in front of the place. -/
abbrev offset (c : Cursor text) : Nat := c.position.offset

/-- The beginning of a text, under the given baselines. -/
def atStart (text : List Byte) (firstLine firstColumn : Nat) : Cursor text :=
  ⟨⟨0, firstLine, firstColumn⟩, text, rfl⟩

/-- Whether no byte is left. -/
def atEnd (c : Cursor text) : Bool := c.rest.isEmpty

/-- The place after the next byte, if there is one. -/
def step? (firstColumn : Nat) (c : Cursor text) : Option (Cursor text) :=
  match h : c.rest with
  | [] => none
  | b :: rest =>
    some ⟨c.position.step b firstColumn, rest, by
      rw [Position.offset_step, ← List.tail_drop, c.drop_eq, h]
      rfl⟩

/-- Moves over up to `n` bytes.  Answers with the position of the last of them, or
with `last` when there was none, and with the place behind them. -/
def walk (firstColumn : Nat) : Nat → Position → Cursor text → Position × Cursor text
  | 0, last, c => (last, c)
  | n + 1, last, c =>
    match c.step? firstColumn with
    | none => (last, c)
    | some next => walk firstColumn n c.position next

/-- Moves over up to `n` bytes.  Answers with the position of the last of them, or
of the place itself when there was none, and with the place behind them. -/
def advance (firstColumn n : Nat) (c : Cursor text) : Position × Cursor text :=
  walk firstColumn n c.position c

/-- Moves to `target`, or to the end of the text if that comes first; a target
behind the place moves nothing. -/
def advanceTo (firstColumn target : Nat) (c : Cursor text) : Position × Cursor text :=
  c.advance firstColumn (target - c.offset)

theorem length_rest (c : Cursor text) : c.rest.length = text.length - c.offset := by
  rw [← c.drop_eq, List.length_drop]

theorem offset_lt {c : Cursor text} (h : c.rest ≠ []) : c.offset < text.length := by
  have := List.length_pos_iff.2 h
  have := c.length_rest
  omega

theorem step?_eq_none {firstColumn : Nat} {c : Cursor text} (h : c.step? firstColumn = none) :
    c.rest = [] := by
  unfold step? at h
  split at h
  · assumption
  · simp at h

theorem of_step?_eq_some {firstColumn : Nat} {c d : Cursor text}
    (h : c.step? firstColumn = some d) :
    d.offset = c.offset + 1 ∧ c.rest.length = d.rest.length + 1 := by
  unfold step? at h
  split at h
  · simp at h
  · rename_i b rest hrest
    obtain rfl := Option.some.inj h
    exact ⟨Position.offset_step _ _ _, congrArg List.length hrest⟩

theorem offset_walk (firstColumn n : Nat) (last : Position) (c : Cursor text) :
    (walk firstColumn n last c).2.offset = c.offset + min n c.rest.length := by
  induction n generalizing last c with
  | zero => simp [walk]
  | succ n ih =>
    rw [walk]
    split
    · rename_i h
      simp [step?_eq_none h]
    · rename_i next h
      obtain ⟨hoffset, hlength⟩ := of_step?_eq_some h
      rw [ih, hoffset, hlength]
      omega

theorem offset_advance (firstColumn n : Nat) (c : Cursor text) :
    (c.advance firstColumn n).2.offset = c.offset + min n c.rest.length :=
  offset_walk firstColumn n c.position c

end Cursor
end Munch
