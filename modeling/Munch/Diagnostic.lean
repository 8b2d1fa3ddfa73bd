import Munch.Error
import Munch.Text.Blank
import Munch.Text.Utf8

/-!
# Diagnostics

An error is shown under its name and advice with the line of the source that it
points at, and a caret below the place.

**Algorithm.**  The line is found by walking over the lines of the source, each
with its newline.  It is shown without leading spaces and trailing white space;
the caret is moved left by as many columns as spaces were dropped.
-/

namespace Munch
namespace Diagnostic

/-- The bytes up to the first newline, which is included, and those behind it. -/
def splitLine : List Byte → List Byte × List Byte
  | [] => ([], [])
  | b :: rest =>
    if b = Ascii.newline then ([b], rest)
    else
      let (line, later) := splitLine rest
      (b :: line, later)

theorem length_splitLine (bytes : List Byte) :
    (splitLine bytes).1.length + (splitLine bytes).2.length = bytes.length := by
  induction bytes with
  | nil => rfl
  | cons b rest ih =>
    rw [splitLine]
    split
    · simp [Nat.add_comm]
    · simp only [List.length_cons]
      omega

theorem length_splitLine_lt (b : Byte) (rest : List Byte) :
    (splitLine (b :: rest)).2.length < (b :: rest).length := by
  have h := length_splitLine rest
  rw [splitLine]
  split
  · simp
  · simp only [List.length_cons]
    omega

/-- The lines of some bytes, each with its newline. -/
def lines : List Byte → List (List Byte)
  | [] => []
  | b :: rest => (splitLine (b :: rest)).1 :: lines (splitLine (b :: rest)).2
termination_by bytes => bytes.length
decreasing_by exact length_splitLine_lt b rest

/-- A line of a source: its number, its text with its newline, and the place in it
that was asked for, in bytes. -/
structure Line where
  number : Nat
  text : String
  place : Nat
deriving DecidableEq, Repr

/-- Finds the line with the byte `place` bytes on, where the first line has the
given number. -/
def findLine (number place : Nat) : List (List Byte) → Option Line
  | [] => none
  | line :: later =>
    if place < line.length then some ⟨number, Utf8.lossy line, place⟩
    else findLine (number + 1) (place - line.length) later

/-- The line of `source` with the byte at `offset`, lines being counted from one. -/
def lineAt (source : List Byte) (offset : Nat) : Option Line := findLine 1 offset (lines source)

/-- The text on the right of a field of the given width, filled up with `fill`. -/
def alignRight (fill : Char) (width : Nat) (text : String) : String :=
  String.ofList (List.replicate (width - text.length) fill) ++ text

/-- The rows that show a line and the place in it. -/
def excerpt (line : Line) : String :=
  let number := toString line.number
  let margin := alignRight ' ' (number.length + 2) "|"
  let chars := line.text.toList
  let spaces := (chars.takeWhile (· = ' ')).length
  let shown := String.ofList (Blank.trimEnd (chars.drop spaces))
  let caret := alignRight '-' (line.place - spaces + 1) "^"
  margin ++ "\n" ++ number ++ " | " ++ shown ++ "\n" ++ margin ++ " " ++ caret ++ "\n"

/-- The name of an error, with its advice in parentheses. -/
def headline (e : LexError) : String :=
  match e.kind.tip with
  | none => "Error: " ++ e.kind.name
  | some tip => "Error: " ++ e.kind.name ++ " (" ++ tip ++ ")"

/-- The error as it is shown for a source of the given name. -/
def render (e : LexError) (source : List Byte) (name : String) : String :=
  headline e ++ "\n-> " ++ name ++ "\n" ++
    ((lineAt source e.position.offset).map excerpt).getD ""

end Diagnostic
end Munch
