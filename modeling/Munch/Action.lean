import Munch.Error
import Munch.Token

/-!
# Actions

When a rule wins, its action makes a token of the match, skips it, or runs a
script.  A script may look at the text, move the cursor and ask for further
tokens, one step after the other, and in the end decides what becomes of the
match; scanning resumes wherever it leaves the cursor.

**Results.**
* `balancedFrom_induction`: how a balanced prefix is made up.
* `balancedLength_le`: a balanced prefix is no longer than the bytes it is a
  prefix of.
-/

namespace Munch

/-- What a scan comes to. -/
inductive ScanResult
  | token (token : Token)
  | error (error : LexError)
  | endOfInput
deriving DecidableEq, Repr

/-- What a script sees of the scanner: the whole text, the cursor's position, and
the bytes from there on. -/
structure View where
  text : List Byte
  position : Position
  rest : List Byte

/-- The steps of a custom action. -/
inductive Script
  /-- Decides: a message to fail with, a token, or nothing to skip the match. -/
  | finish (verdict : Except String (Option Token))
  /-- Looks at the scanner. -/
  | look (go : View → Script)
  /-- Moves over so many bytes and learns the position of the last one. -/
  | advance (n : Nat) (go : Position → Script)
  /-- Moves to an offset and learns the position of the last byte moved over. -/
  | advanceTo (target : Nat) (go : Position → Script)
  /-- Asks for the next token. -/
  | next (go : ScanResult → Script)

/-- What becomes of a match. -/
inductive Action
  | emit (make : Match → Token)
  | skip
  | custom (script : Match → Script)

namespace Action

instance : Inhabited Action := ⟨skip⟩

/-- Whether the action runs a script. -/
def isCustom : Action → Bool
  | custom _ => true
  | _ => false

/-- The name of the kind of action. -/
def label : Action → String
  | emit _ => "Emit"
  | skip => "Skip"
  | custom _ => "Custom"

/-- Makes the match a token of `kind`. -/
def token (kind : TokenKind) : Action := emit fun m => m.token kind

/-- The bytes between the first and the last. -/
def stripDelimiters (bytes : List Byte) : List Byte := bytes.tail.dropLast

/-- Makes the match a token of `kind` whose value lacks the first and the last
byte, such as quotes. -/
def quoted (kind : TokenKind) : Action :=
  emit fun m => (m.token kind).withValue (Utf8.lossy (stripDelimiters m.bytes))

/-- The length of the shortest prefix that closes one pair more than it opens,
after `depth` further pairs are closed.  A byte that both opens and closes
opens. -/
def balancedFrom (opening closing : Byte) (depth : Nat) : List Byte → Option Nat
  | [] => none
  | b :: rest =>
    if b = opening then (balancedFrom opening closing (depth + 1) rest).map (· + 1)
    else if b = closing then
      match depth with
      | 0 => some 1
      | depth + 1 => (balancedFrom opening closing depth rest).map (· + 1)
    else (balancedFrom opening closing depth rest).map (· + 1)

/-- The length of the shortest prefix that closes a pair opened in front of it. -/
def balancedLength (opening closing : Byte) (bytes : List Byte) : Option Nat :=
  balancedFrom opening closing 0 bytes

/-- What holds of a prefix that is a closing byte, and of one longer by one byte at the
front, holds of every prefix that is found. -/
theorem balancedFrom_induction {opening closing : Byte} {P : List Byte → Nat → Prop}
    (hclosing : ∀ rest, P (closing :: rest) 1)
    (hmore : ∀ b rest n, P rest n → P (b :: rest) (n + 1)) {depth n : Nat} {bytes : List Byte}
    (h : balancedFrom opening closing depth bytes = some n) : P bytes n := by
  induction bytes generalizing depth n with
  | nil => simp [balancedFrom] at h
  | cons b rest ih =>
    have hmap : ∀ {d : Nat},
        (balancedFrom opening closing d rest).map (· + 1) = some n → P (b :: rest) n := by
      intro d hd
      obtain ⟨k, hk, rfl⟩ := Option.map_eq_some_iff.1 hd
      exact hmore b rest k (ih hk)
    unfold balancedFrom at h
    split at h
    · exact hmap h
    · split at h
      · rename_i hb
        split at h
        · obtain rfl := Option.some.inj h
          rw [hb]
          exact hclosing rest
        · exact hmap h
      · exact hmap h

theorem balancedFrom_le {opening closing : Byte} {depth n : Nat} {bytes : List Byte}
    (h : balancedFrom opening closing depth bytes = some n) : n ≤ bytes.length :=
  balancedFrom_induction (P := fun bytes n => n ≤ bytes.length)
    (fun rest => Nat.succ_le_succ (Nat.zero_le rest.length)) (fun _ _ _ => Nat.succ_le_succ) h

theorem balancedLength_le {opening closing : Byte} {n : Nat} {bytes : List Byte}
    (h : balancedLength opening closing bytes = some n) : n ≤ bytes.length :=
  balancedFrom_le h

/-- A literal that begins with the match and ends with the byte that closes it,
with pairs of `opening` and `closing` nested in between.  The token holds the
whole literal, and its value lacks the outer pair. -/
def nestedLiteral (opening closing : Byte) (kind : TokenKind) : Action :=
  custom fun m => .look fun view =>
    match balancedLength opening closing view.rest with
    | none =>
      .finish (.error ("unclosed literal starting at " ++ toString m.start.offset ++ " ("
        ++ m.start.display ++ ")"))
    | some n => .advance n fun last =>
      let lexeme := m.bytes ++ view.rest.take n
      .finish (.ok (some
        { kind := kind
          value := Utf8.lossy (stripDelimiters lexeme)
          lexeme := lexeme
          span := ⟨m.start, last⟩ }))

end Action
end Munch
