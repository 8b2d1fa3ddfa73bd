import Munch.Position
import Munch.Text.Quoted
import Munch.Text.Utf8

/-!
# Matches and tokens
-/

namespace Munch

/-- The type of a token, assigned by whoever writes the rules and never
interpreted here. -/
structure TokenKind where
  number : Nat
deriving DecidableEq, Repr

/-- The number. -/
def TokenKind.display (kind : TokenKind) : String := toString kind.number

/-- A piece of a text that a rule was made for. -/
structure Token where
  kind : TokenKind
  /-- The text of the lexeme, unless an action gave it another value. -/
  value : String
  /-- Every byte the token consumed. -/
  lexeme : List Byte
  span : Span
deriving DecidableEq, Repr

namespace Token

/-- The token with another value. -/
def withValue (t : Token) (value : String) : Token := { t with value := value }

/-- The offsets of the first byte and of the byte after the last. -/
def range (t : Token) : Nat × Nat :=
  (t.span.start.offset, t.span.start.offset + t.lexeme.length)

/-- Kind, value and span. -/
def display (t : Token) : String :=
  "Token \x7b kind: " ++ t.kind.display ++ ", value: " ++ Quoted.quote t.value ++ ", span: "
    ++ t.span.display ++ " \x7d"

end Token

/-- What a rule matched at a position. -/
structure Match where
  rule : Nat
  bytes : List Byte
  span : Span
deriving DecidableEq, Repr

namespace Match

/-- The position of the first matched byte. -/
def start (m : Match) : Position := m.span.start

/-- The token of exactly the matched bytes. -/
def token (m : Match) (kind : TokenKind) : Token := ⟨kind, Utf8.lossy m.bytes, m.bytes, m.span⟩

end Match
end Munch
