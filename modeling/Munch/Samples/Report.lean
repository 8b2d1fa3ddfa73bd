import Munch.Diagnostic
import Munch.Lexer
import Munch.Pattern.Printer
import Munch.SymbolTable

/-!
# Sample programs: what they share

A sample builds a lexer together with names for its token kinds, scans a text,
and reports one row for each token.  A report is plain data: what is written to
each stream, and the exit code.
-/

namespace Munch
namespace Samples

/-- What a sample writes, and the code it ends with. -/
structure Report where
  stdout : String
  stderr : String
  code : Nat
deriving DecidableEq, Repr

namespace Report

/-- Nothing written, and success. -/
def empty : Report := ⟨"", "", 0⟩

/-- The report with text in front on the standard output. -/
def out (text : String) (r : Report) : Report := { r with stdout := text ++ r.stdout }

/-- The report with text in front on the standard error. -/
def err (text : String) (r : Report) : Report := { r with stderr := text ++ r.stderr }

/-- Nothing but a message on the standard error, and failure. -/
def failure (text : String) : Report := ⟨"", text, 1⟩

/-- One report after the other, unless the first failed. -/
def followedBy (first second : Report) : Report :=
  if first.code = 0 then (second.out first.stdout).err first.stderr else first

end Report

/-- The text on the left of a field of the given width. -/
def alignLeft (width : Nat) (text : String) : String :=
  text ++ String.ofList (List.replicate (width - text.length) ' ')

/-- A row of a table of tokens. -/
def row (nameWidth lexemeWidth : Nat) (name lexeme position : String) : String :=
  alignLeft nameWidth name ++ " | " ++ alignLeft lexemeWidth lexeme ++ " | " ++ position ++ "\n"

/-- The head of a table of tokens. -/
def head (nameWidth lexemeWidth : Nat) : String :=
  let rule := fun width => String.ofList (List.replicate width '-')
  row nameWidth lexemeWidth "Type" "Lexeme" "Position"
    ++ rule (nameWidth + 1) ++ "+" ++ rule (lexemeWidth + 2) ++ "+" ++ rule 12 ++ "\n"

/-- A lexer in the making, with names for the kinds of its tokens. -/
structure Vocabulary where
  lexer : Lexer
  symbols : SymbolTable

namespace Vocabulary

/-- No rules, and the given names. -/
def ofNames (names : List String) : Vocabulary := ⟨Lexer.new {}, SymbolTable.ofNames names⟩

/-- One more rule, with an action for the kind of the given name. -/
def rule (v : Vocabulary) (name : String) (pattern : List Byte) (action : TokenKind → Action) :
    Vocabulary :=
  let (kind, symbols) := v.symbols.intern name
  ⟨v.lexer.add pattern (action kind), symbols⟩

/-- One more rule whose pattern is written as a text. -/
def pattern (v : Vocabulary) (name text : String) (action : TokenKind → Action) : Vocabulary :=
  v.rule name (Utf8.encode text) action

/-- One more rule whose matches are skipped. -/
def skipping (v : Vocabulary) (pattern : String) : Vocabulary :=
  { v with lexer := v.lexer.add (Utf8.encode pattern) .skip }

/-- A rule for each text, which stands for itself and is its own name. -/
def literals (v : Vocabulary) (texts : List String) : Vocabulary :=
  texts.foldl (fun v text => v.rule text (Pattern.escapeWord (Utf8.encode text)) .token) v

/-- A rule for each word, whose name is written in capitals. -/
def keywords (v : Vocabulary) (words : List String) : Vocabulary :=
  words.foldl (fun v word => v.pattern (word.map Char.toUpper) word .token) v

/-- The name of a token's kind. -/
def nameOf (v : Vocabulary) (t : Token) : String := (v.symbols.name? t.kind).getD "?"

end Vocabulary

/-- The rest of a report whose lexer is compiled, or the message of what stopped
the compilation. -/
def withScanner (v : Vocabulary) (text : List Byte) (go : Scanner → Report) : Report :=
  match v.lexer.compile with
  | .error e => .failure (e.message ++ "\n")
  | .ok lexer =>
    match lexer.scanner text with
    | .error e => .failure (e.message ++ "\n")
    | .ok s => go s

end Samples
end Munch
