import Munch.Samples.Report

/-!
# Sample: the tokens of a DOT graph

Keywords and punctuation, comments, identifiers with quoted and bracketed
literals, and blanks that are skipped.  The first error ends the program.
-/

namespace Munch
namespace Samples
namespace Graph

/-- The graph. -/
def source : String :=
  "digraph \x7b\n" ++
  "  rankdir=LR;\n" ++
  "  a [label=\"a\" shape=box];\n" ++
  "  c [<label>=<<u>C</u>>];\n" ++
  "  b [label=\"bb\"];\n" ++
  "  a -> c;\n" ++
  "  c -> b;\n" ++
  "  d -> c;\n" ++
  "  b -> a;\n" ++
  "  b -> e;\n" ++
  "  e -> f;\n" ++
  "\x7d"

/-- The tokens of the language. -/
def vocabulary : Vocabulary :=
  Vocabulary.ofNames ["COMMENT", "ID"]
    |>.literals ["[", "]", "\x7b", "\x7d", "=", ",", ";", ":", "->", "--"]
    |>.keywords ["node", "edge", "graph", "digraph", "subgraph", "strict"]
    |>.pattern "COMMENT" "//[^\\n]*\\n?" .token
    |>.pattern "COMMENT" "/\\*([^*]|\\r|\\n|(\\*+([^*/]|\\r|\\n)))*\\*+/" .token
    |>.pattern "ID" "([a-z]|[A-Z]|[0-9]|_)+" .token
    |>.pattern "ID" "[0-9]*\\.[0-9]+" .token
    |>.pattern "ID" "\"([^\\\\\"]|(\\\\.))*\"" .quoted
    |>.skipping "( |\t|\n|\r)+"
    |>.pattern "ID" "\\<" (.nestedLiteral 0x3C 0x3E)

/-- A row for each token, up to the end or the first error. -/
def rows : List (Except LexError Token) → Report
  | [] => .empty
  | .ok t :: items =>
    (rows items).out (row 8 12 (vocabulary.nameOf t) (Utf8.lossy t.lexeme) t.span.display)
  | .error e :: _ => .failure (Diagnostic.render e (Utf8.encode source) "graph.dot")

/-- The table of the graph's tokens. -/
def report : Report :=
  withScanner vocabulary (Utf8.encode source) fun s =>
    match collect s.lexer s.cursor with
    | none => .failure ""
    | some tally => (rows tally.items).out (head 8 12)

end Graph
end Samples
end Munch
