import Munch.Samples.Report

/-!
# Sample: the tokens of spreadsheet selections

Queries such as `cols=["id", "name"], rows=[1:7]`.  Bytes that no rule accepts
are reported and stepped over, so that one stray character does not end the
scan; any other error ends the query.
-/

namespace Munch
namespace Samples
namespace Selection

/-- The queries, which are read without regard to case. -/
def queries : List String := [
  "col=[1], row=[1]",
  "cols[0:5], rows[1:7]",
  "cells=(A1,B2), row=(1,2), cols=(A,B), rows=[1:7]",
  "block=(A1,B2), prefix_path=\"./shared/dump.txt\" to_file=true format=\"json\" | rows=[1:7]"]

/-- The tokens of the language. -/
def vocabulary : Vocabulary :=
  Vocabulary.ofNames []
    |>.literals ["[", "]", "(", ")", "\x7b", "\x7d", "=", ",", "...", ";", ":"]
    |>.keywords ["prefix_path", "to_file", "col", "cols", "row", "rows", "format", "cells"]
    |>.pattern "RANGE" "[0-9]*\\:[0-9]+" .token
    |>.pattern "EXCEL_CELL" "[a-z]+[0-9]+" .token
    |>.pattern "STRING" "\"[^\"]*\"" .quoted
    |>.pattern "NUMBER" "[0-9]+" .token
    |>.pattern "ID" "[a-z_][a-z0-9_]*" .token
    |>.skipping "\\s+"

/-- A row for each token and a diagnostic for each error. -/
def rows (query : List Byte) : List ScanResult → Report
  | .token t :: results =>
    (rows query results).out
      (row 12 20 (vocabulary.nameOf t) (Utf8.lossy t.lexeme) t.span.display)
  | .error e :: results =>
    let shown := Diagnostic.render e query "query"
    if e.isUnconsumedInput then (rows query results).err shown else Report.empty.err shown
  | _ => .empty

/-- The table of one query's tokens. -/
def reportOn (query : String) : Report :=
  let query := query.map Char.toLower
  withScanner vocabulary (Utf8.encode query) fun s =>
    match s.recover with
    | none => .failure ""
    | some tally =>
      (rows s.text tally.items).out ("\n" ++ query ++ "\n" ++ head 12 20)

/-- The tables of all queries. -/
def report : Report := (queries.map reportOn).foldr Report.followedBy .empty

end Selection
end Samples
end Munch
