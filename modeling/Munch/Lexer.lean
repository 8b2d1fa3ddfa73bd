import Munch.Pattern.Parser
import Munch.Scanner

/-!
# Lexers

A lexer is a list of rules, each a pattern and an action; the place of a rule is
its priority among matches of equal length.  Compiling a lexer reads all patterns
and builds one matcher for them; scanners are made from a compiled lexer.

Adding a rule discards what was compiled.  A compilation that fails is reported
and changes nothing.
-/

namespace Munch

/-- A pattern, still unread, and what to do with its matches. -/
structure Rule where
  index : Nat
  pattern : List Byte
  action : Action

/-- Rules, a configuration, and the compiled form of the rules if it is up to
date. -/
structure Lexer where
  rules : Array Rule
  config : Config
  compiled : Option Compiled

namespace Lexer

/-- A lexer without rules. -/
def new (config : Config) : Lexer := ⟨#[], config, none⟩

/-- Whether the rules are compiled. -/
def isCompiled (l : Lexer) : Bool := l.compiled.isSome

/-- The lexer with one more rule, of the lowest priority. -/
def add (l : Lexer) (pattern : List Byte) (action : Action) : Lexer :=
  { l with rules := l.rules.push ⟨l.rules.size, pattern, action⟩, compiled := none }

/-- The patterns of the rules, or the error of the first that cannot be read. -/
def readPatterns : List Rule → Except LexError (List Pattern)
  | [] => .ok []
  | rule :: rules =>
    match Pattern.parse rule.pattern with
    | .error e =>
      .error ⟨.invalidPattern rule.index e.offset e.reason.message, Position.null⟩
    | .ok pattern =>
      match readPatterns rules with
      | .error e => .error e
      | .ok patterns => .ok (pattern :: patterns)

/-- The lexer with its rules compiled. -/
def compile (l : Lexer) : Except LexError Lexer :=
  match readPatterns l.rules.toList with
  | .error e => .error e
  | .ok patterns =>
    match Matcher.build patterns l.config with
    | .error kind => .error ⟨kind, Position.null⟩
    | .ok matcher =>
      let compiled : Compiled :=
        { matcher := matcher
          actions := l.rules.map (·.action)
          firstLine := l.config.firstLine
          firstColumn := l.config.firstColumn }
      .ok { l with compiled := some compiled }

/-- A scanner at the beginning of `text`. -/
def scanner (l : Lexer) (text : List Byte) : Except LexError Scanner :=
  match l.compiled with
  | none => .error ⟨.notCompiled, Position.null⟩
  | some compiled => .ok (Scanner.new compiled text)

/-- The tokens of a whole text, or its first error, and the scripts run. -/
structure Tokenization where
  outcome : Except LexError (List Token)
  runs : List ActionRun

/-- The tokens of a whole text, or its first error. -/
def tokenize (l : Lexer) (text : List Byte) : Option Tokenization :=
  match l.scanner text with
  | .error e => some ⟨.error e, []⟩
  | .ok s => (collect s.lexer s.cursor).map fun tally => ⟨tally.items.mapM id, tally.runs⟩

end Lexer
end Munch
