import Std.Data.HashMap
import Munch.Token

/-!
# Symbol tables

A symbol table gives names to token kinds.  Kinds are handed out in the order in
which names first appear, and a name keeps its kind.
-/

namespace Munch

/-- Names, and the kind of each. -/
structure SymbolTable where
  /-- The names in the order of their kinds. -/
  names : Array String
  kinds : Std.HashMap String TokenKind

namespace SymbolTable

/-- The table without names. -/
def empty : SymbolTable := ⟨#[], ∅⟩

/-- The kind of a name, if it has one. -/
def get? (table : SymbolTable) (name : String) : Option TokenKind := table.kinds[name]?

/-- The name of a kind, if it has one. -/
def name? (table : SymbolTable) (kind : TokenKind) : Option String := table.names[kind.number]?

/-- The number of names. -/
def size (table : SymbolTable) : Nat := table.names.size

/-- Whether there are no names. -/
def isEmpty (table : SymbolTable) : Bool := table.names.isEmpty

/-- The kind of a name, which gets the next free one if it is new. -/
def intern (table : SymbolTable) (name : String) : TokenKind × SymbolTable :=
  match table.get? name with
  | some kind => (kind, table)
  | none =>
    let kind : TokenKind := ⟨table.size⟩
    (kind, ⟨table.names.push name, table.kinds.insert name kind⟩)

/-- The table of some names, in order. -/
def ofNames (names : List String) : SymbolTable :=
  names.foldl (fun table name => (table.intern name).2) empty

end SymbolTable
end Munch
