import Mathlib.Data.List.Basic
import Munch.Pattern.Parser

/-!
# The grammar of patterns

Each nonterminal is a relation between the words it derives and what they stand for,
without reference to the functions that read patterns.

* alternation: concatenations separated by `|`, where a single one stands for itself;
* concatenation: repetitions, where a single one stands for itself and none for the
  empty pattern;
* repetition: an atom and any number of quantifiers;
* quantifier: `*`, `+`, `?`, `{n}`, `{n,}` or `{n,m}` with `n ≤ m ≤ 255`;
* atom: a group in parentheses, a class in brackets, `.`, an escape, or any byte
  without a meaning of its own;
* class: elements in brackets, after a caret if their complement is meant; a caret
  in first place always has that meaning.

**Results.**
* `Atom.front`: the first byte of an atom begins neither a quantifier nor the end of
  a concatenation, so that the grammar leaves no choice where to stop.
-/

namespace Munch
namespace Pattern

/-! ### Quantifiers -/

/-- The count `n` with one more digit. -/
def appendDigit (n : Nat) (b : Byte) : Nat := n * 10 + (b.toNat - 0x30)

/-- The value of a word of decimal digits. -/
def decimalValue (w : List Byte) : Nat := w.foldl appendDigit 0

/-- The word is the decimal spelling of a count, with any number of leading zeros. -/
structure Numeral (w : List Byte) (n : Nat) : Prop where
  nonempty : w ≠ []
  digits : ∀ b ∈ w, b.isDigit = true
  value : decimalValue w = n
  bounded : n ≤ 255

inductive Quantifier : List Byte → Nat → Option Nat → Prop
  | star : Quantifier [Ascii.star] 0 none
  | plus : Quantifier [Ascii.plus] 1 none
  | question : Quantifier [Ascii.question] 0 (some 1)
  | exactly {u : List Byte} {n : Nat} :
      Numeral u n → Quantifier (Ascii.openBrace :: u ++ [Ascii.closeBrace]) n (some n)
  | atLeast {u : List Byte} {n : Nat} :
      Numeral u n → Quantifier (Ascii.openBrace :: u ++ [Ascii.comma, Ascii.closeBrace]) n none
  | between {u v : List Byte} {n m : Nat} :
      Numeral u n → Numeral v m → n ≤ m →
      Quantifier (Ascii.openBrace :: u ++ Ascii.comma :: v ++ [Ascii.closeBrace]) n (some m)

/-- Quantifiers apply one after the other to the pattern so far. -/
inductive Quantifiers : Pattern → List Byte → Pattern → Prop
  | none (p : Pattern) : Quantifiers p [] p
  | more {p q : Pattern} {u v : List Byte} {min : Nat} {max : Option Nat} :
      Quantifier u min max → Quantifiers (.repeated p min max) v q → Quantifiers p (u ++ v) q

/-! ### Escapes -/

/-- The letters and the digit that name control bytes. -/
inductive Control : Byte → Byte → Prop
  | newline : Control 0x6E 0x0A
  | carriageReturn : Control 0x72 0x0D
  | tab : Control 0x74 0x09
  | formFeed : Control 0x66 0x0C
  | verticalTab : Control 0x76 0x0B
  | null : Control 0x30 0x00

/-- The letters that name sets of bytes. -/
inductive Shorthand : Byte → ByteSet → Prop
  | digit : Shorthand 0x64 .digit
  | noDigit : Shorthand 0x44 ByteSet.digit.negate
  | word : Shorthand 0x77 .word
  | noWord : Shorthand 0x57 ByteSet.word.negate
  | space : Shorthand 0x73 .space
  | noSpace : Shorthand 0x53 ByteSet.space.negate

/-- What may follow a backslash. -/
inductive Escaped : List Byte → Member → Prop
  | control {b c : Byte} : Control b c → Escaped [b] (.byte c)
  | hex {hi lo : Byte} {h l : Nat} :
      hi.hexDigit? = some h → lo.hexDigit? = some l →
      Escaped [Ascii.lowerX, hi, lo] (.byte (UInt8.ofNat (16 * h + l)))
  | shorthand {b : Byte} {s : ByteSet} : Shorthand b s → Escaped [b] (.set s)
  | literal {b : Byte} : b.isAlphanumeric = false → Escaped [b] (.byte b)

/-! ### Classes -/

/-- A single byte or an escape inside a class. -/
inductive ClassMember : List Byte → Member → Prop
  | plain {b : Byte} : b ≠ Ascii.backslash → ClassMember [b] (.byte b)
  | escaped {w : List Byte} {m : Member} : Escaped w m → ClassMember (Ascii.backslash :: w) m

/-- The word goes on with a hyphen, and then with a byte that does not close the class. -/
def Hyphenated (w : List Byte) : Prop :=
  ∃ b rest, w = Ascii.hyphen :: b :: rest ∧ b ≠ Ascii.closeBracket

/-- The word may begin an element: only in first place may that be a closing bracket. -/
def MayBegin (first : Bool) (w : List Byte) : Prop :=
  w.head? = some Ascii.closeBracket → first = true

/-- Elements of a class up to its closing bracket, and their union.  An element is a
range exactly when it is followed by a hyphen that neither closes the class nor ends
the word. -/
inductive Elements : Bool → List Byte → ByteSet → Prop
  | none : Elements false [] .empty
  | single {first : Bool} {u v : List Byte} {m : Member} {s : ByteSet} :
      MayBegin first u → ClassMember u m → ¬Hyphenated (v ++ [Ascii.closeBracket]) →
      Elements false v s → Elements first (u ++ v) (m.toSet.union s)
  | range {first : Bool} {u v w : List Byte} {lo hi : Byte} {s : ByteSet} :
      MayBegin first u → ClassMember u (.byte lo) →
      Hyphenated (Ascii.hyphen :: v ++ w ++ [Ascii.closeBracket]) → ClassMember v (.byte hi) →
      lo ≤ hi → Elements false w s →
      Elements first (u ++ Ascii.hyphen :: v ++ w) ((ByteSet.range lo hi).union s)

/-- A class in brackets, which must not be empty. -/
inductive Class : List Byte → ByteSet → Prop
  | plain {w : List Byte} {s : ByteSet} :
      Elements true w s → w.head? ≠ some Ascii.caret → s ≠ .empty →
      Class (Ascii.openBracket :: w ++ [Ascii.closeBracket]) s
  | negated {w : List Byte} {s : ByteSet} :
      Elements true w s → s.negate ≠ .empty →
      Class (Ascii.openBracket :: Ascii.caret :: w ++ [Ascii.closeBracket]) s.negate

/-! ### Trees -/

/-- The bytes that do not stand for themselves. -/
def special : List Byte :=
  [Ascii.openParen, Ascii.closeParen, Ascii.openBracket, Ascii.dot, Ascii.backslash,
    Ascii.star, Ascii.plus, Ascii.question, Ascii.openBrace, Ascii.bar]

mutual

inductive Atom : List Byte → Pattern → Prop
  | group {w : List Byte} {p : Pattern} :
      Alternation w p → Atom (Ascii.openParen :: w ++ [Ascii.closeParen]) p
  | brackets {w : List Byte} {s : ByteSet} : Class w s → Atom w (.oneOf s)
  | dot : Atom [Ascii.dot] (.oneOf .anyButNewline)
  | escape {w : List Byte} {m : Member} :
      Escaped w m → Atom (Ascii.backslash :: w) (.oneOf m.toSet)
  | literal {b : Byte} : b ∉ special → Atom [b] (.oneOf (.single b))

inductive Repetition : List Byte → Pattern → Prop
  | mk {u v : List Byte} {p q : Pattern} :
      Atom u p → Quantifiers p v q → Repetition (u ++ v) q

inductive Repetitions : List Byte → List Pattern → Prop
  | none : Repetitions [] []
  | more {u v : List Byte} {p : Pattern} {ps : List Pattern} :
      Repetition u p → Repetitions v ps → Repetitions (u ++ v) (p :: ps)

inductive Concatenation : List Byte → Pattern → Prop
  | none : Concatenation [] .empty
  | one {w : List Byte} {p : Pattern} : Repetitions w [p] → Concatenation w p
  | many {w : List Byte} {ps : List Pattern} :
      Repetitions w ps → 2 ≤ ps.length → Concatenation w (.sequence ps)

inductive Branches : List Byte → List Pattern → Prop
  | last {w : List Byte} {p : Pattern} : Concatenation w p → Branches w [p]
  | more {u v : List Byte} {p : Pattern} {ps : List Pattern} :
      Concatenation u p → Branches v ps → Branches (u ++ Ascii.bar :: v) (p :: ps)

inductive Alternation : List Byte → Pattern → Prop
  | one {w : List Byte} {p : Pattern} : Branches w [p] → Alternation w p
  | many {w : List Byte} {ps : List Pattern} :
      Branches w ps → 2 ≤ ps.length → Alternation w (.choice ps)

end

/-! ### First bytes -/

theorem ClassMember.ne_nil {w : List Byte} {m : Member} (h : ClassMember w m) : w ≠ [] := by
  cases h <;> exact List.cons_ne_nil _ _

theorem Atom.front {w : List Byte} {p : Pattern} (h : Atom w p) :
    ∃ b rest, w = b :: rest ∧ isQuantifier b = false ∧ b ≠ Ascii.bar ∧ b ≠ Ascii.closeParen := by
  cases h with
  | group _ =>
      exact ⟨_, _, rfl, rfl, by decide, by decide⟩
  | brackets hclass =>
      cases hclass <;> exact ⟨_, _, rfl, rfl, by decide, by decide⟩
  | dot =>
      exact ⟨_, _, rfl, rfl, by decide, by decide⟩
  | escape _ =>
      exact ⟨_, _, rfl, rfl, by decide, by decide⟩
  | @literal b hb =>
      simp only [special, List.mem_cons, List.not_mem_nil, or_false, not_or] at hb
      exact ⟨b, [], rfl, by simp [isQuantifier, hb], by simp [hb], by simp [hb]⟩

end Pattern
end Munch
