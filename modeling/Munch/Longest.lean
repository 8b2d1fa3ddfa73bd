import Munch.Byte

/-!
# Longest matches

A tracker is a deterministic view of a recognizer: a state, a step that may die,
and the rules accepted in each state.  Running it over a text finds the longest
prefix that some rule accepts.

**Algorithm.**  The tracker steps byte by byte until it dies or the text ends,
and remembers the last state in which some rule accepted.

**Results.**
* `Outcome.shift_eq_matched_iff`, `Outcome.shift_eq_unmatched_iff`,
  `Outcome.shift_zero`: moving the place where a match was attempted.
-/

namespace Munch

/-- The longest accepted prefix: its length, and the rules that accept exactly
that prefix, the lowest of them first. -/
structure LongestMatch where
  length : Nat
  winner : Nat
  others : List Nat
deriving DecidableEq, Repr

/-- Every rule that accepts the prefix, in increasing order. -/
def LongestMatch.rules (found : LongestMatch) : List Nat := found.winner :: found.others

/-- What an attempt to match finds. -/
inductive Outcome
  | matched (found : LongestMatch)
  /-- No rule accepts any prefix; `failedAt` is the offset of the first byte that
  could not be read, or of the end of the text. -/
  | unmatched (failedAt : Nat)
deriving DecidableEq, Repr

/-- The outcome of the same attempt made `offset` bytes further on. -/
def Outcome.shift (offset : Nat) : Outcome → Outcome
  | matched found => matched found
  | unmatched failedAt => unmatched (offset + failedAt)

theorem Outcome.shift_eq_matched_iff {offset : Nat} {o : Outcome} {found : LongestMatch} :
    o.shift offset = matched found ↔ o = matched found := by
  cases o <;> simp [shift]

theorem Outcome.shift_eq_unmatched_iff {offset failedAt : Nat} {o : Outcome} :
    o.shift offset = unmatched failedAt ↔
      ∃ read, o = unmatched read ∧ offset + read = failedAt := by
  cases o <;> simp [shift]

theorem Outcome.shift_zero (o : Outcome) : o.shift 0 = o := by
  cases o <;> simp [shift]

/-- A recognizer seen as one state that moves from byte to byte. -/
structure Tracker (σ : Type) where
  start : σ
  /-- The next state, or none when no rule can accept any more. -/
  step : σ → Byte → Option σ
  /-- The rules accepted in a state, in increasing order. -/
  accepts : σ → List Nat

namespace Tracker

variable {σ : Type} (t : Tracker σ)

/-- The match of `length` bytes that ends in `state`, if a rule accepts there. -/
def matchOfLength (length : Nat) (state : σ) : Option LongestMatch :=
  match t.accepts state with
  | [] => none
  | winner :: others => some ⟨length, winner, others⟩

/-- Goes on from `state`, after `read` bytes and with the longest match so far. -/
def follow (read : Nat) (best : Option LongestMatch) (state : σ) : List Byte → Outcome
  | [] => best.elim (.unmatched read) .matched
  | b :: rest =>
    match t.step state b with
    | none => best.elim (.unmatched read) .matched
    | some next => follow (read + 1) ((t.matchOfLength (read + 1) next).or best) next rest

/-- The longest match at the front of a text. -/
def longest (text : List Byte) : Outcome :=
  t.follow 0 (t.matchOfLength 0 t.start) t.start text

/-- The longest match at `offset`, where a text has nothing left past its end. -/
def longestAt (text : List Byte) (offset : Nat) : Outcome :=
  (t.longest (text.drop offset)).shift offset

end Tracker
end Munch
