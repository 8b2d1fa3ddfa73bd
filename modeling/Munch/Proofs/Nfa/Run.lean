import Mathlib.Logic.Relation
import Munch.Nfa.Basic

/-!
# Runs of a nondeterministic automaton

A run follows silent moves and moves that read one byte, and is counted in moves:
inductions over a loop go down on that count, since a silent cycle reads nothing.

**Results.**
* `Reaches.trans`: runs compose.
* `reaches_nil_iff`: a run that reads nothing is a chain of silent moves.
* `reaches_concat_iff`: the last byte of a word is read by one move, with silent
  moves behind it.
* `Run.cases_bytes`, `Run.cases_split`, `Run.of_accept`: how a run begins.
* `Run.of_bytes`, `Run.of_split`: how a run to an accepting state begins.
-/

namespace Munch
namespace Nfa

variable {states : Array State}

/-- A move that reads nothing. -/
def Silent (states : Array State) (p q : Nat) : Prop :=
  ∃ targets, states[p]? = some (.split targets) ∧ q ∈ targets

/-- A move that reads `b`. -/
def Reads (states : Array State) (p : Nat) (b : Byte) (q : Nat) : Prop :=
  ∃ set, states[p]? = some (.bytes set q) ∧ set.contains b = true

/-- A run of so many moves from one state to another, with the word it reads. -/
inductive Run (states : Array State) : Nat → Nat → List Byte → Nat → Prop
  | refl (p : Nat) : Run states 0 p [] p
  | silent {n p q r : Nat} {w : List Byte}
      (move : Silent states p q) (rest : Run states n q w r) :
      Run states (n + 1) p w r
  | read {n p q r : Nat} {b : Byte} {w : List Byte}
      (move : Reads states p b q) (rest : Run states n q w r) :
      Run states (n + 1) p (b :: w) r

/-- Some run leads from `p` to `q` and reads `w`. -/
def Reaches (states : Array State) (p : Nat) (w : List Byte) (q : Nat) : Prop :=
  ∃ n, Run states n p w q

/-- The state accepts for the rule. -/
def Accepting (states : Array State) (p rule : Nat) : Prop :=
  states[p]? = some (.accept rule)

theorem Silent.lt_size {p q : Nat} (h : Silent states p q) : p < states.size := by
  obtain ⟨targets, hp, -⟩ := h
  exact (Array.getElem?_eq_some_iff.1 hp).1

theorem Reads.lt_size {p q : Nat} {b : Byte} (h : Reads states p b q) : p < states.size := by
  obtain ⟨set, hp, -⟩ := h
  exact (Array.getElem?_eq_some_iff.1 hp).1

theorem Accepting.lt_size {p rule : Nat} (h : Accepting states p rule) : p < states.size :=
  (Array.getElem?_eq_some_iff.1 h).1

namespace Reaches

theorem refl (p : Nat) : Reaches states p [] p :=
  ⟨0, .refl p⟩

theorem silent {p q r : Nat} {w : List Byte} (move : Silent states p q)
    (h : Reaches states q w r) : Reaches states p w r := by
  obtain ⟨n, hrun⟩ := h
  exact ⟨n + 1, .silent move hrun⟩

theorem read {p q r : Nat} {b : Byte} {w : List Byte} (move : Reads states p b q)
    (h : Reaches states q w r) : Reaches states p (b :: w) r := by
  obtain ⟨n, hrun⟩ := h
  exact ⟨n + 1, .read move hrun⟩

theorem trans {p q r : Nat} {u v : List Byte} (hpq : Reaches states p u q)
    (hqr : Reaches states q v r) : Reaches states p (u ++ v) r := by
  obtain ⟨n, hrun⟩ := hpq
  induction hrun with
  | refl p =>
      exact hqr
  | silent move _ ih =>
      exact .silent move (ih hqr)
  | read move _ ih =>
      exact .read move (ih hqr)

end Reaches

/-- Every state on the way but the last exists. -/
theorem Run.lt_size {n p q : Nat} {w : List Byte} (h : Run states n p w q)
    (hq : q < states.size) : p < states.size := by
  cases h with
  | refl p =>
      exact hq
  | silent move _ =>
      exact move.lt_size
  | read move _ =>
      exact move.lt_size

theorem reaches_nil_iff {p q : Nat} :
    Reaches states p [] q ↔ Relation.ReflTransGen (Silent states) p q := by
  constructor
  · rintro ⟨n, hrun⟩
    generalize hw : ([] : List Byte) = w at hrun
    induction hrun with
    | refl p =>
        exact .refl
    | silent move _ ih =>
        exact .head move (ih hw)
    | read move _ _ =>
        cases hw
  · intro h
    induction h using Relation.ReflTransGen.head_induction_on with
    | refl =>
        exact .refl q
    | head move _ ih =>
        exact .silent move ih

theorem reaches_concat_iff {p r : Nat} {w : List Byte} {b : Byte} :
    Reaches states p (w ++ [b]) r ↔
      ∃ q q', Reaches states p w q ∧ Reads states q b q' ∧ Reaches states q' [] r := by
  constructor
  · rintro ⟨n, hrun⟩
    generalize hword : w ++ [b] = word at hrun
    induction hrun generalizing w with
    | refl p =>
        simp at hword
    | silent move _ ih =>
        obtain ⟨q, q', hq, hread, hr⟩ := ih hword
        exact ⟨q, q', .silent move hq, hread, hr⟩
    | @read n p s r c v move rest ih =>
        cases w with
        | nil =>
            obtain ⟨rfl, rfl⟩ := List.cons.inj hword
            exact ⟨p, s, .refl p, move, n, rest⟩
        | cons a w =>
            obtain ⟨rfl, htail⟩ := List.cons.inj hword
            obtain ⟨q, q', hq, hread, hr⟩ := ih htail
            exact ⟨q, q', .read move hq, hread, hr⟩
  · rintro ⟨q, q', hq, hread, hr⟩
    exact hq.trans (.read hread hr)

/-! ### How a run begins -/

section Beginnings

variable {n p t rule : Nat} {w : List Byte}

theorem Run.of_accept (hp : Accepting states p rule) (h : Run states n p w t) :
    t = p ∧ w = [] := by
  cases h with
  | refl p =>
      exact ⟨rfl, rfl⟩
  | silent move _ =>
      obtain ⟨targets, hsplit, -⟩ := move
      rw [Accepting, hsplit] at hp
      cases hp
  | read move _ =>
      obtain ⟨set, hbytes, -⟩ := move
      rw [Accepting, hbytes] at hp
      cases hp

theorem Run.cases_bytes {set : ByteSet} {next : Nat} (hp : states[p]? = some (.bytes set next))
    (h : Run states n p w t) :
    (w = [] ∧ t = p) ∨
      ∃ b v m, w = b :: v ∧ set.contains b = true ∧ n = m + 1 ∧ Run states m next v t := by
  cases h with
  | refl p =>
      exact .inl ⟨rfl, rfl⟩
  | silent move _ =>
      obtain ⟨targets, hsplit, -⟩ := move
      rw [hp] at hsplit
      cases hsplit
  | read move rest =>
      obtain ⟨set', hbytes, hb⟩ := move
      rw [hp] at hbytes
      cases hbytes
      exact .inr ⟨_, _, _, rfl, hb, rfl, rest⟩

theorem Run.cases_split {targets : List Nat} (hp : states[p]? = some (.split targets))
    (h : Run states n p w t) :
    (w = [] ∧ t = p) ∨ ∃ q ∈ targets, ∃ m, n = m + 1 ∧ Run states m q w t := by
  cases h with
  | refl p =>
      exact .inl ⟨rfl, rfl⟩
  | silent move rest =>
      obtain ⟨targets', hsplit, hq⟩ := move
      rw [hp] at hsplit
      cases hsplit
      exact .inr ⟨_, hq, _, rfl, rest⟩
  | read move _ =>
      obtain ⟨set, hbytes, -⟩ := move
      rw [hp] at hbytes
      cases hbytes

theorem Run.of_bytes {set : ByteSet} {next : Nat} (hp : states[p]? = some (.bytes set next))
    (ht : Accepting states t rule) (h : Run states n p w t) :
    ∃ b v m, w = b :: v ∧ set.contains b = true ∧ n = m + 1 ∧ Run states m next v t := by
  rcases h.cases_bytes hp with ⟨-, rfl⟩ | hread
  · rw [Accepting, hp] at ht
    cases ht
  · exact hread

theorem Run.of_split {targets : List Nat} (hp : states[p]? = some (.split targets))
    (ht : Accepting states t rule) (h : Run states n p w t) :
    ∃ q ∈ targets, ∃ m, n = m + 1 ∧ Run states m q w t := by
  rcases h.cases_split hp with ⟨-, rfl⟩ | hmove
  · rw [Accepting, hp] at ht
    cases ht
  · exact hmove

theorem reaches_split_iff {targets : List Nat} (hp : states[p]? = some (.split targets)) :
    Reaches states p w t ↔ (w = [] ∧ t = p) ∨ ∃ q ∈ targets, Reaches states q w t := by
  constructor
  · rintro ⟨n, hrun⟩
    rcases hrun.cases_split hp with hstop | ⟨q, hq, m, -, hrest⟩
    · exact .inl hstop
    · exact .inr ⟨q, hq, m, hrest⟩
  · rintro (⟨rfl, rfl⟩ | ⟨q, hq, hreach⟩)
    · exact .refl t
    · exact .silent ⟨targets, hp, hq⟩ hreach

end Beginnings

end Nfa
end Munch
