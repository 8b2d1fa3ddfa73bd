import Mathlib.Logic.Function.Basic
import Std.Data.HashMap

/-!
# Keys by number and numbers by key

Keys are numbered by appending each new one to an array and noting its number in a map.
The two stay inverse to each other, whatever type the numbers are wrapped in.

**Results.**
* `getElem?_push_eq_some_iff`: what appending a key adds.
* `getElem?_insert_iff_push`: a new key keeps the map and the array inverse.
-/

namespace Munch

section Inverse

variable {κ ν : Type} {keys : Array κ} {key : κ}

/-- Appending a key adds it under the number that was free, and nothing else. -/
theorem getElem?_push_eq_some_iff {n : Nat} {other : κ} :
    (keys.push key)[n]? = some other ↔
      keys[n]? = some other ∨ (n = keys.size ∧ key = other) := by
  rw [Array.getElem?_push]
  by_cases hn : n = keys.size
  · rw [if_pos hn, hn, Array.getElem?_size]
    simp
  · rw [if_neg hn]
    simp [hn]

variable [BEq κ] [LawfulBEq κ] [Hashable κ] [LawfulHashable κ] {number : Std.HashMap κ ν}
  {place : ν → Nat}

/-- A map and an array that are inverse to each other stay so when a key that has no
number gets the one that is free. -/
theorem getElem?_insert_iff_push (hplace : Function.Injective place)
    (hinverse : ∀ key n, number[key]? = some n ↔ keys[place n]? = some key) {free : ν}
    (hfree : place free = keys.size) (hnew : number[key]? = none) (other : κ) (n : ν) :
    (number.insert key free)[other]? = some n ↔ (keys.push key)[place n]? = some other := by
  rw [Std.HashMap.getElem?_insert, getElem?_push_eq_some_iff, ← hinverse]
  by_cases hother : key = other
  · subst hother
    simp only [beq_self_eq_true, if_true, Option.some.injEq, hnew, reduceCtorEq, false_or,
      and_true, ← hfree]
    exact ⟨fun h => congrArg place h.symm, fun h => (hplace h).symm⟩
  · simp [hother]

end Inverse

end Munch
