import Munch.Proofs.Pattern.Completeness

/-!
# Patterns that have a spelling

Not every tree can be the reading of a word: a list of one part stands for that part, a
class needs a member, and counts are bounded.  A tree without such defects is well
formed, and whatever the grammar derives is.

**Results.**
* `Class.ne_empty`, `Escaped.toSet_ne_empty`: single operands have members.
* `Quantifiers.wellFormed`: quantifiers keep a pattern well formed.
* `Alternation.wellFormed`: the descent, by recursion on the derivation.
-/

namespace Munch
namespace Pattern

/-- The bounds of a repetition are counts that can be written, and the right way round. -/
def WellBounded (min : Nat) (max : Option Nat) : Prop :=
  min ≤ maxCount ∧ ∀ m, max = some m → min ≤ m ∧ m ≤ maxCount

/-- No class is empty, no list has fewer than two parts, and all bounds can be written. -/
inductive WellFormed : Pattern → Prop
  | empty : WellFormed .empty
  | oneOf {set : ByteSet} : set ≠ .empty → WellFormed (.oneOf set)
  | sequence {parts : List Pattern} :
      2 ≤ parts.length → (∀ p ∈ parts, WellFormed p) → WellFormed (.sequence parts)
  | choice {branches : List Pattern} :
      2 ≤ branches.length → (∀ p ∈ branches, WellFormed p) → WellFormed (.choice branches)
  | repeated {body : Pattern} {min : Nat} {max : Option Nat} :
      WellFormed body → WellBounded min max → WellFormed (.repeated body min max)

/-! ### Single operands -/

theorem single_ne_empty (b : Byte) : ByteSet.single b ≠ .empty := by
  apply ByteSet.ne_empty_of_contains (b := b)
  simp

theorem Shorthand.ne_empty {b : Byte} {s : ByteSet} (h : Shorthand b s) : s ≠ .empty := by
  -- A digit, which is also a word byte, and a space tell all six sets from the empty one.
  have hmember : s.contains 0x30 = true ∨ s.contains 0x20 = true := by
    cases h <;> decide
  rcases hmember with hdigit | hspace
  · exact ByteSet.ne_empty_of_contains hdigit
  · exact ByteSet.ne_empty_of_contains hspace

theorem Escaped.toSet_ne_empty {w : List Byte} {m : Member} (h : Escaped w m) :
    m.toSet ≠ .empty := by
  cases h with
  | control _ =>
      exact single_ne_empty _
  | hex _ _ =>
      exact single_ne_empty _
  | shorthand hs =>
      exact hs.ne_empty
  | literal _ =>
      exact single_ne_empty _

theorem Class.ne_empty {w : List Byte} {s : ByteSet} (h : Class w s) : s ≠ .empty := by
  cases h with
  | plain _ _ hempty =>
      exact hempty
  | negated _ hempty =>
      exact hempty

theorem anyButNewline_ne_empty : ByteSet.anyButNewline ≠ .empty :=
  ByteSet.ne_empty_of_contains (b := 0x20) (by decide)

/-! ### Quantifiers -/

theorem Quantifier.wellBounded {w : List Byte} {min : Nat} {max : Option Nat}
    (h : Quantifier w min max) : WellBounded min max := by
  cases h with
  | star =>
      exact ⟨by decide, by rintro _ ⟨⟩⟩
  | plus =>
      exact ⟨by decide, by rintro _ ⟨⟩⟩
  | question =>
      exact ⟨by decide, by rintro _ ⟨⟩; decide⟩
  | exactly hn =>
      exact ⟨hn.bounded, by rintro _ ⟨⟩; exact ⟨Nat.le_refl _, hn.bounded⟩⟩
  | atLeast hn =>
      exact ⟨hn.bounded, by rintro _ ⟨⟩⟩
  | between hn hm hle =>
      exact ⟨hn.bounded, by rintro _ ⟨⟩; exact ⟨hle, hm.bounded⟩⟩

theorem Quantifiers.wellFormed {p q : Pattern} {w : List Byte} (h : Quantifiers p w q)
    (hp : p.WellFormed) : q.WellFormed := by
  induction h with
  | none p =>
      exact hp
  | more hu _ ih =>
      exact ih (.repeated hp hu.wellBounded)

/-! ### The descent -/

mutual

theorem Atom.wellFormed : ∀ {w : List Byte} {p : Pattern}, Atom w p → p.WellFormed
  | _, _, .group hw => hw.wellFormed
  | _, _, .brackets hw => .oneOf hw.ne_empty
  | _, _, .dot => .oneOf anyButNewline_ne_empty
  | _, _, .escape hw => .oneOf hw.toSet_ne_empty
  | _, _, .literal _ => .oneOf (single_ne_empty _)

theorem Repetition.wellFormed : ∀ {w : List Byte} {p : Pattern}, Repetition w p → p.WellFormed
  | _, _, .mk hu hv => hv.wellFormed hu.wellFormed

theorem Repetitions.wellFormed : ∀ {w : List Byte} {ps : List Pattern}, Repetitions w ps →
    ∀ p ∈ ps, p.WellFormed
  | _, _, .none => fun _ hp => absurd hp List.not_mem_nil
  | _, _, .more hu hv => List.forall_mem_cons.2 ⟨hu.wellFormed, hv.wellFormed⟩

theorem Concatenation.wellFormed : ∀ {w : List Byte} {p : Pattern}, Concatenation w p →
    p.WellFormed
  | _, _, .none => .empty
  | _, _, .one hw => hw.wellFormed _ List.mem_cons_self
  | _, _, .many hw hlength => .sequence hlength hw.wellFormed

theorem Branches.wellFormed : ∀ {w : List Byte} {ps : List Pattern}, Branches w ps →
    ∀ p ∈ ps, p.WellFormed
  | _, _, .last hw => List.forall_mem_singleton.2 hw.wellFormed
  | _, _, .more hu hv => List.forall_mem_cons.2 ⟨hu.wellFormed, hv.wellFormed⟩

theorem Alternation.wellFormed : ∀ {w : List Byte} {p : Pattern}, Alternation w p →
    p.WellFormed
  | _, _, .one hw => hw.wellFormed _ List.mem_cons_self
  | _, _, .many hw hlength => .choice hlength hw.wellFormed

end

end Pattern
end Munch
