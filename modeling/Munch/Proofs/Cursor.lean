import Mathlib.Logic.Relation
import Munch.Proofs.Position

/-!
# Where moving over bytes leads

However a cursor is moved, it goes from byte to byte, so a property that one step
keeps is kept by every move.  One such property is that line and column are those of
the bytes in front of the cursor.

**Results.**
* `leads_advance`, `leads_advanceTo`: every move goes from byte to byte.
* `Leads.wellPlaced`: positions stay the ones of the bytes in front of them.
* `offset_advanceTo`, `fst_advance`, `fst_advanceTo`: how far a move goes, and what it
  answers.
* `advance_eq_advanceTo`: an advance is a move to a target, also one cut off at a
  bound past the end of the text.
-/

namespace Munch
namespace Cursor

variable {text : List Byte} {firstLine firstColumn : Nat} {c d : Cursor text}

/-- Moving over some bytes leads from the first place to the second. -/
def Leads (firstColumn : Nat) : Cursor text → Cursor text → Prop :=
  Relation.ReflTransGen fun c d => c.step? firstColumn = some d

theorem Leads.refl (c : Cursor text) : Leads firstColumn c c :=
  Relation.ReflTransGen.refl

theorem Leads.trans {e : Cursor text} (h₁ : Leads firstColumn c d) (h₂ : Leads firstColumn d e) :
    Leads firstColumn c e :=
  Relation.ReflTransGen.trans h₁ h₂

theorem leads_walk (n : Nat) (last : Position) (c : Cursor text) :
    Leads firstColumn c (walk firstColumn n last c).2 := by
  induction n generalizing last c with
  | zero =>
      exact .refl c
  | succ n ih =>
      rw [walk]
      split
      · exact .refl c
      · rename_i next hnext
        exact .head hnext (ih c.position next)

theorem leads_advance (n : Nat) (c : Cursor text) :
    Leads firstColumn c (c.advance firstColumn n).2 :=
  leads_walk n c.position c

theorem leads_advanceTo (target : Nat) (c : Cursor text) :
    Leads firstColumn c (c.advanceTo firstColumn target).2 :=
  leads_advance _ c

theorem Leads.offset_le (h : Leads firstColumn c d) : c.offset ≤ d.offset := by
  induction h with
  | refl =>
      exact Nat.le_refl _
  | tail _ hstep ih =>
      have hnext := (of_step?_eq_some hstep).1
      omega

/-- Moving leads back to no place, so one that is no further on is the same. -/
theorem Leads.eq_of_offset_le (h : Leads firstColumn c d) (hle : d.offset ≤ c.offset) : d = c := by
  cases h using Relation.ReflTransGen.head_induction_on with
  | refl =>
      rfl
  | @head c e hstep hrest =>
      have hnext := (of_step?_eq_some hstep).1
      have hfurther := Leads.offset_le hrest
      omega

theorem snd_walk_eq (n : Nat) (first second : Position) (c : Cursor text) :
    (walk firstColumn n first c).2 = (walk firstColumn n second c).2 := by
  cases n with
  | zero =>
      rfl
  | succ n =>
      rw [walk, walk]
      split <;> rfl

/-- A place that moving leads to is one that an advance goes to. -/
theorem Leads.exists_advance (h : Leads firstColumn c d) :
    ∃ n, (c.advance firstColumn n).2 = d := by
  induction h using Relation.ReflTransGen.head_induction_on with
  | refl =>
      exact ⟨0, rfl⟩
  | @head c e hstep _ ih =>
      obtain ⟨n, hn⟩ := ih
      refine ⟨n + 1, ?_⟩
      rw [advance, walk, hstep]
      exact (snd_walk_eq n _ _ e).trans hn

/-- What holds of a place if it holds of all places further on, as long as there are
bytes left, holds everywhere. -/
theorem induction_further {motive : Cursor text → Prop}
    (step : ∀ c : Cursor text,
      (c.rest ≠ [] → ∀ d : Cursor text, c.offset < d.offset → motive d) → motive c)
    (c : Cursor text) : motive c := by
  induction hleft : text.length - c.offset using Nat.strongRecOn generalizing c with
  | ind left ih =>
      apply step c
      intro hrest d hd
      have hlt := offset_lt hrest
      exact ih (text.length - d.offset) (by omega) d rfl

/-! ### Positions -/

/-- The position of the place is the one of the bytes in front of it. -/
def WellPlaced (firstLine firstColumn : Nat) (c : Cursor text) : Prop :=
  c.position = .behind firstLine firstColumn (text.take c.offset)

theorem wellPlaced_atStart (text : List Byte) (firstLine firstColumn : Nat) :
    (atStart text firstLine firstColumn).WellPlaced firstLine firstColumn :=
  rfl

theorem WellPlaced.offset_le_length (h : c.WellPlaced firstLine firstColumn) :
    c.offset ≤ text.length := by
  have hoffset : c.offset = (text.take c.offset).length := congrArg Position.offset h
  rw [List.length_take] at hoffset
  omega

theorem WellPlaced.step (h : c.WellPlaced firstLine firstColumn)
    (hstep : c.step? firstColumn = some d) : d.WellPlaced firstLine firstColumn := by
  cases hrest : c.rest with
  | nil =>
      have hlength := (of_step?_eq_some hstep).2
      rw [hrest] at hlength
      cases hlength
  | cons b rest =>
      obtain ⟨e, he, hposition, -⟩ := step?_eq_some firstColumn hrest
      obtain rfl : d = e := Option.some.inj (hstep.symm.trans he)
      have htake : text.take d.offset = text.take c.offset ++ [b] := by
        rw [(of_step?_eq_some hstep).1, List.take_add, c.drop_eq, hrest]
        rfl
      rw [WellPlaced, htake, hposition, h, Position.behind_concat]

theorem Leads.wellPlaced (h : Leads firstColumn c d) (hc : c.WellPlaced firstLine firstColumn) :
    d.WellPlaced firstLine firstColumn := by
  induction h with
  | refl =>
      exact hc
  | tail _ hstep ih =>
      exact ih.step hstep

/-! ### How far a move goes -/

theorem offset_advanceTo (target : Nat) (hle : c.offset ≤ text.length) :
    (c.advanceTo firstColumn target).2.offset = max c.offset (min target text.length) := by
  rw [advanceTo, offset_advance, length_rest]
  omega

/-- A walk that moves answers with the position of the last byte moved over. -/
theorem fst_walk (hc : c.WellPlaced firstLine firstColumn) (n : Nat) (last : Position) :
    (walk firstColumn n last c).1 =
      if c.offset < (walk firstColumn n last c).2.offset then
        .behind firstLine firstColumn (text.take ((walk firstColumn n last c).2.offset - 1))
      else last := by
  induction n generalizing last c with
  | zero =>
      simp [walk]
  | succ n ih =>
      rw [walk]
      cases hstep : c.step? firstColumn with
      | none =>
          simp
      | some next =>
          have hnext := (of_step?_eq_some hstep).1
          have hleads : Leads firstColumn next (walk firstColumn n c.position next).2 :=
            leads_walk n c.position next
          have hfurther := hleads.offset_le
          have hmoved : c.offset < (walk firstColumn n c.position next).2.offset := by omega
          simp only [if_pos hmoved]
          rw [ih (hc.step hstep)]
          split
          · rfl
          · have hlast : (walk firstColumn n c.position next).2.offset - 1 = c.offset := by omega
            rw [hlast]
            exact hc

/-- An advance that moves answers with the position of the last byte moved over. -/
theorem fst_advance (hc : c.WellPlaced firstLine firstColumn) {n : Nat}
    (hmoved : c.offset < (c.advance firstColumn n).2.offset) :
    (c.advance firstColumn n).1 =
      .behind firstLine firstColumn (text.take ((c.advance firstColumn n).2.offset - 1)) :=
  (fst_walk hc n c.position).trans (if_pos hmoved)

theorem fst_advanceTo (hc : c.WellPlaced firstLine firstColumn) (target : Nat) :
    (c.advanceTo firstColumn target).1 =
      if c.offset < (c.advanceTo firstColumn target).2.offset then
        .behind firstLine firstColumn (text.take ((c.advanceTo firstColumn target).2.offset - 1))
      else c.position :=
  fst_walk hc _ c.position

/-- Walks that would go to the same place, but for the end of the text, are the same. -/
theorem walk_congr {m n : Nat} (last : Position)
    (h : min m c.rest.length = min n c.rest.length) :
    walk firstColumn m last c = walk firstColumn n last c := by
  induction m generalizing n last c with
  | zero =>
      cases n with
      | zero =>
          rfl
      | succ n =>
          have hempty : c.rest.length = 0 := by omega
          rw [walk, walk]
          cases hstep : c.step? firstColumn with
          | none =>
              rfl
          | some next =>
              have hlength := (of_step?_eq_some hstep).2
              omega
  | succ m ih =>
      rw [walk]
      cases hstep : c.step? firstColumn with
      | none =>
          cases n with
          | zero =>
              rfl
          | succ n =>
              rw [walk, hstep]
      | some next =>
          have hlength := (of_step?_eq_some hstep).2
          cases n with
          | zero =>
              omega
          | succ n =>
              rw [walk, hstep]
              exact ih c.position (by omega)

theorem advance_eq_advanceTo (n : Nat) {bound : Nat} (hbound : text.length ≤ bound) :
    c.advance firstColumn n = c.advanceTo firstColumn (min (c.offset + n) bound) := by
  apply walk_congr
  rw [length_rest]
  omega

end Cursor
end Munch
