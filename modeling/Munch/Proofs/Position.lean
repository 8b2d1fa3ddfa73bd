import Mathlib.Data.List.Basic
import Munch.Cursor

/-!
# Positions are determined by the bytes in front of them

Stepping from byte to byte counts what can also be read off the bytes at once: how
many they are, how many newlines are among them, and how many follow the last
newline.

**Results.**
* `behind_concat`: one step agrees with one more byte.
* `advance_spec`: where moving over a word leads, and the position of its last byte.
-/

namespace Munch

/-- The position behind `bytes`, under the given baselines. -/
def Position.behind (firstLine firstColumn : Nat) (bytes : List Byte) : Position where
  offset := bytes.length
  line := firstLine + bytes.count Ascii.newline
  column := firstColumn + (bytes.reverse.takeWhile (· != Ascii.newline)).length

variable {firstLine firstColumn : Nat}

theorem Position.behind_concat (bytes : List Byte) (b : Byte) :
    (behind firstLine firstColumn bytes).step b firstColumn =
      behind firstLine firstColumn (bytes ++ [b]) := by
  by_cases hb : b = Ascii.newline
  · simp [behind, step, hb, Nat.add_assoc]
  · simp [behind, step, hb, Nat.add_assoc]

namespace Cursor

variable {text : List Byte}

theorem step?_eq_some (firstColumn : Nat) {c : Cursor text} {b : Byte} {rest : List Byte}
    (h : c.rest = b :: rest) :
    ∃ d, c.step? firstColumn = some d ∧ d.position = c.position.step b firstColumn ∧
      d.rest = rest := by
  unfold step?
  split
  · rename_i hnil
    rw [h] at hnil
    cases hnil
  · rename_i b' rest' hcons
    rw [h] at hcons
    cases hcons
    exact ⟨_, rfl, rfl, rfl⟩

theorem walk_spec (w : List Byte) {rest before : List Byte} {c : Cursor text} (last : Position)
    (hrest : c.rest = w ++ rest) (hposition : c.position = .behind firstLine firstColumn before) :
    (walk firstColumn w.length last c).2.position =
        .behind firstLine firstColumn (before ++ w) ∧
      (walk firstColumn w.length last c).2.rest = rest ∧
      (w ≠ [] → (walk firstColumn w.length last c).1 =
        .behind firstLine firstColumn (before ++ w.dropLast)) := by
  induction w generalizing before c last with
  | nil =>
      rw [List.append_nil]
      exact ⟨hposition, hrest, fun h => absurd rfl h⟩
  | cons b w ih =>
      obtain ⟨d, hstep, hd, hdrest⟩ := step?_eq_some firstColumn hrest
      rw [hposition, Position.behind_concat] at hd
      obtain ⟨hposition', hrest', hlast⟩ := ih c.position hdrest hd
      rw [List.length_cons, walk, hstep]
      rw [List.append_assoc] at hposition'
      refine ⟨hposition', hrest', ?_⟩
      intro _
      cases w with
      | nil =>
          simpa [walk] using hposition
      | cons b' w =>
          rw [List.dropLast_cons_cons]
          have := hlast (List.cons_ne_nil b' w)
          rwa [List.append_assoc] at this

/-- Where moving over a word leads. -/
theorem advance_spec {w rest before : List Byte} {c : Cursor text} (hw : w ≠ [])
    (hrest : c.rest = w ++ rest) (hposition : c.position = .behind firstLine firstColumn before) :
    (c.advance firstColumn w.length).2.position = .behind firstLine firstColumn (before ++ w) ∧
      (c.advance firstColumn w.length).2.rest = rest ∧
      (c.advance firstColumn w.length).1 =
        .behind firstLine firstColumn (before ++ w.dropLast) := by
  obtain ⟨hposition', hrest', hlast⟩ := walk_spec w c.position hrest hposition
  exact ⟨hposition', hrest', hlast hw⟩

end Cursor
end Munch
