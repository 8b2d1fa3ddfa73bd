import Munch.Pattern.Language

/-!
# How far a word can be read

A word is viable for a pattern when it can be read part by part, and each part byte by
byte, without asking whether what is still missing can be read at all.  So the words of
a pattern and their prefixes are viable, but behind them there may be a class without
members, or a choice without branches.

**Results.**
* `viable_of_language`: the words of a pattern are viable.
-/

namespace Munch
namespace Pattern

mutual

/-- Whether a word can be read, though perhaps not to the end of the pattern. -/
def viable : Pattern → List Byte → Prop
  | empty, w => w = []
  | oneOf set, w => w = [] ∨ ∃ b, set.contains b = true ∧ w = [b]
  | sequence parts, w => viableInSequence parts w
  | choice branches, w => w = [] ∨ viableInChoice branches w
  | repeated body min max, w =>
    w = [] ∨ ∃ (copies : List (List Byte)) (v : List Byte), copies.flatten ++ v = w ∧
      (∀ u ∈ copies, language body u) ∧ viable body v ∧
      ∀ m, max = some m → copies.length < Nat.max m min

/-- Whether a word is made of words of the first parts, and one that can be read as far
as it goes. -/
def viableInSequence : List Pattern → List Byte → Prop
  | [], w => w = []
  | part :: parts, w =>
    viable part w ∨ ∃ u v, u ++ v = w ∧ language part u ∧ viableInSequence parts v

/-- Whether a word can be read in one of the branches. -/
def viableInChoice : List Pattern → List Byte → Prop
  | [], _ => False
  | branch :: branches, w => viable branch w ∨ viableInChoice branches w

end

mutual

theorem viable_of_language : (p : Pattern) → ∀ {w : List Byte}, p.language w → p.viable w
  | empty, w, hw => by
      rw [language] at hw
      rwa [viable]
  | oneOf set, w, hw => by
      rw [language] at hw
      rw [viable]
      exact .inr hw
  | sequence parts, w, hw => by
      rw [language] at hw
      rw [viable]
      exact viableInSequence_of_language parts hw
  | choice branches, w, hw => by
      rw [language] at hw
      rw [viable]
      exact .inr (viableInChoice_of_language branches hw)
  | repeated body min max, w, hw => by
      rw [language] at hw
      rw [viable]
      obtain ⟨copies, rfl, hall, -, hmax⟩ := hw
      rcases List.eq_nil_or_concat copies with rfl | ⟨front, last, rfl⟩
      · exact .inl rfl
      · rw [List.concat_eq_append] at hall hmax ⊢
        refine .inr ⟨front, last, by simp, ?_, viable_of_language body (hall last (by simp)), ?_⟩
        · exact fun u hu => hall u (List.mem_append_left _ hu)
        · intro m hm
          have hlength := hmax m hm
          rw [List.length_append] at hlength
          exact hlength

theorem viableInSequence_of_language : (parts : List Pattern) → ∀ {w : List Byte},
    languageOfSequence parts w → viableInSequence parts w
  | [], w, hw => by
      rw [languageOfSequence] at hw
      rwa [viableInSequence]
  | part :: parts, w, hw => by
      rw [languageOfSequence] at hw
      rw [viableInSequence]
      obtain ⟨u, v, hsplit, hu, hv⟩ := hw
      exact .inr ⟨u, v, hsplit, hu, viableInSequence_of_language parts hv⟩

theorem viableInChoice_of_language : (branches : List Pattern) → ∀ {w : List Byte},
    languageOfChoice branches w → viableInChoice branches w
  | [], w, hw => by
      rw [languageOfChoice] at hw
      exact hw.elim
  | branch :: branches, w, hw => by
      rw [languageOfChoice] at hw
      rw [viableInChoice]
      exact hw.imp (viable_of_language branch) (viableInChoice_of_language branches)

end

end Pattern
end Munch
