import Munch.Proofs.Pattern.Viable
import Munch.Proofs.Pattern.WellFormed

/-!
# What can be read can be completed

In a well-formed pattern no class is empty and no choice is without branches, so each
part stands for some word.  A word that has been read so far is then completed with words
of the parts that are still missing.

**Results.**
* `WellFormed.exists_language`: a well-formed pattern stands for some word.
* `WellFormed.exists_append`: a word that is viable for it begins one of its words.
-/

namespace Munch
namespace Pattern

theorem viableInChoice_iff {branches : List Pattern} {w : List Byte} :
    viableInChoice branches w ↔ ∃ branch ∈ branches, branch.viable w := by
  induction branches with
  | nil =>
      simp [viableInChoice]
  | cons branch branches ih =>
      simp [viableInChoice, ih]

/-! ### Words -/

theorem exists_languageOfSequence {parts : List Pattern} (h : ∀ p ∈ parts, ∃ w, p.language w) :
    ∃ w, languageOfSequence parts w := by
  induction parts with
  | nil =>
      exact ⟨[], by rw [languageOfSequence]⟩
  | cons part parts ih =>
      obtain ⟨⟨u, hu⟩, hparts⟩ := List.forall_mem_cons.1 h
      obtain ⟨v, hv⟩ := ih hparts
      refine ⟨u ++ v, ?_⟩
      rw [languageOfSequence]
      exact ⟨u, v, rfl, hu, hv⟩

/-- Copies that are not too many are completed with further copies of some word, as long
as there are too few. -/
theorem exists_append_of_copies {body : Pattern} {min : Nat} {max : Option Nat} {u : List Byte}
    (hu : body.language u) {copies : List (List Byte)} (hall : ∀ c ∈ copies, body.language c)
    (hmax : ∀ m, max = some m → copies.length ≤ Nat.max m min) :
    ∃ v, (repeated body min max).language (copies.flatten ++ v) := by
  let missing := List.replicate (min - copies.length) u
  refine ⟨missing.flatten, ?_⟩
  rw [language]
  refine ⟨copies ++ missing, List.flatten_append, ?_, ?_, ?_⟩
  · intro c hc
    rcases List.mem_append.1 hc with hc | hc
    · exact hall c hc
    · rw [List.eq_of_mem_replicate hc]
      exact hu
  · simp only [missing, List.length_append, List.length_replicate]
    omega
  · intro m hm
    have hle := hmax m hm
    have hmin : min ≤ Nat.max m min := Nat.le_max_right m min
    simp only [missing, List.length_append, List.length_replicate]
    omega

theorem WellFormed.exists_language {p : Pattern} (h : p.WellFormed) : ∃ w, p.language w := by
  induction h with
  | empty =>
      exact ⟨[], by rw [language]⟩
  | oneOf hset =>
      obtain ⟨b, hb⟩ := ByteSet.exists_contains_of_ne_empty hset
      refine ⟨[b], ?_⟩
      rw [language]
      exact ⟨b, hb, rfl⟩
  | sequence _ _ ih =>
      obtain ⟨w, hw⟩ := exists_languageOfSequence ih
      refine ⟨w, ?_⟩
      rwa [language]
  | choice hlength _ ih =>
      have hpos : 0 < List.length _ := Nat.lt_of_lt_of_le Nat.two_pos hlength
      obtain ⟨branch, hbranch⟩ := List.exists_mem_of_length_pos hpos
      obtain ⟨w, hw⟩ := ih branch hbranch
      exact ⟨w, (language_choice _ w).2 ⟨branch, hbranch, hw⟩⟩
  | repeated _ _ ih =>
      obtain ⟨u, hu⟩ := ih
      obtain ⟨v, hv⟩ := exists_append_of_copies hu (List.forall_mem_nil _) fun _ _ => Nat.zero_le _
      exact ⟨_, hv⟩

/-! ### Completions -/

theorem exists_append_of_viableInSequence {parts : List Pattern}
    (hwords : ∀ p ∈ parts, ∃ w, p.language w)
    (h : ∀ p ∈ parts, ∀ {w : List Byte}, p.viable w → ∃ v, p.language (w ++ v)) {w : List Byte}
    (hw : viableInSequence parts w) : ∃ v, languageOfSequence parts (w ++ v) := by
  induction parts generalizing w with
  | nil =>
      rw [viableInSequence] at hw
      subst hw
      exact ⟨[], by rw [languageOfSequence]; rfl⟩
  | cons part parts ih =>
      obtain ⟨hpart, hparts⟩ := List.forall_mem_cons.1 h
      have hothers := (List.forall_mem_cons.1 hwords).2
      rw [viableInSequence] at hw
      simp only [languageOfSequence]
      rcases hw with hw | ⟨u, v, rfl, hu, hv⟩
      · obtain ⟨x, hx⟩ := hpart hw
        obtain ⟨y, hy⟩ := exists_languageOfSequence hothers
        exact ⟨x ++ y, w ++ x, y, List.append_assoc w x y, hx, hy⟩
      · obtain ⟨y, hy⟩ := ih hothers hparts hv
        exact ⟨y, u, v ++ y, (List.append_assoc u v y).symm, hu, hy⟩

/-- **A word that is viable for a well-formed pattern begins one of its words.** -/
theorem WellFormed.exists_append {p : Pattern} (h : p.WellFormed) {w : List Byte}
    (hw : p.viable w) : ∃ v, p.language (w ++ v) := by
  -- Nothing read is completed with any word of the pattern.
  have hnil : ∀ {q : Pattern} {w : List Byte}, q.WellFormed → w = [] →
      ∃ v, q.language (w ++ v) := by
    rintro q _ hq rfl
    exact hq.exists_language
  induction h generalizing w with
  | empty =>
      rw [viable] at hw
      exact hnil .empty hw
  | oneOf hset =>
      rw [viable] at hw
      rcases hw with hw | ⟨b, hb, rfl⟩
      · exact hnil (.oneOf hset) hw
      · refine ⟨[], ?_⟩
        rw [language]
        exact ⟨b, hb, rfl⟩
  | sequence _ hparts ih =>
      rw [viable] at hw
      obtain ⟨v, hv⟩ := exists_append_of_viableInSequence
        (fun p hp => (hparts p hp).exists_language) (fun p hp _ => ih p hp) hw
      refine ⟨v, ?_⟩
      rwa [language]
  | choice hlength hbranches ih =>
      rw [viable] at hw
      rcases hw with hw | hw
      · exact hnil (.choice hlength hbranches) hw
      · obtain ⟨branch, hbranch, hw⟩ := viableInChoice_iff.1 hw
        obtain ⟨v, hv⟩ := ih branch hbranch hw
        exact ⟨v, (language_choice _ _).2 ⟨branch, hbranch, hv⟩⟩
  | repeated hbody hbounds ih =>
      rw [viable] at hw
      rcases hw with hw | ⟨copies, x, rfl, hall, hx, hcount⟩
      · exact hnil (.repeated hbody hbounds) hw
      · -- The last copy is completed first, and counts as one of the copies.
        obtain ⟨y, hy⟩ := ih hx
        have hcopies : ∀ c ∈ copies ++ [x ++ y], _ :=
          List.forall_mem_append.2 ⟨hall, List.forall_mem_singleton.2 hy⟩
        obtain ⟨z, hz⟩ := exists_append_of_copies hy hcopies (fun m hm => by
          rw [List.length_append]
          exact hcount m hm)
        refine ⟨y ++ z, ?_⟩
        simpa using hz

end Pattern
end Munch
