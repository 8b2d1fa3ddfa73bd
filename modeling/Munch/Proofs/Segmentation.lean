import Mathlib.Data.List.Infix
import Mathlib.Order.Bounds.Basic
import Munch.Proofs.Nfa.Recognition

/-!
# Maximal munch

Words are cut off a text one after the other, each the longest prefix of what is
left that some rule accepts, as long as that prefix is not empty.

**Results.**
* `Munched.append_eq`: the words cut off and what they leave make up the text.
* `Munched.unique`: a text is cut in one way only.
* `exists_munched`: cutting goes on until the text is used up or blocked.
-/

namespace Munch

/-- A word and the rule it is cut off for. -/
structure Segment where
  rule : Nat
  word : List Byte

/-- The segment is the longest accepted prefix of `rest`, is not empty, and goes to
the lowest of the rules that accept it. -/
structure IsMunch (accepts : Nat → List Byte → Prop) (rest : List Byte) (s : Segment) : Prop where
  nonempty : s.word ≠ []
  front : s.word <+: rest
  accepted : accepts s.rule s.word
  greatest : ∀ rule u, u <+: rest → accepts rule u → u.length ≤ s.word.length
  lowest : ∀ rule, accepts rule s.word → s.rule ≤ rule

/-- No rule accepts a prefix that is not empty. -/
def Blocked (accepts : Nat → List Byte → Prop) (rest : List Byte) : Prop :=
  ∀ rule u, u <+: rest → accepts rule u → u = []

/-- The segments can be cut off a text one after the other and leave `last`. -/
inductive Munched (accepts : Nat → List Byte → Prop) :
    List Byte → List Segment → List Byte → Prop
  | stop (text : List Byte) : Munched accepts text [] text
  | cut {text rest last : List Byte} {s : Segment} {segments : List Segment} :
      IsMunch accepts text s → text = s.word ++ rest → Munched accepts rest segments last →
      Munched accepts text (s :: segments) last

variable {accepts : Nat → List Byte → Prop}

theorem IsMunch.unique {rest : List Byte} {s t : Segment} (hs : IsMunch accepts rest s)
    (ht : IsMunch accepts rest t) : s = t := by
  have hlength : s.word.length = t.word.length :=
    Nat.le_antisymm (ht.greatest _ _ hs.front hs.accepted) (hs.greatest _ _ ht.front ht.accepted)
  have hword : s.word = t.word := by
    rw [List.prefix_iff_eq_take.1 hs.front, List.prefix_iff_eq_take.1 ht.front, hlength]
  have hrule : s.rule = t.rule :=
    Nat.le_antisymm (hs.lowest _ (hword ▸ ht.accepted)) (ht.lowest _ (hword ▸ hs.accepted))
  cases s
  cases t
  simp_all

theorem IsMunch.not_blocked {rest : List Byte} {s : Segment} (h : IsMunch accepts rest s) :
    ¬Blocked accepts rest := by
  intro hblocked
  exact h.nonempty (hblocked _ _ h.front h.accepted)

theorem blocked_nil : Blocked accepts [] := by
  intro rule u hu _
  exact List.prefix_nil.1 hu

/-- A text is cut in one way only, as far as it can be cut. -/
theorem Munched.unique {text last₁ last₂ : List Byte} {segments₁ segments₂ : List Segment}
    (h₁ : Munched accepts text segments₁ last₁) (hlast₁ : Blocked accepts last₁)
    (h₂ : Munched accepts text segments₂ last₂) (hlast₂ : Blocked accepts last₂) :
    segments₁ = segments₂ ∧ last₁ = last₂ := by
  induction h₁ generalizing segments₂ with
  | stop text =>
      cases h₂ with
      | stop =>
          exact ⟨rfl, rfl⟩
      | cut ht _ _ =>
          exact absurd hlast₁ ht.not_blocked
  | cut hs htext _ ih =>
      cases h₂ with
      | stop =>
          exact absurd hlast₂ hs.not_blocked
      | cut ht htext' hrest =>
          obtain rfl := hs.unique ht
          rw [htext, List.append_cancel_left_eq] at htext'
          subst htext'
          obtain ⟨rfl, rfl⟩ := ih hlast₁ hrest
          exact ⟨rfl, rfl⟩

theorem Munched.append_eq {text last : List Byte} {segments : List Segment}
    (h : Munched accepts text segments last) : segments.flatMap (·.word) ++ last = text := by
  induction h with
  | stop text =>
      rfl
  | cut _ htext _ ih =>
      rw [List.flatMap_cons, List.append_assoc, ih, htext]

/-- The winner is the lowest of the rules. -/
theorem LongestMatch.winner_le {found : LongestMatch} (h : found.rules.Pairwise (· < ·))
    {rule : Nat} (hrule : rule ∈ found.rules) : found.winner ≤ rule := by
  rcases List.mem_cons.1 hrule with rfl | hmem
  · exact Nat.le_refl _
  · exact Nat.le_of_lt (List.rel_of_pairwise_cons h hmem)

section Longest

variable {rest : List Byte} {found : LongestMatch}

theorem IsLongestMatch.length_take (h : IsLongestMatch accepts rest found) :
    (rest.take found.length).length = found.length :=
  List.length_take_of_le h.length_le

theorem IsLongestMatch.accepts_winner (h : IsLongestMatch accepts rest found) :
    accepts found.winner (rest.take found.length) :=
  (h.mem_rules _).1 List.mem_cons_self

theorem IsLongestMatch.winner_le (h : IsLongestMatch accepts rest found) {rule : Nat}
    (hrule : accepts rule (rest.take found.length)) : found.winner ≤ rule :=
  LongestMatch.winner_le h.increasing ((h.mem_rules rule).2 hrule)

theorem IsLongestMatch.isMunch (h : IsLongestMatch accepts rest found)
    (hlength : found.length ≠ 0) : IsMunch accepts rest ⟨found.winner, rest.take found.length⟩ where
  nonempty := by
    intro hnil
    have hzero := h.length_take.symm.trans (congrArg List.length hnil)
    exact hlength hzero
  front := List.take_prefix _ _
  accepted := h.accepts_winner
  greatest := by
    intro rule u hu haccept
    rw [h.length_take]
    exact h.greatest rule u hu haccept
  lowest := fun _ => h.winner_le

theorem IsLongestMatch.blocked (h : IsLongestMatch accepts rest found)
    (hlength : found.length = 0) : Blocked accepts rest := by
  intro rule u hu haccept
  have := h.greatest rule u hu haccept
  exact List.length_eq_zero_iff.1 (by omega)

theorem IsLongestMatch.length_eq_zero (h : IsLongestMatch accepts rest found)
    (hblocked : Blocked accepts rest) : found.length = 0 := by
  by_contra hlength
  exact (h.isMunch hlength).not_blocked hblocked

/-- An empty longest match goes to the lowest rule that accepts the empty word. -/
theorem IsLongestMatch.isLeast_winner (h : IsLongestMatch accepts rest found)
    (hlength : found.length = 0) : IsLeast {rule | accepts rule []} found.winner := by
  have hwinner := h.accepts_winner
  have hlowest : ∀ rule, accepts rule (rest.take found.length) → found.winner ≤ rule :=
    fun _ => h.winner_le
  rw [hlength, List.take_zero] at hwinner hlowest
  exact ⟨hwinner, hlowest⟩

theorem IsMunch.length_ne_zero {s : Segment} (hs : IsMunch accepts rest s)
    (h : IsLongestMatch accepts rest found) : found.length ≠ 0 := by
  intro hzero
  exact hs.not_blocked (h.blocked hzero)

end Longest

/-- Where longest matches exist or nothing matches, cutting goes on to a blocked rest. -/
theorem exists_munched
    (h : ∀ rest, (∃ found, IsLongestMatch accepts rest found) ∨
      ∀ rule u, u <+: rest → ¬accepts rule u)
    (text : List Byte) :
    ∃ segments last, Munched accepts text segments last ∧ Blocked accepts last := by
  induction hn : text.length using Nat.strongRecOn generalizing text with
  | ind n ih =>
      have hblocked : Blocked accepts text →
          ∃ segments last, Munched accepts text segments last ∧ Blocked accepts last :=
        fun hblocked => ⟨[], text, .stop text, hblocked⟩
      rcases h text with ⟨found, hfound⟩ | hnone
      · by_cases hlength : found.length = 0
        · exact hblocked (hfound.blocked hlength)
        · have hle := hfound.length_le
          obtain ⟨segments, last, hrest, hlast⟩ := ih (text.drop found.length).length
            (by rw [List.length_drop]; omega) (text.drop found.length) rfl
          exact ⟨_, last, .cut (hfound.isMunch hlength) (List.take_append_drop _ _).symm hrest,
            hlast⟩
      · apply hblocked
        intro rule u hu haccept
        exact absurd haccept (hnone rule u hu)

end Munch
