import Mathlib.Data.List.Basic
import Munch.Longest

/-!
# What the longest match is

A tracker remembers the last accepting state on its way.  Here its answer is
described without the memory: by the rules that it accepts after each prefix of
the text, and by the prefixes that it survives.

**Results.**
* `longest_eq_matched_iff`: a match is the last prefix after which some rule is
  accepted, with exactly the rules accepted there.
* `longest_eq_unmatched_iff`: without a match, the answer is the length of the
  longest prefix that the tracker survives.
* `le_iff_of_longest_eq_unmatched`: the prefixes that it survives.
* `longest_eq_of_bisimulation`: trackers that move and accept alike give the same
  answers.
-/

namespace Munch
namespace Tracker

variable {σ τ : Type}

/-- The state after a word has been read from `state`, unless the tracker died. -/
def after (t : Tracker σ) : σ → List Byte → Option σ
  | state, [] => some state
  | state, b :: rest => (t.step state b).bind fun next => t.after next rest

/-- The rules accepted after a word, none if the tracker died. -/
def rulesAfter (t : Tracker σ) (w : List Byte) : List Nat :=
  (t.after t.start w).elim [] t.accepts

section Words

variable (t : Tracker σ)

theorem after_append (state : σ) (u v : List Byte) :
    t.after state (u ++ v) = (t.after state u).bind fun next => t.after next v := by
  induction u generalizing state with
  | nil =>
      rfl
  | cons b u ih =>
      simp only [List.cons_append, after, Option.bind_assoc, ih]

theorem after_take_succ {text : List Byte} {n : Nat} {b : Byte} {rest : List Byte} {state : σ}
    (hstate : t.after t.start (text.take n) = some state) (hrest : text.drop n = b :: rest) :
    t.after t.start (text.take (n + 1)) = t.step state b := by
  have htake : text.take (n + 1) = text.take n ++ [b] := by
    rw [List.take_add, hrest]
    rfl
  rw [htake, after_append, hstate]
  simp [after]

theorem after_take_eq_none_of_le {text : List Byte} {m n : Nat} (hmn : m ≤ n)
    (hm : t.after t.start (text.take m) = none) :
    t.after t.start (text.take n) = none := by
  obtain ⟨k, rfl⟩ := Nat.exists_eq_add_of_le hmn
  rw [List.take_add, after_append, hm]
  rfl

theorem rulesAfter_of_eq_some {w : List Byte} {state : σ}
    (h : t.after t.start w = some state) : t.rulesAfter w = t.accepts state := by
  rw [rulesAfter, h]
  rfl

theorem rulesAfter_of_eq_none {w : List Byte}
    (h : t.after t.start w = none) : t.rulesAfter w = [] := by
  rw [rulesAfter, h]
  rfl

end Words

section Memory

variable (t : Tracker σ) (text : List Byte)

/-- `best` is the last match among the prefixes of at most `bound` bytes. -/
def IsBest (bound : Nat) : Option LongestMatch → Prop
  | none => ∀ n, n ≤ bound → t.rulesAfter (text.take n) = []
  | some found =>
      found.length ≤ bound ∧
      t.rulesAfter (text.take found.length) = found.rules ∧
      ∀ n, found.length < n → n ≤ bound → t.rulesAfter (text.take n) = []

variable {t text}

theorem matchOfLength_eq_none {length : Nat} {state : σ}
    (h : t.matchOfLength length state = none) : t.accepts state = [] := by
  unfold matchOfLength at h
  split at h
  · assumption
  · cases h

theorem matchOfLength_eq_some {length : Nat} {state : σ} {found : LongestMatch}
    (h : t.matchOfLength length state = some found) :
    found.length = length ∧ found.rules = t.accepts state := by
  unfold matchOfLength at h
  split at h
  · cases h
  · rename_i winner others haccepts
    cases h
    exact ⟨rfl, haccepts.symm⟩

theorem isBest_zero : t.IsBest text 0 (t.matchOfLength 0 t.start) := by
  have hzero : t.rulesAfter (text.take 0) = t.accepts t.start :=
    t.rulesAfter_of_eq_some rfl
  cases hmatch : t.matchOfLength 0 t.start with
  | none =>
      intro n hn
      obtain rfl := Nat.le_zero.1 hn
      rw [hzero, matchOfLength_eq_none hmatch]
  | some found =>
      obtain ⟨hlength, hrules⟩ := matchOfLength_eq_some hmatch
      refine ⟨Nat.le_of_eq hlength, ?_, ?_⟩
      · rw [hlength, hzero, hrules]
      · intro n hlt hle
        omega

/-- A bound may be raised over prefixes after which nothing is accepted. -/
theorem IsBest.raise {m n : Nat} {best : Option LongestMatch} (h : t.IsBest text m best)
    (hmn : m ≤ n) (hnone : ∀ k, m < k → k ≤ n → t.rulesAfter (text.take k) = []) :
    t.IsBest text n best := by
  cases best with
  | none =>
      intro k hk
      by_cases hkm : k ≤ m
      · exact h k hkm
      · exact hnone k (Nat.lt_of_not_le hkm) hk
  | some found =>
      obtain ⟨hle, hrules, hlast⟩ := h
      refine ⟨Nat.le_trans hle hmn, hrules, ?_⟩
      intro k hlt hk
      by_cases hkm : k ≤ m
      · exact hlast k hlt hkm
      · exact hnone k (Nat.lt_of_not_le hkm) hk

theorem IsBest.succ {n : Nat} {best : Option LongestMatch} {state : σ}
    (h : t.IsBest text n best) (hstate : t.after t.start (text.take (n + 1)) = some state) :
    t.IsBest text (n + 1) ((t.matchOfLength (n + 1) state).or best) := by
  have hrules := t.rulesAfter_of_eq_some hstate
  cases hmatch : t.matchOfLength (n + 1) state with
  | none =>
      apply h.raise (Nat.le_succ n)
      intro k hlt hle
      obtain rfl : k = n + 1 := by omega
      rw [hrules, matchOfLength_eq_none hmatch]
  | some found =>
      obtain ⟨hlength, hfound⟩ := matchOfLength_eq_some hmatch
      refine ⟨Nat.le_of_eq hlength, ?_, ?_⟩
      · rw [hlength, hrules, hfound]
      · intro k hlt hle
        omega

theorem IsBest.unique {n : Nat} {first second : Option LongestMatch}
    (h₁ : t.IsBest text n first) (h₂ : t.IsBest text n second) : first = second := by
  have hdistinct : ∀ {f : LongestMatch}, t.rulesAfter (text.take f.length) = f.rules →
      t.rulesAfter (text.take f.length) ≠ [] := by
    intro f hf hnil
    rw [hf] at hnil
    cases hnil
  cases first with
  | none =>
      cases second with
      | none =>
          rfl
      | some g =>
          exact absurd (h₁ g.length h₂.1) (hdistinct h₂.2.1)
  | some f =>
      cases second with
      | none =>
          exact absurd (h₂ f.length h₁.1) (hdistinct h₁.2.1)
      | some g =>
          obtain ⟨hf, hfrules, hflast⟩ := h₁
          obtain ⟨hg, hgrules, hglast⟩ := h₂
          have hlength : f.length = g.length := by
            rcases Nat.lt_trichotomy f.length g.length with hlt | heq | hgt
            · exact absurd (hflast g.length hlt hg) (hdistinct hgrules)
            · exact heq
            · exact absurd (hglast f.length hgt hf) (hdistinct hfrules)
          have hrules : f.rules = g.rules := by
            rw [← hfrules, hlength, hgrules]
          obtain ⟨fl, fw, fo⟩ := f
          obtain ⟨gl, gw, go⟩ := g
          simp only [LongestMatch.rules, List.cons.injEq] at hrules
          obtain ⟨rfl, rfl⟩ := hrules
          obtain rfl : fl = gl := hlength
          rfl

end Memory

/-- What an outcome says about the text it was found in. -/
def Describes (t : Tracker σ) (text : List Byte) : Outcome → Prop
  | .matched found => t.IsBest text text.length (some found)
  | .unmatched read =>
      t.IsBest text text.length none ∧ read ≤ text.length ∧
      (t.after t.start (text.take read)).isSome = true ∧
      (read < text.length → t.after t.start (text.take (read + 1)) = none)

/-- A walk that cannot go on describes the text by what it has read. -/
theorem describes_of_stop {t : Tracker σ} {text : List Byte} {read : Nat}
    {best : Option LongestMatch} {state : σ} (hread : read ≤ text.length)
    (hstate : t.after t.start (text.take read) = some state) (hbest : t.IsBest text read best)
    (hdead : read < text.length → t.after t.start (text.take (read + 1)) = none) :
    t.Describes text (best.elim (.unmatched read) .matched) := by
  have hfinal : t.IsBest text text.length best := by
    apply hbest.raise hread
    intro k hlt hle
    apply t.rulesAfter_of_eq_none
    exact t.after_take_eq_none_of_le hlt (hdead (by omega))
  cases best with
  | none =>
      exact ⟨hfinal, hread, by simp [hstate], hdead⟩
  | some found =>
      exact hfinal

-- The invariant of the walk is that `best` is the last match among the prefixes read.
theorem describes_follow (t : Tracker σ) (text : List Byte) (rest : List Byte) (read : Nat)
    (best : Option LongestMatch) (state : σ) (hread : read ≤ text.length)
    (hrest : text.drop read = rest) (hstate : t.after t.start (text.take read) = some state)
    (hbest : t.IsBest text read best) :
    t.Describes text (t.follow read best state rest) := by
  induction rest generalizing read best state with
  | nil =>
      apply describes_of_stop hread hstate hbest
      intro hlt
      have hle : text.length ≤ read := List.drop_eq_nil_iff.1 hrest
      omega
  | cons b rest ih =>
      have hlt : read < text.length := by
        have hlength := congrArg List.length hrest
        rw [List.length_drop, List.length_cons] at hlength
        omega
      have hstep := t.after_take_succ hstate hrest
      rw [follow]
      cases hnext : t.step state b with
      | none =>
          apply describes_of_stop hread hstate hbest
          intro _
          rw [hstep, hnext]
      | some next =>
          rw [hnext] at hstep
          have hrest' : text.drop (read + 1) = rest := by
            rw [← List.tail_drop, hrest]
            rfl
          exact ih (read + 1) _ next hlt hrest' hstep (hbest.succ hstep)

theorem describes_longest (t : Tracker σ) (text : List Byte) :
    t.Describes text (t.longest text) :=
  t.describes_follow text text 0 _ t.start (Nat.zero_le _) rfl rfl isBest_zero

/-- The match that an outcome reports, if it reports one. -/
def found? : Outcome → Option LongestMatch
  | .matched found => some found
  | .unmatched _ => none

theorem Describes.isBest {t : Tracker σ} {text : List Byte} {o : Outcome}
    (h : t.Describes text o) : t.IsBest text text.length (found? o) := by
  cases o with
  | matched found =>
      exact h
  | unmatched read =>
      exact h.1

theorem Describes.read_le {t : Tracker σ} {text : List Byte} {m n : Nat}
    (hm : t.Describes text (.unmatched m)) (hn : t.Describes text (.unmatched n)) : m ≤ n := by
  obtain ⟨-, hle, hsome, -⟩ := hm
  obtain ⟨-, -, -, hdead⟩ := hn
  by_contra hlt
  have hnone := t.after_take_eq_none_of_le (by omega : n + 1 ≤ m) (hdead (by omega))
  rw [hnone] at hsome
  cases hsome

theorem Describes.unique {t : Tracker σ} {text : List Byte} {o₁ o₂ : Outcome}
    (h₁ : t.Describes text o₁) (h₂ : t.Describes text o₂) : o₁ = o₂ := by
  have hfound := h₁.isBest.unique h₂.isBest
  cases o₁ with
  | matched f =>
      cases o₂ with
      | matched g =>
          cases hfound
          rfl
      | unmatched n =>
          cases hfound
  | unmatched m =>
      cases o₂ with
      | matched g =>
          cases hfound
      | unmatched n =>
          rw [Nat.le_antisymm (h₁.read_le h₂) (h₂.read_le h₁)]

theorem longest_eq_iff_describes {t : Tracker σ} {text : List Byte} {o : Outcome} :
    t.longest text = o ↔ t.Describes text o := by
  constructor
  · rintro rfl
    exact t.describes_longest text
  · exact (t.describes_longest text).unique

theorem longest_eq_matched_iff {t : Tracker σ} {text : List Byte} {found : LongestMatch} :
    t.longest text = .matched found ↔
      found.length ≤ text.length ∧
      t.rulesAfter (text.take found.length) = found.rules ∧
      ∀ n, found.length < n → n ≤ text.length → t.rulesAfter (text.take n) = [] :=
  longest_eq_iff_describes

theorem longest_eq_unmatched_iff {t : Tracker σ} {text : List Byte} {read : Nat} :
    t.longest text = .unmatched read ↔
      (∀ n, n ≤ text.length → t.rulesAfter (text.take n) = []) ∧ read ≤ text.length ∧
      (t.after t.start (text.take read)).isSome = true ∧
      (read < text.length → t.after t.start (text.take (read + 1)) = none) :=
  longest_eq_iff_describes

/-- An attempt that fails has read as far as the tracker survives. -/
theorem le_iff_of_longest_eq_unmatched {t : Tracker σ} {text : List Byte} {read n : Nat}
    (h : t.longest text = .unmatched read) (hn : n ≤ text.length) :
    n ≤ read ↔ (t.after t.start (text.take n)).isSome = true := by
  obtain ⟨-, hle, halive, hdead⟩ := longest_eq_unmatched_iff.1 h
  constructor
  · intro hread
    by_contra hnone
    rw [Bool.not_eq_true, Option.isSome_eq_false_iff, Option.isNone_iff_eq_none] at hnone
    rw [t.after_take_eq_none_of_le hread hnone] at halive
    cases halive
  · intro hsome
    by_contra hlt
    rw [t.after_take_eq_none_of_le (by omega) (hdead (by omega))] at hsome
    cases hsome

section Bisimulation

variable {t₁ : Tracker σ} {t₂ : Tracker τ} {R : σ → τ → Prop}

theorem matchOfLength_eq_of_accepts_eq {length : Nat} {p : σ} {q : τ}
    (h : t₁.accepts p = t₂.accepts q) :
    t₁.matchOfLength length p = t₂.matchOfLength length q := by
  simp only [matchOfLength, h]

/-- Related states give the same outcome when related states move to related states,
die together and accept the same rules. -/
theorem follow_eq_of_bisimulation
    (hstep : ∀ p q b, R p q → Option.Rel R (t₁.step p b) (t₂.step q b))
    (haccepts : ∀ p q, R p q → t₁.accepts p = t₂.accepts q)
    (rest : List Byte) (read : Nat) (best : Option LongestMatch) {p : σ} {q : τ}
    (hpq : R p q) : t₁.follow read best p rest = t₂.follow read best q rest := by
  induction rest generalizing read best p q with
  | nil =>
      rfl
  | cons b rest ih =>
      have hrel := hstep p q b hpq
      rw [follow, follow]
      cases hp : t₁.step p b with
      | none =>
          rw [hp] at hrel
          cases hq : t₂.step q b with
          | none =>
              rfl
          | some q' =>
              rw [hq] at hrel
              cases hrel
      | some p' =>
          rw [hp] at hrel
          cases hq : t₂.step q b with
          | none =>
              rw [hq] at hrel
              cases hrel
          | some q' =>
              rw [hq] at hrel
              cases hrel with
              | some hnext =>
                  simp only
                  rw [matchOfLength_eq_of_accepts_eq (haccepts p' q' hnext)]
                  exact ih (read + 1) _ hnext

theorem longest_eq_of_bisimulation (hstart : R t₁.start t₂.start)
    (hstep : ∀ p q b, R p q → Option.Rel R (t₁.step p b) (t₂.step q b))
    (haccepts : ∀ p q, R p q → t₁.accepts p = t₂.accepts q) (text : List Byte) :
    t₁.longest text = t₂.longest text := by
  rw [longest, longest, matchOfLength_eq_of_accepts_eq (haccepts _ _ hstart)]
  exact follow_eq_of_bisimulation hstep haccepts text 0 _ hstart

end Bisimulation

end Tracker
end Munch
