import Mathlib.Data.List.Induction
import Munch.Proofs.Nfa.Run

/-!
# Sets of states, exactly

The depth-first search of `Nfa.reach` finds what silent moves reach, in whatever
order it meets it, so closures, steps and whole walks are described by runs.

**Invariant.**  Every silent successor of a state already seen has been seen, is
still pending, or is no state.

**Results.**
* `mem_closure_iff`, `mem_step_iff`: the members of closures and steps.
* `mem_walk_iff`: a state belongs to the set reached by a word exactly when a run
  from the start reads that word and ends there.
* `mem_accepts_iff`: the rules accepted by a set of states.
* `closure_pairwise`, `accepts_pairwise`: these listings increase strictly.
-/

namespace Munch
namespace Nfa

variable (nfa : Nfa)

theorem toList_pairwise_lt (s : Std.TreeSet Nat) : s.toList.Pairwise (· < ·) :=
  s.ordered_toList.imp fun h => Nat.compare_eq_lt.1 h

theorem mem_silent_iff {p q : Nat} (hp : p < nfa.states.size) :
    q ∈ nfa.states[p].silent ↔ Silent nfa.states p q := by
  constructor
  · intro hq
    cases hstate : nfa.states[p] with
    | split targets =>
        rw [hstate] at hq
        exact ⟨targets, Array.getElem?_eq_some_iff.2 ⟨hp, hstate⟩, hq⟩
    | bytes set next =>
        rw [hstate] at hq
        cases hq
    | accept rule =>
        rw [hstate] at hq
        cases hq
  · rintro ⟨targets, hsplit, hq⟩
    obtain ⟨_, hstate⟩ := Array.getElem?_eq_some_iff.1 hsplit
    rw [hstate]
    exact hq

/-- What the search adds is reached silently from what was pending. -/
theorem reach_sound (seen : Std.TreeSet Nat) (pending : List Nat) {q : Nat}
    (hq : q ∈ nfa.reach seen pending) :
    q ∈ seen ∨ q < nfa.states.size ∧ ∃ s ∈ pending, Reaches nfa.states s [] q := by
  induction seen, pending using Nfa.reach.induct nfa with
  | case1 seen =>
      rw [reach] at hq
      exact Or.inl hq
  | case2 seen id rest h ih =>
      rw [reach, dif_pos h] at hq
      rcases ih hq with hseen | ⟨hlt, s, hs, hreach⟩
      · rcases Std.TreeSet.mem_insert.1 hseen with heq | hseen
        · obtain rfl := Nat.compare_eq_eq.1 heq
          exact Or.inr ⟨h.1, id, List.mem_cons_self, .refl id⟩
        · exact Or.inl hseen
      · rcases List.mem_append.1 hs with hs | hs
        · have move := (nfa.mem_silent_iff h.1).1 hs
          exact Or.inr ⟨hlt, id, List.mem_cons_self, .silent move hreach⟩
        · exact Or.inr ⟨hlt, s, List.mem_cons_of_mem _ hs, hreach⟩
  | case3 seen id rest h ih =>
      rw [reach, dif_neg h] at hq
      rcases ih hq with hseen | ⟨hlt, s, hs, hreach⟩
      · exact Or.inl hseen
      · exact Or.inr ⟨hlt, s, List.mem_cons_of_mem _ hs, hreach⟩

/-- A state that is skipped although it exists has been seen. -/
theorem mem_of_skipped {seen : Std.TreeSet Nat} {q : Nat}
    (h : ¬(q < nfa.states.size ∧ seen.contains q = false)) (hq : q < nfa.states.size) :
    q ∈ seen := by
  have hseen : seen.contains q = true := by simpa [hq] using h
  exact Std.TreeSet.mem_iff_contains.2 hseen

theorem reach_keeps (seen : Std.TreeSet Nat) (pending : List Nat) {q : Nat}
    (hq : q ∈ seen ∨ q < nfa.states.size ∧ q ∈ pending) : q ∈ nfa.reach seen pending := by
  induction seen, pending using Nfa.reach.induct nfa with
  | case1 seen =>
      rw [reach]
      rcases hq with hseen | ⟨-, hnil⟩
      · exact hseen
      · cases hnil
  | case2 seen id rest h ih =>
      rw [reach, dif_pos h]
      apply ih
      rcases hq with hseen | ⟨hlt, hmem⟩
      · exact Or.inl (Std.TreeSet.mem_insert.2 (Or.inr hseen))
      · rcases List.mem_cons.1 hmem with rfl | hmem
        · exact Or.inl Std.TreeSet.mem_insert_self
        · exact Or.inr ⟨hlt, List.mem_append_right _ hmem⟩
  | case3 seen id rest h ih =>
      rw [reach, dif_neg h]
      apply ih
      rcases hq with hseen | ⟨hlt, hmem⟩
      · exact Or.inl hseen
      · rcases List.mem_cons.1 hmem with rfl | hmem
        · exact Or.inl (nfa.mem_of_skipped h hlt)
        · exact Or.inr ⟨hlt, hmem⟩

/-- The silent successors of `seen` are seen or pending, unless they are no states. -/
def Covered (seen : Std.TreeSet Nat) (pending : List Nat) : Prop :=
  ∀ p ∈ seen, ∀ q, Silent nfa.states p q → q < nfa.states.size → q ∈ seen ∨ q ∈ pending

theorem reach_closed (seen : Std.TreeSet Nat) (pending : List Nat)
    (hcov : nfa.Covered seen pending) : nfa.Covered (nfa.reach seen pending) [] := by
  induction seen, pending using Nfa.reach.induct nfa with
  | case1 seen =>
      rw [reach]
      exact hcov
  | case2 seen id rest h ih =>
      rw [reach, dif_pos h]
      apply ih
      intro p hp q move hlt
      rcases Std.TreeSet.mem_insert.1 hp with heq | hp
      · obtain rfl := Nat.compare_eq_eq.1 heq
        exact Or.inr (List.mem_append_left _ ((nfa.mem_silent_iff h.1).2 move))
      · rcases hcov p hp q move hlt with hseen | hmem
        · exact Or.inl (Std.TreeSet.mem_insert.2 (Or.inr hseen))
        · rcases List.mem_cons.1 hmem with rfl | hmem
          · exact Or.inl Std.TreeSet.mem_insert_self
          · exact Or.inr (List.mem_append_right _ hmem)
  | case3 seen id rest h ih =>
      rw [reach, dif_neg h]
      apply ih
      intro p hp q move hlt
      rcases hcov p hp q move hlt with hseen | hmem
      · exact Or.inl hseen
      · rcases List.mem_cons.1 hmem with rfl | hmem
        · exact Or.inl (nfa.mem_of_skipped h hlt)
        · exact Or.inr hmem

theorem Covered.of_reaches {seen : Std.TreeSet Nat} (hcov : nfa.Covered seen []) {p q : Nat}
    (hp : p ∈ seen) (h : Reaches nfa.states p [] q) (hq : q < nfa.states.size) : q ∈ seen := by
  rw [reaches_nil_iff] at h
  induction h using Relation.ReflTransGen.head_induction_on with
  | refl =>
      exact hp
  | head move hrest ih =>
      apply ih
      have hnext := (reaches_nil_iff.2 hrest).choose_spec.lt_size hq
      rcases hcov _ hp _ move hnext with hseen | hnil
      · exact hseen
      · cases hnil

/-- The closure of some seeds holds exactly the states that silent moves reach. -/
theorem mem_closure_iff {seeds : List Nat} {q : Nat} :
    q ∈ nfa.closure seeds ↔
      q < nfa.states.size ∧ ∃ s ∈ seeds, Reaches nfa.states s [] q := by
  rw [closure, Std.TreeSet.mem_toList]
  constructor
  · intro hq
    rcases nfa.reach_sound ∅ seeds hq with hempty | h
    · exact absurd hempty Std.TreeSet.not_mem_emptyc
    · exact h
  · rintro ⟨hlt, s, hs, hreach⟩
    have hcov : nfa.Covered ∅ seeds := fun p hp => absurd hp Std.TreeSet.not_mem_emptyc
    have hseed : s ∈ nfa.reach ∅ seeds :=
      nfa.reach_keeps ∅ seeds (Or.inr ⟨hreach.choose_spec.lt_size hlt, hs⟩)
    exact (nfa.reach_closed ∅ seeds hcov).of_reaches nfa hseed hreach hlt

theorem closure_pairwise (seeds : List Nat) : (nfa.closure seeds).Pairwise (· < ·) :=
  toList_pairwise_lt _

theorem mem_targets_iff {set : List Nat} {b : Byte} {q : Nat} :
    q ∈ nfa.targets set b ↔ ∃ p ∈ set, Reads nfa.states p b q := by
  rw [targets, List.mem_filterMap]
  constructor
  · rintro ⟨p, hp, hq⟩
    obtain ⟨state, hstate, hafter⟩ := Option.bind_eq_some_iff.1 hq
    cases state with
    | bytes s next =>
        rw [State.after?] at hafter
        by_cases hb : s.contains b = true
        · rw [if_pos hb] at hafter
          cases hafter
          exact ⟨p, hp, s, hstate, hb⟩
        · rw [if_neg hb] at hafter
          cases hafter
    | split targets =>
        cases hafter
    | accept rule =>
        cases hafter
  · rintro ⟨p, hp, s, hstate, hb⟩
    refine ⟨p, hp, ?_⟩
    rw [hstate]
    simp [State.after?, hb]

theorem mem_step_iff {set : List Nat} {b : Byte} {q : Nat} :
    q ∈ nfa.step set b ↔
      q < nfa.states.size ∧
      ∃ p ∈ set, ∃ r, Reads nfa.states p b r ∧ Reaches nfa.states r [] q := by
  rw [step, mem_closure_iff]
  constructor
  · rintro ⟨hlt, r, hr, hreach⟩
    obtain ⟨p, hp, hread⟩ := nfa.mem_targets_iff.1 hr
    exact ⟨hlt, p, hp, r, hread, hreach⟩
  · rintro ⟨hlt, p, hp, r, hread, hreach⟩
    exact ⟨hlt, r, nfa.mem_targets_iff.2 ⟨p, hp, hread⟩, hreach⟩

theorem step_nil (b : Byte) : nfa.step [] b = [] := by
  apply List.eq_nil_iff_forall_not_mem.2
  intro q hq
  obtain ⟨-, p, hp, -⟩ := nfa.mem_step_iff.1 hq
  cases hp

theorem mem_accepts_iff {set : List Nat} {rule : Nat} :
    rule ∈ nfa.accepts set ↔ ∃ p ∈ set, Accepting nfa.states p rule := by
  rw [accepts, Std.TreeSet.mem_toList, Std.TreeSet.mem_ofList, List.contains_iff_mem,
    List.mem_filterMap]
  constructor
  · rintro ⟨p, hp, hrule⟩
    obtain ⟨state, hstate, haccept⟩ := Option.bind_eq_some_iff.1 hrule
    cases state with
    | accept i =>
        cases haccept
        exact ⟨p, hp, hstate⟩
    | bytes s next =>
        cases haccept
    | split targets =>
        cases haccept
  · rintro ⟨p, hp, haccept⟩
    refine ⟨p, hp, ?_⟩
    rw [Accepting] at haccept
    rw [haccept]
    rfl

theorem accepts_pairwise (set : List Nat) : (nfa.accepts set).Pairwise (· < ·) :=
  toList_pairwise_lt _

theorem accepts_nil : nfa.accepts [] = [] := by
  apply List.eq_nil_iff_forall_not_mem.2
  intro rule hrule
  obtain ⟨p, hp, -⟩ := nfa.mem_accepts_iff.1 hrule
  cases hp

/-! ### Walks -/

/-- The closed set of states after a word. -/
def walk (w : List Byte) : List Nat := w.foldl nfa.step nfa.initial

theorem walk_concat (w : List Byte) (b : Byte) :
    nfa.walk (w ++ [b]) = nfa.step (nfa.walk w) b := by
  simp [walk]

theorem mem_walk_iff {w : List Byte} {q : Nat} :
    q ∈ nfa.walk w ↔ q < nfa.states.size ∧ Reaches nfa.states nfa.start w q := by
  induction w using List.reverseRecOn generalizing q with
  | nil =>
      show q ∈ nfa.closure [nfa.start] ↔ _
      simp [mem_closure_iff]
  | append_singleton w b ih =>
      rw [walk_concat, mem_step_iff, reaches_concat_iff]
      constructor
      · rintro ⟨hlt, p, hp, r, hread, hreach⟩
        exact ⟨hlt, p, r, (ih.1 hp).2, hread, hreach⟩
      · rintro ⟨hlt, p, r, hp, hread, hreach⟩
        exact ⟨hlt, p, ih.2 ⟨hread.lt_size, hp⟩, r, hread, hreach⟩

end Nfa
end Munch
