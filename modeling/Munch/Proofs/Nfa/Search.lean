import Mathlib.Data.List.Sort
import Munch.Proofs.Nfa.Closure

/-!
# Searches in any order

`Nfa.reach` takes the first pending state each time.  Here a search is given by its turns,
and a turn may take any pending state, and may or may not put successors on the list that
have been seen before.  Whatever the order, the search ends and has seen the same states.

A number that is no state has no turn, so a search that comes to one is stuck there.  None
does in an automaton in which only numbers of states stand in states (`Closed`).

**Invariant.**  `Searching`: the seeds are seen or pending, whatever is seen or pending is
reached from a seed, and the silent successors of what is seen are seen or pending.

**Results.**
* `turn_wellFounded`: every search ends, also on silent cycles.
* `turn_takeLast`: a search may take the last pending state each time.
* `Turn.pending_lt`, `exists_turn`: a search from states never comes to anything else, and
  stops only when nothing is pending.
* `Searching.turn`, `searching_of_turns`: what one turn and what all turns keep.
* `Searching.toList_eq_closure`: at the end of a search, the closure of the seeds has been seen.
-/

namespace Munch
namespace Nfa

section Transitions

variable {states : Array State} {p q : Nat}

/-- The numbers that stand in a state. -/
def State.successors : State → List Nat
  | bytes _ next => [next]
  | split targets => targets
  | accept _ => []

/-- A transition, whatever it reads, be it no byte at all. -/
def Leads (states : Array State) (p q : Nat) : Prop :=
  ∃ state, states[p]? = some state ∧ q ∈ state.successors

theorem Silent.leads (h : Silent states p q) : Leads states p q := by
  obtain ⟨targets, hp, hq⟩ := h
  exact ⟨_, hp, hq⟩

theorem Reads.leads {b : Byte} (h : Reads states p b q) : Leads states p q := by
  obtain ⟨set, hp, -⟩ := h
  exact ⟨_, hp, List.mem_singleton_self q⟩

/-- Every number that stands in a state is that of a state. -/
def Closed (states : Array State) : Prop := ∀ p q, Leads states p q → q < states.size

end Transitions

/-- What a search has seen, and what it has still to look at. -/
abbrev SearchState := Std.TreeSet Nat × List Nat

/-- One turn of a search, which takes some pending state.  If that has been seen, it is
dropped; otherwise it is marked as seen, and among its silent successors at least those that
have not been seen are pending as well. -/
inductive Turn (nfa : Nfa) : SearchState → SearchState → Prop
  | drop {seen : Std.TreeSet Nat} {before behind : List Nat} {id : Nat}
      (exist : id < nfa.states.size) (old : seen.contains id = true) :
      Turn nfa (seen, before ++ id :: behind) (seen, before ++ behind)
  | visit {seen : Std.TreeSet Nat} {before added behind : List Nat} {id : Nat}
      (exist : id < nfa.states.size) (new : seen.contains id = false)
      (sound : ∀ q ∈ added, q ∈ nfa.states[id].silent)
      (complete : ∀ q ∈ nfa.states[id].silent, q ∈ seen.insert id ∨ q ∈ added) :
      Turn nfa (seen, before ++ id :: behind) (seen.insert id, before ++ (added ++ behind))

variable (nfa : Nfa)

/-- Every turn leaves fewer states unseen, or as many and fewer pending. -/
theorem turn_wellFounded : WellFounded fun c d => Turn nfa d c := by
  have hless : WellFounded (Prod.Lex (· < ·) (· < ·) : Nat × Nat → Nat × Nat → Prop) :=
    WellFoundedRelation.wf
  refine Subrelation.wf ?_
    (InvImage.wf (fun c : SearchState => (nfa.unseen c.1, c.2.length)) hless)
  intro c d turn
  cases turn with
  | drop _ _ =>
      apply Prod.Lex.right
      simp
  | visit exist new _ _ =>
      exact Prod.Lex.left _ _ (unseen_insert_lt exist new)

section Progress

variable {nfa}

/-- Only states become pending. -/
theorem Turn.pending_lt (hclosed : Closed nfa.states) {c d : SearchState}
    (turn : Turn nfa c d) (hc : ∀ id ∈ c.2, id < nfa.states.size) :
    ∀ id ∈ d.2, id < nfa.states.size := by
  cases turn with
  | drop _ _ =>
      intro q hq
      apply hc
      rcases List.mem_append.1 hq with hq | hq
      · exact List.mem_append_left _ hq
      · exact List.mem_append_right _ (List.mem_cons_of_mem _ hq)
  | visit exist _ sound _ =>
      intro q hq
      rcases List.mem_append.1 hq with hq | hq
      · exact hc q (List.mem_append_left _ hq)
      · rcases List.mem_append.1 hq with hq | hq
        · exact hclosed _ q ((nfa.mem_silent_iff exist).1 (sound q hq)).leads
        · exact hc q (List.mem_append_right _ (List.mem_cons_of_mem _ hq))

theorem pending_lt_of_turns (hclosed : Closed nfa.states) {c d : SearchState}
    (turns : Relation.ReflTransGen (Turn nfa) c d)
    (hc : ∀ id ∈ c.2, id < nfa.states.size) : ∀ id ∈ d.2, id < nfa.states.size := by
  induction turns with
  | refl =>
      exact hc
  | tail _ turn ih =>
      exact turn.pending_lt hclosed ih

/-- A search in which only states are pending can go on with any of them. -/
theorem exists_turn {seen : Std.TreeSet Nat} {before behind : List Nat} {id : Nat}
    (hid : id < nfa.states.size) : ∃ d, Turn nfa (seen, before ++ id :: behind) d := by
  cases hseen : seen.contains id with
  | true =>
      exact ⟨_, .drop hid hseen⟩
  | false =>
      exact ⟨_, .visit hid hseen (fun _ hq => hq) fun _ hq => Or.inr hq⟩

end Progress

/-- What becomes of a search that takes the last pending state, and puts behind the others
those of its silent successors that have not been seen. -/
def takeLast (nfa : Nfa) (seen : Std.TreeSet Nat) (before : List Nat) (id : Nat) : SearchState :=
  if seen.contains id then (seen, before)
  else
    let seen := seen.insert id
    (seen, before ++ ((nfa.states[id]?.elim [] State.silent).filter fun q => !seen.contains q))

theorem seen_or_mem_filter (seen : Std.TreeSet Nat) (targets : List Nat) :
    ∀ q ∈ targets, q ∈ seen ∨ q ∈ targets.filter fun q => !seen.contains q := by
  intro q hq
  cases hseen : seen.contains q with
  | true =>
      exact Or.inl (Std.TreeSet.mem_iff_contains.2 hseen)
  | false =>
      exact Or.inr (List.mem_filter.2 ⟨hq, by rw [hseen]; rfl⟩)

theorem turn_takeLast {seen : Std.TreeSet Nat} {before : List Nat} {id : Nat}
    (hid : id < nfa.states.size) :
    Turn nfa (seen, before ++ [id]) (nfa.takeLast seen before id) := by
  rw [takeLast, Array.getElem?_eq_getElem hid, Option.elim_some]
  cases hseen : seen.contains id with
  | true =>
      have turn : Turn nfa (seen, before ++ [id]) (seen, before ++ []) := .drop hid hseen
      rwa [List.append_nil] at turn
  | false =>
      let added := nfa.states[id].silent.filter fun q => !(seen.insert id).contains q
      have turn : Turn nfa (seen, before ++ [id]) (seen.insert id, before ++ (added ++ [])) :=
        .visit hid hseen (fun q hq => (List.mem_filter.1 hq).1) (seen_or_mem_filter _ _)
      rwa [List.append_nil] at turn

/-! ### What a search has seen -/

/-- What holds of a search from the seeds at any time. -/
structure Searching (seeds : List Nat) (c : SearchState) : Prop where
  kept : ∀ s ∈ seeds, s ∈ c.1 ∨ s ∈ c.2
  exist : ∀ q ∈ c.1, q < nfa.states.size
  reached : ∀ q, q ∈ c.1 ∨ q ∈ c.2 → ∃ s ∈ seeds, Reaches nfa.states s [] q
  covered : nfa.Covered c.1 c.2

variable {nfa} {seeds : List Nat}

theorem searching_start : nfa.Searching seeds (∅, seeds) where
  kept _ hs := Or.inr hs
  exist _ hq := absurd hq Std.TreeSet.not_mem_emptyc
  reached q hq := by
    rcases hq with hq | hq
    · exact absurd hq Std.TreeSet.not_mem_emptyc
    · exact ⟨q, hq, .refl q⟩
  covered _ hp := absurd hp Std.TreeSet.not_mem_emptyc

theorem mem_insert_iff {seen : Std.TreeSet Nat} {id q : Nat} :
    q ∈ seen.insert id ↔ q = id ∨ q ∈ seen := by
  rw [Std.TreeSet.mem_insert, Nat.compare_eq_eq, eq_comm]

theorem mem_visit_iff {before added behind : List Nat} {q : Nat} :
    q ∈ before ++ (added ++ behind) ↔ q ∈ added ∨ q ∈ before ++ behind := by
  simp only [List.mem_append, or_left_comm]

/-- A pending state that has been seen may be dropped. -/
theorem Searching.drop {seen : Std.TreeSet Nat} {before behind : List Nat} {id : Nat}
    (h : nfa.Searching seeds (seen, before ++ id :: behind)) (old : id ∈ seen) :
    nfa.Searching seeds (seen, before ++ behind) := by
  have hleft : ∀ q, q ∈ seen ∨ q ∈ before ++ id :: behind ↔ q ∈ seen ∨ q ∈ before ++ behind := by
    intro q
    rw [List.perm_middle.mem_iff, List.mem_cons]
    constructor
    · rintro (hq | rfl | hq)
      · exact Or.inl hq
      · exact Or.inl old
      · exact Or.inr hq
    · rintro (hq | hq)
      · exact Or.inl hq
      · exact Or.inr (Or.inr hq)
  exact {
    kept := fun s hs => (hleft s).1 (h.kept s hs)
    exist := h.exist
    reached := fun q hq => h.reached q ((hleft q).2 hq)
    covered := fun p hp q move hq => (hleft q).1 (h.covered p hp q move hq) }

/-- A pending state may be marked as seen when its successors become pending. -/
theorem Searching.visit {seen : Std.TreeSet Nat} {before added behind : List Nat} {id : Nat}
    (h : nfa.Searching seeds (seen, before ++ id :: behind)) (exist : id < nfa.states.size)
    (sound : ∀ q ∈ added, q ∈ nfa.states[id].silent)
    (complete : ∀ q ∈ nfa.states[id].silent, q ∈ seen.insert id ∨ q ∈ added) :
    nfa.Searching seeds (seen.insert id, before ++ (added ++ behind)) := by
  have hkept : ∀ q, q ∈ seen ∨ q ∈ before ++ id :: behind →
      q ∈ seen.insert id ∨ q ∈ before ++ (added ++ behind) := by
    intro q
    rw [List.perm_middle.mem_iff, List.mem_cons, mem_insert_iff, mem_visit_iff]
    rintro (hq | rfl | hq)
    · exact Or.inl (Or.inr hq)
    · exact Or.inl (Or.inl rfl)
    · exact Or.inr (Or.inr hq)
  have hid : id ∈ before ++ id :: behind := List.mem_append_right _ List.mem_cons_self
  refine ⟨fun s hs => hkept s (h.kept s hs), ?_, ?_, ?_⟩
  · intro q hq
    rcases mem_insert_iff.1 hq with rfl | hq
    · exact exist
    · exact h.exist q hq
  · intro q hq
    rcases hq with hq | hq
    · rcases mem_insert_iff.1 hq with rfl | hq
      · exact h.reached q (Or.inr hid)
      · exact h.reached q (Or.inl hq)
    · rcases mem_visit_iff.1 hq with hq | hq
      · obtain ⟨s, hs, hreach⟩ := h.reached id (Or.inr hid)
        have move := (nfa.mem_silent_iff exist).1 (sound q hq)
        exact ⟨s, hs, hreach.trans (.silent move (.refl q))⟩
      · exact h.reached q (Or.inr (List.perm_middle.mem_iff.2 (List.mem_cons_of_mem id hq)))
  · intro p hp q move hq
    rcases mem_insert_iff.1 hp with rfl | hp
    · rcases complete q ((nfa.mem_silent_iff exist).2 move) with hq | hq
      · exact Or.inl hq
      · exact Or.inr (mem_visit_iff.2 (Or.inl hq))
    · exact hkept q (h.covered p hp q move hq)

theorem Searching.turn {c d : SearchState} (h : nfa.Searching seeds c) (turn : Turn nfa c d) :
    nfa.Searching seeds d := by
  cases turn with
  | drop _ old =>
      exact h.drop (Std.TreeSet.mem_iff_contains.2 old)
  | visit exist _ sound complete =>
      exact h.visit exist sound complete

theorem searching_of_turns {c : SearchState}
    (turns : Relation.ReflTransGen (Turn nfa) (∅, seeds) c) : nfa.Searching seeds c := by
  induction turns with
  | refl =>
      exact searching_start
  | tail _ turn ih =>
      exact ih.turn turn

/-- A search that has nothing pending any more has seen the closure of its seeds. -/
theorem Searching.toList_eq_closure {seen : Std.TreeSet Nat} (h : nfa.Searching seeds (seen, [])) :
    seen.toList = nfa.closure seeds := by
  apply (toList_pairwise_lt seen).eq_of_mem_iff (nfa.closure_pairwise seeds)
  intro q
  rw [Std.TreeSet.mem_toList, mem_closure_iff]
  constructor
  · intro hq
    exact ⟨h.exist q hq, h.reached q (Or.inl hq)⟩
  · rintro ⟨hlt, s, hs, hreach⟩
    have hseed : s ∈ seen := (h.kept s hs).resolve_right List.not_mem_nil
    exact h.covered.of_reaches nfa hseed hreach hlt

end Nfa
end Munch
