import Munch.Proofs.Nfa.Search

/-!
# Running an automaton looks up states only

Where a number is no state, `Nfa.reach`, `Nfa.targets` and `Nfa.accepts` pass over it.  Here
the same is done on lookups that fail instead, and fails with the first of them.

**Results.**
* `Closed.looksUp`: in a closed automaton, running it from states looks up only states, and
  comes to the same answers.
-/

namespace Munch
namespace Nfa

variable (nfa : Nfa)

/-- `Nfa.reach` on lookups that fail: there is no answer if a number is no state. -/
def reach? : Std.TreeSet Nat → List Nat → Option (Std.TreeSet Nat)
  | seen, [] => some seen
  | seen, id :: rest =>
    if hid : id < nfa.states.size then
      if hnew : seen.contains id = false then
        reach? (seen.insert id) (nfa.states[id].silent ++ rest)
      else reach? seen rest
    else none
termination_by seen pending => (nfa.unseen seen, pending.length)
decreasing_by
  · exact Prod.Lex.left _ _ (unseen_insert_lt hid hnew)
  · exact Prod.Lex.right _ (Nat.lt_succ_self _)

/-- The states with the given numbers, if all of them are states. -/
def lookup? (ids : List Nat) : Option (List State) := ids.mapM fun id => nfa.states[id]?

def closure? (seeds : List Nat) : Option (List Nat) := (nfa.reach? ∅ seeds).map (·.toList)

def step? (ids : List Nat) (b : Byte) : Option (List Nat) :=
  (nfa.lookup? ids).bind fun found => nfa.closure? (found.filterMap (State.after? b))

def accepts? (ids : List Nat) : Option (List Nat) :=
  (nfa.lookup? ids).map fun found => (Std.TreeSet.ofList (found.filterMap State.rule?)).toList

variable {nfa}

/-- Searching from states, no lookup fails. -/
theorem reach?_eq (hclosed : Closed nfa.states) (seen : Std.TreeSet Nat) (pending : List Nat)
    (hpending : ∀ id ∈ pending, id < nfa.states.size) :
    nfa.reach? seen pending = some (nfa.reach seen pending) := by
  induction seen, pending using Nfa.reach.induct nfa with
  | case1 seen =>
      rw [reach?, reach]
  | case2 seen id rest h ih =>
      rw [reach?, reach, dif_pos h, dif_pos h.1, dif_pos h.2]
      apply ih
      intro q hq
      rcases List.mem_append.1 hq with hq | hq
      · exact hclosed id q ((nfa.mem_silent_iff h.1).1 hq).leads
      · exact hpending q (List.mem_cons_of_mem id hq)
  | case3 seen id rest h ih =>
      have hid : id < nfa.states.size := hpending id List.mem_cons_self
      have hold : ¬seen.contains id = false := fun hnew => h ⟨hid, hnew⟩
      rw [reach?, reach, dif_neg h, dif_pos hid, dif_neg hold]
      exact ih fun q hq => hpending q (List.mem_cons_of_mem id hq)

theorem lookup?_eq {ids : List Nat} (hids : ∀ id ∈ ids, id < nfa.states.size) :
    ∃ found, nfa.lookup? ids = some found ∧
      ∀ (β : Type) (f : State → Option β),
        found.filterMap f = ids.filterMap fun id => nfa.states[id]?.bind f := by
  induction ids with
  | nil =>
      exact ⟨[], rfl, fun _ _ => rfl⟩
  | cons id ids ih =>
      obtain ⟨hid, hrest⟩ := List.forall_mem_cons.1 hids
      obtain ⟨found, hfound, hfilter⟩ := ih hrest
      rw [lookup?] at hfound
      refine ⟨nfa.states[id] :: found, ?_, ?_⟩
      · simp [lookup?, hfound, Array.getElem?_eq_getElem hid]
      · intro β f
        simp [List.filterMap_cons, hfilter β f, Array.getElem?_eq_getElem hid]

theorem closure?_eq (hclosed : Closed nfa.states) {seeds : List Nat}
    (hseeds : ∀ s ∈ seeds, s < nfa.states.size) :
    nfa.closure? seeds = some (nfa.closure seeds) := by
  rw [closure?, reach?_eq hclosed ∅ seeds hseeds]
  rfl

theorem Closed.targets_lt (h : Closed nfa.states) (ids : List Nat) (b : Byte) :
    ∀ q ∈ nfa.targets ids b, q < nfa.states.size := by
  intro q hq
  obtain ⟨p, -, hread⟩ := nfa.mem_targets_iff.1 hq
  exact h p q hread.leads

theorem step?_eq (hclosed : Closed nfa.states) {ids : List Nat}
    (hids : ∀ id ∈ ids, id < nfa.states.size) (b : Byte) :
    nfa.step? ids b = some (nfa.step ids b) := by
  obtain ⟨found, hfound, hfilter⟩ := lookup?_eq hids
  rw [step?, hfound, Option.bind_some, hfilter]
  exact closure?_eq hclosed (hclosed.targets_lt ids b)

theorem accepts?_eq {ids : List Nat} (hids : ∀ id ∈ ids, id < nfa.states.size) :
    nfa.accepts? ids = some (nfa.accepts ids) := by
  obtain ⟨found, hfound, hfilter⟩ := lookup?_eq hids
  rw [accepts?, hfound, Option.map_some, hfilter]
  rfl

/-- No lookup fails when the automaton is run from these states, which leads to states again,
and no search from them, in whatever order, comes to a number that is no state. -/
structure LooksUp (nfa : Nfa) (ids : List Nat) : Prop where
  closure : nfa.closure? ids = some (nfa.closure ids)
  step : ∀ b, nfa.step? ids b = some (nfa.step ids b)
  accepts : nfa.accepts? ids = some (nfa.accepts ids)
  closure_lt : ∀ q ∈ nfa.closure ids, q < nfa.states.size
  step_lt : ∀ b, ∀ q ∈ nfa.step ids b, q < nfa.states.size
  search_lt : ∀ c, Relation.ReflTransGen (Turn nfa) (∅, ids) c → ∀ q ∈ c.2, q < nfa.states.size

theorem Closed.looksUp {nfa : Nfa} (h : Closed nfa.states) {ids : List Nat}
    (hids : ∀ id ∈ ids, id < nfa.states.size) : nfa.LooksUp ids where
  closure := closure?_eq h hids
  step := step?_eq h hids
  accepts := accepts?_eq hids
  closure_lt _ hq := (nfa.mem_closure_iff.1 hq).1
  step_lt _ _ hq := (nfa.mem_step_iff.1 hq).1
  search_lt _ turns := pending_lt_of_turns h turns hids

end Nfa
end Munch
