import Mathlib.Data.List.Sort
import Mathlib.Order.Interval.Set.Nat
import Munch.Proofs.Dfa.Agreement

/-!
# The table has the reachable sets and no others

Words lead from the closure of the start state to finitely many sets of states.
Numbers are given to sets that some word leads to and to no others, so a finished
table has one state for each of them, and a construction that stops has met one more
than its limit has room for.

**Invariant.**  `Census.Honest`: the sets with a number, apart from the empty one,
are reachable.

**Results.**
* `intern_kept`, `successors_kept`, `explore_kept`: each part of the construction keeps
  the invariant, or stops for want of room.
* `Census.Honest.bijOn_listed`: the numbers from 1 on are in bijection with the sets
  that are not empty.
* `ofNfa_exact`: when the construction succeeds, and what it has built then.
-/

namespace Munch
namespace Nfa

variable (nfa : Nfa)

/-- The sets of states that words lead to, other than the empty set. -/
def reachableSets : Set (List Nat) := {set | set ≠ [] ∧ ∃ w, nfa.walk w = set}

theorem walk_pairwise (w : List Byte) : (nfa.walk w).Pairwise (· < ·) := by
  cases w using List.reverseRecOn with
  | nil =>
      exact nfa.closure_pairwise [nfa.start]
  | append_singleton w b =>
      rw [walk_concat]
      exact nfa.closure_pairwise _

/-- A set of states is an increasing list below the number of states. -/
theorem walk_sublist_range (w : List Byte) : (nfa.walk w).Sublist (List.range nfa.states.size) := by
  apply List.sublist_of_subperm_of_pairwise _ (nfa.walk_pairwise w) List.pairwise_lt_range
  apply List.subperm_of_subset (nfa.walk_pairwise w).nodup
  intro q hq
  exact List.mem_range.2 (nfa.mem_walk_iff.1 hq).1

theorem finite_reachableSets : nfa.reachableSets.Finite := by
  apply (List.finite_toSet (List.range nfa.states.size).sublists).subset
  rintro set ⟨-, w, rfl⟩
  exact List.mem_sublists.2 (nfa.walk_sublist_range w)

variable {nfa}

/-- Sets are lists in increasing order, so distinct lists are distinct sets. -/
theorem pairwise_of_mem_reachableSets {set : List Nat} (h : set ∈ nfa.reachableSets) :
    set.Pairwise (· < ·) := by
  obtain ⟨-, w, rfl⟩ := h
  exact nfa.walk_pairwise w

theorem initial_mem_reachableSets (hne : nfa.initial ≠ []) : nfa.initial ∈ nfa.reachableSets :=
  ⟨hne, [], rfl⟩

theorem step_mem_reachableSets {set : List Nat} {b : Byte}
    (hset : set ≠ [] → set ∈ nfa.reachableSets) (hne : nfa.step set b ≠ []) :
    nfa.step set b ∈ nfa.reachableSets := by
  have hset_ne : set ≠ [] := by
    rintro rfl
    exact hne (nfa.step_nil b)
  obtain ⟨-, w, rfl⟩ := hset hset_ne
  exact ⟨hne, w ++ [b], nfa.walk_concat w b⟩

end Nfa

namespace Dfa
namespace Census

variable {limit : Nat} {nfa : Nfa}

/-- Sets have one number each, the dead and the start state have theirs, and only
reachable sets have the others. -/
structure Honest (nfa : Nfa) (census : Census limit) : Prop where
  inverse : census.Inverse
  dead_eq : census.sets[dead]? = some []
  start_eq : census.sets[start]? = some nfa.initial
  reachable : ∀ {n : Nat} {set : List Nat}, census.sets[n]? = some set → set ≠ [] →
    set ∈ nfa.reachableSets

/-- The error of a census without room for a further reachable set. -/
def Overflow (nfa : Nfa) (limit : Nat) (kind : ErrorKind) : Prop :=
  ∃ (census : Census limit) (set : List Nat), Honest nfa census ∧ set ∈ nfa.reachableSets ∧
    (∀ n : Nat, census.sets[n]? ≠ some set) ∧ limit ≤ census.sets.size ∧
    kind = .automatonTooLarge (census.sets.size + 1) limit

theorem Honest.start_lt_size {census : Census limit} (h : Honest nfa census) :
    start < census.sets.size :=
  (Array.getElem?_eq_some_iff.1 h.start_eq).1

theorem honest_first (hne : nfa.initial ≠ []) : Honest nfa (first limit nfa.initial) where
  inverse := inverse_first hne
  dead_eq := rfl
  start_eq := rfl
  reachable := by
    intro n set hn hset
    match n with
    | 0 =>
        cases hn
        exact absurd rfl hset
    | 1 =>
        cases hn
        exact Nfa.initial_mem_reachableSets hne
    | n + 2 =>
        cases hn

/-! ### What the construction keeps -/

/-- Only the set that is given a number can be new. -/
theorem of_getElem?_intern {census grown : Census limit} {set : List Nat} {n : Nat}
    (h : census.intern set = .ok (n, grown)) {m : Nat} {s : List Nat}
    (hm : grown.sets[m]? = some s) : census.sets[m]? = some s ∨ s = set := by
  unfold intern at h
  split at h
  · cases h
    exact .inl hm
  · split at h
    · cases h
      rw [Array.getElem?_push] at hm
      split at hm
      · exact .inr (Option.some.inj hm).symm
      · exact .inl hm
    · cases h

theorem intern_honest {census grown : Census limit} {set : List Nat} {n : Nat}
    (hc : Honest nfa census) (hset : set ≠ [] → set ∈ nfa.reachableSets)
    (h : census.intern set = .ok (n, grown)) : Honest nfa grown := by
  obtain ⟨hinv, hgrows, -⟩ := intern_spec hc.inverse h
  refine ⟨hinv, hgrows _ _ hc.dead_eq, hgrows _ _ hc.start_eq, ?_⟩
  intro m s hm hs
  rcases of_getElem?_intern h hm with hm | rfl
  · exact hc.reachable hm hs
  · exact hset hs

theorem intern_overflow {census : Census limit} {set : List Nat} {kind : ErrorKind}
    (hc : Honest nfa census) (hset : set ≠ [] → set ∈ nfa.reachableSets)
    (h : census.intern set = .error kind) : Overflow nfa limit kind := by
  unfold intern at h
  split at h
  · cases h
  · rename_i hnew
    split at h
    · cases h
    · rename_i hfull
      cases h
      have habsent : ∀ n : Nat, census.sets[n]? ≠ some set := by
        intro n hn
        rw [(hc.inverse set n).2 hn] at hnew
        cases hnew
      have hne : set ≠ [] := by
        rintro rfl
        exact habsent dead hc.dead_eq
      exact ⟨census, set, hc, hset hne, habsent, Nat.le_of_not_lt hfull, rfl⟩

/-- What a part of the construction may come to: an honest census, or the error of one
without room. -/
def Kept {α : Type} (nfa : Nfa) : Except ErrorKind (α × Census limit) → Prop
  | .ok (_, census) => Honest nfa census
  | .error kind => Overflow nfa limit kind

theorem Kept.honest {α : Type} {result : Except ErrorKind (α × Census limit)} {a : α}
    {census : Census limit} (h : Kept nfa result) (heq : result = .ok (a, census)) :
    Honest nfa census := by
  rw [heq] at h
  exact h

theorem Kept.overflow {α : Type} {result : Except ErrorKind (α × Census limit)}
    {kind : ErrorKind} (h : Kept nfa result) (heq : result = .error kind) :
    Overflow nfa limit kind := by
  rw [heq] at h
  exact h

theorem intern_kept {census : Census limit} {set : List Nat} (hc : Honest nfa census)
    (hset : set ≠ [] → set ∈ nfa.reachableSets) : Kept nfa (census.intern set) := by
  cases h : census.intern set with
  | ok interned =>
      exact intern_honest hc hset h
  | error kind =>
      exact intern_overflow hc hset h

theorem successors_kept {set : List Nat} (hset : set ≠ [] → set ∈ nfa.reachableSets)
    (bytes : List Byte) {census : Census limit} (hc : Honest nfa census) :
    Kept nfa (successors nfa set bytes census) := by
  induction bytes generalizing census with
  | nil =>
      exact hc
  | cons b bytes ih =>
      have hinterned := intern_kept hc (Nfa.step_mem_reachableSets (b := b) hset)
      rw [successors]
      split
      · rename_i kind hintern
        exact hinterned.overflow hintern
      · rename_i n grown hintern
        have hothers := ih (hinterned.honest hintern)
        split
        · rename_i kind hrest
          exact hothers.overflow hrest
        · rename_i row last hrest
          exact hothers.honest hrest

theorem explore_kept {bytes : List Byte} (rows : Array (Array Nat)) (census : Census limit)
    (hc : Honest nfa census) : Kept nfa (explore nfa bytes rows census) := by
  induction rows, census using explore.induct nfa bytes with
  | case1 rows census hlt kind hrow =>
      have hset := hc.reachable (Array.getElem?_eq_getElem hlt)
      rw [explore, dif_pos hlt, hrow]
      exact (successors_kept hset bytes hc).overflow hrow
  | case2 rows census hlt row grown hrow ih =>
      have hset := hc.reachable (Array.getElem?_eq_getElem hlt)
      rw [explore, dif_pos hlt, hrow]
      exact ih ((successors_kept hset bytes hc).honest hrow)
  | case3 rows census hlt =>
      rw [explore, dif_neg hlt]
      exact hc

/-! ### Counting -/

/-- The set with a number. -/
def setAt (census : Census limit) (n : Nat) : List Nat := census.sets.getD n []

/-- The sets with a number, other than the empty set. -/
def listed (census : Census limit) : Set (List Nat) :=
  {set | set ≠ [] ∧ ∃ n : Nat, census.sets[n]? = some set}

theorem Honest.listed_subset {census : Census limit} (h : Honest nfa census) :
    census.listed ⊆ nfa.reachableSets := by
  rintro set ⟨hne, n, hn⟩
  exact h.reachable hn hne

theorem Honest.bijOn_listed {census : Census limit} (h : Honest nfa census) :
    Set.BijOn census.setAt (Set.Ico 1 census.sets.size) census.listed := by
  have hget : ∀ n : Nat, n < census.sets.size → census.sets[n]? = some (census.setAt n) := by
    intro n hn
    simp [setAt, Array.getD_eq_getD_getElem?, hn]
  refine ⟨?_, ?_, ?_⟩
  · rintro n ⟨hpos, hlt⟩
    refine ⟨?_, n, hget n hlt⟩
    intro hempty
    have hn := hget n hlt
    rw [hempty] at hn
    have hdead : n = dead := h.inverse.number_unique hn h.dead_eq
    rw [hdead] at hpos
    cases hpos
  · rintro m ⟨-, hm⟩ n ⟨-, hn⟩ heq
    have hm' := hget m hm
    rw [heq] at hm'
    exact h.inverse.number_unique hm' (hget n hn)
  · rintro set ⟨hne, n, hn⟩
    have hlt := (Array.getElem?_eq_some_iff.1 hn).1
    have hpos : n ≠ 0 := by
      rintro rfl
      rw [← dead, h.dead_eq] at hn
      exact hne (Option.some.inj hn).symm
    refine ⟨n, ⟨Nat.one_le_iff_ne_zero.2 hpos, hlt⟩, ?_⟩
    exact Option.some.inj ((hget n hlt).symm.trans hn)

theorem Honest.size_eq {census : Census limit} (h : Honest nfa census) :
    census.sets.size = 1 + census.listed.ncard := by
  have hlt := h.start_lt_size
  rw [← h.bijOn_listed.ncard_eq, Set.ncard_Ico_nat]
  omega

/-- A census without room holds as many sets as the limit allows, and one reachable
set is not among them. -/
theorem Overflow.lt_ncard {kind : ErrorKind} (h : Overflow nfa limit kind) :
    kind = .automatonTooLarge (max limit 2 + 1) limit ∧
      max limit 2 < 1 + nfa.reachableSets.ncard := by
  obtain ⟨census, set, hc, hset, habsent, hfull, rfl⟩ := h
  have hsize : census.sets.size = max limit 2 := by
    have hle := census.size_le
    have hlt : 1 < census.sets.size := hc.start_lt_size
    omega
  have hsub : insert set census.listed ⊆ nfa.reachableSets :=
    Set.insert_subset hset hc.listed_subset
  have hnotMem : set ∉ census.listed := by
    rintro ⟨-, n, hn⟩
    exact habsent n hn
  have hcard := Set.ncard_le_ncard hsub nfa.finite_reachableSets
  rw [Set.ncard_insert_of_notMem hnotMem (nfa.finite_reachableSets.subset hc.listed_subset)]
    at hcard
  have hcount := hc.size_eq
  refine ⟨by rw [hsize], ?_⟩
  omega

end Census

/-- The set of states that a state stands for. -/
def subset (dfa : Dfa) (q : Nat) : List Nat := dfa.subsets.getD q []

section Construction

variable {nfa : Nfa} {limit : Nat}

theorem overflow_of_ofNfa {kind : ErrorKind} (hne : nfa.initial ≠ [])
    (h : ofNfa nfa limit = .error kind) : Census.Overflow nfa limit kind := by
  unfold ofNfa at h
  dsimp only at h
  split at h
  · rename_i e hexplore
    cases h
    exact (Census.explore_kept _ _ (Census.honest_first hne)).overflow hexplore
  · cases h

/-- The states of a finished table, apart from the dead one, are the reachable sets. -/
theorem bijOn_subset {dfa : Dfa} (hne : nfa.initial ≠ []) (h : ofNfa nfa limit = .ok dfa) :
    Set.BijOn dfa.subset (Set.Ico 1 dfa.stateCount) nfa.reachableSets ∧
      dfa.stateCount ≤ max limit 2 := by
  have hsimulates := simulates_ofNfa hne h
  obtain ⟨rows, census, hexplore, rfl⟩ := exists_explore_of_ofNfa h
  have hc := (Census.explore_kept _ _ (Census.honest_first hne)).honest hexplore
  have hlisted : census.listed = nfa.reachableSets := by
    apply Set.Subset.antisymm hc.listed_subset
    rintro set ⟨hset, w, rfl⟩
    exact ⟨hset, _, hsimulates.subset_after w⟩
  rw [← hlisted]
  exact ⟨hc.bijOn_listed, census.size_le⟩

theorem stateCount_eq {dfa : Dfa} (hne : nfa.initial ≠ []) (h : ofNfa nfa limit = .ok dfa) :
    dfa.stateCount = 1 + nfa.reachableSets.ncard := by
  have hstart : 1 < dfa.stateCount :=
    (Array.getElem?_eq_some_iff.1 (simulates_ofNfa hne h).start_eq).1
  rw [← (bijOn_subset hne h).1.ncard_eq, Set.ncard_Ico_nat]
  omega

/-- The limit is exact. -/
theorem exists_ofNfa_iff (hne : nfa.initial ≠ []) :
    (∃ dfa, ofNfa nfa limit = .ok dfa) ↔ 1 + nfa.reachableSets.ncard ≤ max limit 2 := by
  constructor
  · rintro ⟨dfa, h⟩
    rw [← stateCount_eq hne h]
    exact (bijOn_subset hne h).2
  · intro hle
    cases h : ofNfa nfa limit with
    | ok dfa =>
        exact ⟨dfa, rfl⟩
    | error kind =>
        have hlt := (overflow_of_ofNfa hne h).lt_ncard.2
        omega

theorem ofNfa_eq_error (hne : nfa.initial ≠ [])
    (hlt : ¬1 + nfa.reachableSets.ncard ≤ max limit 2) :
    ofNfa nfa limit = .error (.automatonTooLarge (max limit 2 + 1) limit) := by
  cases h : ofNfa nfa limit with
  | ok dfa =>
      exact absurd ((exists_ofNfa_iff hne).1 ⟨dfa, h⟩) hlt
  | error kind =>
      rw [(overflow_of_ofNfa hne h).lt_ncard.1]

section States

variable {dfa : Dfa} {q : Nat}

theorem getElem?_subsets (hq : q < dfa.stateCount) : dfa.subsets[q]? = some (dfa.subset q) := by
  have hlt : q < dfa.subsets.size := hq
  simp [subset, Array.getD_eq_getD_getElem?, hlt]

/-- A state moves to the dead state when the set it stands for is used up. -/
theorem Simulates.next_eq_zero (h : dfa.Simulates nfa) (hq : q < dfa.stateCount) {b : Byte}
    (hstep : nfa.step (dfa.subset q) b = []) : dfa.next q b = 0 :=
  (h.next_eq_dead_iff (getElem?_subsets hq) b).2 hstep

/-- Otherwise it moves to the state of the set that comes next. -/
theorem Simulates.subset_next (h : dfa.Simulates nfa) (hq : q < dfa.stateCount) {b : Byte}
    (hstep : nfa.step (dfa.subset q) b ≠ []) :
    dfa.next q b ∈ Set.Ico 1 dfa.stateCount ∧
      dfa.subset (dfa.next q b) = nfa.step (dfa.subset q) b := by
  have hnext := h.next_eq b (getElem?_subsets hq)
  have hlt : dfa.next q b < dfa.stateCount := (Array.getElem?_eq_some_iff.1 hnext).1
  have hpos : dfa.next q b ≠ 0 :=
    fun hzero => hstep ((h.next_eq_dead_iff (getElem?_subsets hq) b).1 hzero)
  refine ⟨⟨Nat.one_le_iff_ne_zero.2 hpos, hlt⟩, ?_⟩
  exact Option.some.inj ((getElem?_subsets hlt).symm.trans hnext)

theorem Simulates.next_dead (h : dfa.Simulates nfa) (b : Byte) : dfa.next 0 b = 0 :=
  (h.next_eq_dead_iff h.dead_eq b).2 (nfa.step_nil b)

theorem Simulates.accepts_dead (h : dfa.Simulates nfa) : dfa.accepts 0 = [] := by
  have haccepts : dfa.accepts 0 = nfa.accepts [] := h.accepts_eq h.dead_eq
  rw [haccepts, nfa.accepts_nil]

theorem Simulates.mem_accepts_iff (h : dfa.Simulates nfa) (hq : q < dfa.stateCount) {rule : Nat} :
    rule ∈ dfa.accepts q ↔ ∃ p ∈ dfa.subset q, nfa.states[p]? = some (.accept rule) := by
  rw [h.accepts_eq (getElem?_subsets hq), nfa.mem_accepts_iff]
  rfl

theorem Simulates.accepts_pairwise (h : dfa.Simulates nfa) (hq : q < dfa.stateCount) :
    (dfa.accepts q).Pairwise (· < ·) := by
  rw [h.accepts_eq (getElem?_subsets hq)]
  exact nfa.accepts_pairwise _

end States

end Construction

/-- **Determinizing builds exactly the reachable sets, and its limit is exact.** -/
theorem ofNfa_exact (rules : List Pattern) (limit : Nat) :
    (Nfa.ofPatterns rules).reachableSets.Finite ∧
    (∀ set ∈ (Nfa.ofPatterns rules).reachableSets, set.Pairwise (· < ·)) ∧
    ((∃ dfa, ofNfa (Nfa.ofPatterns rules) limit = .ok dfa) ↔
      1 + (Nfa.ofPatterns rules).reachableSets.ncard ≤ max limit 2) ∧
    (¬1 + (Nfa.ofPatterns rules).reachableSets.ncard ≤ max limit 2 →
      ofNfa (Nfa.ofPatterns rules) limit = .error (.automatonTooLarge (max limit 2 + 1) limit)) ∧
    ∀ dfa, ofNfa (Nfa.ofPatterns rules) limit = .ok dfa →
      dfa.stateCount = 1 + (Nfa.ofPatterns rules).reachableSets.ncard ∧
      (∃ set : Nat → List Nat,
        Set.BijOn set (Set.Ico 1 dfa.stateCount) (Nfa.ofPatterns rules).reachableSets ∧
        set 1 = (Nfa.ofPatterns rules).closure [(Nfa.ofPatterns rules).start] ∧
        ∀ q ∈ Set.Ico 1 dfa.stateCount,
          (∀ b, (Nfa.ofPatterns rules).step (set q) b = [] → dfa.next q b = 0) ∧
          (∀ b, (Nfa.ofPatterns rules).step (set q) b ≠ [] →
            dfa.next q b ∈ Set.Ico 1 dfa.stateCount ∧
            set (dfa.next q b) = (Nfa.ofPatterns rules).step (set q) b) ∧
          (dfa.accepts q).Pairwise (· < ·) ∧
          ∀ rule, rule ∈ dfa.accepts q ↔
            ∃ p ∈ set q, (Nfa.ofPatterns rules).states[p]? = some (.accept rule)) ∧
      (∀ b, dfa.next 0 b = 0) ∧ dfa.accepts 0 = [] := by
  have hne := Nfa.initial_ofPatterns_ne_nil rules
  refine ⟨Nfa.finite_reachableSets _, fun set => Nfa.pairwise_of_mem_reachableSets,
    exists_ofNfa_iff hne, ofNfa_eq_error hne, ?_⟩
  intro dfa h
  have hsimulates := simulates_ofNfa hne h
  have hstart : 1 < dfa.stateCount := (Array.getElem?_eq_some_iff.1 hsimulates.start_eq).1
  refine ⟨stateCount_eq hne h, ⟨dfa.subset, (bijOn_subset hne h).1, ?_, ?_⟩,
    hsimulates.next_dead, hsimulates.accepts_dead⟩
  · exact Option.some.inj ((getElem?_subsets hstart).symm.trans hsimulates.start_eq)
  · rintro q ⟨-, hq⟩
    exact ⟨fun b => hsimulates.next_eq_zero hq, fun b => hsimulates.subset_next hq,
      hsimulates.accepts_pairwise hq, fun rule => hsimulates.mem_accepts_iff hq⟩

end Dfa
end Munch
