import Mathlib.Data.Nat.SuccPred
import Mathlib.Order.Interval.Set.Monotone
import Munch.Proofs.Nfa.Lookup
import Munch.Proofs.Nfa.Recognition

/-!
# The states of different rules are apart

A fragment appends states that lead to one another or on to the state behind it, and
that accept nothing.  Rule `i` is such a fragment in front of the state that accepts for
`i`, so no transition leaves these states, and the automaton is a row of closed blocks
with the start state at its end.

A loop fills in a state that it has reserved.  That state is one of its own, so nothing that
was there before changes.

**Results.**
* `Framed.join`, `Framed.push`, `Frames.loop`, `framed_optional`: what the constructions do.
* `frames_ofPattern`: the fragment of a pattern keeps what it is given, and leads only to its
  own states and on.
* `exists_isolatesFrom_addRules`: the states of the rules lie in consecutive blocks.
* `ofPatterns_isolated`: only numbers of states stand in the automaton, each rule is accepted
  in one place, and no transition leads from one block to another, or to the start.
-/

namespace Munch
namespace Nfa

/-! ### Fragments -/

/-- The number is `next`, or one of those from `low` to below `high`. -/
def Inside (low high next q : Nat) : Prop := q = next ∨ low ≤ q ∧ q < high

/-- The fragment in front of `next` that gives `result` has appended its states to `states`.
They are entered, and lead to one another or on to `next`, and accept nothing. -/
structure Framed (states : Array State) (entry : Nat → Prop) (next : Nat)
    (result : Array State) : Prop where
  appended : ∃ added : Array State, result = states ++ added ∧
    ∀ state ∈ added, state.rule? = none ∧
      ∀ q ∈ state.successors, Inside states.size result.size next q
  inside : ∀ e, entry e → Inside states.size result.size next e

namespace Inside

variable {low mid high next e q : Nat}

theorem here (next : Nat) : Inside low high next next :=
  Or.inl rfl

theorem extend (h : Inside low mid next q) (hle : mid ≤ high) : Inside low high next q := by
  rcases h with rfl | ⟨hlow, hmid⟩
  · exact here q
  · exact Or.inr ⟨hlow, Nat.lt_of_lt_of_le hmid hle⟩

/-- What lies in front of `e` is inside when `e` is. -/
theorem through (h : Inside mid high e q) (he : Inside low high next e) (hle : low ≤ mid) :
    Inside low high next q := by
  rcases h with rfl | ⟨hmid, hhigh⟩
  · exact he
  · exact Or.inr ⟨Nat.le_trans hle hmid, hhigh⟩

end Inside

namespace Framed

variable {states mid result : Array State} {entry entry₁ entry₂ : Nat → Prop} {next e : Nat}

theorem size_le (h : Framed states entry next result) : states.size ≤ result.size := by
  obtain ⟨added, rfl, -⟩ := h.appended
  simp

/-- The states that were there stay as they were. -/
theorem kept (h : Framed states entry next result) {id : Nat} (hid : id < states.size) :
    result[id]? = states[id]? := by
  obtain ⟨added, rfl, -⟩ := h.appended
  exact Array.getElem?_append_left hid

theorem nil (states : Array State) (next : Nat) : Framed states (· = next) next states where
  appended := ⟨#[], by simp, by simp⟩
  inside := by
    rintro e rfl
    exact .here e

theorem weaken (h : Framed states entry₁ next result) (hentry : ∀ e, entry₂ e → entry₁ e) :
    Framed states entry₂ next result where
  appended := h.appended
  inside e he := h.inside e (hentry e he)

/-- A second fragment may go on to `next`, or to a state of the first. -/
theorem join (h₁ : Framed states entry₁ next mid) (h₂ : Framed mid entry₂ e result)
    (he : Inside states.size mid.size next e) :
    Framed states (fun e => entry₁ e ∨ entry₂ e) next result := by
  have hmid := h₁.size_le
  have hresult := h₂.size_le
  have he : Inside states.size result.size next e := he.extend hresult
  obtain ⟨added₁, hfirst, hadded₁⟩ := h₁.appended
  obtain ⟨added₂, hsecond, hadded₂⟩ := h₂.appended
  refine ⟨⟨added₁ ++ added₂, ?_, ?_⟩, ?_⟩
  · rw [hsecond, hfirst, Array.append_assoc]
  · intro state hstate
    rcases Array.mem_append.1 hstate with hstate | hstate
    · obtain ⟨hrule, hleads⟩ := hadded₁ state hstate
      exact ⟨hrule, fun q hq => (hleads q hq).extend hresult⟩
    · obtain ⟨hrule, hleads⟩ := hadded₂ state hstate
      exact ⟨hrule, fun q hq => (hleads q hq).through he hmid⟩
  · rintro q (hq | hq)
    · exact (h₁.inside q hq).extend hresult
    · exact (h₂.inside q hq).through he hmid

/-- One fragment in front of another, and built behind it. -/
theorem append (h₂ : Framed states (· = e) next mid) (h₁ : Framed mid entry e result) :
    Framed states entry next result :=
  (h₂.join h₁ (h₂.inside e rfl)).weaken fun _ => Or.inr

/-- Two fragments beside each other, both in front of `next`. -/
theorem union (h₁ : Framed states entry₁ next mid) (h₂ : Framed mid entry₂ next result) :
    Framed states (fun e => entry₁ e ∨ entry₂ e) next result :=
  h₁.join h₂ (.here next)

/-- One more state, which leads only to entries and on. -/
theorem push {state : State} (h : Framed states entry next result) (hrule : state.rule? = none)
    (hstate : ∀ q ∈ state.successors, entry q ∨ q = next) :
    Framed states (· = result.size) next (result.push state) := by
  have hle := h.size_le
  obtain ⟨added, hresult, hadded⟩ := h.appended
  have hpush : result.size ≤ (result.push state).size := by simp
  refine ⟨⟨added.push state, ?_, ?_⟩, ?_⟩
  · rw [hresult, Array.push_append]
  · intro other hother
    rcases Array.mem_push.1 hother with hother | rfl
    · obtain ⟨hnone, hleads⟩ := hadded other hother
      exact ⟨hnone, fun q hq => (hleads q hq).extend hpush⟩
    · refine ⟨hrule, fun q hq => ?_⟩
      rcases hstate q hq with hq | rfl
      · exact (h.inside q hq).extend hpush
      · exact .here q
  · rintro e rfl
    exact Or.inr ⟨hle, by simp⟩

theorem split {entries : List Nat} (h : Framed states (· ∈ entries) next result) :
    Framed states (· = result.size) next (result.push (.split entries)) :=
  h.push rfl fun _ hq => Or.inl hq

end Framed

/-- The fragment is framed, wherever it is built. -/
def Frames (f : Fragment) : Prop :=
  ∀ next states, Framed states (· = (f next states).1) next (f next states).2

section Combinators

variable {body first second : Fragment}

theorem frames_oneOf (set : ByteSet) : Frames (Fragment.oneOf set) := by
  intro next states
  apply (Framed.nil states next).push rfl
  intro q hq
  exact Or.inr (List.mem_singleton.1 hq)

theorem Frames.followedBy (h₁ : Frames first) (h₂ : Frames second) :
    Frames (first.followedBy second) :=
  fun next states => (h₂ next states).append (h₁ _ _)

theorem Frames.times (h : Frames body) (n : Nat) : Frames (body.times n) := by
  induction n with
  | zero =>
      exact fun next states => Framed.nil states next
  | succ n ih =>
      exact fun next states => (h next states).append (ih _ _)

theorem framed_optional (h : Frames body) (base : Array State) (exit n : Nat) :
    ∀ (tail : Nat) (states : Array State), Framed base (· = tail) exit states →
      Framed base (· = (body.optional exit n tail states).1) exit
        (body.optional exit n tail states).2 := by
  induction n with
  | zero =>
      intro tail states htail
      exact htail
  | succ n ih =>
      intro tail states htail
      apply ih
      apply (htail.append (h tail states)).push rfl
      intro q hq
      rcases List.mem_cons.1 hq with hq | hq
      · exact Or.inl hq
      · exact Or.inr (List.mem_singleton.1 hq)

/-- The reserved state of a loop is one of the loop's own, so filling it in changes none
that was there before. -/
theorem Frames.loop (h : Frames body) : Frames body.loop := by
  intro next states
  let built := body states.size (states.push (.split []))
  obtain ⟨⟨added, hbuilt, hadded⟩, hentry⟩ := h states.size (states.push (.split []))
  have hresult : (body.loop next states).2 = states ++ (#[.split [built.1, next]] ++ added) := by
    show built.2.setIfInBounds states.size _ = _
    rw [hbuilt]
    apply Array.ext'
    simp [built]
  have hsize : (body.loop next states).2.size = built.2.size := by
    show (built.2.setIfInBounds states.size _).size = _
    simp
  have hlow : states.size < built.2.size := by
    have hle := (h states.size (states.push (.split []))).size_le
    rwa [Array.size_push] at hle
  -- the body leads back to the reserved state, and nowhere out
  have hround : ∀ q, Inside (states.push (.split [])).size built.2.size states.size q →
      Inside states.size (body.loop next states).2.size next q := by
    intro q hq
    rw [hsize]
    apply hq.through (Or.inr ⟨Nat.le_refl _, hlow⟩)
    simp
  refine ⟨⟨_, hresult, ?_⟩, ?_⟩
  · intro state hstate
    rcases Array.mem_append.1 hstate with hstate | hstate
    · obtain rfl := Array.mem_singleton.1 hstate
      refine ⟨rfl, fun q hq => ?_⟩
      rcases List.mem_cons.1 hq with rfl | hq
      · exact hround _ (hentry _ rfl)
      · obtain rfl := List.mem_singleton.1 hq
        exact .here q
    · obtain ⟨hrule, hleads⟩ := hadded state hstate
      exact ⟨hrule, fun q hq => hround q (hleads q hq)⟩
  · rintro e rfl
    rw [hsize]
    exact Or.inr ⟨Nat.le_refl _, hlow⟩

theorem Frames.repeated (h : Frames body) (min : Nat) (max : Option Nat) :
    Frames (body.repeated min max) := by
  intro next states
  cases max with
  | none =>
      exact (h.loop next states).append (h.times min _ _)
  | some max =>
      have htail := framed_optional h states next (max - min) next states (.nil states next)
      exact htail.append (h.times min _ _)

end Combinators

mutual

theorem frames_ofPattern : (p : Pattern) → Frames (Fragment.ofPattern p)
  | .empty => by
      intro next states
      rw [Fragment.ofPattern]
      exact .nil states next
  | .oneOf set => by
      rw [Fragment.ofPattern]
      exact frames_oneOf set
  | .sequence parts => by
      rw [Fragment.ofPattern]
      exact frames_ofSequence parts
  | .choice branches => by
      intro next states
      rw [Fragment.ofPattern]
      exact (framed_entriesOf branches next states).split
  | .repeated body min max => by
      rw [Fragment.ofPattern]
      exact (frames_ofPattern body).repeated min max

theorem frames_ofSequence : (parts : List Pattern) → Frames (Fragment.ofSequence parts)
  | [] => by
      intro next states
      rw [Fragment.ofSequence]
      exact .nil states next
  | part :: parts => by
      rw [Fragment.ofSequence]
      exact (frames_ofPattern part).followedBy (frames_ofSequence parts)

theorem framed_entriesOf : (branches : List Pattern) → ∀ next states,
    Framed states (· ∈ (Fragment.entriesOf branches next states).1) next
      (Fragment.entriesOf branches next states).2
  | [], next, states => by
      rw [Fragment.entriesOf]
      exact ⟨(Framed.nil states next).appended, by simp⟩
  | branch :: branches, next, states => by
      have hfirst := frames_ofPattern branch next states
      have hothers := framed_entriesOf branches next (Fragment.ofPattern branch next states).2
      rw [Fragment.entriesOf]
      exact (hfirst.union hothers).weaken fun _ he => List.mem_cons.1 he

end

/-! ### The blocks of the rules -/

/-- The states from `low` to below `high` are those of a rule.  One of them accepts, for that
rule, and every transition from one of them leads to one of them. -/
structure Isolated (states : Array State) (low high rule : Nat) : Prop where
  lt : low < high
  accepting : Accepting states low rule
  alone : ∀ p r, low ≤ p → p < high → Accepting states p r → p = low
  closed : ∀ p q, low ≤ p → p < high → Leads states p q → low ≤ q ∧ q < high

/-- A fragment in front of a state that accepts forms a block with it. -/
theorem Framed.isolated {states mid whole : Array State} {entry : Nat → Prop} {rule : Nat}
    (h : Framed (states.push (.accept rule)) entry states.size mid)
    (hwhole : Holds states.size mid whole) :
    Isolated whole states.size mid.size rule ∧
      ∀ e, entry e → states.size ≤ e ∧ e < mid.size := by
  have hle := h.size_le
  rw [Array.size_push] at hle
  have hinside : ∀ q, Inside (states.push (.accept rule)).size mid.size states.size q →
      states.size ≤ q ∧ q < mid.size := by
    rintro q (rfl | ⟨hlow, hhigh⟩)
    · exact ⟨Nat.le_refl _, hle⟩
    · rw [Array.size_push] at hlow
      exact ⟨Nat.le_of_succ_le hlow, hhigh⟩
  have haccept : Accepting whole states.size rule := by
    rw [Accepting, hwhole states.size (Nat.le_refl _) hle, h.kept (by simp)]
    exact Array.getElem?_push_size
  -- behind the accepting state come the states that the fragment has added
  have hadded : ∀ p state, states.size < p → p < mid.size → whole[p]? = some state →
      state.rule? = none ∧ ∀ q ∈ state.successors, states.size ≤ q ∧ q < mid.size := by
    intro p state hp hlt hstate
    obtain ⟨added, hmid, hadded⟩ := h.appended
    have hpush : (states.push (.accept rule)).size ≤ p := by
      rw [Array.size_push]
      exact hp
    rw [hwhole p (Nat.le_of_lt hp) hlt, hmid, Array.getElem?_append_right hpush] at hstate
    obtain ⟨hrule, hleads⟩ := hadded state (Array.mem_of_getElem? hstate)
    exact ⟨hrule, fun q hq => hinside q (hleads q hq)⟩
  refine ⟨⟨hle, haccept, ?_, ?_⟩, fun e he => hinside e (h.inside e he)⟩
  · intro p r hlow hhigh hp
    by_contra hne
    obtain ⟨hrule, -⟩ := hadded p _ (Nat.lt_of_le_of_ne hlow (Ne.symm hne)) hhigh hp
    cases hrule
  · rintro p q hlow hhigh ⟨state, hstate, hq⟩
    rcases Nat.eq_or_lt_of_le hlow with rfl | hlt
    · rw [Accepting, hstate] at haccept
      cases haccept
      cases hq
    · exact (hadded p state hlt hhigh hstate).2 q hq

/-- The blocks of so many rules, numbered from `index`, lie one behind the other in the order
of the rules, and each rule is entered in its own block. -/
structure IsolatesFrom (states : Array State) (index count : Nat) (entries : List Nat)
    (border : Nat → Nat) : Prop where
  entries_length : entries.length = count
  isolated : ∀ i < count, Isolated states (border i) (border (i + 1)) (index + i)
  entered : ∀ i e, entries[i]? = some e → border i ≤ e ∧ e < border (i + 1)

theorem exists_isolatesFrom_addRules (rules : List Pattern) (index : Nat) (states : Array State)
    {whole : Array State} (hwhole : Holds states.size (addRules index rules states).2 whole) :
    ∃ border : Nat → Nat, border 0 = states.size ∧
      border rules.length = (addRules index rules states).2.size ∧
      IsolatesFrom whole index rules.length (addRules index rules states).1 border := by
  induction rules generalizing index states with
  | nil =>
      refine ⟨fun _ => states.size, rfl, rfl, rfl, ?_, ?_⟩
      · intro i hi
        cases hi
      · intro i e he
        cases he
  | cons rule rules ih =>
      let built := Fragment.ofPattern rule states.size (states.push (.accept index))
      have hframed : Framed _ (· = built.1) states.size built.2 :=
        frames_ofPattern rule states.size (states.push (.accept index))
      have hothers := ruleBlock_addRules rules (index + 1) built.2
      have hlt : states.size ≤ built.2.size := by
        have hle := hframed.size_le
        rw [Array.size_push] at hle
        exact Nat.le_of_succ_le hle
      obtain ⟨hfirst, hentry⟩ := hframed.isolated (hwhole.before hothers.size_le hothers.kept)
      obtain ⟨border, hlow, hhigh, hrest⟩ := ih (index + 1) built.2 (hwhole.above hlt)
      refine ⟨fun i => i.casesOn states.size border, rfl, hhigh, ?_, ?_, ?_⟩
      · exact congrArg Nat.succ hrest.entries_length
      · rintro (_ | i) hi
        · show Isolated whole states.size (border 0) index
          rw [hlow]
          exact hfirst
        · have hblock := hrest.isolated i (Nat.lt_of_succ_lt_succ hi)
          rw [Nat.add_right_comm] at hblock
          exact hblock
      · rintro (_ | i) e he
        · cases he
          show states.size ≤ _ ∧ _ < border 0
          rw [hlow]
          exact hentry _ rfl
        · exact hrest.entered i e he

namespace IsolatesFrom

variable {states : Array State} {index count p q r : Nat} {entries : List Nat}
  {border : Nat → Nat}

theorem border_le (h : IsolatesFrom states index count entries border) {i : Nat}
    (hi : i ≤ count) : border i ≤ border count :=
  (strictMonoOn_Iic_of_lt_succ fun i hi => (h.isolated i hi).lt).monotoneOn hi
    (Set.mem_Iic.2 (Nat.le_refl _)) hi

/-- Every state of the row lies in a block. -/
theorem exists_block (hlow : border 0 ≤ p) {n : Nat} (hhigh : p < border n) :
    ∃ i < n, border i ≤ p ∧ p < border (i + 1) := by
  induction n with
  | zero =>
      exact absurd hlow (Nat.not_le_of_lt hhigh)
  | succ n ih =>
      rcases Nat.lt_or_ge p (border n) with hlt | hle
      · obtain ⟨i, hi, hblock⟩ := ih hlt
        exact ⟨i, Nat.lt_succ_of_lt hi, hblock⟩
      · exact ⟨n, Nat.lt_succ_self n, hle, hhigh⟩

theorem leads_lt (h : IsolatesFrom states index count entries border) (hlow : border 0 ≤ p)
    (hhigh : p < border count) (move : Leads states p q) : q < border count := by
  obtain ⟨i, hi, hblock⟩ := exists_block hlow hhigh
  have hq := (h.isolated i hi).closed p q hblock.1 hblock.2 move
  exact Nat.lt_of_lt_of_le hq.2 (h.border_le hi)

theorem entry_lt (h : IsolatesFrom states index count entries border) (hq : q ∈ entries) :
    q < border count := by
  obtain ⟨i, hi, hq⟩ := List.mem_iff_getElem.1 hq
  have hentered := h.entered i q (List.getElem?_eq_some_iff.2 ⟨hi, hq⟩)
  rw [h.entries_length] at hi
  exact Nat.lt_of_lt_of_le hentered.2 (h.border_le hi)

/-- A state of the row that accepts is the first of its rule's block. -/
theorem accepting (h : IsolatesFrom states index count entries border) (hlow : border 0 ≤ p)
    (hhigh : p < border count) (hp : Accepting states p r) :
    ∃ i < count, r = index + i ∧ p = border i := by
  obtain ⟨i, hi, hblock⟩ := exists_block hlow hhigh
  have hstart := (h.isolated i hi).alone p r hblock.1 hblock.2 hp
  have haccepting := (h.isolated i hi).accepting
  rw [Accepting, ← hstart, hp] at haccepting
  cases haccepting
  exact ⟨i, hi, rfl, hstart⟩

end IsolatesFrom

/-! ### The automaton -/

/-- An automaton for so many rules in which all numbers are those of states and the states of
different rules are apart. -/
structure WellFormed (nfa : Nfa) (count : Nat) : Prop where
  start_last : nfa.start + 1 = nfa.states.size
  closed : Closed nfa.states
  start_unled : ∀ p, ¬Leads nfa.states p nfa.start
  accepted_once : ∀ i < count, ∃! p, Accepting nfa.states p i
  accepted_lt : ∀ p i, Accepting nfa.states p i → i < count
  blocks : ∃ (border : Nat → Nat) (entries : List Nat),
    border 0 = 0 ∧ border count = nfa.start ∧
      nfa.states[nfa.start]? = some (.split entries) ∧
      IsolatesFrom nfa.states 0 count entries border

section Automaton

variable (rules : List Pattern)

theorem size_ofPatterns : (ofPatterns rules).states.size = (ofPatterns rules).start + 1 :=
  Array.size_push _

theorem exists_isolatesFrom_ofPatterns :
    ∃ border : Nat → Nat, border 0 = 0 ∧ border rules.length = (ofPatterns rules).start ∧
      IsolatesFrom (ofPatterns rules).states 0 rules.length (addRules 0 rules #[]).1 border :=
  exists_isolatesFrom_addRules rules 0 #[] (holds_ofPatterns rules)

/-- Transitions lead to states before the start, which is the last. -/
theorem lt_start_of_leads {p q : Nat} (h : Leads (ofPatterns rules).states p q) :
    q < (ofPatterns rules).start := by
  obtain ⟨border, hlow, hhigh, hblocks⟩ := exists_isolatesFrom_ofPatterns rules
  obtain ⟨state, hstate, hq⟩ := id h
  have hp := (Array.getElem?_eq_some_iff.1 hstate).1
  rw [size_ofPatterns] at hp
  rw [← hhigh]
  rcases Nat.eq_or_lt_of_le (Nat.le_of_lt_succ hp) with rfl | hlt
  · rw [start_ofPatterns] at hstate
    cases hstate
    exact hblocks.entry_lt hq
  · exact hblocks.leads_lt (by omega) (by omega) h

theorem accepting_ofPatterns {border : Nat → Nat} {p r : Nat} (hlow : border 0 = 0)
    (hhigh : border rules.length = (ofPatterns rules).start)
    (hblocks : IsolatesFrom (ofPatterns rules).states 0 rules.length
      (addRules 0 rules #[]).1 border)
    (hp : Accepting (ofPatterns rules).states p r) : r < rules.length ∧ p = border r := by
  have hlt := hp.lt_size
  rw [size_ofPatterns] at hlt
  have hstart : p ≠ (ofPatterns rules).start := by
    rintro rfl
    rw [Accepting, start_ofPatterns] at hp
    cases hp
  obtain ⟨i, hi, rfl, rfl⟩ := hblocks.accepting (by omega) (by omega) hp
  rw [Nat.zero_add]
  exact ⟨hi, rfl⟩

theorem wellFormed_ofPatterns : (ofPatterns rules).WellFormed rules.length := by
  obtain ⟨border, hlow, hhigh, hblocks⟩ := exists_isolatesFrom_ofPatterns rules
  refine ⟨(size_ofPatterns rules).symm, ?_, ?_, ?_, ?_, ?_⟩
  · intro p q move
    rw [size_ofPatterns]
    exact Nat.lt_succ_of_lt (lt_start_of_leads rules move)
  · exact fun p move => Nat.lt_irrefl _ (lt_start_of_leads rules move)
  · intro i hi
    have hborder := (hblocks.isolated i hi).accepting
    rw [Nat.zero_add] at hborder
    exact ⟨border i, hborder, fun p hp => (accepting_ofPatterns rules hlow hhigh hblocks hp).2⟩
  · exact fun p i hp => (accepting_ofPatterns rules hlow hhigh hblocks hp).1
  · exact ⟨border, _, hlow, hhigh, start_ofPatterns rules, hblocks⟩

/-- **The automaton of some rules is well formed**, the states of the rules are apart, and
running it from states looks up states only.  The fragment of a pattern is appended to whatever
states there are. -/
theorem ofPatterns_isolated :
    (ofPatterns rules).WellFormed rules.length ∧
    (∀ ids : List Nat, (∀ id ∈ ids, id < (ofPatterns rules).states.size) →
      (ofPatterns rules).LooksUp ids) ∧
    ∀ (p : Pattern) (next : Nat) (states : Array State),
      ∃ added, (Fragment.ofPattern p next states).2 = states ++ added := by
  have hwellFormed := wellFormed_ofPatterns rules
  refine ⟨hwellFormed, fun ids hids => hwellFormed.closed.looksUp hids, ?_⟩
  intro p next states
  obtain ⟨added, hresult, -⟩ := (frames_ofPattern p next states).appended
  exact ⟨added, hresult⟩

/-- The rules are `(a*)*` and `b`. -/
def loopsThenLetter : List Pattern :=
  [.repeated (.repeated (.literal [97]) 0 none) 0 none, .literal [98]]

/-- The loops take the states from 0 to 3, the letter those from 4 to 5, and the start is 6. -/
theorem ofPatterns_isolated_loops :
    (ofPatterns loopsThenLetter).states.size = 7 ∧
    (ofPatterns loopsThenLetter).closure? [6, 1, 6] = some [0, 1, 2, 3, 5, 6] ∧
    (∀ p, Accepting (ofPatterns loopsThenLetter).states p 0 ↔ p = 0) ∧
    (∀ p, Accepting (ofPatterns loopsThenLetter).states p 1 ↔ p = 4) ∧
    (∀ p, ¬Leads (ofPatterns loopsThenLetter).states p 6) ∧
    ∀ p q, Leads (ofPatterns loopsThenLetter).states p q →
      (p < 4 → q < 4) ∧ (4 ≤ p → p < 6 → 4 ≤ q ∧ q < 6) := by
  have hsize : (ofPatterns loopsThenLetter).states.size = 7 := by
    cbv
  have hids : ∀ id ∈ [6, 1, 6], id < (ofPatterns loopsThenLetter).states.size := by
    rw [hsize]
    decide
  obtain ⟨hwellFormed, hlooksUp, -⟩ := ofPatterns_isolated loopsThenLetter
  have hstart : (ofPatterns loopsThenLetter).start = 6 :=
    Nat.succ.inj (hwellFormed.start_last.trans hsize)
  have honly : ∀ i < 2, ∀ a, Accepting (ofPatterns loopsThenLetter).states a i → ∀ p,
      Accepting (ofPatterns loopsThenLetter).states p i ↔ p = a := by
    intro i hi a ha p
    constructor
    · intro hp
      exact (hwellFormed.accepted_once i hi).unique hp ha
    · rintro rfl
      exact ha
  have hloops := honly 0 (by decide) 0 (by cbv)
  have hletter := honly 1 (by decide) 4 (by cbv)
  obtain ⟨border, entries, hlow, hhigh, -, hblocks⟩ := hwellFormed.blocks
  have hmid : border 1 = 4 := (hletter _).1 (hblocks.isolated 1 (by decide)).accepting
  have hlast : border 2 = 6 := hhigh.trans hstart
  have hfirst := hblocks.isolated 0 (by decide)
  have hsecond := hblocks.isolated 1 (by decide)
  simp only [hlow, hmid, hlast] at hfirst hsecond
  refine ⟨hsize, ?_, hloops, hletter, hstart ▸ hwellFormed.start_unled, ?_⟩
  · rw [(hlooksUp [6, 1, 6] hids).closure]
    cbv
  · intro p q move
    exact ⟨fun hp => (hfirst.closed p q (Nat.zero_le p) hp move).2,
      fun hlow hhigh => hsecond.closed p q hlow hhigh move⟩

end Automaton

end Nfa
end Munch
