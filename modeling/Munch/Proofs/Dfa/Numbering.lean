import Mathlib.Data.List.Induction
import Mathlib.Data.List.Shortlex
import Munch.Proofs.Compilation
import Munch.Proofs.Dfa.Exactness

/-!
# States are numbered by their least words

Rows are filled in the order of the states, and the entries of a row in the order of the
byte classes, so a set gets its number when the first entry for it is made.  The first
entry belongs to the least state that leads there and to the least byte of that state
that does.  Compared by length and then byte by byte, the words along first entries are
the least words of their states, and they come in the order of the states.

**Invariant.**  `Census.Ordered`: each number from 2 on has an entry in an earlier row
such that all entries before that one are smaller.

**Results.**
* `intern_size`, `successors_ordered`, `explore_ordered`: each part of the construction
  keeps the invariant.
* `exists_foundFrom`: the state and the byte from which a state was found.
* `Discovers.least`, `Discovers.shortlex`: the words along first entries.
* `ofNfa_numbering`: the numbers of the states in a finished table.
-/

namespace Munch
namespace Dfa
namespace Census

variable {limit : Nat} {nfa : Nfa}

/-! ### First entries -/

/-- The row of the state `p` has the number `m` at the place `k`. -/
def Entry (rows : Array (Array Nat)) (p k m : Nat) : Prop :=
  ∃ row, rows[p]? = some row ∧ row[k]? = some m

/-- The entries are numbers below `size`, one for each byte.  Each number that is neither
that of the dead state nor that of the start has a first entry, in the row of a smaller
number, and only smaller numbers are entered before it. -/
structure Ordered (bytes : List Byte) (rows : Array (Array Nat)) (size : Nat) : Prop where
  width : ∀ p k m, Entry rows p k m → k < bytes.length
  bounded : ∀ p k m, Entry rows p k m → m < size
  first : ∀ n, 2 ≤ n → n < size → ∃ p k, 1 ≤ p ∧ p < n ∧ Entry rows p k n ∧
    ∀ p' k' m, Entry rows p' k' m → p' < p ∨ p' = p ∧ k' < k → m < n

theorem entry_push_iff {rows : Array (Array Nat)} {row : List Nat} {p k m : Nat} :
    Entry (rows.push row.toArray) p k m ↔ Entry rows p k m ∨ p = rows.size ∧ row[k]? = some m := by
  by_cases hp : p = rows.size
  · simp [Entry, hp]
  · simp [Entry, Array.getElem?_push, hp]

theorem Entry.lt_size {rows : Array (Array Nat)} {p k m : Nat} (h : Entry rows p k m) :
    p < rows.size := by
  obtain ⟨row, hrow, -⟩ := h
  exact (Array.getElem?_eq_some_iff.1 hrow).1

/-- A set keeps its number or gets the next one. -/
theorem intern_size {census grown : Census limit} {set : List Nat} {n : Nat}
    (hinv : census.Inverse) (h : census.intern set = .ok (n, grown)) :
    n < census.sets.size ∧ grown.sets.size = census.sets.size ∨
      n = census.sets.size ∧ grown.sets.size = census.sets.size + 1 := by
  unfold intern at h
  split at h
  · rename_i m hm
    cases h
    exact .inl ⟨(Array.getElem?_eq_some_iff.1 ((hinv set n).1 hm)).1, rfl⟩
  · split at h
    · cases h
      exact .inr ⟨rfl, Array.size_push _⟩
    · cases h

/-- A row has one entry for each byte, and the numbers given out for it in increasing
order. -/
theorem successors_ordered {set : List Nat} (bytes : List Byte) {census last : Census limit}
    {row : List Nat} (hinv : census.Inverse)
    (h : successors nfa set bytes census = .ok (row, last)) :
    census.sets.size ≤ last.sets.size ∧ row.length = bytes.length ∧
    (∀ (k m : Nat), row[k]? = some m → m < last.sets.size) ∧
    ∀ n, census.sets.size ≤ n → n < last.sets.size →
      ∃ k : Nat, row[k]? = some n ∧ ∀ (k' m : Nat), row[k']? = some m → k' < k → m < n := by
  induction bytes generalizing census row with
  | nil =>
      rw [successors] at h
      cases h
      exact ⟨Nat.le_refl _, rfl, by simp, fun n hle hlt => absurd hlt (Nat.not_lt.2 hle)⟩
  | cons c bytes ih =>
      rw [successors] at h
      split at h
      · cases h
      · rename_i n grown hintern
        have hsize := intern_size hinv hintern
        obtain ⟨hinv', -, -⟩ := intern_spec hinv hintern
        split at h
        · cases h
        · rename_i others last' hothers
          cases h
          obtain ⟨hle, hlength, hbound, hfirst⟩ := ih hinv' hothers
          refine ⟨by omega, congrArg (· + 1) hlength, ?_, ?_⟩
          · intro k m hk
            cases k with
            | zero =>
                cases hk
                omega
            | succ k =>
                exact hbound k m hk
          · intro m hlow hhigh
            by_cases hm : m < grown.sets.size
            · -- Only the number given out for the first byte is that small.
              obtain rfl : n = m := by omega
              exact ⟨0, rfl, fun k' m' _ hlt => absurd hlt (Nat.not_lt_zero k')⟩
            · obtain ⟨k, hk, hbefore⟩ := hfirst m (Nat.not_lt.1 hm) hhigh
              refine ⟨k + 1, hk, ?_⟩
              intro k' m' hk' hlt
              cases k' with
              | zero =>
                  cases hk'
                  omega
              | succ k' =>
                  exact hbefore k' m' hk' (Nat.lt_of_succ_lt_succ hlt)

theorem Ordered.push {bytes : List Byte} {rows : Array (Array Nat)} {size size' : Nat}
    {row : List Nat} (h : Ordered bytes rows size) (hpos : 1 ≤ rows.size)
    (hrows : rows.size < size) (hsize : size ≤ size') (hwidth : row.length = bytes.length)
    (hbound : ∀ (k m : Nat), row[k]? = some m → m < size')
    (hfirst : ∀ n, size ≤ n → n < size' →
      ∃ k : Nat, row[k]? = some n ∧ ∀ (k' m : Nat), row[k']? = some m → k' < k → m < n) :
    Ordered bytes (rows.push row.toArray) size' where
  width p k m hentry := by
    rcases entry_push_iff.1 hentry with hentry | ⟨-, hk⟩
    · exact h.width p k m hentry
    · rw [← hwidth]
      exact (List.getElem?_eq_some_iff.1 hk).1
  bounded p k m hentry := by
    rcases entry_push_iff.1 hentry with hentry | ⟨-, hk⟩
    · exact Nat.lt_of_lt_of_le (h.bounded p k m hentry) hsize
    · exact hbound k m hk
  first n hn hlt := by
    by_cases hold : n < size
    · obtain ⟨p, k, hp, hpn, hentry, hbefore⟩ := h.first n hn hold
      have hplt := hentry.lt_size
      refine ⟨p, k, hp, hpn, entry_push_iff.2 (.inl hentry), ?_⟩
      intro p' k' m hentry' hlex
      rcases entry_push_iff.1 hentry' with hentry' | ⟨hp', -⟩
      · exact hbefore p' k' m hentry' hlex
      · omega
    · obtain ⟨k, hk, hbefore⟩ := hfirst n (Nat.not_lt.1 hold) hlt
      refine ⟨rows.size, k, hpos, by omega, entry_push_iff.2 (.inr ⟨rfl, hk⟩), ?_⟩
      intro p' k' m hentry' hlex
      rcases entry_push_iff.1 hentry' with hentry' | ⟨hp', hk'⟩
      · have hm := h.bounded p' k' m hentry'
        omega
      · exact hbefore k' m hk' (by omega)

theorem explore_ordered {bytes : List Byte} (rows : Array (Array Nat)) (census : Census limit)
    {rows' : Array (Array Nat)} {last : Census limit} (hinv : census.Inverse)
    (hpos : 1 ≤ rows.size) (hordered : Ordered bytes rows census.sets.size)
    (h : explore nfa bytes rows census = .ok (rows', last)) :
    Ordered bytes rows' last.sets.size := by
  induction rows, census using explore.induct nfa bytes with
  | case1 rows census hlt e hrow =>
      rw [explore, dif_pos hlt, hrow] at h
      cases h
  | case2 rows census hlt row grown hrow ih =>
      rw [explore, dif_pos hlt, hrow] at h
      obtain ⟨hinv', -, -⟩ := successors_spec bytes hinv hrow
      obtain ⟨hsize, hwidth, hbound, hfirst⟩ := successors_ordered bytes hinv hrow
      refine ih hinv' ?_ (hordered.push hpos hlt hsize hwidth hbound hfirst) h
      rw [Array.size_push]
      omega
  | case3 rows census hlt =>
      rw [explore, dif_neg hlt] at h
      cases h
      exact hordered

theorem ordered_first (bytes : List Byte) (initial : List Nat) :
    Ordered bytes #[Array.replicate bytes.length dead] (first limit initial).sets.size := by
  have hentry : ∀ p k m, Entry #[Array.replicate bytes.length dead] p k m →
      k < bytes.length ∧ m = dead := by
    rintro p k m ⟨row, hrow, hk⟩
    obtain rfl : p = 0 := by
      have := (Array.getElem?_eq_some_iff.1 hrow).1
      simpa using this
    obtain rfl : Array.replicate bytes.length dead = row := Option.some.inj hrow
    rw [Array.getElem?_replicate] at hk
    split at hk
    · rename_i hlt
      exact ⟨hlt, (Option.some.inj hk).symm⟩
    · cases hk
  refine ⟨fun p k m h => (hentry p k m h).1, ?_, ?_⟩
  · intro p k m h
    rw [(hentry p k m h).2]
    exact Nat.zero_lt_two
  · intro n hn hlt
    exact absurd hlt (Nat.not_lt.2 hn)

end Census

/-! ### Where states are found -/

/-- The state `q` is found from the state `p` by the byte `r`: smaller states, and smaller
bytes in the state `p`, lead to states below `q`. -/
structure FoundFrom (dfa : Dfa) (q p : Nat) (r : Byte) : Prop where
  pos : 1 ≤ p
  lt : p < q
  next_eq : dfa.next p r = q
  next_lt : ∀ p' b, p' < p ∨ p' = p ∧ b < r → dfa.next p' b < q

/-- A step to `q` or to a later state does not come before the one from which `q` was
found. -/
theorem FoundFrom.le {dfa : Dfa} {q p p' : Nat} {r b : Byte} (h : dfa.FoundFrom q p r)
    (hq : q ≤ dfa.next p' b) : p < p' ∨ p = p' ∧ r ≤ b := by
  by_contra hbefore
  have hlex : p' < p ∨ p' = p ∧ b < r := by
    rw [not_or, not_and, UInt8.not_le] at hbefore
    rcases Nat.lt_or_eq_of_le (Nat.not_lt.1 hbefore.1) with hlt | heq
    · exact .inl hlt
    · exact .inr ⟨heq, hbefore.2 heq.symm⟩
  have hlt := h.next_lt p' b hlex
  omega

section Table

variable {classes : ByteClasses} {subsets : Array (List Nat)} {rows : Array (Array Nat)}
  {accepted : Array (List Nat)} {p : Nat} {b : Byte}

theorem next_of_entry {m : Nat} (h : Census.Entry rows p (classes.number b) m) :
    next ⟨classes, subsets, rows, accepted⟩ p b = m := by
  obtain ⟨row, hrow, hm⟩ := h
  simp [next, Array.getD_eq_getD_getElem?, hrow, hm]

/-- A step is an entry of the table, unless it leads to the dead state. -/
theorem next_eq_dead_or_entry :
    next ⟨classes, subsets, rows, accepted⟩ p b = dead ∨
      Census.Entry rows p (classes.number b) (next ⟨classes, subsets, rows, accepted⟩ p b) := by
  cases hrow : rows[p]? with
  | none =>
      left
      simp [next, Array.getD_eq_getD_getElem?, hrow]
  | some row =>
      cases hm : row[classes.number b]? with
      | none =>
          left
          simp [next, Array.getD_eq_getD_getElem?, hrow, hm]
      | some m =>
          have hentry : Census.Entry rows p (classes.number b) m := ⟨row, hrow, hm⟩
          rw [next_of_entry hentry]
          exact .inr hentry

end Table

section Construction

variable {nfa : Nfa} {limit : Nat} {dfa : Dfa}

theorem exists_foundFrom (hne : nfa.initial ≠ []) (h : ofNfa nfa limit = .ok dfa) {q : Nat}
    (hq : 2 ≤ q) (hlt : q < dfa.stateCount) : ∃ p r, dfa.FoundFrom q p r := by
  have hclasses := ByteClasses.canonical_ofSets nfa.byteSets.eraseDups
  obtain ⟨rows, census, hexplore, rfl⟩ := exists_explore_of_ofNfa h
  generalize ByteClasses.ofSets nfa.byteSets.eraseDups = classes at hclasses hexplore hlt ⊢
  have hordered := Census.explore_ordered _ _ (Census.inverse_first hne) (by simp)
    (Census.ordered_first classes.representatives nfa.initial) hexplore
  obtain ⟨p, k, hp, hpq, hentry, hbefore⟩ := hordered.first q hq hlt
  obtain ⟨r, hr⟩ : ∃ r, classes.representatives[k]? = some r :=
    ⟨_, List.getElem?_eq_getElem (hordered.width p k q hentry)⟩
  rw [← hclasses.number_eq hr] at hentry
  refine ⟨p, r, hp, hpq, next_of_entry hentry, ?_⟩
  intro p' b hlex
  rcases next_eq_dead_or_entry with hdead | hentry'
  · rw [hdead]
    exact Nat.lt_of_lt_of_le Nat.zero_lt_two hq
  · apply hbefore _ _ _ hentry'
    exact hlex.imp_right fun hb => ⟨hb.1, hclasses.number_lt_of_lt hr hb.2⟩

end Construction

/-! ### Words along first entries -/

/-- The word leads from the start to each state on the way as that was found. -/
inductive Discovers (dfa : Dfa) : List Byte → Nat → Prop
  | here : Discovers dfa [] start
  | found {w : List Byte} {p q : Nat} {r : Byte} (hw : Discovers dfa w p)
      (hfound : dfa.FoundFrom q p r) : Discovers dfa (w ++ [r]) q

section Words

variable {dfa : Dfa} {u v w : List Byte} {a b : Byte} {p q : Nat}

theorem shortlex_trans (huv : List.Shortlex (· < ·) u v) (hvw : List.Shortlex (· < ·) v w) :
    List.Shortlex (· < ·) u w := by
  rw [List.shortlex_def] at huv hvw ⊢
  rcases huv with hlt | ⟨heq, hlex⟩
  · rcases hvw with hlt' | ⟨heq', -⟩
    · exact .inl (Nat.lt_trans hlt hlt')
    · exact .inl (heq' ▸ hlt)
  · rcases hvw with hlt' | ⟨heq', hlex'⟩
    · exact .inl (heq ▸ hlt')
    · exact .inr ⟨heq.trans heq', List.lex_trans UInt8.lt_trans hlex hlex'⟩

/-- Words of one length that differ do so whatever follows them. -/
theorem lex_concat (heq : u.length = v.length) (hlex : List.Lex (· < ·) u v) (a b : Byte) :
    List.Lex (· < ·) (u ++ [a]) (v ++ [b]) := by
  induction hlex with
  | nil =>
      cases heq
  | rel hlt =>
      exact .rel hlt
  | cons _ ih =>
      exact .cons (ih (Nat.succ.inj heq))

theorem shortlex_concat (h : List.Shortlex (· < ·) u v) (a b : Byte) :
    List.Shortlex (· < ·) (u ++ [a]) (v ++ [b]) := by
  rcases List.shortlex_def.1 h with hlt | ⟨heq, hlex⟩
  · apply List.Shortlex.of_length_lt
    simpa using hlt
  · exact .of_lex (by simpa using heq) (lex_concat heq hlex a b)

theorem shortlex_concat_of_lt (w : List Byte) (h : a < b) :
    List.Shortlex (· < ·) (w ++ [a]) (w ++ [b]) :=
  .append_left ((List.shortlex_singleton_iff a b).2 h) w

theorem shortlex_nil_concat (w : List Byte) (b : Byte) :
    List.Shortlex (· < ·) [] (w ++ [b]) :=
  .of_length_lt (by simp)

theorem FoundFrom.start_lt {r : Byte} (h : dfa.FoundFrom q p r) : start < q :=
  Nat.lt_of_le_of_lt h.pos h.lt

theorem Discovers.start_le (h : dfa.Discovers w q) : start ≤ q := by
  cases h with
  | here =>
      exact Nat.le_refl start
  | found _ hfound =>
      exact Nat.le_of_lt hfound.start_lt

theorem Discovers.after_eq (h : dfa.Discovers w q) : dfa.after w = q := by
  induction h with
  | here =>
      rfl
  | found hw hfound ih =>
      rw [after_concat, ih]
      exact hfound.next_eq

theorem Discovers.unique (hu : dfa.Discovers u q) (hv : dfa.Discovers v q) : u = v := by
  induction hu generalizing v with
  | here =>
      cases hv with
      | here =>
          rfl
      | found _ hfound =>
          exact absurd hfound.start_lt (Nat.lt_irrefl start)
  | @found w p q r hw hfound ih =>
      cases hv with
      | here =>
          exact absurd hfound.start_lt (Nat.lt_irrefl start)
      | @found w' p' _ r' hw' hfound' =>
          have hle := hfound.le (Nat.le_of_eq hfound'.next_eq.symm)
          have hle' := hfound'.le (Nat.le_of_eq hfound.next_eq.symm)
          obtain rfl : p = p' := by omega
          obtain rfl : r = r' :=
            UInt8.le_antisymm (hle.resolve_left (Nat.lt_irrefl p)).2
              (hle'.resolve_left (Nat.lt_irrefl p)).2
          rw [ih hw']

/-- A later state has a greater word. -/
theorem Discovers.shortlex (hu : dfa.Discovers u p) (hv : dfa.Discovers v q) (hpq : p < q) :
    List.Shortlex (· < ·) u v := by
  induction hv generalizing u p with
  | here =>
      exact absurd hpq (Nat.not_lt.2 hu.start_le)
  | @found w o q b hw hfound ih =>
      cases hu with
      | here =>
          exact shortlex_nil_concat w b
      | @found w' o' _ a hw' hfound' =>
          have hle : p ≤ dfa.next o b := by
            rw [hfound.next_eq]
            exact Nat.le_of_lt hpq
          rcases hfound'.le hle with hlt | ⟨rfl, hab⟩
          · exact shortlex_concat (ih hw' hlt) a b
          · obtain rfl := hw'.unique hw
            have hne : a ≠ b := by
              rintro rfl
              rw [hfound'.next_eq] at hle
              rw [← hfound'.next_eq, hfound.next_eq] at hpq
              exact Nat.lt_irrefl q hpq
            exact shortlex_concat_of_lt w' (UInt8.lt_of_le_of_ne hab hne)

/-- The word along first entries is the least one that leads to its state, if all states
have such words. -/
theorem Discovers.least (hall : ∀ v : List Byte, start ≤ dfa.after v →
      ∃ w, dfa.Discovers w (dfa.after v))
    (hu : dfa.Discovers u q) (hv : dfa.after v = q) : u = v ∨ List.Shortlex (· < ·) u v := by
  induction v using List.reverseRecOn generalizing u q with
  | nil =>
      left
      rw [← hv] at hu
      exact hu.unique .here
  | append_singleton v b ih =>
      rw [after_concat] at hv
      cases hu with
      | here =>
          exact .inr (shortlex_nil_concat v b)
      | @found w p _ r hw hfound =>
          rcases hfound.le (Nat.le_of_eq hv.symm) with hlt | ⟨rfl, hrb⟩
          · obtain ⟨w', hw'⟩ := hall v (Nat.le_trans hfound.pos (Nat.le_of_lt hlt))
            have hless := hw.shortlex hw' hlt
            rcases ih hw' rfl with rfl | hless'
            · exact .inr (shortlex_concat hless r b)
            · exact .inr (shortlex_concat (shortlex_trans hless hless') r b)
          · rcases ih hw rfl with rfl | hless
            · rcases UInt8.lt_or_eq_of_le hrb with hlt | rfl
              · exact .inr (shortlex_concat_of_lt w hlt)
              · exact .inl rfl
            · exact .inr (shortlex_concat hless r b)

end Words

/-! ### The numbering -/

/-- Of the words that lead to the state `q`, the least is `w`: shorter words come first,
and words of one length in the order of their bytes. -/
structure LeadsFirst (dfa : Dfa) (w : List Byte) (q : Nat) : Prop where
  after_eq : dfa.after w = q
  least : ∀ v, dfa.after v = q → w = v ∨ List.Shortlex (· < ·) w v

section Numbering

variable {nfa : Nfa} {limit : Nat} {dfa : Dfa}

theorem Simulates.after_lt (h : dfa.Simulates nfa) (w : List Byte) :
    dfa.after w < dfa.stateCount :=
  (Array.getElem?_eq_some_iff.1 (h.subset_after w)).1

theorem exists_discovers (hne : nfa.initial ≠ []) (h : ofNfa nfa limit = .ok dfa) (q : Nat)
    (hq : start ≤ q) (hlt : q < dfa.stateCount) : ∃ w, dfa.Discovers w q := by
  induction q using Nat.strongRecOn with
  | ind q ih =>
      rcases Nat.lt_or_eq_of_le hq with hq | rfl
      · obtain ⟨p, r, hfound⟩ := exists_foundFrom hne h hq hlt
        obtain ⟨w, hw⟩ := ih p hfound.lt hfound.pos (Nat.lt_trans hfound.lt hlt)
        exact ⟨w ++ [r], .found hw hfound⟩
      · exact ⟨[], .here⟩

theorem exists_discovers_leadsFirst (hne : nfa.initial ≠ []) (h : ofNfa nfa limit = .ok dfa)
    {q : Nat} (hq : start ≤ q) (hlt : q < dfa.stateCount) :
    ∃ w, dfa.Discovers w q ∧ dfa.LeadsFirst w q := by
  have hsimulates := simulates_ofNfa hne h
  obtain ⟨w, hw⟩ := exists_discovers hne h q hq hlt
  refine ⟨w, hw, hw.after_eq, fun v hv => hw.least ?_ hv⟩
  intro v hv
  exact exists_discovers hne h _ hv (hsimulates.after_lt v)

theorem LeadsFirst.unique {u v : List Byte} {q : Nat} (hu : dfa.LeadsFirst u q)
    (hv : dfa.LeadsFirst v q) : u = v := by
  apply (hu.least v hv.after_eq).resolve_right
  intro hlt
  rcases hv.least u hu.after_eq with heq | hlt'
  · rw [heq] at hlt
    exact Std.Asymm.asymm u u hlt hlt
  · exact Std.Asymm.asymm u v hlt hlt'

end Numbering

/-- **States are numbered in the order of their least words.**  Every state but the dead
one is reached, and the least word to a state comes before that to a later one. -/
theorem ofNfa_numbering (rules : List Pattern) (limit : Nat) (dfa : Dfa)
    (h : ofNfa (Nfa.ofPatterns rules) limit = .ok dfa) :
    (∀ q, 1 ≤ q → q < dfa.stateCount → ∃ w, dfa.LeadsFirst w q) ∧
    ∀ p q u v, 1 ≤ p → p < q → q < dfa.stateCount → dfa.LeadsFirst u p → dfa.LeadsFirst v q →
      List.Shortlex (· < ·) u v := by
  have hne := Nfa.initial_ofPatterns_ne_nil rules
  constructor
  · intro q hq hlt
    obtain ⟨w, -, hw⟩ := exists_discovers_leadsFirst hne h hq hlt
    exact ⟨w, hw⟩
  · intro p q u v hp hpq hlt hu hv
    obtain ⟨u', hu', hfirst⟩ := exists_discovers_leadsFirst hne h hp (Nat.lt_trans hpq hlt)
    obtain ⟨v', hv', hfirst'⟩ :=
      exists_discovers_leadsFirst hne h (Nat.le_trans hp (Nat.le_of_lt hpq)) hlt
    rw [hu.unique hfirst, hv.unique hfirst']
    exact hu'.shortlex hv' hpq

theorem ofNfa_numbering_letter :
    ∃ dfa v, ofNfa (Nfa.ofPatterns [.literal [97]]) 10000 = .ok dfa ∧ 2 < dfa.stateCount ∧
      dfa.LeadsFirst [] 1 ∧ dfa.LeadsFirst v 2 ∧ List.Shortlex (· < ·) [] v := by
  obtain ⟨dfa, hdfa⟩ := exists_ofNfa_letter
  have hsimulates := simulates_ofNfa (Nfa.initial_ofPatterns_ne_nil [.literal [97]]) hdfa
  have hinitial : (Nfa.ofPatterns [.literal [97]]).initial = [1, 2] := by cbv
  have hwalk : (Nfa.ofPatterns [.literal [97]]).walk [97] = [0] := by cbv
  have hsubset := hsimulates.subset_after [97]
  have hnotdead : dfa.after [97] ≠ 0 := by
    intro h
    have hdead := hsimulates.dead_eq
    rw [dead, ← h, hsubset, hwalk] at hdead
    cases hdead
  have hnotstart : dfa.after [97] ≠ 1 := by
    intro h
    have hstart := hsimulates.start_eq
    rw [start, ← h, hsubset, hwalk, hinitial] at hstart
    cases hstart
  have hlt := hsimulates.after_lt [97]
  have hcount : 2 < dfa.stateCount := by omega
  have hfirst : dfa.LeadsFirst [] 1 := by
    refine ⟨rfl, fun v _ => ?_⟩
    cases v with
    | nil =>
        exact .inl rfl
    | cons b v =>
        exact .inr (List.Shortlex.of_length_lt (Nat.succ_pos v.length))
  have hnumbering := ofNfa_numbering [.literal [97]] 10000 dfa hdfa
  obtain ⟨v, hv⟩ := hnumbering.1 2 (by decide) hcount
  exact ⟨dfa, v, hdfa, hcount, hfirst, hv,
    hnumbering.2 1 2 [] v (by decide) (by decide) hcount hfirst hv⟩

end Dfa
end Munch
