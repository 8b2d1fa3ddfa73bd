import Mathlib.Data.List.Induction
import Munch.Dfa
import Munch.Proofs.ByteClasses
import Munch.Proofs.Inverse
import Munch.Proofs.Nfa.Closure

/-!
# The table of a deterministic automaton

Numbering a set looks it up in a map and appends it to an array if it is new; the
two are inverse to each other.  While the rows of the table are filled, sets are
only appended, so what a row says stays true.

**Invariant.**  `Census.Inverse` for the numbers given out, and `Census.Filled` for
the rows present: the entry of a row under a class is the number of the set that
the row's set steps to under the least byte of the class.

**Results.**
* `intern_spec`, `successors_spec`, `explore_spec`: what each part of the
  construction does to the census.
* `simulates_ofNfa`: each state of the table stands for one set of states of the
  given automaton, and moves and accepts as that set does.
* `Simulates.subset_after`: the set for which the state behind a word stands.
-/

namespace Munch
namespace Dfa
namespace Census

variable {limit : Nat} {nfa : Nfa}

/-- The map and the array of a census are inverse to each other. -/
def Inverse (census : Census limit) : Prop :=
  ∀ (set : List Nat) (n : Nat), census.number[set]? = some n ↔ census.sets[n]? = some set

/-- The later census has all sets of the earlier, under the same numbers. -/
def Grows (census later : Census limit) : Prop :=
  ∀ (n : Nat) (set : List Nat), census.sets[n]? = some set → later.sets[n]? = some set

theorem Grows.refl (census : Census limit) : census.Grows census :=
  fun _ _ h => h

theorem Grows.trans {a b c : Census limit} (hab : a.Grows b) (hbc : b.Grows c) : a.Grows c :=
  fun n set h => hbc n set (hab n set h)

theorem Inverse.number_unique {census : Census limit} (h : census.Inverse) {set : List Nat}
    {m n : Nat} (hm : census.sets[m]? = some set) (hn : census.sets[n]? = some set) : m = n := by
  rw [← h set m] at hm
  rw [← h set n, hm] at hn
  exact Option.some.inj hn

/-- The two numbers given out at first differ, as the start is not the empty set. -/
theorem inverse_first {initial : List Nat} (hne : initial ≠ []) :
    (first limit initial).Inverse := by
  intro set n
  simp only [first, Std.HashMap.getElem?_insert, Std.HashMap.getElem?_empty]
  by_cases hinitial : initial = set
  · subst hinitial
    match n with
    | 0 => simp [start, Ne.symm hne]
    | 1 => simp [start]
    | n + 2 => simp [start]
  · by_cases hempty : set = []
    · subst hempty
      match n with
      | 0 => simp [dead, hinitial]
      | 1 => simp [dead, hinitial]
      | n + 2 => simp [dead, hinitial]
    · match n with
      | 0 => simp [hinitial, hempty, Ne.symm hempty]
      | 1 => simp [hinitial, hempty]
      | n + 2 => simp [hinitial, hempty]

/-- A set that has been given a number is found under it. -/
theorem intern_spec {census grown : Census limit} {set : List Nat} {n : Nat}
    (hinv : census.Inverse) (h : census.intern set = .ok (n, grown)) :
    grown.Inverse ∧ census.Grows grown ∧ grown.sets[n]? = some set := by
  unfold intern at h
  split at h
  · rename_i m hm
    cases h
    exact ⟨hinv, .refl census, (hinv set n).1 hm⟩
  · rename_i hnew
    split at h
    · cases h
      have hgrows : ∀ (m : Nat) (s : List Nat), census.sets[m]? = some s →
          (census.sets.push set)[m]? = some s :=
        fun m s hm => getElem?_push_eq_some_iff.2 (.inl hm)
      exact ⟨getElem?_insert_iff_push Function.injective_id hinv rfl hnew, hgrows,
        Array.getElem?_push_size⟩
    · cases h

theorem successors_spec {set : List Nat} (bytes : List Byte) {census last : Census limit}
    {row : List Nat} (hinv : census.Inverse)
    (h : successors nfa set bytes census = .ok (row, last)) :
    last.Inverse ∧ census.Grows last ∧
    ∀ (k : Nat) (b : Byte), bytes[k]? = some b →
      ∃ n : Nat, row[k]? = some n ∧ last.sets[n]? = some (nfa.step set b) := by
  induction bytes generalizing census row with
  | nil =>
      rw [successors] at h
      cases h
      exact ⟨hinv, .refl _, by simp⟩
  | cons c bytes ih =>
      rw [successors] at h
      split at h
      · cases h
      · rename_i n grown hintern
        obtain ⟨hinv', hgrows, hn⟩ := intern_spec hinv hintern
        split at h
        · cases h
        · rename_i others last' hothers
          cases h
          obtain ⟨hlast, hgrows', hrow⟩ := ih hinv' hothers
          refine ⟨hlast, hgrows.trans hgrows', ?_⟩
          intro k b hk
          cases k with
          | zero =>
              cases hk
              exact ⟨n, rfl, hgrows' n _ hn⟩
          | succ k =>
              exact hrow k b hk

/-- Each row has the numbers of the sets that its set steps to under the bytes. -/
def Filled (nfa : Nfa) (bytes : List Byte) (rows : Array (Array Nat)) (census : Census limit) :
    Prop :=
  ∀ (q : Nat) (row : Array Nat), rows[q]? = some row → ∃ set, census.sets[q]? = some set ∧
    ∀ (k : Nat) (b : Byte), bytes[k]? = some b →
      ∃ n : Nat, row[k]? = some n ∧ census.sets[n]? = some (nfa.step set b)

theorem Filled.grows {bytes : List Byte} {rows : Array (Array Nat)} {census later : Census limit}
    (h : Filled nfa bytes rows census) (hgrows : census.Grows later) :
    Filled nfa bytes rows later := by
  intro q row hq
  obtain ⟨set, hset, hrow⟩ := h q row hq
  refine ⟨set, hgrows q set hset, ?_⟩
  intro k b hk
  obtain ⟨n, hn, hstep⟩ := hrow k b hk
  exact ⟨n, hn, hgrows n _ hstep⟩

theorem Filled.push {bytes : List Byte} {rows : Array (Array Nat)} {census : Census limit}
    {set row : List Nat} (h : Filled nfa bytes rows census)
    (hset : census.sets[rows.size]? = some set)
    (hrow : ∀ (k : Nat) (b : Byte), bytes[k]? = some b →
      ∃ n : Nat, row[k]? = some n ∧ census.sets[n]? = some (nfa.step set b)) :
    Filled nfa bytes (rows.push row.toArray) census := by
  intro q r hq
  rw [Array.getElem?_push] at hq
  split at hq
  · rename_i heq
    cases hq
    subst heq
    refine ⟨set, hset, ?_⟩
    intro k b hk
    obtain ⟨n, hn, hstep⟩ := hrow k b hk
    exact ⟨n, by simpa using hn, hstep⟩
  · exact h q r hq

/-- The exploration ends with a row for each set. -/
theorem explore_spec {bytes : List Byte} (rows : Array (Array Nat)) (census : Census limit)
    {rows' : Array (Array Nat)} {last : Census limit}
    (hinv : census.Inverse) (hfilled : Filled nfa bytes rows census)
    (h : explore nfa bytes rows census = .ok (rows', last)) :
    last.Inverse ∧ census.Grows last ∧ Filled nfa bytes rows' last ∧
      last.sets.size ≤ rows'.size := by
  induction rows, census using explore.induct nfa bytes with
  | case1 rows census hlt e hrow =>
      rw [explore, dif_pos hlt, hrow] at h
      cases h
  | case2 rows census hlt row grown hrow ih =>
      rw [explore, dif_pos hlt, hrow] at h
      obtain ⟨hinv', hgrows, hentries⟩ := successors_spec bytes hinv hrow
      have hset := hgrows rows.size _ (Array.getElem?_eq_getElem hlt)
      obtain ⟨hlast, hgrows', hdone⟩ :=
        ih hinv' ((hfilled.grows hgrows).push hset hentries) h
      exact ⟨hlast, hgrows.trans hgrows', hdone⟩
  | case3 rows census hlt =>
      rw [explore, dif_neg hlt] at h
      cases h
      exact ⟨hinv, .refl _, hfilled, Nat.le_of_not_lt hlt⟩

end Census

/-- Each state stands for one set of states of `nfa`, and behaves as that set. -/
structure Simulates (dfa : Dfa) (nfa : Nfa) : Prop where
  dead_eq : dfa.subsets[dead]? = some []
  start_eq : dfa.subsets[start]? = some nfa.initial
  distinct : ∀ {p q : Nat} {set : List Nat}, dfa.subsets[p]? = some set →
    dfa.subsets[q]? = some set → p = q
  next_eq : ∀ {q : Nat} {set : List Nat} (b : Byte), dfa.subsets[q]? = some set →
    dfa.subsets[dfa.next q b]? = some (nfa.step set b)
  accepts_eq : ∀ {q : Nat} {set : List Nat}, dfa.subsets[q]? = some set →
    dfa.accepts q = nfa.accepts set

/-- The state to which a word leads. -/
def after (dfa : Dfa) (w : List Byte) : Nat := w.foldl dfa.next start

theorem after_concat (dfa : Dfa) (w : List Byte) (b : Byte) :
    dfa.after (w ++ [b]) = dfa.next (dfa.after w) b := by
  rw [after, List.foldl_append]
  rfl

theorem Simulates.subset_after {dfa : Dfa} {nfa : Nfa} (h : dfa.Simulates nfa) (w : List Byte) :
    dfa.subsets[dfa.after w]? = some (nfa.walk w) := by
  induction w using List.reverseRecOn with
  | nil =>
      exact h.start_eq
  | append_singleton w b ih =>
      rw [after_concat, nfa.walk_concat]
      exact h.next_eq b ih

/-- Bytes of one class lead a set of states to the same set. -/
theorem step_eq_of_agree {nfa : Nfa} {a b : Byte}
    (h : ByteClasses.agree nfa.byteSets.eraseDups a b = true) (set : List Nat) :
    nfa.step set a = nfa.step set b := by
  have hafter : ∀ id : Nat, nfa.states[id]?.bind (Nfa.State.after? a) =
      nfa.states[id]?.bind (Nfa.State.after? b) := by
    intro id
    cases hstate : nfa.states[id]? with
    | none =>
        rfl
    | some state =>
        cases state with
        | bytes s next =>
            have hmem : s ∈ nfa.byteSets.eraseDups := by
              rw [List.mem_eraseDups, Nfa.byteSets, List.mem_filterMap]
              exact ⟨.bytes s next, Array.mem_toList_iff.2 (Array.mem_of_getElem? hstate), rfl⟩
            have hagree := ByteClasses.agree_iff.1 h s hmem
            simp [Nfa.State.after?, hagree]
        | split targets =>
            rfl
        | accept rule =>
            rfl
  simp only [Nfa.step, Nfa.targets, hafter]

/-- The row of the dead state, which steps to itself. -/
theorem filled_dead {limit : Nat} {nfa : Nfa} (bytes : List Byte) (initial : List Nat) :
    Census.Filled nfa bytes #[Array.replicate bytes.length dead] (Census.first limit initial) := by
  intro q row hq
  have hq0 : q = 0 := by
    have := (Array.getElem?_eq_some_iff.1 hq).1
    simpa using this
  subst hq0
  cases hq
  refine ⟨[], rfl, ?_⟩
  intro k b hk
  have hlt := (List.getElem?_eq_some_iff.1 hk).1
  refine ⟨dead, ?_, ?_⟩
  · show (Array.replicate bytes.length dead)[k]? = some dead
    rw [Array.getElem?_replicate, if_pos hlt]
  · rw [Nfa.step_nil]
    rfl

/-- What a successful construction is made of. -/
theorem exists_explore_of_ofNfa {nfa : Nfa} {limit : Nat} {dfa : Dfa}
    (h : ofNfa nfa limit = .ok dfa) :
    ∃ (rows : Array (Array Nat)) (census : Census limit),
      (Census.first limit nfa.initial).explore nfa
          (ByteClasses.ofSets nfa.byteSets.eraseDups).representatives
          #[Array.replicate (ByteClasses.ofSets nfa.byteSets.eraseDups).representatives.length
            dead] = .ok (rows, census) ∧
      dfa = ⟨ByteClasses.ofSets nfa.byteSets.eraseDups, census.sets, rows,
        census.sets.map nfa.accepts⟩ := by
  unfold ofNfa ByteClasses.count at h
  generalize ByteClasses.ofSets nfa.byteSets.eraseDups = classes at h ⊢
  dsimp only at h
  split at h
  · cases h
  · rename_i rows census hexplore
    cases h
    exact ⟨rows, census, hexplore, rfl⟩

theorem simulates_ofNfa {nfa : Nfa} {limit : Nat} {dfa : Dfa} (hne : nfa.initial ≠ [])
    (h : ofNfa nfa limit = .ok dfa) : dfa.Simulates nfa := by
  have hrepresentative := ByteClasses.exists_representative nfa.byteSets.eraseDups
  obtain ⟨rows, census, hexplore, rfl⟩ := exists_explore_of_ofNfa h
  generalize ByteClasses.ofSets nfa.byteSets.eraseDups = classes at hrepresentative hexplore ⊢
  obtain ⟨hinv, hgrows, hfilled, hrows⟩ := Census.explore_spec _ _
    (Census.inverse_first hne) (filled_dead classes.representatives nfa.initial) hexplore
  refine ⟨hgrows dead [] rfl, hgrows start nfa.initial rfl, ?_, ?_, ?_⟩
  · intro p q set hp hq
    exact hinv.number_unique hp hq
  · intro q set b hq
    obtain ⟨hlt, -⟩ := Array.getElem?_eq_some_iff.1 hq
    have hrow : rows[q]? = some rows[q] :=
      Array.getElem?_eq_getElem (Nat.lt_of_lt_of_le hlt hrows)
    obtain ⟨set', hset', hentries⟩ := hfilled q _ hrow
    obtain rfl : set' = set := Option.some.inj (hset'.symm.trans hq)
    obtain ⟨r, hr, hagree⟩ := hrepresentative b
    obtain ⟨n, hn, hstep⟩ := hentries _ r hr
    have hnext : next ⟨classes, census.sets, rows, census.sets.map nfa.accepts⟩ q b = n := by
      simp [next, Array.getD_eq_getD_getElem?, hrow, hn]
    rw [hnext, step_eq_of_agree hagree]
    exact hstep
  · intro q set hq
    have hset : census.sets[q]? = some set := hq
    simp [Dfa.accepts, Array.getD_eq_getD_getElem?, hset]

end Dfa
end Munch
