import Munch.Proofs.Nfa.Recognition
import Munch.Proofs.Pattern.Viable

/-!
# Which words keep an automaton alive

A simulation is alive as long as some run has read the whole word, wherever it has come
to.  For a fragment, such a run has either stayed inside, or left after a word of the
language and gone on behind.  Descriptions of where runs can stay compose like those of
where they leave, and for the fragment of a pattern they amount to `Pattern.viable`.

**Invariant.**  No entry of a fragment lies outside an array that holds the fragment and
the state behind it, so runs that have come to an end have come to a state that exists.

**Results.**
* `Passage.append`, `Passage.union`, `Passage.split`, `Admits.loop`, `passage_optional`:
  the operations that the constructions carry out.
* `admits_ofPattern`: the fragment of a pattern admits the viable words.
* `walk_ne_nil_iff`, `isSome_after_ofPatterns_iff`: the words that keep the automaton of
  some rules alive.
-/

namespace Munch
namespace Nfa

/-- The words made of some copies of words of `L`, in a number that `count` admits, and
of the beginning of a further copy. -/
def Underway (L V : List Byte → Prop) (count : Nat → Prop) (w : List Byte) : Prop :=
  w = [] ∨ ∃ (copies : List (List Byte)) (v : List Byte), copies.flatten ++ v = w ∧
    (∀ u ∈ copies, L u) ∧ V v ∧ count copies.length

/-- A block in which runs from the entries can stay while they read a word of `V`, and
which they leave after a word of `L` if they read anything else. -/
structure Passage (states : Array State) (entry : Nat → Prop) (next : Nat)
    (L V : List Byte → Prop) (result : Array State) : Prop
    extends Block states entry next L result where
  entry_lt : ∀ {whole : Array State} {e : Nat},
    Holds states.size result whole → next < whole.size → entry e → e < whole.size
  stay : ∀ {whole : Array State} {w : List Byte},
    Holds states.size result whole → next < whole.size → V w →
    ∃ e, entry e ∧ ∃ t < whole.size, Reaches whole e w t
  depart : ∀ {whole : Array State} {n e t : Nat} {w : List Byte},
    Holds states.size result whole → entry e → Run whole n e w t →
    V w ∨ ∃ u v m, w = u ++ v ∧ m ≤ n ∧ L u ∧ Run whole m next v t

namespace Passage

variable {states mid result : Array State} {entry entry₁ entry₂ : Nat → Prop}
  {next e : Nat} {L L₁ L₂ V V₁ V₂ : List Byte → Prop}

theorem congr (h : Passage states entry next L₁ V₁ result) (hL : ∀ w, L₁ w ↔ L₂ w)
    (hV : ∀ w, V₁ w ↔ V₂ w) : Passage states entry next L₂ V₂ result where
  toBlock := h.toBlock.congr hL
  entry_lt := h.entry_lt
  stay hwhole hnext hw := h.stay hwhole hnext ((hV _).2 hw)
  depart hwhole he hrun := by
    rcases h.depart hwhole he hrun with hw | ⟨u, v, m, hsplit, hm, hu, hrest⟩
    · exact .inl ((hV _).1 hw)
    · exact .inr ⟨u, v, m, hsplit, hm, (hL u).1 hu, hrest⟩

theorem nil (states : Array State) (next : Nat) :
    Passage states (· = next) next (· = []) (· = []) states where
  toBlock := .nil states next
  entry_lt := by
    rintro whole e - hnext rfl
    exact hnext
  stay := by
    rintro whole w - hnext rfl
    exact ⟨next, rfl, next, hnext, .refl next⟩
  depart := by
    rintro whole n e t w - rfl hrun
    exact .inr ⟨[], w, n, rfl, Nat.le_refl n, rfl, hrun⟩

/-- One passage in front of another. -/
theorem append (h₂ : Passage states (· = e) next L₂ V₂ mid)
    (h₁ : Passage mid entry e L₁ V₁ result) :
    Passage states entry next (fun w => ∃ u v, u ++ v = w ∧ L₁ u ∧ L₂ v)
      (fun w => V₁ w ∨ ∃ u v, u ++ v = w ∧ L₁ u ∧ V₂ v) result where
  toBlock := h₂.toBlock.append h₁.toBlock
  entry_lt hwhole hnext he :=
    h₁.entry_lt (hwhole.above h₂.size_le)
      (h₂.entry_lt (hwhole.before h₁.size_le h₁.kept) hnext rfl) he
  stay := by
    intro whole w hwhole hnext hw
    have hwhole₁ : Holds mid.size result whole := hwhole.above h₂.size_le
    have hwhole₂ : Holds states.size mid whole := hwhole.before h₁.size_le h₁.kept
    rcases hw with hw | ⟨u, v, rfl, hu, hv⟩
    · exact h₁.stay hwhole₁ (h₂.entry_lt hwhole₂ hnext rfl) hw
    · obtain ⟨e', rfl, t, ht, hreach⟩ := h₂.stay hwhole₂ hnext hv
      obtain ⟨e₁, he₁, hreach₁⟩ := h₁.enter hwhole₁ hu hreach
      exact ⟨e₁, he₁, t, ht, hreach₁⟩
  depart := by
    intro whole n e₁ t w hwhole he₁ hrun
    rcases h₁.depart (hwhole.above h₂.size_le) he₁ hrun with
      hw | ⟨u₁, v₁, m₁, rfl, hm₁, hu₁, hmid⟩
    · exact .inl (.inl hw)
    · rcases h₂.depart (hwhole.before h₁.size_le h₁.kept) rfl hmid with
        hv | ⟨u₂, v, m, rfl, hm, hu₂, hrest⟩
      · exact .inl (.inr ⟨u₁, v₁, rfl, hu₁, hv⟩)
      · exact .inr ⟨u₁ ++ u₂, v, m, (List.append_assoc _ _ _).symm, Nat.le_trans hm hm₁,
          ⟨u₁, u₂, rfl, hu₁, hu₂⟩, hrest⟩

/-- Two passages beside each other, both in front of `next`. -/
theorem union (h₁ : Passage states entry₁ next L₁ V₁ mid)
    (h₂ : Passage mid entry₂ next L₂ V₂ result) :
    Passage states (fun e => entry₁ e ∨ entry₂ e) next (fun w => L₁ w ∨ L₂ w)
      (fun w => V₁ w ∨ V₂ w) result where
  toBlock := h₁.toBlock.union h₂.toBlock
  entry_lt hwhole hnext he := he.elim
    (h₁.entry_lt (hwhole.before h₂.size_le h₂.kept) hnext)
    (h₂.entry_lt (hwhole.above h₁.size_le) hnext)
  stay := by
    rintro whole w hwhole hnext (hw | hw)
    · obtain ⟨e, he, hreach⟩ := h₁.stay (hwhole.before h₂.size_le h₂.kept) hnext hw
      exact ⟨e, .inl he, hreach⟩
    · obtain ⟨e, he, hreach⟩ := h₂.stay (hwhole.above h₁.size_le) hnext hw
      exact ⟨e, .inr he, hreach⟩
  depart := by
    rintro whole n e t w hwhole (he | he) hrun
    · rcases h₁.depart (hwhole.before h₂.size_le h₂.kept) he hrun with
        hw | ⟨u, v, m, hsplit, hm, hu, hrest⟩
      · exact .inl (.inl hw)
      · exact .inr ⟨u, v, m, hsplit, hm, .inl hu, hrest⟩
    · rcases h₂.depart (hwhole.above h₁.size_le) he hrun with
        hw | ⟨u, v, m, hsplit, hm, hu, hrest⟩
      · exact .inl (.inr hw)
      · exact .inr ⟨u, v, m, hsplit, hm, .inr hu, hrest⟩

/-- A split in front of all entries of a passage, where a run may stay as well. -/
theorem split {entries : List Nat} (h : Passage states (· ∈ entries) next L V result) :
    Passage states (· = result.size) next L (fun w => w = [] ∨ V w)
      (result.push (.split entries)) where
  toBlock := h.toBlock.split
  entry_lt := by
    rintro whole e hwhole - rfl
    exact (Array.getElem?_eq_some_iff.1 (hwhole.top h.size_le)).1
  stay := by
    rintro whole w hwhole hnext (rfl | hw)
    · exact ⟨_, rfl, _, (Array.getElem?_eq_some_iff.1 (hwhole.top h.size_le)).1, .refl _⟩
    · obtain ⟨e, he, t, ht, hreach⟩ := h.stay hwhole.of_push hnext hw
      exact ⟨_, rfl, t, ht, .silent ⟨entries, hwhole.top h.size_le, he⟩ hreach⟩
  depart := by
    rintro whole n e t w hwhole rfl hrun
    rcases hrun.cases_split (hwhole.top h.size_le) with ⟨rfl, -⟩ | ⟨e, he, m, rfl, hrest⟩
    · exact .inl (.inl rfl)
    · rcases h.depart hwhole.of_push he hrest with hw | ⟨u, v, k, hsplit, hk, hu, hexit⟩
      · exact .inl (.inr hw)
      · exact .inr ⟨u, v, k, hsplit, Nat.le_succ_of_le hk, hu, hexit⟩

/-- A passage that may be left out. -/
theorem orSkip (h : Passage states (· = e) next L V result) :
    Passage states (· ∈ [e, next]) next (fun w => L w ∨ w = []) (fun w => V w ∨ w = [])
      result := by
  have hboth := h.union (nil result next)
  have hentry : (fun x => x = e ∨ x = next) = (· ∈ [e, next]) := by
    funext x
    simp
  rwa [hentry] at hboth

/-- The runs through a passage to an accepting state. -/
theorem reaches_iff (h : Passage states (· = e) next L V result) (hLV : ∀ w, L w → V w)
    {whole : Array State} (hwhole : Holds states.size result whole) {rule : Nat}
    (hnext : Accepting whole next rule) {w : List Byte} :
    (∃ t < whole.size, Reaches whole e w t) ↔ V w := by
  constructor
  · rintro ⟨t, -, n, hrun⟩
    rcases h.depart hwhole rfl hrun with hw | ⟨u, v, m, rfl, -, hu, hrest⟩
    · exact hw
    · obtain ⟨-, rfl⟩ := hrest.of_accept hnext
      rw [List.append_nil]
      exact hLV u hu
  · intro hw
    obtain ⟨_, rfl, hreach⟩ := h.stay hwhole hnext.lt_size hw
    exact hreach

end Passage

/-- The fragment reads the language and lets runs stay with the words of `V`, wherever it
is built. -/
def Admits (f : Fragment) (L V : List Byte → Prop) : Prop :=
  ∀ next states, Passage states (· = (f next states).1) next L V (f next states).2

section Combinators

variable {body first second : Fragment} {L L₁ L₂ V V₁ V₂ : List Byte → Prop}

theorem admits_oneOf (set : ByteSet) :
    Admits (Fragment.oneOf set) (fun w => ∃ b, set.contains b = true ∧ w = [b])
      (fun w => w = [] ∨ ∃ b, set.contains b = true ∧ w = [b]) := by
  intro next states
  have hstate : ∀ {whole : Array State}, Holds states.size (states.push (.bytes set next)) whole →
      whole[states.size]? = some (.bytes set next) :=
    fun hwhole => hwhole.top (Nat.le_refl _)
  refine ⟨recognizes_oneOf set next states, ?_, ?_, ?_⟩
  · rintro whole e hwhole - rfl
    exact (Array.getElem?_eq_some_iff.1 (hstate hwhole)).1
  · rintro whole w hwhole hnext (rfl | ⟨b, hb, rfl⟩)
    · exact ⟨_, rfl, _, (Array.getElem?_eq_some_iff.1 (hstate hwhole)).1, .refl _⟩
    · exact ⟨_, rfl, next, hnext, .read ⟨set, hstate hwhole, hb⟩ (.refl next)⟩
  · rintro whole n e t w hwhole rfl hrun
    rcases hrun.cases_bytes (hstate hwhole) with ⟨rfl, -⟩ | ⟨b, v, m, rfl, hb, rfl, hrest⟩
    · exact .inl (.inl rfl)
    · exact .inr ⟨[b], v, m, rfl, Nat.le_succ m, ⟨b, hb, rfl⟩, hrest⟩

theorem Admits.followedBy (h₁ : Admits first L₁ V₁) (h₂ : Admits second L₂ V₂) :
    Admits (first.followedBy second) (fun w => ∃ u v, u ++ v = w ∧ L₁ u ∧ L₂ v)
      (fun w => V₁ w ∨ ∃ u v, u ++ v = w ∧ L₁ u ∧ V₂ v) :=
  fun next states => (h₂ next states).append (h₁ _ _)

theorem underway_zero_iff {w : List Byte} : Underway L V (· < 0) w ↔ w = [] := by
  simp [Underway]

/-- Copies under way, of which the last that may be begun is apart. -/
theorem underway_lt_succ_iff {n : Nat} {w : List Byte} :
    (Underway L V (· < n) w ∨ ∃ u v, u ++ v = w ∧ Copies L (· = n) u ∧ V v) ↔
      Underway L V (· < n + 1) w := by
  constructor
  · rintro ((rfl | ⟨copies, v, rfl, hall, hv, hlt⟩) | ⟨u, v, rfl, ⟨copies, rfl, hall, hn⟩, hv⟩)
    · exact .inl rfl
    · exact .inr ⟨copies, v, rfl, hall, hv, by omega⟩
    · exact .inr ⟨copies, v, rfl, hall, hv, by omega⟩
  · rintro (rfl | ⟨copies, v, rfl, hall, hv, hlt⟩)
    · exact .inl (.inl rfl)
    · rcases Nat.lt_succ_iff_lt_or_eq.1 hlt with hlt | heq
      · exact .inl (.inr ⟨copies, v, rfl, hall, hv, hlt⟩)
      · exact .inr ⟨_, v, rfl, ⟨copies, rfl, hall, heq⟩, hv⟩

theorem Admits.times (h : Admits body L V) (n : Nat) :
    Admits (body.times n) (Copies L (· = n)) (Underway L V (· < n)) := by
  induction n with
  | zero =>
      intro next states
      exact (Passage.nil states next).congr (fun w => copies_zero_iff.symm)
        fun w => underway_zero_iff.symm
  | succ n ih =>
      intro next states
      exact ((h next states).append (ih _ _)).congr (fun w => copies_succ_iff.symm)
        fun w => underway_lt_succ_iff

/-- The first copy is begun, or read and others are under way behind it. -/
theorem underway_cons_iff (hLV : ∀ w, L w → V w) (count count' : Nat → Prop)
    (hzero : count' 0) (hsucc : ∀ k, count' (k + 1) ↔ count k) {w : List Byte} :
    (w = [] ∨ (V w ∨ ∃ u v, u ++ v = w ∧ L u ∧ Underway L V count v) ∨ w = []) ↔
      Underway L V count' w := by
  constructor
  · rintro (rfl | (hw | ⟨u, v, rfl, hu, (rfl | ⟨copies, v, rfl, hall, hv, hcount⟩)⟩) | rfl)
    · exact .inl rfl
    · exact .inr ⟨[], w, rfl, by simp, hw, hzero⟩
    · exact .inr ⟨[], u, by simp, by simp, hLV u hu, hzero⟩
    · exact .inr ⟨u :: copies, v, by simp, List.forall_mem_cons.2 ⟨hu, hall⟩, hv,
        (hsucc _).2 hcount⟩
    · exact .inl rfl
  · rintro (rfl | ⟨_ | ⟨u, copies⟩, v, rfl, hall, hv, hcount⟩)
    · exact .inl rfl
    · exact .inr (.inl (.inl hv))
    · obtain ⟨hu, hall⟩ := List.forall_mem_cons.1 hall
      exact .inr (.inl (.inr ⟨u, copies.flatten ++ v, by simp, hu,
        .inr ⟨copies, v, rfl, hall, hv, (hsucc _).1 hcount⟩⟩))

/-- Optional copies in front of a passage that already admits up to `k` copies. -/
theorem passage_optional (h : Admits body L V) (hLV : ∀ w, L w → V w) (base : Array State)
    (exit : Nat) (n : Nat) :
    ∀ (k tail : Nat) (states : Array State),
      Passage base (· = tail) exit (Copies L (· ≤ k)) (Underway L V (· < k)) states →
      Passage base (· = (body.optional exit n tail states).1) exit (Copies L (· ≤ k + n))
        (Underway L V (· < k + n)) (body.optional exit n tail states).2 := by
  induction n with
  | zero =>
      intro k tail states htail
      exact htail
  | succ n ih =>
      intro k tail states htail
      have hcopy := (htail.append (h tail states)).orSkip.split
      have hmore := ih (k + 1) _ _ (hcopy.congr (fun w => copies_le_succ_iff.symm)
        fun w => underway_cons_iff hLV (· < k) (· < k + 1) (Nat.succ_pos k)
          fun j => Nat.succ_lt_succ_iff)
      rw [show k + (n + 1) = k + 1 + n by omega]
      exact hmore

theorem Admits.loop (h : Admits body L V) (hLV : ∀ w, L w → V w) :
    Admits body.loop (Copies L fun _ => True) (Underway L V fun _ => True) := by
  intro next states
  let hole := states.size
  have hbody := h hole (states.push (.split []))
  have hsize : hole < (body hole (states.push (.split []))).2.size := by
    have := hbody.size_le
    rw [Array.size_push] at this
    exact this
  have hlt : ∀ {whole : Array State}, Holds hole (body.loop next states).2 whole →
      hole < whole.size :=
    fun hwhole => (Array.getElem?_eq_some_iff.1 (holds_loop hsize hwhole).1).1
  have hrecognizes : Recognizes body L := fun next states => (h next states).toBlock
  -- A round is a copy in front of copies under way.
  have hround : ∀ {w : List Byte},
      (w = [] ∨ (V w ∨ ∃ u v, u ++ v = w ∧ L u ∧ Underway L V (fun _ => True) v) ∨ w = []) ↔
        Underway L V (fun _ => True) w :=
    underway_cons_iff hLV (fun _ => True) (fun _ => True) trivial fun _ => Iff.rfl
  refine ⟨hrecognizes.loop next states, ?_, ?_, ?_⟩
  · rintro whole e hwhole - rfl
    exact hlt hwhole
  · rintro whole w hwhole hnext (rfl | ⟨copies, v, rfl, hall, hv, -⟩)
    · exact ⟨hole, rfl, hole, hlt hwhole, .refl hole⟩
    · obtain ⟨hhole, hinner⟩ := holds_loop hsize hwhole
      obtain ⟨e, rfl, t, ht, hreach⟩ := hbody.stay hinner (hlt hwhole) hv
      refine ⟨hole, rfl, t, ht, ?_⟩
      induction copies with
      | nil =>
          exact .silent ⟨_, hhole, List.mem_cons_self⟩ hreach
      | cons c copies ih =>
          have hrest := ih fun u hu => hall u (List.mem_cons_of_mem c hu)
          obtain ⟨e, rfl, hback⟩ := hbody.enter hinner (hall c List.mem_cons_self) hrest
          rw [List.flatten_cons, List.append_assoc]
          exact .silent ⟨_, hhole, List.mem_cons_self⟩ hback
  · rintro whole n e t w hwhole rfl hrun
    obtain ⟨hhole, hinner⟩ := holds_loop hsize hwhole
    -- on the number of moves, of which each round takes at least one
    induction n using Nat.strongRecOn generalizing w with
    | ind n ih =>
        rcases hrun.cases_split hhole with ⟨rfl, -⟩ | ⟨q, hq, m, rfl, hrest⟩
        · exact .inl (.inl rfl)
        · rcases List.mem_cons.1 hq with rfl | hq
          · rcases hbody.depart hinner rfl hrest with hw | ⟨c, v, k, rfl, hk, hc, hback⟩
            · exact .inl (hround.1 (.inr (.inl (.inl hw))))
            · rcases ih k (Nat.lt_succ_of_le hk) hback with
                hv | ⟨u, x, j, rfl, hj, ⟨copies, rfl, hall, -⟩, hexit⟩
              · exact .inl (hround.1 (.inr (.inl (.inr ⟨c, v, rfl, hc, hv⟩))))
              · exact .inr ⟨c ++ copies.flatten, x, j, by simp, by omega,
                  ⟨c :: copies, by simp, List.forall_mem_cons.2 ⟨hc, hall⟩, trivial⟩, hexit⟩
          · obtain rfl := List.mem_singleton.1 hq
            exact .inr ⟨[], w, m, rfl, Nat.le_succ m, ⟨[], rfl, by simp, trivial⟩, hrest⟩

/-- So many copies under way, or all of them read and others under way behind them. -/
theorem underway_append_iff (hLV : ∀ w, L w → V w) {n : Nat} {count : Nat → Prop}
    {w : List Byte} :
    (Underway L V (· < n) w ∨ ∃ u v, u ++ v = w ∧ Copies L (· = n) u ∧ Underway L V count v) ↔
      Underway L V (fun k => k < n ∨ n ≤ k ∧ count (k - n)) w := by
  constructor
  · rintro ((rfl | ⟨copies, v, rfl, hall, hv, hlt⟩) | ⟨u, v, rfl, ⟨copies, rfl, hall, rfl⟩, hv⟩)
    · exact .inl rfl
    · exact .inr ⟨copies, v, rfl, hall, hv, .inl hlt⟩
    · rcases hv with rfl | ⟨others, v, rfl, hothers, hv, hcount⟩
      · -- All copies are read and nothing is behind them, so the last counts as begun.
        rcases List.eq_nil_or_concat copies with rfl | ⟨front, last, rfl⟩
        · exact .inl rfl
        · rw [List.concat_eq_append] at hall ⊢
          refine .inr ⟨front, last, by simp, ?_, hLV last (hall last (by simp)), .inl (by simp)⟩
          exact fun u hu => hall u (List.mem_append_left _ hu)
      · refine .inr ⟨copies ++ others, v, by simp, ?_, hv, .inr ⟨by simp, by simpa using hcount⟩⟩
        exact fun u hu => (List.mem_append.1 hu).elim (hall u) (hothers u)
  · rintro (rfl | ⟨copies, v, rfl, hall, hv, (hlt | ⟨hle, hcount⟩)⟩)
    · exact .inl (.inl rfl)
    · exact .inl (.inr ⟨copies, v, rfl, hall, hv, hlt⟩)
    · refine .inr ⟨(copies.take n).flatten, (copies.drop n).flatten ++ v, ?_,
        ⟨_, rfl, ?_, List.length_take_of_le hle⟩, .inr ⟨_, v, rfl, ?_, hv, ?_⟩⟩
      · rw [← List.append_assoc, ← List.flatten_append, List.take_append_drop]
      · exact fun u hu => hall u (List.mem_of_mem_take hu)
      · exact fun u hu => hall u (List.mem_of_mem_drop hu)
      · simpa using hcount

/-- The copies that must be there under way, or those that may be. -/
theorem underway_repeated_iff (hLV : ∀ w, L w → V w) {min : Nat} {max : Option Nat}
    {w : List Byte} :
    (Underway L V (· < min) w ∨ ∃ u v, u ++ v = w ∧ Copies L (· = min) u ∧
      Underway L V (fun k => ∀ m, max = some m → k < m - min) v) ↔
      Underway L V (fun k => ∀ m, max = some m → k < Nat.max m min) w := by
  have hcount : ∀ k, (k < min ∨ min ≤ k ∧ ∀ m, max = some m → k - min < m - min) ↔
      ∀ m, max = some m → k < Nat.max m min := by
    intro k
    cases max with
    | none =>
        simp [Nat.lt_or_ge]
    | some max =>
        simp only [Option.some.injEq, forall_eq', Nat.max_def]
        split <;> omega
  rw [underway_append_iff hLV]
  simp only [Underway, hcount]

theorem Admits.repeated (h : Admits body L V) (hLV : ∀ w, L w → V w) (min : Nat)
    (max : Option Nat) :
    Admits (body.repeated min max)
      (Copies L fun k => min ≤ k ∧ ∀ m, max = some m → k ≤ Nat.max m min)
      (Underway L V fun k => ∀ m, max = some m → k < Nat.max m min) := by
  intro next states
  cases max with
  | none =>
      have htail := (h.loop hLV next states).append (h.times min _ _)
      apply htail.congr
      · intro w
        rw [← copies_repeated_iff]
        simp
      · intro w
        rw [← underway_repeated_iff hLV]
        simp
  | some max =>
      have hzero : Passage states (· = next) next (Copies L (· ≤ 0)) (Underway L V (· < 0))
          states :=
        (Passage.nil states next).congr
          (fun w => by
            rw [← copies_zero_iff (L := L)]
            simp [Copies])
          fun w => underway_zero_iff.symm
      have htail := (passage_optional h hLV states next (max - min) 0 next states hzero).append
        (h.times min _ _)
      apply htail.congr
      · intro w
        rw [← copies_repeated_iff]
        simp
      · intro w
        rw [← underway_repeated_iff hLV]
        simp

end Combinators

/-! ### Patterns -/

mutual

theorem admits_ofPattern : (p : Pattern) → Admits (Fragment.ofPattern p) p.language p.viable
  | .empty => by
      intro next states
      exact (Passage.nil states next).congr (fun w => by rw [Pattern.language])
        fun w => by rw [Pattern.viable]
  | .oneOf set => by
      intro next states
      exact (admits_oneOf set next states).congr (fun w => by rw [Pattern.language])
        fun w => by rw [Pattern.viable]
  | .sequence parts => by
      intro next states
      exact (admits_ofSequence parts next states).congr (fun w => by rw [Pattern.language])
        fun w => by rw [Pattern.viable]
  | .choice branches => by
      intro next states
      exact (passage_entriesOf branches next states).split.congr
        (fun w => by rw [Pattern.language]) fun w => by rw [Pattern.viable]
  | .repeated body min max => by
      intro next states
      have hbody := (admits_ofPattern body).repeated (fun _ => body.viable_of_language) min max
      exact (hbody next states).congr (fun w => by rw [Pattern.language]; rfl)
        fun w => by rw [Pattern.viable]; rfl

theorem admits_ofSequence : (parts : List Pattern) →
    Admits (Fragment.ofSequence parts) (Pattern.languageOfSequence parts)
      (Pattern.viableInSequence parts)
  | [] => by
      intro next states
      exact (Passage.nil states next).congr (fun w => by rw [Pattern.languageOfSequence])
        fun w => by rw [Pattern.viableInSequence]
  | part :: parts => by
      intro next states
      have hboth := (admits_ofPattern part).followedBy (admits_ofSequence parts)
      exact (hboth next states).congr (fun w => by rw [Pattern.languageOfSequence])
        fun w => by rw [Pattern.viableInSequence]

theorem passage_entriesOf : (branches : List Pattern) → ∀ next states,
    Passage states (· ∈ (Fragment.entriesOf branches next states).1) next
      (Pattern.languageOfChoice branches) (Pattern.viableInChoice branches)
      (Fragment.entriesOf branches next states).2
  | [], next, states => by
      refine ⟨block_entriesOf [] next states, ?_, ?_, ?_⟩
      · intro whole e _ _ he
        cases he
      · intro whole w _ _ hw
        rw [Pattern.viableInChoice] at hw
        exact hw.elim
      · intro whole n e t w _ he
        cases he
  | branch :: branches, next, states => by
      have hfirst := admits_ofPattern branch next states
      have hothers := passage_entriesOf branches next (Fragment.ofPattern branch next states).2
      have hentry : (fun e => e = (Fragment.ofPattern branch next states).1 ∨
          e ∈ (Fragment.entriesOf branches next (Fragment.ofPattern branch next states).2).1) =
          (· ∈ (Fragment.entriesOf (branch :: branches) next states).1) := by
        funext e
        rw [Fragment.entriesOf]
        simp
      have hboth := hfirst.union hothers
      rw [hentry] at hboth
      exact hboth.congr (fun w => by rw [Pattern.languageOfChoice])
        fun w => by rw [Pattern.viableInChoice]

end

/-! ### Rules -/

/-- The words that runs from the entries of some rules can read. -/
theorem reaches_addRules_iff (rules : List Pattern) (index : Nat) (states : Array State)
    {whole : Array State} (hwhole : Holds states.size (addRules index rules states).2 whole)
    {w : List Byte} :
    (∃ e ∈ (addRules index rules states).1, ∃ t < whole.size, Reaches whole e w t) ↔
      ∃ p ∈ rules, p.viable w := by
  induction rules generalizing index states with
  | nil =>
      simp [addRules]
  | cons p rules ih =>
      have hfragment := admits_ofPattern p states.size (states.push (.accept index))
      have hothers := ruleBlock_addRules rules (index + 1)
        (Fragment.ofPattern p states.size (states.push (.accept index))).2
      obtain ⟨hstate, hinner, hrest⟩ := hothers.holds_parts hfragment.toBlock hwhole
      rw [List.exists_mem_cons_iff, ← ih _ _ hrest,
        ← hfragment.reaches_iff (fun _ => p.viable_of_language) hinner hstate]
      exact List.exists_mem_cons_iff _ _ _

/-- **The automaton of some rules is alive after the words that one of them can read.** -/
theorem walk_ne_nil_iff (rules : List Pattern) {w : List Byte} :
    (ofPatterns rules).walk w ≠ [] ↔ w = [] ∨ ∃ p ∈ rules, p.viable w := by
  have hstart := start_ofPatterns rules
  have hlt : (ofPatterns rules).start < (ofPatterns rules).states.size :=
    (Array.getElem?_eq_some_iff.1 hstart).1
  rw [← reaches_addRules_iff rules 0 #[] (holds_ofPatterns rules), ne_eq,
    List.eq_nil_iff_forall_not_mem, not_forall_not]
  simp only [mem_walk_iff, reaches_split_iff hstart]
  constructor
  · rintro ⟨t, ht, ⟨rfl, -⟩ | ⟨e, he, hreach⟩⟩
    · exact .inl rfl
    · exact .inr ⟨e, he, t, ht, hreach⟩
  · rintro (rfl | ⟨e, he, t, ht, hreach⟩)
    · exact ⟨_, hlt, .inl ⟨rfl, rfl⟩⟩
    · exact ⟨t, ht, .inr ⟨e, he, hreach⟩⟩

/-- A simulation is alive while its set of states is not empty. -/
theorem isSome_after_tracker_iff (nfa : Nfa) {set : List Nat} (hset : set ≠ [])
    (w : List Byte) :
    (nfa.tracker.after set w).isSome = true ↔ w.foldl nfa.step set ≠ [] := by
  induction w generalizing set with
  | nil =>
      simp [Tracker.after, hset]
  | cons b w ih =>
      rw [List.foldl_cons, Tracker.after]
      cases hstep : nfa.step set b with
      | nil =>
          have hdead : nfa.tracker.step set b = none := by
            simp [tracker, hstep]
          simp [hdead, foldl_step_nil]
      | cons q next =>
          have halive : nfa.tracker.step set b = some (q :: next) := by
            simp [tracker, hstep]
          rw [halive]
          exact ih (List.cons_ne_nil q next)

/-- The words after which the simulation of some rules is alive. -/
theorem isSome_after_ofPatterns_iff (rules : List Pattern) {w : List Byte} :
    ((ofPatterns rules).tracker.after (ofPatterns rules).tracker.start w).isSome = true ↔
      w = [] ∨ ∃ p ∈ rules, p.viable w := by
  have hinitial : (ofPatterns rules).initial ≠ [] :=
    (walk_ne_nil_iff rules).2 (.inl rfl)
  exact ((ofPatterns rules).isSome_after_tracker_iff hinitial w).trans (walk_ne_nil_iff rules)

end Nfa
end Munch
