import Munch.Nfa.Construction
import Munch.Pattern.Language
import Munch.Proofs.Nfa.Run

/-!
# Fragments read the languages of their patterns

A fragment is described by what its states do inside any larger array that holds
them: entering and reading a word of the language leads on to the state behind the
fragment, and every run that ends in acceptance leaves the fragment that way.
Since nothing is said about the rest of the array, descriptions of fragments built
one after the other compose.

A loop is left after finitely many rounds although a round may read nothing,
because each round takes moves; `Block.leave` therefore bounds the moves that
remain.

**Results.**
* `Block.append`, `Block.union`, `Block.split`, `Recognizes.loop`, `block_optional`:
  the operations on languages that the constructions carry out.
* `recognizes_ofPattern`: the fragment of a pattern reads the pattern's language.
-/

namespace Munch
namespace Nfa

/-- The words made of some copies of words of `L`, in a number that `count` admits. -/
def Copies (L : List Byte → Prop) (count : Nat → Prop) (w : List Byte) : Prop :=
  ∃ copies : List (List Byte), copies.flatten = w ∧ (∀ v ∈ copies, L v) ∧ count copies.length

/-- `whole` has the states of `result` from number `low` on. -/
def Holds (low : Nat) (result whole : Array State) : Prop :=
  ∀ id, low ≤ id → id < result.size → whole[id]? = result[id]?

namespace Holds

variable {low : Nat} {states result whole : Array State}

theorem above {high : Nat} (h : Holds low result whole) (hle : low ≤ high) :
    Holds high result whole :=
  fun id hid hlt => h id (Nat.le_trans hle hid) hlt

/-- What was there before some states were appended is held as well. -/
theorem before (h : Holds low result whole) (hsize : states.size ≤ result.size)
    (hkept : ∀ id, id < states.size → result[id]? = states[id]?) : Holds low states whole := by
  intro id hid hlt
  rw [h id hid (Nat.lt_of_lt_of_le hlt hsize), hkept id hlt]

theorem top {state : State} (h : Holds low (states.push state) whole)
    (hle : low ≤ states.size) : whole[states.size]? = some state := by
  rw [h states.size hle (by simp)]
  exact Array.getElem?_push_size

theorem of_push {state : State} (h : Holds low (states.push state) whole) :
    Holds low states whole := by
  apply h.before (by simp)
  intro id hlt
  rw [Array.getElem?_push_lt hlt, Array.getElem?_eq_getElem hlt]

end Holds

/-- The states appended to `states` to give `result` read the language `L` between
their entries and the state `next` behind them. -/
structure Block (states : Array State) (entry : Nat → Prop) (next : Nat)
    (L : List Byte → Prop) (result : Array State) : Prop where
  size_le : states.size ≤ result.size
  kept : ∀ id, id < states.size → result[id]? = states[id]?
  enter : ∀ {whole : Array State} {u v : List Byte} {t : Nat},
    Holds states.size result whole → L u → Reaches whole next v t →
    ∃ e, entry e ∧ Reaches whole e (u ++ v) t
  leave : ∀ {whole : Array State} {n e t rule : Nat} {w : List Byte},
    Holds states.size result whole → Accepting whole t rule → entry e →
    Run whole n e w t →
    ∃ u v m, w = u ++ v ∧ m ≤ n ∧ L u ∧ Run whole m next v t

namespace Block

variable {states mid result : Array State} {entry entry₁ entry₂ : Nat → Prop}
  {next e : Nat} {L L₁ L₂ : List Byte → Prop}

theorem congr (h : Block states entry next L₁ result) (hL : ∀ w, L₁ w ↔ L₂ w) :
    Block states entry next L₂ result where
  size_le := h.size_le
  kept := h.kept
  enter hwhole hu hnext := h.enter hwhole ((hL _).2 hu) hnext
  leave hwhole ht he hrun := by
    obtain ⟨u, v, m, hw, hm, hu, hnext⟩ := h.leave hwhole ht he hrun
    exact ⟨u, v, m, hw, hm, (hL u).1 hu, hnext⟩

theorem nil (states : Array State) (next : Nat) :
    Block states (· = next) next (· = []) states where
  size_le := Nat.le_refl _
  kept _ _ := rfl
  enter := by
    rintro whole u v t - rfl hnext
    exact ⟨next, rfl, hnext⟩
  leave := by
    rintro whole n e t rule w - - rfl hrun
    exact ⟨[], w, n, rfl, Nat.le_refl _, rfl, hrun⟩

/-- One block in front of another. -/
theorem append (h₂ : Block states (· = e) next L₂ mid) (h₁ : Block mid entry e L₁ result) :
    Block states entry next (fun w => ∃ u v, u ++ v = w ∧ L₁ u ∧ L₂ v) result where
  size_le := Nat.le_trans h₂.size_le h₁.size_le
  kept id hid := by
    rw [h₁.kept id (Nat.lt_of_lt_of_le hid h₂.size_le), h₂.kept id hid]
  enter := by
    rintro whole w v t hwhole ⟨u₁, u₂, rfl, hu₁, hu₂⟩ hnext
    obtain ⟨e', rfl, hmid⟩ := h₂.enter (hwhole.before h₁.size_le h₁.kept) hu₂ hnext
    obtain ⟨e₁, he₁, hreach⟩ := h₁.enter (hwhole.above h₂.size_le) hu₁ hmid
    rw [← List.append_assoc] at hreach
    exact ⟨e₁, he₁, hreach⟩
  leave := by
    intro whole n e₁ t rule w hwhole ht he₁ hrun
    obtain ⟨u₁, v₁, m₁, rfl, hm₁, hu₁, hmid⟩ :=
      h₁.leave (hwhole.above h₂.size_le) ht he₁ hrun
    obtain ⟨u₂, v, m, rfl, hm, hu₂, hnext⟩ :=
      h₂.leave (hwhole.before h₁.size_le h₁.kept) ht rfl hmid
    refine ⟨u₁ ++ u₂, v, m, ?_, Nat.le_trans hm hm₁, ⟨u₁, u₂, rfl, hu₁, hu₂⟩, hnext⟩
    rw [List.append_assoc]

/-- Two blocks beside each other, both in front of `next`. -/
theorem union (h₁ : Block states entry₁ next L₁ mid) (h₂ : Block mid entry₂ next L₂ result) :
    Block states (fun e => entry₁ e ∨ entry₂ e) next (fun w => L₁ w ∨ L₂ w) result where
  size_le := Nat.le_trans h₁.size_le h₂.size_le
  kept id hid := by
    rw [h₂.kept id (Nat.lt_of_lt_of_le hid h₁.size_le), h₁.kept id hid]
  enter := by
    rintro whole u v t hwhole (hu | hu) hnext
    · obtain ⟨e, he, hreach⟩ := h₁.enter (hwhole.before h₂.size_le h₂.kept) hu hnext
      exact ⟨e, Or.inl he, hreach⟩
    · obtain ⟨e, he, hreach⟩ := h₂.enter (hwhole.above h₁.size_le) hu hnext
      exact ⟨e, Or.inr he, hreach⟩
  leave := by
    rintro whole n e t rule w hwhole ht (he | he) hrun
    · obtain ⟨u, v, m, hw, hm, hu, hnext⟩ :=
        h₁.leave (hwhole.before h₂.size_le h₂.kept) ht he hrun
      exact ⟨u, v, m, hw, hm, Or.inl hu, hnext⟩
    · obtain ⟨u, v, m, hw, hm, hu, hnext⟩ := h₂.leave (hwhole.above h₁.size_le) ht he hrun
      exact ⟨u, v, m, hw, hm, Or.inr hu, hnext⟩

/-- A split in front of all entries of a block. -/
theorem split {entries : List Nat} (h : Block states (· ∈ entries) next L result) :
    Block states (· = result.size) next L (result.push (.split entries)) where
  size_le := by
    rw [Array.size_push]
    exact Nat.le_succ_of_le h.size_le
  kept id hid := by
    have hlt := Nat.lt_of_lt_of_le hid h.size_le
    rw [Array.getElem?_push_lt hlt, ← h.kept id hid, Array.getElem?_eq_getElem hlt]
  enter := by
    intro whole u v t hwhole hu hnext
    obtain ⟨e, he, hreach⟩ := h.enter hwhole.of_push hu hnext
    exact ⟨_, rfl, .silent ⟨entries, hwhole.top h.size_le, he⟩ hreach⟩
  leave := by
    rintro whole n e t rule w hwhole ht rfl hrun
    obtain ⟨e, he, m, rfl, hrest⟩ := hrun.of_split (hwhole.top h.size_le) ht
    obtain ⟨u, v, k, hw, hk, hu, hnext⟩ := h.leave hwhole.of_push ht he hrest
    exact ⟨u, v, k, hw, Nat.le_succ_of_le hk, hu, hnext⟩

/-- A block that may be left out. -/
theorem orSkip (h : Block states (· = e) next L result) :
    Block states (· ∈ [e, next]) next (fun w => L w ∨ w = []) result := by
  have hboth := h.union (nil result next)
  have hentry : (fun x => x = e ∨ x = next) = (· ∈ [e, next]) := by
    funext x
    simp
  rwa [hentry] at hboth

end Block

/-- The fragment reads the language, wherever it is built. -/
def Recognizes (f : Fragment) (L : List Byte → Prop) : Prop :=
  ∀ next states, Block states (· = (f next states).1) next L (f next states).2

section Combinators

variable {body first second : Fragment} {L L₁ L₂ : List Byte → Prop}

theorem recognizes_oneOf (set : ByteSet) :
    Recognizes (Fragment.oneOf set) (fun w => ∃ b, set.contains b = true ∧ w = [b]) := by
  intro next states
  refine ⟨?_, ?_, ?_, ?_⟩
  · show states.size ≤ (states.push _).size
    simp
  · intro id hid
    show (states.push _)[id]? = _
    rw [Array.getElem?_push_lt hid, Array.getElem?_eq_getElem hid]
  · rintro whole u v t hwhole ⟨b, hb, rfl⟩ hnext
    exact ⟨_, rfl, .read ⟨set, hwhole.top (Nat.le_refl _), hb⟩ hnext⟩
  · rintro whole n e t rule w hwhole ht rfl hrun
    obtain ⟨b, v, m, rfl, hb, rfl, hnext⟩ := hrun.of_bytes (hwhole.top (Nat.le_refl _)) ht
    exact ⟨[b], v, m, rfl, Nat.le_succ m, ⟨b, hb, rfl⟩, hnext⟩

theorem Recognizes.followedBy (h₁ : Recognizes first L₁) (h₂ : Recognizes second L₂) :
    Recognizes (first.followedBy second) (fun w => ∃ u v, u ++ v = w ∧ L₁ u ∧ L₂ v) :=
  fun next states => (h₂ next states).append (h₁ _ _)

theorem copies_zero_iff {w : List Byte} : Copies L (· = 0) w ↔ w = [] := by
  constructor
  · rintro ⟨copies, rfl, -, hlength⟩
    rw [List.length_eq_zero_iff.1 hlength]
    rfl
  · rintro rfl
    exact ⟨[], rfl, by simp, rfl⟩

/-- Some copies, the last of them apart. -/
theorem copies_succ_iff {n : Nat} {w : List Byte} :
    Copies L (· = n + 1) w ↔ ∃ u v, u ++ v = w ∧ Copies L (· = n) u ∧ L v := by
  constructor
  · rintro ⟨copies, rfl, hall, hlength⟩
    rcases List.eq_nil_or_concat copies with rfl | ⟨front, last, rfl⟩
    · cases hlength
    · rw [List.concat_eq_append] at hall hlength ⊢
      refine ⟨front.flatten, last, by simp, ⟨front, rfl, ?_, ?_⟩, ?_⟩
      · exact fun v hv => hall v (List.mem_append_left _ hv)
      · simpa using hlength
      · exact hall last (by simp)
  · rintro ⟨u, v, rfl, ⟨copies, rfl, hall, hlength⟩, hv⟩
    refine ⟨copies ++ [v], by simp, ?_, by simp [hlength]⟩
    intro x hx
    rcases List.mem_append.1 hx with hx | hx
    · exact hall x hx
    · obtain rfl := List.mem_singleton.1 hx
      exact hv

theorem Recognizes.times (h : Recognizes body L) (n : Nat) :
    Recognizes (body.times n) (Copies L (· = n)) := by
  induction n with
  | zero =>
      intro next states
      exact (Block.nil states next).congr fun w => copies_zero_iff.symm
  | succ n ih =>
      intro next states
      exact ((h next states).append (ih _ _)).congr fun w => copies_succ_iff.symm

/-- At most so many copies, the first of them apart. -/
theorem copies_le_succ_iff {n : Nat} {w : List Byte} :
    Copies L (· ≤ n + 1) w ↔ (∃ u v, u ++ v = w ∧ L u ∧ Copies L (· ≤ n) v) ∨ w = [] := by
  constructor
  · rintro ⟨copies, rfl, hall, hlength⟩
    cases copies with
    | nil =>
        exact Or.inr rfl
    | cons u copies =>
        refine Or.inl ⟨u, copies.flatten, by simp, hall u (by simp), copies, rfl, ?_, ?_⟩
        · exact fun v hv => hall v (List.mem_cons_of_mem u hv)
        · exact Nat.le_of_succ_le_succ hlength
  · rintro (⟨u, v, rfl, hu, copies, rfl, hall, hlength⟩ | rfl)
    · exact ⟨u :: copies, by simp, List.forall_mem_cons.2 ⟨hu, hall⟩, Nat.succ_le_succ hlength⟩
    · exact ⟨[], rfl, by simp, Nat.zero_le _⟩

/-- Optional copies in front of a block that already reads up to `k` copies. -/
theorem block_optional (h : Recognizes body L) (base : Array State) (exit : Nat) (n : Nat) :
    ∀ (k tail : Nat) (states : Array State),
      Block base (· = tail) exit (Copies L (· ≤ k)) states →
      Block base (· = (body.optional exit n tail states).1) exit (Copies L (· ≤ k + n))
        (body.optional exit n tail states).2 := by
  induction n with
  | zero =>
      intro k tail states htail
      exact htail
  | succ n ih =>
      intro k tail states htail
      have hcopy := (htail.append (h tail states)).orSkip.split
      have hmore := ih (k + 1) _ _ (hcopy.congr fun w => copies_le_succ_iff.symm)
      rw [show k + (n + 1) = k + 1 + n by omega]
      exact hmore

/-- The reserved state of a loop is filled in behind the body, which stays as it is. -/
theorem holds_loop {next : Nat} {states whole : Array State}
    (hsize : states.size < (body states.size (states.push (.split []))).2.size)
    (hwhole : Holds states.size (body.loop next states).2 whole) :
    whole[states.size]? =
        some (.split [(body states.size (states.push (.split []))).1, next]) ∧
      Holds (states.push (.split [])).size (body states.size (states.push (.split []))).2
        whole := by
  have hresult : (body.loop next states).2 =
      (body states.size (states.push (.split []))).2.setIfInBounds states.size
        (.split [(body states.size (states.push (.split []))).1, next]) := rfl
  rw [hresult] at hwhole
  constructor
  · rw [hwhole states.size (Nat.le_refl _) (by simpa using hsize)]
    exact Array.getElem?_setIfInBounds_self_of_lt hsize
  · intro id hid hlt
    rw [Array.size_push] at hid
    rw [hwhole id (Nat.le_of_succ_le hid) (by simpa using hlt)]
    exact Array.getElem?_setIfInBounds_ne (Nat.ne_of_lt hid)

/-- A loop leads into the body and out. -/
theorem Recognizes.loop (h : Recognizes body L) :
    Recognizes body.loop (Copies L fun _ => True) := by
  intro next states
  let hole := states.size
  let built := (body hole (states.push (.split []))).2
  have hbody : Block (states.push (.split [])) _ hole L built := h hole _
  have hsize : hole < built.size := by
    have := hbody.size_le
    rw [Array.size_push] at this
    exact this
  refine ⟨?_, ?_, ?_, ?_⟩
  · show states.size ≤ (built.setIfInBounds hole _).size
    simpa using Nat.le_of_lt hsize
  · intro id hid
    show (built.setIfInBounds hole _)[id]? = _
    rw [Array.getElem?_setIfInBounds_ne (Nat.ne_of_gt hid),
      hbody.kept id (by rw [Array.size_push]; omega), Array.getElem?_push_lt hid,
      Array.getElem?_eq_getElem hid]
  · rintro whole u v t hwhole ⟨copies, rfl, hall, -⟩ hnext
    obtain ⟨hhole, hinner⟩ := holds_loop hsize hwhole
    refine ⟨hole, rfl, ?_⟩
    induction copies with
    | nil =>
        exact .silent ⟨_, hhole, by simp⟩ hnext
    | cons c copies ih =>
        have hround := ih fun x hx => hall x (List.mem_cons_of_mem c hx)
        obtain ⟨e, rfl, hreach⟩ := hbody.enter hinner (hall c (by simp)) hround
        rw [List.flatten_cons, List.append_assoc]
        exact .silent ⟨_, hhole, List.mem_cons_self⟩ hreach
  · rintro whole n e t rule w hwhole ht rfl hrun
    obtain ⟨hhole, hinner⟩ := holds_loop hsize hwhole
    -- on the number of moves, of which each round takes at least one
    induction n using Nat.strongRecOn generalizing w with
    | ind n ih =>
        obtain ⟨q, hq, m, rfl, hrest⟩ := hrun.of_split hhole ht
        rcases List.mem_cons.1 hq with rfl | hq
        · obtain ⟨c, v, k, rfl, hk, hc, hback⟩ := hbody.leave hinner ht rfl hrest
          obtain ⟨u, x, j, rfl, hj, ⟨copies, rfl, hall, -⟩, hnext⟩ :=
            ih k (Nat.lt_succ_of_le hk) hback
          have hcopies : ∀ v ∈ c :: copies, L v := List.forall_mem_cons.2 ⟨hc, hall⟩
          exact ⟨c ++ copies.flatten, x, j, by simp, by omega,
            ⟨c :: copies, by simp, hcopies, trivial⟩, hnext⟩
        · obtain rfl := List.mem_singleton.1 hq
          exact ⟨[], w, m, rfl, Nat.le_succ m, ⟨[], rfl, by simp, trivial⟩, hrest⟩

/-- So many copies, followed by copies in a number from another range. -/
theorem copies_append_iff {n : Nat} {count : Nat → Prop} {w : List Byte} :
    (∃ u v, u ++ v = w ∧ Copies L (· = n) u ∧ Copies L count v) ↔
      Copies L (fun k => n ≤ k ∧ count (k - n)) w := by
  constructor
  · rintro ⟨u, v, rfl, ⟨copies₁, rfl, hall₁, rfl⟩, ⟨copies₂, rfl, hall₂, hcount⟩⟩
    refine ⟨copies₁ ++ copies₂, by simp, ?_, by simp, by simpa using hcount⟩
    intro x hx
    rcases List.mem_append.1 hx with hx | hx
    · exact hall₁ x hx
    · exact hall₂ x hx
  · rintro ⟨copies, rfl, hall, hle, hcount⟩
    refine ⟨(copies.take n).flatten, (copies.drop n).flatten, ?_, ⟨_, rfl, ?_, ?_⟩,
      ⟨_, rfl, ?_, ?_⟩⟩
    · rw [← List.flatten_append, List.take_append_drop]
    · exact fun v hv => hall v (List.mem_of_mem_take hv)
    · exact List.length_take_of_le hle
    · exact fun v hv => hall v (List.mem_of_mem_drop hv)
    · simpa using hcount

/-- The copies that must be there, followed by those that may be. -/
theorem copies_repeated_iff {min : Nat} {max : Option Nat} {w : List Byte} :
    (∃ u v, u ++ v = w ∧ Copies L (· = min) u ∧
      Copies L (fun k => ∀ m, max = some m → k ≤ m - min) v) ↔
      Copies L (fun k => min ≤ k ∧ ∀ m, max = some m → k ≤ Nat.max m min) w := by
  have hcount : ∀ k, (min ≤ k ∧ ∀ m, max = some m → k - min ≤ m - min) ↔
      (min ≤ k ∧ ∀ m, max = some m → k ≤ Nat.max m min) := by
    intro k
    cases max with
    | none =>
        simp
    | some max =>
        simp only [Option.some.injEq, forall_eq', Nat.max_def]
        split <;> omega
  rw [copies_append_iff]
  simp only [Copies, hcount]

theorem Recognizes.repeated (h : Recognizes body L) (min : Nat) (max : Option Nat) :
    Recognizes (body.repeated min max)
      (Copies L fun k => min ≤ k ∧ ∀ m, max = some m → k ≤ Nat.max m min) := by
  intro next states
  cases max with
  | none =>
      have htail := (h.loop next states).append (h.times min _ _)
      apply htail.congr
      intro w
      rw [← copies_repeated_iff]
      simp
  | some max =>
      have hzero : Block states (· = next) next (Copies L (· ≤ 0)) states :=
        (Block.nil states next).congr fun w => by
          rw [← copies_zero_iff (L := L)]
          simp [Copies]
      have htail := (block_optional h states next (max - min) 0 next states hzero).append
        (h.times min _ _)
      apply htail.congr
      intro w
      rw [← copies_repeated_iff]
      simp

end Combinators

/-! ### Patterns -/

mutual

theorem recognizes_ofPattern : (p : Pattern) → Recognizes (Fragment.ofPattern p) p.language
  | .empty => by
      intro next states
      exact (Block.nil states next).congr fun w => by rw [Pattern.language]
  | .oneOf set => by
      intro next states
      exact (recognizes_oneOf set next states).congr fun w => by rw [Pattern.language]
  | .sequence parts => by
      intro next states
      exact (recognizes_ofSequence parts next states).congr fun w => by rw [Pattern.language]
  | .choice branches => by
      intro next states
      exact (block_entriesOf branches next states).split.congr fun w => by rw [Pattern.language]
  | .repeated body min max => by
      intro next states
      exact ((recognizes_ofPattern body).repeated min max next states).congr
        fun w => by rw [Pattern.language]; rfl

theorem recognizes_ofSequence : (parts : List Pattern) →
    Recognizes (Fragment.ofSequence parts) (Pattern.languageOfSequence parts)
  | [] => by
      intro next states
      exact (Block.nil states next).congr fun w => by rw [Pattern.languageOfSequence]
  | part :: parts => by
      intro next states
      have hboth := (recognizes_ofPattern part).followedBy (recognizes_ofSequence parts)
      exact (hboth next states).congr fun w => by rw [Pattern.languageOfSequence]

theorem block_entriesOf : (branches : List Pattern) → ∀ next states,
    Block states (· ∈ (Fragment.entriesOf branches next states).1) next
      (Pattern.languageOfChoice branches) (Fragment.entriesOf branches next states).2
  | [], next, states => by
      refine ⟨Nat.le_refl _, fun _ _ => rfl, ?_, ?_⟩
      · intro whole u v t _ hu
        rw [Pattern.languageOfChoice] at hu
        exact hu.elim
      · intro whole n e t rule w _ _ he
        cases he
  | branch :: branches, next, states => by
      have hfirst := recognizes_ofPattern branch next states
      have hothers := block_entriesOf branches next (Fragment.ofPattern branch next states).2
      have hentry : (fun e => e = (Fragment.ofPattern branch next states).1 ∨
          e ∈ (Fragment.entriesOf branches next (Fragment.ofPattern branch next states).2).1) =
          (· ∈ (Fragment.entriesOf (branch :: branches) next states).1) := by
        funext e
        rw [Fragment.entriesOf]
        simp
      have hboth := hfirst.union hothers
      rw [hentry] at hboth
      exact hboth.congr fun w => by rw [Pattern.languageOfChoice]

end

end Nfa
end Munch
