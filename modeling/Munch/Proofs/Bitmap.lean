import Mathlib.Data.Set.Card
import Munch.Proofs.ByteSet

/-!
# Byte sets are sets of bytes

The bitmap of a byte set stands for the mathematical set of its members, `ByteSet.toSet`, and
the operations on words are the operations on those sets.  The runs of a byte set are known by
what they are and not by how they are found: bounds in order, with an absent byte between one
run and the next, which together give the set.

**Invariant.**  `Collected`: the runs kept while the members are gone through hold exactly the
members met so far, and two of them are at least two bytes apart.

**Results.**
* `size_eq_length_members`: the bits set in all words are as many as the members.
* `Collected.addToRuns`, `collected_foldl`: what one member and what all members do to the
  runs.
* `Separate.unique`: separate runs are determined by the bytes that they cover.
* `toSet_exact`: the bitmap represents sets of bytes, operation by operation.
-/

namespace Munch
namespace ByteSet

/-! ### Counting -/

theorem cpop_eq_countP (word : BitVec 64) :
    word.cpop.toNat = (List.range 64).countP word.getLsbD := by
  have hcount : ∀ n, word.cpopNatRec n 0 = (List.range n).countP word.getLsbD := by
    intro n
    induction n with
    | zero =>
        rfl
    | succ n ih =>
        rw [BitVec.cpopNatRec_succ, BitVec.cpopNatRec_add, ih, List.range_succ,
          List.countP_append, List.countP_singleton]
        cases word.getLsbD n <;> rfl
  rw [BitVec.toNat_cpop, hcount]

/-- Counting up to a multiple of `m`, one stretch of `m` numbers after the other. -/
theorem countP_range_mul (p : Nat → Bool) (m k : Nat) :
    (List.range (m * k)).countP p =
      ((List.range k).map fun i => (List.range m).countP fun j => p (m * i + j)).sum := by
  induction k with
  | zero =>
      rfl
  | succ k ih =>
      rw [Nat.mul_succ, List.range_add, List.countP_append, ih, List.range_succ]
      simp [List.countP_map, Function.comp_def]

theorem countP_word (s : ByteSet) (i : Fin 4) :
    ((List.range 64).countP fun j => s.contains (UInt8.ofNat (64 * i + j))) =
      (s.wordAt i).toBitVec.cpop.toNat := by
  rw [cpop_eq_countP]
  apply List.countP_congr
  intro j hj
  rw [s.contains_ofNat i (List.mem_range.1 hj)]

theorem toList_words (s : ByteSet) : s.words.toList = (List.finRange 4).map s.wordAt := by
  apply List.ext_getElem
  · simp
  · intro i hi _
    simp [wordAt_eq]

theorem size_eq_length_members (s : ByteSet) : s.size = s.members.length := by
  let inWord (i : Nat) : Nat :=
    (List.range 64).countP fun j => s.contains (UInt8.ofNat (64 * i + j))
  calc s.size
    _ = (s.words.toList.map fun word => word.toBitVec.cpop.toNat).sum := by
      rw [size, List.sum_eq_foldl, List.foldl_map]
    _ = ((List.finRange 4).map fun i => inWord i.val).sum := by
      simp only [inWord, toList_words, List.map_map, Function.comp_def, countP_word]
    _ = ((List.range 4).map inWord).sum := by
      rw [← List.map_coe_finRange_eq_range, List.map_map]
      rfl
    _ = (List.range 256).countP fun n => s.contains (UInt8.ofNat n) :=
      (countP_range_mul (fun n => s.contains (UInt8.ofNat n)) 64 4).symm
    _ = s.members.length := by
      rw [members, ← List.countP_eq_length_filter, Byte.all, List.countP_map]
      rfl

/-! ### Separate runs -/

/-- The byte lies in one of the runs. -/
def Covers (rs : List (Byte × Byte)) (b : Byte) : Prop :=
  ∃ r ∈ rs, r.1 ≤ b ∧ b ≤ r.2

/-- There is room for a byte between the end of the first run and the second. -/
def Apart (r r' : Byte × Byte) : Prop := r.2.toNat + 1 < r'.1.toNat

/-- Runs in increasing order, each with a byte of its own and with room between any two. -/
structure Separate (rs : List (Byte × Byte)) : Prop where
  le : ∀ r ∈ rs, r.1 ≤ r.2
  apart : rs.Pairwise Apart

namespace Separate

variable {r r' : Byte × Byte} {rs rs' : List (Byte × Byte)} {b : Byte}

theorem head_le (h : Separate (r :: rs)) : r.1.toNat ≤ r.2.toNat :=
  UInt8.le_iff_toNat_le.1 (h.le r List.mem_cons_self)

theorem tail (h : Separate (r :: rs)) : Separate rs :=
  ⟨fun q hq => h.le q (List.mem_cons_of_mem r hq), (List.pairwise_cons.1 h.apart).2⟩

theorem head_apart (h : Separate (r :: rs)) {q : Byte × Byte} (hq : q ∈ rs) :
    r.2.toNat + 1 < q.1.toNat :=
  (List.pairwise_cons.1 h.apart).1 q hq

theorem covers_head (h : Separate (r :: rs)) : Covers (r :: rs) r.1 :=
  ⟨r, List.mem_cons_self, UInt8.le_refl r.1, h.le r List.mem_cons_self⟩

/-- No byte below the first run is covered. -/
theorem head_le_of_covers (h : Separate (r :: rs)) (hb : Covers (r :: rs) b) : r.1 ≤ b := by
  obtain ⟨q, hq, hlow, -⟩ := hb
  rw [UInt8.le_iff_toNat_le] at hlow ⊢
  rcases List.mem_cons.1 hq with rfl | hq
  · exact hlow
  · have := h.head_le
    have := h.head_apart hq
    omega

/-- What is covered behind the first run lies above it. -/
theorem covers_tail_iff (h : Separate (r :: rs)) :
    Covers rs b ↔ Covers (r :: rs) b ∧ r.2 < b := by
  constructor
  · rintro ⟨q, hq, hlow, hhigh⟩
    refine ⟨⟨q, List.mem_cons_of_mem r hq, hlow, hhigh⟩, ?_⟩
    have := h.head_apart hq
    rw [UInt8.le_iff_toNat_le] at hlow
    rw [UInt8.lt_iff_toNat_lt]
    omega
  · rintro ⟨⟨q, hq, hlow, hhigh⟩, habove⟩
    rcases List.mem_cons.1 hq with rfl | hq
    · exact absurd habove (UInt8.not_lt.2 hhigh)
    · exact ⟨q, hq, hlow, hhigh⟩

/-- A run that begins where the first run begins and is covered ends in it: the byte behind
the first run is not covered. -/
theorem last_le (h : Separate (r :: rs)) (hfirst : r'.1 = r.1)
    (hcovers : ∀ b, r'.1 ≤ b → b ≤ r'.2 → Covers (r :: rs) b) : r'.2 ≤ r.2 := by
  rw [← UInt8.not_lt]
  intro hlonger
  rw [UInt8.lt_iff_toNat_lt] at hlonger
  let c : Byte := UInt8.ofNat (r.2.toNat + 1)
  have hc : c.toNat = r.2.toNat + 1 :=
    UInt8.toNat_ofNat_of_lt' (show _ < 256 by have := r'.2.toNat_lt; omega)
  have hle := h.head_le
  obtain ⟨q, hq, hlow, hhigh⟩ := hcovers c
    (by rw [hfirst, UInt8.le_iff_toNat_le, hc]; omega)
    (by rw [UInt8.le_iff_toNat_le, hc]; exact hlonger)
  rw [UInt8.le_iff_toNat_le, hc] at hlow hhigh
  rcases List.mem_cons.1 hq with rfl | hq
  · omega
  · have := h.head_apart hq
    omega

/-- Separate runs are determined by the bytes that they cover. -/
theorem unique (h : Separate rs) (h' : Separate rs') (hcovers : ∀ b, Covers rs b ↔ Covers rs' b) :
    rs = rs' := by
  induction rs generalizing rs' with
  | nil =>
      cases rs' with
      | nil =>
          rfl
      | cons r' rs' =>
          obtain ⟨q, hq, -⟩ := (hcovers r'.1).2 h'.covers_head
          cases hq
  | cons r rs ih =>
      cases rs' with
      | nil =>
          obtain ⟨q, hq, -⟩ := (hcovers r.1).1 h.covers_head
          cases hq
      | cons r' rs' =>
          have hlow : r.1 = r'.1 := UInt8.le_antisymm
            (h.head_le_of_covers ((hcovers r'.1).2 h'.covers_head))
            (h'.head_le_of_covers ((hcovers r.1).1 h.covers_head))
          have hhigh : r.2 = r'.2 := UInt8.le_antisymm
            (h'.last_le hlow fun b hb hb' =>
              (hcovers b).1 ⟨r, List.mem_cons_self, hb, hb'⟩)
            (h.last_le hlow.symm fun b hb hb' =>
              (hcovers b).2 ⟨r', List.mem_cons_self, hb, hb'⟩)
          have htail : rs = rs' := by
            apply ih h.tail h'.tail
            intro b
            rw [h.covers_tail_iff, h'.covers_tail_iff, hcovers, hhigh]
          rw [Prod.ext hlow hhigh, htail]

end Separate

/-! ### Collecting the runs -/

section Collecting

variable {r : Byte × Byte} {rs : List (Byte × Byte)} {seen bs : List Byte} {b c : Byte}

theorem covers_cons_iff : Covers (r :: rs) b ↔ (r.1 ≤ b ∧ b ≤ r.2) ∨ Covers rs b :=
  List.exists_mem_cons_iff _ _ _

theorem separate_concat_iff :
    Separate (rs ++ [r]) ↔ Separate rs ∧ r.1 ≤ r.2 ∧ ∀ q ∈ rs, Apart q r := by
  constructor
  · rintro ⟨hle, hapart⟩
    obtain ⟨hfront, -, hlast⟩ := List.pairwise_append.1 hapart
    exact ⟨⟨fun q hq => hle q (List.mem_append_left _ hq), hfront⟩, hle r (by simp),
      fun q hq => hlast q hq r (by simp)⟩
  · rintro ⟨⟨hle, hapart⟩, hr, hlast⟩
    refine ⟨?_, List.pairwise_append.2 ⟨hapart, List.pairwise_singleton _ _, ?_⟩⟩
    · intro q hq
      rcases List.mem_append.1 hq with hq | hq
      · exact hle q hq
      · rwa [List.mem_singleton.1 hq]
    · intro q hq q' hq'
      rw [List.mem_singleton.1 hq']
      exact hlast q hq

/-- The runs, latest first, hold exactly the bytes `seen`. -/
structure Collected (seen : List Byte) (rs : List (Byte × Byte)) : Prop where
  separate : Separate rs.reverse
  covers : ∀ b, Covers rs b ↔ b ∈ seen

theorem collected_nil : Collected [] [] where
  separate := ⟨by simp, List.Pairwise.nil⟩
  covers b := by simp [Covers]

/-- A byte above all others is added to the latest run or begins one. -/
theorem Collected.addToRuns (h : Collected seen rs) (hb : ∀ a ∈ seen, a < b) :
    Collected (seen ++ [b]) (addToRuns rs b) := by
  have hself : ∀ c, b ≤ c ∧ c ≤ b ↔ c = b := fun c =>
    ⟨fun h => UInt8.le_antisymm h.2 h.1, fun h => h ▸ ⟨UInt8.le_refl _, UInt8.le_refl _⟩⟩
  cases rs with
  | nil =>
      refine ⟨separate_concat_iff.2 ⟨⟨by simp, .nil⟩, UInt8.le_refl b, by simp⟩, ?_⟩
      intro c
      rw [ByteSet.addToRuns, covers_cons_iff, h.covers, hself, List.mem_append,
        List.mem_singleton, or_comm]
  | cons r before =>
      obtain ⟨lo, hi⟩ := r
      have hparts := h.separate
      rw [List.reverse_cons] at hparts
      obtain ⟨hbefore, hle, hapart⟩ := separate_concat_iff.1 hparts
      have hbelow : hi.toNat < b.toNat := UInt8.lt_iff_toNat_lt.1
        (hb hi ((h.covers hi).1 ⟨(lo, hi), List.mem_cons_self, hle, UInt8.le_refl hi⟩))
      replace hle : lo.toNat ≤ hi.toNat := UInt8.le_iff_toNat_le.1 hle
      rw [ByteSet.addToRuns]
      split
      · rename_i hnext
        refine ⟨?_, ?_⟩
        · rw [List.reverse_cons, separate_concat_iff]
          exact ⟨hbefore, UInt8.le_iff_toNat_le.2 (show lo.toNat ≤ b.toNat by omega), hapart⟩
        · intro c
          have hgrown : lo ≤ c ∧ c ≤ b ↔ (lo ≤ c ∧ c ≤ hi) ∨ c = b := by
            rw [← UInt8.toNat_inj]
            simp only [UInt8.le_iff_toNat_le]
            omega
          rw [List.mem_append, List.mem_singleton, ← h.covers, covers_cons_iff,
            covers_cons_iff, hgrown, or_right_comm]
      · rename_i hgap
        refine ⟨?_, ?_⟩
        · rw [List.reverse_cons, separate_concat_iff]
          refine ⟨h.separate, UInt8.le_refl b, ?_⟩
          intro q hq
          rw [List.reverse_cons, List.mem_append, List.mem_singleton] at hq
          rcases hq with hq | rfl
          · have : q.2.toNat + 1 < lo.toNat := hapart q hq
            show q.2.toNat + 1 < b.toNat
            omega
          · show hi.toNat + 1 < b.toNat
            omega
        · intro c
          rw [List.mem_append, List.mem_singleton, ← h.covers, covers_cons_iff, hself, or_comm]

theorem collected_foldl (h : Collected seen rs) (hbs : (seen ++ bs).Pairwise (· < ·)) :
    Collected (seen ++ bs) (bs.foldl ByteSet.addToRuns rs) := by
  induction bs generalizing seen rs with
  | nil =>
      rwa [List.append_nil]
  | cons b bs ih =>
      have hb : ∀ a ∈ seen, a < b := fun a ha =>
        (List.pairwise_append.1 hbs).2.2 a ha b List.mem_cons_self
      rw [List.append_cons] at hbs ⊢
      exact ih (h.addToRuns hb) hbs

end Collecting

/-! ### The runs of a byte set -/

variable {s : ByteSet} {rs : List (Byte × Byte)}

theorem members_pairwise (s : ByteSet) : s.members.Pairwise (· < ·) :=
  Byte.all_pairwise.filter _

theorem collected_members (s : ByteSet) :
    Collected s.members (s.members.foldl ByteSet.addToRuns []) := by
  have hpairwise : ([] ++ s.members).Pairwise (· < ·) := s.members_pairwise
  exact collected_foldl collected_nil hpairwise

theorem separate_runs (s : ByteSet) : Separate s.runs :=
  s.collected_members.separate

theorem covers_runs_iff {b : Byte} : Covers s.runs b ↔ s.contains b = true := by
  rw [← mem_members, ← s.collected_members.covers]
  simp [Covers, runs]

/-- The set of the bytes of some runs, added one run after the other. -/
def ofRuns (rs : List (Byte × Byte)) : ByteSet :=
  rs.foldl (fun s r => s.insertRange r.1 r.2) empty

theorem contains_ofRuns_iff {b : Byte} : (ofRuns rs).contains b = true ↔ Covers rs b := by
  have hfold : ∀ s : ByteSet, (rs.foldl (fun s r => s.insertRange r.1 r.2) s).contains b = true ↔
      s.contains b = true ∨ Covers rs b := by
    induction rs with
    | nil =>
        simp [Covers]
    | cons r rs ih =>
        intro s
        rw [List.foldl_cons, ih, covers_cons_iff, ← or_assoc]
        simp
  rw [ofRuns, hfold, contains_empty]
  simp

/-- The maximal runs of a byte set: bounds in increasing order, at least one absent byte
between one run and the next, and together all members. -/
structure IsRuns (s : ByteSet) (rs : List (Byte × Byte)) : Prop where
  le : ∀ r ∈ rs, r.1 ≤ r.2
  absent : rs.IsChain fun r r' => ∃ b, r.2 < b ∧ b < r'.1 ∧ s.contains b = false
  ofRuns_eq : ofRuns rs = s

theorem separate_of_isChain (hle : ∀ r ∈ rs, r.1 ≤ r.2) (hapart : rs.IsChain Apart) :
    Separate rs := by
  refine ⟨hle, ?_⟩
  induction rs with
  | nil =>
      exact List.Pairwise.nil
  | cons r rs ih =>
      have hrest := ih (fun q hq => hle q (List.mem_cons_of_mem r hq)) hapart.tail
      refine List.pairwise_cons.2 ⟨?_, hrest⟩
      cases rs with
      | nil =>
          simp
      | cons r' rs =>
          have hnext : r.2.toNat + 1 < r'.1.toNat := (List.isChain_cons_cons.1 hapart).1
          have hle' := UInt8.le_iff_toNat_le.1 (hle r' (by simp))
          intro q hq
          rcases List.mem_cons.1 hq with rfl | hq
          · exact hnext
          · have : r'.2.toNat + 1 < q.1.toNat := (List.pairwise_cons.1 hrest).1 q hq
            show r.2.toNat + 1 < q.1.toNat
            omega

theorem IsRuns.separate (h : s.IsRuns rs) : Separate rs := by
  refine separate_of_isChain h.le (h.absent.imp ?_)
  rintro r r' ⟨b, hlow, hhigh, -⟩
  rw [UInt8.lt_iff_toNat_lt] at hlow hhigh
  show r.2.toNat + 1 < r'.1.toNat
  omega

/-- The byte behind a run is not covered by any run. -/
theorem Separate.not_covers (h : Separate rs) {r : Byte × Byte} (hr : r ∈ rs) {c : Byte}
    (hc : c.toNat = r.2.toNat + 1) : ¬Covers rs c := by
  rintro ⟨q, hq, hlow, hhigh⟩
  have hle := UInt8.le_iff_toNat_le.1 (h.le r hr)
  rw [UInt8.le_iff_toNat_le, hc] at hlow hhigh
  obtain ⟨before, behind, rfl⟩ := List.append_of_mem hr
  obtain ⟨-, hbehind, hbefore⟩ := List.pairwise_append.1 h.apart
  rcases List.mem_append.1 hq with hq | hq
  · have : q.2.toNat + 1 < r.1.toNat := hbefore q hq r List.mem_cons_self
    omega
  · rcases List.mem_cons.1 hq with rfl | hq
    · omega
    · have : r.2.toNat + 1 < q.1.toNat := (List.pairwise_cons.1 hbehind).1 q hq
      omega

theorem Separate.isRuns (h : Separate rs) (hrs : ofRuns rs = s) : s.IsRuns rs := by
  refine ⟨h.le, (h.apart.imp_of_mem ?_).isChain, hrs⟩
  intro r r' hr _ hapart
  have hroom : r.2.toNat + 1 < r'.1.toNat := hapart
  have hc : (UInt8.ofNat (r.2.toNat + 1)).toNat = r.2.toNat + 1 :=
    UInt8.toNat_ofNat_of_lt' (show _ < 256 by have := r'.1.toNat_lt; omega)
  refine ⟨UInt8.ofNat (r.2.toNat + 1), ?_, ?_, ?_⟩
  · rw [UInt8.lt_iff_toNat_lt, hc]
    omega
  · rwa [UInt8.lt_iff_toNat_lt, hc]
  · rw [← hrs, Bool.eq_false_iff, ne_eq, contains_ofRuns_iff]
    exact h.not_covers hr hc

theorem isRuns_iff : s.IsRuns rs ↔ rs = s.runs := by
  constructor
  · intro h
    apply h.separate.unique s.separate_runs
    intro b
    rw [covers_runs_iff, ← contains_ofRuns_iff, h.ofRuns_eq]
  · rintro rfl
    apply s.separate_runs.isRuns
    apply ext_contains
    intro b
    rw [Bool.eq_iff_iff, contains_ofRuns_iff, covers_runs_iff]

/-- A run over the border between two words, and one that ends with the last byte. -/
example : ((range 0x3E 0x41).insertRange 0xFE 0xFF).runs = [(0x3E, 0x41), (0xFE, 0xFF)] := by
  decide

/-! ### The set of the members -/

/-- The set that a byte set stands for. -/
def toSet (s : ByteSet) : Set Byte := {b | s.contains b = true}

theorem toSet_eq_empty_iff : s.toSet = ∅ ↔ s = empty := by
  constructor
  · intro h
    apply ext_contains
    intro b
    rw [contains_empty, Bool.eq_false_iff]
    exact Set.eq_empty_iff_forall_notMem.1 h b
  · rintro rfl
    ext b
    simp [toSet]

theorem ncard_toSet (s : ByteSet) : s.toSet.ncard = s.size := by
  have hnodup : s.members.Nodup := s.members_pairwise.imp UInt8.ne_of_lt
  have hset : s.toSet = ↑s.members.toFinset := by
    ext b
    simp [toSet, mem_members]
  rw [hset, Set.ncard_coe_finset, List.toFinset_card_of_nodup hnodup, size_eq_length_members]

/-- **The bitmap represents sets of bytes.** -/
theorem toSet_exact (s t : ByteSet) (b lo hi : Byte) :
    (s.insert b).toSet = s.toSet ∪ {b} ∧
    (s.erase b).toSet = s.toSet \ {b} ∧
    (s.insertRange lo hi).toSet = s.toSet ∪ {c | lo ≤ c ∧ c ≤ hi} ∧
    (s.union t).toSet = s.toSet ∪ t.toSet ∧
    s.negate.toSet = s.toSetᶜ ∧
    (s = t ↔ ∀ c, s.contains c = t.contains c) ∧
    s.size = s.toSet.ncard ∧
    (s.isEmpty = true ↔ s.toSet = ∅) ∧
    (∀ c, c ∈ s.members ↔ c ∈ s.toSet) ∧ s.members.Pairwise (· < ·) ∧
    ∀ rs, s.IsRuns rs ↔ rs = s.runs := by
  refine ⟨?_, ?_, ?_, ?_, ?_, ?_, ?_, ?_, ?_, ?_, ?_⟩
  · ext c
    simp [toSet, or_comm]
  · ext c
    simp [toSet]
  · ext c
    simp [toSet]
  · ext c
    simp [toSet]
  · ext c
    simp [toSet]
  · exact ⟨fun h c => congrArg (·.contains c) h, ext_contains⟩
  · exact s.ncard_toSet.symm
  · rw [isEmpty_eq_true_iff, toSet_eq_empty_iff]
  · exact fun c => mem_members
  · exact s.members_pairwise
  · exact fun rs => isRuns_iff

end ByteSet
end Munch
