import Munch.Byte

/-!
# Sets of bytes

A byte set is a bitmap in four words of 64 bits: bit `n % 64` of word `n / 64` tells whether
byte `n` belongs.  Membership `ByteSet.contains` is the view of the type: each operation has
one lemma that says what it does to membership, and what is proved elsewhere about sets looks
at members and not at words.

**Algorithm.**  `ByteSet.runs` goes through the members in increasing order and keeps the runs
that it has met, the latest in front: a member just above that run extends it, and any other
begins a run of its own.

**Results.**
* `ByteSet.contains_eq_getLsbD`: the mask of a byte picks its bit out of its word.
* `ByteSet.ext_contains`: two sets with the same members are equal.
* `ByteSet.contains_insert`, `contains_erase`, `contains_range`,
  `contains_insertRange`, `contains_union`, `contains_negate`: the operations
  are the set operations.
* `ByteSet.mem_members`: the listing has exactly the members.
-/

namespace Munch
namespace Byte

theorem toNat_shiftRight_six (b : Byte) : (b >>> 6).toNat = b.toNat / 64 := by
  rw [UInt8.toNat_shiftRight, Nat.shiftRight_eq_div_pow]
  rfl

/-- The word that has the bit of the byte. -/
def slot (b : Byte) : Fin 4 :=
  ⟨(b >>> 6).toNat, by
    rw [toNat_shiftRight_six]
    exact Nat.div_lt_of_lt_mul b.toNat_lt⟩

/-- The word with the bit of the byte alone. -/
def mask (b : Byte) : UInt64 := 1 <<< (b &&& 63).toUInt64

theorem val_slot (b : Byte) : b.slot.val = b.toNat / 64 := toNat_shiftRight_six b

theorem place_lt (b : Byte) : b.toNat % 64 < 64 := Nat.mod_lt _ (by decide)

theorem toBitVec_mask (b : Byte) : b.mask.toBitVec = BitVec.twoPow 64 (b.toNat % 64) := by
  have hplace : (b &&& 63).toNat = b.toNat % 64 := by
    rw [UInt8.toNat_and]
    exact Nat.and_two_pow_sub_one_eq_mod b.toNat 6
  rw [mask, UInt64.toBitVec_shiftLeft, BitVec.twoPow_eq]
  show 1#64 <<< ((b &&& 63).toUInt64.toBitVec % 64) = _
  rw [BitVec.shiftLeft_eq', BitVec.toNat_umod]
  congr 1
  show (b &&& 63).toUInt64.toNat % 64 = _
  rw [UInt8.toNat_toUInt64, hplace, Nat.mod_mod]

/-- A byte is known by its word and its place there. -/
theorem eq_iff_slot {a b : Byte} : a = b ↔ a.slot = b.slot ∧ a.toNat % 64 = b.toNat % 64 := by
  rw [Fin.ext_iff, val_slot, val_slot, ← UInt8.toNat_inj]
  omega

end Byte

/-- A set of byte values. -/
structure ByteSet where
  words : Vector UInt64 4
deriving DecidableEq

namespace ByteSet

/-- The word with the given number. -/
def wordAt (s : ByteSet) (i : Fin 4) : UInt64 := s.words.toArray[i.val]

/-- The set with another word in one place. -/
def setWordAt (s : ByteSet) (i : Fin 4) (word : UInt64) : ByteSet := ⟨s.words.set i word⟩

theorem wordAt_eq (s : ByteSet) (i : Fin 4) : s.wordAt i = s.words[i] := rfl

theorem wordAt_setWordAt (s : ByteSet) (i j : Fin 4) (word : UInt64) :
    (s.setWordAt i word).wordAt j = if i = j then word else s.wordAt j := by
  simp only [wordAt_eq, setWordAt, Fin.getElem_fin, Vector.getElem_set, Fin.val_inj]

/-- Membership. -/
def contains (s : ByteSet) (b : Byte) : Bool := s.wordAt b.slot &&& b.mask != 0

/-- The mask of a byte picks its bit out of its word. -/
theorem contains_eq_getLsbD (s : ByteSet) (b : Byte) :
    s.contains b = (s.wordAt b.slot).toBitVec.getLsbD (b.toNat % 64) := by
  have hmask : BitVec.twoPow 64 (b.toNat % 64) ≠ 0#64 := by
    intro hzero
    have hbit := congrArg (·.getLsbD (b.toNat % 64)) hzero
    simp [b.place_lt] at hbit
  rw [contains, Bool.eq_iff_iff, bne_iff_ne, ne_eq, ← UInt64.toBitVec_inj, UInt64.toBitVec_and,
    Byte.toBitVec_mask, BitVec.and_twoPow]
  cases (s.wordAt b.slot).toBitVec.getLsbD (b.toNat % 64) <;> simp [hmask]

/-- Another word in one place leaves the bytes of the other words alone. -/
theorem contains_setWordAt (s : ByteSet) (i : Fin 4) (word : UInt64) (b : Byte) :
    (s.setWordAt i word).contains b =
      if i = b.slot then word.toBitVec.getLsbD (b.toNat % 64) else s.contains b := by
  rw [contains_eq_getLsbD, contains_eq_getLsbD, wordAt_setWordAt]
  split <;> rfl

/-- The bytes of one word, by their places in it. -/
theorem contains_ofNat (s : ByteSet) (i : Fin 4) {j : Nat} (hj : j < 64) :
    s.contains (UInt8.ofNat (64 * i + j)) = (s.wordAt i).toBitVec.getLsbD j := by
  let b : Byte := UInt8.ofNat (64 * i + j)
  have hb : b.toNat = 64 * i + j := UInt8.toNat_ofNat_of_lt' (show _ < 256 by omega)
  have hslot : b.slot = i := by
    apply Fin.ext
    rw [Byte.val_slot, hb]
    omega
  show s.contains b = _
  rw [contains_eq_getLsbD, hslot, hb, Nat.mul_add_mod, Nat.mod_eq_of_lt hj]

theorem ext_contains {s t : ByteSet} (h : ∀ b, s.contains b = t.contains b) : s = t := by
  obtain ⟨s⟩ := s
  obtain ⟨t⟩ := t
  congr
  apply Vector.ext
  intro i hi
  apply UInt64.toBitVec_inj.1
  apply BitVec.eq_of_getLsbD_eq
  intro j hj
  have hbit := h (UInt8.ofNat (64 * i + j))
  rwa [contains_ofNat _ ⟨i, hi⟩ hj, contains_ofNat _ ⟨i, hi⟩ hj] at hbit

/-- The set without members. -/
def empty : ByteSet := ⟨Vector.replicate 4 0⟩

instance : Inhabited ByteSet := ⟨empty⟩

@[simp] theorem contains_empty (b : Byte) : empty.contains b = false := by
  simp [contains_eq_getLsbD, empty, wordAt_eq]

/-- The bytes outside the set. -/
def negate (s : ByteSet) : ByteSet := ⟨.ofFn fun i => ~~~ s.wordAt i⟩

@[simp] theorem contains_negate (s : ByteSet) (b : Byte) :
    s.negate.contains b = !s.contains b := by
  simp [contains_eq_getLsbD, negate, wordAt_eq, b.place_lt]

/-- The set of all bytes. -/
def full : ByteSet := ⟨Vector.replicate 4 0xFFFFFFFFFFFFFFFF⟩

@[simp] theorem contains_full (b : Byte) : full.contains b = true := by
  have hword : full.wordAt b.slot = 0xFFFFFFFFFFFFFFFF := by simp [full, wordAt_eq]
  have hones : (0xFFFFFFFFFFFFFFFF : UInt64).toBitVec = BitVec.allOnes 64 := by decide
  rw [contains_eq_getLsbD, hword, hones, BitVec.getLsbD_allOnes]
  exact decide_eq_true b.place_lt

/-- The bytes of either set. -/
def union (s t : ByteSet) : ByteSet := ⟨.ofFn fun i => s.wordAt i ||| t.wordAt i⟩

@[simp] theorem contains_union (s t : ByteSet) (b : Byte) :
    (s.union t).contains b = (s.contains b || t.contains b) := by
  simp [contains_eq_getLsbD, union, wordAt_eq]

/-- The set with `b` added. -/
def insert (s : ByteSet) (b : Byte) : ByteSet :=
  s.setWordAt b.slot (s.wordAt b.slot ||| b.mask)

@[simp] theorem contains_insert (s : ByteSet) (a b : Byte) :
    (s.insert a).contains b = (s.contains b || decide (b = a)) := by
  rw [insert, contains_setWordAt]
  split
  · rename_i hslot
    simp [contains_eq_getLsbD, hslot, Byte.eq_iff_slot, Byte.toBitVec_mask, b.place_lt, eq_comm]
  · rename_i hslot
    simp [Byte.eq_iff_slot, Ne.symm hslot]

/-- The set with `b` taken out. -/
def erase (s : ByteSet) (b : Byte) : ByteSet :=
  s.setWordAt b.slot (s.wordAt b.slot &&& ~~~ b.mask)

@[simp] theorem contains_erase (s : ByteSet) (a b : Byte) :
    (s.erase a).contains b = (s.contains b && !decide (b = a)) := by
  rw [erase, contains_setWordAt]
  split
  · rename_i hslot
    simp [contains_eq_getLsbD, hslot, Byte.eq_iff_slot, Byte.toBitVec_mask, b.place_lt, eq_comm]
  · rename_i hslot
    simp [Byte.eq_iff_slot, Ne.symm hslot]

theorem contains_foldl_insert (bs : List Byte) (s : ByteSet) (b : Byte) :
    (bs.foldl insert s).contains b = (s.contains b || decide (b ∈ bs)) := by
  induction bs generalizing s with
  | nil => simp
  | cons a bs ih => simp [ih, Bool.or_assoc]

/-- The set with the bytes from `lo` to `hi` added. -/
def insertRange (s : ByteSet) (lo hi : Byte) : ByteSet := (Byte.interval lo hi).foldl insert s

@[simp] theorem contains_insertRange (s : ByteSet) (lo hi b : Byte) :
    (s.insertRange lo hi).contains b = (s.contains b || (decide (lo ≤ b) && decide (b ≤ hi))) := by
  rw [insertRange, contains_foldl_insert]
  simp [Byte.mem_interval]

/-- The set whose only member is `b`. -/
def single (b : Byte) : ByteSet := empty.insert b

@[simp] theorem contains_single (a b : Byte) :
    (single a).contains b = decide (b = a) := by
  simp [single]

/-- The bytes from `lo` to `hi`, both included; none when `lo` exceeds `hi`. -/
def range (lo hi : Byte) : ByteSet := empty.insertRange lo hi

@[simp] theorem contains_range (lo hi b : Byte) :
    (range lo hi).contains b = (decide (lo ≤ b) && decide (b ≤ hi)) := by
  simp [range]

/-- Whether no byte belongs. -/
def isEmpty (s : ByteSet) : Bool := s.words.toList.all (· == 0)

/-- The members in increasing order. -/
def members (s : ByteSet) : List Byte := Byte.all.filter s.contains

theorem mem_members {s : ByteSet} {b : Byte} : b ∈ s.members ↔ s.contains b = true := by
  simp [members, Byte.mem_all]

/-- The number of members, counted word by word. -/
def size (s : ByteSet) : Nat :=
  s.words.toList.foldl (fun count word => count + word.toBitVec.cpop.toNat) 0

/-- The runs of consecutive bytes in decreasing order, with the byte `b` above all of them
added: the first one is extended if it ends just below `b`. -/
def addToRuns (runs : List (Byte × Byte)) (b : Byte) : List (Byte × Byte) :=
  match runs with
  | [] => [(b, b)]
  | (lo, hi) :: before =>
    if hi.toNat + 1 = b.toNat then (lo, b) :: before else (b, b) :: (lo, hi) :: before

/-- The maximal runs of consecutive members, as inclusive bounds. -/
def runs (s : ByteSet) : List (Byte × Byte) := (s.members.foldl addToRuns []).reverse

/-- The set in brackets, its runs written as a byte or as `lo-hi`. -/
def display (s : ByteSet) : String :=
  let run : Byte × Byte → String := fun (lo, hi) =>
    if lo = hi then lo.escaped else lo.escaped ++ "-" ++ hi.escaped
  "[" ++ String.join (s.runs.map run) ++ "]"

/-! ### Named sets -/

/-- Every byte but the newline. -/
def anyButNewline : ByteSet := full.erase Ascii.newline

/-- The decimal digits. -/
def digit : ByteSet := range 0x30 0x39

/-- Letters, digits and the underscore. -/
def word : ByteSet := ((digit.insertRange 0x61 0x7A).insertRange 0x41 0x5A).insert 0x5F

/-- Space, tab, newline, carriage return, vertical tab and form feed. -/
def space : ByteSet := (range 0x09 0x0D).insert 0x20

/-- The set that a letter after a backslash stands for, a capital being the
complement of its small letter. -/
def shorthand? (letter : Byte) : Option ByteSet :=
  match letter with
  | 0x64 => some digit
  | 0x44 => some digit.negate
  | 0x77 => some word
  | 0x57 => some word.negate
  | 0x73 => some space
  | 0x53 => some space.negate
  | _ => none

end ByteSet
end Munch
