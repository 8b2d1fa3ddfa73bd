import Munch.ByteSet

/-!
# Byte classes

**Input.**  A list of byte sets.

**Algorithm.**  At first all bytes have the same label.  Each set in turn splits the
bytes of a label into those inside the set and those outside; the labels are then given
anew, in the order in which they are met on the way through the bytes.  In the end a
label is a class, and the least byte with a label represents it.
-/

namespace Munch

/-- A label for each byte, by the value of the byte, and how many labels there are. -/
structure ByteLabels where
  count : Nat
  numbers : Array Nat

namespace ByteLabels

/-- The label of a byte. -/
def number (labels : ByteLabels) (b : Byte) : Nat := labels.numbers.getD b.toNat 0

/-- One label for all bytes. -/
def coarse : ByteLabels := ⟨1, Array.replicate 256 0⟩

/-- Bytes with the same key get the same label.  The labels are the places of the keys in
the order in which the keys are met. -/
def ofKey {κ : Type} [BEq κ] (key : Byte → κ) : ByteLabels :=
  let keys := Byte.all.map key
  let distinct := keys.eraseDups
  { count := distinct.length
    numbers := (keys.map distinct.idxOf).toArray }

/-- The labels after the bytes inside `s` are told apart from those outside. -/
def splitBy (labels : ByteLabels) (s : ByteSet) : ByteLabels :=
  ofKey fun b => (labels.number b, s.contains b)

/-- The least byte with the label `n`. -/
def least (labels : ByteLabels) (n : Nat) : Byte :=
  (Byte.all.find? fun b => labels.number b == n).getD 0

end ByteLabels

/-- A partition of the bytes into numbered classes. -/
structure ByteClasses where
  /-- The least byte of each class, in the order of the classes. -/
  representatives : List Byte
  /-- The class of each byte, by the value of the byte. -/
  numbers : Array Nat

namespace ByteClasses

/-- The partition that the sets make when they split the bytes one after the other. -/
def ofSets (sets : List ByteSet) : ByteClasses :=
  let labels := sets.foldl ByteLabels.splitBy .coarse
  { representatives := (List.range labels.count).map labels.least
    numbers := labels.numbers }

/-- The class of a byte. -/
def number (classes : ByteClasses) (b : Byte) : Nat := classes.numbers.getD b.toNat 0

/-- The number of classes. -/
def count (classes : ByteClasses) : Nat := classes.representatives.length

end ByteClasses
end Munch
