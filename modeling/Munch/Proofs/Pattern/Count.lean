import Munch.Proofs.Pattern.Soundness

/-!
# The values computed for a count

A count is computed digit by digit, and given up at the first value above `maxCount`.  The
values on the way are therefore small, however many digits there are, and the words of the
machine that hold them do not wrap around.

**Results.**
* `readsValues`: a count is the last of its values, and read if none of them is too large.
* `runningValues_le`, `toNat_runningWords`: how large the values are, in numbers and in words.
-/

namespace Munch
namespace Pattern

/-- The values that reading the digits of a count computes one after the other, starting from
`value`, up to the first that is too large. -/
def runningValues : Nat → List Byte → List Nat
  | _, [] => []
  | value, b :: rest =>
    match b.digit? with
    | none => []
    | some d =>
      (value * 10 + d) ::
        if value * 10 + d ≤ maxCount then runningValues (value * 10 + d) rest else []

/-- The same values in machine words, whose arithmetic could wrap around. -/
def runningWords : UInt32 → List Byte → List UInt32
  | _, [] => []
  | value, b :: rest =>
    match b.digit? with
    | none => []
    | some d =>
      (value * 10 + UInt32.ofNat d) ::
        if value * 10 + UInt32.ofNat d ≤ UInt32.ofNat maxCount then
          runningWords (value * 10 + UInt32.ofNat d) rest
        else []

section Counts

variable {b : Byte} {bytes : List Byte} {value d : Nat}

theorem digit?_le (h : b.digit? = some d) : d ≤ 9 := by
  obtain ⟨hdigit, rfl⟩ := digit?_eq_some h
  simp only [Byte.isDigit, Bool.and_eq_true, decide_eq_true_eq, UInt8.le_iff_toNat_le] at hdigit
  have hb : b.toNat ≤ 0x39 := hdigit.2
  omega

theorem runningValues_of_digit?_eq_none (h : b.digit? = none) :
    runningValues value (b :: bytes) = [] := by
  simp only [runningValues, h]

theorem runningValues_of_le (h : b.digit? = some d) (hle : value * 10 + d ≤ maxCount) :
    runningValues value (b :: bytes) =
      (value * 10 + d) :: runningValues (value * 10 + d) bytes := by
  simp only [runningValues, h, if_pos hle]

theorem runningValues_of_not_le (h : b.digit? = some d) (hlarge : ¬value * 10 + d ≤ maxCount) :
    runningValues value (b :: bytes) = [value * 10 + d] := by
  simp only [runningValues, h, if_neg hlarge]

theorem runningValues_le (bytes : List Byte) (hvalue : value ≤ maxCount) :
    ∀ v ∈ runningValues value bytes, v ≤ 2559 := by
  induction bytes generalizing value with
  | nil =>
      intro v hv
      cases hv
  | cons b bytes ih =>
      cases hd : b.digit? with
      | none =>
          rw [runningValues_of_digit?_eq_none hd]
          intro v hv
          cases hv
      | some d =>
          have hnext : value * 10 + d ≤ 2559 := by
            have hdigit := digit?_le hd
            simp only [maxCount] at hvalue
            omega
          by_cases hle : value * 10 + d ≤ maxCount
          · rw [runningValues_of_le hd hle]
            exact List.forall_mem_cons.2 ⟨hnext, ih hle⟩
          · rw [runningValues_of_not_le hd hle]
            exact List.forall_mem_singleton.2 hnext

example : runningValues 0 [50, 53, 53, 57, 48] = [2, 25, 255, 2559] := rfl

/-- No word wraps around. -/
theorem toNat_runningWords {word : UInt32} (bytes : List Byte) (hword : word.toNat ≤ maxCount) :
    (runningWords word bytes).map UInt32.toNat = runningValues word.toNat bytes := by
  induction bytes generalizing word with
  | nil =>
      rfl
  | cons b bytes ih =>
      rw [runningWords, runningValues]
      split
      · rfl
      · rename_i d hd
        have hnext : (word * 10 + UInt32.ofNat d).toNat = word.toNat * 10 + d := by
          have hdigit := digit?_le hd
          simp only [maxCount] at hword
          simp only [UInt32.toNat_add, UInt32.toNat_mul, UInt32.toNat_ofNat']
          rw [show UInt32.toNat 10 = 10 from rfl]
          omega
        have hmax : word * 10 + UInt32.ofNat d ≤ UInt32.ofNat maxCount ↔
            word.toNat * 10 + d ≤ maxCount := by
          rw [UInt32.le_iff_toNat_le, hnext]
          rfl
        rw [List.map_cons, hnext]
        simp only [hmax]
        split
        · rename_i hle
          rw [ih (by rwa [hnext]), hnext]
        · rfl

theorem digits_ok {start offset : Nat} {r : Reading (bytes.length + 1) Nat}
    (h : digits start value offset bytes = .ok r) :
    (∀ v ∈ runningValues value bytes, v ≤ maxCount) ∧
      r.value = (runningValues value bytes).getLast?.getD value ∧
      r.offset = offset + (runningValues value bytes).length := by
  induction bytes generalizing value offset with
  | nil =>
      cases h
      exact ⟨by simp [runningValues], rfl, rfl⟩
  | cons b bytes ih =>
      rw [digits] at h
      split at h
      · rename_i hd
        cases h
        rw [runningValues_of_digit?_eq_none hd]
        exact ⟨by simp, rfl, rfl⟩
      · rename_i d hd
        split at h
        · rename_i hle
          split at h
          · cases h
          · rename_i r' hr'
            cases h
            obtain ⟨hall, hvalue, hoffset⟩ := ih hr'
            rw [runningValues_of_le hd hle]
            refine ⟨List.forall_mem_cons.2 ⟨hle, hall⟩, ?_, ?_⟩
            · rw [List.getLast?_cons, Option.getD_some]
              exact hvalue
            · show r'.offset = _
              rw [hoffset, List.length_cons]
              omega
        · cases h

theorem digits_error {start offset : Nat} {e : PatternError}
    (h : digits start value offset bytes = .error e) :
    e = ⟨start, .countTooLarge maxCount⟩ ∧ ∃ v ∈ runningValues value bytes, maxCount < v := by
  induction bytes generalizing value offset with
  | nil =>
      cases h
  | cons b bytes ih =>
      rw [digits] at h
      split at h
      · cases h
      · rename_i d hd
        split at h
        · rename_i hle
          split at h
          · rename_i e' he'
            cases h
            obtain ⟨hreason, v, hv, hlarge⟩ := ih he'
            rw [runningValues_of_le hd hle]
            exact ⟨hreason, v, List.mem_cons_of_mem _ hv, hlarge⟩
          · cases h
        · rename_i hlarge
          cases h
          rw [runningValues_of_not_le hd hlarge]
          exact ⟨rfl, _, List.mem_singleton_self _, Nat.lt_of_not_le hlarge⟩

/-- A count is read exactly if no value it computes is too large, and is the last of them. -/
structure ReadsValues (offset : Nat) (bytes : List Byte) : Prop where
  ok : ∀ r, number offset bytes = .ok r → (∀ v ∈ runningValues 0 bytes, v ≤ maxCount) ∧
    r.value = (runningValues 0 bytes).getLast? ∧
    r.offset = offset + (runningValues 0 bytes).length
  error : ∀ e, number offset bytes = .error e →
    e = ⟨offset, .countTooLarge maxCount⟩ ∧ ∃ v ∈ runningValues 0 bytes, maxCount < v

theorem runningValues_ne_nil (h : bytes.head?.any Byte.isDigit = true) :
    runningValues value bytes ≠ [] := by
  cases bytes with
  | nil =>
      cases h
  | cons b bytes =>
      have hdigit : b.isDigit = true := h
      rw [runningValues, Byte.digit?, if_pos hdigit]
      exact List.cons_ne_nil _ _

theorem runningValues_eq_nil (h : ¬bytes.head?.any Byte.isDigit = true) :
    runningValues value bytes = [] := by
  cases bytes with
  | nil =>
      rfl
  | cons b bytes =>
      have hdigit : ¬b.isDigit = true := h
      apply runningValues_of_digit?_eq_none
      rw [Byte.digit?, if_neg hdigit]

theorem readsValues (offset : Nat) (bytes : List Byte) : ReadsValues offset bytes := by
  refine ⟨fun r h => ?_, fun e h => ?_⟩
  · unfold number at h
    split at h
    · rename_i hhead
      split at h
      · cases h
      · rename_i r' hr'
        cases h
        obtain ⟨hall, hvalue, hoffset⟩ := digits_ok hr'
        refine ⟨hall, ?_, hoffset⟩
        rw [List.getLast?_eq_some_getLast (runningValues_ne_nil hhead)] at hvalue ⊢
        exact congrArg some hvalue
    · rename_i hhead
      cases h
      rw [runningValues_eq_nil hhead]
      exact ⟨by simp, rfl, rfl⟩
  · unfold number at h
    split at h
    · split at h
      · rename_i e' he'
        cases h
        exact digits_error he'
      · cases h
    · cases h

end Counts

end Pattern
end Munch
