import Mathlib.Tactic.IntervalCases
import Munch.Pattern.Printer
import Munch.Proofs.Pattern.WellFormed

/-!
# Well-formed patterns and their prints

The print of a well-formed pattern is one operand of the grammar, in whichever place it
stands: groups keep the parts of lists together, bounds follow a group's operand, and a
class spells each member by its digits, so that no byte of it has another meaning.

**Results.**
* `decimalValue_decimal`, `classMember_hexEscaped`: numbers and bytes by their digits.
* `elements_hexEscaped`: the spelling of the members of a class.
* `WellFormed.atom_print`: the print, by induction on the pattern.
* `exists_parse_iff_wellFormed`: the patterns that can be read, and a spelling for each.
-/

namespace Munch
namespace Pattern

/-! ### Numbers -/

/-- The digit with the given value, as a byte. -/
def digitByte (d : Nat) : Byte := UInt8.ofNat (Nat.digitChar d).toNat

theorem hexDigit?_digitByte {d : Nat} (hd : d < 16) : (digitByte d).hexDigit? = some d := by
  interval_cases d <;> rfl

theorem isDigit_digitByte {d : Nat} (hd : d < 10) : (digitByte d).isDigit = true := by
  interval_cases d <;> rfl

theorem toNat_digitByte {d : Nat} (hd : d < 10) : (digitByte d).toNat - 0x30 = d := by
  interval_cases d <;> rfl

/-- The last digit of a number, apart from those in front of it. -/
theorem decimal_eq (n : Nat) :
    decimal n = (if n < 10 then [] else decimal (n / 10)) ++ [digitByte (n % 10)] := by
  unfold decimal
  rw [Nat.toDigits_eq_if (by decide)]
  split
  · rename_i hn
    rw [Nat.mod_eq_of_lt hn]
    rfl
  · rw [List.map_append]
    rfl

theorem decimal_ne_nil (n : Nat) : decimal n ≠ [] := by
  rw [decimal_eq]
  simp

theorem isDigit_of_mem_decimal {n : Nat} {b : Byte} (hb : b ∈ decimal n) : b.isDigit = true := by
  induction n using Nat.strongRecOn with
  | ind n ih =>
      rw [decimal_eq, List.mem_append, List.mem_singleton] at hb
      rcases hb with hfront | rfl
      · split at hfront
        · cases hfront
        · exact ih (n / 10) (by omega) hfront
      · exact isDigit_digitByte (Nat.mod_lt n (by decide))

theorem decimalValue_concat (w : List Byte) (b : Byte) :
    decimalValue (w ++ [b]) = decimalValue w * 10 + (b.toNat - 0x30) := by
  simp [decimalValue, appendDigit]

theorem decimalValue_decimal (n : Nat) : decimalValue (decimal n) = n := by
  induction n using Nat.strongRecOn with
  | ind n ih =>
      rw [decimal_eq, decimalValue_concat, toNat_digitByte (Nat.mod_lt n (by decide))]
      split
      · rename_i hn
        rw [Nat.mod_eq_of_lt hn]
        exact Nat.zero_add n
      · rw [ih (n / 10) (by omega)]
        omega

theorem numeral_decimal {n : Nat} (hn : n ≤ maxCount) : Numeral (decimal n) n where
  nonempty := decimal_ne_nil n
  digits := fun _ => isDigit_of_mem_decimal
  value := decimalValue_decimal n
  bounded := hn

theorem quantifier_printBounds {min : Nat} {max : Option Nat} (h : WellBounded min max) :
    Quantifier (printBounds min max) min max := by
  obtain ⟨hmin, hmax⟩ := h
  cases max with
  | none =>
      exact .atLeast (numeral_decimal hmin)
  | some m =>
      obtain ⟨hle, hm⟩ := hmax m rfl
      have hprint : printBounds min (some m) =
          Ascii.openBrace :: decimal min ++ Ascii.comma :: decimal m ++ [Ascii.closeBrace] := by
        rw [printBounds, List.append_assoc]
        rfl
      rw [hprint]
      exact .between (numeral_decimal hmin) (numeral_decimal hm) hle

/-! ### Classes -/

theorem classMember_hexEscaped (b : Byte) : ClassMember (hexEscaped b) (.byte b) := by
  have hhi : (digitByte (b.toNat / 16)).hexDigit? = some (b.toNat / 16) :=
    hexDigit?_digitByte (Nat.div_lt_of_lt_mul b.toNat_lt)
  have hlo : (digitByte (b.toNat % 16)).hexDigit? = some (b.toNat % 16) :=
    hexDigit?_digitByte (Nat.mod_lt _ (by decide))
  have hvalue : UInt8.ofNat (16 * (b.toNat / 16) + b.toNat % 16) = b := by
    rw [Nat.div_add_mod, UInt8.ofNat_toNat]
  have hescaped := Escaped.hex hhi hlo
  rw [hvalue] at hescaped
  exact .escaped hescaped

/-- Each member by its digits: every element begins with a backslash, which is neither a
hyphen nor a closing bracket. -/
theorem elements_hexEscaped (members : List Byte) (first : Bool)
    (hfirst : first = true → members ≠ []) :
    ∃ s, Elements first (members.flatMap hexEscaped) s ∧
      ∀ b, s.contains b = true ↔ b ∈ members := by
  induction members generalizing first with
  | nil =>
      cases first with
      | false =>
          exact ⟨.empty, .none, by simp⟩
      | true =>
          exact absurd rfl (hfirst rfl)
  | cons m members ih =>
      obtain ⟨s, hs, hmem⟩ := ih false (by simp)
      have hbegin : MayBegin first (hexEscaped m) := by
        rintro ⟨⟩
      have hfollow : ¬Hyphenated (members.flatMap hexEscaped ++ [Ascii.closeBracket]) := by
        rintro ⟨b, rest, hsplit, -⟩
        cases members with
        | nil =>
            cases hsplit
        | cons m' members =>
            cases hsplit
      refine ⟨_, .single hbegin (classMember_hexEscaped m) hfollow hs, ?_⟩
      intro b
      simp [Member.toSet, hmem]

theorem class_print {set : ByteSet} (h : set ≠ .empty) : Class (print (.oneOf set)) set := by
  have hmembers : set.members ≠ [] := by
    obtain ⟨b, hb⟩ := ByteSet.exists_contains_of_ne_empty h
    exact List.ne_nil_of_mem (ByteSet.mem_members.2 hb)
  obtain ⟨s, hs, hmem⟩ := elements_hexEscaped set.members true fun _ => hmembers
  have hset : s = set := by
    apply ByteSet.ext_contains
    intro b
    rw [Bool.eq_iff_iff, hmem, ByteSet.mem_members]
  have hcaret : (set.members.flatMap hexEscaped).head? ≠ some Ascii.caret := by
    cases hlist : set.members with
    | nil =>
        rintro ⟨⟩
    | cons m members =>
        rintro ⟨⟩
  rw [hset] at hs
  rw [print]
  exact .plain hs hcaret h

/-! ### Trees -/

/-- An operand without quantifiers. -/
theorem Atom.repetitions {w : List Byte} {p : Pattern} (h : Atom w p) : Repetitions w [p] := by
  have honly : Repetitions (w ++ [] ++ []) [p] := .more (.mk h (.none p)) .none
  rwa [List.append_nil, List.append_nil] at honly

theorem repetitions_printSequence {parts : List Pattern}
    (h : ∀ p ∈ parts, Atom p.print p) : Repetitions (printSequence parts) parts := by
  induction parts with
  | nil =>
      rw [printSequence]
      exact .none
  | cons part parts ih =>
      obtain ⟨hpart, hparts⟩ := List.forall_mem_cons.1 h
      have hsingle : Repetition (part.print ++ []) part := .mk hpart (.none part)
      rw [List.append_nil] at hsingle
      rw [printSequence]
      exact .more hsingle (ih hparts)

theorem branches_printChoice {branches : List Pattern} (hne : branches ≠ [])
    (h : ∀ p ∈ branches, Atom p.print p) : Branches (printChoice branches) branches := by
  induction branches with
  | nil =>
      exact absurd rfl hne
  | cons branch branches ih =>
      obtain ⟨hbranch, hbranches⟩ := List.forall_mem_cons.1 h
      cases branches with
      | nil =>
          rw [printChoice]
          exact .last (.one hbranch.repetitions)
      | cons second others =>
          rw [printChoice]
          · exact .more (.one hbranch.repetitions) (ih (List.cons_ne_nil _ _) hbranches)
          · exact List.cons_ne_nil _ _

/-- An operand with one quantifier. -/
theorem Atom.repetitions_repeated {u v : List Byte} {p : Pattern} {min : Nat} {max : Option Nat}
    (hu : Atom u p) (hv : Quantifier v min max) : Repetitions (u ++ v) [.repeated p min max] := by
  have hquantifiers : Quantifiers p (v ++ []) (.repeated p min max) := .more hv (.none _)
  have honly : Repetitions (u ++ (v ++ []) ++ []) [.repeated p min max] :=
    .more (.mk hu hquantifiers) .none
  rwa [List.append_nil, List.append_nil] at honly

/-- The print of a well-formed pattern is an operand that stands for the pattern. -/
theorem WellFormed.atom_print {p : Pattern} (h : p.WellFormed) : Atom p.print p := by
  induction h with
  | empty =>
      rw [print]
      exact .group (.one (.last .none))
  | oneOf hset =>
      exact .brackets (class_print hset)
  | sequence hlength _ ih =>
      rw [print]
      exact .group (.one (.last (.many (repetitions_printSequence ih) hlength)))
  | choice hlength _ ih =>
      rw [print]
      refine .group (.many (branches_printChoice ?_ ih) hlength)
      rintro rfl
      cases hlength
  | repeated _ hbounds ih =>
      rw [print]
      exact .group (.one (.last (.one (ih.repetitions_repeated (quantifier_printBounds hbounds)))))

/-- **The patterns that can be read are the well-formed ones, and each of them is read off
its print.** -/
theorem exists_parse_iff_wellFormed (p : Pattern) :
    ((∃ w, parse w = .ok p) ↔ p.WellFormed) ∧ (p.WellFormed ↔ parse p.print = .ok p) := by
  have hread : ∀ w, parse w = .ok p → p.WellFormed :=
    fun w hw => (parse_sound hw).wellFormed
  have hprint : p.WellFormed → parse p.print = .ok p :=
    fun h => parse_complete (.one (.last (.one h.atom_print.repetitions)))
  refine ⟨⟨?_, ?_⟩, hprint, hread p.print⟩
  · rintro ⟨w, hw⟩
    exact hread w hw
  · intro h
    exact ⟨p.print, hprint h⟩

end Pattern
end Munch
