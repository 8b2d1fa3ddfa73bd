import Munch.Proofs.Scan.Failure
import Munch.Proofs.Utf8

/-!
# Input that no rule accepts is named by its character

The width of the character at the cursor is guessed from one byte, and the bytes of that
width may run into the end of the text.  The name of the input is a whole character all the
same, and the one that reading the rest of the text would begin with: a guess that is wrong
belongs to bytes that are ill-formed.

**Results.**
* `Utf8.exists_frontText_eq`: the name of some bytes.
* `Compiled.Fails.front_eq`: which bytes are named.
* `Scanner.next_unconsumedInput`: what a scanner says about the input it cannot consume.
-/

namespace Munch

/-- Bytes are named by one character, the first of those that lossy reading gives: the one
encoded in front, or the replacement if there is none. -/
theorem Utf8.exists_frontText_eq {bytes : List Byte} (hne : bytes ≠ []) :
    ∃ c, frontText bytes = String.singleton c ∧ (lossy bytes).toList.head? = some c ∧
      (∀ d, String.utf8EncodeChar d <+: bytes → c = d) ∧
      ((∀ d, ¬String.utf8EncodeChar d <+: bytes) → c = replacement) := by
  obtain ⟨b, rest, rfl⟩ := List.exists_cons_of_ne_nil hne
  refine ⟨(front b rest).1.getD replacement, frontText_cons b rest, ?_, ?_, ?_⟩
  · rw [lossy, String.toList_ofList, lossyChars, List.head?_cons]
  · intro d hd
    rw [fst_front_eq_some_iff.2 hd, Option.getD_some]
  · intro hnone
    have hfront : (front b rest).1 = none :=
      Option.eq_none_iff_forall_not_mem.2 fun d hd => hnone d (fst_front_eq_some_iff.1 hd)
    rw [hfront, Option.getD_none]

variable {text : List Byte}

/-- What fails as unconsumed is named by the bytes from the cursor on. -/
theorem Compiled.Fails.front_eq {k : Compiled} {c : Cursor text} {front : String}
    {failedAt : Nat} (h : k.Fails c (.unconsumedInput front failedAt)) :
    c.rest ≠ [] ∧ front = Utf8.frontText c.rest := by
  obtain ⟨runs, h⟩ := h
  rcases attempt_eq_some h with ⟨-, heq⟩ | ⟨hrest, read, -, heq⟩ | ⟨-, found, -, -, -, heq⟩ |
    ⟨-, found, p, -, -, -, heq⟩
  · cases heq
  · cases heq
    exact ⟨hrest, rfl⟩
  · cases heq
  · rcases p.attempt_cases found.winner c with ⟨_, -, hp⟩ | ⟨-, -, hp⟩ | ⟨_, -, -, hp⟩ |
      ⟨-, -, hp⟩ <;> cases heq.trans hp

namespace Scanner

/-- **Unconsumed input is named by the whole character at the cursor.**  The name is one
character, the first of those that the rest of the text reads as: the one whose encoding
stands at the cursor, or U+FFFD where none does. -/
theorem next_unconsumedInput {s : Scanner} {scan : Scan s.text} {front : String}
    {failedAt : Nat} {position : Position} (h : s.next = some scan)
    (he : scan.result = .error ⟨.unconsumedInput front failedAt, position⟩) :
    (s.moveTo scan.cursor).position = position ∧
    ∃ c, front = String.singleton c ∧
      (Utf8.lossy (s.text.drop position.offset)).toList.head? = some c ∧
      (∀ d, String.utf8EncodeChar d <+: s.text.drop position.offset → c = d) ∧
      ((∀ d, ¬String.utf8EncodeChar d <+: s.text.drop position.offset) → c = '\uFFFD') := by
  obtain ⟨-, hfails, hposition⟩ := exists_fails_of_scan h he
  obtain ⟨hrest, rfl⟩ := hfails.front_eq
  obtain rfl : scan.cursor.position = position := hposition
  rw [scan.cursor.drop_eq]
  exact ⟨rfl, Utf8.exists_frontText_eq hrest⟩

end Scanner

section Letter

theorem Lexer.exists_unconsumed_letter :
    ∃ c k, (letterLexer .skip true).compile = .ok c ∧
      (∀ text, c.scanner text = .ok (Scanner.new k text)) ∧
      ∀ b rest, b ≠ 97 → ∃ scan failedAt, (Scanner.new k (b :: rest)).next = some scan ∧
        scan.result =
          .error ⟨.unconsumedInput (Utf8.frontText (b :: rest)) failedAt, ⟨0, 1, 1⟩⟩ := by
  obtain ⟨c, k, hcompile, hk⟩ := exists_compile_letter .skip true
  obtain ⟨patterns, k', rfl, h⟩ := compile_spec hcompile
  refine ⟨_, k', hcompile, fun text => rfl, ?_⟩
  intro b rest hb
  have hrejects : ∀ rule u, u <+: b :: rest → ¬(letterLexer .skip true).Accepts rule u := by
    intro rule u hu haccepts
    rw [eq_of_accepts_letter haccepts, List.cons_prefix_cons] at hu
    exact hb hu.1.symm
  obtain ⟨read, hread⟩ := (h.unmatched_iff (b :: rest)).2 hrejects
  refine ⟨_, 0 + read, scan_unmatched (List.cons_ne_nil b rest) hread, ?_⟩
  show ScanResult.error ⟨_, ⟨0, k'.firstLine, k'.firstColumn⟩⟩ = _
  rw [h.firstLine_eq, h.firstColumn_eq]
  rfl

/-- A text where all of a character stands in front, and one that ends inside of it. -/
theorem Scanner.next_unconsumedInput_letter :
    ∃ (c : Lexer) (whole part : Scanner) (wholeScan : Scan whole.text) (partScan : Scan part.text)
      (m n : Nat), (letterLexer .skip true).compile = .ok c ∧
      c.scanner [0xE2, 0x82, 0xAC, 97] = .ok whole ∧ whole.next = some wholeScan ∧
      wholeScan.result = .error ⟨.unconsumedInput "€" m, ⟨0, 1, 1⟩⟩ ∧
      c.scanner [0xE2, 0x82] = .ok part ∧ part.next = some partScan ∧
      partScan.result = .error ⟨.unconsumedInput "\uFFFD" n, ⟨0, 1, 1⟩⟩ := by
  obtain ⟨c, k, hcompile, hstart, hfails⟩ := Lexer.exists_unconsumed_letter
  obtain ⟨wholeScan, m, hwhole, hwholeResult⟩ := hfails 0xE2 [0x82, 0xAC, 97] (by decide)
  obtain ⟨partScan, n, hpart, hpartResult⟩ := hfails 0xE2 [0x82] (by decide)
  obtain ⟨-, e, hwholeFront, -, hencoded, -⟩ := next_unconsumedInput hwhole hwholeResult
  obtain ⟨-, d, hpartFront, -, -, hnone⟩ := next_unconsumedInput hpart hpartResult
  have he : e = '€' := hencoded '€' ⟨[97], rfl⟩
  have hd : d = '\uFFFD' := by
    refine hnone fun d hd => ?_
    cases Utf8.fst_front_eq_some_iff.2 hd
  rw [hwholeFront, he] at hwholeResult
  rw [hpartFront, hd] at hpartResult
  exact ⟨c, _, _, wholeScan, partScan, m, n, hcompile, hstart _, hwhole, hwholeResult, hstart _,
    hpart, hpartResult⟩

end Letter

end Munch
