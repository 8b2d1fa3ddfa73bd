import Munch.Diagnostic
import Munch.Proofs.Scan.Course

/-!
# The line of a byte

Lines are found by cutting them off one by one at the front of a source, and columns by
counting bytes since the last newline.  Both come to the same: the newlines in front of a
byte number its line, and the bytes behind the last of them are the place in it.  A newline
is the last byte of the line that it ends.

A line is described by what stands around it, `source = before ++ line ++ after`, and not by
offsets, so that cutting off the first line only makes `before` shorter.

**Results.**
* `isLine_splitLine`, `IsLine.splitLine_append`: what is cut off is a line, and any line is.
* `exists_findLine_lines`: the line that the search ends at.
* `LineOf.unique`, `LineOf.behind_take`: a byte has one line, and the position of the byte
  follows from it.
* `lineAt_agrees`: the answers of the search, and what they say of a scanner.
-/

namespace Munch
namespace Diagnostic

/-! ### Cutting off a line -/

/-- The bytes `line` are a whole line that `after` follows: a newline ends it, unless
nothing follows, and there is no other newline in it. -/
structure IsLine (line after : List Byte) : Prop where
  ne_nil : line ≠ []
  inner : Ascii.newline ∉ line.dropLast
  ends : line.getLast? = some Ascii.newline ∨ after = []

theorem isLine_singleton_iff {b : Byte} {after : List Byte} :
    IsLine [b] after ↔ b = Ascii.newline ∨ after = [] := by
  constructor
  · intro h
    simpa using h.ends
  · intro h
    exact ⟨List.cons_ne_nil b [], List.not_mem_nil, by simpa using h⟩

theorem isLine_cons_iff {b : Byte} {line after : List Byte} (hne : line ≠ []) :
    IsLine (b :: line) after ↔ b ≠ Ascii.newline ∧ IsLine line after := by
  have hlast : (b :: line).getLast? = line.getLast? := by
    cases line with
    | nil =>
        exact absurd rfl hne
    | cons c line =>
        exact List.getLast?_cons_cons
  constructor
  · rintro ⟨-, hinner, hends⟩
    rw [List.dropLast_cons_of_ne_nil hne, List.mem_cons, not_or] at hinner
    rw [hlast] at hends
    exact ⟨Ne.symm hinner.1, hne, hinner.2, hends⟩
  · rintro ⟨hb, -, hinner, hends⟩
    refine ⟨List.cons_ne_nil b line, ?_, by rwa [hlast]⟩
    rw [List.dropLast_cons_of_ne_nil hne, List.mem_cons, not_or]
    exact ⟨Ne.symm hb, hinner⟩

theorem append_splitLine (bytes : List Byte) :
    (splitLine bytes).1 ++ (splitLine bytes).2 = bytes := by
  induction bytes with
  | nil =>
      rfl
  | cons b rest ih =>
      rw [splitLine]
      split
      · rfl
      · exact congrArg (b :: ·) ih

/-- What is cut off is a line. -/
theorem isLine_splitLine (b : Byte) (rest : List Byte) :
    IsLine (splitLine (b :: rest)).1 (splitLine (b :: rest)).2 := by
  induction rest generalizing b with
  | nil =>
      rw [splitLine]
      split
      · exact isLine_singleton_iff.2 (.inr rfl)
      · exact isLine_singleton_iff.2 (.inr rfl)
  | cons c rest ih =>
      rw [splitLine]
      split
      · exact isLine_singleton_iff.2 (.inl ‹_›)
      · exact (isLine_cons_iff (ih c).ne_nil).2 ⟨‹_›, ih c⟩

/-- A line is cut off where it ends. -/
theorem IsLine.splitLine_append {line after : List Byte} (h : IsLine line after) :
    splitLine (line ++ after) = (line, after) := by
  induction line with
  | nil =>
      exact absurd rfl h.ne_nil
  | cons b line ih =>
      cases line with
      | nil =>
          rw [List.singleton_append, splitLine]
          split
          · rfl
          · obtain rfl := (isLine_singleton_iff.1 h).resolve_left ‹_›
            rfl
      | cons c line =>
          obtain ⟨hb, hline⟩ := (isLine_cons_iff (List.cons_ne_nil c line)).1 h
          rw [List.cons_append, splitLine, if_neg hb, ih hline]

/-- A newline in front of a byte of a line is not in that line. -/
theorem IsLine.newline_notMem_take {line after : List Byte} (h : IsLine line after) {place : Nat}
    (hplace : place < line.length) : Ascii.newline ∉ line.take place := by
  intro hmem
  apply h.inner
  rw [List.dropLast_eq_take]
  exact (List.take_sublist_take_left (Nat.le_sub_one_of_lt hplace)).mem hmem

/-- Only the last line may lack a newline, so a line that bytes follow has one. -/
theorem IsLine.count_newline {line after : List Byte} (h : IsLine line after) (hne : after ≠ []) :
    line.count Ascii.newline = 1 := by
  obtain ⟨front, rfl⟩ := List.getLast?_eq_some_iff.1 (h.ends.resolve_right hne)
  have hfront : Ascii.newline ∉ front := by
    simpa using h.inner
  rw [List.count_append, List.count_eq_zero.2 hfront, List.count_singleton_self]

/-! ### The line around a byte -/

/-- In `source`, the byte at `offset` belongs to `line`, with `before` in front of it and
`after` behind it. -/
structure LineOf (source : List Byte) (offset : Nat) (before line after : List Byte) : Prop where
  source_eq : source = before ++ line ++ after
  begins : before = [] ∨ before.getLast? = some Ascii.newline
  isLine : IsLine line after
  le_offset : before.length ≤ offset
  offset_lt : offset < before.length + line.length

section LineOf

variable {source before line after : List Byte} {offset : Nat}

/-- A line of what follows the first line is a line of the whole. -/
theorem LineOf.append {first rest : List Byte} (h : LineOf rest offset before line after)
    (hfirst : IsLine first rest) (hne : rest ≠ []) :
    LineOf (first ++ rest) (first.length + offset) (first ++ before) line after where
  source_eq := by rw [h.source_eq, List.append_assoc first, List.append_assoc first]
  begins := by
    rcases h.begins with rfl | hlast
    · rw [List.append_nil]
      exact .inr (hfirst.ends.resolve_right hne)
    · exact .inr (by rw [List.getLast?_append, hlast, Option.some_or])
  isLine := h.isLine
  le_offset := by
    have := h.le_offset
    rw [List.length_append]
    omega
  offset_lt := by
    have := h.offset_lt
    rw [List.length_append]
    omega

theorem findLine_eq_none_iff {number place : Nat} {rows : List (List Byte)} :
    findLine number place rows = none ↔ rows.flatten.length ≤ place := by
  induction rows generalizing number place with
  | nil =>
      simp [findLine]
  | cons row later ih =>
      rw [findLine, List.flatten_cons, List.length_append]
      by_cases hplace : place < row.length
      · rw [if_pos hplace]
        simp only [reduceCtorEq, false_iff]
        omega
      · rw [if_neg hplace, ih]
        omega

theorem flatten_lines (source : List Byte) : (lines source).flatten = source := by
  induction source using lines.induct with
  | case1 =>
      rw [lines, List.flatten_nil]
  | case2 b rest ih =>
      rw [lines, List.flatten_cons, ih, append_splitLine]

/-- Going over the lines ends at the line of the byte. -/
theorem exists_findLine_lines (number : Nat) (h : offset < source.length) :
    ∃ before line after, LineOf source offset before line after ∧
      findLine number offset (lines source) =
        some ⟨number + before.count Ascii.newline, Utf8.lossy line, offset - before.length⟩ := by
  induction source using lines.induct generalizing number offset with
  | case1 =>
      exact absurd h (Nat.not_lt_zero offset)
  | case2 b rest ih =>
      have hfirst := isLine_splitLine b rest
      have hsource := append_splitLine (b :: rest)
      rw [lines]
      generalize (splitLine (b :: rest)).1 = first at *
      generalize (splitLine (b :: rest)).2 = later at *
      rw [← hsource] at h ⊢
      rw [findLine]
      by_cases hplace : offset < first.length
      · refine ⟨[], first, later, ⟨rfl, .inl rfl, hfirst, Nat.zero_le offset, ?_⟩, ?_⟩
        · rwa [List.length_nil, Nat.zero_add]
        · rw [if_pos hplace]
          rfl
      · have hlater : offset - first.length < later.length := by
          rw [List.length_append] at h
          omega
        have hne : later ≠ [] := List.ne_nil_of_length_pos (Nat.zero_lt_of_lt hlater)
        obtain ⟨before, line, after, hline, hfind⟩ := ih (number + 1) hlater
        have happend := hline.append hfirst hne
        rw [Nat.add_sub_cancel' (Nat.not_lt.1 hplace)] at happend
        refine ⟨first ++ before, line, after, happend, ?_⟩
        rw [if_neg hplace, hfind, List.count_append, hfirst.count_newline hne, List.length_append,
          Nat.sub_add_eq, Nat.add_assoc]

theorem LineOf.take_offset (h : LineOf source offset before line after) :
    source.take offset = before ++ line.take (offset - before.length) := by
  have hle := h.le_offset
  have hlt := h.offset_lt
  rw [h.source_eq, List.append_assoc, List.take_append, List.take_of_length_le hle,
    List.take_append_of_le_length (by omega)]

theorem LineOf.newline_notMem (h : LineOf source offset before line after) :
    Ascii.newline ∉ line.take (offset - before.length) :=
  h.isLine.newline_notMem_take (by
    have := h.le_offset
    have := h.offset_lt
    omega)

/-- What stands behind an end, without another in it, is what stands behind the last end. -/
theorem takeWhile_reverse_append {α : Type} [BEq α] [LawfulBEq α] {newline : α}
    {before front : List α} (hbegins : before = [] ∨ before.getLast? = some newline)
    (hfront : newline ∉ front) :
    (before ++ front).reverse.takeWhile (· != newline) = front.reverse := by
  have hall : ∀ b ∈ front.reverse, (b != newline) = true := by
    intro b hb
    rw [bne_iff_ne]
    rintro rfl
    exact hfront (List.mem_reverse.1 hb)
  have hbefore : before.reverse.takeWhile (· != newline) = [] := by
    rcases hbegins with rfl | hlast
    · rfl
    · obtain ⟨others, rfl⟩ := List.getLast?_eq_some_iff.1 hlast
      rw [List.reverse_concat, List.takeWhile_cons_of_neg (by simp)]
  rw [List.reverse_append, List.takeWhile_append_of_pos hall, hbefore, List.append_nil]

/-- The position of a byte follows from its line. -/
theorem LineOf.behind_take (h : LineOf source offset before line after)
    (firstLine firstColumn : Nat) :
    Position.behind firstLine firstColumn (source.take offset) =
      ⟨offset, firstLine + before.count Ascii.newline, firstColumn + (offset - before.length)⟩ := by
  have hle := h.le_offset
  have hlt := h.offset_lt
  have hnotMem := h.newline_notMem
  have hlength : (line.take (offset - before.length)).length = offset - before.length :=
    List.length_take_of_le (by omega)
  rw [h.take_offset]
  generalize line.take (offset - before.length) = front at *
  rw [Position.behind, takeWhile_reverse_append h.begins hnotMem, List.count_append,
    List.count_eq_zero.2 hnotMem, List.length_append, List.length_reverse, hlength, Nat.add_zero,
    Nat.add_sub_cancel' hle]

/-- A byte belongs to one line. -/
theorem LineOf.unique {before' line' after' : List Byte}
    (h : LineOf source offset before line after)
    (h' : LineOf source offset before' line' after') :
    before = before' ∧ line = line' ∧ after = after' := by
  have hplace : offset - before.length = offset - before'.length := by
    have hbehind := (h.behind_take 0 0).symm.trans (h'.behind_take 0 0)
    simpa using congrArg Position.column hbehind
  have hlength : before.length = before'.length := by
    have := h.le_offset
    have := h'.le_offset
    omega
  have hsource : before ++ (line ++ after) = before' ++ (line' ++ after') := by
    rw [← List.append_assoc, ← List.append_assoc, ← h.source_eq, ← h'.source_eq]
  obtain ⟨hbefore, hrest⟩ := List.append_inj hsource hlength
  have hcut := h.isLine.splitLine_append
  rw [hrest, h'.isLine.splitLine_append, Prod.mk.injEq] at hcut
  exact ⟨hbefore, hcut.1.symm, hcut.2.symm⟩

theorem LineOf.offset_lt_length (h : LineOf source offset before line after) :
    offset < source.length := by
  have := h.offset_lt
  rw [h.source_eq, List.length_append, List.length_append]
  omega

theorem LineOf.lineAt_eq (h : LineOf source offset before line after) :
    lineAt source offset =
      some ⟨1 + before.count Ascii.newline, Utf8.lossy line, offset - before.length⟩ := by
  obtain ⟨_, _, _, h', hfind⟩ := exists_findLine_lines 1 h.offset_lt_length
  obtain ⟨rfl, rfl, rfl⟩ := h.unique h'
  exact hfind

theorem exists_lineOf (h : offset < source.length) :
    ∃ before line after, LineOf source offset before line after := by
  obtain ⟨before, line, after, hline, -⟩ := exists_findLine_lines 1 h
  exact ⟨before, line, after, hline⟩

theorem lineAt_eq_none_iff : lineAt source offset = none ↔ source.length ≤ offset := by
  rw [lineAt, findLine_eq_none_iff, flatten_lines]

/-- The line of a byte, told by the position of the byte. -/
theorem exists_lineAt_behind {firstLine firstColumn : Nat} {p : Position}
    (hlt : p.offset < source.length)
    (hp : p = .behind firstLine firstColumn (source.take p.offset)) :
    firstLine ≤ p.line ∧ firstColumn ≤ p.column ∧ ∃ shown,
      lineAt source p.offset = some ⟨p.line - firstLine + 1, shown, p.column - firstColumn⟩ := by
  obtain ⟨before, line, after, h⟩ := exists_lineOf hlt
  have hline : p.line = firstLine + before.count Ascii.newline := by
    rw [hp, h.behind_take]
  have hcolumn : p.column = firstColumn + (p.offset - before.length) := by
    rw [congrArg Position.column hp, h.behind_take]
  rw [hline, hcolumn, h.lineAt_eq, Nat.add_sub_cancel_left, Nat.add_sub_cancel_left, Nat.add_comm 1]
  exact ⟨Nat.le_add_right _ _, Nat.le_add_right _ _, _, rfl⟩

end LineOf

/-- **The line of a byte is the one that scanners count.**  A line is found for the bytes
of a source and no others.  It is numbered by the newlines in front of the byte, it goes
from behind a newline through the next one, and the byte's place in it is told from its
beginning; and wherever a scanner stands, its position says the same. -/
theorem lineAt_agrees :
    (∀ (source : List Byte) (offset : Nat),
      lineAt source offset = none ↔ source.length ≤ offset) ∧
    (∀ (source : List Byte) (offset : Nat), offset < source.length →
      ∃ before line after, LineOf source offset before line after ∧
        lineAt source offset =
          some ⟨1 + (source.take offset).count Ascii.newline, Utf8.lossy line,
            offset - before.length⟩) ∧
    ∀ (l compiled : Lexer) (text : List Byte) (s v : Scanner),
      l.compile = .ok compiled → compiled.scanner text = .ok s → s.Visits v →
      v.position.offset < text.length →
      l.config.firstLine ≤ v.position.line ∧ l.config.firstColumn ≤ v.position.column ∧
      ∃ shown, lineAt text v.position.offset =
        some ⟨v.position.line - l.config.firstLine + 1, shown,
          v.position.column - l.config.firstColumn⟩ := by
  refine ⟨fun _ _ => lineAt_eq_none_iff, ?_, ?_⟩
  · intro source offset hlt
    obtain ⟨before, line, after, h⟩ := exists_lineOf hlt
    have hcount : (source.take offset).count Ascii.newline = before.count Ascii.newline := by
      simpa [Position.behind] using congrArg Position.line (h.behind_take 0 0)
    exact ⟨before, line, after, h, by rw [hcount, h.lineAt_eq]⟩
  · intro l compiled text s v hcompile hstart hvisits hlt
    obtain ⟨patterns, k, c, hk, -, rfl, hplaced⟩ :=
      Lexer.exists_cursor_of_visits hcompile hstart hvisits
    rw [← hk.firstLine_eq, ← hk.firstColumn_eq]
    exact exists_lineAt_behind hlt hplaced

theorem lineAt_agrees_letter :
    ∃ (l compiled : Lexer) (s v : Scanner), l.config.firstLine = 7 ∧ l.config.firstColumn = 4 ∧
      l.compile = .ok compiled ∧ compiled.scanner [97, 10, 97, 97] = .ok s ∧ s.Visits v ∧
      v.position = ⟨3, 8, 5⟩ ∧
      (∃ before line after, LineOf [97, 10, 97, 97] 3 before line after ∧
        lineAt [97, 10, 97, 97] 3 = some ⟨2, Utf8.lossy line, 3 - before.length⟩) ∧
      ∃ shown, lineAt [97, 10, 97, 97] 3 = some ⟨8 - 7 + 1, shown, 5 - 4⟩ := by
  let l : Lexer :=
    { letterLexer .skip false with
      config := { firstLine := 7, firstColumn := 4, determinize := false } }
  let k : Compiled :=
    { matcher := .simulated (Nfa.ofPatterns [.literal [97]])
      actions := l.rules.map (·.action)
      firstLine := 7
      firstColumn := 4 }
  have hread := Lexer.readPatterns_eq_ok_iff.1 (readPatterns_letter .skip false)
  have hcompile : l.compile = .ok { l with compiled := some k } :=
    Lexer.compile_eq_ok_iff.2 ⟨k, rfl, ⟨[.literal [97]], hread, rfl⟩, rfl, rfl, rfl⟩
  let s : Scanner := Scanner.new k [97, 10, 97, 97]
  let v : Scanner := (s.advance 3).2
  have hvisits : s.Visits v := Scanner.Reaches.visits (.single (.advance s 3))
  have hposition : v.position = ⟨3, 8, 5⟩ := rfl
  have hlt : v.position.offset < [97, 10, 97, 97].length := by
    rw [hposition]
    decide
  obtain ⟨-, -, shown, hshown⟩ :=
    lineAt_agrees.2.2 l _ [97, 10, 97, 97] s v hcompile rfl hvisits hlt
  rw [hposition] at hshown
  exact ⟨l, _, s, v, rfl, rfl, hcompile, rfl, hvisits, hposition,
    lineAt_agrees.2.1 [97, 10, 97, 97] 3 (by decide), shown, hshown⟩

end Diagnostic
end Munch
