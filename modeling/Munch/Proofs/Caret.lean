import Mathlib.Data.List.DropRight
import Munch.Proofs.Lines
import Munch.Proofs.Utf8

/-!
# Where the caret stands

A rendered error ends with a row that shows a line of the source and a row that points at a
place in it.  The first is made of characters, but how far the second points is told in
bytes.  Leading spaces are left out of both, and they are one byte each.  So the caret
stands too far to the right by as many columns as there are more bytes than characters in
front of the character that is meant, in its line: it stands under that character when all
of them are ASCII, and only then.

**Results.**
* `EndsInRows.unique`: the last two rows of a text.
* `isLine_bytesOf`, `lineAt_bytesOf`: the line of a character.
* `endsInRows_excerpt`, `endsInRows_render`: the rows that show a character.
* `length_pointer`: the columns of the character and of the caret.
* `render_caret`: where the caret stands.
-/

namespace Munch
namespace Diagnostic

open Utf8

/-- The text ends with two rows. -/
structure EndsInRows (text : String) (above below : List Char) : Prop where
  ends : '\n' :: above ++ '\n' :: below ++ ['\n'] <:+ text.toList
  newline_notMem_above : '\n' ∉ above
  newline_notMem_below : '\n' ∉ below

/-- The characters behind the last newline. -/
def sinceNewline (chars : List Char) : List Char := chars.rtakeWhile (· != '\n')

/-- What the row of a line shows in front of a character that `front` precedes in it. -/
def shownBefore (number : Nat) (front : List Char) : List Char :=
  (toString number).toList ++ [' ', '|', ' '] ++ front.dropWhile (· = ' ')

/-- What the row below shows in front of the caret for that character. -/
def pointer (number : Nat) (front : List Char) : List Char :=
  List.replicate ((toString number).length + 1) ' ' ++ ['|', ' '] ++
    List.replicate ((bytesOf front).length - (front.takeWhile (· = ' ')).length) '-'

/-! ### Rows -/

section Rows

variable {front front' above above' below below' : List Char} {text : String}

/-- What comes first does not matter. -/
theorem EndsInRows.append_left (h : EndsInRows text above below) (s : String) :
    EndsInRows (s ++ text) above below where
  ends := by
    rw [String.toList_append]
    exact h.ends.trans (List.suffix_append _ _)
  newline_notMem_above := h.newline_notMem_above
  newline_notMem_below := h.newline_notMem_below

theorem sinceNewline_append (hbegins : front = [] ∨ front.getLast? = some '\n')
    (habove : '\n' ∉ above) : sinceNewline (front ++ above) = above := by
  rw [sinceNewline, List.rtakeWhile, takeWhile_reverse_append hbegins habove, List.reverse_reverse]

theorem row_unique (habove : '\n' ∉ above) (habove' : '\n' ∉ above')
    (h : front ++ '\n' :: above = front' ++ '\n' :: above') : front = front' ∧ above = above' := by
  have hsince : ∀ {u v : List Char}, '\n' ∉ v → sinceNewline (u ++ '\n' :: v) = v := by
    intro u v hv
    rw [List.append_cons, sinceNewline_append (.inr List.getLast?_concat) hv]
  have hrow := congrArg sinceNewline h
  rw [hsince habove, hsince habove'] at hrow
  rw [hrow] at h
  exact ⟨List.append_cancel_right h, hrow⟩

/-- A text has one last row, and one above it. -/
theorem EndsInRows.unique (h : EndsInRows text above below) (h' : EndsInRows text above' below') :
    above = above' ∧ below = below' := by
  obtain ⟨front, hfront⟩ := h.ends
  obtain ⟨front', hfront'⟩ := h'.ends
  have hrows := hfront.trans hfront'.symm
  simp only [← List.append_assoc] at hrows
  obtain ⟨hrest, hbelow⟩ := row_unique h.newline_notMem_below h'.newline_notMem_below
    (List.append_cancel_right hrows)
  exact ⟨(row_unique h.newline_notMem_above h'.newline_notMem_above hrest).2, hbelow⟩

end Rows

/-! ### The line of a character -/

section Line

variable {c : Char} {before after row : List Char}

theorem newline_mem_utf8EncodeChar_iff : Ascii.newline ∈ String.utf8EncodeChar c ↔ c = '\n' := by
  constructor
  · intro h
    exact Char.toNat_inj.1 (toNat_eq_of_mem_utf8EncodeChar h (by decide))
  · rintro rfl
    decide

theorem newline_mem_bytesOf_iff {chars : List Char} :
    Ascii.newline ∈ bytesOf chars ↔ '\n' ∈ chars := by
  simp [bytesOf, List.mem_flatMap, newline_mem_utf8EncodeChar_iff]

theorem count_newline_bytesOf (chars : List Char) :
    (bytesOf chars).count Ascii.newline = chars.count '\n' := by
  induction chars with
  | nil =>
      rfl
  | cons c chars ih =>
      rw [bytesOf_cons, List.count_append, ih]
      by_cases hc : c = '\n'
      · rw [hc, List.count_cons_self, Nat.add_comm]
        rfl
      · rw [List.count_eq_zero.2 (mt newline_mem_utf8EncodeChar_iff.1 hc),
          List.count_cons_of_ne hc, Nat.zero_add]

/-- Encoding keeps lines apart. -/
theorem isLine_bytesOf {ending : List Char} (hne : row ≠ []) (hrow : '\n' ∉ row)
    (hends : ending = ['\n'] ∨ ending = [] ∧ after = []) :
    IsLine (bytesOf (row ++ ending)) (bytesOf after) := by
  have hbytes : bytesOf row ≠ [] := by
    obtain ⟨c, others, rfl⟩ := List.exists_cons_of_ne_nil hne
    rw [bytesOf_cons]
    exact List.append_ne_nil_of_left_ne_nil String.utf8EncodeChar_ne_nil _
  have hnone : Ascii.newline ∉ bytesOf row := mt newline_mem_bytesOf_iff.1 hrow
  rcases hends with rfl | ⟨rfl, rfl⟩
  · have hsplit : bytesOf (row ++ ['\n']) = bytesOf row ++ [Ascii.newline] := bytesOf_append row _
    rw [hsplit]
    refine ⟨List.concat_ne_nil _ _, ?_, .inl List.getLast?_concat⟩
    rwa [List.dropLast_concat]
  · rw [List.append_nil]
    exact ⟨hbytes, fun h => hnone (List.dropLast_subset _ h), .inr rfl⟩

/-- What stands in front of a character falls apart behind the last newline. -/
theorem exists_append_sinceNewline (before : List Char) :
    ∃ earlier, before = earlier ++ sinceNewline before ∧
      (earlier = [] ∨ earlier.getLast? = some '\n') ∧ '\n' ∉ sinceNewline before := by
  refine ⟨before.rdropWhile (· != '\n'), List.rdropWhile_append_rtakeWhile.symm, ?_, ?_⟩
  · by_cases hne : before.rdropWhile (· != '\n') = []
    · exact .inl hne
    · have hlast := List.rdropWhile_last_not _ _ hne
      rw [bne_iff_ne, not_not] at hlast
      rw [List.getLast?_eq_some_getLast hne, hlast]
      exact .inr rfl
  · intro h
    simpa using List.mem_rtakeWhile_imp h

/-- What stands behind a character falls apart at the first newline. -/
theorem exists_takeWhile_append (after : List Char) :
    ∃ ending later, after = after.takeWhile (· != '\n') ++ ending ++ later ∧
      (ending = ['\n'] ∨ ending = [] ∧ later = []) ∧ '\n' ∉ after.takeWhile (· != '\n') := by
  have hrow : '\n' ∉ after.takeWhile (· != '\n') := by
    intro h
    simpa using List.mem_takeWhile_imp h
  cases hrest : after.dropWhile (· != '\n') with
  | nil =>
      refine ⟨[], [], ?_, .inr ⟨rfl, rfl⟩, hrow⟩
      have hall := List.takeWhile_append_dropWhile (p := (· != '\n')) (l := after)
      rw [hrest, List.append_nil] at hall
      rw [hall, List.append_nil, List.append_nil]
  | cons d later =>
      have hd : d = '\n' := by
        have hhead := List.head_dropWhile_not (· != '\n') (hrest ▸ List.cons_ne_nil d later)
        simpa [hrest] using hhead
      refine ⟨['\n'], later, ?_, .inl rfl, hrow⟩
      rw [hd] at hrest
      rw [List.append_assoc, List.singleton_append, ← hrest, List.takeWhile_append_dropWhile]

/-- The line of a character is made of what stands around it as far as the nearest newlines,
and its place is told in bytes. -/
theorem lineAt_bytesOf (hc : c ≠ '\n') (before after : List Char) :
    ∃ ending, (ending = ['\n'] ∨ ending = []) ∧
      lineAt (bytesOf (before ++ c :: after)) (bytesOf before).length =
        some ⟨1 + before.count '\n',
          String.ofList
            (sinceNewline before ++ c :: (after.takeWhile (· != '\n') ++ ending)),
          (bytesOf (sinceNewline before)).length⟩ := by
  obtain ⟨earlier, hbefore, hbegins, hfront⟩ := exists_append_sinceNewline before
  obtain ⟨ending, later, hafter, hends, hback⟩ := exists_takeWhile_append after
  generalize sinceNewline before = front at *
  generalize after.takeWhile (· != '\n') = back at *
  subst hbefore hafter
  -- No search is followed here: the line around the character is the only one.
  have hline : LineOf (bytesOf (earlier ++ front ++ c :: (back ++ ending ++ later)))
      (bytesOf (earlier ++ front)).length (bytesOf earlier)
      (bytesOf (front ++ c :: back ++ ending)) (bytesOf later) :=
    { source_eq := by simp
      begins := by
        rcases hbegins with rfl | hlast
        · exact .inl rfl
        · obtain ⟨others, rfl⟩ := List.getLast?_eq_some_iff.1 hlast
          rw [bytesOf_append]
          exact .inr List.getLast?_concat
      isLine := isLine_bytesOf (by simp) (by simp [hfront, hback, hc.symm]) hends
      le_offset := by simp
      offset_lt := by
        have := c.utf8Size_pos
        simp
        omega }
  refine ⟨ending, hends.imp_right And.left, ?_⟩
  rw [hline.lineAt_eq, count_newline_bytesOf, lossy_bytesOf, List.count_append,
    List.count_eq_zero.2 hfront, bytesOf_append, List.length_append, Nat.add_zero,
    Nat.add_sub_cancel_left, List.append_assoc, List.cons_append]

end Line

/-! ### The rows of an excerpt -/

section Excerpt

variable {c : Char}

theorem newline_notMem_toDigits (n : Nat) : '\n' ∉ Nat.toDigits 10 n := by
  intro h
  cases Nat.isDigit_of_mem_toDigits (by decide) (by decide) h

theorem toList_alignRight (fill c : Char) (n : Nat) :
    (alignRight fill (n + 1) (String.singleton c)).toList = List.replicate n fill ++ [c] := by
  rw [alignRight]
  simp

theorem ne_of_isBlank {blank : Char} (hc : Blank.isBlank c = false)
    (hblank : Blank.isBlank blank = true) : c ≠ blank := by
  rintro rfl
  rw [hc] at hblank
  cases hblank

theorem trimEnd_append_cons (hc : Blank.isBlank c = false) (front back : List Char) :
    Blank.trimEnd (front ++ c :: back) = front ++ c :: Blank.trimEnd back := by
  rw [Blank.trimEnd, Blank.trimEnd, List.reverse_append, List.reverse_cons, List.append_assoc,
    List.dropWhile_append]
  split
  · rename_i hempty
    rw [List.isEmpty_iff] at hempty
    rw [hempty, List.singleton_append, List.dropWhile_cons_of_neg (by simp [hc])]
    simp
  · simp

theorem trimEnd_concat (hc : Blank.isBlank c = true) (front : List Char) :
    Blank.trimEnd (front ++ [c]) = Blank.trimEnd front :=
  List.rdropWhile_concat_pos _ _ _ hc

theorem trimEnd_subset (chars : List Char) : Blank.trimEnd chars ⊆ chars :=
  (List.rdropWhile_prefix _ _).subset

/-- The spaces that a line begins with end in front of any other character of it. -/
theorem takeWhile_append_cons (hc : c ≠ ' ') (front back : List Char) :
    (front ++ c :: back).takeWhile (· = ' ') = front.takeWhile (· = ' ') := by
  rw [List.takeWhile_append, List.takeWhile_cons_of_neg (by simpa using hc), List.append_nil]
  split
  · rename_i hall
    exact ((List.takeWhile_prefix _).eq_of_length hall).symm
  · rfl

theorem drop_append (front back : List Char) :
    (front ++ back).drop (front.takeWhile (· = ' ')).length =
      front.dropWhile (· = ' ') ++ back := by
  have hsplit : front ++ back =
      front.takeWhile (· = ' ') ++ (front.dropWhile (· = ' ') ++ back) := by
    rw [← List.append_assoc, List.takeWhile_append_dropWhile]
  rw [hsplit, List.drop_left]

/-- The rows for a character of a line. -/
theorem endsInRows_excerpt {front back : List Char} (hc : Blank.isBlank c = false)
    (hfront : '\n' ∉ front) (hback : '\n' ∉ Blank.trimEnd back) (number : Nat) :
    EndsInRows (excerpt ⟨number, String.ofList (front ++ c :: back), (bytesOf front).length⟩)
      (shownBefore number front ++ c :: Blank.trimEnd back) (pointer number front ++ ['^']) := by
  have hspace : c ≠ ' ' := ne_of_isBlank hc rfl
  have hnewline : c ≠ '\n' := ne_of_isBlank hc rfl
  have hmargin : (alignRight ' ' ((toString number).length + 2) "|").toList =
      List.replicate ((toString number).length + 1) ' ' ++ ['|'] :=
    toList_alignRight ' ' '|' _
  have hcaret : ∀ k, (alignRight '-' (k + 1) "^").toList = List.replicate k '-' ++ ['^'] :=
    toList_alignRight '-' '^'
  refine ⟨⟨List.replicate ((toString number).length + 1) ' ' ++ ['|'], ?_⟩, ?_, ?_⟩
  · simp only [excerpt, String.toList_append, String.toList_ofList, takeWhile_append_cons hspace,
      drop_append, trimEnd_append_cons hc, hmargin, hcaret, shownBefore, pointer]
    simp
  · have hshown : '\n' ∉ front.dropWhile (· = ' ') :=
      fun h => hfront ((List.dropWhile_suffix _).subset h)
    simp [shownBefore, newline_notMem_toDigits, hshown, hback, hnewline.symm]
  · simp [pointer]

end Excerpt

/-! ### Rendered errors -/

section Render

variable {e : LexError} {c : Char}

/-- The last two rows of an error at a character. -/
theorem endsInRows_render (before after : List Char) (name : String)
    (hc : Blank.isBlank c = false) (hoffset : e.position.offset = (bytesOf before).length) :
    EndsInRows (render e (bytesOf (before ++ c :: after)) name)
      (shownBefore (1 + before.count '\n') (sinceNewline before) ++
        c :: Blank.trimEnd (after.takeWhile (· != '\n')))
      (pointer (1 + before.count '\n') (sinceNewline before) ++ ['^']) := by
  have hnewline : c ≠ '\n' := ne_of_isBlank hc rfl
  obtain ⟨-, -, -, hfront⟩ := exists_append_sinceNewline before
  obtain ⟨-, -, -, -, hback⟩ := exists_takeWhile_append after
  obtain ⟨ending, hends, hline⟩ := lineAt_bytesOf hnewline before after
  have htrim : Blank.trimEnd (after.takeWhile (· != '\n') ++ ending) =
      Blank.trimEnd (after.takeWhile (· != '\n')) := by
    rcases hends with rfl | rfl
    · exact trimEnd_concat (by decide) _
    · rw [List.append_nil]
  rw [render, hoffset, hline, ← htrim]
  exact (endsInRows_excerpt hc hfront
    (htrim ▸ fun h => hback (trimEnd_subset _ h)) _).append_left _

/-- Each byte more than a character moves the caret one column to the right. -/
theorem length_pointer (number : Nat) (front : List Char) :
    (pointer number front).length + front.length =
      (shownBefore number front).length + (bytesOf front).length := by
  have hspaces := congrArg List.length
    (List.takeWhile_append_dropWhile (p := (· = ' ')) (l := front))
  have hbytes : front.length ≤ (bytesOf front).length := length_bytesOf_eq_iff.1
  simp only [List.length_append] at hspaces
  simp only [pointer, shownBefore, List.length_append, List.length_replicate, List.length_cons,
    List.length_nil, String.length_toList]
  omega

/-- **The caret stands as far to the right as the bytes in front of its character reach.**
An error at a character that is not white space is rendered with that character in the last
row but one, behind what its line shows in front of it, and with a caret at the end of the
last row.  The caret stands under the character exactly when all characters in front of it,
in its line, are ASCII. -/
theorem render_caret (before after : List Char) (name : String) (hc : Blank.isBlank c = false)
    (hoffset : e.position.offset = (bytesOf before).length) :
    ∃ left right arrows, left = shownBefore (1 + before.count '\n') (sinceNewline before) ∧
      EndsInRows (render e (bytesOf (before ++ c :: after)) name) (left ++ c :: right)
        (arrows ++ ['^']) ∧
      arrows.length + (sinceNewline before).length =
        left.length + (bytesOf (sinceNewline before)).length ∧
      (arrows.length = left.length ↔ ∀ d ∈ sinceNewline before, d.toNat < 0x80) := by
  have hlength := length_pointer (1 + before.count '\n') (sinceNewline before)
  refine ⟨_, _, _, rfl, endsInRows_render before after name hc hoffset, hlength, ?_⟩
  rw [← length_bytesOf_eq_iff.2]
  omega

/-- The dollar stands behind two spaces and a letter in the second line. -/
theorem render_caret_letters :
    ∃ right arrows,
      EndsInRows
        (render ⟨.unconsumedInput "$" 7, ⟨7, 2, 4⟩⟩
          (bytesOf ['a', 'b', 'c', '\n', ' ', ' ', 'x', '$', 'y', '\n']) "input.txt")
        (['2', ' ', '|', ' ', 'x'] ++ '$' :: right) (arrows ++ ['^']) ∧
      arrows.length = 5 := by
  obtain ⟨_, right, arrows, rfl, hrows, -, hiff⟩ :=
    render_caret (e := ⟨.unconsumedInput "$" 7, ⟨7, 2, 4⟩⟩) (c := '$')
      ['a', 'b', 'c', '\n', ' ', ' ', 'x'] ['y', '\n'] "input.txt" (by decide) (by decide)
  exact ⟨right, arrows, hrows, hiff.2 (by simp [sinceNewline, List.rtakeWhile])⟩

/-- A character of two bytes moves the caret past the one behind it. -/
theorem render_caret_accent :
    ¬∃ left right arrows,
      EndsInRows (render ⟨.unconsumedInput "$" 2, ⟨2, 1, 3⟩⟩ (bytesOf ['é', '$']) "q")
        (left ++ '$' :: right) (arrows ++ ['^']) ∧ arrows.length = left.length := by
  rintro ⟨left, right, arrows, hrows, hcolumn⟩
  have hactual := endsInRows_render (e := ⟨.unconsumedInput "$" 2, ⟨2, 1, 3⟩⟩) (c := '$')
    ['é'] [] "q" (by decide) (by decide)
  obtain ⟨habove, hbelow⟩ := hrows.unique hactual
  have harrows : arrows.length = 6 := congrArg List.length (List.append_cancel_right hbelow)
  have hleft : (left ++ '$' :: right).length = 6 := congrArg List.length habove
  rw [List.length_append, List.length_cons] at hleft
  omega

end Render

end Diagnostic
end Munch
