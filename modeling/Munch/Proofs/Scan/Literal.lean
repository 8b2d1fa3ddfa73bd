import Mathlib.Order.Bounds.Basic
import Munch.Proofs.Scan.Tiling

/-!
# Nested literals end with the byte that closes them

The search for the end of a literal keeps a depth and stops at once when it would fall to
nothing.  Said without the depth, it finds the least number of bytes among which there is
one closing byte more than there are opening ones; so the literal has as many of the one
as of the other, and no part in front of it has.

**Invariant.**  A search at some depth looks for bytes that close as many pairs more than
they open, and each byte read changes the two numbers alike.

**Results.**
* `Action.isFirst_balancedFrom`: what the search finds, for every depth.
* `Action.isLiteral_of_isLeast`: the literal that ends there.
* `Scanner.next_nestedLiteral`: what a scanner makes of a literal, and of one that is not
  closed.
-/

namespace Munch

variable {text : List Byte}

namespace Action

variable {opening closing b : Byte} {depth n : Nat} {bytes rest : List Byte}

/-! ### Counting -/

/-- The first `n` of the bytes close `depth` pairs more than they open. -/
def Closes (opening closing : Byte) (depth : Nat) (bytes : List Byte) (n : Nat) : Prop :=
  n ≤ bytes.length ∧
    (bytes.take n).count closing = (bytes.take n).count opening + depth

theorem not_closes_zero : ¬Closes opening closing (depth + 1) bytes 0 := by
  rintro ⟨-, hcount⟩
  rw [List.take_zero, List.count_nil, List.count_nil] at hcount
  omega

theorem closes_zero : Closes opening closing 0 bytes 0 :=
  ⟨Nat.zero_le _, rfl⟩

theorem closes_cons_opening (hne : opening ≠ closing) :
    Closes opening closing depth (opening :: rest) (n + 1) ↔
      Closes opening closing (depth + 1) rest n := by
  rw [Closes, Closes, List.take_succ_cons, List.count_cons_of_ne hne, List.count_cons_self,
    List.length_cons]
  omega

theorem closes_cons_closing (hne : opening ≠ closing) :
    Closes opening closing (depth + 1) (closing :: rest) (n + 1) ↔
      Closes opening closing depth rest n := by
  rw [Closes, Closes, List.take_succ_cons, List.count_cons_of_ne hne.symm, List.count_cons_self,
    List.length_cons]
  omega

theorem closes_cons_of_ne (hopening : b ≠ opening) (hclosing : b ≠ closing) :
    Closes opening closing depth (b :: rest) (n + 1) ↔ Closes opening closing depth rest n := by
  rw [Closes, Closes, List.take_succ_cons, List.count_cons_of_ne hopening,
    List.count_cons_of_ne hclosing, List.length_cons]
  omega

/-! ### The search -/

/-- What was found is the first number with the property, if there is one. -/
def IsFirst (P : Nat → Prop) : Option Nat → Prop
  | none => ∀ n, ¬P n
  | some n => IsLeast {n | P n} n

/-- A search that is not done with nothing goes on behind the first byte. -/
theorem IsFirst.succ {P Q : Nat → Prop} {found : Option Nat} (h : IsFirst Q found)
    (hzero : ¬P 0) (hsucc : ∀ n, P (n + 1) ↔ Q n) : IsFirst P (found.map (· + 1)) := by
  cases found with
  | none =>
      rintro (_ | n) hn
      · exact hzero hn
      · exact h n ((hsucc n).1 hn)
  | some m =>
      refine ⟨(hsucc m).2 h.1, ?_⟩
      rintro (_ | n) hn
      · exact absurd hn hzero
      · exact Nat.succ_le_succ (h.2 ((hsucc n).1 hn))

theorem isFirst_balancedFrom (hne : opening ≠ closing) (depth : Nat) (bytes : List Byte) :
    IsFirst (Closes opening closing (depth + 1) bytes)
      (balancedFrom opening closing depth bytes) := by
  induction bytes generalizing depth with
  | nil =>
      rintro n ⟨-, hcount⟩
      rw [List.take_nil, List.count_nil, List.count_nil] at hcount
      omega
  | cons b rest ih =>
      unfold balancedFrom
      by_cases hopening : b = opening
      · subst hopening
        rw [if_pos rfl]
        exact (ih (depth + 1)).succ not_closes_zero fun _ => closes_cons_opening hne
      · rw [if_neg hopening]
        by_cases hclosing : b = closing
        · subst hclosing
          rw [if_pos rfl]
          cases depth with
          | zero =>
              refine ⟨(closes_cons_closing hne).2 closes_zero, ?_⟩
              rintro (_ | n) hn
              · exact absurd hn not_closes_zero
              · exact Nat.succ_le_succ (Nat.zero_le n)
          | succ depth =>
              exact (ih depth).succ not_closes_zero fun _ => closes_cons_closing hne
        · rw [if_neg hclosing]
          exact (ih depth).succ not_closes_zero fun _ => closes_cons_of_ne hopening hclosing

theorem balancedLength_eq_none_iff (hne : opening ≠ closing) :
    balancedLength opening closing bytes = none ↔ ∀ n, ¬Closes opening closing 1 bytes n := by
  have hfirst := isFirst_balancedFrom hne 0 bytes
  rw [balancedLength]
  cases hfound : balancedFrom opening closing 0 bytes with
  | none =>
      rw [hfound] at hfirst
      exact iff_of_true rfl hfirst
  | some m =>
      rw [hfound] at hfirst
      exact iff_of_false nofun fun hnone => hnone m hfirst.1

theorem balancedLength_eq_some_iff (hne : opening ≠ closing) :
    balancedLength opening closing bytes = some n ↔
      IsLeast {n | Closes opening closing 1 bytes n} n := by
  have hfirst := isFirst_balancedFrom hne 0 bytes
  rw [balancedLength]
  cases hfound : balancedFrom opening closing 0 bytes with
  | none =>
      rw [hfound] at hfirst
      exact iff_of_false nofun fun hleast => hfirst n hleast.1
  | some m =>
      rw [hfound] at hfirst
      constructor
      · rintro ⟨⟩
        exact hfirst
      · intro hleast
        rw [hfirst.unique hleast]

theorem exists_isLeast_of_closes (hne : opening ≠ closing)
    (h : ∃ n, Closes opening closing 1 bytes n) :
    ∃ n, IsLeast {n | Closes opening closing 1 bytes n} n := by
  obtain ⟨m, hm⟩ := h
  cases hfound : balancedLength opening closing bytes with
  | none =>
      exact absurd hm ((balancedLength_eq_none_iff hne).1 hfound m)
  | some n =>
      exact ⟨n, (balancedLength_eq_some_iff hne).1 hfound⟩

/-- What the search finds ends with a byte that closes. -/
theorem exists_take_eq_of_balancedFrom (h : balancedFrom opening closing depth bytes = some n) :
    ∃ inner, bytes.take n = inner ++ [closing] := by
  apply balancedFrom_induction (P := fun bytes n => ∃ inner, bytes.take n = inner ++ [closing])
    _ _ h
  · intro rest
    exact ⟨[], rfl⟩
  · rintro b rest n ⟨inner, hinner⟩
    exact ⟨b :: inner, congrArg (b :: ·) hinner⟩

/-! ### Literals -/

/-- The bytes are a literal around `inner`: they have as many opening as closing bytes, and
no shorter prefix has. -/
structure IsLiteral (opening closing : Byte) (inner bytes : List Byte) : Prop where
  eq_append : bytes = opening :: (inner ++ [closing])
  balanced : bytes.count opening = bytes.count closing
  shortest : ∀ u, u <+: bytes → u ≠ [] → u.count opening = u.count closing → u = bytes

theorem IsLiteral.stripDelimiters_eq {inner : List Byte}
    (h : IsLiteral opening closing inner bytes) : stripDelimiters bytes = inner := by
  rw [h.eq_append, stripDelimiters, List.tail_cons, List.dropLast_concat]

/-- A number of bytes behind an opening byte closes it when the two are balanced. -/
theorem closes_iff_count_eq (hne : opening ≠ closing) (hn : n ≤ rest.length) :
    Closes opening closing 1 rest n ↔
      (opening :: rest.take n).count opening = (opening :: rest.take n).count closing := by
  rw [Closes, List.count_cons_self, List.count_cons_of_ne hne]
  omega

theorem isLiteral_of_isLeast (hne : opening ≠ closing)
    (h : IsLeast {n | Closes opening closing 1 rest n} n) :
    ∃ inner, IsLiteral opening closing inner (opening :: rest.take n) := by
  obtain ⟨inner, hinner⟩ :=
    exists_take_eq_of_balancedFrom ((balancedLength_eq_some_iff hne).2 h)
  refine ⟨inner, congrArg (opening :: ·) hinner, (closes_iff_count_eq hne h.1.1).1 h.1, ?_⟩
  intro u hu hnil hcount
  obtain ⟨v, rfl, hv⟩ := (List.prefix_cons_iff.1 hu).resolve_left hnil
  have htake : v = rest.take v.length :=
    List.prefix_iff_eq_take.1 (hv.trans (List.take_prefix n rest))
  have hlength : v.length ≤ (rest.take n).length := hv.length_le
  rw [List.length_take] at hlength
  rw [htake] at hcount
  have hge : n ≤ v.length := h.2 ((closes_iff_count_eq hne (by omega)).2 hcount)
  rw [htake, Nat.le_antisymm (by omega) hge]

end Action

/-! ### Attempts -/

namespace Compiled

variable {k : Compiled} {c : Cursor text} {found : LongestMatch} {opening closing : Byte}
  {kind : TokenKind}

theorem attempt_literal {p : Performance text}
    (hrest : c.rest ≠ []) (hfound : k.matcher.longest c.rest = .matched found)
    (haction : k.action found.winner = .nestedLiteral opening closing kind)
    (hp : (Action.nestedLiteral opening closing kind).perform k.firstColumn (k.inner c)
      (k.matchAt c found) (k.behind c found) = some p) :
    k.attempt (k.inner c) c = some (p.attempt found.winner c) := by
  rw [← haction] at hp
  apply attempt_of_perform hrest hfound _ hp
  rintro ⟨-, hcustom⟩
  rw [haction] at hcustom
  cases hcustom

/-- A literal that is closed is made a token, and scanning resumes behind it. -/
theorem makes_literal {n : Nat} (hrest : c.rest ≠ [])
    (hfound : k.matcher.longest c.rest = .matched found)
    (haction : k.action found.winner = .nestedLiteral opening closing kind)
    (hn : Action.balancedLength opening closing (k.behind c found).rest = some n) :
    k.Makes c
      ⟨kind, Utf8.lossy (Action.stripDelimiters
          (c.rest.take found.length ++ (k.behind c found).rest.take n)),
        c.rest.take found.length ++ (k.behind c found).rest.take n,
        ⟨c.position, ((k.behind c found).advance k.firstColumn n).1⟩⟩
      ((k.behind c found).advance k.firstColumn n).2 := by
  have hmoved : c.offset < ((k.behind c found).advance k.firstColumn n).2.offset := by
    have hbehind := (k.leads_behind c found).offset_le
    have hpos := Action.balancedFrom_pos hn
    have hle := Action.balancedLength_le hn
    rw [Cursor.offset_advance]
    omega
  have hattempt := attempt_literal hrest hfound haction
    (Action.perform_nestedLiteral_of_some hn)
  simp only [Performance.attempt, if_pos hmoved] at hattempt
  exact ⟨_, hattempt⟩

/-- A literal that is not closed fails where it begins. -/
theorem fails_literal (hrest : c.rest ≠ [])
    (hfound : k.matcher.longest c.rest = .matched found)
    (haction : k.action found.winner = .nestedLiteral opening closing kind)
    (hn : Action.balancedLength opening closing (k.behind c found).rest = none) :
    k.Fails c (.actionFailed found.winner ("unclosed literal starting at " ++
      toString c.offset ++ " (" ++ c.position.display ++ ")")) := by
  have hattempt := attempt_literal hrest hfound haction
    (Action.perform_nestedLiteral_of_none hn)
  exact ⟨_, hattempt⟩

section Opened

variable {rest : List Byte} (hrest : c.rest = opening :: rest) (hlength : found.length = 1)

include hrest hlength

theorem rest_behind_opening : (k.behind c found).rest = rest := by
  rw [behind, hlength, Cursor.rest_advance (by rw [hrest]; exact Nat.succ_pos _), hrest]
  rfl

theorem scan_literal {firstLine n : Nat} (hplaced : c.WellPlaced firstLine k.firstColumn)
    (hfound : k.matcher.longest c.rest = .matched found)
    (haction : k.action found.winner = .nestedLiteral opening closing kind)
    (hne : opening ≠ closing) (hleast : IsLeast {n | Action.Closes opening closing 1 rest n} n) :
    ∃ inner s, Action.IsLiteral opening closing inner (opening :: rest.take n) ∧
      scan k c = some s ∧
      s.result = .token
        { kind := kind
          value := Utf8.lossy inner
          lexeme := opening :: rest.take n
          span := ⟨c.position, .behind firstLine k.firstColumn (text.take (c.offset + n))⟩ } ∧
      s.cursor.offset = c.offset + 1 + n := by
  obtain ⟨inner, hinner⟩ := Action.isLiteral_of_isLeast hne hleast
  have hn := (Action.balancedLength_eq_some_iff hne).2 hleast
  have hpos : 0 < n := Action.balancedFrom_pos hn
  have hle : n ≤ rest.length := hleast.1.1
  have hbehind : (k.behind c found).rest = rest := rest_behind_opening hrest hlength
  have hoffset : (k.behind c found).offset = c.offset + 1 := by
    rw [behind, Cursor.offset_advance, hlength, hrest, List.length_cons]
    omega
  have hend : ((k.behind c found).advance k.firstColumn n).2.offset = c.offset + 1 + n := by
    rw [Cursor.offset_advance, hbehind, hoffset]
    omega
  have hstop : ((k.behind c found).advance k.firstColumn n).1 =
      .behind firstLine k.firstColumn (text.take (c.offset + n)) := by
    have hmoved : (k.behind c found).offset <
        ((k.behind c found).advance k.firstColumn n).2.offset := by
      rw [hend, hoffset]
      omega
    rw [Cursor.fst_advance ((k.leads_behind c found).wellPlaced hplaced) hmoved, hend]
    congr 2
    omega
  rw [← hbehind] at hn
  obtain ⟨runs, hscan⟩ :=
    (makes_literal (List.ne_nil_of_length_pos (by simp [hrest])) hfound haction hn).scan_eq
  have hlexeme : c.rest.take found.length ++ (k.behind c found).rest.take n =
      opening :: rest.take n := by
    rw [hbehind, hlength, hrest]
    rfl
  rw [hlexeme, hstop, hinner.stripDelimiters_eq] at hscan
  exact ⟨inner, _, hinner, hscan, rfl, hend⟩

theorem scan_literal_of_not_closes (hfound : k.matcher.longest c.rest = .matched found)
    (haction : k.action found.winner = .nestedLiteral opening closing kind)
    (hne : opening ≠ closing) (hnone : ∀ n, ¬Action.Closes opening closing 1 rest n) :
    ∃ runs, scan k c =
      some ⟨.error ⟨.actionFailed found.winner ("unclosed literal starting at " ++
        toString c.offset ++ " (" ++ c.position.display ++ ")"), c.position⟩, c, runs⟩ := by
  rw [← Action.balancedLength_eq_none_iff hne, ← rest_behind_opening hrest hlength] at hnone
  exact (fails_literal (List.ne_nil_of_length_pos (by simp [hrest])) hfound haction hnone).scan_eq

end Opened

end Compiled

namespace Scanner

/-- **A nested literal is the shortest balanced prefix.**  If the bytes behind the opening
byte close it, the token ends with the first of them that does, and its value is what
stands between the two; if they do not, the scanner fails and stays where it was. -/
theorem next_nestedLiteral {l compiled : Lexer} (hcompile : l.compile = .ok compiled)
    {s v : Scanner} (hstart : compiled.scanner text = .ok s) (hreach : s.Reaches v)
    {found : LongestMatch}
    (hfound : v.lexer.matcher.longestAt text v.position.offset = .matched found)
    {r : Rule} (hr : l.rules[found.winner]? = some r) {opening closing : Byte} {kind : TokenKind}
    (haction : r.action = .nestedLiteral opening closing kind) (hne : opening ≠ closing)
    (hlength : found.length = 1) (hopening : text[v.position.offset]? = some opening) :
    ((∃ n, Action.Closes opening closing 1 (text.drop (v.position.offset + 1)) n) →
      ∃ n inner scan,
        IsLeast {n | Action.Closes opening closing 1 (text.drop (v.position.offset + 1)) n} n ∧
        Action.IsLiteral opening closing inner
          (text.extract v.position.offset (v.position.offset + 1 + n)) ∧
        v.next = some scan ∧
        scan.result = .token
          { kind := kind
            value := Utf8.lossy inner
            lexeme := text.extract v.position.offset (v.position.offset + 1 + n)
            span := ⟨v.position, .behind l.config.firstLine l.config.firstColumn
              (text.take (v.position.offset + n))⟩ } ∧
        scan.cursor.offset = v.position.offset + 1 + n) ∧
    ((∀ n, ¬Action.Closes opening closing 1 (text.drop (v.position.offset + 1)) n) →
      ∃ scan, v.next = some scan ∧
        scan.result = .error ⟨.actionFailed found.winner ("unclosed literal starting at " ++
          toString v.position.offset ++ " (" ++ v.position.display ++ ")"), v.position⟩ ∧
        v.moveTo scan.cursor = v) := by
  obtain ⟨patterns, k, c, h, rfl, rfl, hplaced⟩ :=
    Lexer.exists_cursor_of_reaches hcompile hstart hreach
  rw [← h.firstLine_eq, ← h.firstColumn_eq]
  have hfound' : k.matcher.longest c.rest = .matched found := by
    rw [← c.drop_eq]
    exact Outcome.shift_eq_matched_iff.1 hfound
  have haction' : k.action found.winner = .nestedLiteral opening closing kind := by
    rw [h.action_eq, hr, ← haction]
    rfl
  have hrest : c.rest = opening :: text.drop (c.offset + 1) := by
    obtain ⟨hlt, hget⟩ := List.getElem?_eq_some_iff.1 hopening
    rw [← c.drop_eq, ← hget]
    exact List.drop_eq_getElem_cons hlt
  constructor
  · intro hcloses
    obtain ⟨n, hn⟩ := Action.exists_isLeast_of_closes hne hcloses
    have hlexeme : text.extract c.offset (c.offset + 1 + n) =
        opening :: (text.drop (c.offset + 1)).take n := by
      rw [List.extract, Nat.add_assoc, Nat.add_sub_cancel_left, Nat.add_comm 1 n]
      exact congrArg (List.take (n + 1)) (c.drop_eq.trans hrest)
    obtain ⟨inner, s, hinner, hscan, hresult, hend⟩ :=
      Compiled.scan_literal hrest hlength hplaced hfound' haction' hne hn
    rw [← hlexeme] at hinner hresult
    exact ⟨n, inner, s, hn, hinner, hscan, hresult, hend⟩
  · intro hnone
    obtain ⟨runs, hscan⟩ :=
      Compiled.scan_literal_of_not_closes hrest hlength hfound' haction' hne hnone
    exact ⟨_, hscan, rfl, rfl⟩

/-- In the text `xacabbc`, with pairs of `a` and `b`, the literal behind the `x`. -/
theorem next_nestedLiteral_letters :
    ∃ compiled s v scan,
      (letterLexer (.nestedLiteral 97 98 ⟨7⟩) true).compile = .ok compiled ∧
      compiled.scanner [120, 97, 99, 97, 98, 98, 99] = .ok s ∧ s.Reaches v ∧
      v.position = ⟨1, 1, 2⟩ ∧ v.next = some scan ∧
      scan.result = .token ⟨⟨7⟩, "cab", [97, 99, 97, 98, 98], ⟨⟨1, 1, 2⟩, ⟨5, 1, 6⟩⟩⟩ ∧
      scan.cursor.offset = 6 := by
  obtain ⟨script, hscript⟩ : ∃ script, Action.nestedLiteral 97 98 ⟨7⟩ = .custom script :=
    ⟨_, rfl⟩
  obtain ⟨compiled, k, hcompile, hstart, hline, hcolumn, -, hlongest, -⟩ :=
    Lexer.exists_compiled_letter script
  rw [← hscript] at hcompile
  obtain ⟨others, hfound⟩ := hlongest [99, 97, 98, 98, 99]
  let text : List Byte := [120, 97, 99, 97, 98, 98, 99]
  let v : Scanner := ((new k text).advance 1).2
  have hreach : (new k text).Reaches v := .single (.advance _ 1)
  have hposition : v.position = ⟨1, 1, 2⟩ := by
    show (⟨0, k.firstLine, k.firstColumn⟩ : Position).step 120 k.firstColumn = ⟨1, 1, 2⟩
    rw [hline, hcolumn]
    rfl
  have hmatch : v.lexer.matcher.longestAt text v.position.offset = .matched ⟨1, 0, others⟩ := by
    rw [hposition]
    exact Outcome.shift_eq_matched_iff.2 hfound
  have hleast : IsLeast {n | Action.Closes 97 98 1 [99, 97, 98, 98, 99] n} 4 :=
    (Action.balancedLength_eq_some_iff (by decide)).1 (by decide)
  obtain ⟨n, inner, scan, hn, hinner, hnext, hresult, hend⟩ :=
    (next_nestedLiteral hcompile (hstart text) hreach hmatch (r := ⟨0, [97], _⟩) rfl rfl
      (by decide) rfl (by rw [hposition]; rfl)).1 (by rw [hposition]; exact ⟨4, hleast.1⟩)
  rw [hposition] at hn hinner hresult hend
  obtain rfl : n = 4 := hn.unique hleast
  obtain rfl : [99, 97, 98] = inner := hinner.stripDelimiters_eq
  refine ⟨compiled, _, v, scan, hcompile, hstart text, hreach, hposition, hnext, ?_, hend⟩
  rw [hresult]
  decide +kernel

end Scanner
end Munch
