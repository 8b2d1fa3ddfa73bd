import Mathlib.Data.List.TakeWhile
import Munch.Proofs.Scan.Progress

/-!
# Scanning from the middle of a text

The bytes in front of a scanner count for its positions and for nothing else.  So a scanner
in the middle of a text gives what a new one gives that is handed the rest of the text
alone, once the positions are moved behind the bytes in front: offsets by their number,
lines by the newlines among them, and columns by what stands behind the last newline, as
long as no further newline comes in between.

**Invariant.**  One cursor is as far behind the bytes in front as the other is in the rest,
and each has the true position for its own text.

**Results.**
* `Position.behind_append_take`: how the bytes in front move a position.
* `Cursor.Aligned.advance`, `Cursor.Aligned.fst_advance`: the invariant under moves.
* `Lexer.Realizes.scansAlike`, `Lexer.Realizes.recover_aligned`: one scan, and all
  of them.
* `Scanner.recover_displaced`: recovery from wherever a scanner has come to.
-/

namespace Munch

/-! ### Displaced positions -/

/-- Where a position in `rest` lies once `front` stands in front of it. -/
def Position.displaced (front rest : List Byte) (p : Position) : Position where
  offset := front.length + p.offset
  line := front.count Ascii.newline + p.line
  column :=
    if Ascii.newline ∈ rest.take p.offset then p.column
    else (front.reverse.takeWhile (· != Ascii.newline)).length + p.column

/-- Both ends, displaced. -/
def Span.displaced (front rest : List Byte) (s : Span) : Span :=
  ⟨s.start.displaced front rest, s.stop.displaced front rest⟩

/-- The same rule and the same bytes, displaced. -/
def Match.displaced (front rest : List Byte) (m : Match) : Match :=
  { m with span := m.span.displaced front rest }

/-- The same kind, value and lexeme, displaced. -/
def Token.displaced (front rest : List Byte) (t : Token) : Token :=
  { t with span := t.span.displaced front rest }

/-- The same cause; the place where matching failed is `n` bytes further on. -/
def ErrorKind.displaced (n : Nat) : ErrorKind → ErrorKind
  | unconsumedInput text failedAt => unconsumedInput text (n + failedAt)
  | kind => kind

/-- The same cause, displaced. -/
def LexError.displaced (front rest : List Byte) (e : LexError) : LexError :=
  ⟨e.kind.displaced front.length, e.position.displaced front rest⟩

/-- The same result, displaced. -/
def ScanResult.displaced (front rest : List Byte) : ScanResult → ScanResult
  | token t => token (t.displaced front rest)
  | error e => error (e.displaced front rest)
  | endOfInput => endOfInput

variable {text front rest : List Byte} {firstLine firstColumn : Nat}

-- The bytes behind the last newline are all among the later ones if these have a newline.
theorem length_takeWhile_reverse_append (front w : List Byte) :
    ((front ++ w).reverse.takeWhile (· != Ascii.newline)).length =
      if Ascii.newline ∈ w then (w.reverse.takeWhile (· != Ascii.newline)).length
      else (front.reverse.takeWhile (· != Ascii.newline)).length +
        (w.reverse.takeWhile (· != Ascii.newline)).length := by
  have hall : w.reverse.takeWhile (· != Ascii.newline) = w.reverse ↔ Ascii.newline ∉ w := by
    rw [List.takeWhile_eq_self_iff]
    simp only [List.mem_reverse, bne_iff_ne]
    exact List.forall_mem_ne'
  rw [List.reverse_append, List.takeWhile_append]
  split
  · rename_i hlength
    have heq := (List.takeWhile_prefix _).eq_of_length hlength
    rw [if_neg (hall.1 heq), heq, List.length_append, Nat.add_comm]
  · rename_i hlength
    have hmem : Ascii.newline ∈ w := by
      by_contra hnone
      exact hlength (congrArg List.length (hall.2 hnone))
    rw [if_pos hmem]

theorem Position.behind_append_take (n : Nat) :
    behind firstLine firstColumn (front ++ rest.take n) =
      (behind firstLine firstColumn (rest.take n)).displaced front rest := by
  have htake : rest.take (rest.take n).length = rest.take n := by
    rw [List.length_take, ← List.take_eq_take_min]
  simp only [behind, displaced, htake, List.length_append, List.count_append,
    length_takeWhile_reverse_append]
  congr 1
  · exact Nat.add_left_comm _ _ _
  · split
    · rfl
    · exact Nat.add_left_comm _ _ _

/-! ### Moving in step -/

namespace Cursor

/-- The first cursor is as far behind `front` as the second is in `rest`, and each has the
true position for its own text. -/
structure Aligned (front : List Byte) (firstLine firstColumn : Nat) (c : Cursor text)
    (d : Cursor rest) : Prop where
  text_eq : text = front ++ rest
  offset_eq : c.offset = front.length + d.offset
  left : c.WellPlaced firstLine firstColumn
  right : d.WellPlaced firstLine firstColumn

namespace Aligned

variable {c : Cursor text} {d : Cursor rest}

theorem rest_eq (h : Aligned front firstLine firstColumn c d) : c.rest = d.rest :=
  calc
    c.rest = text.drop c.offset := c.drop_eq.symm
    _ = (front ++ rest).drop (front.length + d.offset) :=
      congrArg₂ List.drop h.offset_eq h.text_eq
    _ = rest.drop d.offset := List.drop_length_add_append d.offset
    _ = d.rest := d.drop_eq

theorem behind_take (h : Aligned front firstLine firstColumn c d) (n : Nat) :
    Position.behind firstLine firstColumn (text.take (front.length + n)) =
      (Position.behind firstLine firstColumn (rest.take n)).displaced front rest := by
  rw [h.text_eq, List.take_length_add_append, Position.behind_append_take]

theorem position_eq (h : Aligned front firstLine firstColumn c d) :
    c.position = d.position.displaced front rest := by
  have hleft : c.position = .behind firstLine firstColumn (text.take c.offset) := h.left
  rw [h.offset_eq, h.behind_take, ← h.right] at hleft
  exact hleft

theorem offset_advance (h : Aligned front firstLine firstColumn c d) (n : Nat) :
    (c.advance firstColumn n).2.offset = front.length + (d.advance firstColumn n).2.offset := by
  rw [Cursor.offset_advance, Cursor.offset_advance, h.rest_eq, h.offset_eq, Nat.add_assoc]

theorem advance (h : Aligned front firstLine firstColumn c d) (n : Nat) :
    Aligned front firstLine firstColumn (c.advance firstColumn n).2 (d.advance firstColumn n).2 :=
  ⟨h.text_eq, h.offset_advance n, (leads_advance n c).wellPlaced h.left,
    (leads_advance n d).wellPlaced h.right⟩

/-- Advances also answer alike. -/
theorem fst_advance (h : Aligned front firstLine firstColumn c d) (n : Nat) :
    (c.advance firstColumn n).1 = (d.advance firstColumn n).1.displaced front rest := by
  have hleft := fst_walk h.left n c.position
  have hright := fst_walk h.right n d.position
  have hoffset := h.offset_advance n
  have hstart := h.offset_eq
  unfold Cursor.advance at hoffset ⊢
  rw [hleft, hright]
  split
  · rename_i hmoved
    have hlast : (walk firstColumn n c.position c).2.offset - 1 =
        front.length + ((walk firstColumn n d.position d).2.offset - 1) := by omega
    rw [if_pos (by omega), hlast, h.behind_take]
  · rw [if_neg (by omega), h.position_eq]

end Aligned
end Cursor

/-! ### Scanning in step -/

/-- The ready-made actions that decide on their match as it is. -/
inductive Action.Plain : Action → Prop
  | token (kind : TokenKind) : Plain (.token kind)
  | quoted (kind : TokenKind) : Plain (.quoted kind)
  | skip : Plain .skip

/-- A plain action skips its match, or makes a token of it wherever the match lies. -/
theorem Action.Plain.eq_skip_or_emit {action : Action} (h : action.Plain) :
    action = .skip ∨ ∃ make, action = .emit make ∧
      ∀ front rest m, make (m.displaced front rest) = (make m).displaced front rest := by
  cases h with
  | token kind =>
      exact .inr ⟨_, rfl, fun _ _ _ => rfl⟩
  | quoted kind =>
      exact .inr ⟨_, rfl, fun _ _ _ => rfl⟩
  | skip =>
      exact .inl rfl

theorem Action.Plain.isCustom_eq_false {action : Action} (h : action.Plain) :
    action.isCustom = false := by
  cases h <;> rfl

/-- Both scans end, their results are alike, and they leave the cursors in step. -/
def Compiled.ScansAlike (k : Compiled) (front : List Byte) (firstLine : Nat) (c : Cursor text)
    (d : Cursor rest) : Prop :=
  ∃ s t, scan k c = some s ∧ scan k d = some t ∧ s.result = t.result.displaced front rest ∧
    Cursor.Aligned front firstLine k.firstColumn s.cursor t.cursor

namespace Lexer

open Cursor (Aligned)

variable {l : Lexer} {patterns : List Pattern} {k : Compiled} {c : Cursor text} {d : Cursor rest}

/-- What can be cut off is skipped in both places or made a token in both. -/
theorem Realizes.scansAlike_of_isMunch (hl : l.Realizes patterns k)
    (hplain : ∀ r ∈ l.rules, r.action.Plain) (h : Aligned front firstLine k.firstColumn c d)
    {s : Segment} (hs : IsMunch l.Accepts d.rest s)
    (hagain : k.ScansAlike front firstLine (c.advance k.firstColumn s.word.length).2
      (d.advance k.firstColumn s.word.length).2) :
    k.ScansAlike front firstLine c d := by
  obtain ⟨others, hright⟩ := hl.longest_of_isMunch hs
  have hleft := (congrArg k.matcher.longest h.rest_eq).trans hright
  obtain ⟨after, hsplit⟩ := hs.front
  have haction : (k.action s.rule).Plain := hl.forall_action .skip hplain s.rule
  rcases haction.eq_skip_or_emit with hskip | ⟨make, hemit, hmake⟩
  · rw [Compiled.ScansAlike, scan_skip hs.nonempty (h.rest_eq.trans hsplit.symm) hleft hskip,
      scan_skip hs.nonempty hsplit.symm hright hskip]
    exact hagain
  · refine ⟨_, _, scan_emit hs.nonempty (h.rest_eq.trans hsplit.symm) hleft hemit,
      scan_emit hs.nonempty hsplit.symm hright hemit, ?_, h.advance _⟩
    rw [h.position_eq, h.fst_advance]
    exact congrArg ScanResult.token (hmake front rest ⟨s.rule, s.word, ⟨d.position, _⟩⟩)

/-- One scan gives the same result in both places, and the cursors stay in step. -/
theorem Realizes.scansAlike (hl : l.Realizes patterns k)
    (hplain : ∀ r ∈ l.rules, r.action.Plain) (h : Aligned front firstLine k.firstColumn c d) :
    k.ScansAlike front firstLine c d := by
  induction d using Cursor.induction_further generalizing c with
  | step d ih =>
      by_cases hempty : d.rest = []
      · exact ⟨_, _, scan_at_end (h.rest_eq.trans hempty), scan_at_end hempty, rfl, h⟩
      have hempty' : c.rest ≠ [] := fun hnil => hempty (h.rest_eq.symm.trans hnil)
      have hlongest := congrArg k.matcher.longest h.rest_eq
      cases hright : k.matcher.longest d.rest with
      | unmatched read =>
          refine ⟨_, _, scan_unmatched hempty' (hlongest.trans hright),
            scan_unmatched hempty hright, ?_, h⟩
          rw [h.rest_eq, h.position_eq, h.offset_eq, Nat.add_assoc]
          rfl
      | matched found =>
          by_cases hlength : found.length = 0
          · have haction : (k.action found.winner).Plain := hl.forall_action .skip hplain _
            have hcustom := haction.isCustom_eq_false
            refine ⟨_, _, scan_refuse hempty' (hlongest.trans hright) hlength hcustom,
              scan_refuse hempty hright hlength hcustom, ?_, h⟩
            rw [h.position_eq]
            rfl
          · have hs := (hl.matched_iff.1 hright).isMunch hlength
            obtain ⟨after, hsplit⟩ := hs.front
            have hfurther := offset_lt_advance (k := k) hs.nonempty hsplit.symm
            exact hl.scansAlike_of_isMunch hplain h hs (ih hempty _ hfurther (h.advance _))

/-- Recovery gives the same results in both places. -/
theorem Realizes.recover_aligned (hl : l.Realizes patterns k)
    (hplain : ∀ r ∈ l.rules, r.action.Plain) (h : Aligned front firstLine k.firstColumn c d) :
    ∃ t u, recover k c = some t ∧ recover k d = some u ∧
      t.items = u.items.map (·.displaced front rest) := by
  induction d using Cursor.induction_further generalizing c with
  | step d ih =>
      obtain ⟨s, t, hs, ht, hresult, hstep⟩ := hl.scansAlike hplain h
      cases hitem : t.result with
      | endOfInput =>
          rw [hitem] at hresult
          exact ⟨_, _, recover_of_end hs hresult, recover_of_end ht hitem, rfl⟩
      | token token =>
          rw [hitem] at hresult
          obtain ⟨u, v, hu, hv, hitems⟩ :=
            ih (rest_ne_nil_of_token ht hitem) _ (offset_lt_of_token ht hitem) hstep
          rw [recover_of_token hs hresult, recover_of_token ht hitem, hu, hv]
          exact ⟨_, _, rfl, rfl, congrArg _ hitems⟩
      | error e =>
          rw [hitem] at hresult
          obtain ⟨hne, hmoved⟩ := offset_lt_of_error ht hitem
          obtain ⟨u, v, hu, hv, hitems⟩ := ih hne _ hmoved (hstep.advance 1)
          rw [recover_of_error hs hresult, recover_of_error ht hitem, hu, hv]
          exact ⟨_, _, rfl, rfl, congrArg _ hitems⟩

end Lexer

namespace Scanner

/-- **Scanning from the middle is scanning the rest.**  Whatever calls have brought a
scanner to its place, recovery from there gives what a new scanner over the rest of the text
gives, displaced by the bytes in front. -/
theorem recover_displaced {l compiled : Lexer} (hcompile : l.compile = .ok compiled)
    (hplain : ∀ r ∈ l.rules, r.action.Plain) {s v : Scanner}
    (hstart : compiled.scanner text = .ok s) (hreach : s.Reaches v) :
    ∃ w tally fresh, compiled.scanner (text.drop v.position.offset) = .ok w ∧
      v.recover = some tally ∧ w.recover = some fresh ∧
      tally.items = fresh.items.map
        (·.displaced (text.take v.position.offset) (text.drop v.position.offset)) := by
  obtain ⟨patterns, k, c, h, rfl, rfl, hplaced⟩ :=
    Lexer.exists_cursor_of_reaches hcompile hstart hreach
  have haligned : Cursor.Aligned (text.take c.offset) k.firstLine k.firstColumn c
      (Cursor.atStart (text.drop c.offset) k.firstLine k.firstColumn) :=
    { text_eq := (List.take_append_drop c.offset text).symm
      offset_eq := (List.length_take_of_le hplaced.offset_le_length).symm
      left := hplaced
      right := Cursor.wellPlaced_atStart _ k.firstLine k.firstColumn }
  obtain ⟨tally, fresh, htally, hfresh, hitems⟩ := h.recover_aligned hplain haligned
  exact ⟨new k (text.drop c.offset), tally, fresh, rfl, htally, hfresh, hitems⟩

/-- In the text of the lines `""`, `ba` and `a`, from behind the `b`. -/
theorem recover_displaced_letter :
    ∃ compiled s v tally, (letterLexer (.token ⟨7⟩) false).compile = .ok compiled ∧
      compiled.scanner [10, 98, 97, 10, 97] = .ok s ∧ s.Reaches v ∧ v.position = ⟨2, 2, 2⟩ ∧
      v.recover = some tally ∧
      tally.items = [.token ⟨⟨7⟩, "a", [97], ⟨⟨2, 2, 2⟩, ⟨2, 2, 2⟩⟩⟩,
        .error ⟨.unconsumedInput "\n" 3, ⟨3, 2, 3⟩⟩,
        .token ⟨⟨7⟩, "a", [97], ⟨⟨4, 3, 1⟩, ⟨4, 3, 1⟩⟩⟩, .endOfInput] := by
  obtain ⟨compiled, -, hcompile, -⟩ := exists_compile_letter (.token ⟨7⟩) false
  obtain ⟨patterns, ⟨matcher, actions, firstLine, firstColumn⟩, rfl, h⟩ :=
    Lexer.compile_spec hcompile
  obtain rfl : firstLine = 1 := h.firstLine_eq
  obtain rfl : firstColumn = 1 := h.firstColumn_eq
  let k : Compiled := ⟨matcher, actions, 1, 1⟩
  let s : Scanner := new k [10, 98, 97, 10, 97]
  have hreach : s.Reaches (s.advance 2).2 := .single (.advance s 2)
  obtain ⟨w, tally, fresh, hw, htally, hfresh, hitems⟩ :=
    recover_displaced hcompile (forall_mem_rules_letter (.token ⟨7⟩) false) (s := s) rfl hreach
  refine ⟨_, s, _, tally, hcompile, rfl, hreach, rfl, htally, ?_⟩
  obtain rfl : new k [97, 10, 97] = w := Except.ok.inj hw
  obtain rfl := Except.ok.inj ((Lexer.readPatterns_eq_ok_iff.2 h.read).symm.trans
    (readPatterns_letter (.token ⟨7⟩) false))
  have hlongest : k.matcher.longest [10, 97] = .unmatched 0 := by
    rw [h.longest_eq]
    cbv
  let c : Cursor [97, 10, 97] := .atStart _ 1 1
  let d := (c.advance 1 1).2
  let e := (d.advance 1 1).2
  have hc : scan k c = some _ := h.scan_letter rfl
  have hd : scan k d = some _ := scan_unmatched (List.cons_ne_nil 10 [97]) hlongest
  have he : scan k e = some _ := h.scan_letter rfl
  have hend : scan k (e.advance 1 1).2 = some _ := scan_at_end rfl
  have hrecover : Munch.recover k c = _ := recover_of_token hc rfl
  rw [recover_of_error hd rfl, recover_of_token he rfl, recover_of_end hend rfl] at hrecover
  rw [hitems, ← Option.some.inj (hrecover.symm.trans hfresh)]
  have hvalue : Utf8.lossy [97] = "a" := by decide +kernel
  have hstray : Utf8.frontText [10, 97] = "\n" := by decide +kernel
  rw [← hvalue, ← hstray]
  rfl

end Scanner
end Munch
