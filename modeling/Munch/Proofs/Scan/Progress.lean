import Munch.Proofs.Scan.Termination

/-!
# Scanning makes progress and ends

Where scans have results, the place they leave the cursor at bounds what can follow.
A token is behind where its scan began, an error has a byte left for recovery to step
over, and so recovery gives at most one token or error for each byte of the text.

**Invariant.**  Each scan of a recovery begins further on than the one before.

**Results.**
* `scan_progress`: where tokens, errors and the end of the text leave the cursor.
* `exists_recover`: recovery ends, and what it has given by then.
* `Scanner.next_progress`: both, for every scanner whose scripts ask for tokens only
  behind the place where their match began.
-/

namespace Munch

variable {text : List Byte} {k : Compiled} {c : Cursor text}

/-- Scripts ask behind their match as long as that match is not empty. -/
theorem Compiled.asksBehind_of_length_ne_zero
    (h : ∀ found, k.matcher.longest c.rest = .matched found → found.length ≠ 0) :
    k.AsksBehind c := by
  intro a d e go hstarts hcomes
  have hle : d.offset ≤ e.offset := hcomes.leads.offset_le
  cases hstarts with
  | @intro found script hrest hfound haction =>
      have hmatch := h found hfound
      have hleft := List.length_pos_iff.2 hrest
      have hbehind : (k.behind c found).offset = c.offset + min found.length c.rest.length :=
        Cursor.offset_advance k.firstColumn found.length c
      omega

theorem Cursor.WellPlaced.offset_eq_length {firstLine firstColumn : Nat}
    (h : c.WellPlaced firstLine firstColumn) (hrest : c.rest = []) : c.offset = text.length := by
  have hle := h.offset_le_length
  have hlength := c.length_rest
  rw [hrest, List.length_nil] at hlength
  omega

/-- A token leaves the cursor further on, an error no further back and before the end,
and all of them within the text. -/
theorem scan_progress {s : Scan text} (hplaced : c.WellPlaced k.firstLine k.firstColumn)
    (h : scan k c = some s) :
    (∀ t, s.result = .token t → c.offset < s.cursor.offset ∧ s.cursor.offset ≤ text.length) ∧
    (∀ e, s.result = .error e → c.offset ≤ s.cursor.offset ∧ s.cursor.offset < text.length) ∧
    (s.result = .endOfInput → s.cursor.offset = text.length) := by
  have hleft := scan_leftFrom h
  have hwell := (scan_leads h).wellPlaced hplaced
  refine ⟨?_, ?_, ?_⟩
  · intro t ht
    rw [Scan.LeftFrom, ht] at hleft
    exact ⟨hleft, hwell.offset_le_length⟩
  · intro e he
    rw [Scan.LeftFrom, he] at hleft
    exact ⟨hleft.1, Cursor.offset_lt hleft.2⟩
  · intro hend
    rw [Scan.LeftFrom, hend] at hleft
    exact hwell.offset_eq_length hleft

/-! ### Recovery -/

/-- After an error there is a byte to step over, and behind it is further on. -/
theorem offset_lt_of_error {s : Scan text} {e : LexError} (h : scan k c = some s)
    (he : s.result = .error e) :
    c.rest ≠ [] ∧ c.offset < (s.cursor.advance k.firstColumn 1).2.offset := by
  obtain ⟨hle, hrest⟩ := offset_le_of_error h he
  have hlt := Cursor.offset_lt hrest
  rw [← List.length_pos_iff, c.length_rest, Cursor.offset_advance, Cursor.length_rest]
  omega

/-- A recovery from `c` has gone through the whole text: after at most one token or
error for each byte left there comes the end of the text, and nothing else. -/
structure Tally.RunsOut (c : Cursor text) (t : Tally text ScanResult) : Prop where
  items_eq : ∃ results, t.items = results ++ [.endOfInput] ∧ .endOfInput ∉ results ∧
    results.length ≤ text.length - c.offset
  ends : t.cursor.offset = text.length

/-- A further result in front is paid for with the bytes that recovery has moved over. -/
theorem Tally.RunsOut.after {d : Cursor text} {t : Tally text ScanResult} {item : ScanResult}
    (runs : List ActionRun) (h : t.RunsOut d) (hitem : item ≠ .endOfInput)
    (hmoved : c.offset < d.offset) (hle : d.offset ≤ text.length) :
    (t.after item runs).RunsOut c := by
  obtain ⟨results, hitems, hnone, hlength⟩ := h.items_eq
  refine ⟨⟨item :: results, ?_, ?_, ?_⟩, h.ends⟩
  · rw [Tally.after, hitems, List.cons_append]
  · rintro (_ | ⟨_, hmem⟩)
    · exact hitem rfl
    · exact hnone hmem
  · rw [List.length_cons]
    omega

/-- Recovery ends if scripts ask for tokens only behind the place where their match
began. -/
theorem exists_recover (hplaced : c.WellPlaced k.firstLine k.firstColumn)
    (hasks : ∀ d, Cursor.Leads k.firstColumn c d → k.AsksBehind d) :
    ∃ t, recover k c = some t ∧ t.RunsOut c := by
  induction c using Cursor.induction_further with
  | step c ih =>
      obtain ⟨s, hs⟩ := exists_scan hasks
      obtain ⟨htoken, -, hend⟩ := scan_progress hplaced hs
      -- Recovery goes on from `d` after a token or an error.
      have hagain : ∀ d, Cursor.Leads k.firstColumn s.cursor d → c.offset < d.offset →
          ∃ t, recover k d = some t ∧ ∀ item ≠ .endOfInput, (t.after item s.runs).RunsOut c := by
        intro d hd hmoved
        have hleads := (scan_leads hs).trans hd
        have hwell := hleads.wellPlaced hplaced
        have hrest : c.rest ≠ [] := by
          intro hempty
          have hlength := hplaced.offset_eq_length hempty
          have hle := hwell.offset_le_length
          omega
        obtain ⟨t, ht, hout⟩ := ih hrest d hmoved hwell fun e he => hasks e (hleads.trans he)
        exact ⟨t, ht, fun item hitem => hout.after s.runs hitem hmoved hwell.offset_le_length⟩
      cases hresult : s.result with
      | token t =>
          obtain ⟨tally, htally, hout⟩ := hagain s.cursor (.refl _) (htoken t hresult).1
          rw [recover_of_token hs hresult, htally]
          exact ⟨_, rfl, hout (.token t) (by simp)⟩
      | error e =>
          obtain ⟨tally, htally, hout⟩ :=
            hagain _ (Cursor.leads_advance 1 s.cursor) (offset_lt_of_error hs hresult).2
          rw [recover_of_error hs hresult, htally]
          exact ⟨_, rfl, hout (.error e) (by simp)⟩
      | endOfInput =>
          rw [recover_of_end hs hresult]
          exact ⟨_, rfl, ⟨[], rfl, List.not_mem_nil, Nat.zero_le _⟩, hend hresult⟩

namespace Scanner

/-- **Scanning always makes progress and ends.**  If scripts ask for tokens only behind
the place where their match began, every scan has a result, which the recursion finds
by itself, and so has every recovery. -/
theorem next_progress {l : Lexer} {s t : Scanner} (hstart : l.scanner text = .ok s)
    (hasks : ∀ v, s.Reaches v → v.lexer.AsksBehind v.cursor) (hreach : s.Reaches t) :
    (∃ scan, t.next = some scan ∧
      scanWithin t.lexer (t.text.length - t.position.offset + 1) t.cursor = some scan ∧
      (∀ token, scan.result = .token token →
        t.position.offset < scan.cursor.offset ∧ scan.cursor.offset ≤ t.text.length) ∧
      (∀ e, scan.result = .error e →
        t.position.offset ≤ scan.cursor.offset ∧ scan.cursor.offset < t.text.length) ∧
      (scan.result = .endOfInput → scan.cursor.offset = t.text.length)) ∧
    ∃ tally, t.recover = some tally ∧ tally.RunsOut t.cursor := by
  obtain ⟨k, -, rfl⟩ := Lexer.scanner_eq_ok hstart
  obtain ⟨c, rfl, hleads⟩ := hreach.exists_cursor
  have hplaced : c.WellPlaced k.firstLine k.firstColumn :=
    hleads.wellPlaced (Cursor.wellPlaced_atStart text k.firstLine k.firstColumn)
  have hbehind : ∀ d, Cursor.Leads k.firstColumn c d → k.AsksBehind d := by
    intro d hd
    exact hasks _ (.of_leads (hleads.trans hd))
  obtain ⟨scan, hscan⟩ := exists_scan hbehind
  exact ⟨⟨scan, hscan, scanWithin_of_scan hscan, scan_progress hplaced hscan⟩,
    exists_recover hplaced hbehind⟩

/-- A script that throws away the token behind its match. -/
def dropNext (_ : Match) : Script := .next fun _ => .finish (.ok none)

theorem next_progress_letter :
    ∃ compiled s, (letterLexer (.custom dropNext) true).compile = .ok compiled ∧
      compiled.scanner [97, 97, 98] = .ok s ∧
      (∀ v, s.Reaches v → v.lexer.AsksBehind v.cursor) ∧ s.Reaches (s.advance 1).2 ∧
      (∃ scan, (s.advance 1).2.next = some scan) ∧
      ∃ tally, (s.advance 1).2.recover = some tally ∧ tally.cursor.offset = 3 := by
  obtain ⟨compiled, k, hcompile, hstart, -, -, -, -, hlength⟩ :=
    Lexer.exists_compiled_letter dropNext
  have hasks : ∀ v, (new k [97, 97, 98]).Reaches v → v.lexer.AsksBehind v.cursor := by
    intro v hv
    obtain ⟨c, rfl, -⟩ := hv.exists_cursor
    apply Compiled.asksBehind_of_length_ne_zero
    intro found hfound
    rw [hlength _ found hfound]
    exact Nat.one_ne_zero
  have hreach : (new k [97, 97, 98]).Reaches ((new k [97, 97, 98]).advance 1).2 :=
    .single (.advance _ 1)
  obtain ⟨⟨scan, hscan, -⟩, tally, htally, hout⟩ := next_progress (hstart _) hasks hreach
  exact ⟨compiled, _, hcompile, hstart _, hasks, hreach, ⟨scan, hscan⟩, tally, htally, hout.ends⟩

end Scanner
end Munch
