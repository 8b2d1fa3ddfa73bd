import Munch.Proofs.Scan.Builtin
import Munch.Proofs.Scan.Failure
import Munch.Proofs.Scan.Progress

/-!
# Tokens tile the text

With ready-made actions a token is a piece of the text between two places where the
scanner has stood.  So the tokens of a run of calls follow each other, and what lies in
front of a token was skipped by the scan that found it, or moved over by earlier calls.

**Results.**
* `Compiled.Makes.covers`: the place of the token that an attempt makes.
* `exists_makes_of_scan`: a scan with a token, attempt by attempt.
* `Lexer.Realizes.munched_of_skips`: what is skipped in front of a token.
* `Scanner.Emits.tiled`: the tokens of a run, by induction on the calls.
* `Scanner.emits_tiled`: runs, the next call after a run, and recovery.
-/

namespace Munch

variable {text : List Byte}

/-! ### Pieces of a text -/

/-- The token is a piece of the text that is not empty, and its span holds the true
positions of the first and the last byte of the piece. -/
structure Token.Covers (firstLine firstColumn : Nat) (text : List Byte) (t : Token) : Prop where
  lexeme_ne_nil : t.lexeme ≠ []
  lexeme_eq : t.lexeme = text.extract t.range.1 t.range.2
  stop_le : t.range.2 ≤ text.length
  start_eq : t.span.start = .behind firstLine firstColumn (text.take t.range.1)
  stop_eq : t.span.stop = .behind firstLine firstColumn (text.take (t.range.2 - 1))

theorem Token.Covers.start_lt_stop {firstLine firstColumn : Nat} {t : Token}
    (h : t.Covers firstLine firstColumn text) : t.range.1 < t.range.2 :=
  Nat.lt_add_of_pos_right (List.length_pos_iff.2 h.lexeme_ne_nil)

theorem extract_append_extract {i j n : Nat} (hij : i ≤ j) (hjn : j ≤ n) :
    text.extract i j ++ text.extract j n = text.extract i n := by
  have hlength : n - i = (j - i) + (n - j) := by omega
  rw [List.extract, List.extract, List.extract, hlength, List.take_add, List.drop_drop,
    Nat.add_sub_of_le hij]

namespace Cursor

variable {firstLine firstColumn : Nat} {c d : Cursor text}

theorem take_rest_eq_extract (firstColumn : Nat) (c : Cursor text) (n : Nat) :
    c.rest.take n = text.extract c.offset (c.advance firstColumn n).2.offset := by
  rw [List.extract, offset_advance, Nat.add_sub_cancel_left, c.drop_eq, ← List.take_eq_take_min]

theorem rest_advance {n : Nat} (hle : n ≤ c.rest.length) :
    (c.advance firstColumn n).2.rest = c.rest.drop n := by
  rw [← drop_eq, ← c.drop_eq, List.drop_drop]
  congr 1
  exact (offset_advance firstColumn n c).trans (by rw [Nat.min_eq_left hle])

/-- The token of the bytes between two places. -/
theorem WellPlaced.covers (hc : c.WellPlaced firstLine firstColumn)
    (hd : d.WellPlaced firstLine firstColumn) (hlt : c.offset < d.offset) {t : Token}
    (hstart : t.span.start = c.position) (hlexeme : t.lexeme = text.extract c.offset d.offset)
    (hstop : t.span.stop = .behind firstLine firstColumn (text.take (d.offset - 1))) :
    t.Covers firstLine firstColumn text ∧ t.range = (c.offset, d.offset) := by
  have hlength : t.lexeme.length = d.offset - c.offset := by
    rw [hlexeme, List.extract, List.length_take, List.length_drop]
    have hle := hd.offset_le_length
    omega
  have hrange : t.range = (c.offset, d.offset) := by
    rw [Token.range, hstart, hlength]
    congr 1
    exact Nat.add_sub_of_le (Nat.le_of_lt hlt)
  refine ⟨⟨?_, ?_, ?_, ?_, ?_⟩, hrange⟩
  · rw [← List.length_pos_iff, hlength]
    exact Nat.sub_pos_of_lt hlt
  · rw [hrange, hlexeme]
  · rw [hrange]
    exact hd.offset_le_length
  · rw [hrange, hstart]
    exact hc
  · rw [hrange, hstop]

end Cursor

/-! ### Attempts -/

theorem Performance.attempt_eq_made {rule : Nat} {c d : Cursor text} {p : Performance text}
    {t : Token} {runs : List ActionRun} (h : p.attempt rule c = .made t d runs) :
    p.verdict = .ok (some t) ∧ p.cursor = d ∧ c.offset < d.offset := by
  rcases p.attempt_cases rule c with ⟨message, -, heq⟩ | ⟨-, -, heq⟩ |
    ⟨t', hverdict, hmoved, heq⟩ | ⟨-, -, heq⟩
  · cases h.symm.trans heq
  · cases h.symm.trans heq
  · cases h.symm.trans heq
    exact ⟨hverdict, rfl, hmoved⟩
  · cases h.symm.trans heq

theorem Performance.attempt_eq_skipped {rule : Nat} {c d : Cursor text} {p : Performance text}
    {runs : List ActionRun} (h : p.attempt rule c = .skipped d runs) :
    p.verdict = .ok none ∧ p.cursor = d ∧ c.offset < d.offset := by
  rcases p.attempt_cases rule c with ⟨message, -, heq⟩ | ⟨-, -, heq⟩ | ⟨t, -, -, heq⟩ |
    ⟨hverdict, hmoved, heq⟩
  · cases h.symm.trans heq
  · cases h.symm.trans heq
  · cases h.symm.trans heq
  · cases h.symm.trans heq
    exact ⟨hverdict, rfl, hmoved⟩

namespace Compiled

/-- An attempt at the first place makes the token and leaves the cursor at the second. -/
def Makes (k : Compiled) (c : Cursor text) (t : Token) (d : Cursor text) : Prop :=
  ∃ runs, k.attempt (k.inner c) c = some (.made t d runs)

variable {k : Compiled} {c d : Cursor text}

theorem Makes.scan_eq {t : Token} (h : k.Makes c t d) :
    ∃ runs, scan k c = some ⟨.token t, d, runs⟩ := by
  obtain ⟨runs, h⟩ := h
  refine ⟨runs, ?_⟩
  rw [k.scan_eq_attempt, h]
  rfl

/-- A token is the text from where its attempt began to where it leaves the cursor. -/
theorem Makes.covers {t : Token} (h : k.Makes c t d) (hk : k.IsBuiltin) {firstLine : Nat}
    (hc : c.WellPlaced firstLine k.firstColumn) :
    t.Covers firstLine k.firstColumn text ∧ t.range = (c.offset, d.offset) := by
  obtain ⟨runs, h⟩ := h
  rcases attempt_eq_some h with ⟨-, heq⟩ | ⟨-, read, -, heq⟩ | ⟨-, found, -, -, -, heq⟩ |
    ⟨-, found, p, -, -, hp, heq⟩
  · cases heq
  · cases heq
  · cases heq
  · obtain ⟨hverdict, rfl, hlt⟩ := Performance.attempt_eq_made heq.symm
    have hbehind : (k.behind c found).WellPlaced firstLine k.firstColumn :=
      (k.leads_behind c found).wellPlaced hc
    have hbytes : (k.matchAt c found).bytes = text.extract c.offset (k.behind c found).offset :=
      Cursor.take_rest_eq_extract k.firstColumn c found.length
    rcases (hk found.winner).perform_eq_some hp with ⟨-, hskip, -⟩ | ⟨message, hfail⟩ |
      ⟨t', hmade, hstart, hstop⟩
    · rw [hskip] at hverdict
      cases hverdict
    · rw [hfail] at hverdict
      cases hverdict
    · obtain rfl : t' = t := by
        rw [hmade] at hverdict
        cases hverdict
        rfl
      rcases hstop with ⟨hlexeme, hstop, hcursor⟩ | ⟨n, hpos, hle, hlexeme, hstop, hcursor⟩
      · rw [hcursor] at hlt ⊢
        apply hc.covers hbehind hlt hstart (hlexeme.trans hbytes)
        rw [hstop]
        exact Cursor.fst_advance hc hlt
      · have hmoved : (k.behind c found).offset < p.cursor.offset := by
          rw [hcursor, Cursor.offset_advance]
          omega
        have hd : p.cursor.WellPlaced firstLine k.firstColumn := by
          rw [hcursor]
          exact (Cursor.leads_advance n _).wellPlaced hbehind
        apply hc.covers hd hlt hstart
        · rw [hlexeme, hbytes, Cursor.take_rest_eq_extract k.firstColumn, ← hcursor]
          exact extract_append_extract (k.leads_behind c found).offset_le
            (Nat.le_of_lt hmoved)
        · rw [hcursor] at hmoved ⊢
          rw [hstop]
          exact Cursor.fst_advance hbehind hmoved

end Compiled

/-- A scan that finds a token has skipped matches up to where the token is made. -/
theorem exists_makes_of_scan {k : Compiled} {c : Cursor text} {s : Scan text} {t : Token}
    (h : scan k c = some s) (ht : s.result = .token t) :
    ∃ d, Relation.ReflTransGen k.Skips c d ∧ k.Makes d t s.cursor := by
  obtain ⟨d, a, hskips, ha, hlast⟩ := exists_last_attempt h
  cases a with
  | made t' e runs =>
      obtain ⟨hresult, rfl⟩ := hlast
      cases hresult.symm.trans ht
      exact ⟨d, hskips, runs, ha⟩
  | ended =>
      cases hlast.1.symm.trans ht
  | failed kind runs =>
      cases hlast.1.symm.trans ht
  | skipped e runs =>
      cases hlast

theorem Compiled.leads_of_skips {k : Compiled} {c d : Cursor text}
    (h : Relation.ReflTransGen k.Skips c d) : Cursor.Leads k.firstColumn c d := by
  induction h with
  | refl =>
      exact .refl c
  | tail _ hskip ih =>
      obtain ⟨runs, hskip⟩ := hskip
      exact ih.trans (attempt_leaves (k.goesForward_inner _) hskip).1

/-! ### What is skipped -/

section Skipped

variable {l : Lexer} {patterns : List Pattern} {k : Compiled} {c d : Cursor text}

/-- A skipped match is a longest match whose rule skips. -/
theorem Lexer.Realizes.exists_munch_of_skips (h : l.Realizes patterns k)
    (hk : ∀ rule, (k.action rule).SkipsPlainly) (hskips : k.Skips c d) :
    ∃ s, IsMunch l.Accepts c.rest s ∧ c.rest = s.word ++ d.rest ∧
      ∃ r, l.rules[s.rule]? = some r ∧ r.action = .skip := by
  obtain ⟨runs, hskips⟩ := hskips
  rcases Compiled.attempt_eq_some hskips with ⟨-, heq⟩ | ⟨-, read, -, heq⟩ |
    ⟨-, found, -, -, -, heq⟩ | ⟨-, found, p, hfound, -, hp, heq⟩
  · cases heq
  · cases heq
  · cases heq
  · obtain ⟨hverdict, rfl, hlt⟩ := Performance.attempt_eq_skipped heq.symm
    have hskip := hk found.winner hp hverdict
    rw [hskip] at hp
    cases hp
    rw [Compiled.behind, Cursor.offset_advance] at hlt
    have hlongest := h.matched_iff.1 hfound
    have hmunch := hlongest.isMunch (by omega)
    obtain ⟨r, -, hr, -⟩ := hmunch.accepted
    refine ⟨⟨found.winner, c.rest.take found.length⟩, hmunch, ?_, r, hr, ?_⟩
    · rw [Compiled.behind, Cursor.rest_advance hlongest.length_le, List.take_append_drop]
    · rw [h.action_eq, hr] at hskip
      exact hskip

theorem Lexer.Realizes.munched_of_skips (h : l.Realizes patterns k)
    (hk : ∀ rule, (k.action rule).SkipsPlainly) (hskips : Relation.ReflTransGen k.Skips c d) :
    ∃ segments, Munched l.Accepts c.rest segments d.rest ∧
      ∀ s ∈ segments, ∃ r, l.rules[s.rule]? = some r ∧ r.action = .skip := by
  induction hskips using Relation.ReflTransGen.head_induction_on with
  | refl =>
      exact ⟨[], .stop d.rest, by simp⟩
  | head hskip _ ih =>
      obtain ⟨s, hs, hsplit, haction⟩ := h.exists_munch_of_skips hk hskip
      obtain ⟨segments, hcut, hactions⟩ := ih
      exact ⟨s :: segments, .cut hs hsplit hcut, List.forall_mem_cons.2 ⟨haction, hactions⟩⟩

end Skipped

/-! ### Runs of calls -/

/-- The token, if the result is one. -/
def ScanResult.token? : ScanResult → Option Token
  | token t => some t
  | _ => none

namespace Scanner

/-- Calls lead from one scanner to another and give the tokens, in order. -/
inductive Emits : Scanner → List Token → Scanner → Prop
  | stop (s : Scanner) : Emits s [] s
  | advance {s t : Scanner} {tokens : List Token} (n : Nat)
      (hrest : Emits (s.advance n).2 tokens t) : Emits s tokens t
  | next {s t : Scanner} {scan : Scan s.text} {tokens : List Token} (h : s.next = some scan)
      (hrest : Emits (s.moveTo scan.cursor) tokens t) :
      Emits s (scan.result.token?.toList ++ tokens) t

variable {s t : Scanner} {tokens : List Token}

theorem Emits.reaches (h : s.Emits tokens t) : s.Reaches t := by
  induction h with
  | stop s =>
      exact .refl
  | advance n _ ih =>
      exact .head (.advance _ n) ih
  | next h _ ih =>
      exact .head (.next h) ih

/-- The scanner stands where its position says. -/
def WellPlaced (s : Scanner) : Prop := s.cursor.WellPlaced s.lexer.firstLine s.lexer.firstColumn

/-- The token is one that the scanner can still give: a piece of its text that begins no
further back than the scanner stands. -/
structure Offers (s : Scanner) (t : Token) : Prop where
  covers : t.Covers s.lexer.firstLine s.lexer.firstColumn s.text
  offset_le : s.position.offset ≤ t.range.1

variable {d : Cursor s.text} {token : Token}

theorem Offers.of_moveTo (h : (s.moveTo d).Offers token) (hle : s.position.offset ≤ d.offset) :
    s.Offers token :=
  ⟨h.covers, hle.trans h.offset_le⟩

theorem WellPlaced.moveTo (h : s.WellPlaced)
    (hleads : Cursor.Leads s.lexer.firstColumn s.cursor d) : (s.moveTo d).WellPlaced :=
  hleads.wellPlaced h

/-- A token that a call gives ends where the call leaves the scanner. -/
theorem offers_of_next (hk : s.lexer.IsBuiltin) (hplaced : s.WellPlaced) {scan : Scan s.text}
    (h : s.next = some scan) (ht : scan.result = .token token) :
    s.Offers token ∧ scan.cursor.offset = token.range.2 := by
  obtain ⟨d, hskips, hmakes⟩ := exists_makes_of_scan h ht
  have hleads := Compiled.leads_of_skips hskips
  obtain ⟨hcovers, hrange⟩ := hmakes.covers hk (hleads.wellPlaced hplaced)
  rw [hrange]
  refine ⟨⟨hcovers, ?_⟩, rfl⟩
  rw [hrange]
  exact hleads.offset_le

/-- The tokens of a run are pieces of the text, each behind the one before it. -/
theorem Emits.tiled (h : s.Emits tokens t) (hk : s.lexer.IsBuiltin) (hplaced : s.WellPlaced) :
    (∀ token ∈ tokens, s.Offers token) ∧
      tokens.Pairwise fun earlier later => earlier.range.2 ≤ later.range.1 := by
  induction h with
  | stop s =>
      exact ⟨by simp, .nil⟩
  | @advance s t tokens n _ ih =>
      have hleads : Cursor.Leads s.lexer.firstColumn s.cursor _ :=
        Cursor.leads_advance n s.cursor
      obtain ⟨hoffers, hapart⟩ := ih hk (hplaced.moveTo hleads)
      exact ⟨fun token htoken => (hoffers token htoken).of_moveTo hleads.offset_le, hapart⟩
  | @next s t scan tokens h _ ih =>
      have hleads : Cursor.Leads s.lexer.firstColumn s.cursor scan.cursor := scan_leads h
      obtain ⟨hoffers, hapart⟩ := ih hk (hplaced.moveTo hleads)
      have hlater : ∀ token ∈ tokens, s.Offers token :=
        fun token htoken => (hoffers token htoken).of_moveTo hleads.offset_le
      cases hresult : scan.result with
      | token first =>
          obtain ⟨hfirst, hend⟩ := offers_of_next hk hplaced h hresult
          refine ⟨List.forall_mem_cons.2 ⟨hfirst, hlater⟩, List.pairwise_cons.2 ⟨?_, hapart⟩⟩
          intro token htoken
          rw [← hend]
          exact (hoffers token htoken).offset_le
      | error e =>
          exact ⟨hlater, hapart⟩
      | endOfInput =>
          exact ⟨hlater, hapart⟩

/-- Recovery is a run of calls. -/
theorem emits_of_recover {k : Compiled} {c : Cursor text} {tally : Tally text ScanResult}
    (h : Munch.recover k c = some tally) :
    Emits ⟨k, text, c⟩ (tally.items.filterMap (·.token?)) ⟨k, text, tally.cursor⟩ := by
  induction c using Cursor.induction_further generalizing tally with
  | step c ih =>
      obtain ⟨scan, hscan⟩ : ∃ scan, Munch.scan k c = some scan := by
        rw [recover_eq] at h
        obtain ⟨scan, hscan, -⟩ := Option.bind_eq_some_iff.1 h
        exact ⟨scan, hscan⟩
      have hnext : Scanner.next ⟨k, text, c⟩ = some scan := hscan
      cases hresult : scan.result with
      | endOfInput =>
          cases h.symm.trans (recover_of_end hscan hresult)
          have hrun := Emits.next hnext (.stop _)
          rw [hresult] at hrun
          exact hrun
      | token token =>
          rw [recover_of_token hscan hresult] at h
          obtain ⟨tally, htally, rfl⟩ := Option.map_eq_some_iff.1 h
          have hrun := Emits.next hnext (ih (rest_ne_nil_of_token hscan hresult) scan.cursor
            (offset_lt_of_token hscan hresult) htally)
          rw [hresult] at hrun
          exact hrun
      | error e =>
          rw [recover_of_error hscan hresult] at h
          obtain ⟨tally, htally, rfl⟩ := Option.map_eq_some_iff.1 h
          obtain ⟨hleft, hmoved⟩ := offset_lt_of_error hscan hresult
          have hrun := Emits.next hnext (.advance 1 (ih hleft _ hmoved htally))
          rw [hresult] at hrun
          exact hrun

/-- What a call skips in front of its token is a piece of the text, and it is cut into
longest matches of rules that skip. -/
theorem exists_munched_of_next {l : Lexer} {patterns : List Pattern}
    (hl : l.Realizes patterns s.lexer) (hk : s.lexer.IsBuiltin) (hplaced : s.WellPlaced)
    {scan : Scan s.text} (h : s.next = some scan) (ht : scan.result = .token token) :
    ∃ segments, Munched l.Accepts s.cursor.rest segments (s.text.drop token.range.1) ∧
      s.text.extract s.position.offset token.range.1 = segments.flatMap (·.word) ∧
      ∀ segment ∈ segments, ∃ r, l.rules[segment.rule]? = some r ∧ r.action = .skip := by
  obtain ⟨d, hskips, hmakes⟩ := exists_makes_of_scan h ht
  obtain ⟨segments, hcut, hactions⟩ :=
    hl.munched_of_skips (fun rule => (hk rule).skipsPlainly) hskips
  have hleads := Compiled.leads_of_skips hskips
  have hd : d.WellPlaced s.lexer.firstLine s.lexer.firstColumn := hleads.wellPlaced hplaced
  have hstart : token.range.1 = d.offset :=
    congrArg Prod.fst (hmakes.covers hk hd).2
  rw [hstart, d.drop_eq]
  refine ⟨segments, hcut, ?_, hactions⟩
  have hrest := hcut.append_eq
  have hlength := congrArg List.length hrest
  rw [List.length_append, d.length_rest, s.cursor.length_rest] at hlength
  have hle := hleads.offset_le
  have hle' := hd.offset_le_length
  have hwords : (segments.flatMap (·.word)).length = d.offset - s.cursor.offset := by omega
  rw [List.extract, position, s.cursor.drop_eq, ← hrest]
  exact List.take_left' hwords

/-- **Tokens tile the text.**  The tokens of a run of calls are pieces of the text, in
order and apart, with their true positions.  The next call has a result; if that is a
token, the scanner is left at its end, and what lies in front of it was skipped match by
match.  Recovery is one of the runs. -/
theorem emits_tiled {l compiled : Lexer} (hcompile : l.compile = .ok compiled)
    (hactions : ∀ r ∈ l.rules, r.action.Builtin) {s v : Scanner}
    (hstart : compiled.scanner text = .ok s) {tokens : List Token} (hrun : s.Emits tokens v) :
    (∀ t ∈ tokens, t.Covers l.config.firstLine l.config.firstColumn text ∧
      t.range.1 < t.range.2) ∧
    (tokens.Pairwise fun earlier later => earlier.range.2 ≤ later.range.1) ∧
    (∃ scan, v.next = some scan ∧ ∀ t, scan.result = .token t →
      t.Covers l.config.firstLine l.config.firstColumn text ∧
      scan.cursor.offset = t.range.2 ∧ v.position.offset ≤ t.range.1 ∧
      ∃ segments, Munched l.Accepts v.cursor.rest segments (text.drop t.range.1) ∧
        text.extract v.position.offset t.range.1 = segments.flatMap (·.word) ∧
        ∀ segment ∈ segments, ∃ r, l.rules[segment.rule]? = some r ∧ r.action = .skip) ∧
    ∃ tally, v.recover = some tally ∧
      v.Emits (tally.items.filterMap (·.token?)) (v.moveTo tally.cursor) := by
  obtain ⟨patterns, k, rfl, h⟩ := Lexer.compile_spec hcompile
  obtain ⟨k', hk', rfl⟩ := Lexer.scanner_eq_ok hstart
  obtain rfl : k = k' := Option.some.inj hk'
  have hk : k.IsBuiltin := h.forall_action .skip hactions
  have hplaced : (new k text).WellPlaced := Cursor.wellPlaced_atStart text _ _
  obtain ⟨c, rfl, hleads⟩ := hrun.reaches.exists_cursor
  have hwell : ((new k text).moveTo c).WellPlaced := hplaced.moveTo hleads
  have hasks : ∀ d, Cursor.Leads k.firstColumn c d → k.AsksBehind d :=
    fun d _ => hk.asksBehind d
  obtain ⟨scan, hscan⟩ := exists_scan hasks
  obtain ⟨tally, htally, -⟩ := exists_recover hwell hasks
  obtain ⟨hoffers, hapart⟩ := hrun.tiled hk hplaced
  rw [← h.firstLine_eq, ← h.firstColumn_eq]
  refine ⟨fun t ht => ⟨(hoffers t ht).covers, (hoffers t ht).covers.start_lt_stop⟩, hapart,
    ⟨scan, hscan, ?_⟩, tally, htally, emits_of_recover htally⟩
  intro t ht
  obtain ⟨hoffer, hend⟩ := offers_of_next hk hwell hscan ht
  exact ⟨hoffer.covers, hend, hoffer.offset_le, exists_munched_of_next h hk hwell hscan ht⟩

theorem emits_tiled_letter :
    ∃ compiled s v, (letterLexer (.token ⟨7⟩) true).compile = .ok compiled ∧
      compiled.scanner [97, 10, 97] = .ok s ∧
      s.Emits [⟨⟨7⟩, "a", [97], ⟨⟨0, 1, 1⟩, ⟨0, 1, 1⟩⟩⟩,
        ⟨⟨7⟩, "a", [97], ⟨⟨2, 2, 1⟩, ⟨2, 2, 1⟩⟩⟩] v ∧
      (⟨⟨7⟩, "a", [97], ⟨⟨2, 2, 1⟩, ⟨2, 2, 1⟩⟩⟩ : Token).Covers 1 1 [97, 10, 97] ∧
      (∃ scan, v.next = some scan) ∧ ∃ tally, v.recover = some tally := by
  obtain ⟨compiled, k, hcompile, hk⟩ := exists_compile_letter (.token ⟨7⟩) true
  obtain ⟨patterns, ⟨matcher, actions, firstLine, firstColumn⟩, rfl, h⟩ :=
    Lexer.compile_spec hcompile
  obtain rfl : firstLine = 1 := h.firstLine_eq
  obtain rfl : firstColumn = 1 := h.firstColumn_eq
  have hactions : ∀ r ∈ (letterLexer (.token ⟨7⟩) true).rules, r.action.Builtin :=
    forall_mem_rules_letter (.token ⟨7⟩) true
  let s : Scanner := new ⟨matcher, actions, 1, 1⟩ [97, 10, 97]
  let c : Cursor [97, 10, 97] := .atStart [97, 10, 97] 1 1
  let d : Cursor [97, 10, 97] := ((c.advance 1 1).2.advance 1 1).2
  have hfirst : s.next = some _ := h.scan_letter rfl
  have hsecond : ((s.moveTo (c.advance 1 1).2).advance 1).2.next = some _ := h.scan_letter rfl
  have hrun : s.Emits ([(⟨0, [97], ⟨c.position, (c.advance 1 1).1⟩⟩ : Match).token ⟨7⟩] ++
      ([(⟨0, [97], ⟨d.position, (d.advance 1 1).1⟩⟩ : Match).token ⟨7⟩] ++ [])) _ :=
    .next hfirst (.advance 1 (.next hsecond (.stop _)))
  have htokens : [(⟨0, [97], ⟨c.position, (c.advance 1 1).1⟩⟩ : Match).token ⟨7⟩] ++
      ([(⟨0, [97], ⟨d.position, (d.advance 1 1).1⟩⟩ : Match).token ⟨7⟩] ++ []) =
      [⟨⟨7⟩, "a", [97], ⟨⟨0, 1, 1⟩, ⟨0, 1, 1⟩⟩⟩, ⟨⟨7⟩, "a", [97], ⟨⟨2, 2, 1⟩, ⟨2, 2, 1⟩⟩⟩] := by
    decide +kernel
  rw [htokens] at hrun
  obtain ⟨hcovers, -, ⟨scan, hnext, -⟩, tally, htally, -⟩ :=
    emits_tiled hcompile hactions rfl hrun
  exact ⟨_, _, _, hcompile, rfl, hrun, (hcovers _ (by simp)).1, ⟨scan, hnext⟩, tally, htally⟩

end Scanner
end Munch
