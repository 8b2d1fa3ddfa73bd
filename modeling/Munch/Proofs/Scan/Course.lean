import Munch.Proofs.Scan.Attempt
import Munch.Proofs.Tokenize

/-!
# The course of a scan

Whoever scans moves the scanner or asks it for tokens, and while it looks for a token
the scripts of its rules move it and ask for tokens in turn.  Here the scanner is
followed through all of this, also through scripts that fail and scans that never
end: `Script.Comes` follows a script from step to step, `Compiled.Passes` a scan with
everything inside it, and `Scanner.Reaches` the calls from outside.

**Invariant.**  Wherever the scanner stands, moving from byte to byte has led there
from where it began, and so its line and column are those of the bytes in front of it.

**Results.**
* `Passes.leads`, `Reaches.exists_cursor`: all of these go from byte to byte.
* `Reaches.of_leads`: conversely, each such place is reached by some call.
* `Lexer.exists_cursor_of_visits`: a scanner in terms of the rules of its lexer.
* `Lexer.visits_wellPlaced`: the position of a scanner, and what moving it comes to.
-/

namespace Munch

variable {text : List Byte}

/-! ### Scripts -/

/-- One step of a script, from what it has still to do and where the cursor stands. -/
inductive Script.Step (k : Compiled) : Script × Cursor text → Script × Cursor text → Prop
  | look (go : View → Script) (c : Cursor text) :
      Step k (.look go, c) (go ⟨text, c.position, c.rest⟩, c)
  | advance (n : Nat) (go : Position → Script) (c : Cursor text) :
      Step k (.advance n go, c)
        (go (c.advance k.firstColumn n).1, (c.advance k.firstColumn n).2)
  | advanceTo (target : Nat) (go : Position → Script) (c : Cursor text) :
      Step k (.advanceTo target go, c)
        (go (c.advanceTo k.firstColumn target).1, (c.advanceTo k.firstColumn target).2)
  | next {c : Cursor text} {s : Scan text} (go : ScanResult → Script) (h : scan k c = some s) :
      Step k (.next go, c) (go s.result, s.cursor)

/-- Some steps of a script. -/
def Script.Comes (k : Compiled) : Script × Cursor text → Script × Cursor text → Prop :=
  Relation.ReflTransGen (Script.Step k)

theorem Script.Step.leads {k : Compiled} {p q : Script × Cursor text} (h : Script.Step k p q) :
    Cursor.Leads k.firstColumn p.2 q.2 := by
  cases h with
  | look go c =>
      exact .refl c
  | advance n go c =>
      exact Cursor.leads_advance n c
  | advanceTo target go c =>
      exact Cursor.leads_advanceTo target c
  | next go h =>
      exact scan_leads h

theorem Script.Comes.leads {k : Compiled} {p q : Script × Cursor text} (h : Script.Comes k p q) :
    Cursor.Leads k.firstColumn p.2 q.2 := by
  induction h with
  | refl =>
      exact .refl p.2
  | tail _ hstep ih =>
      exact ih.trans hstep.leads

/-! ### Scans -/

namespace Compiled

/-- An attempt at `c` runs the script, with the cursor at the given place behind the
match. -/
inductive Starts (k : Compiled) (c : Cursor text) : Script → Cursor text → Prop
  | intro {found : LongestMatch} {script : Match → Script} (hrest : c.rest ≠ [])
      (hfound : k.matcher.longest c.rest = .matched found)
      (haction : k.action found.winner = .custom script) :
      Starts k c (script (k.matchAt c found)) (k.behind c found)

/-- A scan that begins at the first place stands at the second at some time: at its
beginning, behind a match, between the steps of a script, inside a scan that a script
has asked for, or after a match was skipped. -/
inductive Passes (k : Compiled) : Cursor text → Cursor text → Prop
  | here (c : Cursor text) : Passes k c c
  | behind {c : Cursor text} {found : LongestMatch} (hrest : c.rest ≠ [])
      (hfound : k.matcher.longest c.rest = .matched found) : Passes k c (k.behind c found)
  | step {c d e : Cursor text} {a b : Script} (hstarts : k.Starts c a d)
      (hcomes : Script.Comes k (a, d) (b, e)) : Passes k c e
  | inner {c d e f : Cursor text} {a : Script} {go : ScanResult → Script}
      (hstarts : k.Starts c a d) (hcomes : Script.Comes k (a, d) (.next go, e))
      (hpasses : Passes k e f) : Passes k c f
  | again {c d f : Cursor text} {runs : List ActionRun}
      (hskip : k.attempt (k.inner c) c = some (.skipped d runs)) (hpasses : Passes k d f) :
      Passes k c f

variable {k : Compiled}

theorem Starts.leads {c d : Cursor text} {a : Script} (h : k.Starts c a d) :
    Cursor.Leads k.firstColumn c d := by
  cases h with
  | intro _ _ _ =>
      exact k.leads_behind c _

theorem Passes.leads {c d : Cursor text} (h : k.Passes c d) : Cursor.Leads k.firstColumn c d := by
  induction h with
  | here c =>
      exact .refl c
  | @behind c found _ _ =>
      exact k.leads_behind c found
  | step hstarts hcomes =>
      exact hstarts.leads.trans hcomes.leads
  | inner hstarts hcomes _ ih =>
      exact (hstarts.leads.trans hcomes.leads).trans ih
  | again hskip _ ih =>
      exact (attempt_leaves (k.goesForward_inner _) hskip).1.trans ih

end Compiled

/-! ### Calls from outside -/

namespace Scanner

/-- One call on a scanner, and the scanner after it. -/
inductive Call : Scanner → Scanner → Prop
  | advance (s : Scanner) (n : Nat) : Call s (s.advance n).2
  | advanceTo (s : Scanner) (target : Nat) : Call s (s.advanceTo target).2
  | next {s : Scanner} {scan : Scan s.text} (h : s.next = some scan) :
      Call s (s.moveTo scan.cursor)

/-- Any number of calls. -/
def Reaches : Scanner → Scanner → Prop := Relation.ReflTransGen Call

/-- The scanner stands like this between calls, or at some time in the course of one. -/
inductive Visits (s : Scanner) : Scanner → Prop
  | intro {t : Scanner} {d : Cursor t.text} (hreach : s.Reaches t)
      (hpasses : t.lexer.Passes t.cursor d) : Visits s (t.moveTo d)

theorem Call.exists_cursor {s t : Scanner} (h : s.Call t) :
    ∃ d : Cursor s.text, t = s.moveTo d ∧ Cursor.Leads s.lexer.firstColumn s.cursor d := by
  cases h with
  | advance n =>
      exact ⟨_, rfl, Cursor.leads_advance n s.cursor⟩
  | advanceTo target =>
      exact ⟨_, rfl, Cursor.leads_advanceTo target s.cursor⟩
  | next h =>
      exact ⟨_, rfl, scan_leads h⟩

/-- Calls move the cursor from byte to byte and change nothing else. -/
theorem Reaches.exists_cursor {s t : Scanner} (h : s.Reaches t) :
    ∃ d : Cursor s.text, t = s.moveTo d ∧ Cursor.Leads s.lexer.firstColumn s.cursor d := by
  induction h with
  | refl =>
      exact ⟨s.cursor, rfl, .refl s.cursor⟩
  | tail _ hcall ih =>
      obtain ⟨d, rfl, hd⟩ := ih
      obtain ⟨e, rfl, he⟩ := hcall.exists_cursor
      exact ⟨e, rfl, hd.trans he⟩

/-- Wherever moving leads, an advance reaches. -/
theorem Reaches.of_leads {s : Scanner} {d : Cursor s.text}
    (h : Cursor.Leads s.lexer.firstColumn s.cursor d) : s.Reaches (s.moveTo d) := by
  obtain ⟨n, rfl⟩ := h.exists_advance
  exact .single (.advance s n)

theorem Reaches.visits {s v : Scanner} (h : s.Reaches v) : s.Visits v :=
  .intro h (.here v.cursor)

theorem Visits.exists_cursor {s v : Scanner} (h : s.Visits v) :
    ∃ d : Cursor s.text, v = s.moveTo d ∧ Cursor.Leads s.lexer.firstColumn s.cursor d := by
  cases h with
  | intro hreach hpasses =>
      obtain ⟨c, rfl, hc⟩ := hreach.exists_cursor
      exact ⟨_, rfl, hc.trans hpasses.leads⟩

theorem advance_eq_advanceTo (s : Scanner) (n : Nat) {bound : Nat}
    (hbound : s.text.length ≤ bound) :
    s.advance n = s.advanceTo (min (s.position.offset + n) bound) :=
  congrArg (fun move => (move.1, s.moveTo move.2)) (Cursor.advance_eq_advanceTo n hbound)

end Scanner

namespace Lexer

theorem scanner_eq_ok {l : Lexer} {s : Scanner} (h : l.scanner text = .ok s) :
    ∃ k, l.compiled = some k ∧ s = Scanner.new k text := by
  unfold scanner at h
  split at h
  · cases h
  · rename_i k hk
    cases h
    exact ⟨k, hk, rfl⟩

/-- A scanner at any time, in terms of the rules of its lexer. -/
theorem exists_cursor_of_visits {l compiled : Lexer} (hcompile : l.compile = .ok compiled)
    {s v : Scanner} (hstart : compiled.scanner text = .ok s) (hvisits : s.Visits v) :
    ∃ (patterns : List Pattern) (k : Compiled) (c : Cursor text), l.Realizes patterns k ∧
      compiled = { l with compiled := some k } ∧ v = ⟨k, text, c⟩ ∧
      c.WellPlaced k.firstLine k.firstColumn := by
  obtain ⟨patterns, k, rfl, h⟩ := compile_spec hcompile
  obtain ⟨k', hk', rfl⟩ := scanner_eq_ok hstart
  obtain rfl : k = k' := Option.some.inj hk'
  obtain ⟨c, rfl, hleads⟩ := hvisits.exists_cursor
  exact ⟨patterns, k, c, h, rfl, rfl,
    hleads.wellPlaced (Cursor.wellPlaced_atStart text k.firstLine k.firstColumn)⟩

/-- A scanner that calls have led to, in terms of the rules of its lexer. -/
theorem exists_cursor_of_reaches {l compiled : Lexer} (hcompile : l.compile = .ok compiled)
    {s v : Scanner} (hstart : compiled.scanner text = .ok s) (hreach : s.Reaches v) :
    ∃ (patterns : List Pattern) (k : Compiled) (c : Cursor text), l.Realizes patterns k ∧
      compiled = { l with compiled := some k } ∧ v = ⟨k, text, c⟩ ∧
      c.WellPlaced k.firstLine k.firstColumn :=
  exists_cursor_of_visits hcompile hstart hreach.visits

/-- **Positions are always the true ones.**  A scanner stands in its text, at the line
and the column of the bytes in front of it, whenever one looks; and it moves as far as
it is told, within the text and never back. -/
theorem visits_wellPlaced {l compiled : Lexer} (hcompile : l.compile = .ok compiled)
    {s v : Scanner} (hstart : compiled.scanner text = .ok s) (hvisits : s.Visits v) :
    v.text = text ∧ v.position.offset ≤ text.length ∧
    v.position =
      .behind l.config.firstLine l.config.firstColumn (text.take v.position.offset) ∧
    (∀ target,
      (v.advanceTo target).2.position.offset =
        max v.position.offset (min target text.length) ∧
      (v.advanceTo target).2.position =
        .behind l.config.firstLine l.config.firstColumn
          (text.take (v.advanceTo target).2.position.offset) ∧
      (v.advanceTo target).1 =
        if v.position.offset < (v.advanceTo target).2.position.offset then
          .behind l.config.firstLine l.config.firstColumn
            (text.take ((v.advanceTo target).2.position.offset - 1))
        else v.position) ∧
    ∀ n bound, text.length ≤ bound →
      v.advance n = v.advanceTo (min (v.position.offset + n) bound) := by
  obtain ⟨patterns, k, rfl, hk⟩ := compile_spec hcompile
  obtain ⟨k', hk', rfl⟩ := scanner_eq_ok hstart
  obtain rfl : k = k' := Option.some.inj hk'
  obtain ⟨d, rfl, hleads⟩ := hvisits.exists_cursor
  have hplaced : d.WellPlaced k.firstLine k.firstColumn :=
    hleads.wellPlaced (Cursor.wellPlaced_atStart text k.firstLine k.firstColumn)
  rw [← hk.firstLine_eq, ← hk.firstColumn_eq]
  refine ⟨rfl, hplaced.offset_le_length, hplaced, ?_, ?_⟩
  · intro target
    exact ⟨Cursor.offset_advanceTo target hplaced.offset_le_length,
      (Cursor.leads_advanceTo target d).wellPlaced hplaced, Cursor.fst_advanceTo hplaced target⟩
  · intro n bound hbound
    exact Scanner.advance_eq_advanceTo _ n hbound

/-- A lexer that knows the letter `a` only, compiled, as far as its scans depend on it. -/
theorem exists_compiled_letter (script : Match → Script) :
    ∃ compiled k, (letterLexer (.custom script) true).compile = .ok compiled ∧
      (∀ text, compiled.scanner text = .ok (Scanner.new k text)) ∧
      k.firstLine = 1 ∧ k.firstColumn = 1 ∧ k.action 0 = .custom script ∧
      (∀ rest, ∃ others, k.matcher.longest (97 :: rest) = .matched ⟨1, 0, others⟩) ∧
      ∀ rest found, k.matcher.longest rest = .matched found → found.length = 1 := by
  obtain ⟨compiled, k, hcompile, hk⟩ := exists_compile_letter (.custom script) true
  obtain ⟨patterns, k', rfl, h⟩ := compile_spec hcompile
  refine ⟨_, k', hcompile, fun text => rfl, h.firstLine_eq, h.firstColumn_eq, h.action_eq 0,
    fun rest => h.longest_of_isMunch (isMunch_letter (.custom script) true rest), ?_⟩
  intro rest found hfound
  have hlongest := h.matched_iff.1 hfound
  have hword := eq_of_accepts_letter hlongest.accepts_winner
  rw [← hlongest.length_take, hword]
  rfl

/-- A script that moves over one byte and fails. -/
def strayAndFail (_ : Match) : Script := .advance 1 fun _ => .finish (.error "astray")

theorem visits_wellPlaced_letter :
    ∃ compiled s v, (letterLexer (.custom strayAndFail) true).compile = .ok compiled ∧
      compiled.scanner [97, 10, 97] = .ok s ∧ s.Visits v ∧ v.position = ⟨2, 2, 1⟩ := by
  obtain ⟨compiled, k, hcompile, hstart, -, -, haction, hlongest, -⟩ :=
    exists_compiled_letter strayAndFail
  obtain ⟨others, hfound⟩ := hlongest [10, 97]
  let c : Cursor [97, 10, 97] := .atStart [97, 10, 97] k.firstLine k.firstColumn
  let d : Cursor [97, 10, 97] := k.behind c ⟨1, 0, others⟩
  have hstarts : k.Starts c (strayAndFail (k.matchAt c ⟨1, 0, others⟩)) d :=
    .intro (List.cons_ne_nil _ _) hfound haction
  -- The scanner is looked at inside the script, before it fails.
  have hvisits : (Scanner.new k [97, 10, 97]).Visits
      ((Scanner.new k [97, 10, 97]).moveTo (d.advance k.firstColumn 1).2) :=
    .intro .refl (.step hstarts (.single (.advance 1 _ d)))
  refine ⟨_, _, _, hcompile, hstart _, hvisits, ?_⟩
  have hd : d.offset = 1 := Cursor.offset_advance k.firstColumn 1 c
  have hoffset : (d.advance k.firstColumn 1).2.offset = 2 := by
    rw [Cursor.offset_advance, Cursor.length_rest, hd]
    rfl
  rw [(visits_wellPlaced hcompile (hstart _) hvisits).2.2.1]
  show Position.behind 1 1 (List.take (d.advance k.firstColumn 1).2.offset [97, 10, 97]) = _
  rw [hoffset]
  decide

end Lexer
end Munch
