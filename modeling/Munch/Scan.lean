import Munch.Action
import Munch.Cursor
import Munch.Matcher

/-!
# One scan

**Input.**  A compiled lexer and a cursor.

**Algorithm.**  The longest match at the cursor is consumed and handed to the
action of the winning rule.  If the action makes a token, that is the result; if
it makes nothing, scanning goes on behind what it consumed.  A failure puts the
cursor back where the match began.

**Termination.**  Every match that is not refused consumes something, so fewer
bytes are left for the scans that follow it.  A script that asks for a token
before anything was consumed would ask again without end; such a scan has no
result, and `scan` answers `none`.

**Results.**
* `offset_lt_of_token`: a token leaves the cursor further on.
* `rest_ne_nil_of_token`: there is no token at the end of a text.
* `offset_le_of_error`: an error leaves the cursor no further back, with bytes left.
-/

namespace Munch

/-- The rules of a lexer, ready to scan with. -/
structure Compiled where
  matcher : Matcher
  /-- The action of each rule. -/
  actions : Array Action
  firstLine : Nat
  firstColumn : Nat

/-- The action of a rule. -/
def Compiled.action (lexer : Compiled) (rule : Nat) : Action := lexer.actions.getD rule .skip

/-- What a step of a script came to. -/
inductive StepResult
  /-- A move, with the position of the last byte moved over. -/
  | moved (last : Position)
  /-- A further scan. -/
  | scanned (result : ScanResult)
deriving DecidableEq, Repr

/-- The record of a script that was run: the match it was run for, what its steps
came to, and where they left the cursor. -/
structure ActionRun where
  found : Match
  steps : List StepResult
  position : Position
deriving DecidableEq, Repr

/-- What a scan comes to, where it leaves the cursor, and the scripts it ran, those
of inner scans before those that asked for them. -/
structure Scan (text : List Byte) where
  result : ScanResult
  cursor : Cursor text
  runs : List ActionRun

/-- The scan with earlier scripts in front of its own. -/
def Scan.after {text : List Byte} (runs : List ActionRun) (s : Scan text) : Scan text :=
  { s with runs := runs ++ s.runs }

/-- What an action comes to: its verdict, where it leaves the cursor, the steps
taken and the scripts run. -/
structure Performance (text : List Byte) where
  verdict : Except String (Option Token)
  cursor : Cursor text
  steps : List StepResult
  runs : List ActionRun

variable {text : List Byte}

/-- The performance with one more step, and the scripts of that step, in front. -/
def Performance.after (step : StepResult) (runs : List ActionRun) (p : Performance text) :
    Performance text :=
  { p with steps := step :: p.steps, runs := runs ++ p.runs }

/-- Runs a script, where `next` scans for further tokens. -/
def Script.run (firstColumn : Nat) (next : Cursor text → Option (Scan text)) :
    Script → Cursor text → Option (Performance text)
  | finish verdict, c => some ⟨verdict, c, [], []⟩
  | look go, c => (go ⟨text, c.position, c.rest⟩).run firstColumn next c
  | advance n go, c =>
    let (last, moved) := c.advance firstColumn n
    ((go last).run firstColumn next moved).map (·.after (.moved last) [])
  | advanceTo target go, c =>
    let (last, moved) := c.advanceTo firstColumn target
    ((go last).run firstColumn next moved).map (·.after (.moved last) [])
  | .next go, c =>
    match next c with
    | none => none
    | some s => ((go s.result).run firstColumn next s.cursor).map
        (·.after (.scanned s.result) s.runs)

/-- Performs an action for a match, with the cursor behind the match. -/
def Action.perform (firstColumn : Nat) (next : Cursor text → Option (Scan text)) (m : Match)
    (c : Cursor text) : Action → Option (Performance text)
  | emit make => some ⟨.ok (some (make m)), c, [], []⟩
  | skip => some ⟨.ok none, c, [], []⟩
  | custom script => ((script m).run firstColumn next c).map fun p =>
      { p with runs := p.runs ++ [⟨m, p.steps, p.cursor.position⟩] }

/-- Scans for the next token. -/
def scan (lexer : Compiled) (c : Cursor text) : Option (Scan text) :=
  if _ : c.rest = [] then some ⟨.endOfInput, c, []⟩
  else
    match lexer.matcher.longest c.rest with
    | .unmatched read =>
      some ⟨.error ⟨.unconsumedInput (Utf8.frontText c.rest) (c.offset + read), c.position⟩, c, []⟩
    | .matched found =>
      let refused : LexError := ⟨.zeroLengthMatch found.winner, c.position⟩
      if found.length = 0 ∧ (lexer.action found.winner).isCustom = false then
        some ⟨.error refused, c, []⟩
      else
        let behind := c.advance lexer.firstColumn found.length
        let m : Match := ⟨found.winner, c.rest.take found.length, ⟨c.position, behind.1⟩⟩
        let next := fun inner : Cursor text =>
          if _ : c.offset < inner.offset then scan lexer inner else none
        match (lexer.action found.winner).perform lexer.firstColumn next m behind.2 with
        | none => none
        | some p =>
          match p.verdict with
          | .error message =>
            some ⟨.error ⟨.actionFailed found.winner message, c.position⟩, c, p.runs⟩
          | .ok token =>
            if _ : c.offset < p.cursor.offset then
              match token with
              | some t => some ⟨.token t, p.cursor, p.runs⟩
              | none => (scan lexer p.cursor).map (·.after p.runs)
            else some ⟨.error refused, c, p.runs⟩
termination_by text.length - c.offset
decreasing_by
  all_goals
    have := Cursor.offset_lt ‹¬c.rest = []›
    omega

/-- Where a scan that began at `c` may leave the cursor. -/
def Scan.LeftFrom (c : Cursor text) (s : Scan text) : Prop :=
  match s.result with
  | .token _ => c.offset < s.cursor.offset
  | .error _ => c.offset ≤ s.cursor.offset ∧ s.cursor.rest ≠ []
  | .endOfInput => s.cursor.rest = []

theorem Scan.LeftFrom.of_le {c d : Cursor text} {s : Scan text} (h : s.LeftFrom d)
    (hle : c.offset ≤ d.offset) : s.LeftFrom c := by
  unfold LeftFrom at *
  split <;> simp_all <;> omega

theorem scan_leftFrom {lexer : Compiled} {c : Cursor text} {s : Scan text}
    (h : scan lexer c = some s) : s.LeftFrom c := by
  fun_induction scan lexer c generalizing s with
  | case1 c hrest =>
    obtain rfl := Option.some.inj h
    exact hrest
  | case2 c hrest =>
    obtain rfl := Option.some.inj h
    exact ⟨Nat.le_refl _, hrest⟩
  | case3 c hrest =>
    obtain rfl := Option.some.inj h
    exact ⟨Nat.le_refl _, hrest⟩
  | case4 => simp at h
  | case5 c hrest =>
    obtain rfl := Option.some.inj h
    exact ⟨Nat.le_refl _, hrest⟩
  | case6 c hrest found hfound hlength behind m next p hp hlt =>
    obtain rfl := Option.some.inj h
    exact hlt
  | case7 c hrest found hfound hlength behind m next p hp hlt =>
    rename_i ih
    obtain ⟨s', hs', rfl⟩ := Option.map_eq_some_iff.1 h
    have hleft : s'.LeftFrom p.cursor := ih hs'
    exact hleft.of_le (Nat.le_of_lt hlt)
  | case8 c hrest =>
    obtain rfl := Option.some.inj h
    exact ⟨Nat.le_refl _, hrest⟩

/-- A token leaves the cursor further on. -/
theorem offset_lt_of_token {lexer : Compiled} {c : Cursor text} {s : Scan text} {t : Token}
    (h : scan lexer c = some s) (ht : s.result = .token t) : c.offset < s.cursor.offset := by
  have := scan_leftFrom h
  rwa [Scan.LeftFrom, ht] at this

/-- An error leaves the cursor no further back, with bytes left. -/
theorem offset_le_of_error {lexer : Compiled} {c : Cursor text} {s : Scan text} {e : LexError}
    (h : scan lexer c = some s) (he : s.result = .error e) :
    c.offset ≤ s.cursor.offset ∧ s.cursor.rest ≠ [] := by
  have := scan_leftFrom h
  rwa [Scan.LeftFrom, he] at this

/-- There is no token at the end of a text. -/
theorem rest_ne_nil_of_token {lexer : Compiled} {c : Cursor text} {s : Scan text} {t : Token}
    (h : scan lexer c = some s) (ht : s.result = .token t) : c.rest ≠ [] := by
  intro hrest
  rw [scan, dif_pos hrest] at h
  obtain rfl := Option.some.inj h
  simp at ht

end Munch
