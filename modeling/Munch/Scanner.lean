import Munch.Scan

/-!
# Scanners

A scanner is a cursor over a text together with the compiled lexer that scans
it.  Beside single scans it offers two ways to the end of a text: a stream of
tokens that ends with the first error, and a recovery that steps over one byte
after each error.

Each scan answers `none` where a script asks for a token without end; see
`Munch.scan`.

**Results.**
* `recover_eq`, `collect_eq`: the two loops, scan by scan.  They end because a
  token leaves the cursor further on, and so does the byte stepped over after an
  error.
* `recover_of_token`, `collect_of_token` and the like: the same by the result of the
  first scan.
* `exists_scan_of_collect`: what has been collected, seen from its first scan.
-/

namespace Munch

/-- A compiled lexer and a place in the text it scans. -/
structure Scanner where
  lexer : Compiled
  text : List Byte
  cursor : Cursor text

/-- What scanning a whole text in some way comes to: the items it gave, where it
left the cursor, and the scripts it ran. -/
structure Tally (text : List Byte) (α : Type) where
  items : List α
  cursor : Cursor text
  runs : List ActionRun

/-- The tally with one more item, and the scripts run for it, in front. -/
def Tally.after {text : List Byte} {α : Type} (item : α) (runs : List ActionRun)
    (t : Tally text α) : Tally text α :=
  { t with items := item :: t.items, runs := runs ++ t.runs }

section Loops

variable {text : List Byte}

/-- Scans to the end of the text, stepping over one byte after each error.  The
items are all results, of which the last says that the text has ended. -/
def recover (lexer : Compiled) (c : Cursor text) : Option (Tally text ScanResult) :=
  match _ : scan lexer c with
  | none => none
  | some s =>
    match _ : s.result with
    | .endOfInput => some ⟨[.endOfInput], s.cursor, s.runs⟩
    | .token t => (recover lexer s.cursor).map (·.after (.token t) s.runs)
    | .error e =>
      (recover lexer (s.cursor.advance lexer.firstColumn 1).2).map (·.after (.error e) s.runs)
termination_by text.length - c.offset
decreasing_by
  · have := offset_lt_of_token ‹_› ‹_›
    have := Cursor.offset_lt (rest_ne_nil_of_token ‹_› ‹_›)
    omega
  · have hleft := offset_le_of_error ‹_› ‹_›
    have := Cursor.offset_lt hleft.2
    have := List.length_pos_iff.2 hleft.2
    rw [Cursor.offset_advance]
    omega

/-- Scans up to the end of the text or the first error.  The items are the tokens,
and the error, if there was one, is the last item. -/
def collect (lexer : Compiled) (c : Cursor text) : Option (Tally text (Except LexError Token)) :=
  match _ : scan lexer c with
  | none => none
  | some s =>
    match _ : s.result with
    | .endOfInput => some ⟨[], s.cursor, s.runs⟩
    | .error e => some ⟨[.error e], s.cursor, s.runs⟩
    | .token t => (collect lexer s.cursor).map (·.after (.ok t) s.runs)
termination_by text.length - c.offset
decreasing_by
  have := offset_lt_of_token ‹_› ‹_›
  have := Cursor.offset_lt (rest_ne_nil_of_token ‹_› ‹_›)
  omega

/-- Recovery, scan by scan. -/
theorem recover_eq (lexer : Compiled) (c : Cursor text) :
    recover lexer c = (scan lexer c).bind fun s =>
      match s.result with
      | .endOfInput => some ⟨[.endOfInput], s.cursor, s.runs⟩
      | .token t => (recover lexer s.cursor).map (·.after (.token t) s.runs)
      | .error e =>
        (recover lexer (s.cursor.advance lexer.firstColumn 1).2).map
          (·.after (.error e) s.runs) := by
  rw [recover]
  split
  · simp_all
  · split <;> simp_all

/-- Collecting, scan by scan. -/
theorem collect_eq (lexer : Compiled) (c : Cursor text) :
    collect lexer c = (scan lexer c).bind fun s =>
      match s.result with
      | .endOfInput => some ⟨[], s.cursor, s.runs⟩
      | .error e => some ⟨[.error e], s.cursor, s.runs⟩
      | .token t => (collect lexer s.cursor).map (·.after (.ok t) s.runs) := by
  rw [collect]
  split
  · simp_all
  · split <;> simp_all

variable {k : Compiled} {c : Cursor text} {s : Scan text}

theorem recover_of_token {t : Token} (h : scan k c = some s) (ht : s.result = .token t) :
    recover k c = (recover k s.cursor).map (·.after (.token t) s.runs) := by
  simp only [recover_eq k c, h, Option.bind_some, ht]

theorem recover_of_error {e : LexError} (h : scan k c = some s) (he : s.result = .error e) :
    recover k c =
      (recover k (s.cursor.advance k.firstColumn 1).2).map (·.after (.error e) s.runs) := by
  simp only [recover_eq k c, h, Option.bind_some, he]

theorem recover_of_end (h : scan k c = some s) (hend : s.result = .endOfInput) :
    recover k c = some ⟨[.endOfInput], s.cursor, s.runs⟩ := by
  simp only [recover_eq k c, h, Option.bind_some, hend]

theorem collect_of_token {t : Token} (h : scan k c = some s) (ht : s.result = .token t) :
    collect k c = (collect k s.cursor).map (·.after (.ok t) s.runs) := by
  simp only [collect_eq k c, h, Option.bind_some, ht]

theorem collect_of_error {e : LexError} (h : scan k c = some s) (he : s.result = .error e) :
    collect k c = some ⟨[.error e], s.cursor, s.runs⟩ := by
  simp only [collect_eq k c, h, Option.bind_some, he]

theorem collect_of_end (h : scan k c = some s) (hend : s.result = .endOfInput) :
    collect k c = some ⟨[], s.cursor, s.runs⟩ := by
  simp only [collect_eq k c, h, Option.bind_some, hend]

/-- What collects a tally begins with a scan, and goes on behind a token only. -/
theorem exists_scan_of_collect {tally : Tally text (Except LexError Token)}
    (h : collect k c = some tally) :
    ∃ s, scan k c = some s ∧
      (s.result = .endOfInput ∧ tally = ⟨[], s.cursor, s.runs⟩ ∨
        (∃ e, s.result = .error e ∧ tally = ⟨[.error e], s.cursor, s.runs⟩) ∨
        ∃ t later, s.result = .token t ∧ collect k s.cursor = some later ∧
          tally = later.after (.ok t) s.runs) := by
  obtain ⟨s, hs, -⟩ := Option.bind_eq_some_iff.1 ((collect_eq k c).symm.trans h)
  refine ⟨s, hs, ?_⟩
  cases hresult : s.result with
  | endOfInput =>
    rw [collect_of_end hs hresult] at h
    exact .inl ⟨rfl, (Option.some.inj h).symm⟩
  | error e =>
    rw [collect_of_error hs hresult] at h
    exact .inr (.inl ⟨e, rfl, (Option.some.inj h).symm⟩)
  | token t =>
    rw [collect_of_token hs hresult] at h
    obtain ⟨later, hlater, hafter⟩ := Option.map_eq_some_iff.1 h
    exact .inr (.inr ⟨t, later, rfl, hlater, hafter.symm⟩)

end Loops

namespace Scanner

/-- The scanner at the beginning of a text. -/
def new (lexer : Compiled) (text : List Byte) : Scanner :=
  ⟨lexer, text, Cursor.atStart text lexer.firstLine lexer.firstColumn⟩

/-- The position of the next byte. -/
def position (s : Scanner) : Position := s.cursor.position

/-- Whether the text is used up. -/
def isAtEnd (s : Scanner) : Bool := s.cursor.atEnd

/-- The scanner with its cursor at another place of the text. -/
def moveTo (s : Scanner) (cursor : Cursor s.text) : Scanner := { s with cursor := cursor }

/-- Moves over up to `n` bytes.  Answers with the position of the last of them, or
the scanner's own when there was none. -/
def advance (s : Scanner) (n : Nat) : Position × Scanner :=
  let (last, cursor) := s.cursor.advance s.lexer.firstColumn n
  (last, s.moveTo cursor)

/-- Moves to an offset, never backwards and not past the end. -/
def advanceTo (s : Scanner) (target : Nat) : Position × Scanner :=
  let (last, cursor) := s.cursor.advanceTo s.lexer.firstColumn target
  (last, s.moveTo cursor)

/-- Scans for the next token. -/
def next (s : Scanner) : Option (Scan s.text) := scan s.lexer s.cursor

/-- Scans to the end of the text, stepping over one byte after each error. -/
def recover (s : Scanner) : Option (Tally s.text ScanResult) := Munch.recover s.lexer s.cursor

end Scanner

/-- The tokens of a scanner one by one; the first error is given and ends them. -/
structure TokenStream where
  scanner : Scanner
  done : Bool

namespace TokenStream

/-- What asking a stream comes to: the item, if there is one more, the stream to
ask next, and the scripts run. -/
structure Answer where
  item : Option (Except LexError Token)
  stream : TokenStream
  runs : List ActionRun

/-- The stream of the tokens that a scanner has still to give. -/
def new (s : Scanner) : TokenStream := ⟨s, false⟩

/-- Asks for the next item. -/
def next (stream : TokenStream) : Option Answer :=
  if stream.done then some ⟨none, stream, []⟩
  else stream.scanner.next.map fun s =>
    let scanner := stream.scanner.moveTo s.cursor
    match s.result with
    | .token t => ⟨some (.ok t), ⟨scanner, false⟩, s.runs⟩
    | .error e => ⟨some (.error e), ⟨scanner, true⟩, s.runs⟩
    | .endOfInput => ⟨none, ⟨scanner, true⟩, s.runs⟩

end TokenStream
end Munch
