import Munch.Proofs.Scan.Course

/-!
# A failed scan changes nothing and fails again

A scan that fails has skipped some matches and then made an attempt that fails.  The
cursor is put back to where that attempt began, whatever its action had done, so a
further scan begins with the same attempt and fails in the same way.

**Results.**
* `Compiled.Fails.kind_eq`: the three causes for which an attempt fails.
* `exists_last_attempt`, `exists_fails_of_scan`: a scan, attempt by attempt.
* `scan_eq_error_iff`: the scans that fail, by what they skip and how they end.
* `Scanner.next_error_atomic`: where a scanner stands after an error, and what it says
  when asked again.
-/

namespace Munch

variable {text : List Byte}

namespace Compiled

/-- An attempt at the first place skips its match and goes on to the second. -/
def Skips (k : Compiled) (c d : Cursor text) : Prop :=
  ∃ runs, k.attempt (k.inner c) c = some (.skipped d runs)

/-- An attempt at the place fails. -/
def Fails (k : Compiled) (c : Cursor text) (kind : ErrorKind) : Prop :=
  ∃ runs, k.attempt (k.inner c) c = some (.failed kind runs)

variable {k : Compiled}

theorem Fails.kind_eq {c : Cursor text} {kind : ErrorKind} (h : k.Fails c kind) :
    (∃ front failedAt, kind = .unconsumedInput front failedAt) ∨
    (∃ rule, kind = .zeroLengthMatch rule) ∨
    ∃ rule message, kind = .actionFailed rule message := by
  obtain ⟨runs, h⟩ := h
  rcases attempt_eq_some h with ⟨-, heq⟩ | ⟨-, read, -, heq⟩ | ⟨-, found, -, -, -, heq⟩ |
    ⟨-, found, p, -, -, -, heq⟩
  · cases heq
  · cases heq
    exact .inl ⟨_, _, rfl⟩
  · cases heq
    exact .inr (.inl ⟨_, rfl⟩)
  · rcases p.attempt_cases found.winner c with ⟨message, -, hp⟩ | ⟨-, -, hp⟩ | ⟨t, -, -, hp⟩ |
      ⟨-, -, hp⟩
    · cases heq.trans hp
      exact .inr (.inr ⟨_, _, rfl⟩)
    · cases heq.trans hp
      exact .inr (.inl ⟨_, rfl⟩)
    · cases heq.trans hp
    · cases heq.trans hp

/-- An attempt fails with the message of its script. -/
theorem fails_of_run {c : Cursor text} {found : LongestMatch} {script : Match → Script}
    {p : Performance text} {message : String} (hrest : c.rest ≠ [])
    (hfound : k.matcher.longest c.rest = .matched found)
    (haction : k.action found.winner = .custom script)
    (hrun : (script (k.matchAt c found)).run k.firstColumn (k.inner c) (k.behind c found) = some p)
    (hverdict : p.verdict = .error message) : k.Fails c (.actionFailed found.winner message) := by
  have haccepted : ¬(found.length = 0 ∧ (k.action found.winner).isCustom = false) := by
    rintro ⟨-, hcustom⟩
    rw [haction] at hcustom
    cases hcustom
  have hperform : (k.action found.winner).perform k.firstColumn (k.inner c) (k.matchAt c found)
      (k.behind c found) =
        some { p with runs := p.runs ++ [⟨k.matchAt c found, p.steps, p.cursor.position⟩] } := by
    rw [haction, Action.perform, hrun]
    rfl
  have hattempt := attempt_of_perform hrest hfound haccepted hperform
  simp only [Performance.attempt, hverdict] at hattempt
  exact ⟨_, hattempt⟩

theorem Fails.scan_eq {c : Cursor text} {kind : ErrorKind} (h : k.Fails c kind) :
    ∃ runs, scan k c = some ⟨.error ⟨kind, c.position⟩, c, runs⟩ := by
  obtain ⟨runs, h⟩ := h
  refine ⟨runs, ?_⟩
  rw [k.scan_eq_attempt, h]
  rfl

end Compiled

/-- The scan ends with this attempt, made at `d`. -/
def Attempt.Concludes (d : Cursor text) (s : Scan text) : Attempt text → Prop
  | ended => s.result = .endOfInput ∧ s.cursor = d
  | failed kind _ => s.result = .error ⟨kind, d.position⟩ ∧ s.cursor = d
  | made t e _ => s.result = .token t ∧ s.cursor = e
  | skipped _ _ => False

/-- A scan has skipped matches up to the place of its last attempt. -/
theorem exists_last_attempt {k : Compiled} {c : Cursor text} {s : Scan text}
    (h : scan k c = some s) :
    ∃ d a, Relation.ReflTransGen k.Skips c d ∧ k.attempt (k.inner d) d = some a ∧
      a.Concludes d s := by
  induction c using Cursor.induction_further generalizing s with
  | step c ih =>
      rw [k.scan_eq_attempt] at h
      obtain ⟨a, ha, hs⟩ := Option.bind_eq_some_iff.1 h
      cases a with
      | ended =>
          cases hs
          exact ⟨c, .ended, .refl, ha, rfl, rfl⟩
      | failed kind runs =>
          cases hs
          exact ⟨c, .failed kind runs, .refl, ha, rfl, rfl⟩
      | made t d runs =>
          cases hs
          exact ⟨c, .made t d runs, .refl, ha, rfl, rfl⟩
      | skipped d runs =>
          obtain ⟨s', hs', rfl⟩ := Option.map_eq_some_iff.1 hs
          have hrest := Compiled.rest_ne_nil_of_skipped ha
          have hfurther := (Compiled.attempt_leaves (k.goesForward_inner c) ha).2
          obtain ⟨e, a, hskips, ha', hlast⟩ := ih hrest d hfurther hs'
          refine ⟨e, a, .head ⟨runs, ha⟩ hskips, ha', ?_⟩
          cases a <;> exact hlast

/-- A scan that fails has skipped matches up to the place where it fails. -/
theorem exists_fails_of_scan {k : Compiled} {c : Cursor text} {s : Scan text} {e : LexError}
    (h : scan k c = some s) (he : s.result = .error e) :
    Relation.ReflTransGen k.Skips c s.cursor ∧ k.Fails s.cursor e.kind ∧
      s.cursor.position = e.position := by
  obtain ⟨d, a, hskips, ha, hlast⟩ := exists_last_attempt h
  cases a with
  | failed kind runs =>
      obtain ⟨hresult, rfl⟩ := hlast
      cases hresult.symm.trans he
      exact ⟨hskips, ⟨runs, ha⟩, rfl⟩
  | ended =>
      cases hlast.1.symm.trans he
  | made t d runs =>
      cases hlast.1.symm.trans he
  | skipped d runs =>
      cases hlast

section Chains

variable {k : Compiled} {c d : Cursor text}

/-- A match that is skipped changes nothing but the place where the scan goes on. -/
theorem Compiled.Skips.scan_eq (h : k.Skips c d) :
    ∃ runs, scan k c = (scan k d).map (·.after runs) := by
  obtain ⟨runs, h⟩ := h
  refine ⟨runs, ?_⟩
  rw [k.scan_eq_attempt, h]
  rfl

theorem Compiled.Fails.exists_scan {kind : ErrorKind} (hfails : k.Fails d kind)
    (hskips : Relation.ReflTransGen k.Skips c d) :
    ∃ runs, scan k c = some ⟨.error ⟨kind, d.position⟩, d, runs⟩ := by
  induction hskips using Relation.ReflTransGen.head_induction_on with
  | refl =>
      exact hfails.scan_eq
  | head hskip _ ih =>
      obtain ⟨earlier, hscan⟩ := hskip.scan_eq
      obtain ⟨runs, hrest⟩ := ih
      rw [hrest] at hscan
      exact ⟨_, hscan⟩

/-- A scan fails where a chain of skipped matches has led to an attempt that fails. -/
theorem scan_eq_error_iff {kind : ErrorKind} :
    (∃ s, scan k c = some s ∧ s.result = .error ⟨kind, s.cursor.position⟩ ∧ s.cursor = d) ↔
      Relation.ReflTransGen k.Skips c d ∧ k.Fails d kind := by
  constructor
  · rintro ⟨s, hs, hresult, rfl⟩
    obtain ⟨hskips, hfails, -⟩ := exists_fails_of_scan hs hresult
    exact ⟨hskips, hfails⟩
  · rintro ⟨hskips, hfails⟩
    obtain ⟨runs, hscan⟩ := hfails.exists_scan hskips
    exact ⟨_, hscan, rfl, rfl⟩

end Chains

namespace Scanner

/-- **A failed scan is atomic and repeatable.**  The scanner stands where the failing
attempt began, behind matches that made no token, and asked again it gives the same
error and stays. -/
theorem next_error_atomic {s : Scanner} {scan : Scan s.text} {e : LexError}
    (h : s.next = some scan) (he : scan.result = .error e) :
    (s.moveTo scan.cursor).position = e.position ∧
    Relation.ReflTransGen s.lexer.Skips s.cursor scan.cursor ∧
    s.lexer.Fails scan.cursor e.kind ∧
    ((∃ front failedAt, e.kind = .unconsumedInput front failedAt) ∨
      (∃ rule, e.kind = .zeroLengthMatch rule) ∨
      ∃ rule message, e.kind = .actionFailed rule message) ∧
    ∃ again, (s.moveTo scan.cursor).next = some again ∧ again.result = .error e ∧
      (s.moveTo scan.cursor).moveTo again.cursor = s.moveTo scan.cursor := by
  obtain ⟨hskips, hfails, hposition⟩ := exists_fails_of_scan h he
  obtain ⟨runs, hagain⟩ := hfails.scan_eq
  refine ⟨hposition, hskips, hfails, hfails.kind_eq, _, hagain, ?_, rfl⟩
  rw [hposition]

theorem next_error_atomic_letter :
    ∃ compiled s scan again,
      (letterLexer (.custom Lexer.strayAndFail) true).compile = .ok compiled ∧
      compiled.scanner [97, 10, 97] = .ok s ∧ s.next = some scan ∧
      scan.result = .error ⟨.actionFailed 0 "astray", ⟨0, 1, 1⟩⟩ ∧
      (s.moveTo scan.cursor).position = ⟨0, 1, 1⟩ ∧
      (s.moveTo scan.cursor).next = some again ∧
      again.result = .error ⟨.actionFailed 0 "astray", ⟨0, 1, 1⟩⟩ := by
  obtain ⟨compiled, k, hcompile, hstart, hline, hcolumn, haction, hlongest, -⟩ :=
    Lexer.exists_compiled_letter Lexer.strayAndFail
  obtain ⟨others, hfound⟩ := hlongest [10, 97]
  have hfails : k.Fails (Scanner.new k [97, 10, 97]).cursor
      (.actionFailed (LongestMatch.winner ⟨1, 0, others⟩) "astray") :=
    Compiled.fails_of_run (List.cons_ne_nil _ _) hfound haction rfl rfl
  obtain ⟨runs, hscan⟩ := hfails.scan_eq
  have hnext : (Scanner.new k [97, 10, 97]).next = some _ := hscan
  have hresult : ScanResult.error ⟨.actionFailed 0 "astray",
      (Scanner.new k [97, 10, 97]).cursor.position⟩ =
      .error ⟨.actionFailed 0 "astray", ⟨0, 1, 1⟩⟩ := by
    show ScanResult.error ⟨_, ⟨0, k.firstLine, k.firstColumn⟩⟩ = _
    rw [hline, hcolumn]
  obtain ⟨hposition, -, -, -, again, hagain, hsame, -⟩ := next_error_atomic hnext hresult
  exact ⟨compiled, _, _, again, hcompile, hstart _, hnext, hresult, hposition, hagain, hsame⟩

end Scanner
end Munch
