import Munch.Proofs.Cursor
import Munch.Scan

/-!
# A scan is a chain of attempts

An attempt looks for the longest match at the cursor, moves over it and performs the
action of the rule that won.  It fails, makes a token, or skips its match; a scan
goes on from where an attempt has skipped to, and ends with the first attempt that
does anything else.

**Results.**
* `scan_eq_attempt`: scanning, attempt by attempt.
* `attempt_eq_some`, `Performance.attempt_cases`: the ways an attempt can go.
* `attempt_mono`: what an attempt comes to depends only on the inner scans it makes.
* `attempt_leaves`, `scan_leads`: attempts and scans go forward from byte to byte.
-/

namespace Munch

variable {text : List Byte}

/-- What one attempt to match comes to, and the scripts it ran. -/
inductive Attempt (text : List Byte)
  /-- No byte is left. -/
  | ended
  /-- The match is refused, and the cursor back where the attempt began. -/
  | failed (kind : ErrorKind) (runs : List ActionRun)
  /-- The action has made a token and left the cursor at a place. -/
  | made (token : Token) (cursor : Cursor text) (runs : List ActionRun)
  /-- The action has made nothing and left the cursor at a place. -/
  | skipped (cursor : Cursor text) (runs : List ActionRun)

/-- What becomes of an attempt that began at `c`, once the action of `rule` was
performed. -/
def Performance.attempt (rule : Nat) (c : Cursor text) (p : Performance text) : Attempt text :=
  match p.verdict with
  | .error message => .failed (.actionFailed rule message) p.runs
  | .ok token =>
    if c.offset < p.cursor.offset then
      match token with
      | some t => .made t p.cursor p.runs
      | none => .skipped p.cursor p.runs
    else .failed (.zeroLengthMatch rule) p.runs

/-- The ways an attempt can go once its action was performed: the action fails, leaves
the cursor where the attempt began, makes a token, or makes nothing. -/
theorem Performance.attempt_cases (rule : Nat) (c : Cursor text) (p : Performance text) :
    (∃ message, p.verdict = .error message ∧
      p.attempt rule c = .failed (.actionFailed rule message) p.runs) ∨
    ((∃ token, p.verdict = .ok token) ∧ ¬c.offset < p.cursor.offset ∧
      p.attempt rule c = .failed (.zeroLengthMatch rule) p.runs) ∨
    (∃ t, p.verdict = .ok (some t) ∧ c.offset < p.cursor.offset ∧
      p.attempt rule c = .made t p.cursor p.runs) ∨
    (p.verdict = .ok none ∧ c.offset < p.cursor.offset ∧
      p.attempt rule c = .skipped p.cursor p.runs) := by
  unfold attempt
  cases p.verdict with
  | error message =>
      exact .inl ⟨message, rfl, rfl⟩
  | ok token =>
      by_cases hmoved : c.offset < p.cursor.offset
      · cases token with
        | none =>
            exact .inr (.inr (.inr ⟨rfl, hmoved, if_pos hmoved⟩))
        | some t =>
            exact .inr (.inr (.inl ⟨t, rfl, hmoved, if_pos hmoved⟩))
      · exact .inr (.inl ⟨⟨token, rfl⟩, hmoved, if_neg hmoved⟩)

/-- What becomes of a scan whose last attempt, made at `c`, went as given, where
`again` scans on. -/
def Attempt.conclude (again : Cursor text → Option (Scan text)) (c : Cursor text) :
    Attempt text → Option (Scan text)
  | ended => some ⟨.endOfInput, c, []⟩
  | failed kind runs => some ⟨.error ⟨kind, c.position⟩, c, runs⟩
  | made t d runs => some ⟨.token t, d, runs⟩
  | skipped d runs => (again d).map (·.after runs)

namespace Compiled

variable (k : Compiled)

/-- The place behind what was found at `c`. -/
def behind (c : Cursor text) (found : LongestMatch) : Cursor text :=
  (c.advance k.firstColumn found.length).2

/-- What is handed to the action of the rule that won at `c`. -/
def matchAt (c : Cursor text) (found : LongestMatch) : Match :=
  ⟨found.winner, c.rest.take found.length,
    ⟨c.position, (c.advance k.firstColumn found.length).1⟩⟩

/-- One attempt to match at `c`, where `next` scans for further tokens. -/
def attempt (next : Cursor text → Option (Scan text)) (c : Cursor text) : Option (Attempt text) :=
  if c.rest = [] then some .ended
  else
    match k.matcher.longest c.rest with
    | .unmatched read =>
      some (.failed (.unconsumedInput (Utf8.frontText c.rest) (c.offset + read)) [])
    | .matched found =>
      if found.length = 0 ∧ (k.action found.winner).isCustom = false then
        some (.failed (.zeroLengthMatch found.winner) [])
      else
        ((k.action found.winner).perform k.firstColumn next (k.matchAt c found)
          (k.behind c found)).map (·.attempt found.winner c)

/-- The scans that a script may ask for while an attempt is made at `c`. -/
def inner (c d : Cursor text) : Option (Scan text) :=
  if c.offset < d.offset then scan k d else none

/-- Scanning, attempt by attempt. -/
theorem scan_eq_attempt (c : Cursor text) :
    scan k c = (k.attempt (k.inner c) c).bind (Attempt.conclude (scan k) c) := by
  have hnext : (fun d : Cursor text => if _ : c.offset < d.offset then scan k d else none) =
      k.inner c := by
    funext d
    rw [inner, dite_eq_ite]
  rw [scan, attempt]
  by_cases hrest : c.rest = []
  · rw [dif_pos hrest, if_pos hrest]
    rfl
  · rw [dif_neg hrest, if_neg hrest]
    cases k.matcher.longest c.rest with
    | unmatched read =>
        rfl
    | matched found =>
        simp only [hnext, matchAt, behind]
        split
        · rfl
        · rw [Option.bind_map]
          generalize (k.action found.winner).perform k.firstColumn (k.inner c) _ _ = performance
          cases performance with
          | none =>
              rfl
          | some p =>
              simp only [Option.bind_some, Function.comp_apply, Performance.attempt]
              cases p.verdict with
              | error message =>
                  rfl
              | ok token =>
                  by_cases hmoved : c.offset < p.cursor.offset
                  · simp only [dif_pos hmoved, if_pos hmoved]
                    cases token <;> rfl
                  · simp only [dif_neg hmoved, if_neg hmoved]
                    rfl

variable {k}

theorem inner_eq_some {c d : Cursor text} {s : Scan text} :
    k.inner c d = some s ↔ c.offset < d.offset ∧ scan k d = some s := by
  rw [inner, Option.ite_none_right_eq_some]

theorem attempt_at_end {next : Cursor text → Option (Scan text)} {c : Cursor text}
    (hrest : c.rest = []) : k.attempt next c = some .ended := by
  rw [attempt, if_pos hrest]

theorem rest_ne_nil_of_skipped {next : Cursor text → Option (Scan text)} {c d : Cursor text}
    {runs : List ActionRun} (h : k.attempt next c = some (.skipped d runs)) : c.rest ≠ [] := by
  intro hrest
  rw [attempt_at_end hrest] at h
  cases h

/-- The ways an attempt can go: there is nothing left, nothing is accepted, the empty
word is refused, or the action of the rule that won is performed. -/
theorem attempt_eq_some {next : Cursor text → Option (Scan text)} {c : Cursor text}
    {a : Attempt text} (h : k.attempt next c = some a) :
    (c.rest = [] ∧ a = .ended) ∨
    (c.rest ≠ [] ∧ ∃ read, k.matcher.longest c.rest = .unmatched read ∧
      a = .failed (.unconsumedInput (Utf8.frontText c.rest) (c.offset + read)) []) ∨
    (c.rest ≠ [] ∧ ∃ found, k.matcher.longest c.rest = .matched found ∧ found.length = 0 ∧
      (k.action found.winner).isCustom = false ∧
      a = .failed (.zeroLengthMatch found.winner) []) ∨
    (c.rest ≠ [] ∧ ∃ found p, k.matcher.longest c.rest = .matched found ∧
      ¬(found.length = 0 ∧ (k.action found.winner).isCustom = false) ∧
      (k.action found.winner).perform k.firstColumn next (k.matchAt c found)
        (k.behind c found) = some p ∧
      a = p.attempt found.winner c) := by
  unfold attempt at h
  split at h
  · rename_i hrest
    exact .inl ⟨hrest, (Option.some.inj h).symm⟩
  · rename_i hrest
    split at h
    · rename_i read hread
      exact .inr (.inl ⟨hrest, read, hread, (Option.some.inj h).symm⟩)
    · rename_i found hfound
      split at h
      · rename_i hrefused
        exact .inr (.inr (.inl ⟨hrest, found, hfound, hrefused.1, hrefused.2,
          (Option.some.inj h).symm⟩))
      · rename_i haccepted
        obtain ⟨p, hp, ha⟩ := Option.map_eq_some_iff.1 h
        exact .inr (.inr (.inr ⟨hrest, found, p, hfound, haccepted, hp, ha.symm⟩))

/-- An attempt whose action was performed. -/
theorem attempt_of_perform {next : Cursor text → Option (Scan text)} {c : Cursor text}
    {found : LongestMatch} {p : Performance text} (hrest : c.rest ≠ [])
    (hfound : k.matcher.longest c.rest = .matched found)
    (haccepted : ¬(found.length = 0 ∧ (k.action found.winner).isCustom = false))
    (hp : (k.action found.winner).perform k.firstColumn next (k.matchAt c found)
      (k.behind c found) = some p) :
    k.attempt next c = some (p.attempt found.winner c) := by
  rw [attempt, if_neg hrest, hfound]
  simp only [if_neg haccepted, hp, Option.map_some]

end Compiled

/-! ### Going forward -/

section Forward

variable {firstColumn : Nat} {next next' : Cursor text → Option (Scan text)}

/-- Scans that go forward from byte to byte. -/
def GoesForward (firstColumn : Nat) (next : Cursor text → Option (Scan text)) : Prop :=
  ∀ c s, next c = some s → Cursor.Leads firstColumn c s.cursor

theorem Script.run_leads (hnext : GoesForward firstColumn next) {script : Script}
    {c : Cursor text} {p : Performance text} (h : script.run firstColumn next c = some p) :
    Cursor.Leads firstColumn c p.cursor := by
  induction script generalizing c p with
  | finish verdict =>
      cases h
      exact .refl c
  | look go ih =>
      exact ih _ h
  | advance n go ih =>
      obtain ⟨p', hp', rfl⟩ := Option.map_eq_some_iff.1 h
      have hrest := ih _ hp'
      exact (Cursor.leads_advance n c).trans hrest
  | advanceTo target go ih =>
      obtain ⟨p', hp', rfl⟩ := Option.map_eq_some_iff.1 h
      have hrest := ih _ hp'
      exact (Cursor.leads_advanceTo target c).trans hrest
  | next go ih =>
      rw [run] at h
      split at h
      · cases h
      · rename_i s hs
        obtain ⟨p', hp', rfl⟩ := Option.map_eq_some_iff.1 h
        have hrest := ih _ hp'
        exact (hnext c s hs).trans hrest

/-- A script runs in the same way wherever its scans have the same results. -/
theorem Script.run_mono (hnext : GoesForward firstColumn next) {script : Script}
    {c : Cursor text} {p : Performance text}
    (hmono : ∀ d s, Cursor.Leads firstColumn c d → next d = some s → next' d = some s)
    (h : script.run firstColumn next c = some p) : script.run firstColumn next' c = some p := by
  induction script generalizing c p with
  | finish verdict =>
      exact h
  | look go ih =>
      exact ih _ hmono h
  | advance n go ih =>
      obtain ⟨p', hp', rfl⟩ := Option.map_eq_some_iff.1 h
      have hrun := ih _ (fun d s hd => hmono d s ((Cursor.leads_advance n c).trans hd)) hp'
      exact Option.map_eq_some_iff.2 ⟨p', hrun, rfl⟩
  | advanceTo target go ih =>
      obtain ⟨p', hp', rfl⟩ := Option.map_eq_some_iff.1 h
      have hrun := ih _ (fun d s hd => hmono d s ((Cursor.leads_advanceTo target c).trans hd)) hp'
      exact Option.map_eq_some_iff.2 ⟨p', hrun, rfl⟩
  | next go ih =>
      rw [run] at h
      split at h
      · cases h
      · rename_i s hs
        obtain ⟨p', hp', rfl⟩ := Option.map_eq_some_iff.1 h
        have hrun := ih _ (fun d s' hd => hmono d s' ((hnext c s hs).trans hd)) hp'
        rw [run, hmono c s (.refl c) hs]
        exact Option.map_eq_some_iff.2 ⟨p', hrun, rfl⟩

theorem Action.perform_leads (hnext : GoesForward firstColumn next) {action : Action} {m : Match}
    {c : Cursor text} {p : Performance text}
    (h : action.perform firstColumn next m c = some p) : Cursor.Leads firstColumn c p.cursor := by
  cases action with
  | emit make =>
      cases h
      exact .refl c
  | skip =>
      cases h
      exact .refl c
  | custom script =>
      obtain ⟨p', hp', rfl⟩ := Option.map_eq_some_iff.1 h
      have hrun := Script.run_leads hnext hp'
      exact hrun

theorem Action.perform_mono (hnext : GoesForward firstColumn next) {action : Action} {m : Match}
    {c : Cursor text} {p : Performance text}
    (hmono : ∀ d s, Cursor.Leads firstColumn c d → next d = some s → next' d = some s)
    (h : action.perform firstColumn next m c = some p) :
    action.perform firstColumn next' m c = some p := by
  cases action with
  | emit make =>
      exact h
  | skip =>
      exact h
  | custom script =>
      obtain ⟨p', hp', rfl⟩ := Option.map_eq_some_iff.1 h
      exact Option.map_eq_some_iff.2 ⟨p', Script.run_mono hnext hmono hp', rfl⟩

/-- Where an attempt made at `c` may leave the cursor. -/
def Attempt.LeavesFrom (firstColumn : Nat) (c : Cursor text) : Attempt text → Prop
  | made _ d _ => Cursor.Leads firstColumn c d ∧ c.offset < d.offset
  | skipped d _ => Cursor.Leads firstColumn c d ∧ c.offset < d.offset
  | _ => True

theorem Performance.leavesFrom_attempt {rule : Nat} {c : Cursor text} {p : Performance text}
    (h : Cursor.Leads firstColumn c p.cursor) : (p.attempt rule c).LeavesFrom firstColumn c := by
  rcases p.attempt_cases rule c with ⟨message, -, heq⟩ | ⟨-, -, heq⟩ | ⟨t, -, hmoved, heq⟩ |
    ⟨-, hmoved, heq⟩
  · rw [heq]
    trivial
  · rw [heq]
    trivial
  · rw [heq]
    exact ⟨h, hmoved⟩
  · rw [heq]
    exact ⟨h, hmoved⟩

namespace Compiled

variable {k : Compiled}

theorem leads_behind (k : Compiled) (c : Cursor text) (found : LongestMatch) :
    Cursor.Leads k.firstColumn c (k.behind c found) :=
  Cursor.leads_advance found.length c

theorem attempt_leaves (hnext : GoesForward k.firstColumn next) {c : Cursor text}
    {a : Attempt text} (h : k.attempt next c = some a) : a.LeavesFrom k.firstColumn c := by
  rcases attempt_eq_some h with ⟨-, rfl⟩ | ⟨-, read, -, rfl⟩ | ⟨-, found, -, -, -, rfl⟩ |
    ⟨-, found, p, -, -, hp, rfl⟩
  · trivial
  · trivial
  · trivial
  · apply Performance.leavesFrom_attempt
    exact (k.leads_behind c found).trans (Action.perform_leads hnext hp)

/-- An attempt goes in the same way wherever its inner scans have the same results. -/
theorem attempt_mono (hnext : GoesForward k.firstColumn next) {c : Cursor text}
    {a : Attempt text}
    (hmono : ∀ d s, Cursor.Leads k.firstColumn c d → next d = some s → next' d = some s)
    (h : k.attempt next c = some a) : k.attempt next' c = some a := by
  rcases attempt_eq_some h with ⟨hrest, rfl⟩ | ⟨hrest, read, hread, rfl⟩ |
    ⟨hrest, found, hfound, hlength, hcustom, rfl⟩ | ⟨hrest, found, p, hfound, haccepted, hp, rfl⟩
  · exact attempt_at_end hrest
  · rw [attempt, if_neg hrest, hread]
  · rw [attempt, if_neg hrest, hfound]
    simp only [hlength, hcustom, and_self, if_true]
  · apply attempt_of_perform hrest hfound haccepted
    exact Action.perform_mono hnext
      (fun d s hd => hmono d s ((k.leads_behind c found).trans hd)) hp

end Compiled

theorem Attempt.conclude_leads {again : Cursor text → Option (Scan text)} {c : Cursor text}
    {a : Attempt text} {s : Scan text} (ha : a.LeavesFrom firstColumn c)
    (hagain : ∀ d s, c.offset < d.offset → again d = some s →
      Cursor.Leads firstColumn d s.cursor)
    (h : a.conclude again c = some s) : Cursor.Leads firstColumn c s.cursor := by
  cases a with
  | ended =>
      cases h
      exact .refl c
  | failed kind runs =>
      cases h
      exact .refl c
  | made t d runs =>
      cases h
      exact ha.1
  | skipped d runs =>
      obtain ⟨s', hs', rfl⟩ := Option.map_eq_some_iff.1 h
      exact ha.1.trans (hagain d s' ha.2 hs')

theorem Attempt.conclude_mono {again again' : Cursor text → Option (Scan text)} {c : Cursor text}
    {a : Attempt text} {s : Scan text}
    (hmono : ∀ d s, c.offset < d.offset → again d = some s → again' d = some s)
    (ha : a.LeavesFrom firstColumn c) (h : a.conclude again c = some s) :
    a.conclude again' c = some s := by
  cases a with
  | ended =>
      exact h
  | failed kind runs =>
      exact h
  | made t d runs =>
      exact h
  | skipped d runs =>
      obtain ⟨s', hs', rfl⟩ := Option.map_eq_some_iff.1 h
      exact Option.map_eq_some_iff.2 ⟨s', hmono d s' ha.2 hs', rfl⟩

/-- A scan goes forward from byte to byte, or back to where it began. -/
theorem scan_leads {k : Compiled} {c : Cursor text} {s : Scan text} (h : scan k c = some s) :
    Cursor.Leads k.firstColumn c s.cursor := by
  induction c using Cursor.induction_further generalizing s with
  | step c ih =>
      rw [k.scan_eq_attempt] at h
      obtain ⟨a, ha, hs⟩ := Option.bind_eq_some_iff.1 h
      by_cases hrest : c.rest = []
      · rw [Compiled.attempt_at_end hrest] at ha
        cases ha
        cases hs
        exact .refl c
      · have hinner : GoesForward k.firstColumn (k.inner c) := by
          intro d s' hd
          obtain ⟨hlt, hscan⟩ := Compiled.inner_eq_some.1 hd
          exact ih hrest d hlt hscan
        exact Attempt.conclude_leads (Compiled.attempt_leaves hinner ha)
          (fun d s' hlt => ih hrest d hlt) hs

theorem Compiled.goesForward_inner (k : Compiled) (c : Cursor text) :
    GoesForward k.firstColumn (k.inner c) := by
  intro d s hd
  exact scan_leads (inner_eq_some.1 hd).2

end Forward

end Munch
