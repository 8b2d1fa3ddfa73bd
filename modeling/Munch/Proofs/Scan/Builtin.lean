import Munch.Proofs.Scan.Termination

/-!
# The ready-made actions

Three of the ready-made actions decide on their match as it is.  The fourth reads on to
the byte that closes a literal, without asking for tokens.  So each of them is done after
at most one move, and what it makes begins with the match and ends where it leaves the
cursor.

**Results.**
* `Action.Builtin.perform_eq_some`: what the ready-made actions come to.
* `Compiled.IsBuiltin.asksBehind`: with these actions alone every scan ends.
-/

namespace Munch

variable {text : List Byte}

/-- The actions that are offered ready-made. -/
inductive Action.Builtin : Action → Prop
  | token (kind : TokenKind) : Builtin (.token kind)
  | quoted (kind : TokenKind) : Builtin (.quoted kind)
  | skip : Builtin .skip
  | nestedLiteral (opening closing : Byte) (kind : TokenKind) :
      Builtin (.nestedLiteral opening closing kind)

theorem Action.balancedFrom_pos {opening closing : Byte} {depth n : Nat} {bytes : List Byte}
    (h : balancedFrom opening closing depth bytes = some n) : 0 < n :=
  balancedFrom_induction (P := fun _ n => 0 < n) (fun _ => Nat.one_pos)
    (fun _ _ n _ => Nat.succ_pos n) h

section Literal

variable {opening closing : Byte} {kind : TokenKind} {firstColumn : Nat}
  {next : Cursor text → Option (Scan text)} {m : Match} {b : Cursor text}

theorem Action.perform_nestedLiteral_of_none (h : balancedLength opening closing b.rest = none) :
    (nestedLiteral opening closing kind).perform firstColumn next m b =
      some ⟨.error ("unclosed literal starting at " ++ toString m.start.offset ++ " ("
        ++ m.start.display ++ ")"), b, [], [⟨m, [], b.position⟩]⟩ := by
  simp [nestedLiteral, perform, Script.run, h]

theorem Action.perform_nestedLiteral_of_some {n : Nat}
    (h : balancedLength opening closing b.rest = some n) :
    (nestedLiteral opening closing kind).perform firstColumn next m b =
      some ⟨.ok (some ⟨kind, Utf8.lossy (stripDelimiters (m.bytes ++ b.rest.take n)),
          m.bytes ++ b.rest.take n, ⟨m.start, (b.advance firstColumn n).1⟩⟩),
        (b.advance firstColumn n).2, [.moved (b.advance firstColumn n).1],
        [⟨m, [.moved (b.advance firstColumn n).1], (b.advance firstColumn n).2.position⟩]⟩ := by
  simp [nestedLiteral, perform, Script.run, h, Performance.after]

end Literal

/-- A ready-made action skips its match, fails, or makes a token that begins with the
match and ends where the cursor is left. -/
theorem Action.Builtin.perform_eq_some {action : Action} (haction : action.Builtin)
    {firstColumn : Nat} {next : Cursor text → Option (Scan text)} {m : Match} {b : Cursor text}
    {p : Performance text} (h : action.perform firstColumn next m b = some p) :
    (action = .skip ∧ p.verdict = .ok none ∧ p.cursor = b) ∨
    (∃ message, p.verdict = .error message) ∨
    ∃ t, p.verdict = .ok (some t) ∧ t.span.start = m.start ∧
      ((t.lexeme = m.bytes ∧ t.span.stop = m.span.stop ∧ p.cursor = b) ∨
        ∃ n, 0 < n ∧ n ≤ b.rest.length ∧ t.lexeme = m.bytes ++ b.rest.take n ∧
          t.span.stop = (b.advance firstColumn n).1 ∧
          p.cursor = (b.advance firstColumn n).2) := by
  cases haction with
  | token kind =>
      cases h
      exact .inr (.inr ⟨_, rfl, rfl, .inl ⟨rfl, rfl, rfl⟩⟩)
  | quoted kind =>
      cases h
      exact .inr (.inr ⟨_, rfl, rfl, .inl ⟨rfl, rfl, rfl⟩⟩)
  | skip =>
      cases h
      exact .inl ⟨rfl, rfl, rfl⟩
  | nestedLiteral opening closing kind =>
      cases hlength : balancedLength opening closing b.rest with
      | none =>
          rw [perform_nestedLiteral_of_none hlength] at h
          cases h
          exact .inr (.inl ⟨_, rfl⟩)
      | some n =>
          rw [perform_nestedLiteral_of_some hlength] at h
          cases h
          exact .inr (.inr ⟨_, rfl, rfl, .inr ⟨n, balancedFrom_pos hlength,
            balancedLength_le hlength, rfl, rfl, rfl⟩⟩)

/-- Where the action comes to nothing, it is the one that skips. -/
def Action.SkipsPlainly (action : Action) : Prop :=
  ∀ {text : List Byte} {firstColumn : Nat} {next : Cursor text → Option (Scan text)} {m : Match}
    {b : Cursor text} {p : Performance text},
    action.perform firstColumn next m b = some p → p.verdict = .ok none → action = .skip

theorem Action.skipsPlainly_of_isCustom {action : Action} (h : action.isCustom = false) :
    action.SkipsPlainly := by
  intro text firstColumn next m b p hp hverdict
  cases action with
  | emit make =>
      cases hp
      cases hverdict
  | skip =>
      rfl
  | custom script =>
      cases h

theorem Action.Builtin.skipsPlainly {action : Action} (haction : action.Builtin) :
    action.SkipsPlainly := by
  intro text firstColumn next m b p hp hverdict
  rcases haction.perform_eq_some hp with ⟨hskip, -⟩ | ⟨message, hfail⟩ | ⟨t, hmade, -⟩
  · exact hskip
  · cases hfail.symm.trans hverdict
  · cases hmade.symm.trans hverdict

/-- The script never asks for a token. -/
def Script.Quiet : Script → Prop
  | finish _ => True
  | look go => ∀ view, (go view).Quiet
  | advance _ go => ∀ last, (go last).Quiet
  | advanceTo _ go => ∀ last, (go last).Quiet
  | next _ => False

theorem Script.Quiet.of_comes {k : Compiled} {p q : Script × Cursor text}
    (h : Script.Comes k p q) (hp : p.1.Quiet) : q.1.Quiet := by
  induction h with
  | refl =>
      exact hp
  | tail _ hstep ih =>
      cases hstep with
      | look go c =>
          exact ih _
      | advance n go c =>
          exact ih _
      | advanceTo target go c =>
          exact ih _
      | next go _ =>
          cases ih

theorem Action.Builtin.quiet {action : Action} (haction : action.Builtin)
    {script : Match → Script} (hscript : action = .custom script) (m : Match) :
    (script m).Quiet := by
  cases haction with
  | token kind =>
      cases hscript
  | quoted kind =>
      cases hscript
  | skip =>
      cases hscript
  | nestedLiteral opening closing kind =>
      cases hscript
      intro view
      dsimp only
      split
      · trivial
      · intro last
        trivial

namespace Compiled

/-- All actions are ready-made ones. -/
def IsBuiltin (k : Compiled) : Prop := ∀ rule, (k.action rule).Builtin

theorem IsBuiltin.asksBehind {k : Compiled} (hk : k.IsBuiltin) (c : Cursor text) :
    k.AsksBehind c := by
  intro a d e go hstarts hcomes
  cases hstarts with
  | intro _ _ haction =>
      have hquiet := Script.Quiet.of_comes hcomes ((hk _).quiet haction _)
      cases hquiet

end Compiled

end Munch
