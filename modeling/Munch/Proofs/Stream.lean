import Munch.Lexer
import Munch.Proofs.Cursor

/-!
# Tokens one by one

A stream is asked for one item after the other, while collecting goes through the whole text
by itself.  Both make the same scans, so what a stream gives until it ends is what is collected.

**Results.**
* `next_eq_some_iff`: what one question to a stream comes to.
* `Yields.exists_tokens`: a stream gives tokens and at most one error, which is its last item.
* `yields_new_iff`: a stream gives the items that are collected, runs the same scripts and
  leaves the cursor at the same place.
* `tokenize_eq_some_iff_yields`: tokenizing a text is asking a stream until it ends.
-/

namespace Munch

namespace TokenStream

/-! ### One question -/

/-- What a question to a stream comes to. -/
inductive Answers : TokenStream → Answer → Prop
  | over (s : Scanner) : Answers ⟨s, true⟩ ⟨none, ⟨s, true⟩, []⟩
  | token {s : Scanner} {found : Scan s.text} {t : Token} :
      s.next = some found → found.result = .token t →
      Answers ⟨s, false⟩ ⟨some (.ok t), ⟨s.moveTo found.cursor, false⟩, found.runs⟩
  | error {s : Scanner} {found : Scan s.text} {e : LexError} :
      s.next = some found → found.result = .error e →
      Answers ⟨s, false⟩ ⟨some (.error e), ⟨s.moveTo found.cursor, true⟩, found.runs⟩
  | ended {s : Scanner} {found : Scan s.text} :
      s.next = some found → found.result = .endOfInput →
      Answers ⟨s, false⟩ ⟨none, ⟨s.moveTo found.cursor, true⟩, found.runs⟩

theorem next_eq_some_iff {stream : TokenStream} {answer : Answer} :
    stream.next = some answer ↔ stream.Answers answer := by
  constructor
  · obtain ⟨s, done⟩ := stream
    cases done with
    | true =>
        rintro ⟨⟩
        exact .over s
    | false =>
        intro h
        obtain ⟨found, hfound, rfl⟩ := Option.map_eq_some_iff.1 h
        cases hresult : found.result with
        | token t =>
            exact .token hfound hresult
        | error e =>
            exact .error hfound hresult
        | endOfInput =>
            exact .ended hfound hresult
  · rintro (s | ⟨hfound, hresult⟩ | ⟨hfound, hresult⟩ | ⟨hfound, hresult⟩)
    · rfl
    all_goals simp [next, hfound, hresult]

/-! ### All questions -/

/-- Asked until it has nothing more to give, a stream gives the items, runs the scripts, and is
left as `last`. -/
inductive Yields : TokenStream → List (Except LexError Token) → List ActionRun → TokenStream → Prop
  | ended {stream last : TokenStream} {runs : List ActionRun} :
      stream.next = some ⟨none, last, runs⟩ → Yields stream [] runs last
  | given {stream following last : TokenStream} {item : Except LexError Token}
      {items : List (Except LexError Token)} {runs later : List ActionRun} :
      stream.next = some ⟨some item, following, runs⟩ → Yields following items later last →
      Yields stream (item :: items) (runs ++ later) last

variable {items : List (Except LexError Token)} {runs : List ActionRun}

/-- A stream that has ended gives nothing more. -/
theorem yields_done_iff {s : Scanner} {last : TokenStream} :
    Yields ⟨s, true⟩ items runs last ↔ items = [] ∧ runs = [] ∧ last = ⟨s, true⟩ := by
  constructor
  · intro h
    cases h with
    | ended h =>
        cases next_eq_some_iff.1 h
        exact ⟨rfl, rfl, rfl⟩
    | given h _ =>
        cases next_eq_some_iff.1 h
  · rintro ⟨rfl, rfl, rfl⟩
    exact .ended rfl

/-- An error is the last item of a stream, and only tokens come before it. -/
theorem Yields.exists_tokens {stream last : TokenStream} (h : stream.Yields items runs last) :
    ∃ tokens : List Token, items = tokens.map .ok ∨ ∃ e, items = tokens.map .ok ++ [.error e] := by
  induction h with
  | ended _ =>
      exact ⟨[], .inl rfl⟩
  | given h hlater ih =>
      cases next_eq_some_iff.1 h with
      | @token _ _ t hfound hresult =>
          obtain ⟨tokens, rfl | ⟨e, rfl⟩⟩ := ih
          · exact ⟨t :: tokens, .inl rfl⟩
          · exact ⟨t :: tokens, .inr ⟨e, rfl⟩⟩
      | @error _ _ e hfound hresult =>
          obtain ⟨rfl, -, -⟩ := yields_done_iff.1 hlater
          exact ⟨[], .inr ⟨e, rfl⟩⟩

/-- What a stream gives is collected from where it stands. -/
theorem Yields.exists_tally {s : Scanner} {stream last : TokenStream}
    (h : stream.Yields items runs last) (hstream : stream = new s) :
    ∃ tally, collect s.lexer s.cursor = some tally ∧ tally.items = items ∧ tally.runs = runs ∧
      last = ⟨s.moveTo tally.cursor, true⟩ := by
  induction h generalizing s with
  | ended h =>
      subst hstream
      cases next_eq_some_iff.1 h with
      | ended hfound hresult =>
          exact ⟨_, collect_of_end hfound hresult, rfl, rfl, rfl⟩
  | given h hlater ih =>
      subst hstream
      cases next_eq_some_iff.1 h with
      | token hfound hresult =>
          obtain ⟨tally, htally, rfl, rfl, rfl⟩ := ih rfl
          have hcollect := collect_of_token hfound hresult
          exact ⟨_, hcollect.trans (congrArg _ htally), rfl, rfl, rfl⟩
      | @error _ found _ hfound hresult =>
          obtain ⟨rfl, rfl, rfl⟩ := yields_done_iff.1 hlater
          exact ⟨_, collect_of_error hfound hresult, rfl, (List.append_nil found.runs).symm, rfl⟩

/-- What is collected is given by a stream. -/
theorem yields_of_collect {text : List Byte} {k : Compiled} {c : Cursor text}
    {tally : Tally text (Except LexError Token)} (h : collect k c = some tally) :
    Yields (new ⟨k, text, c⟩) tally.items tally.runs ⟨⟨k, text, tally.cursor⟩, true⟩ := by
  induction c using Cursor.induction_further generalizing tally with
  | step c ih =>
      obtain ⟨found, hfound, hfirst⟩ := exists_scan_of_collect h
      have hnext : (⟨k, text, c⟩ : Scanner).next = some found := hfound
      rcases hfirst with
        ⟨hresult, rfl⟩ | ⟨e, hresult, rfl⟩ | ⟨t, later, hresult, hlater, rfl⟩
      · exact .ended (next_eq_some_iff.2 (.ended hnext hresult))
      · have hyields := Yields.given (next_eq_some_iff.2 (.error hnext hresult)) (.ended rfl)
        rwa [List.append_nil] at hyields
      · have hfurther := ih (rest_ne_nil_of_token hfound hresult) found.cursor
          (offset_lt_of_token hfound hresult) hlater
        exact .given (next_eq_some_iff.2 (.token hnext hresult)) hfurther

/-- **Asking until the end is collecting.**  A stream ends exactly when collecting does, with
the same items, the same scripts run, and the scanner at the same place. -/
theorem yields_new_iff {s : Scanner} {last : TokenStream} :
    (new s).Yields items runs last ↔
      ∃ tally, collect s.lexer s.cursor = some tally ∧ tally.items = items ∧ tally.runs = runs ∧
        last = ⟨s.moveTo tally.cursor, true⟩ := by
  constructor
  · intro h
    exact h.exists_tally rfl
  · rintro ⟨tally, htally, rfl, rfl, rfl⟩
    exact yields_of_collect htally

end TokenStream

/-- Tokenizing a text asks the stream of a scanner at its beginning for all it has to give. -/
theorem Lexer.tokenize_eq_some_iff_yields {l : Lexer} {text : List Byte} {s : Scanner}
    (hs : l.scanner text = .ok s) {t : Tokenization} :
    l.tokenize text = some t ↔
      ∃ items runs last, (TokenStream.new s).Yields items runs last ∧
        t = ⟨items.mapM id, runs⟩ := by
  simp only [tokenize, hs, TokenStream.yields_new_iff]
  constructor
  · intro h
    obtain ⟨tally, htally, rfl⟩ := Option.map_eq_some_iff.1 h
    exact ⟨_, _, _, ⟨tally, htally, rfl, rfl, rfl⟩, rfl⟩
  · rintro ⟨_, _, _, ⟨tally, htally, rfl, rfl, rfl⟩, rfl⟩
    rw [htally]
    rfl

end Munch
