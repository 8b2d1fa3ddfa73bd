import Mathlib.Data.List.Forall2
import Munch.Lexer
import Munch.Proofs.Escaping
import Munch.Proofs.Segmentation

/-!
# What a compiled lexer owes to its rules

Scanning consults a compiled lexer in three ways only: it asks for longest matches,
for actions, and for the column at which lines begin.  Compiled forms that agree on
these scan alike, however their matchers work.

**Results.**
* `readPatterns_eq_ok_iff`: reading succeeds when every pattern can be read.
* `compile_eq_ok_iff`, `compile_spec`: the parts of a compiled form, traced back to the
  rules.
* `scan_emit`, `scan_skip`, `scan_refuse`, `scan_unmatched`: one scan, case by case.
* `scan_congr`: what a scan depends on.
* `determinize_unobservable`: tables and simulations answer and scan alike.
-/

namespace Munch

namespace Lexer

theorem readPatterns_eq_ok_iff {rules : List Rule} {patterns : List Pattern} :
    readPatterns rules = .ok patterns ↔
      List.Forall₂ (fun rule p => Pattern.parse rule.pattern = .ok p) rules patterns := by
  induction rules generalizing patterns with
  | nil =>
      rw [readPatterns, List.forall₂_nil_left_iff, Except.ok.injEq, eq_comm]
  | cons rule rules ih =>
      rw [readPatterns, List.forall₂_cons_left_iff]
      cases hparse : Pattern.parse rule.pattern with
      | error e =>
          simp
      | ok p =>
          cases hread : readPatterns rules with
          | error e =>
              simp [← ih, hread]
          | ok others =>
              simp only [← ih, hread, Except.ok.injEq]
              constructor
              · rintro rfl
                exact ⟨p, others, rfl, rfl, rfl⟩
              · rintro ⟨_, _, rfl, rfl, rfl⟩
                rfl

/-- A compiled form of the rules of a lexer, whose patterns were read as given. -/
structure Realizes (l : Lexer) (patterns : List Pattern) (k : Compiled) : Prop where
  read : List.Forall₂ (fun rule p => Pattern.parse rule.pattern = .ok p) l.rules.toList patterns
  longest_eq : ∀ rest, k.matcher.longest rest = (Nfa.ofPatterns patterns).tracker.longest rest
  actions_eq : k.actions = l.rules.map (·.action)
  firstLine_eq : k.firstLine = l.config.firstLine
  firstColumn_eq : k.firstColumn = l.config.firstColumn

/-- The compiled form is the one that the rules and the configuration call for. -/
structure UpToDate (l : Lexer) (k : Compiled) : Prop where
  build_eq : ∃ patterns,
    List.Forall₂ (fun rule p => Pattern.parse rule.pattern = .ok p) l.rules.toList patterns ∧
    Matcher.build patterns l.config = .ok k.matcher
  actions_eq : k.actions = l.rules.map (·.action)
  firstLine_eq : k.firstLine = l.config.firstLine
  firstColumn_eq : k.firstColumn = l.config.firstColumn

theorem compile_eq_ok_iff {l c : Lexer} :
    l.compile = .ok c ↔ ∃ k, c = { l with compiled := some k } ∧ l.UpToDate k := by
  rw [compile]
  constructor
  · intro h
    split at h
    · cases h
    · rename_i patterns hread
      split at h
      · cases h
      · rename_i matcher hbuild
        cases h
        exact ⟨_, rfl, ⟨patterns, readPatterns_eq_ok_iff.1 hread, hbuild⟩, rfl, rfl, rfl⟩
  · rintro ⟨⟨matcher, actions, firstLine, firstColumn⟩, rfl,
      ⟨patterns, hread, hbuild⟩, hactions, hline, hcolumn⟩
    dsimp only at hbuild hactions hline hcolumn
    rw [readPatterns_eq_ok_iff.2 hread]
    simp only [hbuild, hactions, hline, hcolumn]

theorem UpToDate.realizes {l : Lexer} {k : Compiled} (h : l.UpToDate k) :
    ∃ patterns, l.Realizes patterns k := by
  obtain ⟨patterns, hread, hbuild⟩ := h.build_eq
  exact ⟨patterns, hread, Matcher.longest_build hbuild, h.actions_eq, h.firstLine_eq,
    h.firstColumn_eq⟩

theorem compile_spec {l c : Lexer} (h : l.compile = .ok c) :
    ∃ patterns k, c = { l with compiled := some k } ∧ l.Realizes patterns k := by
  obtain ⟨k, rfl, hk⟩ := compile_eq_ok_iff.1 h
  obtain ⟨patterns, hrealizes⟩ := hk.realizes
  exact ⟨patterns, k, rfl, hrealizes⟩

theorem Realizes.action_eq {l : Lexer} {patterns : List Pattern} {k : Compiled}
    (h : l.Realizes patterns k) (rule : Nat) :
    k.action rule = ((l.rules[rule]?).map (·.action)).getD .skip := by
  rw [Compiled.action, h.actions_eq, Array.getD_eq_getD_getElem?, Array.getElem?_map]

theorem Realizes.patterns_unique {l₁ l₂ : Lexer} {p₁ p₂ : List Pattern} {k₁ k₂ : Compiled}
    (hrules : l₁.rules = l₂.rules) (h₁ : l₁.Realizes p₁ k₁) (h₂ : l₂.Realizes p₂ k₂) :
    p₁ = p₂ := by
  have hread₁ := readPatterns_eq_ok_iff.2 h₁.read
  have hread₂ := readPatterns_eq_ok_iff.2 h₂.read
  rw [hrules, hread₂] at hread₁
  exact (Except.ok.inj hread₁).symm

end Lexer

section Scans

variable {text : List Byte} {k : Compiled} {c : Cursor text}

theorem scan_at_end (hrest : c.rest = []) : scan k c = some ⟨.endOfInput, c, []⟩ := by
  rw [scan, dif_pos hrest]

theorem scan_unmatched {read : Nat} (hrest : c.rest ≠ [])
    (h : k.matcher.longest c.rest = .unmatched read) :
    scan k c =
      some ⟨.error ⟨.unconsumedInput (Utf8.frontText c.rest) (c.offset + read), c.position⟩,
        c, []⟩ := by
  rw [scan, dif_neg hrest, h]

theorem scan_refuse {found : LongestMatch} (hrest : c.rest ≠ [])
    (h : k.matcher.longest c.rest = .matched found) (hlength : found.length = 0)
    (haction : (k.action found.winner).isCustom = false) :
    scan k c = some ⟨.error ⟨.zeroLengthMatch found.winner, c.position⟩, c, []⟩ := by
  rw [scan, dif_neg hrest, h]
  simp [hlength, haction]

variable {rest : List Byte} {s : Segment} {others : List Nat}

theorem offset_lt_advance (hword : s.word ≠ []) (hrest : c.rest = s.word ++ rest) :
    c.offset < (c.advance k.firstColumn s.word.length).2.offset := by
  have hlength := List.length_pos_iff.2 hword
  rw [Cursor.offset_advance, hrest, List.length_append]
  omega

theorem scan_emit {make : Match → Token} (hword : s.word ≠ []) (hrest : c.rest = s.word ++ rest)
    (h : k.matcher.longest c.rest = .matched ⟨s.word.length, s.rule, others⟩)
    (haction : k.action s.rule = .emit make) :
    scan k c =
      some ⟨.token (make ⟨s.rule, s.word,
        ⟨c.position, (c.advance k.firstColumn s.word.length).1⟩⟩),
        (c.advance k.firstColumn s.word.length).2, []⟩ := by
  have hne : c.rest ≠ [] := by
    simp [hrest, hword]
  have htake : c.rest.take s.word.length = s.word := by
    rw [hrest, List.take_left]
  have hlt := offset_lt_advance (k := k) hword hrest
  rw [scan, dif_neg hne, h]
  simp [haction, Action.perform, hword, htake, hlt]

theorem scan_skip (hword : s.word ≠ []) (hrest : c.rest = s.word ++ rest)
    (h : k.matcher.longest c.rest = .matched ⟨s.word.length, s.rule, others⟩)
    (haction : k.action s.rule = .skip) :
    scan k c = scan k (c.advance k.firstColumn s.word.length).2 := by
  have hne : c.rest ≠ [] := by
    simp [hrest, hword]
  have hlt := offset_lt_advance (k := k) hword hrest
  rw [scan, dif_neg hne, h]
  simp [haction, Action.perform, hword, hlt, Scan.after]

end Scans

/-- Scans agree when the longest matches, the actions and the first column do. -/
theorem scan_congr {text : List Byte} {k₁ k₂ : Compiled}
    (hlongest : ∀ rest, k₁.matcher.longest rest = k₂.matcher.longest rest)
    (hactions : k₁.actions = k₂.actions) (hcolumn : k₁.firstColumn = k₂.firstColumn)
    (c : Cursor text) : scan k₁ c = scan k₂ c := by
  have haction : ∀ rule, k₁.action rule = k₂.action rule := by
    intro rule
    rw [Compiled.action, hactions, Compiled.action]
  -- The measure is what is left of the text, as inner scans begin further on.
  induction hleft : text.length - c.offset using Nat.strongRecOn generalizing c with
  | ind left ih =>
      rw [scan, scan]
      by_cases hrest : c.rest = []
      · rw [dif_pos hrest, dif_pos hrest]
      · have hlt := Cursor.offset_lt hrest
        have hfurther : ∀ d : Cursor text, c.offset < d.offset → scan k₁ d = scan k₂ d := by
          intro d hd
          exact ih (text.length - d.offset) (by omega) d rfl
        have hnext :
            (fun inner : Cursor text =>
              if _ : c.offset < inner.offset then scan k₁ inner else none) =
            fun inner : Cursor text =>
              if _ : c.offset < inner.offset then scan k₂ inner else none := by
          funext inner
          split
          · exact hfurther inner ‹_›
          · rfl
        rw [dif_neg hrest, dif_neg hrest, hlongest]
        cases k₂.matcher.longest c.rest with
        | unmatched read =>
            rfl
        | matched found =>
            simp only [haction, hcolumn, hnext]
            split
            · rfl
            · split
              · rfl
              · rename_i p _
                split
                · rfl
                · by_cases hmoved : c.offset < p.cursor.offset
                  · simp only [dif_pos hmoved, hfurther p.cursor hmoved]
                  · simp only [dif_neg hmoved]

/-- **Determinizing changes neither matches nor scans.** -/
theorem determinize_unobservable :
    (∀ (rules : List Pattern) (limit : Nat) (dfa : Dfa),
      Dfa.ofNfa (Nfa.ofPatterns rules) limit = .ok dfa →
      ∀ (text : List Byte) (offset : Nat),
        dfa.tracker.longestAt text offset =
          (Nfa.ofPatterns rules).tracker.longestAt text offset) ∧
    ∀ (l₁ l₂ c₁ c₂ : Lexer) (k₁ k₂ : Compiled),
      l₁.rules = l₂.rules →
      { l₁.config with determinize := l₂.config.determinize } = l₂.config →
      l₁.compile = .ok c₁ → l₂.compile = .ok c₂ →
      c₁.compiled = some k₁ → c₂.compiled = some k₂ →
      ∀ (text : List Byte) (c : Cursor text),
        Scanner.next ⟨k₁, text, c⟩ = Scanner.next ⟨k₂, text, c⟩ := by
  constructor
  · intro rules limit dfa h text offset
    rw [Tracker.longestAt, Tracker.longestAt, Dfa.longest_ofNfa h]
  · intro l₁ l₂ c₁ c₂ k₁ k₂ hrules hconfig hc₁ hc₂ hk₁ hk₂ text c
    obtain ⟨p₁, k₁', rfl, h₁⟩ := Lexer.compile_spec hc₁
    obtain ⟨p₂, k₂', rfl, h₂⟩ := Lexer.compile_spec hc₂
    obtain rfl : k₁' = k₁ := Option.some.inj hk₁
    obtain rfl : k₂' = k₂ := Option.some.inj hk₂
    obtain rfl : p₁ = p₂ := h₁.patterns_unique hrules h₂
    apply scan_congr
    · intro rest
      rw [h₁.longest_eq, h₂.longest_eq]
    · rw [h₁.actions_eq, h₂.actions_eq, hrules]
    · rw [h₁.firstColumn_eq, h₂.firstColumn_eq, ← hconfig]

section Letter

/-- A lexer that knows the letter `a` only. -/
def letterLexer (action : Action) (determinize : Bool) : Lexer :=
  (Lexer.new { determinize := determinize }).add [97] action

theorem forall_mem_rules_letter {P : Action → Prop} {action : Action} (h : P action)
    (determinize : Bool) : ∀ r ∈ (letterLexer action determinize).rules, P r.action := by
  intro r hr
  simp only [letterLexer, Lexer.new, Lexer.add, List.push_toArray, List.nil_append,
    List.mem_toArray, List.mem_singleton] at hr
  rw [hr]
  exact h

theorem exists_ofNfa_letter :
    ∃ dfa, Dfa.ofNfa (Nfa.ofPatterns [.literal [97]]) 10000 = .ok dfa :=
  Pattern.exists_ofNfa_literal (by decide)

theorem parse_letter : Pattern.parse [97] = .ok (.literal [97]) := by
  cbv

theorem readPatterns_letter (action : Action) (determinize : Bool) :
    Lexer.readPatterns (letterLexer action determinize).rules.toList = .ok [.literal [97]] := by
  simp [letterLexer, Lexer.new, Lexer.add, Lexer.readPatterns, parse_letter]

theorem exists_compile_letter (action : Action) (determinize : Bool) :
    ∃ c k, (letterLexer action determinize).compile = .ok c ∧ c.compiled = some k := by
  have hbuild : ∃ m,
      Matcher.build [.literal [97]] (letterLexer action determinize).config = .ok m := by
    obtain ⟨dfa, hdfa⟩ := exists_ofNfa_letter
    cases determinize with
    | false =>
        exact ⟨_, rfl⟩
    | true =>
        refine ⟨.tabulated dfa, ?_⟩
        simp [Matcher.build, letterLexer, Lexer.new, Lexer.add, hdfa]
  obtain ⟨m, hm⟩ := hbuild
  simp [Lexer.compile, readPatterns_letter, hm]

theorem longest_letter (rest : List Byte) :
    (Nfa.ofPatterns [.literal [97]]).tracker.longest (97 :: rest) = .matched ⟨1, 0, []⟩ :=
  (Nfa.longest_eq_matched_iff _).2 (Pattern.isLongestMatch_literal_iff.2 ⟨⟨rest, rfl⟩, rfl⟩)

theorem Lexer.Realizes.scan_letter {determinize : Bool} {patterns : List Pattern} {k : Compiled}
    {kind : TokenKind} (h : (letterLexer (.token kind) determinize).Realizes patterns k)
    {text rest : List Byte} {c : Cursor text} (hrest : c.rest = 97 :: rest) :
    scan k c =
      some ⟨.token ((⟨0, [97], ⟨c.position, (c.advance k.firstColumn 1).1⟩⟩ : Match).token kind),
        (c.advance k.firstColumn 1).2, []⟩ := by
  have hread := (readPatterns_letter (.token kind) determinize).symm.trans
    (Lexer.readPatterns_eq_ok_iff.2 h.read)
  obtain rfl : [.literal [97]] = patterns := Except.ok.inj hread
  have hlongest := (h.longest_eq c.rest).trans (hrest ▸ longest_letter rest)
  exact scan_emit (s := ⟨0, [97]⟩) (List.cons_ne_nil 97 []) hrest hlongest (h.action_eq 0)

theorem determinize_unobservable_letter :
    ∃ (dfa : Dfa) (c₁ c₂ : Lexer) (k₁ k₂ : Compiled),
      Dfa.ofNfa (Nfa.ofPatterns [.literal [97]]) 10000 = .ok dfa ∧
      dfa.tracker.longestAt [97] 0 =
        (Nfa.ofPatterns [.literal [97]]).tracker.longestAt [97] 0 ∧
      dfa.tracker.longestAt [97] 0 = .matched ⟨1, 0, []⟩ ∧
      (letterLexer (.token ⟨7⟩) true).compile = .ok c₁ ∧
      (letterLexer (.token ⟨7⟩) false).compile = .ok c₂ ∧
      c₁.compiled = some k₁ ∧ c₂.compiled = some k₂ ∧
      Scanner.next ⟨k₁, [97], .atStart [97] 1 1⟩ = Scanner.next ⟨k₂, [97], .atStart [97] 1 1⟩ ∧
      Scanner.next ⟨k₁, [97], .atStart [97] 1 1⟩ =
        some ⟨.token ⟨⟨7⟩, "a", [97], ⟨⟨0, 1, 1⟩, ⟨0, 1, 1⟩⟩⟩, ⟨⟨1, 1, 2⟩, [], rfl⟩, []⟩ := by
  obtain ⟨dfa, hdfa⟩ := exists_ofNfa_letter
  obtain ⟨c₁, k₁, hc₁, hk₁⟩ := exists_compile_letter (.token ⟨7⟩) true
  obtain ⟨c₂, k₂, hc₂, hk₂⟩ := exists_compile_letter (.token ⟨7⟩) false
  have hmatch := determinize_unobservable.1 [.literal [97]] 10000 dfa hdfa [97] 0
  have hscan := determinize_unobservable.2 (letterLexer (.token ⟨7⟩) true)
    (letterLexer (.token ⟨7⟩) false) c₁ c₂ k₁ k₂ rfl rfl hc₁ hc₂ hk₁ hk₂ [97] (.atStart [97] 1 1)
  refine ⟨dfa, c₁, c₂, k₁, k₂, hdfa, hmatch, ?_, hc₁, hc₂, hk₁, hk₂, hscan, ?_⟩
  · rw [hmatch, Tracker.longestAt, List.drop_zero, longest_letter, Outcome.shift_zero]
  · -- the simulation gives the token, so the table does
    obtain ⟨patterns, k, rfl, hk⟩ := Lexer.compile_spec hc₂
    obtain rfl : k = k₂ := Option.some.inj hk₂
    have hletter : scan k (.atStart [97] 1 1) = some _ := hk.scan_letter rfl
    rw [hk.firstColumn_eq] at hletter
    have htoken : (⟨0, [97], ⟨⟨0, 1, 1⟩, ⟨0, 1, 1⟩⟩⟩ : Match).token ⟨7⟩ =
        ⟨⟨7⟩, "a", [97], ⟨⟨0, 1, 1⟩, ⟨0, 1, 1⟩⟩⟩ := by
      decide +kernel
    rw [hscan, Scanner.next, hletter, ← htoken]
    rfl

end Letter

end Munch
