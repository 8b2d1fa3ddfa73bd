import Mathlib.Data.List.Permutation
import Mathlib.Order.Bounds.Basic
import Munch.Proofs.Scan.Tiling

/-!
# Nullable patterns and matches of length zero

Whether a pattern is nullable is computed from its syntax; whether an automaton accepts the
empty word is a matter of the states that it starts in.  Both say the same, and this alone
decides where a lexer without custom actions complains of a match of length zero: where
what is skipped has led to a place from which no rule accepts anything but the empty word,
and some rule accepts that.

**Results.**
* `Matcher.exists_matched_nil_iff`: nullability, as matchers see it.
* `Compiled.fails_zeroLengthMatch_iff`: the attempts that fail for this cause.
* `Lexer.Realizes.skips_of_munched`: what can be cut off for rules that skip is skipped.
* `Lexer.Realizes.scan_zeroLengthMatch_iff`: the scans that fail for this cause.
* `nullability_governs`: nullability as language, as match, and as cause of errors.
-/

namespace Munch

/-! ### Matchers -/

theorem exists_accepts_nil_iff {rules : List Pattern} :
    (∃ rule, Accepts rules rule []) ↔ ∃ p ∈ rules, p.matchesEmpty = true := by
  constructor
  · rintro ⟨rule, p, hp, hnil⟩
    exact ⟨p, List.mem_of_getElem? hp, p.matchesEmpty_iff.2 hnil⟩
  · rintro ⟨p, hmem, hp⟩
    obtain ⟨rule, hrule⟩ := List.mem_iff_getElem?.1 hmem
    exact ⟨rule, p, hrule, p.matchesEmpty_iff.1 hp⟩

/-- A matcher accepts the empty word when one of its patterns is nullable. -/
theorem Matcher.exists_matched_nil_iff {rules : List Pattern} {config : Config} {m : Matcher}
    (h : build rules config = .ok m) :
    (∃ found, m.longestAt [] 0 = .matched found) ↔ ∃ p ∈ rules, p.matchesEmpty = true := by
  rw [longestAt, Outcome.shift_zero, List.drop_nil, longest_build h, ← exists_accepts_nil_iff]
  constructor
  · rintro ⟨found, hfound⟩
    have hwinner := ((Nfa.longest_eq_matched_iff rules).1 hfound).accepts_winner
    rw [List.take_nil] at hwinner
    exact ⟨found.winner, hwinner⟩
  · rintro ⟨rule, hrule⟩
    cases hlongest : (Nfa.ofPatterns rules).tracker.longest [] with
    | matched found =>
        exact ⟨found, rfl⟩
    | unmatched read =>
        have hnone := (Nfa.exists_unmatched_iff rules []).1 ⟨read, hlongest⟩
        exact absurd hrule (hnone rule [] List.prefix_rfl)

/-! ### Attempts -/

variable {text : List Byte} {k : Compiled} {c : Cursor text}

theorem Action.cursor_of_perform {action : Action} {firstColumn : Nat}
    {next : Cursor text → Option (Scan text)} {m : Match} {p : Performance text}
    (haction : action.isCustom = false) (hp : action.perform firstColumn next m c = some p) :
    p.cursor = c ∧ ∃ token, p.verdict = .ok token := by
  cases action with
  | emit make =>
      cases hp
      exact ⟨rfl, _, rfl⟩
  | skip =>
      cases hp
      exact ⟨rfl, _, rfl⟩
  | custom script =>
      cases haction

/-- Without custom actions, an attempt refuses a match just if it is empty. -/
theorem Compiled.fails_zeroLengthMatch_iff {rule : Nat}
    (hactions : ∀ rule, (k.action rule).isCustom = false) :
    k.Fails c (.zeroLengthMatch rule) ↔
      c.rest ≠ [] ∧ ∃ found, k.matcher.longest c.rest = .matched found ∧ found.length = 0 ∧
        found.winner = rule := by
  constructor
  · rintro ⟨runs, hfails⟩
    rcases attempt_eq_some hfails with ⟨-, heq⟩ | ⟨-, read, -, heq⟩ |
      ⟨hrest, found, hfound, hlength, -, heq⟩ | ⟨hrest, found, p, -, haccepted, hp, heq⟩
    · cases heq
    · cases heq
    · cases heq
      exact ⟨hrest, found, hfound, hlength, rfl⟩
    · obtain ⟨hcursor, token, hverdict⟩ := Action.cursor_of_perform (hactions _) hp
      have hmoved : c.offset < p.cursor.offset := by
        have hlength : found.length ≠ 0 := fun hzero => haccepted ⟨hzero, hactions _⟩
        have hleft := List.length_pos_iff.2 hrest
        rw [hcursor, behind, Cursor.offset_advance]
        omega
      rcases p.attempt_cases found.winner c with ⟨message, hfail, -⟩ | ⟨-, hstayed, -⟩ |
        ⟨t, -, -, hmade⟩ | ⟨-, -, hskipped⟩
      · cases hfail.symm.trans hverdict
      · exact absurd hmoved hstayed
      · cases heq.trans hmade
      · cases heq.trans hskipped
  · rintro ⟨hrest, found, hfound, hlength, rfl⟩
    refine ⟨[], ?_⟩
    rw [attempt, if_neg hrest, hfound]
    simp only [hlength, hactions, and_self, if_true]

namespace Lexer

/-- The pattern of the rule is nullable. -/
def Nullable (l : Lexer) (rule : Nat) : Prop :=
  ∃ r p, l.rules[rule]? = some r ∧ Pattern.parse r.pattern = .ok p ∧ p.matchesEmpty = true

theorem nullable_iff {l : Lexer} {rule : Nat} : l.Nullable rule ↔ l.Accepts rule [] := by
  simp only [Nullable, Accepts, Pattern.matchesEmpty_iff]

variable {l : Lexer} {patterns : List Pattern}

/-! ### What is skipped -/

theorem Realizes.skips_of_isMunch (h : l.Realizes patterns k) {s : Segment} {r : Rule}
    (hs : IsMunch l.Accepts c.rest s) (hr : l.rules[s.rule]? = some r) (hskip : r.action = .skip) :
    k.Skips c (c.advance k.firstColumn s.word.length).2 := by
  obtain ⟨others, hlongest⟩ := h.longest_of_isMunch hs
  obtain ⟨after, hsplit⟩ := hs.front
  have haction : k.action s.rule = .skip := by
    rw [h.action_eq, hr, ← hskip]
    rfl
  have hrest : c.rest ≠ [] := List.ne_nil_of_length_pos
    (Nat.lt_of_lt_of_le (List.length_pos_iff.2 hs.nonempty) hs.front.length_le)
  have hmoved := offset_lt_advance (k := k) hs.nonempty hsplit.symm
  have haccepted : ¬(s.word.length = 0 ∧ (k.action s.rule).isCustom = false) :=
    fun hrefused => hs.nonempty (List.length_eq_zero_iff.1 hrefused.1)
  have hperform : (k.action s.rule).perform k.firstColumn (k.inner c)
      (k.matchAt c ⟨s.word.length, s.rule, others⟩) (k.behind c ⟨s.word.length, s.rule, others⟩) =
        some ⟨.ok none, (c.advance k.firstColumn s.word.length).2, [], []⟩ := by
    rw [haction]
    rfl
  have hattempt := Compiled.attempt_of_perform hrest hlongest haccepted hperform
  rw [Performance.attempt] at hattempt
  exact ⟨_, hattempt.trans (congrArg some (if_pos hmoved))⟩

theorem Realizes.skips_of_munched (h : l.Realizes patterns k) {rest last : List Byte}
    {segments : List Segment} (hcut : Munched l.Accepts rest segments last)
    (hrest : c.rest = rest)
    (hactions : ∀ s ∈ segments, ∃ r, l.rules[s.rule]? = some r ∧ r.action = .skip) :
    ∃ d, Relation.ReflTransGen k.Skips c d ∧ d.rest = last := by
  induction hcut generalizing c with
  | stop rest =>
      exact ⟨c, .refl, hrest⟩
  | @cut rest rest' last s segments hs hsplit _ ih =>
      obtain ⟨⟨r, hr, hskip⟩, hactions⟩ := List.forall_mem_cons.1 hactions
      subst hrest
      have hle : s.word.length ≤ c.rest.length := hs.front.length_le
      have hbehind : (c.advance k.firstColumn s.word.length).2.rest = rest' := by
        rw [Cursor.rest_advance hle, hsplit, List.drop_left]
      obtain ⟨d, hskips, hlast⟩ := ih hbehind hactions
      exact ⟨d, .head (h.skips_of_isMunch hs hr hskip) hskips, hlast⟩

/-- The longest match is empty where nothing else is accepted, and it goes to the first
nullable rule. -/
theorem Realizes.exists_matched_zero_iff (h : l.Realizes patterns k) {rest : List Byte}
    {rule : Nat} :
    (∃ found, k.matcher.longest rest = .matched found ∧ found.length = 0 ∧
        found.winner = rule) ↔
      Blocked l.Accepts rest ∧ IsLeast {rule | l.Nullable rule} rule := by
  simp only [nullable_iff]
  constructor
  · rintro ⟨found, hfound, hlength, rfl⟩
    have hlongest := h.matched_iff.1 hfound
    exact ⟨hlongest.blocked hlength, hlongest.isLeast_winner hlength⟩
  · rintro ⟨hblocked, hleast⟩
    rcases h.longest_or rest with ⟨found, hlongest⟩ | hnone
    · have hlength := hlongest.length_eq_zero hblocked
      exact ⟨found, h.matched_iff.2 hlongest, hlength,
        (hlongest.isLeast_winner hlength).unique hleast⟩
    · exact absurd hleast.1 (hnone rule [] List.nil_prefix)

/-- Behind matches of rules that skip, the bytes from `start` on lead to `stop`, and there
only the empty word is left to accept, first of all by `rule`. -/
structure StallsAt (l : Lexer) (text : List Byte) (start stop rule : Nat) : Prop where
  lt_length : stop < text.length
  skipped : ∃ segments, Munched l.Accepts (text.drop start) segments (text.drop stop) ∧
    ∀ s ∈ segments, ∃ r, l.rules[s.rule]? = some r ∧ r.action = .skip
  blocked : Blocked l.Accepts (text.drop stop)
  least : IsLeast {rule | l.Nullable rule} rule

theorem Realizes.scan_zeroLengthMatch_iff (h : l.Realizes patterns k)
    (hactions : ∀ r ∈ l.rules, r.action.isCustom = false) {rule stop : Nat} :
    (∃ s, scan k c = some s ∧ s.result = .error ⟨.zeroLengthMatch rule, s.cursor.position⟩ ∧
        s.cursor.offset = stop) ↔
      l.StallsAt text c.offset stop rule := by
  have hcustom : ∀ rule, (k.action rule).isCustom = false := h.isCustom_eq_false hactions
  constructor
  · rintro ⟨s, hs, hresult, rfl⟩
    obtain ⟨hskips, hfails⟩ := scan_eq_error_iff.1 ⟨s, hs, hresult, rfl⟩
    obtain ⟨segments, hcut, hsegments⟩ :=
      h.munched_of_skips (fun rule => Action.skipsPlainly_of_isCustom (hcustom rule)) hskips
    obtain ⟨hrest, hmatched⟩ := (Compiled.fails_zeroLengthMatch_iff hcustom).1 hfails
    obtain ⟨hblocked, hleast⟩ := h.exists_matched_zero_iff.1 hmatched
    rw [← s.cursor.drop_eq] at hcut hblocked
    rw [← c.drop_eq] at hcut
    exact ⟨Cursor.offset_lt hrest, ⟨segments, hcut, hsegments⟩, hblocked, hleast⟩
  · rintro ⟨hlt, ⟨segments, hcut, hsegments⟩, hblocked, hleast⟩
    obtain ⟨d, hskips, hrest⟩ := h.skips_of_munched hcut c.drop_eq.symm hsegments
    have hmatched := h.exists_matched_zero_iff.2 ⟨hblocked, hleast⟩
    have hlength := congrArg List.length hrest
    rw [d.length_rest, List.length_drop] at hlength
    have hoffset : d.offset = stop := by omega
    have hfails := (Compiled.fails_zeroLengthMatch_iff (c := d) hcustom).2
      ⟨List.ne_nil_of_length_pos (by rw [d.length_rest]; omega), hrest ▸ hmatched⟩
    obtain ⟨s, hs, hresult, rfl⟩ := scan_eq_error_iff.2 ⟨hskips, hfails⟩
    exact ⟨s, hs, hresult, hoffset⟩

end Lexer

/-- **Nullability.**  Whether a pattern is nullable can be read off its language and off the
automata built for it alone.  A lexer without custom actions complains of a match of length
zero where, behind matches that are skipped, only the empty word is accepted, and it names
the first nullable rule; so it never does if no pattern is nullable. -/
theorem nullability_governs :
    (∀ p : Pattern, (p.matchesEmpty = true ↔ p.language []) ∧
      ∀ (config : Config) (m : Matcher), Matcher.build [p] config = .ok m →
        (p.matchesEmpty = true ↔ ∃ found, m.longestAt [] 0 = .matched found)) ∧
    ∀ (l compiled : Lexer) (text : List Byte) (s v : Scanner), l.compile = .ok compiled →
      (∀ r ∈ l.rules, r.action.isCustom = false) → compiled.scanner text = .ok s →
      s.Reaches v →
      (∀ rule stop, (∃ scan, v.next = some scan ∧
          scan.result = .error ⟨.zeroLengthMatch rule, scan.cursor.position⟩ ∧
          scan.cursor.offset = stop) ↔
        l.StallsAt text v.position.offset stop rule) ∧
      ((∀ rule, ¬l.Nullable rule) → ∀ scan rule position, v.next = some scan →
        scan.result ≠ .error ⟨.zeroLengthMatch rule, position⟩) := by
  constructor
  · intro p
    refine ⟨p.matchesEmpty_iff, ?_⟩
    intro config m hm
    rw [Matcher.exists_matched_nil_iff hm]
    simp
  · intro l compiled text s v hcompile hactions hstart hreach
    obtain ⟨patterns, k, c, h, rfl, rfl, -⟩ :=
      Lexer.exists_cursor_of_reaches hcompile hstart hreach
    refine ⟨fun rule stop => h.scan_zeroLengthMatch_iff hactions, ?_⟩
    intro hnone scan rule position hscan hresult
    obtain ⟨-, -, hposition⟩ := exists_fails_of_scan hscan hresult
    have hstalls := (h.scan_zeroLengthMatch_iff hactions).1
      ⟨scan, hscan, by rw [hposition]; exact hresult, rfl⟩
    exact hnone rule hstalls.least.1

section Letters

/-- A lexer that skips any number of letters `a`, also none. -/
def lettersLexer : Lexer := (Lexer.new { determinize := false }).add [97, 42] .skip

theorem parse_letters : Pattern.parse [97, 42] = .ok (.repeated (.literal [97]) 0 none) := by
  cbv

theorem exists_compile_letters : ∃ compiled, lettersLexer.compile = .ok compiled := by
  simp [lettersLexer, Lexer.new, Lexer.add, Lexer.compile, Lexer.readPatterns, parse_letters,
    Matcher.build]

theorem language_letters_iff {w : List Byte} :
    (Pattern.repeated (.literal [97]) 0 none).language w ↔ ∀ b ∈ w, b = 97 := by
  constructor
  · rintro ⟨copies, rfl, hcopies, -⟩ b hb
    obtain ⟨v, hv, hb⟩ := List.mem_flatten.1 hb
    obtain ⟨a, ha, rfl⟩ := hcopies v hv
    rw [List.mem_singleton.1 hb]
    rwa [ByteSet.contains_single, decide_eq_true_eq] at ha
  · intro h
    refine ⟨w.map fun b => [b], List.flatMap_singleton' w, ?_, Nat.zero_le _, nofun⟩
    intro v hv
    obtain ⟨b, hb, rfl⟩ := List.mem_map.1 hv
    rw [h b hb]
    exact ⟨97, by decide, rfl⟩

theorem accepts_letters_iff {rule : Nat} {w : List Byte} :
    lettersLexer.Accepts rule w ↔ rule = 0 ∧ ∀ b ∈ w, b = 97 := by
  constructor
  · rintro ⟨r, p, hr, hp, hw⟩
    obtain ⟨hlt, rfl⟩ := Array.getElem?_eq_some_iff.1 hr
    obtain rfl : rule = 0 := Nat.lt_one_iff.1 hlt
    obtain rfl := Except.ok.inj (parse_letters.symm.trans hp)
    exact ⟨rfl, language_letters_iff.1 hw⟩
  · rintro ⟨rfl, hw⟩
    exact ⟨_, _, rfl, parse_letters, language_letters_iff.2 hw⟩

theorem isMunch_letters : IsMunch lettersLexer.Accepts [97, 98] ⟨0, [97]⟩ where
  nonempty := List.cons_ne_nil 97 []
  front := ⟨[98], rfl⟩
  accepted := accepts_letters_iff.2 ⟨rfl, by simp⟩
  greatest := by
    intro rule u hu haccept
    by_contra hlonger
    have hlast : (98 : Byte) ∈ u := by
      rw [hu.eq_of_length_le (Nat.lt_of_not_le hlonger)]
      simp
    exact absurd ((accepts_letters_iff.1 haccept).2 98 hlast) (by decide)
  lowest := fun _ _ => Nat.zero_le _

theorem stallsAt_letters : lettersLexer.StallsAt [97, 98] 0 1 0 where
  lt_length := by decide
  skipped :=
    ⟨[⟨0, [97]⟩], .cut isMunch_letters rfl (.stop _), by simp [lettersLexer, Lexer.new, Lexer.add]⟩
  blocked := by
    intro rule u hu haccept
    rcases List.prefix_cons_iff.1 hu with rfl | ⟨v, rfl, -⟩
    · rfl
    · exact absurd ((accepts_letters_iff.1 haccept).2 98 List.mem_cons_self) (by decide)
  least := ⟨Lexer.nullable_iff.2 (accepts_letters_iff.2 ⟨rfl, by simp⟩), fun _ _ => Nat.zero_le _⟩

theorem nullability_governs_letters :
    (∃ m found, Matcher.build [.repeated (.literal [97]) 0 none] lettersLexer.config = .ok m ∧
      m.longestAt [] 0 = .matched found) ∧
    (∃ compiled s scan, lettersLexer.compile = .ok compiled ∧
      compiled.scanner [97, 98] = .ok s ∧ s.next = some scan ∧
      scan.result = .error ⟨.zeroLengthMatch 0, ⟨1, 1, 2⟩⟩) ∧
    ∃ compiled s scan, (letterLexer (.token ⟨7⟩) true).compile = .ok compiled ∧
      compiled.scanner [97] = .ok s ∧ s.next = some scan ∧
      ∀ rule position, scan.result ≠ .error ⟨.zeroLengthMatch rule, position⟩ := by
  refine ⟨?_, ?_, ?_⟩
  · have hbuild : Matcher.build [.repeated (.literal [97]) 0 none] lettersLexer.config =
        .ok (.simulated (Nfa.ofPatterns [.repeated (.literal [97]) 0 none])) := rfl
    obtain ⟨found, hfound⟩ := ((nullability_governs.1 _).2 _ _ hbuild).1 rfl
    exact ⟨_, found, hbuild, hfound⟩
  · obtain ⟨compiled, hcompile⟩ := exists_compile_letters
    obtain ⟨patterns, k, rfl, h⟩ := Lexer.compile_spec hcompile
    have hcustom : ∀ r ∈ lettersLexer.rules, r.action.isCustom = false := by
      simp [lettersLexer, Lexer.new, Lexer.add, Action.isCustom]
    obtain ⟨scan, hscan, hresult, hoffset⟩ :=
      ((nullability_governs.2 _ _ [97, 98] _ _ hcompile hcustom rfl .refl).1 0 1).2 stallsAt_letters
    refine ⟨_, _, scan, hcompile, rfl, hscan, ?_⟩
    have hplaced : scan.cursor.position =
        .behind k.firstLine k.firstColumn ([97, 98].take scan.cursor.offset) :=
      (scan_leads hscan).wellPlaced (Cursor.wellPlaced_atStart [97, 98] _ _)
    rw [hresult, hplaced, hoffset, h.firstLine_eq, h.firstColumn_eq]
    rfl
  · obtain ⟨compiled, -, hcompile, -⟩ := exists_compile_letter (.token ⟨7⟩) true
    obtain ⟨patterns, k, rfl, h⟩ := Lexer.compile_spec hcompile
    have hscan : (Scanner.new k [97]).next = some _ := h.scan_letter rfl
    have hnone : ∀ rule, ¬(letterLexer (.token ⟨7⟩) true).Nullable rule := by
      intro rule hnullable
      cases Lexer.eq_of_accepts_letter (Lexer.nullable_iff.1 hnullable)
    have hcustom : ∀ r ∈ (letterLexer (.token ⟨7⟩) true).rules, r.action.isCustom = false :=
      forall_mem_rules_letter (P := fun action => action.isCustom = false) rfl true
    exact ⟨_, _, _, hcompile, rfl, hscan, fun rule position =>
      (nullability_governs.2 _ _ [97] _ _ hcompile hcustom rfl .refl).2 hnone _ rule position hscan⟩

end Letters

end Munch
