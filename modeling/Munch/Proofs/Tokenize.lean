import Munch.Proofs.Compilation
import Munch.Proofs.Position
import Munch.Proofs.Segmentation

/-!
# Tokenizing is maximal munch

Without custom actions a scan either hands over the longest match at the cursor or
refuses it, so the tokens of a text are those of its segments, and the first place
where nothing but the empty word matches is where tokenizing fails.

**Invariant.**  The cursor stands behind the segments cut off so far: the bytes in
front of it are their words, and its position is the one of these bytes.

**Results.**
* `collect_spec`: what the loop collects from a cursor on.
* `tokenize_eq_segmentation`: tokens, uniqueness and errors.
-/

namespace Munch

theorem items_of_token {text : List Byte} {k : Compiled} {c d : Cursor text} {t : Token}
    {runs : List ActionRun} (h : scan k c = some ⟨.token t, d, runs⟩) :
    (collect k c).map (·.items) = ((collect k d).map (·.items)).map (.ok t :: ·) := by
  rw [collect_of_token h rfl, Option.map_map, Option.map_map]
  rfl

/-! ### What tokens and errors should be -/

namespace Lexer

/-- A word belongs to the pattern of the rule with the given number. -/
def Accepts (l : Lexer) (rule : Nat) (w : List Byte) : Prop :=
  ∃ r p, l.rules[rule]? = some r ∧ Pattern.parse r.pattern = .ok p ∧ p.language w

/-- How the action of a rule makes a token, if it makes one. -/
def emission (l : Lexer) (rule : Nat) : Option (Match → Token) :=
  match l.rules[rule]? with
  | some ⟨_, _, .emit make⟩ => some make
  | _ => none

/-- What a rule matched when the segment is cut off behind `before`. -/
def matchOf (l : Lexer) (before : List Byte) (s : Segment) : Match :=
  ⟨s.rule, s.word,
    ⟨.behind l.config.firstLine l.config.firstColumn before,
      .behind l.config.firstLine l.config.firstColumn (before ++ s.word.dropLast)⟩⟩

/-- The tokens of segments that are cut off behind `before`, in order. -/
def tokensOf (l : Lexer) : List Byte → List Segment → List Token
  | _, [] => []
  | before, s :: segments =>
    match l.emission s.rule with
    | some make => make (l.matchOf before s) :: tokensOf l (before ++ s.word) segments
    | none => tokensOf l (before ++ s.word) segments

/-- The errors of a place behind `before` where no rule accepts a prefix of `rest`,
or none that is not empty. -/
inductive Refuses (l : Lexer) (matcher : Matcher) (before rest : List Byte) : LexError → Prop
  | unconsumed {failedAt : Nat} :
      (∀ rule u, u <+: rest → ¬l.Accepts rule u) →
      matcher.longestAt (before ++ rest) before.length = .unmatched failedAt →
      Refuses l matcher before rest
        ⟨.unconsumedInput (Utf8.frontText rest) failedAt,
          .behind l.config.firstLine l.config.firstColumn before⟩
  | zeroLength {rule : Nat} :
      l.Accepts rule [] → (∀ other, l.Accepts other [] → rule ≤ other) →
      Refuses l matcher before rest
        ⟨.zeroLengthMatch rule, .behind l.config.firstLine l.config.firstColumn before⟩

/-! ### The compiled form -/

section Realized

variable {l : Lexer} {patterns : List Pattern} {k : Compiled}

theorem Realizes.accepts_iff (h : l.Realizes patterns k) {rule : Nat} {w : List Byte} :
    l.Accepts rule w ↔ Munch.Accepts patterns rule w := by
  obtain ⟨hlength, hget⟩ := List.forall₂_iff_get.1 h.read
  rw [Array.length_toList] at hlength
  constructor
  · rintro ⟨r, p, hr, hp, hw⟩
    obtain ⟨hlt, rfl⟩ := Array.getElem?_eq_some_iff.1 hr
    have hparse := hget rule (by simpa using hlt) (by omega)
    simp only [List.get_eq_getElem, Array.getElem_toList] at hparse
    rw [hparse] at hp
    cases hp
    exact ⟨_, List.getElem?_eq_getElem (by omega), hw⟩
  · rintro ⟨p, hp, hw⟩
    obtain ⟨hlt, rfl⟩ := List.getElem?_eq_some_iff.1 hp
    have hparse := hget rule (by rw [Array.length_toList]; omega) hlt
    simp only [List.get_eq_getElem, Array.getElem_toList] at hparse
    exact ⟨_, _, Array.getElem?_eq_getElem (by omega), hparse, hw⟩

theorem Realizes.accepts_eq (h : l.Realizes patterns k) : l.Accepts = Munch.Accepts patterns := by
  funext rule w
  exact propext h.accepts_iff

theorem Realizes.matched_iff (h : l.Realizes patterns k) {rest : List Byte}
    {found : LongestMatch} :
    k.matcher.longest rest = .matched found ↔ IsLongestMatch l.Accepts rest found := by
  rw [h.longest_eq, h.accepts_eq, Nfa.longest_eq_matched_iff]

theorem Realizes.unmatched_iff (h : l.Realizes patterns k) (rest : List Byte) :
    (∃ read, k.matcher.longest rest = .unmatched read) ↔
      ∀ rule u, u <+: rest → ¬l.Accepts rule u := by
  rw [h.longest_eq, h.accepts_eq, Nfa.exists_unmatched_iff]

theorem Realizes.longest_or (h : l.Realizes patterns k) (rest : List Byte) :
    (∃ found, IsLongestMatch l.Accepts rest found) ∨
      ∀ rule u, u <+: rest → ¬l.Accepts rule u := by
  cases hlongest : k.matcher.longest rest with
  | matched found =>
      exact .inl ⟨found, h.matched_iff.1 hlongest⟩
  | unmatched read =>
      exact .inr ((h.unmatched_iff rest).1 ⟨read, hlongest⟩)

/-- A segment is the match that the matcher finds. -/
theorem Realizes.longest_of_isMunch (h : l.Realizes patterns k) {rest : List Byte} {s : Segment}
    (hs : IsMunch l.Accepts rest s) :
    ∃ others, k.matcher.longest rest = .matched ⟨s.word.length, s.rule, others⟩ := by
  rcases h.longest_or rest with ⟨found, hfound⟩ | hnone
  · obtain rfl := hs.unique (hfound.isMunch (hs.length_ne_zero hfound))
    rw [hfound.length_take]
    exact ⟨found.others, h.matched_iff.2 hfound⟩
  · exact absurd hs.accepted (hnone _ _ hs.front)

/-- What holds of skipping and of the actions of the rules holds of every action that a
rule number stands for. -/
theorem Realizes.forall_action (h : l.Realizes patterns k) {P : Action → Prop} (hskip : P .skip)
    (hactions : ∀ r ∈ l.rules, P r.action) (rule : Nat) : P (k.action rule) := by
  rw [h.action_eq]
  cases hr : l.rules[rule]? with
  | none =>
      exact hskip
  | some r =>
      exact hactions r (Array.mem_of_getElem? hr)

/-- Without custom actions, a rule makes a token or skips. -/
theorem Realizes.action_of_emission (h : l.Realizes patterns k)
    (hactions : ∀ r ∈ l.rules, r.action.isCustom = false) (rule : Nat) :
    k.action rule = (l.emission rule).elim .skip .emit := by
  rw [h.action_eq, emission]
  cases hr : l.rules[rule]? with
  | none =>
      rfl
  | some r =>
      have hcustom := hactions r (Array.mem_of_getElem? hr)
      obtain ⟨index, pattern, action⟩ := r
      cases action with
      | emit make =>
          rfl
      | skip =>
          rfl
      | custom script =>
          cases hcustom

theorem Realizes.isCustom_eq_false (h : l.Realizes patterns k)
    (hactions : ∀ r ∈ l.rules, r.action.isCustom = false) (rule : Nat) :
    (k.action rule).isCustom = false :=
  h.forall_action (P := fun action => action.isCustom = false) rfl hactions rule

variable {text before : List Byte} {c : Cursor text}

/-- A scan at a blocked place fails there. -/
theorem Realizes.scan_of_blocked (h : l.Realizes patterns k)
    (hactions : ∀ r ∈ l.rules, r.action.isCustom = false)
    (hposition : c.position = .behind l.config.firstLine l.config.firstColumn before)
    (hrest : c.rest ≠ []) (hblocked : Blocked l.Accepts c.rest) :
    ∃ e, scan k c = some ⟨.error e, c, []⟩ ∧ l.Refuses k.matcher before c.rest e := by
  rcases h.longest_or c.rest with ⟨found, hfound⟩ | hnone
  · have hlength := hfound.length_eq_zero hblocked
    obtain ⟨haccepts, hlowest⟩ := hfound.isLeast_winner hlength
    refine ⟨_, scan_refuse hrest (h.matched_iff.2 hfound) hlength
      (h.isCustom_eq_false hactions _), ?_⟩
    rw [hposition]
    exact .zeroLength haccepts fun _ hother => hlowest hother
  · obtain ⟨read, hread⟩ := (h.unmatched_iff c.rest).2 hnone
    refine ⟨_, scan_unmatched hrest hread, ?_⟩
    have hoffset : c.offset = before.length := by
      rw [Cursor.offset, hposition]
      rfl
    rw [hposition, hoffset]
    apply Refuses.unconsumed hnone
    rw [Matcher.longestAt, List.drop_left, hread]
    rfl

/-- The loop collects the tokens of the segments, and the error of the place where
they end if that is not the end of the text. -/
theorem Realizes.collect_spec (h : l.Realizes patterns k)
    (hactions : ∀ r ∈ l.rules, r.action.isCustom = false)
    {rest last : List Byte} {segments : List Segment}
    (hcut : Munched l.Accepts rest segments last) (hlast : Blocked l.Accepts last)
    (hposition : c.position = .behind l.config.firstLine l.config.firstColumn before)
    (hrest : c.rest = rest) :
    ∃ ending, (collect k c).map (·.items) =
        some ((l.tokensOf before segments).map .ok ++ ending) ∧
      (last = [] ∧ ending = [] ∨
        last ≠ [] ∧ ∃ e, ending = [.error e] ∧
          l.Refuses k.matcher (before ++ segments.flatMap (·.word)) last e) := by
  induction hcut generalizing before c with
  | stop rest =>
      by_cases hempty : rest = []
      · refine ⟨[], ?_, .inl ⟨hempty, rfl⟩⟩
        rw [collect_of_end (scan_at_end (hrest.trans hempty)) rfl]
        rfl
      · subst hrest
        obtain ⟨e, hscan, hrefuses⟩ := h.scan_of_blocked hactions hposition hempty hlast
        refine ⟨[.error e], ?_, .inr ⟨hempty, e, rfl, ?_⟩⟩
        · rw [collect_of_error hscan rfl]
          rfl
        · simpa using hrefuses
  | @cut rest rest' last s segments hs hsplit hcut ih =>
      rw [hsplit] at hrest
      obtain ⟨others, hlongest⟩ := h.longest_of_isMunch hs
      rw [hsplit, ← hrest] at hlongest
      obtain ⟨hposition', hrest', hstop⟩ := Cursor.advance_spec hs.nonempty hrest hposition
      obtain ⟨ending, hitems, hending⟩ := ih hlast hposition' hrest'
      have haction := h.action_of_emission hactions s.rule
      refine ⟨ending, ?_, ?_⟩
      · cases hemission : l.emission s.rule with
        | none =>
            rw [hemission] at haction
            have hscan := scan_skip hs.nonempty hrest hlongest haction
            rw [h.firstColumn_eq] at hscan
            rw [collect_eq, hscan, ← collect_eq, hitems, tokensOf, hemission]
        | some make =>
            rw [hemission] at haction
            have hscan := scan_emit hs.nonempty hrest hlongest haction
            rw [h.firstColumn_eq, hstop, hposition] at hscan
            rw [items_of_token hscan, hitems, tokensOf, hemission]
            rfl
      · rwa [List.flatMap_cons, ← List.append_assoc]

end Realized

theorem mapM_id_map_ok (tokens : List Token) :
    (tokens.map Except.ok).mapM id = (.ok tokens : Except LexError (List Token)) := by
  induction tokens with
  | nil =>
      rfl
  | cons t tokens ih =>
      rw [List.map_cons, List.mapM_cons, ih]
      rfl

theorem mapM_id_concat_error (tokens : List Token) (e : LexError) :
    (tokens.map Except.ok ++ [Except.error e]).mapM id =
      (.error e : Except LexError (List Token)) := by
  induction tokens with
  | nil =>
      rfl
  | cons t tokens ih =>
      rw [List.map_cons, List.cons_append, List.mapM_cons, ih]
      rfl

/-- What tokenizing comes to, once the text is cut as far as it can be. -/
theorem tokenize_spec {l c : Lexer} {k : Compiled} {patterns : List Pattern}
    (hk : c.compiled = some k) (h : l.Realizes patterns k)
    (hactions : ∀ r ∈ l.rules, r.action.isCustom = false)
    {input last : List Byte} {segments : List Segment}
    (hcut : Munched l.Accepts input segments last) (hlast : Blocked l.Accepts last) :
    last = [] ∧ (c.tokenize input).map (·.outcome) = some (.ok (l.tokensOf [] segments)) ∨
      last ≠ [] ∧ ∃ e, (c.tokenize input).map (·.outcome) = some (.error e) ∧
        l.Refuses k.matcher (segments.flatMap (·.word)) last e := by
  have hposition : (Cursor.atStart input k.firstLine k.firstColumn).position =
      .behind l.config.firstLine l.config.firstColumn [] := by
    rw [h.firstLine_eq, h.firstColumn_eq]
    rfl
  obtain ⟨ending, hitems, hending⟩ := h.collect_spec hactions hcut hlast hposition rfl
  have houtcome : (c.tokenize input).map (·.outcome) =
      some (((l.tokensOf [] segments).map Except.ok ++ ending).mapM id) := by
    obtain ⟨tally, htally, heq⟩ := Option.map_eq_some_iff.1 hitems
    rw [tokenize, scanner, hk]
    simp only [Scanner.new]
    rw [htally, ← heq]
    rfl
  rw [houtcome]
  rcases hending with ⟨hempty, rfl⟩ | ⟨hne, e, rfl, hrefuses⟩
  · rw [List.append_nil, mapM_id_map_ok]
    exact .inl ⟨hempty, rfl⟩
  · rw [mapM_id_concat_error]
    exact .inr ⟨hne, e, rfl, hrefuses⟩

/-- **Tokenizing is maximal munch.**  The tokens of a text are those of its only
segmentation; a text without one fails at the place where cutting stops. -/
theorem tokenize_eq_segmentation {l c : Lexer} {k : Compiled} (hcompile : l.compile = .ok c)
    (hk : c.compiled = some k) (hactions : ∀ r ∈ l.rules, r.action.isCustom = false)
    (input : List Byte) :
    (∀ tokens, (c.tokenize input).map (·.outcome) = some (.ok tokens) ↔
      ∃ segments, Munched l.Accepts input segments [] ∧ tokens = l.tokensOf [] segments) ∧
    (∀ segments₁ segments₂ last₁ last₂, Munched l.Accepts input segments₁ last₁ →
      Munched l.Accepts input segments₂ last₂ → Blocked l.Accepts last₁ →
      Blocked l.Accepts last₂ → segments₁ = segments₂ ∧ last₁ = last₂) ∧
    ((¬∃ segments, Munched l.Accepts input segments []) →
      ∃ segments last e, Munched l.Accepts input segments last ∧ last ≠ [] ∧
        Blocked l.Accepts last ∧ (c.tokenize input).map (·.outcome) = some (.error e) ∧
        l.Refuses k.matcher (segments.flatMap (·.word)) last e) := by
  obtain ⟨patterns, k', rfl, h⟩ := compile_spec hcompile
  obtain rfl : k' = k := Option.some.inj hk
  obtain ⟨segments, last, hcut, hlast⟩ := exists_munched h.longest_or input
  have hspec := tokenize_spec hk h hactions hcut hlast
  refine ⟨?_, ?_, ?_⟩
  · intro tokens
    constructor
    · intro htokens
      rcases hspec with ⟨rfl, houtcome⟩ | ⟨-, e, houtcome, -⟩
      · rw [htokens] at houtcome
        cases houtcome
        exact ⟨segments, hcut, rfl⟩
      · rw [htokens] at houtcome
        cases houtcome
    · rintro ⟨segments', hcut', rfl⟩
      rcases tokenize_spec hk h hactions hcut' blocked_nil with ⟨-, houtcome⟩ | ⟨hne, -⟩
      · exact houtcome
      · exact absurd rfl hne
  · intro segments₁ segments₂ last₁ last₂ hcut₁ hcut₂ hlast₁ hlast₂
    exact hcut₁.unique hlast₁ hcut₂ hlast₂
  · intro hnone
    rcases hspec with ⟨rfl, -⟩ | ⟨hne, e, houtcome, hrefuses⟩
    · exact absurd ⟨segments, hcut⟩ hnone
    · exact ⟨segments, last, e, hcut, hne, hlast, houtcome, hrefuses⟩

theorem eq_of_accepts_letter {action : Action} {determinize : Bool} {rule : Nat} {u : List Byte}
    (h : (letterLexer action determinize).Accepts rule u) : u = [97] := by
  obtain ⟨r, p, hr, hp, hu⟩ := h
  obtain ⟨hlt, rfl⟩ := Array.getElem?_eq_some_iff.1 hr
  obtain rfl : rule = 0 := Nat.lt_one_iff.1 hlt
  obtain rfl : .literal [97] = p := Except.ok.inj (parse_letter.symm.trans hp)
  obtain ⟨b, hb, rfl⟩ := hu
  rw [ByteSet.contains_single, decide_eq_true_eq] at hb
  rw [hb]

theorem isMunch_letter (action : Action) (determinize : Bool) (rest : List Byte) :
    IsMunch (letterLexer action determinize).Accepts (97 :: rest) ⟨0, [97]⟩ where
  nonempty := List.cons_ne_nil 97 []
  front := ⟨rest, rfl⟩
  accepted := ⟨_, _, rfl, parse_letter, 97, by decide, rfl⟩
  greatest := by
    intro rule u _ hu
    rw [eq_of_accepts_letter hu]
  lowest := fun _ _ => Nat.zero_le _

theorem tokenize_eq_segmentation_letter :
    ∃ c k, (letterLexer (.token ⟨7⟩) true).compile = .ok c ∧ c.compiled = some k ∧
      (∀ r ∈ (letterLexer (.token ⟨7⟩) true).rules, r.action.isCustom = false) ∧
      (c.tokenize [97, 97]).map (·.outcome) =
        some (.ok [⟨⟨7⟩, "a", [97], ⟨⟨0, 1, 1⟩, ⟨0, 1, 1⟩⟩⟩,
          ⟨⟨7⟩, "a", [97], ⟨⟨1, 1, 2⟩, ⟨1, 1, 2⟩⟩⟩]) := by
  obtain ⟨c, k, hc, hk⟩ := exists_compile_letter (.token ⟨7⟩) true
  have hactions : ∀ r ∈ (letterLexer (.token ⟨7⟩) true).rules, r.action.isCustom = false :=
    forall_mem_rules_letter (P := fun action => action.isCustom = false) rfl true
  refine ⟨c, k, hc, hk, hactions, ?_⟩
  apply ((tokenize_eq_segmentation hc hk hactions [97, 97]).1 _).2
  refine ⟨[⟨0, [97]⟩, ⟨0, [97]⟩], ?_, by decide +kernel⟩
  exact .cut (isMunch_letter _ true [97]) rfl (.cut (isMunch_letter _ true []) rfl (.stop []))

end Lexer
end Munch
