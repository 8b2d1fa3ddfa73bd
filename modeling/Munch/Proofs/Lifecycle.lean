import Munch.Proofs.Compilation
import Munch.Proofs.Dfa.Exactness
import Munch.Proofs.Scan.Failure

/-!
# The life of a lexer

Rules are added to a lexer, it is compiled, used, copied, and rules are added again.
Whatever the order, a compiled form that is there is the one that compiling the present
rules would give.

**Invariant.**  The rules are those that were added, in that order and numbered by their
places, compiling a compiled lexer gives it back, and a lexer is compiled when its last
successful compilation is later than the last rule.

**Results.**
* `compile_eq_error_iff`: when compiling fails, and with which error.
* `Traced.after`: one operation keeps the invariant.
* `lexers_eq_map`: each of several lexers has gone through its own history only.
* `lexers_sound`: all lexers, after any commands.
-/

namespace Munch
namespace Lexer

/-! ### Reading and compiling -/

theorem readPatterns_cons_eq_error_iff {first : Rule} {rules : List Rule} {p : Pattern}
    {e : LexError} (hp : Pattern.parse first.pattern = .ok p) :
    readPatterns (first :: rules) = .error e ↔ readPatterns rules = .error e := by
  cases hrules : readPatterns rules <;> simp [readPatterns, hp, hrules]

/-- Reading fails at the first pattern that cannot be read. -/
theorem readPatterns_eq_error_iff {rules : List Rule} {e : LexError} :
    readPatterns rules = .error e ↔
      ∃ (n : Nat) (rule : Rule) (fault : PatternError), rules[n]? = some rule ∧
        Pattern.parse rule.pattern = .error fault ∧
        (∀ m < n, ∀ earlier : Rule, rules[m]? = some earlier →
          ∃ p, Pattern.parse earlier.pattern = .ok p) ∧
        e = ⟨.invalidPattern rule.index fault.offset fault.reason.message, Position.null⟩ := by
  induction rules with
  | nil =>
      simp [readPatterns]
  | cons first rules ih =>
      cases hparse : Pattern.parse first.pattern with
      | error fault =>
          simp only [readPatterns, hparse]
          constructor
          · rintro ⟨⟩
            exact ⟨0, first, fault, rfl, hparse, fun m hm => absurd hm (Nat.not_lt_zero m), rfl⟩
          · rintro ⟨n, rule, fault', hrule, hfault, hearlier, rfl⟩
            cases n with
            | zero =>
                cases hrule
                cases hparse.symm.trans hfault
                rfl
            | succ n =>
                obtain ⟨p, hp⟩ := hearlier 0 (Nat.succ_pos n) first rfl
                cases hparse.symm.trans hp
      | ok p =>
          rw [readPatterns_cons_eq_error_iff hparse, ih]
          constructor
          · rintro ⟨n, rule, fault, hrule, hfault, hearlier, rfl⟩
            refine ⟨n + 1, rule, fault, hrule, hfault, ?_, rfl⟩
            rintro (_ | m) hm earlier hget
            · cases hget
              exact ⟨p, hparse⟩
            · exact hearlier m (by omega) earlier hget
          · rintro ⟨_ | n, rule, fault, hrule, hfault, hearlier, rfl⟩
            · cases hrule
              cases hparse.symm.trans hfault
            · exact ⟨n, rule, fault, hrule, hfault,
                fun m hm => hearlier (m + 1) (by omega), rfl⟩

/-- Whatever rule a compiled form reports, it has an action for it. -/
theorem UpToDate.lt_size {l : Lexer} {k : Compiled} (h : l.UpToDate k) {text : List Byte}
    {found : LongestMatch} (hfound : k.matcher.longest text = .matched found) {rule : Nat}
    (hrule : rule ∈ found.rules) : rule < k.actions.size := by
  obtain ⟨patterns, hk⟩ := h.realizes
  rw [hk.longest_eq, Nfa.longest_eq_matched_iff] at hfound
  obtain ⟨p, hp, -⟩ := (hfound.mem_rules rule).1 hrule
  obtain ⟨hlt, -⟩ := List.getElem?_eq_some_iff.1 hp
  rw [h.actions_eq, Array.size_map, ← Array.length_toList, hk.read.length_eq]
  exact hlt

/-- The errors of compiling a lexer whose rules are numbered by their places. -/
inductive FailsWith (l : Lexer) : LexError → Prop
  /-- The pattern of the rule is the first that cannot be read. -/
  | pattern {n : Nat} {rule : Rule} {fault : PatternError} :
      l.rules[n]? = some rule → Pattern.parse rule.pattern = .error fault →
      (∀ m < n, ∀ earlier : Rule, l.rules[m]? = some earlier →
        ∃ p, Pattern.parse earlier.pattern = .ok p) →
      FailsWith l ⟨.invalidPattern n fault.offset fault.reason.message, Position.null⟩
  /-- All patterns can be read, but the table of their automaton has no room. -/
  | size {patterns : List Pattern} :
      List.Forall₂ (fun rule p => Pattern.parse rule.pattern = .ok p) l.rules.toList patterns →
      l.config.determinize = true →
      max l.config.maxDfaStates 2 < 1 + (Nfa.ofPatterns patterns).reachableSets.ncard →
      FailsWith l ⟨.automatonTooLarge (max l.config.maxDfaStates 2 + 1) l.config.maxDfaStates,
        Position.null⟩

theorem build_eq_error_iff {patterns : List Pattern} {config : Config} {kind : ErrorKind} :
    Matcher.build patterns config = .error kind ↔
      config.determinize = true ∧
      max config.maxDfaStates 2 < 1 + (Nfa.ofPatterns patterns).reachableSets.ncard ∧
      kind = .automatonTooLarge (max config.maxDfaStates 2 + 1) config.maxDfaStates := by
  have hne := Nfa.initial_ofPatterns_ne_nil patterns
  cases hconfig : config.determinize with
  | false =>
      simp [Matcher.build, hconfig]
  | true =>
      by_cases hroom :
          1 + (Nfa.ofPatterns patterns).reachableSets.ncard ≤ max config.maxDfaStates 2
      · obtain ⟨dfa, hdfa⟩ := (Dfa.exists_ofNfa_iff hne).2 hroom
        simp [Matcher.build, hconfig, hdfa, Nat.not_lt.2 hroom]
      · simp [Matcher.build, hconfig, Dfa.ofNfa_eq_error hne hroom, Nat.lt_of_not_le hroom,
          eq_comm]

theorem compile_eq_error_iff {l : Lexer}
    (hindex : ∀ (n : Nat) (rule : Rule), l.rules[n]? = some rule → rule.index = n) {e : LexError} :
    l.compile = .error e ↔ l.FailsWith e := by
  rw [compile]
  constructor
  · intro h
    split at h
    · rename_i e' hread
      cases h
      obtain ⟨n, rule, fault, hrule, hfault, hearlier, rfl⟩ := readPatterns_eq_error_iff.1 hread
      simp only [Array.getElem?_toList] at hrule hearlier
      rw [hindex n rule hrule]
      exact .pattern hrule hfault hearlier
    · rename_i patterns hread
      split at h
      · rename_i kind hbuild
        cases h
        obtain ⟨hconfig, hroom, rfl⟩ := build_eq_error_iff.1 hbuild
        exact .size (readPatterns_eq_ok_iff.1 hread) hconfig hroom
      · cases h
  · intro h
    cases h with
    | @pattern n rule fault hrule hfault hearlier =>
        simp only [← Array.getElem?_toList] at hrule hearlier
        have hread := readPatterns_eq_error_iff.2 ⟨n, rule, fault, hrule, hfault, hearlier, rfl⟩
        rw [Array.getElem?_toList] at hrule
        rw [hread, hindex n rule hrule]
    | size hread hconfig hroom =>
        rw [readPatterns_eq_ok_iff.2 hread]
        simp only [build_eq_error_iff.2 ⟨hconfig, hroom, rfl⟩]

/-! ### Lexers that are not compiled -/

theorem scanner_eq_error_iff {l : Lexer} {text : List Byte} {e : LexError} :
    l.scanner text = .error e ↔
      l.isCompiled = false ∧ e = ⟨.notCompiled, Position.null⟩ := by
  cases hk : l.compiled <;> simp [scanner, isCompiled, hk, eq_comm]

theorem mem_of_mapM_id_eq_error {items : List (Except LexError Token)} {e : LexError}
    (h : items.mapM id = .error e) : .error e ∈ items := by
  induction items with
  | nil =>
      cases h
  | cons item items ih =>
      rw [List.mapM_cons] at h
      cases item with
      | error e' =>
          cases h
          exact List.mem_cons_self
      | ok t =>
          cases hitems : items.mapM id with
          | error e' =>
              rw [hitems] at h
              cases h
              exact List.mem_cons_of_mem _ (ih hitems)
          | ok tokens =>
              rw [hitems] at h
              cases h

/-- Errors of scans are never about the lexer. -/
theorem kind_ne_of_collect {text : List Byte} {k : Compiled} {c : Cursor text}
    {tally : Tally text (Except LexError Token)} (h : collect k c = some tally) {e : LexError}
    (he : .error e ∈ tally.items) : e.kind ≠ .notCompiled := by
  induction c using Cursor.induction_further generalizing tally with
  | step c ih =>
      obtain ⟨s, hs, ⟨-, rfl⟩ | ⟨e', hresult, rfl⟩ | ⟨t, later, hresult, hlater, rfl⟩⟩ :=
        exists_scan_of_collect h
      · cases he
      · cases List.mem_singleton.1 he
        rcases (exists_fails_of_scan hs hresult).2.1.kind_eq with
          ⟨front, failedAt, hkind⟩ | ⟨rule, hkind⟩ | ⟨rule, message, hkind⟩ <;>
        · rw [hkind]
          rintro ⟨⟩
      · rcases List.mem_cons.1 he with heq | he
        · cases heq
        · exact ih (rest_ne_nil_of_token hs hresult) s.cursor
            (offset_lt_of_token hs hresult) hlater he

theorem tokenize_notCompiled_iff {l : Lexer} {text : List Byte} :
    (∃ t e, l.tokenize text = some t ∧ t.outcome = .error e ∧ e.kind = .notCompiled) ↔
      l.isCompiled = false := by
  constructor
  · rintro ⟨t, e, ht, he, hkind⟩
    cases hcompiled : l.compiled with
    | none =>
        simp [isCompiled, hcompiled]
    | some k =>
        have hstart : l.scanner text = .ok (Scanner.new k text) := by
          rw [scanner, hcompiled]
        rw [tokenize, hstart] at ht
        obtain ⟨tally, htally, rfl⟩ := Option.map_eq_some_iff.1 ht
        exact absurd hkind (kind_ne_of_collect htally (mem_of_mapM_id_eq_error he))
  · intro h
    have herror : l.scanner text = .error ⟨.notCompiled, Position.null⟩ :=
      scanner_eq_error_iff.2 ⟨h, rfl⟩
    refine ⟨⟨.error ⟨.notCompiled, Position.null⟩, []⟩, _, ?_, rfl, rfl⟩
    rw [tokenize, herror]

/-! ### One lexer -/

/-- What can be asked of a lexer, apart from a copy. -/
inductive Operation
  | add (pattern : List Byte) (action : Action)
  | compile
  | scanner (text : List Byte)
  | tokenize (text : List Byte)

/-- Whether a rule is added. -/
def Operation.isAdd : Operation → Bool
  | add .. => true
  | _ => false

/-- The pattern and the action of the rule that an operation adds. -/
def Operation.added? : Operation → Option (List Byte × Action)
  | add pattern action => some (pattern, action)
  | _ => none

theorem Operation.added?_eq_none_iff {operation : Operation} :
    operation.added? = none ↔ operation.isAdd = false := by
  cases operation <;> simp [added?, isAdd]

/-- The lexer that an operation leaves behind. -/
def after (l : Lexer) : Operation → Lexer
  | .add pattern action => l.add pattern action
  | .compile =>
    match l.compile with
    | .ok compiled => compiled
    | .error _ => l
  | .scanner _ => l
  | .tokenize _ => l

/-- The lexer that has gone through the operations, in order. -/
def afterAll (config : Config) (history : List Operation) : Lexer :=
  history.foldl after (new config)

theorem afterAll_concat (config : Config) (history : List Operation) (operation : Operation) :
    afterAll config (history ++ [operation]) = (afterAll config history).after operation := by
  rw [afterAll, List.foldl_concat]
  rfl

/-- A compilation has succeeded, and no rule was added since. -/
def CompiledSince (config : Config) (history : List Operation) : Prop :=
  ∃ earlier later, history = earlier ++ .compile :: later ∧
    (∀ operation ∈ later, operation.isAdd = false) ∧
    ∃ c, (afterAll config earlier).compile = .ok c

theorem not_compiledSince_nil (config : Config) : ¬CompiledSince config [] := by
  rintro ⟨earlier, later, h, -⟩
  simp at h

theorem compiledSince_concat_iff {config : Config} {history : List Operation}
    {operation : Operation} :
    CompiledSince config (history ++ [operation]) ↔
      operation.isAdd = false ∧ CompiledSince config history ∨
      operation = .compile ∧ ∃ c, (afterAll config history).compile = .ok c := by
  constructor
  · rintro ⟨earlier, later, hsplit, hlater, hcompile⟩
    cases later using List.reverseRecOn with
    | nil =>
        obtain ⟨rfl, hlast⟩ := List.append_inj' hsplit rfl
        exact .inr ⟨List.singleton_inj.1 hlast, hcompile⟩
    | append_singleton later last =>
        rw [← List.cons_append, ← List.append_assoc] at hsplit
        obtain ⟨rfl, hlast⟩ := List.append_inj' hsplit rfl
        rw [List.singleton_inj.1 hlast]
        exact .inl ⟨hlater last (by simp), earlier, later, rfl,
          fun op hop => hlater op (by simp [hop]), hcompile⟩
  · rintro (⟨hoperation, earlier, later, rfl, hlater, hcompile⟩ | ⟨rfl, hcompile⟩)
    · refine ⟨earlier, later ++ [operation], by simp, ?_, hcompile⟩
      intro op hop
      rcases List.mem_append.1 hop with hop | hop
      · exact hlater op hop
      · rwa [List.mem_singleton.1 hop]
    · exact ⟨history, [], rfl, by simp, hcompile⟩

/-- What operations keep of a lexer with the given history. -/
structure Traced (config : Config) (history : List Operation) (l : Lexer) : Prop where
  config_eq : l.config = config
  /-- No rule was lost, changed or moved, and none came from elsewhere. -/
  rules_eq : l.rules.toList.map (fun rule => (rule.pattern, rule.action)) =
    history.filterMap Operation.added?
  index_eq : ∀ (n : Nat) (rule : Rule), l.rules[n]? = some rule → rule.index = n
  upToDate : ∀ k, l.compiled = some k → l.UpToDate k
  isCompiled_iff : l.isCompiled = true ↔ CompiledSince config history

section Steps

variable {config : Config} {history : List Operation} {l : Lexer}

theorem traced_new (config : Config) : Traced config [] (new config) where
  config_eq := rfl
  rules_eq := rfl
  index_eq := by
    rintro n rule ⟨⟩
  upToDate := by
    rintro k ⟨⟩
  isCompiled_iff := by
    simp [not_compiledSince_nil, isCompiled, new]

theorem Traced.add (h : Traced config history l) (pattern : List Byte) (action : Action) :
    Traced config (history ++ [.add pattern action]) (l.add pattern action) where
  config_eq := h.config_eq
  rules_eq := by
    rw [Lexer.add, Array.toList_push, List.map_append, h.rules_eq, List.filterMap_append]
    rfl
  index_eq := by
    intro n rule hrule
    rw [Lexer.add, Array.getElem?_push] at hrule
    split at hrule
    · cases hrule
      exact Eq.symm ‹_›
    · exact h.index_eq n rule hrule
  upToDate := by
    rintro k ⟨⟩
  isCompiled_iff := by
    simp [compiledSince_concat_iff, Operation.isAdd, isCompiled, Lexer.add]

/-- Operations other than adding a rule add nothing to what the history says of the rules. -/
theorem Traced.rules_eq_concat (h : Traced config history l) {operation : Operation}
    (hadd : operation.isAdd = false) :
    l.rules.toList.map (fun rule => (rule.pattern, rule.action)) =
      (history ++ [operation]).filterMap Operation.added? := by
  have hnone := Operation.added?_eq_none_iff.2 hadd
  simp [h.rules_eq, hnone]

/-- Uses of a lexer leave it as it is. -/
theorem Traced.use (h : Traced config history l) {operation : Operation}
    (hadd : operation.isAdd = false) (hcompile : operation ≠ .compile) :
    Traced config (history ++ [operation]) l where
  config_eq := h.config_eq
  rules_eq := h.rules_eq_concat hadd
  index_eq := h.index_eq
  upToDate := h.upToDate
  isCompiled_iff := by
    rw [compiledSince_concat_iff, h.isCompiled_iff]
    simp [hadd, hcompile]

theorem Traced.compile (h : Traced config history l) (hl : l = afterAll config history) :
    Traced config (history ++ [.compile]) (l.after .compile) := by
  rw [after]
  cases hcompile : l.compile with
  | error e =>
      refine ⟨h.config_eq, h.rules_eq_concat rfl, h.index_eq, h.upToDate, ?_⟩
      rw [compiledSince_concat_iff, h.isCompiled_iff, ← hl, hcompile]
      simp [Operation.isAdd]
  | ok c =>
      obtain ⟨k, rfl, hk⟩ := compile_eq_ok_iff.1 hcompile
      refine ⟨h.config_eq, h.rules_eq_concat rfl, h.index_eq, ?_, ?_⟩
      · -- The compiled form itself plays no part in what it should be.
        rintro k' ⟨⟩
        exact ⟨hk.build_eq, hk.actions_eq, hk.firstLine_eq, hk.firstColumn_eq⟩
      · rw [compiledSince_concat_iff, ← hl, hcompile]
        simp [isCompiled]

theorem Traced.after (h : Traced config history l) (hl : l = afterAll config history)
    (operation : Operation) : Traced config (history ++ [operation]) (l.after operation) := by
  cases operation with
  | add pattern action =>
      exact h.add pattern action
  | compile =>
      exact h.compile hl
  | scanner text =>
      exact h.use rfl (by rintro ⟨⟩)
  | tokenize text =>
      exact h.use rfl (by rintro ⟨⟩)

end Steps

theorem traced_afterAll (config : Config) (history : List Operation) :
    Traced config history (afterAll config history) := by
  induction history using List.reverseRecOn with
  | nil =>
      exact traced_new config
  | append_singleton history operation ih =>
      rw [afterAll_concat]
      exact ih.after rfl operation

/-! ### Several lexers -/

/-- Something done with one of several lexers: an operation, or a copy. -/
inductive Command
  | apply (target : Nat) (operation : Operation)
  | clone (target : Nat)

/-- One command, where `f` is what an operation does to what is kept of a lexer.  A copy
is put behind the others. -/
def Command.run {α : Type} (f : α → Operation → α) (kept : List α) : Command → List α
  | apply target operation => kept.modify target (f · operation)
  | clone target => kept ++ (kept[target]?).toList

/-- The lexers that commands make of a first one. -/
def lexers (config : Config) (commands : List Command) : List Lexer :=
  commands.foldl (Command.run after) [new config]

/-- The operations that each lexer has gone through, before and after it was copied. -/
def histories (commands : List Command) : List (List Operation) :=
  commands.foldl (Command.run fun history operation => history ++ [operation]) [[]]

theorem Command.map_run {α β : Type} {f : α → Operation → α} {f' : β → Operation → β}
    {g : α → β} (hg : ∀ x operation, g (f x operation) = f' (g x) operation) (kept : List α)
    (command : Command) : (command.run f kept).map g = command.run f' (kept.map g) := by
  cases command with
  | apply target operation =>
      rw [run, run]
      apply List.ext_getElem?
      intro n
      simp only [List.getElem?_map, List.getElem?_modify]
      cases kept[n]? with
      | none =>
          rfl
      | some x =>
          by_cases htarget : target = n <;> simp [htarget, hg]
  | clone target =>
      simp only [run, List.map_append, List.getElem?_map]
      cases kept[target]? <;> rfl

theorem lexers_eq_map (config : Config) (commands : List Command) :
    lexers config commands = (histories commands).map (afterAll config) := by
  induction commands using List.reverseRecOn with
  | nil =>
      rfl
  | append_singleton commands command ih =>
      rw [lexers, histories, List.foldl_concat, List.foldl_concat, ← lexers, ← histories, ih,
        Command.map_run (afterAll_concat config)]

example : histories [.apply 0 .compile, .clone 0, .apply 1 (.scanner []), .apply 2 .compile] =
    [[.compile], [.compile, .scanner []]] := rfl

/-- What holds of a lexer at any time, whatever it has gone through. -/
structure Sound (config : Config) (history : List Operation) (l : Lexer) : Prop
    extends Traced config history l where
  /-- There is an action for every rule that the matcher can report. -/
  rule_lt_size : ∀ k, l.compiled = some k → ∀ text found,
    k.matcher.longest text = .matched found → ∀ rule ∈ found.rules, rule < k.actions.size
  compile_again : l.isCompiled = true → l.compile = .ok l
  compile_eq_error_iff : ∀ e, l.compile = .error e ↔ l.FailsWith e
  after_failure : ∀ e, l.compile = .error e → l.after .compile = l
  scanner_iff : ∀ text, l.scanner text = .error ⟨.notCompiled, Position.null⟩ ↔
    l.isCompiled = false
  tokenize_iff : ∀ text,
    (∃ t e, l.tokenize text = some t ∧ t.outcome = .error e ∧ e.kind = .notCompiled) ↔
      l.isCompiled = false

theorem Traced.sound {config : Config} {history : List Operation} {l : Lexer}
    (h : Traced config history l) : Sound config history l where
  toTraced := h
  rule_lt_size := fun k hk _ _ hfound _ => (h.upToDate k hk).lt_size hfound
  compile_again := by
    intro hcompiled
    obtain ⟨k, hk⟩ := Option.isSome_iff_exists.1 hcompiled
    refine compile_eq_ok_iff.2 ⟨k, ?_, h.upToDate k hk⟩
    rw [← hk]
  compile_eq_error_iff := fun _ => Lexer.compile_eq_error_iff h.index_eq
  after_failure := by
    intro e he
    rw [Lexer.after, he]
  scanner_iff := fun _ => scanner_eq_error_iff.trans (and_iff_left rfl)
  tokenize_iff := fun _ => tokenize_notCompiled_iff

/-- **A compiled form is never stale.**  After any commands, each lexer has the rules that its
own history has added, in that order.  It is compiled when that history says so, and then by
the matcher and the actions of these rules. -/
theorem lexers_sound (config : Config) (commands : List Command) :
    List.Forall₂ (Sound config) (histories commands) (lexers config commands) := by
  rw [lexers_eq_map, List.forall₂_map_right_iff, List.forall₂_same]
  intro history _
  exact (traced_afterAll config history).sound

end Lexer
end Munch
