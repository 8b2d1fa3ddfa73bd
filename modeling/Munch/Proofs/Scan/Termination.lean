import Munch.Proofs.Scan.Course

/-!
# Which scans end

`scan` has no result where a script asks for a token at the very place where its own
match began.  To see that these are just the scans that would go on for ever, they are
compared with scans in which scripts may ask anywhere and only the depth of the
recursion is bounded.

The recursion cannot be deep otherwise: every scan inside another begins further on,
and so does the attempt after one that has skipped its match.

**Results.**
* `scan_eq_some_iff_scanWithin`, `scanWithin_of_scan`: a scan has a result when one is
  found within some depth, and then a depth of one more than the bytes left is enough.
* `exists_scan`: scans end if scripts ask for tokens only behind the place where their
  match began.
-/

namespace Munch

variable {text : List Byte}

/-- Scanning within a bounded depth of recursion, where scripts may ask for tokens
anywhere. -/
def scanWithin (k : Compiled) : Nat → Cursor text → Option (Scan text)
  | 0, _ => none
  | depth + 1, c =>
    (k.attempt (scanWithin k depth) c).bind (Attempt.conclude (scanWithin k depth) c)

section Depth

variable {k : Compiled} {c : Cursor text} {s : Scan text}

theorem goesForward_scanWithin (k : Compiled) (depth : Nat) :
    GoesForward k.firstColumn (scanWithin k depth : Cursor text → Option (Scan text)) := by
  induction depth with
  | zero =>
      intro c s h
      cases h
  | succ depth ih =>
      intro c s h
      obtain ⟨a, ha, hs⟩ := Option.bind_eq_some_iff.1 h
      exact Attempt.conclude_leads (Compiled.attempt_leaves ih ha) (fun d s' _ => ih d s') hs

/-- A scan that ends within a depth ends in the same way within a greater one. -/
theorem scanWithin_succ {depth : Nat} (h : scanWithin k depth c = some s) :
    scanWithin k (depth + 1) c = some s := by
  induction depth generalizing c s with
  | zero =>
      cases h
  | succ depth ih =>
      obtain ⟨a, ha, hs⟩ := Option.bind_eq_some_iff.1 h
      have hforward : GoesForward k.firstColumn (scanWithin k depth : Cursor text → _) :=
        goesForward_scanWithin k depth
      have ha' := Compiled.attempt_mono hforward (fun d s' _ hd => ih hd) ha
      have hs' := Attempt.conclude_mono (fun d s' _ hd => ih hd)
        (Compiled.attempt_leaves hforward ha) hs
      exact Option.bind_eq_some_iff.2 ⟨a, ha', hs'⟩

theorem scanWithin_mono {m n : Nat} (hmn : m ≤ n) (h : scanWithin k m c = some s) :
    scanWithin k n c = some s := by
  induction hmn with
  | refl =>
      exact h
  | step _ ih =>
      exact scanWithin_succ ih

-- The induction is on the depth.  A scan that ends within a smaller depth is left to the
-- induction hypothesis; in any other, a scan asked for at the same place would not end
-- within the depth that remains for it.
theorem scan_of_scanWithin {depth : Nat} (h : scanWithin k depth c = some s) :
    scan k c = some s := by
  induction depth generalizing c s with
  | zero =>
      cases h
  | succ depth ih =>
      cases hless : scanWithin k depth c with
      | some s' =>
          rw [scanWithin_succ hless] at h
          cases h
          exact ih hless
      | none =>
          obtain ⟨a, ha, hs⟩ := Option.bind_eq_some_iff.1 h
          have hforward : GoesForward k.firstColumn (scanWithin k depth : Cursor text → _) :=
            goesForward_scanWithin k depth
          have hinner : ∀ d s', Cursor.Leads k.firstColumn c d →
              scanWithin k depth d = some s' → k.inner c d = some s' := by
            intro d s' hleads hd
            have hfurther : c.offset < d.offset := by
              by_contra hle
              obtain rfl := hleads.eq_of_offset_le (Nat.le_of_not_lt hle)
              rw [hless] at hd
              cases hd
            exact Compiled.inner_eq_some.2 ⟨hfurther, ih hd⟩
          rw [k.scan_eq_attempt, Compiled.attempt_mono hforward hinner ha]
          exact Attempt.conclude_mono (fun d s' _ hd => ih hd)
            (Compiled.attempt_leaves hforward ha) hs

/-- A depth of one more than the bytes left is enough. -/
theorem scanWithin_of_scan (h : scan k c = some s) :
    scanWithin k (text.length - c.offset + 1) c = some s := by
  induction c using Cursor.induction_further generalizing s with
  | step c ih =>
      rw [k.scan_eq_attempt] at h
      obtain ⟨a, ha, hs⟩ := Option.bind_eq_some_iff.1 h
      have hleaves := Compiled.attempt_leaves (k.goesForward_inner c) ha
      by_cases hrest : c.rest = []
      · rw [Compiled.attempt_at_end hrest] at ha
        cases ha
        rw [scanWithin, Compiled.attempt_at_end hrest]
        exact hs
      · have hlt := Cursor.offset_lt hrest
        have hdepth : ∀ (d : Cursor text) (s' : Scan text), c.offset < d.offset →
            scan k d = some s' → scanWithin k (text.length - c.offset) d = some s' := by
          intro d s' hd hscan
          exact scanWithin_mono (by omega) (ih hrest d hd hscan)
        have hinner : ∀ d s', Cursor.Leads k.firstColumn c d → k.inner c d = some s' →
            scanWithin k (text.length - c.offset) d = some s' := by
          intro d s' _ hd
          obtain ⟨hfurther, hscan⟩ := Compiled.inner_eq_some.1 hd
          exact hdepth d s' hfurther hscan
        rw [scanWithin, Compiled.attempt_mono (k.goesForward_inner c) hinner ha]
        exact Attempt.conclude_mono hdepth hleaves hs

/-- A scan has a result when it ends within some depth of recursion. -/
theorem scan_eq_some_iff_scanWithin :
    scan k c = some s ↔ ∃ depth, scanWithin k depth c = some s :=
  ⟨fun h => ⟨_, scanWithin_of_scan h⟩, fun ⟨_, h⟩ => scan_of_scanWithin h⟩

end Depth

/-! ### Scripts that ask for tokens behind their match only -/

/-- The script of an attempt made at `c` asks for tokens only behind `c`. -/
def Compiled.AsksBehind (k : Compiled) (c : Cursor text) : Prop :=
  ∀ {a : Script} {d e : Cursor text} {go : ScanResult → Script}, k.Starts c a d →
    Script.Comes k (a, d) (.next go, e) → c.offset < e.offset

section Ends

variable {k : Compiled}

/-- A script ends if the scans that it asks for do. -/
theorem Script.exists_run {next : Cursor text → Option (Scan text)} {script : Script}
    {c : Cursor text}
    (hnext : ∀ go d, Script.Comes k (script, c) (.next go, d) →
      ∃ s, next d = some s ∧ scan k d = some s) :
    ∃ p, script.run k.firstColumn next c = some p := by
  induction script generalizing c with
  | finish verdict =>
      exact ⟨_, rfl⟩
  | look go ih =>
      obtain ⟨p, hp⟩ := ih _ (fun go' d hd => hnext go' d (.head (.look go c) hd))
      exact ⟨p, hp⟩
  | advance n go ih =>
      obtain ⟨p, hp⟩ := ih _ (fun go' d hd => hnext go' d (.head (.advance n go c) hd))
      exact ⟨_, Option.map_eq_some_iff.2 ⟨p, hp, rfl⟩⟩
  | advanceTo target go ih =>
      obtain ⟨p, hp⟩ := ih _ (fun go' d hd => hnext go' d (.head (.advanceTo target go c) hd))
      exact ⟨_, Option.map_eq_some_iff.2 ⟨p, hp, rfl⟩⟩
  | next go ih =>
      obtain ⟨s, hs, hscan⟩ := hnext go c .refl
      obtain ⟨p, hp⟩ := ih s.result (fun go' d hd => hnext go' d (.head (.next go hscan) hd))
      rw [run, hs]
      exact ⟨_, Option.map_eq_some_iff.2 ⟨p, hp, rfl⟩⟩

theorem Compiled.exists_perform {c : Cursor text} {found : LongestMatch} (hrest : c.rest ≠ [])
    (hfound : k.matcher.longest c.rest = .matched found) (hasks : k.AsksBehind c)
    (hscan : ∀ d, Cursor.Leads k.firstColumn c d → c.offset < d.offset → ∃ s, scan k d = some s) :
    ∃ p, (k.action found.winner).perform k.firstColumn (k.inner c) (k.matchAt c found)
      (k.behind c found) = some p := by
  cases haction : k.action found.winner with
  | emit make =>
      exact ⟨_, rfl⟩
  | skip =>
      exact ⟨_, rfl⟩
  | custom script =>
      have hstarts : k.Starts c (script (k.matchAt c found)) (k.behind c found) :=
        .intro hrest hfound haction
      have hrun : ∃ p, (script (k.matchAt c found)).run k.firstColumn (k.inner c)
          (k.behind c found) = some p := by
        apply Script.exists_run
        intro go d hcomes
        have hfurther := hasks hstarts hcomes
        obtain ⟨s, hs⟩ := hscan d (hstarts.leads.trans hcomes.leads) hfurther
        exact ⟨s, inner_eq_some.2 ⟨hfurther, hs⟩, hs⟩
      obtain ⟨p, hp⟩ := hrun
      exact ⟨_, Option.map_eq_some_iff.2 ⟨p, hp, rfl⟩⟩

theorem Compiled.exists_attempt {c : Cursor text} (hasks : k.AsksBehind c)
    (hscan : c.rest ≠ [] → ∀ d, Cursor.Leads k.firstColumn c d → c.offset < d.offset →
      ∃ s, scan k d = some s) :
    ∃ a, k.attempt (k.inner c) c = some a := by
  by_cases hrest : c.rest = []
  · exact ⟨_, attempt_at_end hrest⟩
  · rw [attempt, if_neg hrest]
    split
    · exact ⟨_, rfl⟩
    · rename_i found hfound
      split
      · exact ⟨_, rfl⟩
      · obtain ⟨p, hp⟩ := exists_perform hrest hfound hasks (hscan hrest)
        exact ⟨_, Option.map_eq_some_iff.2 ⟨p, hp, rfl⟩⟩

/-- A scan ends if scripts ask for tokens only behind the place where their match began. -/
theorem exists_scan {c : Cursor text}
    (hasks : ∀ d, Cursor.Leads k.firstColumn c d → k.AsksBehind d) : ∃ s, scan k c = some s := by
  induction c using Cursor.induction_further with
  | step c ih =>
      have hfurther : c.rest ≠ [] → ∀ d, Cursor.Leads k.firstColumn c d → c.offset < d.offset →
          ∃ s, scan k d = some s := by
        intro hrest d hleads hlt
        exact ih hrest d hlt (fun e he => hasks e (hleads.trans he))
      obtain ⟨a, ha⟩ := Compiled.exists_attempt (hasks c (.refl c)) hfurther
      rw [k.scan_eq_attempt, ha]
      cases a with
      | ended =>
          exact ⟨_, rfl⟩
      | failed kind runs =>
          exact ⟨_, rfl⟩
      | made t d runs =>
          exact ⟨_, rfl⟩
      | skipped d runs =>
          have hrest := Compiled.rest_ne_nil_of_skipped ha
          obtain ⟨hleads, hlt⟩ := Compiled.attempt_leaves (k.goesForward_inner c) ha
          obtain ⟨s, hs⟩ := hfurther hrest d hleads hlt
          exact ⟨_, Option.map_eq_some_iff.2 ⟨s, hs, rfl⟩⟩

end Ends

end Munch
