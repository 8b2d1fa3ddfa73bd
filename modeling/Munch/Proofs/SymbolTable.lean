import Mathlib.Data.Finset.Card
import Mathlib.Data.List.Induction
import Munch.Proofs.Inverse
import Munch.SymbolTable

/-!
# A symbol table numbers names by first appearance

The names a table holds and the kinds it gives out follow from the names that it was asked
to intern, in order: a name has the kind that counts the distinct names in front of its
first appearance.

**Invariant.**  `SymbolTable.Records`: the two containers are inverse to each other, there
are as many names as there were distinct ones, and each has the place of its first
appearance.  Interning one more name keeps this.

**Results.**
* `firstAppears_concat`, `FirstAppears.exists_of_mem`: first appearances.
* `Records.intern`, `records_internAll`: one name, and all names.
* `internAll_numbers`: what a table answers after any calls.
-/

namespace Munch
namespace SymbolTable

/-- The table after the names were interned, in order. -/
def internAll (table : SymbolTable) (names : List String) : SymbolTable :=
  names.foldl (fun table name => (table.intern name).2) table

theorem internAll_append (table : SymbolTable) (names further : List String) :
    table.internAll (names ++ further) = (table.internAll names).internAll further :=
  List.foldl_append

theorem internAll_concat (table : SymbolTable) (names : List String) (name : String) :
    table.internAll (names ++ [name]) = ((table.internAll names).intern name).2 :=
  table.internAll_append names [name]

/-! ### First appearances -/

/-- Among the names of the calls, `name` first appears behind exactly `k` distinct ones. -/
def FirstAppears (calls : List String) (name : String) (k : Nat) : Prop :=
  ∃ before after, calls = before ++ name :: after ∧ name ∉ before ∧ before.toFinset.card = k

section FirstAppears

variable {calls : List String} {name other : String} {k : Nat}

theorem FirstAppears.mem (h : FirstAppears calls name k) : name ∈ calls := by
  obtain ⟨before, after, rfl, -, -⟩ := h
  exact List.mem_append_right before List.mem_cons_self

theorem FirstAppears.append (h : FirstAppears calls name k) (further : List String) :
    FirstAppears (calls ++ further) name k := by
  obtain ⟨before, after, rfl, hnew, hcard⟩ := h
  exact ⟨before, after ++ further, List.append_assoc _ _ _, hnew, hcard⟩

/-- One more call is a first appearance if its name is new, and changes no other. -/
theorem firstAppears_concat :
    FirstAppears (calls ++ [other]) name k ↔
      FirstAppears calls name k ∨ (other ∉ calls ∧ other = name ∧ calls.toFinset.card = k) := by
  constructor
  · rintro ⟨before, after, hcalls, hnew, hcard⟩
    rcases after.eq_nil_or_concat' with rfl | ⟨after, last, rfl⟩
    · obtain ⟨rfl, hname⟩ := List.append_inj' hcalls rfl
      cases hname
      exact .inr ⟨hnew, rfl, hcard⟩
    · rw [← List.cons_append, ← List.append_assoc] at hcalls
      obtain ⟨rfl, -⟩ := List.append_inj' hcalls rfl
      exact .inl ⟨before, after, rfl, hnew, hcard⟩
  · rintro (h | ⟨hnew, rfl, hcard⟩)
    · exact h.append [other]
    · exact ⟨calls, [], rfl, hnew, hcard⟩

theorem FirstAppears.exists_of_mem (h : name ∈ calls) : ∃ k, FirstAppears calls name k := by
  obtain ⟨before, after, rfl, hnew⟩ := List.eq_append_cons_of_mem h
  exact ⟨_, before, after, rfl, hnew, rfl⟩

end FirstAppears

/-! ### What a table records -/

/-- The table holds what the calls have interned. -/
structure Records (table : SymbolTable) (calls : List String) : Prop where
  get?_iff : ∀ name kind, table.get? name = some kind ↔ table.name? kind = some name
  size_eq : table.size = calls.toFinset.card
  name?_iff : ∀ name (kind : TokenKind),
    table.name? kind = some name ↔ FirstAppears calls name kind.number

theorem records_empty : empty.Records [] where
  get?_iff := by simp [empty, get?, name?]
  size_eq := rfl
  name?_iff := by simp [empty, name?, FirstAppears]

theorem name?_isSome_iff (table : SymbolTable) (kind : TokenKind) :
    (table.name? kind).isSome ↔ kind.number < table.size := by
  simp [name?, size]

/-- A name that has a kind keeps it, and the table does not change. -/
theorem intern_of_get? {table : SymbolTable} {name : String} {kind : TokenKind}
    (h : table.get? name = some kind) : table.intern name = (kind, table) := by
  rw [intern, h]

/-- A new name gets the kind that is free. -/
theorem intern_of_get?_eq_none {table : SymbolTable} {name : String}
    (h : table.get? name = none) :
    table.intern name =
      (⟨table.size⟩, ⟨table.names.push name, table.kinds.insert name ⟨table.size⟩⟩) := by
  rw [intern, h]

namespace Records

variable {table : SymbolTable} {calls : List String} {name : String}

theorem nodup (h : table.Records calls) : table.names.toList.Nodup := by
  rw [List.nodup_iff_injective_get]
  intro i j hij
  have hi : table.name? ⟨i⟩ = some (table.names.toList.get i) := by
    simp [name?]
  have hj : table.name? ⟨j⟩ = some (table.names.toList.get i) := by
    rw [hij]
    simp [name?]
  rw [← h.get?_iff] at hi hj
  rw [hi] at hj
  exact Fin.ext (congrArg TokenKind.number (Option.some.inj hj))

theorem get?_eq_none_iff (h : table.Records calls) : table.get? name = none ↔ name ∉ calls := by
  constructor
  · intro hnone hmem
    obtain ⟨k, hk⟩ := FirstAppears.exists_of_mem hmem
    have hkind := (h.get?_iff name ⟨k⟩).2 ((h.name?_iff name ⟨k⟩).2 hk)
    rw [hnone] at hkind
    cases hkind
  · intro hnew
    rw [Option.eq_none_iff_forall_not_mem]
    intro kind hkind
    exact hnew ((h.name?_iff name kind).1 ((h.get?_iff name kind).1 hkind)).mem

/-- Interning one more name keeps the record. -/
theorem intern (h : table.Records calls) (name : String) :
    (table.intern name).2.Records (calls ++ [name]) := by
  cases hget : table.get? name with
  | some kind =>
      have hmem : name ∈ calls := by
        by_contra hnew
        rw [h.get?_eq_none_iff.2 hnew] at hget
        cases hget
      rw [intern_of_get? hget]
      refine ⟨h.get?_iff, ?_, ?_⟩
      · rw [h.size_eq, List.toFinset_append, Finset.union_eq_left.2 (by simpa using hmem)]
      · intro other kind
        simp [h.name?_iff, firstAppears_concat, hmem]
  | none =>
      have hnew : name ∉ calls := h.get?_eq_none_iff.1 hget
      have hinjective : Function.Injective TokenKind.number := by
        rintro ⟨m⟩ ⟨n⟩ rfl
        rfl
      rw [intern_of_get?_eq_none hget]
      refine ⟨?_, ?_, ?_⟩
      · exact getElem?_insert_iff_push hinjective h.get?_iff rfl hget
      · show (table.names.push name).size = _
        rw [Array.size_push, ← size, h.size_eq, List.toFinset_append, List.toFinset_cons,
          List.toFinset_nil, insert_empty_eq, Finset.union_singleton,
          Finset.card_insert_of_notMem (by simpa using hnew)]
      · intro other kind
        show (table.names.push name)[kind.number]? = some other ↔ _
        rw [getElem?_push_eq_some_iff, firstAppears_concat, ← name?, h.name?_iff, ← size,
          h.size_eq]
        simp [hnew, and_comm, eq_comm]

theorem internAll (h : table.Records calls) (further : List String) :
    (table.internAll further).Records (calls ++ further) := by
  induction further using List.reverseRecOn with
  | nil =>
      rwa [List.append_nil]
  | append_singleton further name ih =>
      rw [internAll_concat, ← List.append_assoc]
      exact ih.intern name

end Records

/-- The table of some names records them. -/
theorem records_ofNames (names : List String) : (ofNames names).Records names :=
  records_empty.internAll names

/-- **Names and kinds are in bijection.**  After any names were interned, at first and
later, the names held are distinct, a name has a kind exactly when the kind has the name,
and the kinds in use are the numbers below the count of distinct names, given out by first
appearance.  A name that has a kind is interned without a change, a new one gets the kind
that is free, and no later name changes what an earlier one has. -/
theorem internAll_numbers (initial calls : List String) :
    let table := (ofNames initial).internAll calls
    table.names.toList.Nodup ∧
    (∀ name kind, table.get? name = some kind ↔ table.name? kind = some name) ∧
    (∀ kind, (table.name? kind).isSome ↔ kind.number < table.size) ∧
    table.size = (initial ++ calls).toFinset.card ∧
    (∀ name (kind : TokenKind),
      table.name? kind = some name ↔ FirstAppears (initial ++ calls) name kind.number) ∧
    (∀ name kind, table.get? name = some kind → table.intern name = (kind, table)) ∧
    (∀ name, table.get? name = none →
      (table.intern name).1 = ⟨table.size⟩ ∧
        (table.intern name).2.get? name = some ⟨table.size⟩) ∧
    ∀ further name kind, table.get? name = some kind →
      (table.internAll further).get? name = some kind ∧
        (table.internAll further).name? kind = some name := by
  intro table
  have h : table.Records (initial ++ calls) := (records_ofNames initial).internAll calls
  refine ⟨h.nodup, h.get?_iff, table.name?_isSome_iff, h.size_eq, h.name?_iff,
    fun _ _ => intern_of_get?, ?_, ?_⟩
  · intro name hnew
    rw [intern_of_get?_eq_none hnew]
    exact ⟨rfl, Std.HashMap.getElem?_insert_self⟩
  · intro further name kind hkind
    have hlater := h.internAll further
    have happears := (h.name?_iff name kind).1 ((h.get?_iff name kind).1 hkind)
    have hname := (hlater.name?_iff name kind).2 (happears.append further)
    exact ⟨(hlater.get?_iff name kind).2 hname, hname⟩

theorem internAll_numbers_letters :
    let table := (ofNames ["b", "a"]).internAll ["b", "c"]
    table.size = 3 ∧ table.get? "b" = some ⟨0⟩ ∧ table.get? "c" = some ⟨2⟩ ∧
      table.get? "d" = none ∧ table.intern "b" = (⟨0⟩, table) ∧ (table.intern "d").1 = ⟨3⟩ ∧
      (table.internAll ["d"]).get? "c" = some ⟨2⟩ := by
  intro table
  obtain ⟨-, hget, -, hsize, hname, hknown, hfree, hlater⟩ :=
    internAll_numbers ["b", "a"] ["b", "c"]
  have hsize : table.size = 3 := hsize.trans (by decide)
  have hb : table.get? "b" = some ⟨0⟩ :=
    (hget _ _).2 ((hname _ ⟨0⟩).2 ⟨[], ["a", "b", "c"], rfl, by decide, rfl⟩)
  have hc : table.get? "c" = some ⟨2⟩ :=
    (hget _ _).2 ((hname _ ⟨2⟩).2 ⟨["b", "a", "b"], [], rfl, by decide, by decide⟩)
  have hd : table.get? "d" = none := by
    rw [Option.eq_none_iff_forall_not_mem]
    intro kind hkind
    exact absurd ((hname _ _).1 ((hget _ _).1 hkind)).mem (by decide)
  refine ⟨hsize, hb, hc, hd, hknown _ _ hb, ?_, (hlater ["d"] _ _ hc).1⟩
  rw [(hfree _ hd).1, hsize]

end SymbolTable
end Munch
