import Mathlib.Data.List.Induction
import Mathlib.Data.List.Sort
import Mathlib.Order.Bounds.Basic
import Munch.ByteClasses
import Munch.Nfa.Basic

/-!
# Byte classes keep apart what some set tells apart

Each set refines the labels of the bytes and gives new ones, in the order in which they
are met.  What the labels are in the end depends on the relation of bytes that agree in
all sets, and on nothing else: two bytes have the same label when they agree, and the
labels go up with the least bytes that have them.

**Invariant.**  `ByteLabels.Canonical`: the labels are those of a relation between bytes.
It is kept by each set, whatever labels there were before.

**Results.**
* `ByteLabels.canonical_ofKey`, `ByteLabels.Canonical.splitBy`: labels by order of first
  meeting, and one set.
* `canonical_ofSets`: all sets.
* `Canonical.unique`: a relation has one numbering.
* `ofSets_coarsest`: the partition of the transitions of an automaton, in whatever order
  their sets are visited.
* `exists_representative`: each byte agrees with the representative of its class.
-/

namespace Munch

/-! ### Keys in the order in which they are met -/

section FirstMet

variable {κ : Type} [BEq κ] [LawfulBEq κ] {x y : κ} {u v w : List κ}

theorem eraseDups_append_cons (hx : x ∉ u) :
    ∃ rest, (u ++ x :: v).eraseDups = u.eraseDups ++ x :: rest := by
  have hremove : (x :: v).removeAll u = x :: v.removeAll u := by
    simp [List.removeAll, hx]
  rw [List.eraseDups_append, hremove, List.eraseDups_cons]
  exact ⟨_, rfl⟩

/-- A key that is met for the first time gets the place behind all keys before. -/
theorem idxOf_eraseDups (hx : x ∉ u) :
    (u ++ x :: v).eraseDups.idxOf x = u.eraseDups.length := by
  obtain ⟨rest, hrest⟩ := eraseDups_append_cons (v := v) hx
  have hx' : x ∉ u.eraseDups := fun h => hx (List.mem_eraseDups.1 h)
  rw [hrest, List.idxOf_append_of_notMem hx', List.idxOf_cons_self]
  rfl

theorem nodup_eraseDups (keys : List κ) : keys.eraseDups.Nodup := by
  induction keys using List.reverseRecOn with
  | nil =>
      exact List.nodup_nil
  | append_singleton keys x ih =>
      by_cases hx : x ∈ keys
      · have hremove : [x].removeAll keys = [] := by
          simp [List.removeAll, hx]
        rwa [List.eraseDups_append, hremove, List.eraseDups_nil, List.append_nil]
      · have hremove : [x].removeAll keys = [x] := by
          simp [List.removeAll, hx]
        have hx' : x ∉ keys.eraseDups := fun h => hx (List.mem_eraseDups.1 h)
        rw [List.eraseDups_append, hremove]
        exact ih.append (List.nodup_singleton x) (List.disjoint_singleton.2 hx')

theorem idxOf_eraseDups_lt (hx : x ∉ u) (hy : y ∉ u ++ x :: v) :
    (u ++ x :: v ++ y :: w).eraseDups.idxOf x < (u ++ x :: v ++ y :: w).eraseDups.idxOf y := by
  have hplace : (u ++ x :: v ++ y :: w).eraseDups.idxOf x = u.eraseDups.length := by
    rw [List.append_assoc, List.cons_append]
    exact idxOf_eraseDups hx
  obtain ⟨rest, hrest⟩ := eraseDups_append_cons (v := v) hx
  rw [hplace, idxOf_eraseDups hy, hrest, List.length_append, List.length_cons]
  omega

end FirstMet

/-! ### Bytes in increasing order -/

theorem Byte.getElem?_all (b : Byte) : Byte.all[b.toNat]? = some b := by
  rw [Byte.all, List.getElem?_map, List.getElem?_range b.toNat_lt]
  simp

theorem Byte.length_all : Byte.all.length = 256 := by
  rw [Byte.all, List.length_map, List.length_range]

/-- The bytes in front of `b` in the listing are the smaller ones. -/
theorem Byte.mem_before_iff {a b : Byte} {before after : List Byte}
    (hall : Byte.all = before ++ b :: after) : a ∈ before ↔ a < b := by
  have hpairwise := Byte.all_pairwise
  rw [hall, List.pairwise_append] at hpairwise
  obtain ⟨-, hafter, hbefore⟩ := hpairwise
  constructor
  · intro ha
    exact hbefore a ha b List.mem_cons_self
  · intro hlt
    have ha := Byte.mem_all a
    rw [hall] at ha
    rcases List.mem_append.1 ha with ha | ha
    · exact ha
    · rcases List.mem_cons.1 ha with rfl | ha
      · exact absurd hlt (UInt8.lt_irrefl a)
      · exact absurd (UInt8.lt_trans hlt (List.rel_of_pairwise_cons hafter ha)) (UInt8.lt_irrefl a)

/-! ### Labels -/

namespace ByteLabels

/-- No smaller byte has the same label. -/
def IsFirst (labels : ByteLabels) (r : Byte) : Prop :=
  ∀ b, labels.number b = labels.number r → r ≤ b

/-- The labels are those of the relation `R` between bytes, given in the order in which
they are met. -/
structure Canonical (labels : ByteLabels) (R : Byte → Byte → Prop) : Prop where
  size_eq : labels.numbers.size = 256
  number_eq_iff : ∀ a b, labels.number a = labels.number b ↔ R a b
  number_lt : ∀ b, labels.number b < labels.count
  exists_number : ∀ n < labels.count, ∃ b, labels.number b = n
  increasing : ∀ a b, labels.IsFirst a → labels.IsFirst b → a < b →
    labels.number a < labels.number b

section OfKey

variable {κ : Type} [BEq κ] (key : Byte → κ)

theorem size_ofKey : (ofKey key).numbers.size = 256 := by
  simp [ofKey, Byte.length_all]

theorem number_ofKey (b : Byte) :
    (ofKey key).number b = (Byte.all.map key).eraseDups.idxOf (key b) := by
  simp [number, ofKey, Array.getD_eq_getD_getElem?, Byte.getElem?_all]

variable [LawfulBEq κ]

theorem key_mem_eraseDups (b : Byte) : key b ∈ (Byte.all.map key).eraseDups :=
  List.mem_eraseDups.2 (List.mem_map_of_mem (Byte.mem_all b))

theorem number_ofKey_eq_iff (a b : Byte) :
    (ofKey key).number a = (ofKey key).number b ↔ key a = key b := by
  rw [number_ofKey, number_ofKey]
  exact List.idxOf_inj (key_mem_eraseDups key a)

/-- The bytes in front of the first one with a key have other keys. -/
theorem IsFirst.notMem_map {b : Byte} (h : (ofKey key).IsFirst b) {before : List Byte}
    (hbefore : ∀ a ∈ before, a < b) : key b ∉ before.map key := by
  rintro hb
  obtain ⟨a, ha, hkey⟩ := List.mem_map.1 hb
  have hle := h a ((number_ofKey_eq_iff key a b).2 hkey)
  exact absurd (hbefore a ha) (UInt8.not_lt.2 hle)

theorem number_ofKey_lt {a b : Byte} (ha : (ofKey key).IsFirst a) (hb : (ofKey key).IsFirst b)
    (hlt : a < b) : (ofKey key).number a < (ofKey key).number b := by
  obtain ⟨before, after, hall⟩ := List.append_of_mem (Byte.mem_all b)
  obtain ⟨u, v, rfl⟩ := List.append_of_mem ((Byte.mem_before_iff hall).2 hlt)
  have hall' : Byte.all = u ++ a :: (v ++ b :: after) := by
    rw [hall, List.append_assoc, List.cons_append]
  have hu : key a ∉ u.map key := ha.notMem_map key fun c => (Byte.mem_before_iff hall').1
  have hv : key b ∉ u.map key ++ key a :: v.map key := by
    have hv := hb.notMem_map key fun c => (Byte.mem_before_iff hall).1
    rwa [List.map_append, List.map_cons] at hv
  rw [number_ofKey, number_ofKey, hall]
  simp only [List.map_append, List.map_cons]
  exact idxOf_eraseDups_lt hu hv

theorem canonical_ofKey : (ofKey key).Canonical fun a b => key a = key b where
  size_eq := size_ofKey key
  number_eq_iff := number_ofKey_eq_iff key
  number_lt b := by
    rw [number_ofKey]
    exact List.idxOf_lt_length_of_mem (key_mem_eraseDups key b)
  exists_number n hn := by
    have hmem : (Byte.all.map key).eraseDups[n] ∈ (Byte.all.map key).eraseDups :=
      List.getElem_mem hn
    obtain ⟨b, -, hb⟩ := List.mem_map.1 (List.mem_eraseDups.1 hmem)
    refine ⟨b, ?_⟩
    rw [number_ofKey, hb]
    exact (nodup_eraseDups _).idxOf_getElem n hn
  increasing a b := number_ofKey_lt key

end OfKey

theorem number_coarse (b : Byte) : coarse.number b = 0 := by
  simp [number, coarse, Array.getD_eq_getD_getElem?, b.toNat_lt]

theorem canonical_coarse : coarse.Canonical fun _ _ => True where
  size_eq := Array.size_replicate
  number_eq_iff a b := by simp [number_coarse]
  number_lt b := by
    rw [number_coarse]
    exact Nat.one_pos
  exists_number n hn := by
    have hn : n = 0 := Nat.lt_one_iff.1 hn
    exact ⟨0, by rw [number_coarse, hn]⟩
  increasing a b ha hb hlt := by
    have hle := hb a (by rw [number_coarse, number_coarse])
    exact absurd hlt (UInt8.not_lt.2 hle)

/-- One set refines the relation, and the labels are given anew. -/
theorem Canonical.splitBy {labels : ByteLabels} {R : Byte → Byte → Prop}
    (h : labels.Canonical R) (s : ByteSet) :
    (labels.splitBy s).Canonical fun a b => R a b ∧ s.contains a = s.contains b := by
  have hkey := canonical_ofKey fun b => (labels.number b, s.contains b)
  simp only [Prod.mk.injEq, h.number_eq_iff] at hkey
  exact hkey

theorem canonical_foldl (sets : List ByteSet) {labels : ByteLabels} {R : Byte → Byte → Prop}
    (h : labels.Canonical R) :
    (sets.foldl splitBy labels).Canonical fun a b =>
      R a b ∧ ∀ s ∈ sets, s.contains a = s.contains b := by
  induction sets generalizing labels R with
  | nil =>
      simpa using h
  | cons s sets ih =>
      simpa [and_assoc] using ih (h.splitBy s)

/-- The least byte with a label that is given. -/
theorem Canonical.least_spec {labels : ByteLabels} {R : Byte → Byte → Prop}
    (h : labels.Canonical R) {n : Nat} (hn : n < labels.count) :
    labels.number (labels.least n) = n ∧ labels.IsFirst (labels.least n) := by
  obtain ⟨b, hb⟩ := h.exists_number n hn
  have hsome : (Byte.all.find? fun a => labels.number a == n).isSome = true :=
    List.find?_isSome.2 ⟨b, Byte.mem_all b, by simpa using hb⟩
  obtain ⟨r, hr⟩ := Option.isSome_iff_exists.1 hsome
  have hleast : labels.least n = r := by rw [least, hr, Option.getD_some]
  obtain ⟨hnumber, before, after, hall, hbefore⟩ := List.find?_eq_some_iff_append.1 hr
  have hnumber : labels.number r = n := by simpa using hnumber
  rw [hleast]
  refine ⟨hnumber, fun a ha => ?_⟩
  -- A smaller byte with the label would have been found before.
  by_contra hlt
  have hfound := hbefore a ((Byte.mem_before_iff hall).2 (UInt8.not_le.1 hlt))
  simp [ha, hnumber] at hfound

end ByteLabels

/-! ### Classes -/

namespace ByteClasses

/-- The classes are those of the relation `R` between bytes, numbered by their least
members. -/
structure Canonical (classes : ByteClasses) (R : Byte → Byte → Prop) : Prop where
  size_eq : classes.numbers.size = 256
  number_eq_iff : ∀ a b, classes.number a = classes.number b ↔ R a b
  increasing : classes.representatives.Pairwise (· < ·)
  exists_least : ∀ b, ∃ r, classes.representatives[classes.number b]? = some r ∧
    IsLeast {a | classes.number a = classes.number b} r
  number_eq : ∀ {n : Nat} {r : Byte}, classes.representatives[n]? = some r → classes.number r = n

section Unique

variable {classes classes' : ByteClasses} {R : Byte → Byte → Prop}

/-- The representatives are the bytes without a smaller one of their class. -/
theorem Canonical.mem_representatives_iff (h : classes.Canonical R) {r : Byte} :
    r ∈ classes.representatives ↔ ∀ b, R b r → r ≤ b := by
  obtain ⟨s, hs, hclass, hleast⟩ := h.exists_least r
  constructor
  · intro hr
    obtain ⟨n, hn⟩ := List.getElem?_of_mem hr
    rw [← h.number_eq hn] at hn
    obtain rfl : s = r := Option.some.inj (hs.symm.trans hn)
    intro b hb
    exact hleast ((h.number_eq_iff b s).2 hb)
  · intro hr
    have hle : r ≤ s := hr s ((h.number_eq_iff s r).1 hclass)
    obtain rfl : s = r := UInt8.le_antisymm (hleast rfl) hle
    exact List.mem_of_getElem? hs

/-- A relation has one numbering of its classes. -/
theorem Canonical.unique (h : classes.Canonical R) (h' : classes'.Canonical R) :
    classes = classes' := by
  have hrepresentatives : classes.representatives = classes'.representatives := by
    apply h.increasing.eq_of_mem_iff h'.increasing
    intro r
    rw [h.mem_representatives_iff, h'.mem_representatives_iff]
  have hnumber : ∀ b, classes.number b = classes'.number b := by
    intro b
    obtain ⟨r, hr, hclass, -⟩ := h.exists_least b
    rw [hrepresentatives] at hr
    have hclass' : classes'.number r = classes'.number b :=
      (h'.number_eq_iff r b).2 ((h.number_eq_iff r b).1 hclass)
    rw [← hclass', h'.number_eq hr]
  obtain ⟨representatives, numbers⟩ := classes
  obtain ⟨representatives', numbers'⟩ := classes'
  obtain rfl : representatives = representatives' := hrepresentatives
  congr
  apply Array.ext (h.size_eq.trans h'.size_eq.symm)
  intro i hi hi'
  have hlt : i < 256 := Nat.lt_of_lt_of_eq hi h.size_eq
  have hlabel := hnumber (UInt8.ofNat i)
  simpa [number, Nat.mod_eq_of_lt hlt, hi, hi'] using hlabel

end Unique

theorem Canonical.number_lt {classes : ByteClasses} {R : Byte → Byte → Prop}
    (h : classes.Canonical R) (b : Byte) : classes.number b < classes.count := by
  obtain ⟨r, hr, -⟩ := h.exists_least b
  exact (List.getElem?_eq_some_iff.1 hr).1

/-- The representative of a class is its least member. -/
theorem Canonical.exists_isLeast {classes : ByteClasses} {R : Byte → Byte → Prop}
    (h : classes.Canonical R) {n : Nat} (hn : n < classes.count) :
    ∃ r, classes.representatives[n]? = some r ∧ IsLeast {b | classes.number b = n} r := by
  have hr : classes.representatives[n]? = some classes.representatives[n] :=
    List.getElem?_eq_getElem hn
  obtain ⟨r, hr', hleast⟩ := h.exists_least classes.representatives[n]
  rw [h.number_eq hr] at hr' hleast
  exact ⟨r, hr', hleast⟩

/-- A byte below a representative is of an earlier class. -/
theorem Canonical.number_lt_of_lt {classes : ByteClasses} {R : Byte → Byte → Prop}
    (h : classes.Canonical R) {n : Nat} {r b : Byte}
    (hr : classes.representatives[n]? = some r) (hb : b < r) : classes.number b < n := by
  obtain ⟨r', hr', -, hleast⟩ := h.exists_least b
  have hlt : r' < r := UInt8.lt_of_le_of_lt (hleast rfl) hb
  by_contra hle
  rcases Nat.lt_or_eq_of_le (Nat.not_lt.1 hle) with hn | hn
  · obtain ⟨hn', hrn⟩ := List.getElem?_eq_some_iff.1 hr
    obtain ⟨hb', hrb⟩ := List.getElem?_eq_some_iff.1 hr'
    have hincreasing := List.pairwise_iff_getElem.1 h.increasing n (classes.number b) hn' hb' hn
    rw [hrn, hrb] at hincreasing
    exact UInt8.lt_irrefl r (UInt8.lt_trans hincreasing hlt)
  · rw [← hn, hr] at hr'
    exact UInt8.lt_irrefl r (Option.some.inj hr' ▸ hlt)

theorem Canonical.one_le_count {classes : ByteClasses} {R : Byte → Byte → Prop}
    (h : classes.Canonical R) : 1 ≤ classes.count := by
  have hlt := h.number_lt 0
  omega

theorem Canonical.count_le {classes : ByteClasses} {R : Byte → Byte → Prop}
    (h : classes.Canonical R) : classes.count ≤ 256 := by
  have hsub : classes.representatives ⊆ Byte.all := fun b _ => Byte.mem_all b
  rw [← Byte.length_all]
  exact (List.subperm_of_subset h.increasing.nodup hsub).length_le

/-- Labels that are canonical make canonical classes. -/
theorem canonical_of_labels {labels : ByteLabels} {R : Byte → Byte → Prop}
    (h : labels.Canonical R) :
    Canonical ⟨(List.range labels.count).map labels.least, labels.numbers⟩ R where
  size_eq := h.size_eq
  number_eq_iff := h.number_eq_iff
  increasing := by
    refine List.pairwise_map.2 (List.pairwise_lt_range.imp_of_mem ?_)
    intro m n hm hn hmn
    obtain ⟨hnumber, hfirst⟩ := h.least_spec (List.mem_range.1 hm)
    obtain ⟨hnumber', hfirst'⟩ := h.least_spec (List.mem_range.1 hn)
    by_contra hle
    rcases UInt8.lt_or_eq_of_le (UInt8.not_lt.1 hle) with hlt | heq
    · have := h.increasing _ _ hfirst' hfirst hlt
      omega
    · rw [heq] at hnumber'
      omega
  exists_least b := by
    obtain ⟨hnumber, hfirst⟩ := h.least_spec (h.number_lt b)
    refine ⟨labels.least (labels.number b), ?_, hnumber, ?_⟩
    · show ((List.range labels.count).map labels.least)[labels.number b]? = _
      simp [h.number_lt b]
    · intro a ha
      exact hfirst a (Eq.trans ha hnumber.symm)
  number_eq {n r} hn := by
    obtain ⟨hlt, hr⟩ := List.getElem?_eq_some_iff.1 hn
    have hlt : n < labels.count := by simpa using hlt
    have hr : labels.least n = r := by simpa using hr
    rw [← hr]
    exact (h.least_spec hlt).1

theorem canonical_ofSets (sets : List ByteSet) :
    (ofSets sets).Canonical fun a b => ∀ s ∈ sets, s.contains a = s.contains b := by
  have hlabels := ByteLabels.canonical_foldl sets ByteLabels.canonical_coarse
  simp only [true_and] at hlabels
  exact canonical_of_labels hlabels

/-- The sets matter, not how often and in which order they are gone through. -/
theorem ofSets_congr {sets sets' : List ByteSet} (h : ∀ s, s ∈ sets ↔ s ∈ sets') :
    ofSets sets = ofSets sets' := by
  apply (canonical_ofSets sets).unique
  simpa only [h] using canonical_ofSets sets'

/-! ### The classes of an automaton -/

/-- Whether no set tells the two bytes apart. -/
def agree (sets : List ByteSet) (a b : Byte) : Bool :=
  sets.all fun s => s.contains a == s.contains b

theorem agree_iff {sets : List ByteSet} {a b : Byte} :
    agree sets a b = true ↔ ∀ s ∈ sets, s.contains a = s.contains b := by
  simp [agree]

/-- The representative of a byte's class agrees with the byte. -/
theorem exists_representative (sets : List ByteSet) (b : Byte) :
    ∃ r, (ofSets sets).representatives[(ofSets sets).number b]? = some r ∧
      agree sets b r = true := by
  have h := canonical_ofSets sets
  obtain ⟨r, hr, hclass, -⟩ := h.exists_least b
  exact ⟨r, hr, agree_iff.2 ((h.number_eq_iff b r).1 (Eq.symm hclass))⟩

theorem mem_byteSets_iff {nfa : Nfa} {s : ByteSet} :
    s ∈ nfa.byteSets ↔ ∃ q next : Nat, nfa.states[q]? = some (.bytes s next) := by
  rw [Nfa.byteSets, List.mem_filterMap]
  constructor
  · rintro ⟨state, hstate, hs⟩
    obtain ⟨q, hq⟩ := Array.mem_iff_getElem?.1 (Array.mem_toList_iff.1 hstate)
    cases state with
    | bytes set next =>
        cases hs
        exact ⟨q, next, hq⟩
    | split targets =>
        cases hs
    | accept rule =>
        cases hs
  · rintro ⟨q, next, hq⟩
    exact ⟨.bytes s next, Array.mem_toList_iff.2 (Array.mem_of_getElem? hq), rfl⟩

/-- **The byte classes are the coarsest sound partition, whatever the order of the
sets.** -/
theorem ofSets_coarsest (nfa : Nfa) (order : List ByteSet)
    (horder : ∀ s, s ∈ order ↔ s ∈ nfa.byteSets) :
    ofSets order = ofSets nfa.byteSets.eraseDups ∧
    (∀ a b, (ofSets order).number a = (ofSets order).number b ↔
      ∀ (q : Nat) (s : ByteSet) (next : Nat), nfa.states[q]? = some (.bytes s next) →
        (s.contains a = true ↔ s.contains b = true)) ∧
    (ofSets order).representatives.Pairwise (· < ·) ∧
    (∀ n < (ofSets order).count, ∃ r, (ofSets order).representatives[n]? = some r ∧
      IsLeast {b | (ofSets order).number b = n} r) ∧
    (∀ b, (ofSets order).number b < (ofSets order).count) ∧
    1 ≤ (ofSets order).count ∧ (ofSets order).count ≤ 256 := by
  have h := canonical_ofSets order
  have hsame : ofSets order = ofSets nfa.byteSets.eraseDups := by
    apply ofSets_congr
    intro s
    rw [horder, List.mem_eraseDups]
  refine ⟨hsame, ?_, h.increasing, fun n => h.exists_isLeast, h.number_lt, h.one_le_count,
    h.count_le⟩
  intro a b
  rw [h.number_eq_iff]
  constructor
  · intro hagree q s next hq
    rw [hagree s ((horder s).2 (mem_byteSets_iff.2 ⟨q, next, hq⟩))]
  · intro hagree s hs
    obtain ⟨q, next, hq⟩ := mem_byteSets_iff.1 ((horder s).1 hs)
    exact Bool.eq_iff_iff.2 (hagree q s next hq)

/-- An automaton for the bytes of `[a-c]` and those of `[b-d]`. -/
def overlapping : Nfa :=
  ⟨#[.bytes (.range 97 99) 2, .bytes (.range 98 100) 2, .accept 0, .split [0, 1]], 3, 1⟩

/-- Its sets in the opposite order make the same classes, and tell `a` and `b` apart. -/
theorem ofSets_coarsest_overlapping :
    (∀ s, s ∈ [ByteSet.range 98 100, .range 97 99] ↔ s ∈ overlapping.byteSets) ∧
    ofSets [.range 98 100, .range 97 99] = ofSets overlapping.byteSets.eraseDups ∧
    (ofSets [.range 98 100, .range 97 99]).number 97 ≠
      (ofSets [.range 98 100, .range 97 99]).number 98 := by
  have horder : ∀ s, s ∈ [ByteSet.range 98 100, .range 97 99] ↔ s ∈ overlapping.byteSets := by
    intro s
    simp [Nfa.byteSets, overlapping, Nfa.State.set?, or_comm]
  obtain ⟨hsame, hnumber, -⟩ := ofSets_coarsest overlapping _ horder
  refine ⟨horder, hsame, fun heq => ?_⟩
  have happart := (hnumber 97 98).1 heq 1 (.range 98 100) 2 rfl
  revert happart
  decide

end ByteClasses
end Munch
