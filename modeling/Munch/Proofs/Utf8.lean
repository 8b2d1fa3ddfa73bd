import Mathlib.Algebra.Group.Nat.Defs
import Mathlib.Data.List.Basic
import Mathlib.Tactic.SplitIfs
import Munch.Text.Utf8

/-!
# Reading undoes encoding

The number of a character is spread over a lead byte and some tails of six bits each.  The
limits that a lead byte sets for the first tail leave exactly the numbers that take that many
tails and belong to a character, so reading succeeds on the encodings of characters and on
nothing else.

**Results.**
* `trail_eq_some_iff`: the tails behind a lead byte.
* `utf8EncodeChar_eq_cons_iff`, `front_eq_some_iff_leads`: encoding and reading a character,
  in terms of its number.
* `front_eq_some_iff`: a character is read where its encoding stands, and only there.
* `lossyChars_bytesOf_append`, `decode?_eq_some_iff`: texts without ill-formed parts.
* `length_bytesOf_eq_iff`: what characters take more than one byte.
* `frontText_cons`: the width that a lead byte seems to announce, and what stands there.
-/

namespace Munch
namespace Utf8

/-- The last `k` bytes of the number `n`, six bits in each. -/
def tails : Nat → Nat → List Byte
  | 0, _ => []
  | k + 1, n => UInt8.ofNat (0x80 + n / 64 ^ k % 64) :: tails k n

/-- The encodings of some characters, one after the other. -/
def bytesOf (chars : List Char) : List Byte := chars.flatMap String.utf8EncodeChar

@[simp] theorem bytesOf_nil : bytesOf [] = [] := rfl

@[simp] theorem bytesOf_cons (c : Char) (chars : List Char) :
    bytesOf (c :: chars) = String.utf8EncodeChar c ++ bytesOf chars :=
  List.flatMap_cons

@[simp] theorem bytesOf_append (chars more : List Char) :
    bytesOf (chars ++ more) = bytesOf chars ++ bytesOf more :=
  List.flatMap_append

/-- The byte `b` begins the encoding of the number `n` in one byte and `k` tails. -/
def Leads (b : Byte) (k n : Nat) : Prop :=
  (k = 0 ∧ n < 0x80 ∧ b.toNat = n) ∨
  (k = 1 ∧ 0x80 ≤ n ∧ n < 0x800 ∧ b.toNat = 0xC0 + n / 64) ∨
  (k = 2 ∧ 0x800 ≤ n ∧ n < 0x10000 ∧ b.toNat = 0xE0 + n / 4096) ∨
  (k = 3 ∧ 0x10000 ≤ n ∧ b.toNat = 0xF0 + n / 262144)

/-- The number `n` has the bits of the lead byte, and a first tail within its limits. -/
structure Lead.Fits (lead : Lead) (n : Nat) : Prop where
  bits_eq : n / 64 ^ lead.more = lead.bits
  lo_le : ∀ k, lead.more = k + 1 → lead.lo.toNat ≤ 0x80 + n / 64 ^ k % 64
  le_hi : ∀ k, lead.more = k + 1 → 0x80 + n / 64 ^ k % 64 ≤ lead.hi.toNat

theorem isValidChar_iff {n : Nat} : n.isValidChar ↔ n < 0xD800 ∨ 0xDFFF < n ∧ n < 0x110000 :=
  Iff.rfl

section Reading

variable {b : Byte} {bits k n : Nat} {lo hi : Byte} {lead : Lead} {bytes rest : List Byte}
  {c : Char}

/-! ### Lead bytes -/

theorem lead?_eq (b : Byte) : lead? b =
    if b.toNat < 0x80 then some ⟨0, 0x80, 0xBF, b.toNat⟩
    else if b.toNat < 0xC2 then none
    else if b.toNat < 0xE0 then some ⟨1, 0x80, 0xBF, b.toNat - 0xC0⟩
    else if b.toNat < 0xF0 then
      some ⟨2, if b.toNat = 0xE0 then 0xA0 else 0x80, if b.toNat = 0xED then 0x9F else 0xBF,
        b.toNat - 0xE0⟩
    else if b.toNat < 0xF5 then
      some ⟨3, if b.toNat = 0xF0 then 0x90 else 0x80, if b.toNat = 0xF4 then 0x8F else 0xBF,
        b.toNat - 0xF0⟩
    else none := by
  simp only [lead?, UInt8.lt_iff_toNat_lt, UInt8.reduceToNat, ← UInt8.toNat_inj]
  split_ifs <;> first | omega | simp [*]

theorem lead?_limits (h : lead? b = some lead) : 0x80 ≤ lead.lo.toNat ∧ lead.hi.toNat ≤ 0xBF := by
  rw [lead?_eq] at h
  split_ifs at h <;> cases h <;> simp

/-- The lead byte of a character announces its number. -/
theorem Leads.exists_lead (h : Leads b k n) (hn : n.isValidChar) :
    ∃ lead, lead? b = some lead ∧ lead.more = k ∧ lead.Fits n := by
  rw [isValidChar_iff] at hn
  rw [lead?_eq]
  rcases h with ⟨rfl, h⟩ | ⟨rfl, h⟩ | ⟨rfl, h⟩ | ⟨rfl, h⟩
  · rw [if_pos (by omega)]
    exact ⟨_, rfl, rfl, by simp; omega, by simp, by simp⟩
  · rw [if_neg (by omega), if_neg (by omega), if_pos (by omega)]
    exact ⟨_, rfl, rfl, by simp; omega, by simp, by simp; omega⟩
  · rw [if_neg (by omega), if_neg (by omega), if_neg (by omega), if_pos (by omega)]
    refine ⟨_, rfl, rfl, by simp; omega, ?_, ?_⟩
    · split_ifs <;> simp <;> omega
    · split_ifs <;> simp <;> omega
  · rw [if_neg (by omega), if_neg (by omega), if_neg (by omega), if_neg (by omega),
      if_pos (by omega)]
    refine ⟨_, rfl, rfl, by simp; omega, ?_, ?_⟩
    · split_ifs <;> simp <;> omega
    · split_ifs <;> simp <;> omega

/-- The numbers that a lead byte announces are those of the characters it begins: none is
too small for its tails, a surrogate, or too large. -/
theorem Lead.Fits.leads (hfits : lead.Fits n) (h : lead? b = some lead) :
    Leads b lead.more n ∧ n.isValidChar := by
  obtain ⟨hbits, hlo, hhi⟩ := hfits
  rw [lead?_eq] at h
  rw [isValidChar_iff]
  by_cases hone : b.toNat < 0x80
  · rw [if_pos hone] at h
    cases h
    dsimp only at hbits ⊢
    exact ⟨.inl ⟨rfl, by omega, by omega⟩, by omega⟩
  rw [if_neg hone] at h
  by_cases hnone : b.toNat < 0xC2
  · rw [if_pos hnone] at h
    cases h
  rw [if_neg hnone] at h
  by_cases htwo : b.toNat < 0xE0
  · rw [if_pos htwo] at h
    cases h
    dsimp only at hbits ⊢
    exact ⟨.inr (.inl ⟨rfl, by omega, by omega, by omega⟩), by omega⟩
  rw [if_neg htwo] at h
  by_cases hthree : b.toNat < 0xF0
  · rw [if_pos hthree] at h
    cases h
    have hlo := hlo 1 rfl
    have hhi := hhi 1 rfl
    dsimp only at hbits hlo hhi ⊢
    -- Short forms are excluded behind one byte, surrogates behind another.
    have hlong : 0x800 ≤ n := by
      split_ifs at hlo <;> simp only [UInt8.reduceToNat] at hlo <;> omega
    have hscalar : n < 0xD800 ∨ 0xDFFF < n := by
      split_ifs at hhi <;> simp only [UInt8.reduceToNat] at hhi <;> omega
    exact ⟨.inr (.inr (.inl ⟨rfl, hlong, by omega, by omega⟩)), by omega⟩
  rw [if_neg hthree] at h
  by_cases hfour : b.toNat < 0xF5
  · rw [if_pos hfour] at h
    cases h
    have hlo := hlo 2 rfl
    have hhi := hhi 2 rfl
    dsimp only at hbits hlo hhi ⊢
    have hlong : 0x10000 ≤ n := by
      split_ifs at hlo <;> simp only [UInt8.reduceToNat] at hlo <;> omega
    have hscalar : n < 0x110000 := by
      split_ifs at hhi <;> simp only [UInt8.reduceToNat] at hhi <;> omega
    exact ⟨.inr (.inr (.inr ⟨rfl, hlong, by omega⟩)), by omega⟩
  · rw [if_neg hfour] at h
    cases h

/-! ### Tails -/

theorem length_tails (k n : Nat) : (tails k n).length = k := by
  induction k with
  | zero =>
      rfl
  | succ k ih =>
      rw [tails, List.length_cons, ih]

theorem toNat_tail (m : Nat) : (UInt8.ofNat (0x80 + m % 64)).toNat = 0x80 + m % 64 := by
  rw [UInt8.toNat_ofNat', Nat.mod_eq_of_lt (by omega)]

theorem trail_zero_eq_some_iff :
    trail bits 0 lo hi bytes = (some c, rest) ↔ c = Char.ofNat bits ∧ bytes = rest := by
  rw [trail, Prod.mk.injEq, Option.some.injEq, eq_comm]

theorem trail_succ_eq_some_iff :
    trail bits (k + 1) lo hi bytes = (some c, rest) ↔
      ∃ b later, bytes = b :: later ∧ lo ≤ b ∧ b ≤ hi ∧
        trail (bits * 64 + (b.toNat - 0x80)) k 0x80 0xBF later = (some c, rest) := by
  cases bytes with
  | nil =>
      simp [trail]
  | cons b later =>
      rw [trail]
      by_cases hlimits : lo ≤ b ∧ b ≤ hi
      · simp [hlimits]
      · rw [if_neg hlimits]
        constructor
        · rintro ⟨⟩
        · rintro ⟨_, _, ⟨⟩, hlo, hhi, -⟩
          exact absurd ⟨hlo, hhi⟩ hlimits

/-- Where any tail may come first, only the bits matter. -/
theorem fits_tail_iff : Lead.Fits ⟨k, 0x80, 0xBF, bits⟩ n ↔ n / 64 ^ k = bits := by
  constructor
  · exact fun h => h.bits_eq
  · intro h
    refine ⟨h, fun m _ => ?_, fun m _ => ?_⟩
    · exact Nat.le_add_right 0x80 _
    · have : n / 64 ^ m % 64 < 64 := Nat.mod_lt _ (by decide)
      show 0x80 + n / 64 ^ m % 64 ≤ 0xBF
      omega

/-- Tails are read as far as they spell a number that fits the announcement. -/
theorem trail_eq_some_iff (hlo : 0x80 ≤ lo.toNat) (hhi : hi.toNat ≤ 0xBF) :
    trail bits k lo hi bytes = (some c, rest) ↔
      ∃ n, Lead.Fits ⟨k, lo, hi, bits⟩ n ∧ c = Char.ofNat n ∧ bytes = tails k n ++ rest := by
  induction k generalizing bits lo hi bytes with
  | zero =>
      rw [trail_zero_eq_some_iff]
      constructor
      · rintro ⟨hc, rfl⟩
        exact ⟨bits, ⟨Nat.div_one bits, by simp, by simp⟩, hc, rfl⟩
      · rintro ⟨n, hfits, hc, hbytes⟩
        rw [← show n = bits from (Nat.div_one n).symm.trans hfits.bits_eq]
        exact ⟨hc, hbytes⟩
  | succ k ih =>
      have hpow : ∀ n, n / 64 ^ (k + 1) = n / 64 ^ k / 64 := by
        intro n
        rw [Nat.pow_succ, Nat.div_div_eq_div_mul]
      have hfirst : 0x80 ≤ UInt8.toNat 0x80 := by decide
      have hlast : UInt8.toNat 0xBF ≤ 0xBF := by decide
      rw [trail_succ_eq_some_iff]
      simp only [ih hfirst hlast, fits_tail_iff]
      constructor
      · rintro ⟨b, _, rfl, hlob, hbhi, n, hbits, hc, rfl⟩
        rw [UInt8.le_iff_toNat_le] at hlob hbhi
        have hb : UInt8.ofNat (0x80 + n / 64 ^ k % 64) = b := by
          rw [← UInt8.toNat_inj, toNat_tail]
          omega
        refine ⟨n, ⟨?_, ?_, ?_⟩, hc, by rw [tails, hb, List.cons_append]⟩
        · rw [hpow]
          show n / 64 ^ k / 64 = bits
          omega
        · rintro _ ⟨⟩
          rwa [← toNat_tail, hb]
        · rintro _ ⟨⟩
          rwa [← toNat_tail, hb]
      · rintro ⟨n, hfits, hc, rfl⟩
        have hbits : n / 64 ^ k / 64 = bits := (hpow n).symm.trans hfits.bits_eq
        refine ⟨_, _, rfl, ?_, ?_, n, ?_, hc, rfl⟩
        · rw [UInt8.le_iff_toNat_le, toNat_tail]
          exact hfits.lo_le k rfl
        · rw [UInt8.le_iff_toNat_le, toNat_tail]
          exact hfits.le_hi k rfl
        · rw [toNat_tail]
          omega

/-! ### Characters -/

theorem toNat_ofNat (hn : n.isValidChar) : (Char.ofNat n).toNat = n := by
  rw [Char.ofNat, dif_pos hn]
  rfl

/-- Reading a character, in terms of its number. -/
theorem front_eq_some_iff_leads :
    front b bytes = (some c, rest) ↔ ∃ k, Leads b k c.toNat ∧ bytes = tails k c.toNat ++ rest := by
  rw [front]
  constructor
  · intro h
    cases hlead : lead? b with
    | none =>
        rw [hlead] at h
        cases h
    | some lead =>
        obtain ⟨hlo, hhi⟩ := lead?_limits hlead
        rw [hlead] at h
        obtain ⟨n, hfits, rfl, hbytes⟩ := (trail_eq_some_iff hlo hhi).1 h
        obtain ⟨hleads, hn⟩ := hfits.leads hlead
        rw [toNat_ofNat hn]
        exact ⟨_, hleads, hbytes⟩
  · rintro ⟨k, hleads, hbytes⟩
    obtain ⟨lead, hlead, rfl, hfits⟩ := hleads.exists_lead c.valid
    obtain ⟨hlo, hhi⟩ := lead?_limits hlead
    rw [hlead]
    exact (trail_eq_some_iff hlo hhi).2 ⟨c.toNat, hfits, (Char.ofNat_toNat c).symm, hbytes⟩

/-! ### Encodings -/

theorem utf8EncodeChar_eq (c : Char) : String.utf8EncodeChar c =
    if c.toNat < 0x80 then UInt8.ofNat c.toNat :: tails 0 c.toNat
    else if c.toNat < 0x800 then UInt8.ofNat (0xC0 + c.toNat / 64) :: tails 1 c.toNat
    else if c.toNat < 0x10000 then UInt8.ofNat (0xE0 + c.toNat / 4096) :: tails 2 c.toNat
    else UInt8.ofNat (0xF0 + c.toNat / 262144) :: tails 3 c.toNat := by
  have hvalid := isValidChar_iff.1 c.valid
  have hn : c.val.toNat = c.toNat := rfl
  rw [hn] at hvalid
  simp only [String.utf8EncodeChar, hn, tails]
  generalize c.toNat = n at *
  split_ifs <;> first | omega | (simp [← UInt8.toNat_inj]; try omega)

theorem utf8EncodeChar_eq_cons_iff {w : List Byte} :
    String.utf8EncodeChar c = b :: w ↔ ∃ k, Leads b k c.toNat ∧ w = tails k c.toNat := by
  have hvalid := isValidChar_iff.1 c.valid
  change c.toNat < _ ∨ _ < c.toNat ∧ c.toNat < _ at hvalid
  rw [utf8EncodeChar_eq]
  constructor
  · intro h
    split_ifs at h <;> cases h
    · refine ⟨0, .inl ⟨rfl, by omega, ?_⟩, rfl⟩
      rw [UInt8.toNat_ofNat', Nat.mod_eq_of_lt (by omega)]
    · refine ⟨1, .inr (.inl ⟨rfl, by omega, by omega, ?_⟩), rfl⟩
      rw [UInt8.toNat_ofNat', Nat.mod_eq_of_lt (by omega)]
    · refine ⟨2, .inr (.inr (.inl ⟨rfl, by omega, by omega, ?_⟩)), rfl⟩
      rw [UInt8.toNat_ofNat', Nat.mod_eq_of_lt (by omega)]
    · refine ⟨3, .inr (.inr (.inr ⟨rfl, by omega, ?_⟩)), rfl⟩
      rw [UInt8.toNat_ofNat', Nat.mod_eq_of_lt (by omega)]
  · rintro ⟨k, ⟨rfl, hn, hb⟩ | ⟨rfl, hlo, hhi, hb⟩ | ⟨rfl, hlo, hhi, hb⟩ | ⟨rfl, hlo, hb⟩, rfl⟩
    · rw [if_pos hn, ← hb, UInt8.ofNat_toNat]
    · rw [if_neg (by omega), if_pos hhi, ← hb, UInt8.ofNat_toNat]
    · rw [if_neg (by omega), if_neg (by omega), if_pos hhi, ← hb, UInt8.ofNat_toNat]
    · rw [if_neg (by omega), if_neg (by omega), if_neg (by omega), ← hb, UInt8.ofNat_toNat]

theorem exists_utf8EncodeChar_eq_cons (c : Char) : ∃ b w, String.utf8EncodeChar c = b :: w :=
  List.exists_cons_of_ne_nil String.utf8EncodeChar_ne_nil

/-- A character is read where its encoding stands, and nowhere else. -/
theorem front_eq_some_iff :
    front b bytes = (some c, rest) ↔ b :: bytes = String.utf8EncodeChar c ++ rest := by
  rw [front_eq_some_iff_leads]
  constructor
  · rintro ⟨k, hleads, rfl⟩
    rw [utf8EncodeChar_eq_cons_iff.2 ⟨k, hleads, rfl⟩, List.cons_append]
  · intro h
    obtain ⟨b', w, hc⟩ := exists_utf8EncodeChar_eq_cons c
    rw [hc, List.cons_append] at h
    cases h
    obtain ⟨k, hleads, rfl⟩ := utf8EncodeChar_eq_cons_iff.1 hc
    exact ⟨k, hleads, rfl⟩

theorem fst_front_eq_some_iff :
    (front b bytes).1 = some c ↔ String.utf8EncodeChar c <+: b :: bytes := by
  constructor
  · intro h
    exact ⟨(front b bytes).2, (front_eq_some_iff.1 (Prod.ext h rfl)).symm⟩
  · rintro ⟨rest, h⟩
    rw [front_eq_some_iff.2 h.symm]

/-- Where some encoded characters stand, lossy reading gives them and goes on behind them. -/
theorem lossyChars_bytesOf_append (chars : List Char) (rest : List Byte) :
    lossyChars (bytesOf chars ++ rest) = chars ++ lossyChars rest := by
  induction chars with
  | nil =>
      rfl
  | cons c chars ih =>
      obtain ⟨b, w, hc⟩ := exists_utf8EncodeChar_eq_cons c
      have hfront : front b (w ++ (bytesOf chars ++ rest)) =
          (some c, bytesOf chars ++ rest) := by
        rw [front_eq_some_iff, hc, List.cons_append]
      rw [bytesOf_cons, List.append_assoc, hc, List.cons_append, lossyChars, hfront,
        Option.getD_some, ih, List.cons_append]

theorem lossy_bytesOf (chars : List Char) : lossy (bytesOf chars) = String.ofList chars := by
  rw [lossy, ← List.append_nil (bytesOf chars), lossyChars_bytesOf_append, lossyChars,
    List.append_nil]

/-- Strict reading gives the characters of which the bytes are the encoding. -/
theorem decode?_eq_some_iff {chars : List Char} :
    decode? bytes = some chars ↔ bytes = bytesOf chars := by
  induction chars generalizing bytes with
  | nil =>
      cases bytes with
      | nil =>
          simp [decode?]
      | cons b bytes =>
          rw [decode?]
          split <;> simp
  | cons c chars ih =>
      cases bytes with
      | nil =>
          simp [decode?]
      | cons b bytes =>
          rw [bytesOf_cons, ← front_eq_some_iff, decode?]
          rcases hfront : front b bytes with ⟨first, later⟩
          cases first with
          | none =>
              simp
          | some d =>
              simp [ih, and_comm]

/-! ### ASCII -/

theorem le_of_mem_tails (h : b ∈ tails k n) : 0x80 ≤ b.toNat := by
  induction k with
  | zero =>
      cases h
  | succ k ih =>
      rcases List.mem_cons.1 h with rfl | h
      · rw [toNat_tail]
        exact Nat.le_add_right _ _
      · exact ih h

/-- An ASCII byte stands only where its character does. -/
theorem toNat_eq_of_mem_utf8EncodeChar (h : b ∈ String.utf8EncodeChar c) (hb : b.toNat < 0x80) :
    c.toNat = b.toNat := by
  obtain ⟨lead, w, hc⟩ := exists_utf8EncodeChar_eq_cons c
  obtain ⟨k, hleads, rfl⟩ := utf8EncodeChar_eq_cons_iff.1 hc
  rw [hc] at h
  rcases List.mem_cons.1 h with rfl | h
  · rcases hleads with ⟨-, -, hn⟩ | ⟨-, -, -, hn⟩ | ⟨-, -, -, hn⟩ | ⟨-, -, hn⟩
    · exact hn.symm
    · omega
    · omega
    · omega
  · have := le_of_mem_tails h
    omega

/-- There are as many bytes as characters, and more if a character is not ASCII. -/
theorem length_bytesOf_eq_iff {chars : List Char} :
    chars.length ≤ (bytesOf chars).length ∧
      ((bytesOf chars).length = chars.length ↔ ∀ c ∈ chars, c.toNat < 0x80) := by
  induction chars with
  | nil =>
      simp
  | cons c chars ih =>
      obtain ⟨hle, hiff⟩ := ih
      have hpos := c.utf8Size_pos
      have hone : c.utf8Size = 1 ↔ c.toNat < 0x80 := by
        rw [Char.utf8Size_eq_one_iff, UInt32.le_iff_toNat_le]
        exact Nat.lt_succ_iff.symm
      rw [bytesOf_cons, List.length_append, String.length_utf8EncodeChar, List.length_cons,
        List.forall_mem_cons, ← hone, ← hiff]
      omega

/-! ### The character in front -/

theorem Leads.announcedWidth_eq (h : Leads b k n) (hn : n.isValidChar) :
    announcedWidth b = k + 1 := by
  rw [isValidChar_iff] at hn
  simp only [announcedWidth, UInt8.lt_iff_toNat_lt, UInt8.reduceToNat]
  rcases h with ⟨rfl, h⟩ | ⟨rfl, h⟩ | ⟨rfl, h⟩ | ⟨rfl, h⟩
  · rw [if_pos (by omega)]
  · rw [if_neg (by omega), if_pos (by omega)]
  · rw [if_neg (by omega), if_neg (by omega), if_pos (by omega)]
  · rw [if_neg (by omega), if_neg (by omega), if_neg (by omega), if_pos (by omega)]

/-- The width that the first byte announces is that of the character it begins. -/
theorem announcedWidth_eq {w : List Byte} (h : String.utf8EncodeChar c = b :: w) :
    announcedWidth b = (String.utf8EncodeChar c).length := by
  obtain ⟨k, hleads, rfl⟩ := utf8EncodeChar_eq_cons_iff.1 h
  rw [h, List.length_cons, length_tails, hleads.announcedWidth_eq c.valid]

theorem exists_announcedWidth (b : Byte) : ∃ width, announcedWidth b = width + 1 := by
  unfold announcedWidth
  split_ifs <;> exact ⟨_, rfl⟩

/-- Where no character stands, none stands in any of the bytes from there on. -/
theorem fst_front_eq_none_of_prefix {w : List Byte} (h : (front b bytes).1 = none)
    (hw : b :: w <+: b :: bytes) : (front b w).1 = none := by
  rw [Option.eq_none_iff_forall_not_mem] at h ⊢
  intro c hc
  exact h c (fst_front_eq_some_iff.2 ((fst_front_eq_some_iff.1 hc).trans hw))

/-- The announced width is tried for well-formedness, and that finds the character in front
if there is one. -/
theorem frontText_cons (b : Byte) (bytes : List Byte) :
    frontText (b :: bytes) = String.singleton ((front b bytes).1.getD replacement) := by
  obtain ⟨width, hwidth⟩ := exists_announcedWidth b
  cases hfront : (front b bytes).1 with
  | some c =>
      have hstands := fst_front_eq_some_iff.1 hfront
      have htake : (b :: bytes).take (announcedWidth b) = String.utf8EncodeChar c := by
        obtain ⟨d, w, hc⟩ := exists_utf8EncodeChar_eq_cons c
        rw [hc, List.cons_prefix_cons] at hstands
        obtain ⟨rfl, hw⟩ := hstands
        rw [announcedWidth_eq hc, hc, List.length_cons, List.take_succ_cons,
          ← List.prefix_iff_eq_take.1 hw]
      have hread : decode? (String.utf8EncodeChar c) = some [c] := by
        rw [decode?_eq_some_iff, bytesOf_cons, bytesOf_nil, List.append_nil]
      rw [frontText, htake, hread]
      rfl
  | none =>
      have hstrict : decode? (b :: bytes.take width) = none := by
        have hnone := fst_front_eq_none_of_prefix hfront
          (List.cons_prefix_cons.2 ⟨rfl, List.take_prefix width bytes⟩)
        rw [decode?, hnone]
      have halone := fst_front_eq_none_of_prefix hfront
        (List.cons_prefix_cons.2 ⟨rfl, List.nil_prefix⟩)
      have hlossy : lossyChars [b] = [replacement] := by
        have hrest : (front b []).2 = [] :=
          List.length_eq_zero_iff.1 (Nat.le_zero.1 (front_length_le b []))
        rw [lossyChars, halone, hrest, lossyChars]
        rfl
      rw [frontText, hwidth, List.take_succ_cons, hstrict, lossy, hlossy]
      rfl

end Reading

end Utf8
end Munch
