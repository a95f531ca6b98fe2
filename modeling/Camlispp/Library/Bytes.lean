import Mathlib.Data.List.Basic
import Mathlib.Data.List.Lex
import Mathlib.Data.List.TakeWhile
import Mathlib.Tactic.Linarith

/-!
# Byte strings

The strings of a C++ program, as lists of bytes: a `std::string` may hold any byte, `NUL` and
bytes from 128 on included, and compares lexicographically by unsigned byte.

The operations are the ones a program takes from `<string>`, `<cstring>` and `<sstream>`, with the
two places where the machine shows through kept visible:

* `cString` is what a function that takes a bare `const char *` sees of a buffer: everything up to
  the first `NUL`;
* `findUnsigned` is `unsigned p = s.find(pat)` on a platform with a 64-bit `size_t` and a 32-bit
  `unsigned`: the position is reduced modulo `2 ^ 32`, so "not found" becomes `2 ^ 32 - 1` and is
  **not** equal to `npos`.

Nothing here depends on a particular program.
-/

/-- Bytes are ordered as unsigned numbers, which is how `std::char_traits<char>` compares. -/
instance linearOrderByte : LinearOrder UInt8 where
  le_refl := UInt8.le_refl
  le_trans _ _ _ := UInt8.le_trans
  le_antisymm _ _ := UInt8.le_antisymm
  le_total := UInt8.le_total
  lt_iff_le_not_ge _ _ := by
    simp only [UInt8.le_iff_toNat_le, UInt8.lt_iff_toNat_lt]
    omega
  toDecidableLE := inferInstance
  toDecidableLT := inferInstance
  toDecidableEq := inferInstance

/-- A byte string. -/
abbrev Bytes := List UInt8

namespace Bytes

/-- The bytes of an ASCII literal. -/
def lit (s : String) : Bytes := s.toList.map fun c ↦ UInt8.ofNat c.toNat

/-- Carriage return and line feed. -/
def crlf : Bytes := [13, 10]

/-! ### C strings -/

/-- What a function taking `const char *` reads of a buffer: the bytes before the first `NUL`. -/
def cString (s : Bytes) : Bytes := s.takeWhile (· ≠ 0)

/-- A buffer without `NUL` is read whole. -/
theorem cString_eq_self {s : Bytes} (h : (0 : UInt8) ∉ s) : cString s = s := by
  refine List.takeWhile_eq_self_iff.2 fun b hb ↦ ?_
  exact decide_eq_true fun h0 ↦ h (h0 ▸ hb)

/-! ### Searching -/

/-- The position of the first occurrence of `pat`, as `std::string::find`. -/
def find (pat : Bytes) : Bytes → Option ℕ
  | [] => if pat.isEmpty then some 0 else none
  | b :: s => if pat.isPrefixOf (b :: s) then some 0 else (find pat s).map (· + 1)

/-- `std::string::npos` on a 64-bit platform. -/
def npos : ℕ := 2 ^ 64 - 1

/-- `unsigned p = s.find(pat)`: a 64-bit position kept in a 32-bit variable. -/
def findUnsigned (pat s : Bytes) : ℕ := (find pat s).getD npos % 2 ^ 32

/-- A position kept in 32 bits never equals `npos`, so a test against it always says "found". -/
theorem findUnsigned_ne_npos (pat s : Bytes) : findUnsigned pat s ≠ npos := by
  have hlt : findUnsigned pat s < 2 ^ 32 := Nat.mod_lt _ (by norm_num)
  intro h
  rw [h] at hlt
  exact absurd hlt (by decide)

/-- The first occurrence of a byte is behind the bytes that differ from it. -/
theorem find_singleton_append {c : UInt8} {s : Bytes} (h : c ∉ s) (t : Bytes) :
    find [c] (s ++ c :: t) = some s.length := by
  induction s with
  | nil => simp [find]
  | cons b s ih =>
    have hb : ¬c = b := fun e ↦ h (e ▸ List.mem_cons_self)
    have hs : c ∉ s := fun m ↦ h (List.mem_cons_of_mem _ m)
    simp [find, hb, ih hs]

/-- A byte that does not occur is not found. -/
theorem find_singleton_of_notMem {c : UInt8} {s : Bytes} (h : c ∉ s) : find [c] s = none := by
  induction s with
  | nil => simp [find]
  | cons b s ih =>
    have hb : ¬c = b := fun e ↦ h (e ▸ List.mem_cons_self)
    have hs : c ∉ s := fun m ↦ h (List.mem_cons_of_mem _ m)
    simp [find, hb, ih hs]

theorem find_cons_of_notMem {c : UInt8} {s : Bytes} (h : c ∉ s) (p : Bytes) :
    find (c :: p) s = none := by
  induction s with
  | nil => rfl
  | cons b s ih =>
    obtain ⟨hb, hs⟩ := not_or.1 (mt List.mem_cons.2 h)
    simp [find, hb, ih hs]

theorem find_eq_none_iff {pat s : Bytes} (hpat : pat ≠ []) : find pat s = none ↔ ¬pat <:+: s := by
  induction s with
  | nil =>
    rw [find, if_neg (by simpa using hpat)]
    simpa using hpat
  | cons b s ih =>
    rw [find, List.infix_cons_iff, not_or, ← ih, ← List.isPrefixOf_iff_prefix]
    split_ifs with hpre
    · simp [hpre]
    · simp [hpre]

theorem findUnsigned_of_find {pat s : Bytes} {n : ℕ} (h : find pat s = some n) (hn : n < 2 ^ 32) :
    findUnsigned pat s = n := by
  rw [findUnsigned, h, Option.getD_some, Nat.mod_eq_of_lt hn]

/-- "Not found", after the reduction to 32 bits. -/
theorem findUnsigned_of_find_none {pat s : Bytes} (h : find pat s = none) :
    findUnsigned pat s = 2 ^ 32 - 1 := by
  rw [findUnsigned, h]
  decide

/-! ### Splitting at a separator -/

/-- What stands before and behind the first `c`, by a position kept in an `unsigned`. -/
def splitUnsigned (c : UInt8) (s : Bytes) : Bytes × Bytes :=
  (s.take (findUnsigned [c] s), s.drop ((findUnsigned [c] s + 1) % 2 ^ 32))

/-- **The split is right** exactly if the position behind the separator fits in the variable. -/
theorem splitUnsigned_append_iff {c : UInt8} {u v : Bytes} (hu : c ∉ u) :
    splitUnsigned c (u ++ c :: v) = (u, v) ↔ u.length + 1 < 2 ^ 32 := by
  have hfind : findUnsigned [c] (u ++ c :: v) = u.length % 2 ^ 32 := by
    rw [findUnsigned, find_singleton_append hu, Option.getD_some]
  rw [splitUnsigned, hfind, Prod.mk.injEq]
  constructor
  · rintro ⟨htake, hdrop⟩
    have hn := congrArg List.length htake
    have hm := congrArg List.length hdrop
    rw [List.length_take, List.length_append, List.length_cons] at hn
    rw [List.length_drop, List.length_append, List.length_cons] at hm
    omega
  · intro hlen
    rw [Nat.mod_eq_of_lt (by omega), Nat.mod_eq_of_lt hlen]
    simp

/-- Without a separator both sides are the whole text, as far as it fits. -/
theorem splitUnsigned_of_notMem {c : UInt8} {s : Bytes} (h : c ∉ s) :
    splitUnsigned c s = (s.take (2 ^ 32 - 1), s) := by
  rw [splitUnsigned, findUnsigned_of_find_none (find_singleton_of_notMem h)]
  simp

/-- Behind a separator that is out of reach, the cut is at or before it. -/
theorem mem_splitUnsigned_of_le {c : UInt8} {u v : Bytes} (hlen : 2 ^ 32 ≤ u.length + 1) :
    c ∈ (splitUnsigned c (u ++ c :: v)).2 := by
  have hcut : (findUnsigned [c] (u ++ c :: v) + 1) % 2 ^ 32 ≤ u.length := by
    have := Nat.mod_lt (findUnsigned [c] (u ++ c :: v) + 1) (show 0 < 2 ^ 32 by decide)
    omega
  rw [splitUnsigned, List.drop_append_of_le_length hcut]
  exact List.mem_append_right _ List.mem_cons_self

/-- The position of the last occurrence of `pat`. -/
def findLast (pat : Bytes) : Bytes → Option ℕ
  | [] => if pat.isEmpty then some 0 else none
  | b :: s =>
    match findLast pat s with
    | some i => some (i + 1)
    | none => if pat.isPrefixOf (b :: s) then some 0 else none

/-- `boost::erase_last`. -/
def eraseLast (pat s : Bytes) : Bytes :=
  match findLast pat s with
  | some i => s.take i ++ s.drop (i + pat.length)
  | none => s

/-- What was appended last is erased first. -/
theorem eraseLast_append (s : Bytes) {pat : Bytes} (h : findLast pat pat = some 0) :
    eraseLast pat (s ++ pat) = s := by
  have hfind : findLast pat (s ++ pat) = some s.length := by
    induction s with
    | nil => exact h
    | cons b s ih => simp [findLast, ih]
  simp [eraseLast, hfind]

theorem findLast_eq_none_iff {pat s : Bytes} (hpat : pat ≠ []) :
    findLast pat s = none ↔ ¬pat <:+: s := by
  induction s with
  | nil =>
    rw [findLast, if_neg (by simpa using hpat)]
    simpa using hpat
  | cons b s ih =>
    rw [findLast, List.infix_cons_iff, not_or, ← ih, ← List.isPrefixOf_iff_prefix]
    rcases findLast pat s with - | i
    · simp
    · simp

/-- Where an occurrence is found, there is one. -/
theorem exists_of_findLast {pat s : Bytes} {i : ℕ} (h : findLast pat s = some i) :
    ∃ u v, s = u ++ (pat ++ v) ∧ u.length = i := by
  induction s generalizing i with
  | nil =>
    rw [findLast] at h
    split_ifs at h with hpat
    exact ⟨[], [], by simpa using hpat, by simpa using h⟩
  | cons b s ih =>
    rw [findLast] at h
    rcases hs : findLast pat s with - | j
    · simp only [hs] at h
      split_ifs at h with hpre
      obtain ⟨v, hv⟩ := List.isPrefixOf_iff_prefix.1 hpre
      exact ⟨[], v, hv.symm, Option.some.inj h⟩
    · simp only [hs] at h
      obtain ⟨u, v, rfl, hu⟩ := ih hs
      exact ⟨b :: u, v, rfl, by rw [List.length_cons, hu]; exact Option.some.inj h⟩

theorem eraseLast_eq_self {pat s : Bytes} (hpat : pat ≠ []) (h : ¬pat <:+: s) :
    eraseLast pat s = s := by
  rw [eraseLast, (findLast_eq_none_iff hpat).2 h]

/-- Exactly one occurrence goes. -/
theorem length_eraseLast {pat s : Bytes} (hpat : pat ≠ []) (h : pat <:+: s) :
    (eraseLast pat s).length + pat.length = s.length := by
  rcases hfind : findLast pat s with - | i
  · exact absurd h ((findLast_eq_none_iff hpat).1 hfind)
  · obtain ⟨u, v, rfl, rfl⟩ := exists_of_findLast hfind
    rw [eraseLast, hfind]
    simp only [List.take_left, List.length_append, List.length_drop]
    omega

/-! ### Places where a string does not start -/

/-- No occurrence of `d` in `u ++ t` starts inside `u`. -/
def Clear (d u t : Bytes) : Prop := ∀ u₁ c u₂, u = u₁ ++ c :: u₂ → ¬d <+: c :: (u₂ ++ t)

/-- A prefix that avoids the separator ends before it. -/
theorem prefix_of_prefix_append_cons {d a s : Bytes} {c : UInt8} (hc : c ∉ d)
    (h : d <+: a ++ c :: s) : d <+: a := by
  rcases Nat.lt_or_ge a.length d.length with hlt | hge
  · have hpre : a ++ [c] <+: d := by
      have hlen : (a ++ [c]).length ≤ d.length := by
        rw [List.length_append, List.length_singleton]
        exact hlt
      exact List.prefix_of_prefix_length_le ⟨s, by simp⟩ h hlen
    exact absurd (hpre.subset (by simp)) hc
  · exact List.prefix_of_prefix_length_le h (List.prefix_append _ _) hge

theorem Clear.append {d a b t : Bytes} (ha : Clear d a (b ++ t)) (hb : Clear d b t) :
    Clear d (a ++ b) t := by
  intro u₁ c u₂ hu
  rcases List.append_eq_append_iff.1 hu with ⟨v, hv₁, hv₂⟩ | ⟨v, hv₁, hv₂⟩
  · exact hb v c u₂ hv₂
  · cases v with
    | nil => exact hb [] c u₂ (by simpa using hv₂.symm)
    | cons x v =>
      obtain ⟨rfl, hv⟩ := List.cons.inj hv₂
      have := ha u₁ c v hv₁
      rwa [← List.append_assoc, ← show u₂ = v ++ b from hv] at this

/-- A text without occurrences is clear in front of a byte that cannot continue one. -/
theorem clear_of_not_infix {d a : Bytes} {c : UInt8} (hc : c ∉ d) (ha : ¬d <:+: a) (s : Bytes) :
    Clear d a (c :: s) := by
  intro u₁ x u₂ hu hd
  obtain ⟨v, hv⟩ := prefix_of_prefix_append_cons (a := x :: u₂) hc hd
  exact ha ⟨u₁, v, by rw [hu, ← hv, List.append_assoc]⟩

theorem clear_singleton {d : Bytes} {c : UInt8} (hd : d ≠ []) (hc : c ∉ d) (t : Bytes) :
    Clear d [c] t := by
  intro u₁ x u₂ hu hpre
  obtain ⟨rfl, rfl, rfl⟩ : u₁ = [] ∧ x = c ∧ u₂ = [] := by
    cases u₁ with
    | nil => simpa [eq_comm] using hu
    | cons y u₁ => simp at hu
  cases d with
  | nil => exact hd rfl
  | cons y d =>
    obtain ⟨v, hv⟩ := hpre
    exact hc ((List.cons.inj hv).1 ▸ List.mem_cons_self)

/-- **The first element without a property.** -/
theorem exists_first {α : Type*} {P : α → Prop} {l : List α} (h : ¬∀ x ∈ l, P x) :
    ∃ l₁ x l₂, l = l₁ ++ x :: l₂ ∧ (∀ y ∈ l₁, P y) ∧ ¬P x := by
  classical
  obtain ⟨x, hx, hPx⟩ := not_forall₂.1 h
  have hsome : (l.find? fun x ↦ ¬P x).isSome :=
    List.find?_isSome.2 ⟨x, hx, decide_eq_true hPx⟩
  obtain ⟨y, hy⟩ := Option.isSome_iff_exists.1 hsome
  obtain ⟨hPy, l₁, l₂, hl, hl₁⟩ := List.find?_eq_some_iff_append.1 hy
  exact ⟨l₁, y, l₂, hl, fun z hz ↦ by simpa using hl₁ z hz, of_decide_eq_true hPy⟩

/-! ### Letter case -/

/-- `tolower` on one byte, in the C locale. -/
def toLower (b : UInt8) : UInt8 := if 65 ≤ b ∧ b ≤ 90 then b + 32 else b

/-- `boost::to_lower_copy`. -/
def lower (s : Bytes) : Bytes := s.map toLower

/-! ### Classes of bytes -/

/-- Whether a byte is a decimal digit. -/
def isDigit (b : UInt8) : Bool := 48 ≤ b && b ≤ 57

/-- Whether a byte is a letter. -/
def isAlpha (b : UInt8) : Bool := 65 ≤ b && b ≤ 90 || 97 ≤ b && b ≤ 122

/-- Whether a byte is a letter or a digit. -/
def isAlnum (b : UInt8) : Bool := isAlpha b || isDigit b

/-- Whether a byte is an upper-case hex digit. -/
def isUpperHex (b : UInt8) : Bool := 48 ≤ b && b ≤ 57 || 65 ≤ b && b ≤ 70

/-- Whether a byte is a hex digit of either case. -/
def isHexDigit (b : UInt8) : Bool := isUpperHex b || 97 ≤ b && b ≤ 102

/-- Whether a byte is white space, in the C locale. -/
def isSpace (b : UInt8) : Bool := b = 32 || 9 ≤ b && b ≤ 13

theorem isAlnum_of_isUpperHex {b : UInt8} (h : isUpperHex b = true) : isAlnum b = true := by
  simp only [isUpperHex, isAlnum, isAlpha, isDigit, Bool.or_eq_true, Bool.and_eq_true,
    decide_eq_true_eq] at h ⊢
  rcases h with h | h
  · exact Or.inr h
  · exact Or.inl (Or.inl ⟨h.1, le_trans h.2 (by decide)⟩)

theorem isAlnum_of_isHexDigit {b : UInt8} (h : isHexDigit b = true) : isAlnum b = true := by
  simp only [isHexDigit, Bool.or_eq_true, Bool.and_eq_true, decide_eq_true_eq] at h
  rcases h with h | h
  · exact isAlnum_of_isUpperHex h
  · simp only [isAlnum, isAlpha, Bool.or_eq_true, Bool.and_eq_true, decide_eq_true_eq]
    exact Or.inl (Or.inr ⟨h.1, le_trans h.2 (by decide)⟩)

/-! ### Numbers -/

/-- The value an `int` takes when a wider integer is stored in it. -/
def int32 (n : ℤ) : ℤ := n.bmod (2 ^ 32)

theorem int32_range (n : ℤ) : -2 ^ 31 ≤ int32 n ∧ int32 n < 2 ^ 31 := by
  rw [int32, Int.bmod_def]
  omega

theorem int32_of_lt {n : ℕ} (h : n < 2 ^ 31) : int32 n = n := by
  rw [int32, Int.bmod_def]
  omega

/-- The decimal digits of a natural number. -/
def decimal (n : ℕ) : Bytes := (Nat.toDigits 10 n).map fun c ↦ UInt8.ofNat c.toNat

/-- The decimal text of an integer, as `operator<<` and `boost::lexical_cast` print it. -/
def decimalInt : ℤ → Bytes
  | .ofNat n => decimal n
  | .negSucc n => 45 :: decimal (n + 1)

theorem toNat_ofNat_of_isDigit {c : Char} (h : c.isDigit = true) :
    48 ≤ c.toNat ∧ c.toNat ≤ 57 ∧ (UInt8.ofNat c.toNat).toNat = c.toNat := by
  have hc : 48 ≤ c.toNat ∧ c.toNat ≤ 57 := by
    simpa [Char.isDigit, UInt32.le_iff_toNat_le] using h
  refine ⟨hc.1, hc.2, ?_⟩
  rw [UInt8.toNat_ofNat']
  omega

theorem isDigit_of_mem_decimal {n : ℕ} {b : UInt8} (h : b ∈ decimal n) : isDigit b = true := by
  obtain ⟨c, hc, rfl⟩ := List.mem_map.1 h
  obtain ⟨hlo, hhi, hval⟩ :=
    toNat_ofNat_of_isDigit (Nat.isDigit_of_mem_toDigits (by norm_num) le_rfl hc)
  simp only [isDigit, UInt8.le_iff_toNat_le, hval, Bool.and_eq_true, decide_eq_true_eq]
  exact ⟨hlo, hhi⟩

theorem decimal_ne_nil (n : ℕ) : decimal n ≠ [] := by
  simp [decimal, Nat.toDigits_ne_nil]

/-- The number a run of decimal digits denotes. -/
def decimalValue (s : Bytes) : ℕ := s.foldl (fun n b ↦ 10 * n + (b.toNat - 48)) 0

/-- **Decimal numerals are read back.** -/
theorem decimalValue_decimal (n : ℕ) : decimalValue (decimal n) = n := by
  rw [decimalValue, decimal, List.foldl_map]
  refine Eq.trans ?_ (Nat.ofDigitChars_ten_toDigits (n := n))
  rw [Nat.ofDigitChars_eq_foldl]
  refine List.foldl_ext _ _ _ fun a c hc ↦ ?_
  obtain ⟨-, -, hval⟩ :=
    toNat_ofNat_of_isDigit (Nat.isDigit_of_mem_toDigits (by norm_num) le_rfl hc)
  rw [hval]
  rfl

/-- `strtol` in base ten, with a 64-bit `long`: white space is skipped, a sign may stand, and digits
up to the first other character count. What does not fit is clamped. -/
def strtol (s : Bytes) : ℤ :=
  let s := s.dropWhile isSpace
  let negative := s.head? = some 45
  let s := if negative ∨ s.head? = some 43 then s.tail else s
  let value : ℤ := decimalValue (s.takeWhile isDigit)
  max (-2 ^ 63) (min (2 ^ 63 - 1) (if negative then -value else value))

/-- `atoi`: the `int` of `strtol`. -/
def atoi (s : Bytes) : ℤ := int32 (strtol s)

theorem decimal_injective : Function.Injective decimal := fun m n h ↦ by
  rw [← decimalValue_decimal m, h, decimalValue_decimal]

theorem decimalInt_eq_decimal_iff {n : ℤ} {m : ℕ} : decimalInt n = decimal m ↔ n = m := by
  cases n with
  | ofNat n => exact decimal_injective.eq_iff.trans Int.natCast_inj.symm
  | negSucc n =>
    refine ⟨fun h ↦ ?_, fun h ↦ by cases h⟩
    have hdash : 45 ∈ decimal m := h ▸ List.mem_cons_self
    exact absurd (isDigit_of_mem_decimal hdash) (by decide)

end Bytes
