import Camlispp.Server.Query

/-!
# Percent-encoding

`url_decode` against the percent-encoding it is meant to undo. The two characters of an escape go
through a formatted extraction, which is content with less than two hex digits: a digit and
anything, a blank and a digit, or a sign and a digit (`Readable`). Only a pair it cannot read at
all, or an escape that is cut off, is refused.

So `url_decode` is exact (`decodesExactly_iff`) on the texts whose escapes are all well-formed and
on those with an unreadable escape, and on no others.

## What the result rests on

* `extractHex` follows `num_get`: it skips blanks, takes a sign, and then as many hex digits as
  there are. It is handed exactly two characters, so these are all the cases there are.
* `isSome_urlDecode` and `urlDecode_of_wellEscaped` are the two inductions over the text, escape by
  escape; an escape always takes three characters, whatever was read of it.
* `decodesExactly_iff` puts them together: a readable escape that is not well-formed is accepted
  where an exact decoder refuses it.
-/

open Bytes

namespace Camlispp

/-! ### What the decoding ought to be -/

/-- Every `%` that starts an escape is followed by two hex digits. -/
def wellEscaped : Bytes → Bool
  | [] => true
  | 37 :: a :: b :: s => isHexDigit a && isHexDigit b && wellEscaped s
  | 37 :: _ => false
  | _ :: s => wellEscaped s

/-- Escapes replaced by the bytes they denote, and plus signs by spaces. -/
def unescaped : Bytes → Bytes
  | [] => []
  | 37 :: a :: b :: s => UInt8.ofNat (16 * hexValue a + hexValue b) :: unescaped s
  | 43 :: s => 32 :: unescaped s
  | c :: s => c :: unescaped s

/-- The number of escapes. -/
def escapes : Bytes → ℕ
  | [] => 0
  | 37 :: _ :: _ :: s => escapes s + 1
  | _ :: s => escapes s

/-- `url_decode` returns true exactly on well-formed texts, and then decodes them. -/
def DecodesExactly (s : Bytes) : Prop :=
  ((urlDecode s).isSome = true ↔ wellEscaped s = true) ∧
    ∀ out, urlDecode s = some out → out = unescaped s ∧ out.length + 2 * escapes s = s.length

/-! ### What the extraction reads -/

/-- Two characters from which a number can be extracted: a hex digit first, but not a `0x`, or a
hex digit behind a blank or a sign. -/
def Readable (a b : UInt8) : Bool :=
  (isHexDigit a && !(a = 48 && (b = 120 || b = 88))) ||
    ((isSpace a || a = 43 || a = 45) && isHexDigit b)

/-- Some escape is cut off or unreadable. -/
def hasUnreadable : Bytes → Bool
  | [] => false
  | 37 :: a :: b :: s => !Readable a b || hasUnreadable s
  | 37 :: _ => true
  | _ :: s => hasUnreadable s

theorem not_isSpace_of_isHexDigit {a : UInt8} (ha : isHexDigit a = true) :
    isSpace a = false ∧ a ≠ 45 ∧ a ≠ 43 := by
  simp only [isHexDigit, isUpperHex, isSpace, Bool.or_eq_true, Bool.and_eq_true, decide_eq_true_eq,
    Bool.or_eq_false_iff, Bool.and_eq_false_iff, decide_eq_false_iff_not, UInt8.le_iff_toNat_le,
    ← UInt8.toNat_inj, UInt8.reduceToNat, ne_eq] at *
  omega

/-- What is extracted where no blank, no sign and no `0x` stands. -/
theorem extractHex_of_plain {s : Bytes} {a : UInt8} (hspace : isSpace a = false) (h45 : a ≠ 45)
    (h43 : a ≠ 43)
    (h0x : ((lit "0x").isPrefixOf (a :: s) || (lit "0X").isPrefixOf (a :: s)) = false) :
    extractHex (a :: s) =
      if (a :: s).takeWhile isHexDigit = [] then none
      else some
        (((a :: s).takeWhile isHexDigit).foldl (fun n b ↦ 16 * n + (hexValue b : ℤ)) 0) := by
  have hdrop : (a :: s).dropWhile isSpace = a :: s := List.dropWhile_cons_of_neg (by simp [hspace])
  simp only [extractHex, hdrop, List.head?_cons, Option.some.injEq, h45, h43, or_self, if_false,
    h0x, Bool.false_eq_true]

theorem isPrefixOf_0x_singleton (b : UInt8) :
    ((lit "0x").isPrefixOf [b] || (lit "0X").isPrefixOf [b]) = false := by
  simp [lit, List.isPrefixOf]

theorem isPrefixOf_0x_pair {a b : UInt8} (h : ¬(a = 48 ∧ (b = 120 ∨ b = 88))) :
    ((lit "0x").isPrefixOf [a, b] || (lit "0X").isPrefixOf [a, b]) = false := by
  rw [Bool.or_eq_false_iff, Bool.eq_false_iff, Bool.eq_false_iff, Ne, Ne,
    List.isPrefixOf_iff_prefix, List.isPrefixOf_iff_prefix]
  refine ⟨fun hpre ↦ h ?_, fun hpre ↦ h ?_⟩
  · obtain ⟨ha, hb⟩ := List.cons_prefix_cons.1 hpre
    exact ⟨ha.symm, Or.inl (List.cons_prefix_cons.1 hb).1.symm⟩
  · obtain ⟨ha, hb⟩ := List.cons_prefix_cons.1 hpre
    exact ⟨ha.symm, Or.inr (List.cons_prefix_cons.1 hb).1.symm⟩

theorem extractHex_of_isSpace {a : UInt8} (h : isSpace a = true) (s : Bytes) :
    extractHex (a :: s) = extractHex s := by
  simp only [extractHex, List.dropWhile_cons_of_pos h]

/-- A single character: a hex digit or nothing. -/
theorem isSome_extractHex_singleton (b : UInt8) : (extractHex [b]).isSome = isHexDigit b := by
  rcases hspace : isSpace b with - | -
  · by_cases hsign : b = 45 ∨ b = 43
    · rcases hsign with rfl | rfl
      · rfl
      · rfl
    · obtain ⟨h45, h43⟩ := not_or.1 hsign
      rw [extractHex_of_plain hspace h45 h43 (isPrefixOf_0x_singleton b)]
      rcases hb : isHexDigit b with - | -
      · simp [hb]
      · simp [hb]
  · rw [extractHex_of_isSpace hspace]
    rcases hb : isHexDigit b with - | -
    · rfl
    · rw [(not_isSpace_of_isHexDigit hb).1] at hspace
      cases hspace

/-- A character behind a sign. -/
theorem isSome_extractHex_sign {a : UInt8} (ha : a = 45 ∨ a = 43) (b : UInt8) :
    (extractHex [a, b]).isSome = isHexDigit b := by
  have h0x := isPrefixOf_0x_singleton b
  have hhex : (if [b].takeWhile isHexDigit = [] then (none : Option ℤ)
      else some 0).isSome = isHexDigit b := by
    rcases hb : isHexDigit b with - | -
    · simp [hb]
    · simp [hb]
  rw [← hhex]
  rcases ha with rfl | rfl
  · simp only [extractHex, show isSpace 45 = false from rfl, List.dropWhile_cons,
      Bool.false_eq_true,
      if_false, List.head?_cons, true_or, if_true, List.tail_cons, h0x]
    split_ifs <;> rfl
  · simp only [extractHex, show isSpace 43 = false from rfl, List.dropWhile_cons,
      Bool.false_eq_true,
      if_false, List.head?_cons, or_true, if_true, List.tail_cons, h0x]
    split_ifs <;> rfl

theorem extractHex_of_isHexDigit {a b : UInt8} (ha : isHexDigit a = true)
    (hb : isHexDigit b = true) :
    extractHex [a, b] = some (16 * hexValue a + hexValue b) := by
  obtain ⟨hspace, h45, h43⟩ := not_isSpace_of_isHexDigit ha
  have hx : ¬(a = 48 ∧ (b = 120 ∨ b = 88)) := by
    rintro ⟨-, rfl | rfl⟩
    · exact absurd hb (by decide)
    · exact absurd hb (by decide)
  rw [extractHex_of_plain hspace h45 h43 (isPrefixOf_0x_pair hx)]
  simp [ha, hb]

theorem isSome_extractHex (a b : UInt8) : (extractHex [a, b]).isSome = Readable a b := by
  by_cases hx : a = 48 ∧ (b = 120 ∨ b = 88)
  · obtain ⟨rfl, rfl | rfl⟩ := hx
    · rfl
    · rfl
  have hread : Readable a b =
      (isHexDigit a || (isSpace a || a = 43 || a = 45) && isHexDigit b) := by
    have hx' : (decide (a = 48) && (decide (b = 120) || decide (b = 88))) = false := by
      simpa using hx
    rw [Readable, hx', Bool.not_false, Bool.and_true]
  rw [hread]
  -- a sign, a character that must be a digit, or a blank that is skipped
  rcases hspace : isSpace a with - | -
  · by_cases hsign : a = 45 ∨ a = 43
    · rw [isSome_extractHex_sign hsign]
      rcases hsign with rfl | rfl
      · rfl
      · rfl
    · obtain ⟨h45, h43⟩ := not_or.1 hsign
      rw [extractHex_of_plain hspace h45 h43 (isPrefixOf_0x_pair hx)]
      rcases ha : isHexDigit a with - | -
      · simp [ha, h45, h43]
      · simp [ha]
  · have ha : isHexDigit a = false := by
      rw [Bool.eq_false_iff]
      intro ha
      rw [(not_isSpace_of_isHexDigit ha).1] at hspace
      cases hspace
    rw [extractHex_of_isSpace hspace, isSome_extractHex_singleton, ha]
    simp

/-! ### The decoder -/

section Cons

variable {c : UInt8} (hc : c ≠ 37) (s : Bytes)

include hc

theorem unescaped_cons : unescaped (c :: s) = (if c = 43 then 32 else c) :: unescaped s := by
  rw [unescaped.eq_def]
  split <;> simp_all

theorem escapes_cons : escapes (c :: s) = escapes s := by
  rw [escapes.eq_def]
  split <;> simp_all

theorem hasUnreadable_cons : hasUnreadable (c :: s) = hasUnreadable s := by
  rw [hasUnreadable.eq_def]
  split <;> simp_all

end Cons

/-- **What is accepted**: every text without an unreadable escape. -/
theorem isSome_urlDecode (s : Bytes) : (urlDecode s).isSome = !hasUnreadable s := by
  fun_induction wellEscaped s with
  | case1 => rfl
  | case2 a b s ih =>
    rw [urlDecode, hasUnreadable, ← isSome_extractHex]
    rcases extractHex [a, b] with - | value
    · rfl
    · simpa using ih
  | case3 s hne =>
    rw [urlDecode, hasUnreadable]
    · rfl
    · exact hne
    · exact hne
  | case4 c s hne hc ih =>
    rw [urlDecode_cons hc, hasUnreadable_cons hc, Option.isSome_map, ih]

theorem ofInt_hexValue (a b : UInt8) :
    UInt8.ofInt (16 * (hexValue a : ℤ) + hexValue b) =
      UInt8.ofNat (16 * hexValue a + hexValue b) := by
  rw [← UInt8.toNat_inj, UInt8.ofInt, UInt8.toNat_ofNat', UInt8.toNat_ofNat']
  omega

/-- **What is decoded**: a well-formed text, as it ought to be. -/
theorem urlDecode_of_wellEscaped {s : Bytes} (h : wellEscaped s = true) :
    urlDecode s = some (unescaped s) := by
  fun_induction wellEscaped s with
  | case1 => rfl
  | case2 a b s ih =>
    simp only [Bool.and_eq_true] at h
    rw [urlDecode, extractHex_of_isHexDigit h.1.1 h.1.2, ih h.2, unescaped, ← ofInt_hexValue]
    rfl
  | case3 s hne => cases h
  | case4 c s hne hc ih => rw [urlDecode_cons hc, unescaped_cons hc, ih h, Option.map_some]

theorem length_unescaped {s : Bytes} (h : wellEscaped s = true) :
    (unescaped s).length + 2 * escapes s = s.length := by
  fun_induction wellEscaped s with
  | case1 => rfl
  | case2 a b s ih =>
    simp only [Bool.and_eq_true] at h
    have hs := ih h.2
    rw [unescaped, escapes]
    simp only [List.length_cons]
    omega
  | case3 s hne => cases h
  | case4 c s hne hc ih =>
    have hs := ih h
    rw [unescaped_cons hc, escapes_cons hc]
    simp only [List.length_cons]
    omega

/-- **When `url_decode` is exact**: the escapes are all two hex digits, or one of them is cut off or
cannot be read at all. -/
theorem decodesExactly_iff (s : Bytes) :
    DecodesExactly s ↔ wellEscaped s = true ∨ hasUnreadable s = true := by
  have hsome := isSome_urlDecode s
  rcases hwell : wellEscaped s with - | -
  · rcases hbad : hasUnreadable s with - | -
    · -- accepted, but not well-formed
      rw [hbad] at hsome
      simp [DecodesExactly, hsome, hwell]
    · rw [hbad] at hsome
      have hnone : urlDecode s = none := by simpa using hsome
      simp [DecodesExactly, hnone, hwell]
  · refine iff_of_true ⟨?_, fun out hout ↦ ?_⟩ (Or.inl rfl)
    · simp [urlDecode_of_wellEscaped hwell, hwell]
    · obtain rfl := Option.some.inj ((urlDecode_of_wellEscaped hwell).symm.trans hout)
      exact ⟨rfl, length_unescaped hwell⟩

/-- `%4G` is decoded to the byte 4. -/
theorem not_decodesExactly_4G : ¬DecodesExactly (lit "%4G") := by
  intro h
  exact absurd (h.1.1 (by decide)) (by decide)

end Camlispp
