import Camlispp.Library.Inflate
import Mathlib.Tactic.IntervalCases

/-!
# Lengths and distances as symbols

A length or a distance is written as a symbol and some extra bits. The lengths are looked up in
three tables; for the distances the code branches at compile time, and with GCC computes them from
the highest bit of `dist - 1`. Both are the symbols of the format: `coded_length` for every length a
match can have, `coded_dist` for every distance in the window, and no distance symbol is one of the
two that the format reserves.

The lengths are checked one by one, since the code looks them up. For distances an argument is
needed: the highest bit of `dist - 1` and the bit below it give the symbol (`leading_bits`), and the
bits behind them are the extra bits (`coded_dist_of_five_le`).

## Bounds

A match has 3 to 258 bytes and reaches back at most 32768. Outside of these bounds nothing is said
of the symbols; the entries of the format (`Encodable`) keep them.
-/

namespace Camlispp

namespace Zopfli

open Inflate

/-- `ZOPFLI_MAX_MATCH`. -/
def maxMatch : ℕ := 258

/-- `ZOPFLI_MIN_MATCH`. -/
def minMatch : ℕ := 3

/-- `ZOPFLI_WINDOW_SIZE`. -/
def windowSize : ℕ := 32768

/-- `31 ^ __builtin_clz(x)`, the position of the highest bit. -/
def highBit (x : ℕ) : ℕ := Nat.log2 x

/-- `ZopfliGetDistExtraBits`, with GCC. -/
def getDistExtraBits (dist : ℕ) : ℕ := if dist < 5 then 0 else highBit (dist - 1) - 1

/-- `ZopfliGetDistExtraBitsValue`, with GCC. -/
def getDistExtraBitsValue (dist : ℕ) : ℕ :=
  if dist < 5 then 0
  else
    let l := highBit (dist - 1)
    (dist - (1 + 1 <<< l)) &&& (1 <<< (l - 1) - 1)

/-- `ZopfliGetDistSymbol`, with GCC. -/
def getDistSymbol (dist : ℕ) : ℕ :=
  if dist < 5 then dist - 1
  else
    let l := highBit (dist - 1)
    let r := ((dist - 1) >>> (l - 1)) &&& 1
    l * 2 + r

/-- The table of `ZopfliGetLengthExtraBits`. -/
def lengthExtraBitsTable : List ℕ :=
  [0, 0, 0, 0, 0, 0, 0, 0, 0, 0, 0, 1, 1, 1, 1, 1, 1, 1, 1, 2, 2, 2, 2, 2, 2, 2, 2, 2, 2, 2, 2, 2,
    2, 2, 2, 3, 3, 3, 3, 3, 3, 3, 3, 3, 3, 3, 3, 3, 3, 3, 3, 3, 3, 3, 3, 3, 3, 3, 3, 3, 3, 3, 3,
    3, 3, 3, 3, 4, 4, 4, 4, 4, 4, 4, 4, 4, 4, 4, 4, 4, 4, 4, 4, 4, 4, 4, 4, 4, 4, 4, 4, 4, 4, 4,
    4, 4, 4, 4, 4, 4, 4, 4, 4, 4, 4, 4, 4, 4, 4, 4, 4, 4, 4, 4, 4, 4, 4, 4, 4, 4, 4, 4, 4, 4, 4,
    4, 4, 4, 4, 4, 4, 5, 5, 5, 5, 5, 5, 5, 5, 5, 5, 5, 5, 5, 5, 5, 5, 5, 5, 5, 5, 5, 5, 5, 5, 5,
    5, 5, 5, 5, 5, 5, 5, 5, 5, 5, 5, 5, 5, 5, 5, 5, 5, 5, 5, 5, 5, 5, 5, 5, 5, 5, 5, 5, 5, 5, 5,
    5, 5, 5, 5, 5, 5, 5, 5, 5, 5, 5, 5, 5, 5, 5, 5, 5, 5, 5, 5, 5, 5, 5, 5, 5, 5, 5, 5, 5, 5, 5,
    5, 5, 5, 5, 5, 5, 5, 5, 5, 5, 5, 5, 5, 5, 5, 5, 5, 5, 5, 5, 5, 5, 5, 5, 5, 5, 5, 5, 5, 5, 5,
    5, 5, 5, 5, 5, 5, 5, 5, 5, 0]

/-- The table of `ZopfliGetLengthExtraBitsValue`. -/
def lengthExtraBitsValueTable : List ℕ :=
  [0, 0, 0, 0, 0, 0, 0, 0, 0, 0, 0, 0, 1, 0, 1, 0, 1, 0, 1, 0, 1, 2, 3, 0, 1, 2, 3, 0, 1, 2, 3, 0,
    1, 2, 3, 0, 1, 2, 3, 4, 5, 6, 7, 0, 1, 2, 3, 4, 5, 6, 7, 0, 1, 2, 3, 4, 5, 6, 7, 0, 1, 2, 3,
    4, 5, 6, 7, 0, 1, 2, 3, 4, 5, 6, 7, 8, 9, 10, 11, 12, 13, 14, 15, 0, 1, 2, 3, 4, 5, 6, 7, 8,
    9, 10, 11, 12, 13, 14, 15, 0, 1, 2, 3, 4, 5, 6, 7, 8, 9, 10, 11, 12, 13, 14, 15, 0, 1, 2, 3,
    4, 5, 6, 7, 8, 9, 10, 11, 12, 13, 14, 15, 0, 1, 2, 3, 4, 5, 6, 7, 8, 9, 10, 11, 12, 13, 14,
    15, 16, 17, 18, 19, 20, 21, 22, 23, 24, 25, 26, 27, 28, 29, 30, 31, 0, 1, 2, 3, 4, 5, 6, 7, 8,
    9, 10, 11, 12, 13, 14, 15, 16, 17, 18, 19, 20, 21, 22, 23, 24, 25, 26, 27, 28, 29, 30, 31, 0,
    1, 2, 3, 4, 5, 6, 7, 8, 9, 10, 11, 12, 13, 14, 15, 16, 17, 18, 19, 20, 21, 22, 23, 24, 25, 26,
    27, 28, 29, 30, 31, 0, 1, 2, 3, 4, 5, 6, 7, 8, 9, 10, 11, 12, 13, 14, 15, 16, 17, 18, 19, 20,
    21, 22, 23, 24, 25, 26, 27, 28, 29, 30, 0]

/-- The table of `ZopfliGetLengthSymbol`. -/
def lengthSymbolTable : List ℕ :=
  [0, 0, 0, 257, 258, 259, 260, 261, 262, 263, 264, 265, 265, 266, 266, 267, 267, 268, 268, 269,
    269, 269, 269, 270, 270, 270, 270, 271, 271, 271, 271, 272, 272, 272, 272, 273, 273, 273, 273,
    273, 273, 273, 273, 274, 274, 274, 274, 274, 274, 274, 274, 275, 275, 275, 275, 275, 275, 275,
    275, 276, 276, 276, 276, 276, 276, 276, 276, 277, 277, 277, 277, 277, 277, 277, 277, 277, 277,
    277, 277, 277, 277, 277, 277, 278, 278, 278, 278, 278, 278, 278, 278, 278, 278, 278, 278, 278,
    278, 278, 278, 279, 279, 279, 279, 279, 279, 279, 279, 279, 279, 279, 279, 279, 279, 279, 279,
    280, 280, 280, 280, 280, 280, 280, 280, 280, 280, 280, 280, 280, 280, 280, 280, 281, 281, 281,
    281, 281, 281, 281, 281, 281, 281, 281, 281, 281, 281, 281, 281, 281, 281, 281, 281, 281, 281,
    281, 281, 281, 281, 281, 281, 281, 281, 281, 281, 282, 282, 282, 282, 282, 282, 282, 282, 282,
    282, 282, 282, 282, 282, 282, 282, 282, 282, 282, 282, 282, 282, 282, 282, 282, 282, 282, 282,
    282, 282, 282, 282, 283, 283, 283, 283, 283, 283, 283, 283, 283, 283, 283, 283, 283, 283, 283,
    283, 283, 283, 283, 283, 283, 283, 283, 283, 283, 283, 283, 283, 283, 283, 283, 283, 284, 284,
    284, 284, 284, 284, 284, 284, 284, 284, 284, 284, 284, 284, 284, 284, 284, 284, 284, 284, 284,
    284, 284, 284, 284, 284, 284, 284, 284, 284, 284, 285]

/-- `ZopfliGetLengthExtraBits`. -/
def getLengthExtraBits (l : ℕ) : ℕ := lengthExtraBitsTable.getD l 0

/-- `ZopfliGetLengthExtraBitsValue`. -/
def getLengthExtraBitsValue (l : ℕ) : ℕ := lengthExtraBitsValueTable.getD l 0

/-- `ZopfliGetLengthSymbol`. -/
def getLengthSymbol (l : ℕ) : ℕ := lengthSymbolTable.getD l 0

/-! ### Lengths -/

/-- What the tables give for the length `n`, compared with the format. -/
def lengthOk (n : ℕ) : Bool :=
  let i := getLengthSymbol n - 257
  let v := getLengthExtraBitsValue n
  257 ≤ getLengthSymbol n && v ≤ n && v < 2 ^ getLengthExtraBits n &&
    lengthExtra[i]? = some (getLengthExtraBits n) && lengthBase[i]? = some (n - v)

theorem lengthOk_of_le {n : ℕ} (h3 : 3 ≤ n) (h : n ≤ 258) : lengthOk n = true := by
  have hall : ((List.range 256).all fun i ↦ lengthOk (i + 3)) = true := by decide +kernel
  have := List.all_eq_true.1 hall (n - 3) (List.mem_range.2 (by omega))
  rwa [Nat.sub_add_cancel h3] at this

/-- The symbol of a length is a literal symbol from 257 on. -/
theorem le_getLengthSymbol {n : ℕ} (h3 : 3 ≤ n) (h : n ≤ 258) : 257 ≤ getLengthSymbol n := by
  have := lengthOk_of_le h3 h
  simp only [lengthOk, Bool.and_eq_true, decide_eq_true_eq] at this
  exact this.1.1.1.1

/-- **The symbol and the extra bits of a length are those of the format.** -/
theorem coded_length {n : ℕ} (h3 : 3 ≤ n) (h : n ≤ 258) :
    Coded lengthBase lengthExtra n (getLengthSymbol n - 257) (getLengthExtraBits n)
      (getLengthExtraBitsValue n) := by
  have := lengthOk_of_le h3 h
  simp only [lengthOk, Bool.and_eq_true, decide_eq_true_eq] at this
  obtain ⟨⟨⟨⟨-, hle⟩, hlt⟩, hextra⟩, hbase⟩ := this
  exact ⟨hextra, hlt, hbase, hle⟩

/-! ### Distances -/

/-- A number in its leading bits: the highest one, the next one, and the rest. -/
theorem leading_bits {x l : ℕ} (hl : 1 ≤ l) (h : 2 ^ l ≤ x) (h' : x < 2 ^ (l + 1)) :
    x = 2 ^ l + (x >>> (l - 1) &&& 1) * 2 ^ (l - 1) + x % 2 ^ (l - 1) := by
  obtain ⟨k, rfl⟩ : ∃ k, l = k + 1 := ⟨l - 1, by omega⟩
  rw [Nat.add_sub_cancel, Nat.shiftRight_eq_div_pow, Nat.and_one_is_mod]
  have hlo : 2 ≤ x / 2 ^ k := by
    rw [pow_succ'] at h
    exact (Nat.le_div_iff_mul_le (by positivity)).2 h
  have hhi : x / 2 ^ k < 4 :=
    (Nat.div_lt_iff_lt_mul (by positivity)).2 (by rw [pow_succ', pow_succ'] at h'; omega)
  have hdiv := Nat.div_add_mod x (2 ^ k)
  obtain hq | hq : x / 2 ^ k = 2 ∨ x / 2 ^ k = 3 := by omega
  · rw [hq] at hdiv ⊢
    rw [pow_succ]
    omega
  · rw [hq] at hdiv ⊢
    rw [pow_succ]
    omega

/-- The bases of the distance symbols from 4 on. -/
theorem distBase_get {l r : ℕ} (hl : 2 ≤ l) (hl' : l ≤ 14) (hr : r ≤ 1) :
    distBase[l * 2 + r]? = some (2 ^ l + r * 2 ^ (l - 1) + 1) ∧
      distExtra[l * 2 + r]? = some (l - 1) := by
  interval_cases l <;> interval_cases r <;> exact ⟨rfl, rfl⟩

/-- The symbol of a distance, from the leading bits. -/
theorem coded_dist_of_five_le {dist : ℕ} (h5 : 5 ≤ dist) (h : dist ≤ windowSize) :
    Coded distBase distExtra dist (getDistSymbol dist) (getDistExtraBits dist)
      (getDistExtraBitsValue dist) ∧ getDistSymbol dist < 30 := by
  have hx : dist - 1 ≠ 0 := by omega
  have hsmall : ¬dist < 5 := by omega
  have hlo : 2 ^ highBit (dist - 1) ≤ dist - 1 := Nat.log2_self_le hx
  have hhi : dist - 1 < 2 ^ (highBit (dist - 1) + 1) := Nat.lt_log2_self
  simp only [getDistSymbol, getDistExtraBits, getDistExtraBitsValue, if_neg hsmall]
  set l := highBit (dist - 1) with hldef
  have hl2 : 2 ≤ l := (Nat.le_log2 hx).2 (by norm_num; omega)
  have hl14 : l ≤ 14 := by
    have : l < 15 := (Nat.log2_lt hx).2 (by unfold windowSize at h; norm_num; omega)
    omega
  have hlead := leading_bits (by omega) hlo hhi
  set r := (dist - 1) >>> (l - 1) &&& 1 with hr
  have hr1 : r ≤ 1 := Nat.and_le_right
  have hvalue : (dist - (1 + 1 <<< l)) &&& (1 <<< (l - 1) - 1) = (dist - 1) % 2 ^ (l - 1) := by
    rw [Nat.one_shiftLeft, Nat.one_shiftLeft, Nat.and_two_pow_sub_one_eq_mod,
      show dist - (1 + 2 ^ l) = r * 2 ^ (l - 1) + (dist - 1) % 2 ^ (l - 1) by omega,
      Nat.mul_add_mod', Nat.mod_mod]
  obtain ⟨hbase, hextra⟩ := distBase_get hl2 hl14 hr1
  refine ⟨⟨hextra, ?_, ?_, ?_⟩, by omega⟩
  · rw [hvalue]
    exact Nat.mod_lt _ (by positivity)
  · rw [hvalue, hbase]
    congr 1
    omega
  · exact Nat.and_le_left.trans (Nat.sub_le _ _)

/-- **The symbol and the extra bits of a distance in the window are those of the format.** -/
theorem coded_dist {dist : ℕ} (h1 : 1 ≤ dist) (h : dist ≤ windowSize) :
    Coded distBase distExtra dist (getDistSymbol dist) (getDistExtraBits dist)
      (getDistExtraBitsValue dist) ∧ getDistSymbol dist < 30 := by
  obtain h5 | h5 := lt_or_ge dist 5
  · have hsymbol : getDistSymbol dist = dist - 1 := if_pos h5
    have hbits : getDistExtraBits dist = 0 := if_pos h5
    have hvalue : getDistExtraBitsValue dist = 0 := if_pos h5
    rw [hsymbol, hbits, hvalue]
    refine ⟨⟨?_, by norm_num, ?_, Nat.zero_le _⟩, by omega⟩ <;> interval_cases dist <;> rfl
  · exact coded_dist_of_five_le h5 h

end Zopfli

end Camlispp
