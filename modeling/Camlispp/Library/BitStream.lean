import Camlispp.Library.Bytes
import Mathlib.Data.Nat.Bitwise

/-!
# Bit streams

Bytes as a stream of bits, as the compressed formats read them: within a byte the **least
significant bit comes first**, a number is packed from its least significant bit (`lsb`) and a
codeword from its most significant one (`msb`).

A stream is a plain list of the bits not read yet. Since it stands for whole bytes, its length says
where the next byte begins: `alignByte` drops `s.length % 8` bits.

## What the results rest on

* `lsb_add` cuts a number in two, and `msb` is `lsb` in reverse (`reverse_msb`). The rest of the
  arithmetic of packed numbers follows from these two.
* `readBits_lsb` and `readBytes_ofBytes`: what was packed is read back, whatever stands behind it.
* `alignByte_append`: up to seven bits of padding are skipped if whole bytes stand behind them. This
  is the only place where the length of a stream matters.

Nothing here depends on a particular program.
-/

open Bytes

/-- A stream of bits. -/
abbrev Bits := List Bool

namespace Bits

/-- The low `n` bits of `v`, least significant first. -/
def lsb (n v : ℕ) : Bits := (List.range n).map v.testBit

/-- The low `n` bits of `v`, most significant first. -/
def msb (n v : ℕ) : Bits := (List.range n).map fun i ↦ v.testBit (n - i - 1)

/-- The number with the given bits, least significant first. -/
def value : Bits → ℕ
  | [] => 0
  | b :: s => b.toNat + 2 * value s

/-- The bits of a byte string. -/
def ofBytes (t : Bytes) : Bits := t.flatMap fun b ↦ lsb 8 b.toNat

/-- Reads a number of `n` bits. -/
def readBits (n : ℕ) (s : Bits) : Option (ℕ × Bits) :=
  if n ≤ s.length then some (value (s.take n), s.drop n) else none

/-- Drops the bits before the next byte. -/
def alignByte (s : Bits) : Bits := s.drop (s.length % 8)

/-- Reads `n` bytes. -/
def readBytes : ℕ → Bits → Option (Bytes × Bits)
  | 0, s => some ([], s)
  | n + 1, s => do
    let (b, s) ← readBits 8 s
    let (t, s) ← readBytes n s
    some (UInt8.ofNat b :: t, s)

/-! ### Lengths -/

@[simp] theorem length_lsb (n v : ℕ) : (lsb n v).length = n := by simp [lsb]

@[simp] theorem length_msb (n v : ℕ) : (msb n v).length = n := by simp [msb]

@[simp] theorem ofBytes_nil : ofBytes [] = [] := rfl

@[simp] theorem ofBytes_cons (b : UInt8) (t : Bytes) :
    ofBytes (b :: t) = lsb 8 b.toNat ++ ofBytes t := rfl

@[simp] theorem ofBytes_append (t u : Bytes) : ofBytes (t ++ u) = ofBytes t ++ ofBytes u := by
  simp [ofBytes]

@[simp] theorem length_ofBytes (t : Bytes) : (ofBytes t).length = 8 * t.length := by
  induction t with
  | nil => rfl
  | cons b t ih =>
    simp only [ofBytes_cons, List.length_append, length_lsb, ih, List.length_cons]
    omega

/-! ### Numbers -/

@[simp] theorem lsb_zero (v : ℕ) : lsb 0 v = [] := rfl

/-- One bit, then the bits of the half. -/
theorem lsb_succ (n v : ℕ) : lsb (n + 1) v = v.testBit 0 :: lsb n (v / 2) := by
  simp only [lsb, List.range_succ_eq_map, List.map_cons, List.map_map]
  congr 1
  exact List.map_congr_left fun i _ ↦ by simp [Nat.testBit_succ]

/-- The low bits, then the bits of the quotient. -/
theorem lsb_add (m n v : ℕ) : lsb (m + n) v = lsb m v ++ lsb n (v / 2 ^ m) := by
  refine List.ext_getElem (by simp) fun i h₁ h₂ ↦ ?_
  simp only [length_lsb] at h₁
  simp only [lsb, List.getElem_append, List.getElem_map, List.getElem_range, List.length_map,
    List.length_range, Nat.testBit_div_two_pow]
  split
  · rfl
  · congr 1
    omega

/-- Only the low bits are written. -/
theorem lsb_mod (n v : ℕ) : lsb n (v % 2 ^ n) = lsb n v := by
  refine List.map_congr_left fun i hi ↦ ?_
  rw [Nat.testBit_mod_two_pow, decide_eq_true (List.mem_range.1 hi), Bool.true_and]

/-- A codeword read backwards is a number. -/
theorem reverse_msb (n v : ℕ) : (msb n v).reverse = lsb n v := by
  refine List.ext_getElem (by simp) fun i h₁ h₂ ↦ ?_
  simp only [msb, List.length_reverse, List.length_map, List.length_range] at h₁
  simp only [msb, lsb, List.getElem_reverse, List.length_map, List.length_range, List.getElem_map,
    List.getElem_range]
  congr 1
  omega

/-- What the low bits of a number say: the number, reduced. -/
theorem value_lsb (n v : ℕ) : value (lsb n v) = v % 2 ^ n := by
  induction n generalizing v with
  | zero => simp [value, Nat.mod_one]
  | succ n ih =>
    have hb : (v.testBit 0).toNat = v % 2 := by
      rcases Nat.mod_two_eq_zero_or_one v with h | h <;> simp [h]
    rw [lsb_succ, value, ih, hb, pow_succ', Nat.mod_mul]

/-- The low bits determine a number that fits in them. -/
theorem lsb_injective {n v w : ℕ} (hv : v < 2 ^ n) (hw : w < 2 ^ n) (h : lsb n v = lsb n w) :
    v = w := by
  have := congrArg value h
  rwa [value_lsb, value_lsb, Nat.mod_eq_of_lt hv, Nat.mod_eq_of_lt hw] at this

/-- A codeword determines its number. -/
theorem msb_injective {n v w : ℕ} (hv : v < 2 ^ n) (hw : w < 2 ^ n) (h : msb n v = msb n w) :
    v = w :=
  lsb_injective hv hw (by rw [← reverse_msb, ← reverse_msb, h])

/-- The first bits of a codeword are the codeword of the quotient. -/
theorem take_msb (n k v : ℕ) : (msb (n + k) v).take n = msb n (v / 2 ^ k) := by
  refine List.ext_getElem (by simp) fun i h₁ h₂ ↦ ?_
  simp only [length_msb] at h₂
  simp only [msb, List.getElem_take, List.getElem_map, List.getElem_range, Nat.testBit_div_two_pow]
  congr 1
  omega

/-! ### Reading -/

/-- **A written number is read back.** -/
theorem readBits_lsb {n v : ℕ} (h : v < 2 ^ n) (s : Bits) :
    readBits n (lsb n v ++ s) = some (v, s) := by
  have ht : (lsb n v ++ s).take n = lsb n v := List.take_left' (length_lsb n v)
  have hd : (lsb n v ++ s).drop n = s := List.drop_left' (length_lsb n v)
  rw [readBits, if_pos (by simp), ht, hd, value_lsb, Nat.mod_eq_of_lt h]

/-- **Written bytes are read back.** -/
theorem readBytes_ofBytes (t : Bytes) (s : Bits) :
    readBytes t.length (ofBytes t ++ s) = some (t, s) := by
  induction t with
  | nil => rfl
  | cons b t ih =>
    have hb : b.toNat < 2 ^ 8 := b.toNat_lt
    simp only [List.length_cons, readBytes, ofBytes_cons, List.append_assoc]
    simp [readBits_lsb hb, ih]

/-- Bytes that begin with the bits of bytes begin with these bytes. -/
theorem exists_of_ofBytes_eq {t u : Bytes} {s : Bits} (h : ofBytes t = ofBytes u ++ s) :
    ∃ v, t = u ++ v ∧ ofBytes v = s := by
  induction u generalizing t with
  | nil => exact ⟨t, rfl, h⟩
  | cons b u ih =>
    obtain _ | ⟨c, t⟩ := t
    · have := congrArg List.length h
      simp at this
      omega
    · rw [ofBytes_cons, ofBytes_cons, List.append_assoc] at h
      obtain ⟨hb, hrest⟩ := List.append_inj h (by simp)
      obtain ⟨v, rfl, hv⟩ := ih hrest
      have hc : c = b := UInt8.toNat_inj.1 (lsb_injective c.toNat_lt b.toNat_lt hb)
      exact ⟨v, by rw [hc, List.cons_append], hv⟩

/-- Fewer than eight bits before a whole number of bytes are dropped. -/
theorem alignByte_append {pad s : Bits} (hp : pad.length < 8) (hs : s.length % 8 = 0) :
    alignByte (pad ++ s) = s := by
  have : (pad ++ s).length % 8 = pad.length := by
    rw [List.length_append]
    omega
  rw [alignByte, this, List.drop_left]

end Bits
