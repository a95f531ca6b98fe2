import Camlispp.Library.Inflate

/-!
# Compressed files

The formats around a DEFLATE stream: the stream alone, a zlib stream with its Adler-32 checksum, and
a gzip member with its CRC-32 and its length. The readers are strict, they check both ends, and they
know the gzip header without optional fields only.

**A stream between a right header and a right trailer is read back** (`gunzip_deflated`,
`unzlib_deflated`, `undeflate_deflated`).

The two checksums are given in their slow form: a CRC takes eight steps for each byte, and Adler-32
reduces both of its sums at each byte. A table or a delayed reduction is compared with these.

The reader of the stream says where it ended, and the trailer is read from there, at the next byte.
Nothing may stand behind it. A file that carries no stream is none, and neither is an empty text.

Nothing here depends on a particular program.
-/

namespace Gzip

open Bits Inflate

/-! ### Checksums -/

/-- One step of a CRC, with the polynomial of CRC-32 in reversed order. -/
def crcBit (c : ℕ) : ℕ := if c % 2 = 1 then 0xedb88320 ^^^ (c >>> 1) else c >>> 1

/-- The steps for one byte. -/
def crcByte (c : ℕ) (b : UInt8) : ℕ := crcBit^[8] (c ^^^ b.toNat)

/-- The CRC-32 of a message. -/
def crc32 (t : Bytes) : ℕ := t.foldl crcByte 0xffffffff ^^^ 0xffffffff

/-- The two sums of Adler-32, with one more byte. -/
def adlerByte (s : ℕ × ℕ) (b : UInt8) : ℕ × ℕ :=
  ((s.1 + b.toNat) % 65521, (s.2 + (s.1 + b.toNat)) % 65521)

/-- The Adler-32 checksum of a message. -/
def adler32 (t : Bytes) : ℕ :=
  let s := t.foldl adlerByte (1, 0)
  s.2 * 65536 + s.1

/-! ### Numbers -/

/-- The `n` low bytes of a number, the lowest first. -/
def leBytes (n v : ℕ) : Bytes := (List.range n).map fun i ↦ UInt8.ofNat (v >>> (8 * i) % 256)

/-- A number from its bytes, the lowest first. -/
def littleEndian (t : Bytes) : ℕ := t.foldr (fun b n ↦ b.toNat + 256 * n) 0

/-! ### Readers -/

/-- Reads a DEFLATE stream, which must end where the bytes do. -/
def undeflate (t : Bytes) : Option Bytes := do
  let (out, s) ← inflate (ofBytes t)
  guard (alignByte s = [])
  some out

/-- Reads a zlib stream without a preset dictionary. -/
def unzlib : Bytes → Option Bytes
  | cmf :: flg :: t => do
    guard (cmf.toNat % 16 = 8 ∧ cmf.toNat / 16 ≤ 7)
    guard ((cmf.toNat * 256 + flg.toNat) % 31 = 0)
    guard (flg.toNat / 32 % 2 = 0)
    let (out, s) ← inflate (ofBytes t)
    let (sum, s) ← readBytes 4 (alignByte s)
    guard (littleEndian sum.reverse = adler32 out)
    guard (s = [])
    some out
  | _ => none

/-- Reads a gzip file of one member without optional fields. -/
def gunzip : Bytes → Option Bytes
  | 31 :: 139 :: 8 :: 0 :: _ :: _ :: _ :: _ :: _ :: _ :: t => do
    let (out, s) ← inflate (ofBytes t)
    let (crc, s) ← readBytes 4 (alignByte s)
    let (isize, s) ← readBytes 4 s
    guard (littleEndian crc = crc32 out)
    guard (littleEndian isize = out.length % 2 ^ 32)
    guard (s = [])
    some out
  | _ => none

/-! ### A table for the CRC -/

theorem crcBit_xor (a b : ℕ) : crcBit (a ^^^ b) = crcBit a ^^^ crcBit b := by
  have hparity : (a ^^^ b) % 2 = (a + b) % 2 := Nat.xor_mod_two_eq
  have hself (x y : ℕ) : 0xedb88320 ^^^ x ^^^ (0xedb88320 ^^^ y) = x ^^^ y := by
    rw [Nat.xor_assoc, ← Nat.xor_assoc x, Nat.xor_comm x, ← Nat.xor_assoc, ← Nat.xor_assoc,
      Nat.xor_self, Nat.zero_xor]
  unfold crcBit
  rw [hparity, Nat.shiftRight_xor_distrib]
  obtain ha | ha := Nat.mod_two_eq_zero_or_one a <;>
    obtain hb | hb := Nat.mod_two_eq_zero_or_one b
  · rw [if_neg (by omega), if_neg (by omega), if_neg (by omega)]
  · rw [if_pos (by omega), if_neg (by omega), if_pos hb, ← Nat.xor_assoc, Nat.xor_comm _ (a >>> 1),
      Nat.xor_assoc]
  · rw [if_pos (by omega), if_pos ha, if_neg (by omega), Nat.xor_assoc]
  · rw [if_neg (by omega), if_pos ha, if_pos hb, hself]

/-- **Steps are linear.** -/
theorem iterate_crcBit_xor (n a b : ℕ) : crcBit^[n] (a ^^^ b) = crcBit^[n] a ^^^ crcBit^[n] b := by
  induction n generalizing a b with
  | zero => rfl
  | succ n ih => rw [Function.iterate_succ_apply, Function.iterate_succ_apply,
      Function.iterate_succ_apply, crcBit_xor, ih]

/-- Zeros are shifted out. -/
theorem iterate_crcBit_shift (n a : ℕ) : crcBit^[n] (a <<< n) = a := by
  induction n with
  | zero => rfl
  | succ n ih =>
    have heven : (a <<< (n + 1)) % 2 = 0 := by
      rw [Nat.shiftLeft_eq, pow_succ, ← Nat.mul_assoc, Nat.mul_mod_left]
    have hhalf : (a <<< (n + 1)) >>> 1 = a <<< n := by
      rw [Nat.shiftLeft_succ, Nat.shiftRight_one, Nat.mul_div_cancel_left _ Nat.two_pos]
    rw [Function.iterate_succ_apply, crcBit, if_neg (by omega), hhalf, ih]

/-- A number is its high bits and its low byte. -/
theorem high_xor_low (c : ℕ) : ((c >>> 8) <<< 8) ^^^ (c % 256) = c := by
  refine Nat.eq_of_testBit_eq fun i ↦ ?_
  rw [Nat.testBit_xor, show 256 = 2 ^ 8 from rfl, Nat.testBit_mod_two_pow, Nat.testBit_shiftLeft,
    Nat.testBit_shiftRight]
  obtain hlt | hge := lt_or_ge i 8
  · simp [hlt, hlt.not_ge]
  · simp [hge, hge.not_gt]

/-- **The steps for a byte, from the steps for its low byte.** -/
theorem crcByte_eq (c : ℕ) (b : UInt8) :
    crcByte c b = crcBit^[8] ((c ^^^ b.toNat) % 256) ^^^ (c >>> 8) := by
  have hshift : (c ^^^ b.toNat) >>> 8 = c >>> 8 := by
    have hsmall : b.toNat >>> 8 = 0 := by
      rw [Nat.shiftRight_eq_div_pow]
      exact Nat.div_eq_of_lt b.toNat_lt
    rw [Nat.shiftRight_xor_distrib, hsmall, Nat.xor_zero]
  conv_lhs => rw [crcByte, ← high_xor_low (c ^^^ b.toNat), iterate_crcBit_xor,
    iterate_crcBit_shift, hshift, Nat.xor_comm]

theorem crcBit_lt {c : ℕ} (h : c < 2 ^ 32) : crcBit c < 2 ^ 32 := by
  have hhalf : c >>> 1 < 2 ^ 32 := by
    rw [Nat.shiftRight_one]
    omega
  unfold crcBit
  split
  · exact Nat.xor_lt_two_pow (by norm_num) hhalf
  · exact hhalf

theorem iterate_crcBit_lt (n : ℕ) {c : ℕ} (h : c < 2 ^ 32) : crcBit^[n] c < 2 ^ 32 := by
  induction n generalizing c with
  | zero => exact h
  | succ n ih => exact ih (crcBit_lt h)

theorem crc32_lt (t : Bytes) : crc32 t < 2 ^ 32 := by
  refine Nat.xor_lt_two_pow ?_ (by norm_num)
  refine List.foldlRecOn (motive := (· < 2 ^ 32)) t crcByte (by norm_num) fun c hc b _ ↦ ?_
  exact iterate_crcBit_lt 8 (Nat.xor_lt_two_pow hc (b.toNat_lt.trans (by norm_num)))

theorem adler32_lt (t : Bytes) : adler32 t < 2 ^ 32 := by
  have hsums : (t.foldl adlerByte (1, 0)).1 < 65521 ∧ (t.foldl adlerByte (1, 0)).2 < 65521 :=
    List.foldlRecOn (motive := fun s : ℕ × ℕ ↦ s.1 < 65521 ∧ s.2 < 65521) t adlerByte (by norm_num)
      fun s _ b _ ↦ ⟨Nat.mod_lt _ (by norm_num), Nat.mod_lt _ (by norm_num)⟩
  show (t.foldl adlerByte (1, 0)).2 * 65536 + (t.foldl adlerByte (1, 0)).1 < 2 ^ 32
  omega

/-! ### Round trips -/

@[simp] theorem length_leBytes (n v : ℕ) : (leBytes n v).length = n := by
  rw [leBytes, List.length_map, List.length_range]

/-- The bytes of a number give its low bits. -/
theorem littleEndian_leBytes (n v : ℕ) : littleEndian (leBytes n v) = v % 256 ^ n := by
  induction n generalizing v with
  | zero => rw [pow_zero, Nat.mod_one]; rfl
  | succ n ih =>
    have htail : leBytes (n + 1) v = UInt8.ofNat (v % 256) :: leBytes n (v / 256) := by
      simp only [leBytes, List.range_succ_eq_map, List.map_cons, List.map_map]
      congr 1
      refine List.map_congr_left fun i _ ↦ ?_
      rw [Function.comp_apply, Nat.mul_succ, Nat.add_comm, Nat.shiftRight_add,
        Nat.shiftRight_eq_div_pow v 8]
    have hlow : (UInt8.ofNat (v % 256)).toNat = v % 256 := by simp
    show littleEndian (leBytes (n + 1) v) = _
    rw [htail, pow_succ', Nat.mod_mul, ← ih]
    show (UInt8.ofNat (v % 256)).toNat + _ = _
    rw [hlow]
    rfl

section Streams

variable {body input : Bytes} (h : Deflated body input)

include h

theorem undeflate_deflated : undeflate body = some input := by
  obtain ⟨s, hinflate, halign⟩ := h []
  rw [List.append_nil] at hinflate
  simp only [undeflate, hinflate, halign, ofBytes_nil, guard_true, Option.bind_eq_bind,
    Option.bind_some, Option.pure_def]

theorem unzlib_deflated (cmf flg : UInt8) (hcmf : cmf.toNat % 16 = 8 ∧ cmf.toNat / 16 ≤ 7)
    (hcheck : (cmf.toNat * 256 + flg.toNat) % 31 = 0) (hdict : flg.toNat / 32 % 2 = 0) :
    unzlib (cmf :: flg :: (body ++ (leBytes 4 (adler32 input)).reverse)) = some input := by
  obtain ⟨s, hinflate, halign⟩ := h (leBytes 4 (adler32 input)).reverse
  have hsum := readBytes_ofBytes (leBytes 4 (adler32 input)).reverse []
  rw [List.append_nil, List.length_reverse, length_leBytes] at hsum
  have hvalue : littleEndian (leBytes 4 (adler32 input)).reverse.reverse = adler32 input := by
    rw [List.reverse_reverse, littleEndian_leBytes]
    exact Nat.mod_eq_of_lt (adler32_lt input)
  simp only [unzlib, hcmf, and_self, hcheck, hdict, hinflate, halign, hsum, hvalue, guard_true,
    Option.bind_eq_bind, Option.bind_some, Option.pure_def]

theorem gunzip_deflated (m₁ m₂ m₃ m₄ xfl os : UInt8) :
    gunzip (31 :: 139 :: 8 :: 0 :: m₁ :: m₂ :: m₃ :: m₄ :: xfl :: os ::
      (body ++ (leBytes 4 (crc32 input) ++ leBytes 4 input.length))) = some input := by
  obtain ⟨s, hinflate, halign⟩ := h (leBytes 4 (crc32 input) ++ leBytes 4 input.length)
  rw [ofBytes_append] at halign
  have hcrc := readBytes_ofBytes (leBytes 4 (crc32 input)) (ofBytes (leBytes 4 input.length))
  have hisize := readBytes_ofBytes (leBytes 4 input.length) []
  rw [length_leBytes] at hcrc hisize
  rw [List.append_nil] at hisize
  have hvalue : littleEndian (leBytes 4 (crc32 input)) = crc32 input := by
    rw [littleEndian_leBytes]
    exact Nat.mod_eq_of_lt (crc32_lt input)
  have hsize : littleEndian (leBytes 4 input.length) = input.length % 2 ^ 32 :=
    littleEndian_leBytes 4 _
  simp only [gunzip, hinflate, halign, hcrc, hisize, hvalue, hsize, guard_true,
    Option.bind_eq_bind, Option.bind_some, Option.pure_def]

end Streams

end Gzip
