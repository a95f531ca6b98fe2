import Camlispp.Library.BitStream

/-!
# Writing bits

The compressor writes into a growing array of bytes, the next bit going to position `bp & 7` of the
last one. `Output.Holds` says what the array stands for: a stream of bits, padded with zeros to a
whole number of bytes. Every write appends to that stream (`Holds.addBit`, `Holds.addBits`,
`Holds.addHuffmanBits`), so the rest of the development speaks of streams only.

`Holds` knows the number of bits modulo eight, as `bp` does. The code cares about it in two ways: a
stored block skips to the next byte (`Output.Holds.align`), and bytes that are appended as they are
need to start there (`Output.Holds.appendData`).

The array is a list of bytes, and its growth is not modelled.

## What the results rest on

* `lsb_or_shift`: to set a bit of a byte whose bits from there on are zero is to put it at that
  place of the stream. Writing a bit is this, or a new byte.
* `Output.Holds.foldl`: a loop that writes one bit after the other appends them. A number is written
  from its low end, a codeword from its high end, and both are this loop.
-/

namespace Camlispp

namespace Zopfli

open Bits

/-- The bit pointer and the bytes written so far. -/
structure Output where
  bp : UInt8
  out : Bytes

/-- `(*out)[*outsize - 1] |= b`. -/
def orLast (b : UInt8) (out : Bytes) : Bytes := out.dropLast ++ [out.getLastD 0 ||| b]

/-- `AddBit`. -/
def addBit (bit : Bool) (o : Output) : Output :=
  let out := if o.bp &&& 7 = 0 then o.out ++ [0] else o.out
  ⟨o.bp + 1, orLast (bit.toUInt8 <<< (o.bp &&& 7)) out⟩

/-- `AddBits`. -/
def addBits (symbol length : ℕ) (o : Output) : Output :=
  (List.range length).foldl (fun o i ↦ addBit (symbol.testBit i) o) o

/-- `AddHuffmanBits`. -/
def addHuffmanBits (symbol length : ℕ) (o : Output) : Output :=
  (List.range length).foldl (fun o i ↦ addBit (symbol.testBit (length - i - 1)) o) o

/-- `ZOPFLI_APPEND_DATA`. -/
def appendData (b : UInt8) (o : Output) : Output := { o with out := o.out ++ [b] }

/-- The bytes stand for the stream `s`, padded to a whole byte, and the next bit follows it. -/
def Output.Holds (o : Output) (s : Bits) : Prop :=
  ∃ pad < 8, ofBytes o.out = s ++ List.replicate pad false ∧ (o.bp.toNat + pad) % 8 = 0

/-! ### One bit -/

@[simp] theorem orLast_concat (b last : UInt8) (init : Bytes) :
    orLast b (init ++ [last]) = init ++ [last ||| b] := by
  simp [orLast]

theorem addBit_bp (bit : Bool) (o : Output) : (addBit bit o).bp = o.bp + 1 := rfl

/-- The first bit of a byte. -/
theorem addBit_new {o : Output} (h : o.bp &&& 7 = 0) (bit : Bool) :
    (addBit bit o).out = o.out ++ [0 ||| bit.toUInt8 <<< (o.bp &&& 7)] := by
  rw [addBit, if_pos h, orLast_concat]

/-- A further bit of a byte. -/
theorem addBit_old {o : Output} (h : ¬o.bp &&& 7 = 0) (bit : Bool) {init : Bytes} {last : UInt8}
    (hout : o.out = init ++ [last]) :
    (addBit bit o).out = init ++ [last ||| bit.toUInt8 <<< (o.bp &&& 7)] := by
  rw [addBit, if_neg h, hout, orLast_concat]

theorem toNat_and_seven (b : UInt8) : (b &&& 7).toNat = b.toNat % 8 := by
  rw [UInt8.toNat_and]
  exact Nat.and_two_pow_sub_one_eq_mod _ 3

/-- Setting bit `k` of a byte whose bits from `k` on are not set. -/
theorem lsb_or_shift {b : UInt8} {k : UInt8} (hk : k.toNat < 8) (bit : Bool)
    (h : ∀ i, k.toNat ≤ i → b.toNat.testBit i = false) :
    lsb 8 (b ||| bit.toUInt8 <<< k).toNat =
      lsb k.toNat b.toNat ++ bit :: List.replicate (7 - k.toNat) false := by
  have hbit (i : ℕ) : (bit.toUInt8 <<< k).toNat.testBit i =
      (decide (i < 8) && (decide (k.toNat ≤ i) && bit.toNat.testBit (i - k.toNat))) := by
    rw [UInt8.toNat_shiftLeft, Nat.mod_eq_of_lt hk, Nat.testBit_mod_two_pow,
      Nat.testBit_shiftLeft]
    cases bit <;> rfl
  refine List.ext_getElem (by simp; omega) fun i h₁ h₂ ↦ ?_
  have hi : i < 8 := by simpa using h₁
  simp only [lsb, List.getElem_map, List.getElem_range, UInt8.toNat_or, Nat.testBit_or, hbit, hi,
    decide_true, Bool.true_and]
  obtain hlt | rfl | hgt := lt_trichotomy i k.toNat
  · rw [List.getElem_append_left (by simpa using hlt)]
    simp [Nat.not_le.2 hlt]
  · rw [List.getElem_append_right (by simp)]
    cases bit <;> simp [h]
  · rw [List.getElem_append_right (by simpa using hgt.le)]
    obtain ⟨j, hj⟩ : ∃ j, i - k.toNat = j + 1 := ⟨i - k.toNat - 1, by omega⟩
    have hzero : bit.toNat.testBit (j + 1) = false := by cases bit <;> simp [Nat.testBit_succ]
    simp [h i hgt.le, hj, hzero]

/-- **A bit is appended.** -/
theorem Output.Holds.addBit {o : Output} {s : Bits} (h : o.Holds s) (bit : Bool) :
    (addBit bit o).Holds (s ++ [bit]) := by
  obtain ⟨pad, hpad, hout, hbp⟩ := h
  have hnext : (o.bp + 1).toNat % 8 = (o.bp.toNat + 1) % 8 := by
    rw [UInt8.toNat_add, show (1 : UInt8).toNat = 1 from rfl]
    omega
  have hk := toNat_and_seven o.bp
  have hk8 : (o.bp &&& 7).toNat < 8 := by omega
  obtain hzero | hzero := Decidable.em (o.bp &&& 7 = 0)
  · -- a new byte
    obtain rfl : pad = 0 := by
      rw [hzero] at hk
      simp only [UInt8.toNat_zero] at hk
      omega
    have hbyte := lsb_or_shift (b := 0) hk8 bit (fun i _ ↦ by simp)
    rw [hzero, UInt8.toNat_zero] at hk
    refine ⟨7, by norm_num, ?_, by rw [addBit_bp]; omega⟩
    rw [addBit_new hzero, ofBytes_append, hout, ofBytes_cons, hbyte, hzero]
    simp
  · -- a byte begun before
    have hpos : (o.bp &&& 7).toNat ≠ 0 := fun h0 ↦ hzero (UInt8.toNat_inj.1 h0)
    have hpad' : pad = 8 - (o.bp &&& 7).toNat := by omega
    obtain ⟨init, last, hsplit⟩ : ∃ init last, o.out = init ++ [last] := by
      obtain hnil | ⟨init, last, h⟩ := List.eq_nil_or_concat o.out
      · rw [hnil] at hout
        have := congrArg List.length hout
        simp at this
        omega
      · exact ⟨init, last, by simpa using h⟩
    set k := (o.bp &&& 7).toNat with hkdef
    have hlsb : lsb 8 last.toNat = lsb k last.toNat ++ (lsb 8 last.toNat).drop k := by
      conv_lhs => rw [← List.take_append_drop k (lsb 8 last.toNat)]
      congr 1
      simp only [lsb, ← List.map_take, List.take_range, Nat.min_eq_left hk8.le]
    have hboth : (ofBytes init ++ lsb k last.toNat) ++ (lsb 8 last.toNat).drop k =
        s ++ List.replicate pad false := by
      rw [List.append_assoc, ← hlsb, ← hout, hsplit]
      simp
    obtain ⟨hs, hdrop⟩ := List.append_inj' hboth (by simp; omega)
    have hfalse : ∀ i, k ≤ i → last.toNat.testBit i = false := by
      intro i hi
      obtain h8 | h8 := lt_or_ge i 8
      · have hget : (lsb 8 last.toNat).drop k = List.replicate pad false := hdrop
        have := congrArg (fun t : Bits ↦ t[i - k]?) hget
        simp only [List.getElem?_drop, Nat.add_sub_cancel' hi, List.getElem?_replicate] at this
        rw [if_pos (by omega)] at this
        simpa [lsb, h8] using this
      · exact Nat.testBit_lt_two_pow
          (lt_of_lt_of_le last.toNat_lt (Nat.pow_le_pow_right (by norm_num) h8))
    have hbyte := lsb_or_shift hk8 bit hfalse
    refine ⟨pad - 1, by omega, ?_, ?_⟩
    · rw [addBit_old hzero bit hsplit, ofBytes_append, ofBytes_cons, hbyte, ← hs,
        show 7 - (o.bp &&& 7).toNat = pad - 1 by omega]
      simp [hkdef]
    · rw [addBit_bp]
      omega

/-! ### Numbers and codewords -/

/-- Bits written one after the other are appended. -/
theorem Output.Holds.foldl {o : Output} {s : Bits} (h : o.Holds s) (f : ℕ → Bool) (n : ℕ) :
    ((List.range n).foldl (fun o i ↦ Zopfli.addBit (f i) o) o).Holds
      (s ++ (List.range n).map f) := by
  induction n with
  | zero => simpa using h
  | succ n ih =>
    simp only [List.range_succ, List.foldl_append, List.foldl_cons, List.foldl_nil,
      List.map_append, List.map_cons, List.map_nil, ← List.append_assoc]
    exact ih.addBit (f n)

/-- **A number is appended**, least significant bit first. -/
theorem Output.Holds.addBits {o : Output} {s : Bits} (h : o.Holds s) (symbol length : ℕ) :
    (addBits symbol length o).Holds (s ++ lsb length symbol) :=
  h.foldl symbol.testBit length

/-- **A codeword is appended**, most significant bit first. -/
theorem Output.Holds.addHuffmanBits {o : Output} {s : Bits} (h : o.Holds s) (symbol length : ℕ) :
    (addHuffmanBits symbol length o).Holds (s ++ msb length symbol) :=
  h.foldl (fun i ↦ symbol.testBit (length - i - 1)) length

/-- Writing one thing after the other. -/
theorem Output.Holds.flatMap {α : Type} {o : Output} {s : Bits} (h : o.Holds s) (xs : List α)
    {f : α → Output → Output} {g : α → Bits}
    (hstep : ∀ x ∈ xs, ∀ {o : Output} {s : Bits}, o.Holds s → (f x o).Holds (s ++ g x)) :
    (xs.foldl (fun o x ↦ f x o) o).Holds (s ++ xs.flatMap g) := by
  induction xs generalizing o s with
  | nil => simpa using h
  | cons x xs ih =>
    have hfirst := hstep x List.mem_cons_self h
    simpa using ih hfirst fun y hy ↦ hstep y (List.mem_cons_of_mem x hy)

/-! ### Whole bytes -/

/-- Where the next bit goes. -/
theorem Output.Holds.length {o : Output} {s : Bits} (h : o.Holds s) :
    s.length % 8 = o.bp.toNat % 8 := by
  obtain ⟨pad, hpad, hout, hbp⟩ := h
  have := congrArg List.length hout
  simp only [length_ofBytes, List.length_append, List.length_replicate] at this
  omega

/-- Moving the bit pointer to the next byte pads the stream. -/
theorem Output.Holds.align {o : Output} {s : Bits} (h : o.Holds s) :
    ∃ pad < 8, (s.length + pad) % 8 = 0 ∧
      ({ o with bp := 0 } : Output).Holds (s ++ List.replicate pad false) := by
  have hlen := h.length
  obtain ⟨pad, hpad, hout, hbp⟩ := h
  exact ⟨pad, hpad, by omega, 0, by norm_num, by simpa using hout, rfl⟩

/-- A byte is appended where a byte begins. -/
theorem Output.Holds.appendData {o : Output} {s : Bits} (h : o.Holds s) (hbp : o.bp = 0)
    (b : UInt8) : (appendData b o).Holds (s ++ lsb 8 b.toNat) := by
  obtain ⟨pad, hpad, hout, hz⟩ := h
  obtain rfl : pad = 0 := by
    rw [hbp, UInt8.toNat_zero] at hz
    omega
  refine ⟨0, by norm_num, ?_, ?_⟩
  · simp only [List.replicate_zero, List.append_nil] at hout
    simp [Zopfli.appendData, hout]
  · simp [Zopfli.appendData, hbp]

/-- Bytes are appended where a byte begins. -/
theorem Output.Holds.appendAll {o : Output} {s : Bits} (h : o.Holds s) (hbp : o.bp = 0)
    (t : Bytes) :
    (t.foldl (fun o b ↦ Zopfli.appendData b o) o).Holds (s ++ ofBytes t) := by
  induction t generalizing o s with
  | nil => simpa using h
  | cons b t ih => simpa using ih (h.appendData hbp b) hbp

/-- Nothing is written yet. -/
theorem Output.holds_bytes (t : Bytes) : (⟨0, t⟩ : Output).Holds (ofBytes t) :=
  ⟨0, by norm_num, by simp, rfl⟩

end Zopfli

end Camlispp
