import Camlispp.Library.PrefixCode
import Mathlib.Data.List.Forall2

/-!
# The DEFLATE format

What a compressed stream means: `inflate` reads the blocks of a stream and gives the bytes they
stand for and the bits after them. Stored bytes, the fixed code and the codes a block describes
itself are all read, and back references copy byte by byte, so that a copy may overlap what it
makes.

The reader is **strict**. A set of code lengths must be complete, save that the literal code may be
a single codeword of one bit; the end of a block must have a codeword; no more than 286 literal and
30 distance codes may be described; a back reference may not start before the first byte. A stream
it accepts is accepted by the lenient readers too, and means the same there.

A writer is connected to the reader in three steps, each of which only says which bits stand for
what: `SpellsItem` for literals and references, `Carries` for a block and `Streams` for a sequence
of blocks, the only one where the position in the byte matters. `inflate_of_streams` reads them.

Nothing here depends on a particular program.
-/

open Bits PrefixCode

namespace Inflate

/-! ### The tables of the format -/

/-- The least length of each length symbol, from 257 on. -/
def lengthBase : List ℕ :=
  [3, 4, 5, 6, 7, 8, 9, 10, 11, 13, 15, 17, 19, 23, 27, 31, 35, 43, 51, 59, 67, 83, 99, 115, 131,
    163, 195, 227, 258]

/-- The number of extra bits of each length symbol. -/
def lengthExtra : List ℕ :=
  [0, 0, 0, 0, 0, 0, 0, 0, 1, 1, 1, 1, 2, 2, 2, 2, 3, 3, 3, 3, 4, 4, 4, 4, 5, 5, 5, 5, 0]

/-- The least distance of each distance symbol. -/
def distBase : List ℕ :=
  [1, 2, 3, 4, 5, 7, 9, 13, 17, 25, 33, 49, 65, 97, 129, 193, 257, 385, 513, 769, 1025, 1537, 2049,
    3073, 4097, 6145, 8193, 12289, 16385, 24577]

/-- The number of extra bits of each distance symbol. -/
def distExtra : List ℕ :=
  [0, 0, 0, 0, 1, 1, 2, 2, 3, 3, 4, 4, 5, 5, 6, 6, 7, 7, 8, 8, 9, 9, 10, 10, 11, 11, 12, 12, 13,
    13]

/-- The order in which the lengths of the code length code are given. -/
def lengthOrder : List ℕ := [16, 17, 18, 0, 8, 7, 9, 6, 10, 5, 11, 4, 12, 3, 13, 2, 14, 1, 15]

/-- The lengths of the fixed literal code. -/
def fixedLengths : List ℕ :=
  List.replicate 144 8 ++ List.replicate 112 9 ++ List.replicate 24 7 ++ List.replicate 8 8

/-- The lengths of the fixed distance code. -/
def fixedDistances : List ℕ := List.replicate 32 5

/-! ### Literals and references -/

/-- One item of LZ77 data. -/
inductive Item
  /-- A byte. -/
  | literal (b : UInt8)
  /-- A copy of `n` bytes from `dist` bytes back. -/
  | copy (n dist : ℕ)

/-- Copies `n` bytes, one at a time. -/
def copyBack (dist : ℕ) : ℕ → Bytes → Option Bytes
  | 0, out => some out
  | n + 1, out =>
    if dist ≤ out.length then
      (out[out.length - dist]?).bind fun b ↦ copyBack dist n (out ++ [b])
    else none

/-- What an item adds to the bytes so far. -/
def Item.replay (out : Bytes) : Item → Option Bytes
  | .literal b => some (out ++ [b])
  | .copy n dist => copyBack dist n out

/-- What items add to the bytes so far. -/
def replay (out : Bytes) (items : List Item) : Option Bytes := items.foldlM Item.replay out

/-- A number given by a symbol and extra bits. -/
def readExtra (base extra : List ℕ) (i : ℕ) (s : Bits) : Option (ℕ × Bits) := do
  let b ← base[i]?
  let k ← extra[i]?
  let (v, s) ← readBits k s
  some (b + v, s)

/-- Reads items up to the end of the block. -/
def inflateItems (ll d : List ℕ) : ℕ → Bytes → Bits → Option (Bytes × Bits)
  | 0, _, _ => none
  | fuel + 1, out, s => do
    let (sym, s) ← decode ll s
    if sym < 256 then inflateItems ll d fuel (out ++ [UInt8.ofNat sym]) s
    else if sym = 256 then some (out, s)
    else
      let (n, s) ← readExtra lengthBase lengthExtra (sym - 257) s
      let (i, s) ← decode d s
      let (dist, s) ← readExtra distBase distExtra i s
      let out ← copyBack dist n out
      inflateItems ll d fuel out s

/-! ### The description of a code -/

/-- Reads `n` numbers of `k` bits. -/
def readNumbers (k : ℕ) : ℕ → Bits → Option (List ℕ × Bits)
  | 0, s => some ([], s)
  | n + 1, s => do
    let (v, s) ← readBits k s
    let (vs, s) ← readNumbers k n s
    some (v :: vs, s)

/-- The lengths of the code length code, from the numbers in the stream. -/
def unorder (vs : List ℕ) : List ℕ := (List.range 19).map fun i ↦ vs.getD (lengthOrder.idxOf i) 0

/-- What one symbol of the code length code adds to the lengths so far. -/
def readLength (sym : ℕ) (acc : List ℕ) (s : Bits) : Option (List ℕ × Bits) :=
  if sym < 16 then some (acc ++ [sym], s)
  else if sym = 16 then do
    let last ← acc.getLast?
    let (k, s) ← readBits 2 s
    some (acc ++ List.replicate (3 + k) last, s)
  else if sym = 17 then do
    let (k, s) ← readBits 3 s
    some (acc ++ List.replicate (3 + k) 0, s)
  else do
    let (k, s) ← readBits 7 s
    some (acc ++ List.replicate (11 + k) 0, s)

/-- Reads lengths until there are `total`. -/
def readLengths (cl : List ℕ) (total : ℕ) : ℕ → List ℕ → Bits → Option (List ℕ × Bits)
  | 0, acc, s => if acc.length = total then some (acc, s) else none
  | fuel + 1, acc, s =>
    if acc.length = total then some (acc, s)
    else do
      let (sym, s) ← decode cl s
      let (acc, s) ← readLength sym acc s
      readLengths cl total fuel acc s

/-- Reads the literal and the distance code of a block. -/
def readCodes (s : Bits) : Option (List ℕ × List ℕ × Bits) := do
  let (hlit, s) ← readBits 5 s
  let (hdist, s) ← readBits 5 s
  let (hclen, s) ← readBits 4 s
  guard (hlit ≤ 29 ∧ hdist ≤ 29)
  let (vs, s) ← readNumbers 3 (hclen + 4) s
  guard (Complete (unorder vs) 7)
  let total := 257 + hlit + (1 + hdist)
  let (lengths, s) ← readLengths (unorder vs) total total [] s
  let ll := lengths.take (257 + hlit)
  let d := lengths.drop (257 + hlit)
  guard (0 < len ll 256 ∧ (Complete ll 15 ∨ Single ll 15) ∧ Complete d 15)
  some (ll, d, s)

/-! ### Blocks -/

/-- Reads the bytes of a stored block. -/
def inflateStored (out : Bytes) (s : Bits) : Option (Bytes × Bits) := do
  let (n, s) ← readBits 16 (alignByte s)
  let (m, s) ← readBits 16 s
  guard (n + m = 65535)
  let (t, s) ← readBytes n s
  some (out ++ t, s)

/-- Reads a block: whether it is the last one, and the bytes so far. -/
def inflateBlock (out : Bytes) (s : Bits) : Option (Bool × Bytes × Bits) := do
  let (final, s) ← readBits 1 s
  let (type, s) ← readBits 2 s
  let (out, s) ←
    if type = 0 then inflateStored out s
    else if type = 1 then inflateItems fixedLengths fixedDistances s.length out s
    else if type = 2 then do
      let (ll, d, s) ← readCodes s
      inflateItems ll d s.length out s
    else none
  some (final == 1, out, s)

/-- Reads blocks up to the last one. -/
def inflateBlocks : ℕ → Bytes → Bits → Option (Bytes × Bits)
  | 0, _, _ => none
  | fuel + 1, out, s => do
    let (final, out, s) ← inflateBlock out s
    if final then some (out, s) else inflateBlocks fuel out s

/-- The bytes a stream stands for, and the bits after it. -/
def inflate (s : Bits) : Option (Bytes × Bits) := inflateBlocks s.length [] s

/-! ### Writing items -/

/-- The symbol `i` and the `k` extra bits `v` stand for the number `n`. -/
structure Coded (base extra : List ℕ) (n i k v : ℕ) : Prop where
  extra_eq : extra[i]? = some k
  lt_pow : v < 2 ^ k
  base_eq : base[i]? = some (n - v)
  le : v ≤ n

theorem readExtra_coded {base extra : List ℕ} {n i k v : ℕ} (h : Coded base extra n i k v)
    (s : Bits) : readExtra base extra i (lsb k v ++ s) = some (n, s) := by
  simp [readExtra, h.base_eq, h.extra_eq, readBits_lsb h.lt_pow, Nat.sub_add_cancel h.le]

/-- The bits of an item. -/
inductive SpellsItem (ll d : List ℕ) : Item → Bits → Prop
  | literal (b : UInt8) (h : 0 < len ll b.toNat) :
    SpellsItem ll d (.literal b) (codeword ll b.toNat)
  | copy {n dist i k v j k' v' : ℕ} (hn : Coded lengthBase lengthExtra n i k v)
    (hi : 0 < len ll (257 + i)) (hdist : Coded distBase distExtra dist j k' v') (hj : 0 < len d j) :
    SpellsItem ll d (.copy n dist)
      (codeword ll (257 + i) ++ (lsb k v ++ (codeword d j ++ lsb k' v')))

/-- An item takes at least one bit. -/
theorem SpellsItem.length_pos {ll d : List ℕ} {x : Item} {e : Bits} (h : SpellsItem ll d x e) :
    0 < e.length := by
  cases h with
  | literal b h => simpa using h
  | copy hn hi hdist hj =>
    rw [List.length_append, length_codeword]
    exact Nat.add_pos_left hi _

theorem length_le_of_spells {ll d : List ℕ} {items : List Item} {texts : List Bits}
    (h : List.Forall₂ (SpellsItem ll d) items texts) : items.length ≤ texts.flatten.length := by
  induction h with
  | nil => exact Nat.zero_le _
  | cons hx _ ih =>
    simp only [List.length_cons, List.flatten_cons, List.length_append]
    have := hx.length_pos
    omega

/-- **Written items are read back**, up to the end of the block. -/
theorem inflateItems_spelled {ll d : List ℕ} {m : ℕ} (hll : Fits ll m) (hd : Fits d m)
    (hend : 0 < len ll 256) (s : Bits) {items : List Item} {texts : List Bits}
    (h : List.Forall₂ (SpellsItem ll d) items texts) {out out' : Bytes}
    (hreplay : replay out items = some out') {fuel : ℕ} (hfuel : items.length < fuel) :
    inflateItems ll d fuel out (texts.flatten ++ (codeword ll 256 ++ s)) = some (out', s) := by
  induction h generalizing out fuel with
  | nil =>
    obtain _ | fuel := fuel
    · simp at hfuel
    obtain rfl : out = out' := by simpa [replay] using hreplay
    simp [inflateItems, decode_codeword hll hend]
  | @cons x e items texts hx _ ih =>
    obtain _ | fuel := fuel
    · simp at hfuel
    have hlt : items.length < fuel := by simpa using hfuel
    obtain ⟨out₁, hout₁, hrest⟩ :
        ∃ out₁, x.replay out = some out₁ ∧ replay out₁ items = some out' := by
      simpa [replay, List.foldlM_cons, Option.bind_eq_some_iff] using hreplay
    have hnext := ih hrest hlt
    rw [List.flatten_cons, List.append_assoc]
    cases hx with
    | literal b hb =>
      obtain rfl : out ++ [b] = out₁ := by simpa [Item.replay] using hout₁
      simpa [inflateItems, decode_codeword hll hb, b.toNat_lt] using hnext
    | @copy n dist i k v j k' v' hn hi hdist hj =>
      have h256 : ¬257 + i < 256 := by omega
      have h257 : ¬257 + i = 256 := by omega
      have hsub : 257 + i - 257 = i := Nat.add_sub_cancel_left _ _
      have hcopy : copyBack dist n out = some out₁ := hout₁
      simp only [inflateItems, List.append_assoc, decode_codeword hll hi, Option.bind_eq_bind,
        Option.bind_some, if_neg h256, if_neg h257, hsub, readExtra_coded hn,
        decode_codeword hd hj, readExtra_coded hdist, hcopy, hnext]

/-! ### Writing codes -/

/-- Written numbers are read back. -/
theorem readNumbers_flatMap {k : ℕ} (s : Bits) : ∀ {vs : List ℕ}, (∀ v ∈ vs, v < 2 ^ k) →
    readNumbers k vs.length (vs.flatMap (lsb k) ++ s) = some (vs, s)
  | [], _ => rfl
  | v :: vs, h => by
    have hv := readBits_lsb (h v List.mem_cons_self) (vs.flatMap (lsb k) ++ s)
    have hvs := readNumbers_flatMap s fun w hw ↦ h w (List.mem_cons_of_mem v hw)
    simp [readNumbers, hv, hvs]

/-- The number of extra bits of a symbol of the code length code. -/
def repeatBits (sym : ℕ) : ℕ :=
  if sym = 16 then 2 else if sym = 17 then 3 else if sym = 18 then 7 else 0

/-- What a symbol of the code length code and its extra bits add to the lengths so far. -/
def expand (acc : List ℕ) (e : ℕ × ℕ) : Option (List ℕ) :=
  if e.1 < 16 then some (acc ++ [e.1])
  else if e.1 = 16 then acc.getLast?.map fun last ↦ acc ++ List.replicate (3 + e.2) last
  else if e.1 = 17 then some (acc ++ List.replicate (3 + e.2) 0)
  else some (acc ++ List.replicate (11 + e.2) 0)

/-- The bits of a symbol of the code length code. -/
def lengthText (cl : List ℕ) (e : ℕ × ℕ) : Bits := codeword cl e.1 ++ lsb (repeatBits e.1) e.2

/-- Every symbol adds to the lengths. -/
theorem length_lt_of_expand {acc acc' : List ℕ} {e : ℕ × ℕ} (h : expand acc e = some acc') :
    acc.length < acc'.length := by
  unfold expand at h
  split at h
  · simp [← Option.some.inj h]
  split at h
  · obtain ⟨last, -, rfl⟩ := Option.map_eq_some_iff.1 h
    simp
  split at h
  · simp [← Option.some.inj h]
  · simp [← Option.some.inj h]

theorem readLength_lsb {acc acc' : List ℕ} {e : ℕ × ℕ} (he : e.1 ≤ 18)
    (hv : e.2 < 2 ^ repeatBits e.1) (h : expand acc e = some acc') (s : Bits) :
    readLength e.1 acc (lsb (repeatBits e.1) e.2 ++ s) = some (acc', s) := by
  obtain ⟨sym, v⟩ := e
  simp only at he hv h ⊢
  obtain h16 | rfl | rfl | rfl : sym < 16 ∨ sym = 16 ∨ sym = 17 ∨ sym = 18 := by omega
  · have hr : repeatBits sym = 0 := by
      rw [repeatBits, if_neg (by omega), if_neg (by omega), if_neg (by omega)]
    obtain rfl : acc ++ [sym] = acc' := by simpa [expand, h16] using h
    simp [readLength, h16, hr]
  · obtain ⟨last, hlast, rfl⟩ : ∃ last, acc.getLast? = some last ∧
        acc ++ List.replicate (3 + v) last = acc' := by simpa [expand] using h
    have hread := readBits_lsb (n := 2) hv s
    simp [readLength, repeatBits, hlast, hread]
  · obtain rfl : acc ++ List.replicate (3 + v) 0 = acc' := by simpa [expand] using h
    have hread := readBits_lsb (n := 3) hv s
    simp [readLength, repeatBits, hread]
  · obtain rfl : acc ++ List.replicate (11 + v) 0 = acc' := by simpa [expand] using h
    have hread := readBits_lsb (n := 7) hv s
    simp [readLength, repeatBits, hread]

theorem length_le_of_expands {acc lengths : List ℕ} {es : List (ℕ × ℕ)}
    (h : es.foldlM expand acc = some lengths) : acc.length ≤ lengths.length := by
  induction es generalizing acc with
  | nil =>
    obtain rfl : acc = lengths := by simpa using h
    exact le_rfl
  | cons e es ih =>
    obtain ⟨acc', he, hrest⟩ : ∃ acc', expand acc e = some acc' ∧
        es.foldlM expand acc' = some lengths := by
      simpa [List.foldlM_cons, Option.bind_eq_some_iff] using h
    exact (length_lt_of_expand he).le.trans (ih hrest)

/-- **Written lengths are read back.** -/
theorem readLengths_text {cl : List ℕ} {m : ℕ} (hcl : Fits cl m) (s : Bits) {lengths : List ℕ}
    {es : List (ℕ × ℕ)} (hes : ∀ e ∈ es, 0 < len cl e.1 ∧ e.1 ≤ 18 ∧ e.2 < 2 ^ repeatBits e.1)
    {acc : List ℕ} (h : es.foldlM expand acc = some lengths) {fuel : ℕ}
    (hfuel : lengths.length ≤ fuel + acc.length) :
    readLengths cl lengths.length fuel acc (es.flatMap (lengthText cl) ++ s) =
      some (lengths, s) := by
  induction es generalizing acc fuel with
  | nil =>
    obtain rfl : acc = lengths := by simpa using h
    cases fuel <;> simp [readLengths]
  | cons e es ih =>
    obtain ⟨acc', he, hrest⟩ : ∃ acc', expand acc e = some acc' ∧
        es.foldlM expand acc' = some lengths := by
      simpa [List.foldlM_cons, Option.bind_eq_some_iff] using h
    obtain ⟨hpos, h18, hv⟩ := hes e List.mem_cons_self
    have hgrow := length_lt_of_expand he
    have hle := length_le_of_expands hrest
    obtain _ | fuel := fuel
    · omega
    have hread := ih (fun e' h' ↦ hes e' (List.mem_cons_of_mem e h')) hrest
      (show lengths.length ≤ fuel + acc'.length by omega)
    have hne : ¬acc.length = lengths.length := by omega
    rw [readLengths, if_neg hne, List.flatMap_cons, lengthText, List.append_assoc,
      List.append_assoc]
    simp [decode_codeword hcl hpos, readLength_lsb h18 hv he, hread]

/-- The description of the two codes of a block. -/
structure Described (ll d : List ℕ) where
  hlit : ℕ
  hdist : ℕ
  hclen : ℕ
  /-- The lengths of the code length code, in the order of the stream. -/
  vs : List ℕ
  /-- The lengths of both codes, as symbols of the code length code. -/
  es : List (ℕ × ℕ)
  hlit_le : hlit ≤ 29
  hdist_le : hdist ≤ 29
  hclen_le : hclen ≤ 15
  length_vs : vs.length = hclen + 4
  lt_vs : ∀ v ∈ vs, v < 2 ^ 3
  complete_cl : Complete (unorder vs) 7
  entries : ∀ e ∈ es, 0 < len (unorder vs) e.1 ∧ e.1 ≤ 18 ∧ e.2 < 2 ^ repeatBits e.1
  expands : es.foldlM expand [] = some (ll ++ d)
  length_ll : ll.length = 257 + hlit
  length_d : d.length = 1 + hdist
  end_pos : 0 < len ll 256
  complete_ll : Complete ll 15 ∨ Single ll 15
  complete_d : Complete d 15

namespace Described

variable {ll d : List ℕ} (c : Described ll d)

/-- The bits of a description. -/
def text : Bits :=
  lsb 5 c.hlit ++ (lsb 5 c.hdist ++ (lsb 4 c.hclen ++ (c.vs.flatMap (lsb 3) ++
    c.es.flatMap (lengthText (unorder c.vs)))))

/-- **A written description is read back.** -/
theorem readCodes_text (s : Bits) : readCodes (c.text ++ s) = some (ll, d, s) := by
  have h₁ : c.hlit < 2 ^ 5 := lt_of_le_of_lt c.hlit_le (by norm_num)
  have h₂ : c.hdist < 2 ^ 5 := lt_of_le_of_lt c.hdist_le (by norm_num)
  have h₃ : c.hclen < 2 ^ 4 := lt_of_le_of_lt c.hclen_le (by norm_num)
  have htotal : (ll ++ d).length = 257 + c.hlit + (1 + c.hdist) := by
    rw [List.length_append, c.length_ll, c.length_d]
  have hnumbers (s : Bits) : readNumbers 3 (c.hclen + 4) (c.vs.flatMap (lsb 3) ++ s) =
      some (c.vs, s) := by
    rw [← c.length_vs]
    exact readNumbers_flatMap s c.lt_vs
  have hlengths := readLengths_text c.complete_cl.fits s c.entries c.expands
    (show (ll ++ d).length ≤ (ll ++ d).length + [].length from Nat.le_add_right _ _)
  rw [htotal] at hlengths
  have htake : (ll ++ d).take (257 + c.hlit) = ll := List.take_left' c.length_ll
  have hdrop : (ll ++ d).drop (257 + c.hlit) = d := List.drop_left' c.length_ll
  simp only [readCodes, text, List.append_assoc, readBits_lsb h₁, readBits_lsb h₂,
    readBits_lsb h₃, Option.bind_eq_bind, Option.bind_some, c.hlit_le, c.hdist_le, and_self,
    guard_true, Option.pure_def, hnumbers, c.complete_cl, hlengths, htake, hdrop, c.end_pos,
    c.complete_ll, c.complete_d]

end Described

/-! ### Writing blocks -/

/-- After `p` bits, the bits `e` are a block that takes the bytes from `out` to `out'`. -/
def Carries (p : ℕ) (final : Bool) (out : Bytes) (e : Bits) (out' : Bytes) : Prop :=
  0 < e.length ∧ ∀ s : Bits, (p + e.length + s.length) % 8 = 0 →
    inflateBlock out (e ++ s) = some (final, out', s)

/-- The first bits of a block. -/
def blockHeader (final : Bool) (type : ℕ) : Bits := lsb 1 final.toNat ++ lsb 2 type

@[simp] theorem length_blockHeader (final : Bool) (type : ℕ) :
    (blockHeader final type).length = 3 := by
  simp [blockHeader]

theorem readBits_final (final : Bool) (s : Bits) :
    readBits 1 (lsb 1 final.toNat ++ s) = some (final.toNat, s) :=
  readBits_lsb (by cases final <;> decide) s

/-- **A stored block.** -/
theorem carries_stored {p k : ℕ} (final : Bool) (out : Bytes) {t : Bytes} (hk : k < 8)
    (hp : (p + 3 + k) % 8 = 0) (ht : t.length < 65536) :
    Carries p final out (blockHeader final 0 ++ (List.replicate k false ++
      (lsb 16 t.length ++ (lsb 16 (65535 - t.length) ++ ofBytes t)))) (out ++ t) := by
  refine ⟨by simp only [List.length_append, length_blockHeader]; omega, fun s hs ↦ ?_⟩
  set rest := lsb 16 t.length ++ (lsb 16 (65535 - t.length) ++ (ofBytes t ++ s)) with hrest
  have hpad : (List.replicate k false).length < 8 := by simpa using hk
  have hwhole : rest.length % 8 = 0 := by
    simp only [List.length_append, length_blockHeader, List.length_replicate, length_lsb,
      length_ofBytes] at hs
    simp only [hrest, List.length_append, length_lsb, length_ofBytes]
    omega
  have hn : t.length < 2 ^ 16 := ht
  have hm : 65535 - t.length < 2 ^ 16 := by omega
  have hsum : t.length + (65535 - t.length) = 65535 := by omega
  have hstored : inflateStored out (List.replicate k false ++ rest) = some (out ++ t, s) := by
    rw [inflateStored, alignByte_append hpad hwhole, hrest]
    simp only [readBits_lsb hn, readBits_lsb hm, hsum, guard_true, readBytes_ofBytes,
      Option.bind_eq_bind, Option.bind_some, Option.pure_def]
  have htype : (0 : ℕ) < 2 ^ 2 := by norm_num
  simp only [inflateBlock, blockHeader, List.append_assoc, readBits_final, readBits_lsb htype,
    Option.bind_eq_bind, Option.bind_some, if_true, ← hrest, hstored]
  cases final <;> rfl

/-- Items fill the stream they are read from. -/
theorem inflateItems_stream {ll d : List ℕ} {m : ℕ} (hll : Fits ll m) (hd : Fits d m)
    (hend : 0 < len ll 256) (s : Bits) {items : List Item} {texts : List Bits}
    (h : List.Forall₂ (SpellsItem ll d) items texts) {out out' : Bytes}
    (hreplay : replay out items = some out') :
    inflateItems ll d (texts.flatten ++ (codeword ll 256 ++ s)).length out
      (texts.flatten ++ (codeword ll 256 ++ s)) = some (out', s) := by
  refine inflateItems_spelled hll hd hend s h hreplay ?_
  have := length_le_of_spells h
  simp only [List.length_append, length_codeword]
  omega

theorem fits_fixedLengths : Fits fixedLengths 15 :=
  ⟨len_le_of_forall (by decide +kernel), by decide +kernel⟩

theorem fits_fixedDistances : Fits fixedDistances 15 :=
  ⟨len_le_of_forall (by decide +kernel), by decide +kernel⟩

/-- **A block of the fixed code.** -/
theorem carries_fixed (p : ℕ) (final : Bool) {out out' : Bytes} {items : List Item}
    {texts : List Bits} (h : List.Forall₂ (SpellsItem fixedLengths fixedDistances) items texts)
    (hreplay : replay out items = some out') :
    Carries p final out (blockHeader final 1 ++ (texts.flatten ++ codeword fixedLengths 256))
      out' := by
  refine ⟨by simp only [List.length_append, length_blockHeader]; omega, fun s _ ↦ ?_⟩
  have hend : 0 < len fixedLengths 256 := by decide +kernel
  have hitems := inflateItems_stream fits_fixedLengths fits_fixedDistances hend s h hreplay
  have htype : (1 : ℕ) < 2 ^ 2 := by norm_num
  simp only [inflateBlock, blockHeader, List.append_assoc, readBits_final, readBits_lsb htype,
    Option.bind_eq_bind, Option.bind_some, one_ne_zero, if_false, if_true, hitems]
  cases final <;> rfl

/-- **A block with its own codes.** -/
theorem carries_dynamic (p : ℕ) (final : Bool) {ll d : List ℕ} (c : Described ll d)
    {out out' : Bytes} {items : List Item} {texts : List Bits}
    (h : List.Forall₂ (SpellsItem ll d) items texts) (hreplay : replay out items = some out') :
    Carries p final out (blockHeader final 2 ++ (c.text ++ (texts.flatten ++ codeword ll 256)))
      out' := by
  refine ⟨by simp only [List.length_append, length_blockHeader]; omega, fun s _ ↦ ?_⟩
  have hll : Fits ll 15 := c.complete_ll.elim Complete.fits Single.fits
  have hitems := inflateItems_stream hll c.complete_d.fits c.end_pos s h hreplay
  have htype : (2 : ℕ) < 2 ^ 2 := by norm_num
  have h20 : ¬(2 : ℕ) = 0 := by norm_num
  have h21 : ¬(2 : ℕ) = 1 := by norm_num
  simp only [inflateBlock, blockHeader, List.append_assoc, readBits_final, readBits_lsb htype,
    Option.bind_eq_bind, Option.bind_some, if_neg h20, if_neg h21, if_true, c.readCodes_text,
    hitems]
  cases final <;> rfl

/-! ### Writing streams -/

/-- After `p` bits, the bits `e` are blocks that take the bytes from `out` to `out'`, the last one
marked if the stream is complete. -/
inductive Streams : ℕ → Bool → Bytes → Bits → Bytes → Prop
  | nil (p : ℕ) (out : Bytes) : Streams p false out [] out
  | cons {p : ℕ} {f : Bool} {out out₁ out' : Bytes} {e e' : Bits} :
    Carries p false out e out₁ → Streams (p + e.length) f out₁ e' out' →
      Streams p f out (e ++ e') out'
  | last {p : ℕ} {out out' : Bytes} {e : Bits} : Carries p true out e out' →
    Streams p true out e out'

/-- A block is a stream. -/
theorem Carries.streams {p : ℕ} {f : Bool} {out out' : Bytes} {e : Bits}
    (h : Carries p f out e out') : Streams p f out e out' := by
  cases f with
  | false => simpa using Streams.cons h (.nil _ _)
  | true => exact .last h

/-- Streams follow each other. -/
theorem Streams.append {p : ℕ} {f g : Bool} {out out₁ out' : Bytes} {e e' : Bits} (hf : f = false)
    (h : Streams p f out e out₁) (h' : Streams (p + e.length) g out₁ e' out') :
    Streams p g out (e ++ e') out' := by
  induction h with
  | nil => simpa using h'
  | cons hc _ ih =>
    rw [List.append_assoc]
    refine .cons hc (ih hf ?_)
    simpa [Nat.add_assoc] using h'
  | last => cases hf

theorem inflateBlocks_of_streams {p : ℕ} {f : Bool} {out out' : Bytes} {e : Bits} (hf : f = true)
    (h : Streams p f out e out') {s : Bits} (hs : (p + e.length + s.length) % 8 = 0) {fuel : ℕ}
    (hfuel : e.length ≤ fuel) : inflateBlocks fuel out (e ++ s) = some (out', s) := by
  induction h generalizing fuel with
  | nil => cases hf
  | @cons p f out out₁ out' e e' hc _ ih =>
    rw [List.length_append] at hs hfuel
    obtain ⟨hpos, hblock⟩ := hc
    obtain _ | fuel := fuel
    · omega
    have hrest := ih hf (by omega) (show e'.length ≤ fuel by omega)
    have hthis := hblock (e' ++ s) (by rw [List.length_append]; omega)
    simp [inflateBlocks, hthis, hrest]
  | last hc =>
    obtain ⟨hpos, hblock⟩ := hc
    obtain _ | fuel := fuel
    · omega
    simp [inflateBlocks, hblock s hs]

/-- **A written stream is read back.** -/
theorem inflate_of_streams {p : ℕ} {out' : Bytes} {e : Bits} (h : Streams p true [] e out')
    {s : Bits} (hs : (p + e.length + s.length) % 8 = 0) : inflate (e ++ s) = some (out', s) :=
  inflateBlocks_of_streams rfl h hs (by rw [List.length_append]; omega)

/-- The bytes `t` are a stream that stands for `input`, whatever comes after them. -/
def Deflated (t input : Bytes) : Prop :=
  ∀ after : Bytes, ∃ s, inflate (ofBytes (t ++ after)) = some (input, s) ∧
    alignByte s = ofBytes after

/-- Bytes that hold a written stream, padded to the last of them. -/
theorem deflated_of_streams {t out : Bytes} {p pad : ℕ} {e : Bits} (h : Streams p true [] e out)
    (hp : p % 8 = 0) (hpad : pad < 8) (ht : ofBytes t = e ++ List.replicate pad false) :
    Deflated t out := by
  have hwhole := congrArg List.length ht
  rw [length_ofBytes, List.length_append, List.length_replicate] at hwhole
  refine fun after ↦ ⟨List.replicate pad false ++ ofBytes after, ?_, ?_⟩
  · rw [ofBytes_append, ht, List.append_assoc]
    refine inflate_of_streams h ?_
    simp only [length_ofBytes, List.length_append, List.length_replicate]
    omega
  · exact alignByte_append (by rwa [List.length_replicate]) (by rw [length_ofBytes]; omega)

end Inflate
