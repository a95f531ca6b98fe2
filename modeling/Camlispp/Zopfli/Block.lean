import Camlispp.Zopfli.DynamicTree
import Camlispp.Zopfli.Symbols

/-!
# Blocks of LZ77 data

`AddLZ77Block` writes LZ77 data as one block, with the fixed code or with codes made for it. **The
block stands for the bytes the data replays to** (`addLZ77Block_carries`), and none of the
assertions on the way fails, as long as the data is what the format can say: literals that are
bytes, lengths and distances in range (`Encodable`).

The codes that are written and the codes that are read differ in the unused symbols at their end;
`addDynamicTree_spec` says that the codewords are the same.

## What the result rests on

* `exists_codes`: codes made from the counts of the entries have a codeword for each of their
  symbols. It rests on `lengthLimitedCodeLengths_spec`, and on `patched` for the distances.
* `Output.Holds.addLZ77Data`: what is written are the bits of the entries, one after the other.
* `carries_fixed` and `carries_dynamic`, of `Inflate`: a block with these bits stands for what its
  items mean.

The counts of a block are below `2 ^ 31`, since a part of the input has at most 20,000,000 bytes. So
the lengths are taken without bounds on weights, as `lengthLimitedCodeLengths_machine` allows.

The strict reader takes complete codes only, and besides them a single codeword of one bit. An empty
block with codes made for it needs that for its literals.
-/

namespace Camlispp

namespace Zopfli

open Bits PrefixCode Inflate

/-- `ZopfliLZ77Store`: the entries of `litlens` and of `dists`, which go together. -/
abbrev LZ77Store := List (ℕ × ℕ)

/-- The number of bytes an entry stands for. -/
def entrySize (x : ℕ × ℕ) : ℕ := if x.2 = 0 then 1 else x.1

/-- `ZopfliLZ77Counts`, on the entries from `start` to `end`. -/
def lz77Counts (entries : LZ77Store) : List ℕ × List ℕ :=
  let ll_count := tally (entries.map fun x ↦ if x.2 = 0 then x.1 else getLengthSymbol x.1)
    (List.replicate 288 0)
  let d_count := tally ((entries.filter fun x ↦ x.2 ≠ 0).map fun x ↦ getDistSymbol x.2)
    (List.replicate 32 0)
  (ll_count.set 256 1, d_count)

/-- `GetFixedTree`. -/
def getFixedTree : List ℕ × List ℕ :=
  (List.replicate 144 8 ++ List.replicate 112 9 ++ List.replicate 24 7 ++ List.replicate 8 8,
    List.replicate 32 5)

section Data

variable (ll_symbols ll_lengths d_symbols d_lengths : List ℕ)

/-- One entry of `AddLZ77Data`. -/
def addEntry (o : Output) (x : ℕ × ℕ) : Option Output :=
  let litlen := x.1
  let dist := x.2
  if dist = 0 then do
    guard (litlen < 256)
    guard (ll_lengths.getD litlen 0 > 0)
    some (addHuffmanBits (ll_symbols.getD litlen 0) (ll_lengths.getD litlen 0) o)
  else do
    let lls := getLengthSymbol litlen
    let ds := getDistSymbol dist
    guard (litlen ≥ 3 ∧ litlen ≤ 288)
    guard (ll_lengths.getD lls 0 > 0)
    guard (d_lengths.getD ds 0 > 0)
    let o := addHuffmanBits (ll_symbols.getD lls 0) (ll_lengths.getD lls 0) o
    let o := addBits (getLengthExtraBitsValue litlen) (getLengthExtraBits litlen) o
    let o := addHuffmanBits (d_symbols.getD ds 0) (d_lengths.getD ds 0) o
    some (addBits (getDistExtraBitsValue dist) (getDistExtraBits dist) o)

/-- `AddLZ77Data`. -/
def addLZ77Data (entries : LZ77Store) (expected_data_size : ℕ) (o : Output) : Option Output := do
  let o ← entries.foldlM (addEntry ll_symbols ll_lengths d_symbols d_lengths) o
  let testlength := (entries.map entrySize).sum
  guard (expected_data_size = 0 ∨ testlength = expected_data_size)
  some o

end Data

/-- The codes of a block, the dynamic ones written before it. -/
def addCodes (btype : ℕ) (entries : LZ77Store) (o : Output) :
    Option (List ℕ × List ℕ × Output) :=
  if btype = 1 then some (getFixedTree.1, getFixedTree.2, o)
  else do
    guard (btype = 2)
    let counts := lz77Counts entries
    let ll_lengths ← calculateBitLengths counts.1 15
    let d_lengths ← calculateBitLengths counts.2 15
    let d_lengths := patchDistanceCodesForBuggyDecoders d_lengths
    let o ← addDynamicTree ll_lengths d_lengths o
    guard (∀ i ∈ List.range 288, counts.1.getD i 0 = 0 ∨ ll_lengths.getD i 0 > 0)
    guard (∀ i ∈ List.range 32, counts.2.getD i 0 = 0 ∨ d_lengths.getD i 0 > 0)
    some (ll_lengths, d_lengths, o)

/-- `AddLZ77Block`. -/
def addLZ77Block (btype : ℕ) (final : Bool) (entries : LZ77Store) (expected_data_size : ℕ)
    (o : Output) : Option Output := do
  let o := addBit final o
  let o := addBit (btype &&& 1 = 1) o
  let o := addBit ((btype &&& 2) >>> 1 = 1) o
  let (ll_lengths, d_lengths, o) ← addCodes btype entries o
  let ll_symbols ← lengthsToSymbols ll_lengths 15
  let d_symbols ← lengthsToSymbols d_lengths 15
  let o ← addLZ77Data ll_symbols ll_lengths d_symbols d_lengths entries expected_data_size o
  some (addHuffmanBits (ll_symbols.getD 256 0) (ll_lengths.getD 256 0) o)

/-! ### Entries -/

/-- An entry the format can say. -/
def Encodable (x : ℕ × ℕ) : Prop :=
  if x.2 = 0 then x.1 < 256 else minMatch ≤ x.1 ∧ x.1 ≤ maxMatch ∧ x.2 ≤ windowSize

/-- What an entry means. -/
def toItem (x : ℕ × ℕ) : Item :=
  if x.2 = 0 then .literal (UInt8.ofNat x.1) else .copy x.1 x.2

/-- The literal symbol of an entry. -/
def entrySymbol (x : ℕ × ℕ) : ℕ := if x.2 = 0 then x.1 else getLengthSymbol x.1

/-- The bits of an entry. -/
def entryText (ll d : List ℕ) (x : ℕ × ℕ) : Bits :=
  if x.2 = 0 then codeword ll x.1
  else codeword ll (getLengthSymbol x.1) ++
    (lsb (getLengthExtraBits x.1) (getLengthExtraBitsValue x.1) ++
      (codeword d (getDistSymbol x.2) ++ lsb (getDistExtraBits x.2) (getDistExtraBitsValue x.2)))

/-- The codes have the symbols of an entry. -/
def HasSymbols (ll d : List ℕ) (x : ℕ × ℕ) : Prop :=
  0 < len ll (entrySymbol x) ∧ (x.2 ≠ 0 → 0 < len d (getDistSymbol x.2))

/-- The bits of an entry are those of the format. -/
theorem spellsItem_entryText {ll d : List ℕ} {x : ℕ × ℕ} (hx : Encodable x)
    (hs : HasSymbols ll d x) : SpellsItem ll d (toItem x) (entryText ll d x) := by
  obtain ⟨litlen, dist⟩ := x
  obtain ⟨hll, hd⟩ := hs
  simp only [Encodable, entrySymbol, toItem, entryText] at hx hll hd ⊢
  split at hx
  · rename_i hzero
    have hbyte : (UInt8.ofNat litlen).toNat = litlen := by
      rw [UInt8.toNat_ofNat']
      exact Nat.mod_eq_of_lt hx
    rw [if_pos hzero] at hll
    rw [if_pos hzero, if_pos hzero]
    have := SpellsItem.literal (d := d) (UInt8.ofNat litlen) (by rwa [hbyte])
    rwa [hbyte] at this
  · rename_i hpos
    rw [if_neg hpos] at hll
    rw [if_neg hpos, if_neg hpos]
    obtain ⟨h3, h258, hwindow⟩ := hx
    have hsymbol : 257 + (getLengthSymbol litlen - 257) = getLengthSymbol litlen :=
      Nat.add_sub_cancel' (le_getLengthSymbol h3 h258)
    have := SpellsItem.copy (d := d) (coded_length h3 h258) (hsymbol.symm ▸ hll)
      (coded_dist (Nat.pos_of_ne_zero hpos) hwindow).1 (hd hpos)
    rwa [hsymbol] at this

section Written

variable {ll d ll_symbols d_symbols : List ℕ}
  (hll : ∀ i, 0 < len ll i → ll_symbols.getD i 0 = code ll i)
  (hd : ∀ i, 0 < len d i → d_symbols.getD i 0 = code d i)

include hll hd

/-- **An entry is written as its bits.** -/
theorem Output.Holds.addEntry {o : Output} {s : Bits} (ho : o.Holds s) {x : ℕ × ℕ}
    (hx : Encodable x) (hs : HasSymbols ll d x) :
    ∃ o', addEntry ll_symbols ll d_symbols d o x = some o' ∧ o'.Holds (s ++ entryText ll d x) := by
  obtain ⟨litlen, dist⟩ := x
  obtain ⟨hlpos, hdpos⟩ := hs
  simp only [Encodable, entrySymbol, entryText, Zopfli.addEntry] at hx hlpos hdpos ⊢
  split at hx
  · rename_i hzero
    rw [if_pos hzero] at hlpos
    have hlpos' : ll.getD litlen 0 > 0 := hlpos
    rw [if_pos hzero, if_pos hzero, guard_of hx, guard_of hlpos']
    refine ⟨_, rfl, ?_⟩
    rw [hll _ hlpos]
    exact ho.addHuffmanBits _ _
  · rename_i hpos
    rw [if_neg hpos] at hlpos
    obtain ⟨h3, h258, hwindow⟩ := hx
    have hrange : litlen ≥ 3 ∧ litlen ≤ 288 := ⟨h3, h258.trans (by unfold maxMatch; norm_num)⟩
    have hlpos' : ll.getD (getLengthSymbol litlen) 0 > 0 := hlpos
    have hdpos' : d.getD (getDistSymbol dist) 0 > 0 := hdpos hpos
    rw [if_neg hpos, if_neg hpos, guard_of hrange, guard_of hlpos', guard_of hdpos']
    refine ⟨_, rfl, ?_⟩
    rw [hll _ hlpos, hd _ (hdpos hpos)]
    have := (((ho.addHuffmanBits (code ll (getLengthSymbol litlen))
      (len ll (getLengthSymbol litlen))).addBits (getLengthExtraBitsValue litlen)
      (getLengthExtraBits litlen)).addHuffmanBits (code d (getDistSymbol dist))
      (len d (getDistSymbol dist))).addBits (getDistExtraBitsValue dist) (getDistExtraBits dist)
    simp only [List.append_assoc] at this
    exact this

/-- **LZ77 data is written as the bits of its entries.** -/
theorem Output.Holds.addLZ77Data {o : Output} {s : Bits} (ho : o.Holds s) {entries : LZ77Store}
    (hx : ∀ x ∈ entries, Encodable x) (hs : ∀ x ∈ entries, HasSymbols ll d x) {size : ℕ}
    (hsize : size = 0 ∨ (entries.map entrySize).sum = size) :
    ∃ o', addLZ77Data ll_symbols ll d_symbols d entries size o = some o' ∧
      o'.Holds (s ++ (entries.map (entryText ll d)).flatten) := by
  have hfold : ∃ o', entries.foldlM (Zopfli.addEntry ll_symbols ll d_symbols d) o = some o' ∧
      o'.Holds (s ++ (entries.map (entryText ll d)).flatten) := by
    clear hsize
    induction entries generalizing o s with
    | nil => exact ⟨o, rfl, by simpa using ho⟩
    | cons x entries ih =>
      obtain ⟨o₁, ho₁, hholds⟩ := ho.addEntry hll hd (hx x List.mem_cons_self)
        (hs x List.mem_cons_self)
      obtain ⟨o', ho', hholds'⟩ := ih hholds (fun y hy ↦ hx y (List.mem_cons_of_mem x hy))
        fun y hy ↦ hs y (List.mem_cons_of_mem x hy)
      refine ⟨o', by rw [List.foldlM_cons, ho₁]; exact ho', ?_⟩
      rw [List.map_cons, List.flatten_cons, ← List.append_assoc]
      exact hholds'
  obtain ⟨o', ho', hholds⟩ := hfold
  refine ⟨o', ?_, hholds⟩
  simp only [Zopfli.addLZ77Data, ho', guard_of hsize, Option.bind_eq_bind, Option.bind_some]

end Written

/-! ### Counts -/

theorem entrySymbol_lt {x : ℕ × ℕ} (hx : Encodable x) :
    entrySymbol x < 286 ∧ entrySymbol x ≠ 256 := by
  obtain ⟨litlen, dist⟩ := x
  simp only [Encodable, entrySymbol] at hx ⊢
  split at hx
  · rename_i hzero
    rw [if_pos hzero]
    omega
  · rename_i hpos
    rw [if_neg hpos]
    obtain ⟨h3, h258, -⟩ := hx
    have hle := le_getLengthSymbol h3 h258
    obtain ⟨hlt, -⟩ := List.getElem?_eq_some_iff.1 (coded_length h3 h258).base_eq
    have hlength : lengthBase.length = 29 := rfl
    omega

theorem getDistSymbol_lt {x : ℕ × ℕ} (hx : Encodable x) (hpos : x.2 ≠ 0) :
    getDistSymbol x.2 < 30 := by
  rw [Encodable, if_neg hpos] at hx
  exact (coded_dist (Nat.pos_of_ne_zero hpos) hx.2.2).2

section Counts

variable {entries : LZ77Store}

theorem length_lz77Counts :
    (lz77Counts entries).1.length = 288 ∧ (lz77Counts entries).2.length = 32 :=
  ⟨List.length_set.trans ((length_tally _ _).trans List.length_replicate),
    (length_tally _ _).trans List.length_replicate⟩

/-- How often a literal symbol is counted. -/
theorem len_llCount {s : ℕ} (hs : s < 288) : len (lz77Counts entries).1 s =
    if s = 256 then 1 else (entries.map entrySymbol).count s := by
  have hlen : (tally (entries.map entrySymbol) (List.replicate 288 0)).length = 288 := by
    rw [length_tally, List.length_replicate]
  rw [show (lz77Counts entries).1 =
    (tally (entries.map entrySymbol) (List.replicate 288 0)).set 256 1 from rfl,
    len_set (by rw [hlen]; norm_num), len_tally _ _ (by rwa [List.length_replicate]),
    len_replicate_zero, Nat.zero_add]

/-- How often a distance symbol is counted. -/
theorem len_dCount {s : ℕ} (hs : s < 32) : len (lz77Counts entries).2 s =
    ((entries.filter fun x ↦ x.2 ≠ 0).map fun x ↦ getDistSymbol x.2).count s := by
  rw [lz77Counts, len_tally _ _ (by rwa [List.length_replicate]), len_replicate_zero, Nat.zero_add]

variable (hx : ∀ x ∈ entries, Encodable x)

include hx

/-- **The symbols of the entries are counted**, and none that the format reserves. -/
theorem lz77Counts_spec :
    (∀ x ∈ entries, HasSymbols (lz77Counts entries).1 (lz77Counts entries).2 x) ∧
      (∀ i, 286 ≤ i → len (lz77Counts entries).1 i = 0) ∧
      ∀ i, 30 ≤ i → len (lz77Counts entries).2 i = 0 := by
  obtain ⟨hll, hd⟩ := @length_lz77Counts entries
  refine ⟨fun x hmem ↦ ⟨?_, fun hpos ↦ ?_⟩, fun i hi ↦ ?_, fun i hi ↦ ?_⟩
  · obtain ⟨hlt, hne⟩ := entrySymbol_lt (hx x hmem)
    rw [len_llCount (by omega), if_neg hne]
    exact List.count_pos_iff.2 (List.mem_map_of_mem hmem)
  · have hlt := getDistSymbol_lt (hx x hmem) hpos
    rw [len_dCount (by omega)]
    exact List.count_pos_iff.2 (List.mem_map.2 ⟨x, by simpa [hpos] using hmem, rfl⟩)
  · obtain hlt | hge := lt_or_ge i 288
    · rw [len_llCount hlt, if_neg (by omega)]
      refine List.count_eq_zero_of_not_mem fun hmem ↦ ?_
      obtain ⟨x, hin, rfl⟩ := List.mem_map.1 hmem
      have := (entrySymbol_lt (hx x hin)).1
      omega
    · rw [len, List.getD_eq_default _ 0 (by omega)]
  · obtain hlt | hge := lt_or_ge i 32
    · rw [len_dCount hlt]
      refine List.count_eq_zero_of_not_mem fun hmem ↦ ?_
      obtain ⟨x, hin, rfl⟩ := List.mem_map.1 hmem
      obtain ⟨hin, hpos⟩ := List.mem_filter.1 hin
      have := getDistSymbol_lt (hx x hin) (by simpa using hpos)
      omega
    · rw [len, List.getD_eq_default _ 0 (by omega)]

/-- **The codes made for the entries can be described**, and have their symbols. -/
theorem exists_codes :
    ∃ ll d, calculateBitLengths (lz77Counts entries).1 15 = some ll ∧
      calculateBitLengths (lz77Counts entries).2 15 = some d ∧
      Describable ll (patchDistanceCodesForBuggyDecoders d) ∧
      (∀ i, 0 < len (lz77Counts entries).1 i → 0 < len ll i) ∧
      ∀ i, 0 < len (lz77Counts entries).2 i →
        0 < len (patchDistanceCodesForBuggyDecoders d) i := by
  obtain ⟨-, hlltail, hdtail⟩ := lz77Counts_spec hx
  obtain ⟨hlllen, hdlen⟩ := @length_lz77Counts entries
  have hcard (l : List ℕ) : (used l).card ≤ l.length :=
    (Finset.card_filter_le _ _).trans (Finset.card_range _).le
  obtain ⟨ll, hll, hllspec⟩ := lengthLimitedCodeLengths_spec (f := (lz77Counts entries).1)
    (show 0 < 15 by norm_num) ((hcard _).trans (by rw [hlllen]; norm_num))
  obtain ⟨d, hd, hdspec⟩ := lengthLimitedCodeLengths_spec (f := (lz77Counts entries).2)
    (show 0 < 15 by norm_num) ((hcard _).trans (by rw [hdlen]; norm_num))
  have hpatched := patched hdspec hdlen hdtail
  have hend : 0 < len (lz77Counts entries).1 256 := by
    rw [len_llCount (by norm_num), if_pos rfl]
    exact Nat.one_pos
  have hone : 1 ≤ (used (lz77Counts entries).1).card := Finset.card_pos.2 ⟨256, mem_used.2 hend⟩
  refine ⟨ll, d, hll, hd, ⟨hllspec.length_eq.trans hlllen, hpatched.length_eq, fun i hi ↦ ?_,
    hpatched.tail, (hllspec.pos_iff 256).2 hend, ?_, hpatched.complete⟩,
    fun i hi ↦ (hllspec.pos_iff i).2 hi, fun i hi ↦ hpatched.used i ((hdspec.pos_iff i).2 hi)⟩
  · by_contra hpos
    have := (hllspec.pos_iff i).1 (Nat.pos_of_ne_zero hpos)
    exact this.ne' (hlltail i hi)
  · obtain h2 | h1 := hone.lt_or_eq
    · exact .inl (hllspec.complete h2)
    · exact .inr (hllspec.single h1.symm)

end Counts

/-! ### Blocks -/

theorem blockHeader_eq (final : Bool) (type : ℕ) :
    blockHeader final type = [final, type.testBit 0, type.testBit 1] := by
  cases final <;> rfl

/-- The entries, with codes of the same lengths. -/
theorem entryText_congr {ll ll' d d' : List ℕ} (hll : ∀ i, len ll i = len ll' i)
    (hd : ∀ i, len d i = len d' i) (x : ℕ × ℕ) : entryText ll d x = entryText ll' d' x := by
  rw [entryText, entryText, codeword_congr hll, codeword_congr hll, codeword_congr hd]

/-- The entries of a block are spelled as the format has it. -/
theorem forall₂_entryText {ll d : List ℕ} {entries : LZ77Store} (hx : ∀ x ∈ entries, Encodable x)
    (hs : ∀ x ∈ entries, HasSymbols ll d x) :
    List.Forall₂ (SpellsItem ll d) (entries.map toItem) (entries.map (entryText ll d)) := by
  rw [List.forall₂_map_left_iff, List.forall₂_map_right_iff, List.forall₂_same]
  exact fun x hmem ↦ spellsItem_entryText (hx x hmem) (hs x hmem)

/-- The fixed code has every symbol. -/
theorem hasSymbols_fixed {x : ℕ × ℕ} (hx : Encodable x) :
    HasSymbols fixedLengths fixedDistances x := by
  have hll : ∀ i, i < 288 → 0 < len fixedLengths i := by
    intro i hi
    have hall : ((List.range 288).all fun i ↦ 0 < len fixedLengths i) = true := by
      decide +kernel
    simpa using List.all_eq_true.1 hall i (List.mem_range.2 hi)
  have hd : ∀ i, i < 32 → 0 < len fixedDistances i := by
    intro i hi
    have hall : ((List.range 32).all fun i ↦ 0 < len fixedDistances i) = true := by
      decide +kernel
    simpa using List.all_eq_true.1 hall i (List.mem_range.2 hi)
  refine ⟨hll _ (by have := (entrySymbol_lt hx).1; omega), fun hpos ↦ hd _ ?_⟩
  have := getDistSymbol_lt hx hpos
  omega

/-- After the header and the codes of a block: the entries and the end of the block. -/
theorem holds_data {ll d : List ℕ} (hll : ∀ n ∈ ll, n ≤ 15) (hd : ∀ n ∈ d, n ≤ 15)
    (hend : 0 < len ll 256) {entries : LZ77Store} (hx : ∀ x ∈ entries, Encodable x)
    (hs : ∀ x ∈ entries, HasSymbols ll d x) {size : ℕ}
    (hsize : size = 0 ∨ (entries.map entrySize).sum = size) {o : Output} {s : Bits}
    (ho : o.Holds s) :
    ∃ o', (do
        let ll_symbols ← lengthsToSymbols ll 15
        let d_symbols ← lengthsToSymbols d 15
        let o ← addLZ77Data ll_symbols ll d_symbols d entries size o
        some (addHuffmanBits (ll_symbols.getD 256 0) (ll.getD 256 0) o)) = some o' ∧
      o'.Holds (s ++ ((entries.map (entryText ll d)).flatten ++ codeword ll 256)) := by
  obtain ⟨ll_symbols, hllsym, hllcode⟩ := lengthsToSymbols_spec hll
  obtain ⟨d_symbols, hdsym, hdcode⟩ := lengthsToSymbols_spec hd
  obtain ⟨o', ho', hholds⟩ := ho.addLZ77Data hllcode hdcode hx hs hsize
  refine ⟨addHuffmanBits (ll_symbols.getD 256 0) (ll.getD 256 0) o',
    by simp only [hllsym, hdsym, ho', Option.bind_eq_bind, Option.bind_some], ?_⟩
  rw [hllcode 256 hend, ← List.append_assoc]
  exact hholds.addHuffmanBits _ _

/-- **A block stands for what its LZ77 data replays to**, and no assertion fails. -/
theorem addLZ77Block_carries {btype : ℕ} (hb : btype = 1 ∨ btype = 2) (final : Bool)
    {entries : LZ77Store} (hx : ∀ x ∈ entries, Encodable x) {size : ℕ}
    (hsize : size = 0 ∨ (entries.map entrySize).sum = size) {out out' : Bytes}
    (hreplay : replay out (entries.map toItem) = some out') {o : Output} {s : Bits}
    (ho : o.Holds s) :
    ∃ o' e, addLZ77Block btype final entries size o = some o' ∧ o'.Holds (s ++ e) ∧
      Carries s.length final out e out' := by
  have hheader := ((ho.addBit final).addBit (btype &&& 1 = 1)).addBit ((btype &&& 2) >>> 1 = 1)
  have hbits : s ++ [final] ++ [decide (btype &&& 1 = 1)] ++ [decide ((btype &&& 2) >>> 1 = 1)] =
      s ++ blockHeader final btype := by
    rw [blockHeader_eq]
    obtain rfl | rfl := hb <;> simp <;> decide
  rw [hbits] at hheader
  obtain rfl | rfl := hb
  · -- the fixed code
    have hs : ∀ x ∈ entries, HasSymbols fixedLengths fixedDistances x :=
      fun x hmem ↦ hasSymbols_fixed (hx x hmem)
    have hend : 0 < len fixedLengths 256 := by decide +kernel
    obtain ⟨o', ho', hholds⟩ := holds_data (by decide +kernel) (by decide +kernel) hend hx hs hsize
      hheader
    have hcodes : addCodes 1 entries (addBit (((1 : ℕ) &&& 2) >>> 1 = 1)
        (addBit ((1 : ℕ) &&& 1 = 1) (addBit final o))) = some (fixedLengths, fixedDistances,
          addBit (((1 : ℕ) &&& 2) >>> 1 = 1) (addBit ((1 : ℕ) &&& 1 = 1) (addBit final o))) :=
      if_pos rfl
    refine ⟨o', blockHeader final 1 ++ ((entries.map (entryText fixedLengths
      fixedDistances)).flatten ++ codeword fixedLengths 256), ?_,
      by simpa only [List.append_assoc] using hholds,
      carries_fixed s.length final (forall₂_entryText hx hs) hreplay⟩
    simp only [addLZ77Block, hcodes, Option.bind_eq_bind, Option.bind_some]
    exact ho'
  · -- codes made for the block
    obtain ⟨ll, d, hll, hd, hdescribable, hllused, hdused⟩ := exists_codes hx
    obtain ⟨hsymbols, -, -⟩ := lz77Counts_spec hx
    set d' := patchDistanceCodesForBuggyDecoders d with hd'
    obtain ⟨ll₁, d₁, c, hll₁, hd₁, hwrite⟩ := addDynamicTree_spec hdescribable
    obtain ⟨o₁, ho₁, hholds₁⟩ := hwrite hheader
    have hs : ∀ x ∈ entries, HasSymbols ll d' x := fun x hmem ↦
      ⟨hllused _ (hsymbols x hmem).1, fun hpos ↦ hdused _ ((hsymbols x hmem).2 hpos)⟩
    obtain ⟨o', ho', hholds⟩ := holds_data hdescribable.ll_le hdescribable.complete_d.1
      hdescribable.end_pos hx hs hsize hholds₁
    have hguard : ∀ i ∈ List.range 288, (lz77Counts entries).1.getD i 0 = 0 ∨ ll.getD i 0 > 0 :=
      fun i _ ↦ (Nat.eq_zero_or_pos _).imp id fun h ↦ hllused i h
    have hguard' : ∀ i ∈ List.range 32, (lz77Counts entries).2.getD i 0 = 0 ∨ d'.getD i 0 > 0 :=
      fun i _ ↦ (Nat.eq_zero_or_pos _).imp id fun h ↦ hdused i h
    have hcodes : addCodes 2 entries (addBit (((2 : ℕ) &&& 2) >>> 1 = 1)
        (addBit ((2 : ℕ) &&& 1 = 1) (addBit final o))) = some (ll, d', o₁) := by
      rw [addCodes, if_neg (by norm_num), guard_of rfl]
      simp only [hll, hd, ← hd', ho₁, guard_of hguard, guard_of hguard', Option.bind_eq_bind,
        Option.bind_some]
    refine ⟨o', blockHeader final 2 ++ (c.text ++ ((entries.map (entryText ll d')).flatten ++
      codeword ll 256)), ?_, by simpa only [List.append_assoc] using hholds, ?_⟩
    · simp only [addLZ77Block, hcodes, Option.bind_eq_bind, Option.bind_some]
      exact ho'
    · have htexts : entries.map (entryText ll d') = entries.map (entryText ll₁ d₁) :=
        List.map_congr_left fun x _ ↦ entryText_congr hll₁ hd₁ x
      rw [htexts, codeword_congr hll₁]
      refine carries_dynamic s.length final c (forall₂_entryText hx fun x hmem ↦ ?_) hreplay
      obtain ⟨hl, hdist⟩ := hs x hmem
      exact ⟨hll₁ _ ▸ hl, fun hpos ↦ hd₁ _ ▸ hdist hpos⟩

/-- **A block on its own is a stream of what its data replays to.** -/
theorem deflated_addLZ77Block {btype : ℕ} (hb : btype = 1 ∨ btype = 2) {entries : LZ77Store}
    (hx : ∀ x ∈ entries, Encodable x) {out : Bytes}
    (hreplay : replay [] (entries.map toItem) = some out) {size : ℕ}
    (hsize : size = 0 ∨ (entries.map entrySize).sum = size) :
    ∃ o, addLZ77Block btype true entries size ⟨0, []⟩ = some o ∧ Deflated o.out out := by
  obtain ⟨o, e, hrun, ⟨pad, hpad, hout, -⟩, hcarries⟩ :=
    addLZ77Block_carries hb true hx hsize hreplay (Output.holds_bytes [])
  refine ⟨o, hrun, deflated_of_streams hcarries.streams rfl hpad hout⟩

theorem deflated_addLZ77Block_abab : ∃ o,
    addLZ77Block 2 true [(97, 0), (98, 0), (6, 2)] 8 ⟨0, []⟩ = some o ∧
      Deflated o.out [97, 98, 97, 98, 97, 98, 97, 98] :=
  deflated_addLZ77Block (.inr rfl) (by simp [Encodable, minMatch, maxMatch, windowSize]) (by decide)
    (.inr (by decide))

end Zopfli

end Camlispp
