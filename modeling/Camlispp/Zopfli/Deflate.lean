import Camlispp.Zopfli.BlockSplit

/-!
# DEFLATE

`ZopfliDeflate` cuts the input into master blocks, these into blocks, and writes each as LZ77 data
or as it is. The LZ77 data comes from the strategies of `lz77.cc` and `squeeze.cc` (`Squeeze`), of
which only this matters here: **the data for a part of the input, replayed on what comes before it,
gives the part** (`Parses`).

`Writes` is what every part of the compressor does: it appends a stream that takes the bytes before
it to the bytes after it. It composes (`Writes.seq`, `writes_deflateBlocks`), so that the whole is
read back (`exists_zopfliDeflate`) for whatever points the input is cut at.

## What the result rests on

* `Squeeze.Sound` is all that is asked of the strategies: what they return for a part of the input
  replays to it. `ZopfliVerifyLenDist` asserts as much of every match.
* `blockSplitLZ77_divides`, by `flatten_blocks`: increasing points inside the data cut it into
  blocks that make it up.
* `writes_addLZ77Block` and `writes_deflateNonCompressedBlock`: the two kinds of block. A stored
  block begins at a byte, so it matters where it stands, and `Streams` knows how many bits come
  before.

**No assertion fails**, on any input: each function returns `some`.
-/

namespace Camlispp

namespace Zopfli

open Bits PrefixCode Inflate

/-- What `ZopfliOptions` says about blocks, with the values of `ZopfliInitOptions`. -/
structure Options where
  blocksplitting : Bool := true
  blocksplittinglast : Bool := false
  blocksplittingmax : ℕ := 15

/-- The strategies, on the input from `instart` to `inend`: `ZopfliLZ77Greedy` without a cache,
`ZopfliLZ77Optimal` with a fresh one, and `ZopfliLZ77OptimalFixed` with a fresh one or with the one
that `ZopfliLZ77Optimal` leaves. A failed assertion is `none`. -/
structure Squeeze where
  greedy : ℕ → ℕ → Option LZ77Store
  optimal : ℕ → ℕ → Option LZ77Store
  optimalFixed : (afterOptimal : Bool) → ℕ → ℕ → Option LZ77Store

section Blocks

variable (opts : Options) (q : Squeeze) (input : Bytes)

/-- `DeflateDynamicBlock`. -/
def deflateDynamicBlock (final : Bool) (instart inend : ℕ) (o : Output) : Option Output := do
  let store ← q.optimal instart inend
  let (btype, store) ←
    if store.length < 1000 then do
      let fixedstore ← q.optimalFixed true instart inend
      let dyncost ← calculateBlockSize store 2
      let fixedcost ← calculateBlockSize fixedstore 1
      some (if fixedcost < dyncost then (1, fixedstore) else (2, store))
    else some (2, store)
  addLZ77Block btype final store (inend - instart) o

/-- `DeflateFixedBlock`. -/
def deflateFixedBlock (final : Bool) (instart inend : ℕ) (o : Output) : Option Output := do
  let store ← q.optimalFixed false instart inend
  addLZ77Block 1 final store (inend - instart) o

/-- `DeflateNonCompressedBlock`. -/
def deflateNonCompressedBlock (final : Bool) (instart inend : ℕ) (o : Output) :
    Option Output := do
  let blocksize := inend - instart
  let nlen := 65535 - blocksize % 65536
  guard (blocksize < 65536)
  let o := addBit false (addBit false (addBit final o))
  let o := { o with bp := 0 }
  let o := appendData (UInt8.ofNat (blocksize % 256)) o
  let o := appendData (UInt8.ofNat (blocksize / 256 % 256)) o
  let o := appendData (UInt8.ofNat (nlen % 256)) o
  let o := appendData (UInt8.ofNat (nlen / 256 % 256)) o
  some (((input.take inend).drop instart).foldl (fun o b ↦ appendData b o) o)

/-- `DeflateBlock`. -/
def deflateBlock (btype : ℕ) (final : Bool) (instart inend : ℕ) (o : Output) : Option Output :=
  if btype = 0 then deflateNonCompressedBlock input final instart inend o
  else if btype = 1 then deflateFixedBlock q final instart inend o
  else do
    guard (btype = 2)
    deflateDynamicBlock q final instart inend o

/-! ### Split points in the input -/

/-- The positions in the input of LZ77 positions, the loop of `ZopfliBlockSplit`: the entry `i`
begins at `pos`. -/
def positions : LZ77Store → ℕ → ℕ → List ℕ → List ℕ
  | _, _, _, [] => []
  | [], _, _, _ :: _ => []
  | x :: entries, i, pos, p :: points =>
    if p = i then pos :: positions entries (i + 1) (pos + entrySize x) points
    else positions entries (i + 1) (pos + entrySize x) (p :: points)

/-- `ZopfliBlockSplit`. -/
def blockSplit (instart inend maxblocks : ℕ) : Option (List ℕ) := do
  let store ← q.greedy instart inend
  let lz77splitpoints ← blockSplitLZ77 store maxblocks
  let splitpoints := positions store 0 instart lz77splitpoints
  guard (splitpoints.length = lz77splitpoints.length)
  some splitpoints

/-- `ZopfliBlockSplitSimple`, from `i` on. -/
def blockSplitSimple (inend blocksize i : ℕ) : List ℕ :=
  if _h : i < inend ∧ 0 < blocksize then i :: blockSplitSimple inend blocksize (i + blocksize)
  else []
termination_by inend - i

/-- The loop over the blocks that split points make, the last of them marked if the part is. -/
def deflateBlocks (block : Bool → ℕ → ℕ → Output → Option Output) (final : Bool) (first last : ℕ)
    (splitpoints : List ℕ) (o : Output) : Option Output :=
  (List.range (splitpoints.length + 1)).foldlM (fun o i ↦
    let (start, stop) := blockBounds first last splitpoints i
    block (i = splitpoints.length && final) start stop o) o

/-- `DeflateSplittingFirst`. -/
def deflateSplittingFirst (btype : ℕ) (final : Bool) (instart inend : ℕ) (o : Output) :
    Option Output := do
  let splitpoints ←
    if btype = 0 then some (blockSplitSimple inend 65535 instart)
    else if btype = 1 then some []
    else blockSplit q instart inend opts.blocksplittingmax
  deflateBlocks (deflateBlock q input btype) final instart inend splitpoints o

/-- `DeflateSplittingLast`. -/
def deflateSplittingLast (btype : ℕ) (final : Bool) (instart inend : ℕ) (o : Output) :
    Option Output := do
  let o ← if btype = 0 then deflateSplittingFirst opts q input btype final instart inend o
    else some o
  guard (btype = 1 ∨ btype = 2)
  let store ← if btype = 2 then q.optimal instart inend else q.optimalFixed false instart inend
  let splitpoints ← if btype = 1 then some [] else blockSplitLZ77 store opts.blocksplittingmax
  deflateBlocks (fun final start stop ↦ addLZ77Block btype final (slice store start stop) 0) final 0
    store.length splitpoints o

/-- `ZopfliDeflatePart`. -/
def deflatePart (btype : ℕ) (final : Bool) (instart inend : ℕ) (o : Output) : Option Output :=
  if opts.blocksplitting then
    if opts.blocksplittinglast then deflateSplittingLast opts q input btype final instart inend o
    else deflateSplittingFirst opts q input btype final instart inend o
  else deflateBlock q input btype final instart inend o

/-- `ZOPFLI_MASTER_BLOCK_SIZE`. -/
def masterBlockSize : ℕ := 20000000

/-- The loop of `ZopfliDeflate`, from `i` on. -/
def deflateFrom (btype : ℕ) (final : Bool) (i : ℕ) (o : Output) : Option Output :=
  if _h : i < input.length then do
    let masterfinal : Bool := i + masterBlockSize ≥ input.length
    let size := if masterfinal then input.length - i else masterBlockSize
    let o ← deflatePart opts q input btype (final && masterfinal) i (i + size) o
    deflateFrom btype final (i + size) o
  else some o
termination_by input.length - i
decreasing_by
  split
  · omega
  · have : 0 < masterBlockSize := by decide
    omega

/-- `ZopfliDeflate`. -/
def zopfliDeflate (btype : ℕ) (final : Bool) (o : Output) : Option Output :=
  deflateFrom opts q input btype final 0 o

end Blocks

/-! ### What LZ77 data stands for -/

/-- **The entries stand for the input from `instart` to `inend`.** -/
structure Parses (input : Bytes) (instart inend : ℕ) (entries : LZ77Store) : Prop where
  encodable : ∀ x ∈ entries, Encodable x
  replays : replay (input.take instart) (entries.map toItem) = some (input.take inend)

theorem length_copyBack {dist : ℕ} : ∀ {n : ℕ} {out out' : Bytes}, copyBack dist n out = some out' →
    out'.length = out.length + n := by
  intro n
  induction n with
  | zero =>
    intro out out' h
    obtain rfl := Option.some_injective _ h
    rfl
  | succ n ih =>
    intro out out' h
    rw [copyBack] at h
    split at h
    · obtain ⟨b, -, h⟩ := Option.bind_eq_some_iff.1 h
      rw [ih h, List.length_append, List.length_singleton, Nat.add_assoc, Nat.add_comm 1]
    · cases h

theorem length_replay {entries : LZ77Store} {out out' : Bytes}
    (h : replay out (entries.map toItem) = some out') :
    out'.length = out.length + (entries.map entrySize).sum := by
  induction entries generalizing out with
  | nil =>
    obtain rfl := Option.some_injective _ h
    rfl
  | cons x entries ih =>
    obtain ⟨out₁, hfirst, hrest⟩ := Option.bind_eq_some_iff.1 h
    have hsize : out₁.length = out.length + entrySize x := by
      unfold toItem at hfirst
      unfold entrySize
      split at hfirst
      · rename_i hzero
        obtain rfl := Option.some_injective _ hfirst
        rw [if_pos hzero, List.length_append, List.length_singleton]
      · rename_i hpos
        rw [if_neg hpos]
        exact length_copyBack hfirst
    rw [ih hrest, hsize, List.map_cons, List.sum_cons, Nat.add_assoc]

theorem replay_append (out : Bytes) (xs ys : List Item) :
    replay out (xs ++ ys) = (replay out xs).bind fun out ↦ replay out ys :=
  List.foldlM_append

/-- The size that is expected of the entries. -/
theorem Parses.sum_entrySize {input : Bytes} {instart inend : ℕ} {entries : LZ77Store}
    (h : Parses input instart inend entries) (hab : instart ≤ inend) (hend : inend ≤ input.length) :
    (entries.map entrySize).sum = inend - instart := by
  have := length_replay h.replays
  rw [List.length_take_of_le hend, List.length_take_of_le (hab.trans hend)] at this
  omega

theorem entrySize_pos {x : ℕ × ℕ} (hx : Encodable x) : 0 < entrySize x := by
  unfold Encodable at hx
  unfold entrySize
  split at hx
  · rename_i hzero
    rw [if_pos hzero]
    exact Nat.one_pos
  · rename_i hpos
    rw [if_neg hpos]
    exact (show 0 < minMatch by decide).trans_le hx.1

/-! ### Writing -/

/-- Appends a stream that takes the bytes from `out` to `out'`. -/
def Writes (final : Bool) (out : Bytes) (run : Output → Option Output) (out' : Bytes) : Prop :=
  ∀ (o : Output) (s : Bits), o.Holds s → ∃ o' e, run o = some o' ∧ o'.Holds (s ++ e) ∧
    Streams s.length final out e out'

/-- **One stream after the other.** -/
theorem Writes.seq {final : Bool} {out out₁ out' : Bytes} {run run' : Output → Option Output}
    (h : Writes false out run out₁) (h' : Writes final out₁ run' out') :
    Writes final out (fun o ↦ (run o).bind run') out' := by
  intro o s ho
  obtain ⟨o₁, e, hrun, ho₁, hs⟩ := h o s ho
  obtain ⟨o', e', hrun', ho', hs'⟩ := h' o₁ (s ++ e) ho₁
  rw [List.length_append] at hs'
  exact ⟨o', e ++ e', by show (run o).bind run' = _; rw [hrun, Option.bind_some, hrun'],
    by rwa [← List.append_assoc], hs.append rfl hs'⟩

/-- A block of LZ77 data. -/
theorem writes_addLZ77Block {btype : ℕ} (hb : btype = 1 ∨ btype = 2) (final : Bool)
    {entries : LZ77Store} (hx : ∀ x ∈ entries, Encodable x) {size : ℕ}
    (hsize : size = 0 ∨ (entries.map entrySize).sum = size) {out out' : Bytes}
    (hreplay : replay out (entries.map toItem) = some out') :
    Writes final out (addLZ77Block btype final entries size) out' := by
  intro o s ho
  obtain ⟨o', e, hrun, hholds, hcarries⟩ := addLZ77Block_carries hb final hx hsize hreplay ho
  exact ⟨o', e, hrun, hholds, hcarries.streams⟩

/-- Two bytes of a number. -/
theorem lsb_two_bytes (v : ℕ) : lsb 8 (UInt8.ofNat (v % 256)).toNat ++
    lsb 8 (UInt8.ofNat (v / 256 % 256)).toNat = lsb 16 v := by
  have hlow : (UInt8.ofNat (v % 256)).toNat = v % 2 ^ 8 := by simp
  have hhigh : (UInt8.ofNat (v / 256 % 256)).toNat = v / 2 ^ 8 % 2 ^ 8 := by simp
  rw [hlow, hhigh, lsb_mod, lsb_mod, ← lsb_add]

/-- **A stored block**, which begins at a byte after its header. -/
theorem writes_deflateNonCompressedBlock (input : Bytes) (final : Bool) {instart inend : ℕ}
    (hab : instart ≤ inend) (hend : inend ≤ input.length) (hsmall : inend - instart < 65536) :
    Writes final (input.take instart) (deflateNonCompressedBlock input final instart inend)
      (input.take inend) := by
  intro o s ho
  set t := (input.take inend).drop instart with ht
  have hlen : t.length = inend - instart := by
    rw [ht, List.length_drop, List.length_take_of_le hend]
  have happend : input.take instart ++ t = input.take inend := by
    rw [ht, ← Nat.min_eq_left hab, ← List.take_take, Nat.min_eq_left hab, List.take_append_drop]
  have hheader := ((ho.addBit final).addBit false).addBit false
  have hbits : s ++ [final] ++ [false] ++ [false] = s ++ blockHeader final 0 := by
    rw [blockHeader_eq]
    simp
  rw [hbits] at hheader
  obtain ⟨pad, hpad, hwhole, haligned⟩ := hheader.align
  have hall := (((((haligned.appendData rfl (UInt8.ofNat (t.length % 256))).appendData rfl
    (UInt8.ofNat (t.length / 256 % 256))).appendData rfl
    (UInt8.ofNat ((65535 - t.length % 65536) % 256))).appendData rfl
    (UInt8.ofNat ((65535 - t.length % 65536) / 256 % 256))).appendAll rfl t)
  rw [List.append_assoc _ (lsb 8 _) (lsb 8 _), lsb_two_bytes,
    List.append_assoc _ (lsb 8 _) (lsb 8 _), lsb_two_bytes,
    Nat.mod_eq_of_lt (by omega : t.length < 65536)] at hall
  rw [List.length_append, length_blockHeader] at hwhole
  have hcarries := carries_stored (p := s.length) final (input.take instart) hpad
    (by omega) (show t.length < 65536 by omega)
  rw [happend] at hcarries
  generalize hdone : t.foldl (fun o b ↦ appendData b o) _ = o' at hall
  refine ⟨o', _, ?_, by simpa only [List.append_assoc] using hall, hcarries.streams⟩
  rw [← hlen] at hsmall
  simp only [deflateNonCompressedBlock, ← ht, ← hlen, guard_of hsmall, Nat.mod_eq_of_lt hsmall,
    Option.bind_eq_bind, Option.bind_some]
  exact congrArg some hdone

/-! ### Blocks that follow each other -/

section Loop

variable (block : Bool → ℕ → ℕ → Output → Option Output) (final : Bool)

theorem deflateBlocks_nil (first last : ℕ) (o : Output) :
    deflateBlocks block final first last [] o = block final first last o := by
  simp [deflateBlocks, blockBounds]

theorem blockBounds_cons (first last p : ℕ) (points : List ℕ) (i : ℕ) :
    blockBounds first last (p :: points) (i + 1) = blockBounds p last points i := by
  unfold blockBounds
  obtain _ | i := i <;> simp [@eq_comm ℕ 0]

/-- The block before the first split point, and the other blocks. -/
theorem deflateBlocks_cons (first last p : ℕ) (points : List ℕ) (o : Output) :
    deflateBlocks block final first last (p :: points) o =
      (block false first p o).bind (deflateBlocks block final p last points) := by
  have hfirst : blockBounds first last (p :: points) 0 = (first, p) := rfl
  have hzero : ¬(0 : ℕ) = points.length + 1 := by omega
  rw [deflateBlocks, List.length_cons, List.range_succ_eq_map, List.foldlM_cons]
  simp only [List.foldlM_map, hfirst, blockBounds_cons, Nat.succ_eq_add_one,
    Nat.add_right_cancel_iff, hzero, decide_false, Bool.false_and]
  rfl

/-- **If each block takes its bytes along, so does the loop.** -/
theorem writes_deflateBlocks {f : ℕ → Bytes} {R : ℕ → ℕ → Prop}
    (hblock : ∀ final start stop, R start stop →
      Writes final (f start) (block final start stop) (f stop)) {last : ℕ} :
    ∀ {first : ℕ} {points : List ℕ}, (first :: (points ++ [last])).IsChain R →
      Writes final (f first) (deflateBlocks block final first last points) (f last) := by
  intro first points
  induction points generalizing first with
  | nil =>
    intro h
    rw [funext (deflateBlocks_nil block final first last)]
    exact hblock final first last (List.isChain_cons_cons.1 h).1
  | cons p points ih =>
    intro h
    obtain ⟨hp, hrest⟩ := List.isChain_cons_cons.1 h
    rw [funext (deflateBlocks_cons block final first last p points)]
    exact (hblock false first p hp).seq (ih hrest)

end Loop

/-- Increasing points inside a range cut it into ranges. -/
theorem isChain_of_inside {a b : ℕ} (hab : a < b) {points : List ℕ}
    (hinc : points.Pairwise (· < ·)) (hin : ∀ p ∈ points, a < p ∧ p < b) :
    (a :: (points ++ [b])).IsChain fun s t ↦ a ≤ s ∧ s < t ∧ t ≤ b := by
  refine List.Pairwise.isChain (List.pairwise_cons.2 ⟨fun p hp ↦ ?_, List.pairwise_append.2
    ⟨hinc.imp_of_mem fun hp hp' hlt ↦ ⟨(hin _ hp).1.le, hlt, (hin _ hp').2.le⟩,
      List.pairwise_singleton _ _, fun p hp p' hp' ↦ ?_⟩⟩)
  · obtain hp | hp := List.mem_append.1 hp
    · exact ⟨le_rfl, (hin p hp).1, (hin p hp).2.le⟩
    · obtain rfl := List.mem_singleton.1 hp
      exact ⟨le_rfl, hab, le_rfl⟩
  · obtain rfl := List.mem_singleton.1 hp'
    exact ⟨(hin p hp).1.le, (hin p hp).2, le_rfl⟩

/-! ### Split points -/

theorem slice_append (entries : LZ77Store) {first p last : ℕ} (hp : first ≤ p) (hp' : p ≤ last)
    (hlast : last ≤ entries.length) :
    slice entries first p ++ slice entries p last = slice entries first last := by
  have hsplit : entries.take last = entries.take p ++ (entries.take last).drop p := by
    conv_lhs => rw [← List.take_append_drop p (entries.take last), List.take_take,
      Nat.min_eq_left hp']
  have hle : first ≤ (entries.take p).length := by
    rw [List.length_take]
    omega
  unfold slice
  conv_rhs => rw [hsplit, List.drop_append_of_le_length hle]

/-- The entries of each block that split points make. -/
def blocks (entries : LZ77Store) (first last : ℕ) (points : List ℕ) : List LZ77Store :=
  (List.range (points.length + 1)).map fun i ↦
    slice entries (blockBounds first last points i).1 (blockBounds first last points i).2

theorem blocks_cons (entries : LZ77Store) (first last p : ℕ) (points : List ℕ) :
    blocks entries first last (p :: points) =
      slice entries first p :: blocks entries p last points := by
  rw [blocks, List.length_cons, List.range_succ_eq_map, List.map_cons, List.map_map]
  congr 1
  refine List.map_congr_left fun i _ ↦ ?_
  rw [Function.comp_apply, Nat.succ_eq_add_one, blockBounds_cons]

/-- **The blocks between increasing points make up the entries**, and none is empty. -/
theorem flatten_blocks (entries : LZ77Store) {a b : ℕ} (hb : b ≤ entries.length) :
    ∀ {first : ℕ} {points : List ℕ},
      (first :: (points ++ [b])).IsChain (fun s t ↦ a ≤ s ∧ s < t ∧ t ≤ b) →
      (blocks entries first b points).flatten = slice entries first b ∧
        ∀ block ∈ blocks entries first b points, block ≠ [] := by
  have hne : ∀ {s t}, s < t → t ≤ b → slice entries s t ≠ [] := by
    intro s t hlt hle
    refine List.ne_nil_of_length_pos ?_
    rw [slice, List.length_drop, List.length_take]
    omega
  intro first points
  induction points generalizing first with
  | nil =>
    intro h
    obtain ⟨⟨-, hlt, hle⟩, -⟩ := List.isChain_cons_cons.1 h
    have hblocks : blocks entries first b [] = [slice entries first b] := rfl
    rw [hblocks]
    exact ⟨by simp, by simpa using hne hlt hle⟩
  | cons p points ih =>
    intro h
    obtain ⟨⟨-, hlt, hle⟩, hrest⟩ := List.isChain_cons_cons.1 h
    obtain ⟨hflatten, hall⟩ := ih hrest
    rw [blocks_cons]
    refine ⟨?_, fun block hmem ↦ ?_⟩
    · rw [List.flatten_cons, hflatten, slice_append entries hlt.le hle hb]
    · obtain rfl | hmem := List.mem_cons.1 hmem
      · exact hne hlt hle
      · exact hall block hmem

/-- **The split points of `ZopfliBlockSplitLZ77` divide the data into blocks**, none of them empty
and no more than were asked for, and the search for them ends without a failed assertion. -/
theorem blockSplitLZ77_divides {entries : LZ77Store} (hx : ∀ x ∈ entries, Encodable x)
    (hne : entries ≠ []) (maxblocks : ℕ) :
    ∃ points, blockSplitLZ77 entries maxblocks = some points ∧
      (blocks entries 0 entries.length points).flatten = entries ∧
      (∀ block ∈ blocks entries 0 entries.length points, block ≠ []) ∧
      (0 < maxblocks → (blocks entries 0 entries.length points).length ≤ maxblocks) := by
  obtain ⟨points, hpoints, hcuts, hmax⟩ := blockSplitLZ77_cuts hx maxblocks
  obtain ⟨hflatten, hall⟩ := flatten_blocks entries le_rfl (isChain_of_inside
    (List.length_pos_of_ne_nil hne) hcuts.increasing hcuts.inside)
  refine ⟨points, hpoints, ?_, hall, fun hpos ↦ ?_⟩
  · rw [hflatten, slice, List.take_length, List.drop_zero]
  · rw [blocks, List.length_map, List.length_range]
    omega

/-- 85 literals `a` and then 85 literals `b`, which are worth two headers. -/
def twoRuns : LZ77Store := List.replicate 85 (97, 0) ++ List.replicate 85 (98, 0)

theorem encodable_twoRuns : ∀ x ∈ twoRuns, Encodable x := by
  intro x hx
  obtain hx | hx := List.mem_append.1 hx
  · rw [List.eq_of_mem_replicate hx]
    exact (show 97 < 256 by decide)
  · rw [List.eq_of_mem_replicate hx]
    exact (show 98 < 256 by decide)

theorem blockSplitLZ77_divides_twoRuns : ∃ points,
    blockSplitLZ77 twoRuns 15 = some points ∧
      (blocks twoRuns 0 twoRuns.length points).flatten = twoRuns ∧
      (∀ block ∈ blocks twoRuns 0 twoRuns.length points, block ≠ []) ∧
      (0 < 15 → (blocks twoRuns 0 twoRuns.length points).length ≤ 15) :=
  blockSplitLZ77_divides encodable_twoRuns (List.cons_ne_nil _ _) 15

/-- Where the entry `p` begins. -/
def entryStart (entries : LZ77Store) (instart p : ℕ) : ℕ :=
  instart + ((entries.take p).map entrySize).sum

theorem positions_eq (entries : LZ77Store) : ∀ (i pos : ℕ) {points : List ℕ},
    points.Pairwise (· < ·) → (∀ p ∈ points, i ≤ p ∧ p < i + entries.length) →
    positions entries i pos points = points.map fun p ↦ entryStart entries pos (p - i) := by
  induction entries with
  | nil =>
    intro i pos points _ hin
    obtain _ | ⟨p, points⟩ := points
    · rfl
    · have := hin p List.mem_cons_self
      simp only [List.length_nil] at this
      omega
  | cons x entries ih =>
    intro i pos points hinc hin
    -- an entry further on begins after this one
    have hshift : ∀ p, i + 1 ≤ p → entryStart entries (pos + entrySize x) (p - (i + 1)) =
        entryStart (x :: entries) pos (p - i) := by
      intro p hp
      rw [entryStart, entryStart, show p - i = p - (i + 1) + 1 by omega, List.take_succ_cons,
        List.map_cons, List.sum_cons, Nat.add_assoc]
    obtain _ | ⟨p, points⟩ := points
    · rfl
    obtain ⟨hp, hpoints⟩ := List.pairwise_cons.1 hinc
    have hfirst := hin p List.mem_cons_self
    rw [List.length_cons] at hfirst
    have hlater : ∀ p' ∈ points, i + 1 ≤ p' ∧ p' < i + 1 + entries.length := by
      intro p' hp'
      have := hp p' hp'
      have := hin p' (List.mem_cons_of_mem p hp')
      rw [List.length_cons] at this
      omega
    rw [positions]
    split
    · rename_i heq
      subst heq
      rw [ih _ _ hpoints hlater, List.map_cons, Nat.sub_self, List.map_congr_left fun p' hp' ↦
        hshift p' (hlater p' hp').1]
      simp [entryStart]
    · rw [ih _ _ hinc fun p' hp' ↦ ?_]
      · refine List.map_congr_left fun p' hp' ↦ hshift p' ?_
        obtain rfl | hp' := List.mem_cons.1 hp'
        · omega
        · exact (hlater p' hp').1
      · obtain rfl | hp' := List.mem_cons.1 hp'
        · omega
        · exact hlater p' hp'

theorem entryStart_lt {entries : LZ77Store} (hx : ∀ x ∈ entries, Encodable x) (instart : ℕ)
    {p p' : ℕ} (hlt : p < p') (hle : p' ≤ entries.length) :
    entryStart entries instart p < entryStart entries instart p' := by
  have hsplit : entries.take p' = entries.take p ++ (entries.take p').drop p := by
    conv_lhs => rw [← List.take_append_drop p (entries.take p'), List.take_take,
      Nat.min_eq_left hlt.le]
  have hne : (entries.take p').drop p ≠ [] := by
    refine List.ne_nil_of_length_pos ?_
    rw [List.length_drop, List.length_take]
    omega
  have hpos : 0 < (((entries.take p').drop p).map entrySize).sum := by
    obtain ⟨x, hmem⟩ := List.exists_mem_of_ne_nil _ hne
    have hsize := entrySize_pos (hx x (List.mem_of_mem_take (List.mem_of_mem_drop hmem)))
    exact hsize.trans_le (List.single_le_sum (by simp) _ (List.mem_map_of_mem hmem))
  unfold entryStart
  rw [hsplit, List.map_append, List.sum_append]
  omega

theorem isChain_blockSplitSimple (inend : ℕ) {blocksize : ℕ} (hb : 0 < blocksize) {i first : ℕ}
    (hfirst : first ≤ i) (hclose : i ≤ first + blocksize) (hend : first ≤ inend) :
    (first :: (blockSplitSimple inend blocksize i ++ [inend])).IsChain fun s t ↦
      s ≤ t ∧ t ≤ s + blocksize ∧ t ≤ inend := by
  induction h : inend - i using Nat.strong_induction_on generalizing i first with
  | _ n ih =>
    rw [blockSplitSimple]
    split
    · rename_i hgo
      refine List.isChain_cons_cons.2 ⟨⟨hfirst, hclose, hgo.1.le⟩, ?_⟩
      exact ih _ (by omega) (Nat.le_add_right _ _) le_rfl hgo.1.le rfl
    · exact List.isChain_pair.2 ⟨hend, by omega, le_rfl⟩

/-! ### The strategies -/

/-- **What the strategies return stands for its part of the input.** -/
structure Squeeze.Sound (q : Squeeze) (input : Bytes) : Prop where
  greedy : ∀ {instart inend : ℕ}, instart < inend → inend ≤ input.length →
    ∃ store, q.greedy instart inend = some store ∧ Parses input instart inend store
  optimal : ∀ {instart inend : ℕ}, instart < inend → inend ≤ input.length →
    ∃ store, q.optimal instart inend = some store ∧ Parses input instart inend store
  optimalFixed : ∀ (afterOptimal : Bool) {instart inend : ℕ}, instart < inend →
    inend ≤ input.length → ∃ store, q.optimalFixed afterOptimal instart inend = some store ∧
      Parses input instart inend store

/-- The types of blocks the compressor can be asked for. -/
def Supported (opts : Options) (btype : ℕ) : Prop :=
  btype = 1 ∨ btype = 2 ∨ btype = 0 ∧ opts.blocksplitting = true ∧ opts.blocksplittinglast = false

/-- A block of either code, checked for its size. -/
theorem Parses.writes {input : Bytes} {btype : ℕ} (hb : btype = 1 ∨ btype = 2) (final : Bool)
    {instart inend : ℕ}
    (hab : instart < inend) (hend : inend ≤ input.length) {store : LZ77Store}
    (h : Parses input instart inend store) :
    Writes final (input.take instart) (addLZ77Block btype final store (inend - instart))
      (input.take inend) :=
  writes_addLZ77Block hb final h.encodable (.inr (h.sum_entrySize hab.le hend)) h.replays

section Sound

variable {opts : Options} {q : Squeeze} {input : Bytes} (hq : q.Sound input)

include hq

theorem writes_deflateDynamicBlock (final : Bool) {instart inend : ℕ} (hab : instart < inend)
    (hend : inend ≤ input.length) :
    Writes final (input.take instart) (deflateDynamicBlock q final instart inend)
      (input.take inend) := by
  obtain ⟨store, hstore, hparses⟩ := hq.optimal hab hend
  obtain ⟨fixedstore, hfixed, hparses'⟩ := hq.optimalFixed true hab hend
  obtain ⟨dyncost, hdyn⟩ := exists_calculateBlockSize (.inr rfl) hparses.encodable
  obtain ⟨fixedcost, hfix⟩ := exists_calculateBlockSize (.inl rfl) hparses'.encodable
  intro o s ho
  simp only [deflateDynamicBlock, hstore, hfixed, hdyn, hfix, Option.bind_eq_bind,
    Option.bind_some]
  split
  · split
    · exact hparses'.writes (.inl rfl) final hab hend o s ho
    · exact hparses.writes (.inr rfl) final hab hend o s ho
  · exact hparses.writes (.inr rfl) final hab hend o s ho

theorem writes_deflateFixedBlock (final : Bool) {instart inend : ℕ} (hab : instart < inend)
    (hend : inend ≤ input.length) :
    Writes final (input.take instart) (deflateFixedBlock q final instart inend)
      (input.take inend) := by
  obtain ⟨store, hstore, hparses⟩ := hq.optimalFixed false hab hend
  intro o s ho
  simp only [deflateFixedBlock, hstore, Option.bind_eq_bind, Option.bind_some]
  exact hparses.writes (.inl rfl) final hab hend o s ho

theorem writes_deflateBlock {btype : ℕ} (hb : btype = 1 ∨ btype = 2) (final : Bool)
    {instart inend : ℕ} (hab : instart < inend) (hend : inend ≤ input.length) :
    Writes final (input.take instart) (deflateBlock q input btype final instart inend)
      (input.take inend) := by
  obtain rfl | rfl := hb
  · exact writes_deflateFixedBlock hq final hab hend
  · exact writes_deflateDynamicBlock hq final hab hend

/-- **The split points of `ZopfliBlockSplit` cut the part of the input**, and its assertion holds.
-/
theorem exists_blockSplit {instart inend : ℕ} (hab : instart < inend) (hend : inend ≤ input.length)
    (maxblocks : ℕ) : ∃ points, blockSplit q instart inend maxblocks = some points ∧
      (instart :: (points ++ [inend])).IsChain fun s t ↦ instart ≤ s ∧ s < t ∧ t ≤ inend := by
  obtain ⟨store, hstore, hparses⟩ := hq.greedy hab hend
  obtain ⟨lzpoints, hlz, hcuts, -⟩ := blockSplitLZ77_cuts hparses.encodable maxblocks
  have hpositions := positions_eq store 0 instart hcuts.increasing fun p hp ↦
    ⟨Nat.zero_le p, by rw [Nat.zero_add]; exact (hcuts.inside p hp).2⟩
  simp only [Nat.sub_zero] at hpositions
  have hlength : (positions store 0 instart lzpoints).length = lzpoints.length := by
    rw [hpositions, List.length_map]
  have hfirst : entryStart store instart 0 = instart := by simp [entryStart]
  have hlast : entryStart store instart store.length = inend := by
    rw [entryStart, List.take_length, hparses.sum_entrySize hab.le hend]
    omega
  refine ⟨positions store 0 instart lzpoints, ?_, ?_⟩
  · simp only [blockSplit, hstore, hlz, guard_of hlength, Option.bind_eq_bind, Option.bind_some]
  · rw [hpositions]
    refine isChain_of_inside hab (List.pairwise_map.2 (hcuts.increasing.imp_of_mem fun _ hp' hlt ↦
      entryStart_lt hparses.encodable instart hlt (hcuts.inside _ hp').2.le)) fun pos hpos ↦ ?_
    obtain ⟨p, hp, rfl⟩ := List.mem_map.1 hpos
    obtain ⟨hpos, hlt⟩ := hcuts.inside p hp
    refine ⟨?_, ?_⟩
    · conv_lhs => rw [← hfirst]
      exact entryStart_lt hparses.encodable instart hpos hlt.le
    · conv_rhs => rw [← hlast]
      exact entryStart_lt hparses.encodable instart hlt le_rfl

theorem writes_deflateSplittingFirst {btype : ℕ} (hb : btype = 0 ∨ btype = 1 ∨ btype = 2)
    (final : Bool) {instart inend : ℕ} (hab : instart < inend) (hend : inend ≤ input.length) :
    Writes final (input.take instart) (deflateSplittingFirst opts q input btype final instart inend)
      (input.take inend) := by
  obtain rfl | rfl | rfl := hb
  · exact writes_deflateBlocks (deflateBlock q input 0) final
      (fun final start stop h ↦ writes_deflateNonCompressedBlock input final h.1
        (h.2.2.trans hend) (by omega))
      (isChain_blockSplitSimple inend (by norm_num : 0 < 65535) le_rfl (Nat.le_add_right _ _)
        hab.le)
  · exact writes_deflateBlocks (deflateBlock q input 1) final
      (fun final start stop h ↦ writes_deflateBlock hq (.inl rfl) final h.2.1 (h.2.2.trans hend))
      (isChain_of_inside hab List.Pairwise.nil (by simp))
  · obtain ⟨points, hpoints, hchain⟩ := exists_blockSplit hq hab hend opts.blocksplittingmax
    have hwrites := writes_deflateBlocks (deflateBlock q input 2) final
      (fun final start stop h ↦ writes_deflateBlock hq (.inr rfl) final h.2.1 (h.2.2.trans hend))
      hchain
    intro o s ho
    simp only [deflateSplittingFirst, hpoints, if_neg (show ¬(2 : ℕ) = 0 by norm_num),
      if_neg (show ¬(2 : ℕ) = 1 by norm_num), Option.bind_eq_bind, Option.bind_some]
    exact hwrites o s ho

theorem writes_deflateSplittingLast {btype : ℕ} (hb : btype = 1 ∨ btype = 2) (final : Bool)
    {instart inend : ℕ} (hab : instart < inend) (hend : inend ≤ input.length) :
    Writes final (input.take instart) (deflateSplittingLast opts q input btype final instart inend)
      (input.take inend) := by
  obtain ⟨store, hstore, hparses⟩ : ∃ store, (if btype = 2 then q.optimal instart inend
      else q.optimalFixed false instart inend) = some store ∧ Parses input instart inend store := by
    split
    · exact hq.optimal hab hend
    · exact hq.optimalFixed false hab hend
  have hlength : 0 < store.length := by
    refine List.length_pos_of_ne_nil fun hnil ↦ ?_
    have := hparses.sum_entrySize hab.le hend
    simp only [hnil, List.map_nil, List.sum_nil] at this
    omega
  obtain ⟨points, hpoints, hchain⟩ : ∃ points, (if btype = 1 then some [] else
      blockSplitLZ77 store opts.blocksplittingmax) = some points ∧
      (0 :: (points ++ [store.length])).IsChain fun s t ↦ 0 ≤ s ∧ s < t ∧ t ≤ store.length := by
    split
    · exact ⟨[], rfl, isChain_of_inside hlength List.Pairwise.nil (by simp)⟩
    · obtain ⟨points, hlz, hcuts, -⟩ :=
        blockSplitLZ77_cuts hparses.encodable opts.blocksplittingmax
      exact ⟨points, hlz, isChain_of_inside hlength hcuts.increasing hcuts.inside⟩
  -- the bytes before the entry `p`
  have hmid : ∀ p, ∃ mid, replay (input.take instart) ((store.take p).map toItem) = some mid := by
    intro p
    have := hparses.replays
    rw [← List.take_append_drop p store, List.map_append, replay_append] at this
    obtain ⟨mid, hmid, -⟩ := Option.bind_eq_some_iff.1 this
    exact ⟨mid, hmid⟩
  choose mid hmid using hmid
  have hslice : ∀ {start stop}, start < stop →
      replay (mid start) ((slice store start stop).map toItem) = some (mid stop) := by
    intro start stop hlt
    have := hmid stop
    rw [← List.take_append_drop start (store.take stop), List.take_take, Nat.min_eq_left hlt.le,
      List.map_append, replay_append, hmid start, Option.bind_some] at this
    exact this
  have hfirst : mid 0 = input.take instart := (Option.some_injective _ (hmid 0)).symm
  have hlast : mid store.length = input.take inend := by
    have := hmid store.length
    rw [List.take_length, hparses.replays] at this
    exact (Option.some_injective _ this).symm
  have hwrites := writes_deflateBlocks
    (fun final start stop ↦ addLZ77Block btype final (slice store start stop) 0) final
    (fun final start stop h ↦ writes_addLZ77Block hb final
      (encodable_slice hparses.encodable start stop) (.inl rfl) (hslice h.2.1)) hchain
  rw [hfirst, hlast] at hwrites
  intro o s ho
  have hrun : deflateSplittingLast opts q input btype final instart inend o =
      deflateBlocks (fun final start stop ↦ addLZ77Block btype final (slice store start stop) 0)
        final 0 store.length points o := by
    obtain rfl | rfl := hb
    · rw [if_neg (show ¬(1 : ℕ) = 2 by norm_num)] at hstore
      obtain rfl := Option.some_injective _ hpoints
      simp [deflateSplittingLast, hstore]
    · rw [if_pos rfl] at hstore
      rw [if_neg (show ¬(2 : ℕ) = 1 by norm_num)] at hpoints
      simp [deflateSplittingLast, hstore, hpoints]
  rw [hrun]
  exact hwrites o s ho

/-- **A part is written as its bytes.** -/
theorem writes_deflatePart {btype : ℕ} (hb : Supported opts btype) (final : Bool)
    {instart inend : ℕ} (hab : instart < inend) (hend : inend ≤ input.length) :
    Writes final (input.take instart) (deflatePart opts q input btype final instart inend)
      (input.take inend) := by
  unfold deflatePart
  split
  · split
    · rename_i hlast
      refine writes_deflateSplittingLast hq ?_ final hab hend
      obtain h | h | ⟨-, -, hnot⟩ := hb
      · exact .inl h
      · exact .inr h
      · rw [hlast] at hnot
        cases hnot
    · refine writes_deflateSplittingFirst hq ?_ final hab hend
      obtain h | h | ⟨h, -, -⟩ := hb <;> simp [h]
  · rename_i hsplit
    refine writes_deflateBlock hq ?_ final hab hend
    obtain h | h | ⟨-, h, -⟩ := hb
    · exact .inl h
    · exact .inr h
    · exact absurd h hsplit

omit hq in
/-- The loop ends at the end of the input. -/
theorem deflateFrom_length (opts : Options) (q : Squeeze) (btype : ℕ) (final : Bool) :
    deflateFrom opts q input btype final input.length = some := by
  funext o
  rw [deflateFrom, dif_neg (lt_irrefl _)]

/-- The master blocks, one after the other. -/
theorem writes_deflateFrom {btype : ℕ} (hb : Supported opts btype) (final : Bool) {i : ℕ}
    (hi : i < input.length) : Writes final (input.take i)
      (deflateFrom opts q input btype final i) input := by
  induction h : input.length - i using Nat.strong_induction_on generalizing i with
  | _ n ih =>
    subst h
    have hmaster : 0 < masterBlockSize := by decide
    intro o s ho
    rw [deflateFrom, dif_pos hi]
    obtain hall | hmore := le_or_gt input.length (i + masterBlockSize)
    · have hend : i + (input.length - i) = input.length := by omega
      have hpart := writes_deflatePart hq hb final hi le_rfl o s ho
      rw [List.take_length] at hpart
      simp only [ge_iff_le, decide_eq_true hall, if_true, Bool.and_true, hend, deflateFrom_length,
        Option.bind_eq_bind, Option.bind_fun_some]
      exact hpart
    · have hpart := writes_deflatePart hq hb false (show i < i + masterBlockSize by omega) hmore.le
      have hrest := ih _ (by omega) hmore rfl
      simp only [ge_iff_le, decide_eq_false hmore.not_ge, Bool.false_eq_true, if_false,
        Bool.and_false, Option.bind_eq_bind]
      exact hpart.seq hrest o s ho

/-- **What `ZopfliDeflate` appends is a stream of the input**, and no assertion fails, whatever the
input is cut into. -/
theorem exists_zopfliDeflate {btype : ℕ} (hb : Supported opts btype) (hne : input ≠ [])
    (before : Bytes) : ∃ o t, zopfliDeflate opts q input btype true ⟨0, before⟩ = some o ∧
      o.out = before ++ t ∧ Deflated t input := by
  obtain ⟨o, e, hrun, ⟨pad, hpad, hout, -⟩, hstreams⟩ :=
    writes_deflateFrom hq hb true (List.length_pos_of_ne_nil hne) ⟨0, before⟩ (ofBytes before)
      (Output.holds_bytes before)
  rw [List.append_assoc] at hout
  obtain ⟨t, ht, hbits⟩ := exists_of_ofBytes_eq hout
  have hp : (ofBytes before).length % 8 = 0 := by
    rw [length_ofBytes]
    omega
  exact ⟨o, t, hrun, ht, deflated_of_streams hstreams hp hpad hbits⟩

end Sound

end Zopfli

end Camlispp
