import Camlispp.Zopfli.Block

/-!
# Splitting LZ77 data into blocks

`ZopfliBlockSplitLZ77` looks for the entries at which a new block is worth its header: it splits the
largest block that may still be worth it, where the estimated sizes of the two halves are least,
until none is left. The sizes are whole numbers of bits, so the `double` they are kept in is exact,
and `ZOPFLI_LARGE_FLOAT` is `none`.

What the rest of the compressor needs of the split points is that they cut the data into pieces:
**they increase strictly and lie inside it** (`blockSplitLZ77_cuts`). That takes every part of the
search: a minimum that is looked for in a range is found there (`findMinimum_mem`), and a block that
is found lies between two neighbouring points (`Between`), so that a new point is none of the old
ones.

## What each result rests on

* `exists_estimateCost`: an estimate is a number for every range, since the codes of a block can be
  made for any entries of the format. So the search meets no failed assertion.
* `splitLoop_spec` is by induction on what is left to do: a round either puts one more point in or
  marks one more start as done, and there are only so many of either.
* `Cuts` and `Between` are what a round keeps. They say nothing about the sizes: which points are
  chosen is a matter of compression, that they cut is one of correctness.

Below ten entries nothing is searched. `blockSplitLZ77_divides` is about all of them alike.
-/

namespace Camlispp

namespace Zopfli

open PrefixCode

/-! ### The size of a block -/

/-- `CalculateTreeSize`. -/
def calculateTreeSize (ll_lengths d_lengths : List ℕ) : Option ℕ := do
  let o ← addDynamicTree ll_lengths d_lengths ⟨0, []⟩
  some (o.out.length * 8 + (o.bp &&& 7).toNat)

/-- `CalculateBlockSymbolSize`. -/
def calculateBlockSymbolSize (ll_lengths d_lengths : List ℕ) (entries : LZ77Store) : ℕ :=
  (entries.map fun x ↦
    if x.2 = 0 then ll_lengths.getD x.1 0
    else ll_lengths.getD (getLengthSymbol x.1) 0 + d_lengths.getD (getDistSymbol x.2) 0 +
      getLengthExtraBits x.1 + getDistExtraBits x.2).sum + ll_lengths.getD 256 0

/-- `ZopfliCalculateBlockSize`. -/
def calculateBlockSize (entries : LZ77Store) (btype : ℕ) : Option ℕ := do
  guard (btype = 1 ∨ btype = 2)
  if btype = 1 then
    some (3 + calculateBlockSymbolSize getFixedTree.1 getFixedTree.2 entries)
  else
    let counts := lz77Counts entries
    let ll_lengths ← calculateBitLengths counts.1 15
    let d_lengths ← calculateBitLengths counts.2 15
    let d_lengths := patchDistanceCodesForBuggyDecoders d_lengths
    let treeSize ← calculateTreeSize ll_lengths d_lengths
    some (3 + treeSize + calculateBlockSymbolSize ll_lengths d_lengths entries)

/-- `litlens` and `dists` from `start` to `end`. -/
def slice (entries : LZ77Store) (start stop : ℕ) : LZ77Store :=
  (entries.take stop).drop start

/-- `EstimateCost`. -/
def estimateCost (entries : LZ77Store) (lstart lend : ℕ) : Option ℕ :=
  calculateBlockSize (slice entries lstart lend) 2

/-- `SplitCost`. -/
def splitCost (entries : LZ77Store) (start stop i : ℕ) : Option ℕ := do
  let left ← estimateCost entries start i
  let right ← estimateCost entries i stop
  some (left + right)

/-! ### Finding a minimum -/

/-- Whether a value is less than the best one so far. -/
def lessThan (v : ℕ) (best : Option ℕ) : Bool := best.all fun b ↦ v < b

/-- The scan of `FindMinimum`, and of its sample points: the first least value at the given
points. -/
def scanMinimum (f : ℕ → Option ℕ) (points : List ℕ) (result : ℕ) : Option (Option ℕ × ℕ) :=
  points.foldlM (fun (best, result) i ↦ do
    let v ← f i
    some (if lessThan v best then (some v, i) else (best, result))) (none, result)

/-- The loop of `FindMinimum` over nine sample points. -/
def narrow (f : ℕ → Option ℕ) : ℕ → Option ℕ → ℕ → ℕ → ℕ → Option ℕ
  | 0, _, _, _, _ => none
  | fuel + 1, lastbest, start, stop, pos =>
    if stop - start ≤ 9 then some pos
    else do
      let p := fun i ↦ start + (i + 1) * ((stop - start) / 10)
      let (best, besti) ← scanMinimum (fun i ↦ f (p i)) (List.range 9) 0
      if best.any fun b ↦ lastbest.any fun l ↦ b > l then some pos
      else
        narrow f fuel best (if besti = 0 then start else p (besti - 1))
          (if besti = 8 then stop else p (besti + 1)) (p besti)

/-- `FindMinimum`. -/
def findMinimum (f : ℕ → Option ℕ) (start stop : ℕ) : Option ℕ :=
  if stop - start < 1024 then
    (scanMinimum f ((List.range (stop - start)).map (start + ·)) start).map Prod.snd
  else narrow f (stop - start + 1) none start stop start

/-! ### Splitting -/

/-- `AddSorted`. -/
def addSorted (value : ℕ) (out : List ℕ) : List ℕ :=
  out.takeWhile (· ≤ value) ++ value :: out.dropWhile (· ≤ value)

/-- The bounds of the block `i` that the split points make. -/
def blockBounds (first last : ℕ) (splitpoints : List ℕ) (i : ℕ) : ℕ × ℕ :=
  (if i = 0 then first else splitpoints.getD (i - 1) 0,
    if i = splitpoints.length then last else splitpoints.getD i 0)

/-- `FindLargestSplittableBlock`. -/
def findLargestSplittableBlock (llsize : ℕ) (done : List Bool) (splitpoints : List ℕ) :
    Option (ℕ × ℕ) :=
  ((List.range (splitpoints.length + 1)).foldl (fun (longest, found) i ↦
    let (start, stop) := blockBounds 0 (llsize - 1) splitpoints i
    if !done.getD start false && stop - start > longest then (stop - start, some (start, stop))
    else (longest, found)) (0, none)).2

/-- The loop of `ZopfliBlockSplitLZ77`. -/
def splitLoop (entries : LZ77Store) (maxblocks : ℕ) :
    ℕ → ℕ → ℕ → ℕ → List Bool → List ℕ → Option (List ℕ)
  | 0, _, _, _, _, _ => none
  | fuel + 1, numblocks, lstart, lend, done, splitpoints =>
    if maxblocks > 0 ∧ numblocks ≥ maxblocks then some splitpoints
    else do
      guard (lstart < lend)
      let llpos ← findMinimum (splitCost entries lstart lend) (lstart + 1) lend
      guard (llpos > lstart)
      guard (llpos < lend)
      let splitcost ← splitCost entries lstart lend llpos
      let origcost ← estimateCost entries lstart lend
      let (done, splitpoints, numblocks) :=
        if splitcost > origcost ∨ llpos = lstart + 1 ∨ llpos = lend then
          (done.set lstart true, splitpoints, numblocks)
        else (done, addSorted llpos splitpoints, numblocks + 1)
      match findLargestSplittableBlock entries.length done splitpoints with
      | none => some splitpoints
      | some (lstart, lend) =>
        if lend - lstart < 10 then some splitpoints
        else splitLoop entries maxblocks fuel numblocks lstart lend done splitpoints

/-- `ZopfliBlockSplitLZ77`. -/
def blockSplitLZ77 (entries : LZ77Store) (maxblocks : ℕ) : Option (List ℕ) :=
  let llsize := entries.length
  if llsize < 10 then some []
  else splitLoop entries maxblocks (2 * llsize + 1) 1 0 llsize (List.replicate llsize false) []

/-! ### Sizes exist -/

theorem exists_calculateBlockSize {btype : ℕ} (hb : btype = 1 ∨ btype = 2) {entries : LZ77Store}
    (hx : ∀ x ∈ entries, Encodable x) : ∃ n, calculateBlockSize entries btype = some n := by
  rw [calculateBlockSize, guard_of hb]
  obtain rfl | rfl := hb
  · exact ⟨_, rfl⟩
  · obtain ⟨ll, d, hll, hd, hdescribable, -, -⟩ := exists_codes hx
    obtain ⟨_, _, c, -, -, hwrite⟩ := addDynamicTree_spec hdescribable
    obtain ⟨o, ho, -⟩ := hwrite (Output.holds_bytes [])
    simp only [if_neg (show ¬(2 : ℕ) = 1 by norm_num), hll, hd, calculateTreeSize, ho,
      Option.bind_eq_bind, Option.bind_some]
    exact ⟨_, rfl⟩

section Costs

variable {entries : LZ77Store} (hx : ∀ x ∈ entries, Encodable x)

include hx

theorem encodable_slice (start stop : ℕ) : ∀ x ∈ slice entries start stop, Encodable x :=
  fun x hmem ↦ hx x (List.mem_of_mem_take (List.mem_of_mem_drop hmem))

theorem exists_estimateCost (lstart lend : ℕ) : ∃ n, estimateCost entries lstart lend = some n :=
  exists_calculateBlockSize (.inr rfl) (encodable_slice hx lstart lend)

theorem exists_splitCost (start stop i : ℕ) : ∃ n, splitCost entries start stop i = some n := by
  obtain ⟨left, hleft⟩ := exists_estimateCost hx start i
  obtain ⟨right, hright⟩ := exists_estimateCost hx i stop
  exact ⟨left + right, by rw [splitCost, hleft, hright]; rfl⟩

end Costs

/-! ### A minimum is found in its range -/

section Minimum

variable {f : ℕ → Option ℕ} (hf : ∀ i, ∃ v, f i = some v)

include hf

/-- A scan ends at one of its points. -/
theorem scanMinimum_mem (points : List ℕ) (result : ℕ) :
    ∃ best i, scanMinimum f points result = some (best, i) ∧ (i = result ∨ i ∈ points) := by
  unfold scanMinimum
  generalize (none : Option ℕ) = best
  induction points generalizing best result with
  | nil => exact ⟨best, result, rfl, .inl rfl⟩
  | cons p points ih =>
    obtain ⟨v, hv⟩ := hf p
    simp only [List.foldlM_cons, hv, Option.bind_eq_bind, Option.bind_some]
    split
    · obtain ⟨best', i, hi, hmem⟩ := ih p (some v)
      exact ⟨best', i, hi, .inr (List.mem_cons.2 hmem)⟩
    · obtain ⟨best', i, hi, hmem⟩ := ih result best
      exact ⟨best', i, hi, hmem.imp_right (List.mem_cons_of_mem p)⟩

/-- **Each round narrows the range**, so the loop over sample points ends, and inside. -/
theorem narrow_mem {lo hi : ℕ} : ∀ (fuel : ℕ) (lastbest : Option ℕ) (start stop pos : ℕ),
    stop - start < fuel → lo ≤ start → stop ≤ hi → lo ≤ pos → pos < hi →
    ∃ r, narrow f fuel lastbest start stop pos = some r ∧ lo ≤ r ∧ r < hi := by
  intro fuel
  induction fuel with
  | zero => exact fun _ _ _ _ h ↦ absurd h (Nat.not_lt_zero _)
  | succ fuel ih =>
    intro lastbest start stop pos hfuel hstart hstop hpos hpos'
    rw [narrow]
    split
    · exact ⟨pos, rfl, hpos, hpos'⟩
    · rename_i hlong
      obtain ⟨best, besti, hscan, hmem⟩ := scanMinimum_mem
        (f := fun i ↦ f (start + (i + 1) * ((stop - start) / 10))) (fun i ↦ hf _) (List.range 9) 0
      have hnine : besti < 9 := by
        obtain rfl | hmem := hmem
        · norm_num
        · exact List.mem_range.1 hmem
      simp only [hscan, Option.bind_eq_bind, Option.bind_some]
      split
      · exact ⟨pos, rfl, hpos, hpos'⟩
      · set q := (stop - start) / 10 with hq
        have hpoint : ∀ i, i < 9 → start + (i + 1) * q < stop := by
          intro i hi
          have : (i + 1) * q ≤ 9 * q := Nat.mul_le_mul_right q hi
          omega
        have hbelow : start ≤ (if besti = 0 then start else start + (besti - 1 + 1) * q) := by
          split <;> omega
        have habove : (if besti = 8 then stop else start + (besti + 1 + 1) * q) ≤ stop := by
          split
          · exact le_rfl
          · exact (hpoint (besti + 1) (by omega)).le
        have hnarrow : (if besti = 8 then stop else start + (besti + 1 + 1) * q) -
            (if besti = 0 then start else start + (besti - 1 + 1) * q) < stop - start := by
          have hlast := hpoint 8 (by norm_num)
          interval_cases besti <;> simp <;> omega
        exact ih _ _ _ _ (by omega) (hstart.trans hbelow) (habove.trans hstop) (by omega)
          ((hpoint besti hnine).trans_le hstop)

/-- **`FindMinimum` stays in its range.** -/
theorem findMinimum_mem {start stop : ℕ} (h : start < stop) :
    ∃ r, findMinimum f start stop = some r ∧ start ≤ r ∧ r < stop := by
  rw [findMinimum]
  split
  · obtain ⟨best, i, hscan, hmem⟩ :=
      scanMinimum_mem hf ((List.range (stop - start)).map (start + ·)) start
    refine ⟨i, by rw [hscan]; rfl, ?_⟩
    obtain rfl | hmem := hmem
    · exact ⟨le_rfl, h⟩
    · obtain ⟨k, hk, rfl⟩ := List.mem_map.1 hmem
      have := List.mem_range.1 hk
      omega
  · exact narrow_mem hf _ _ _ _ _ (Nat.lt_succ_self _) le_rfl le_rfl le_rfl h

end Minimum

/-! ### Split points -/

/-- Points that cut `llsize` entries into pieces. -/
structure Cuts (llsize : ℕ) (splitpoints : List ℕ) : Prop where
  increasing : splitpoints.Pairwise (· < ·)
  inside : ∀ p ∈ splitpoints, 0 < p ∧ p < llsize

/-- No point lies between `lstart` and `lend`. -/
structure Between (llsize : ℕ) (splitpoints : List ℕ) (lstart lend : ℕ) : Prop where
  lend_le : lend ≤ llsize
  apart : ∀ p ∈ splitpoints, p ≤ lstart ∨ lend ≤ p

theorem cuts_nil (llsize : ℕ) : Cuts llsize [] := ⟨.nil, by simp⟩

theorem addSorted_cons (value x : ℕ) (out : List ℕ) : addSorted value (x :: out) =
    if x ≤ value then x :: addSorted value out else value :: x :: out := by
  unfold addSorted
  split <;> rename_i h <;> simp [h]

@[simp] theorem mem_addSorted {value x : ℕ} {out : List ℕ} :
    x ∈ addSorted value out ↔ x = value ∨ x ∈ out := by
  rw [addSorted, List.mem_append, List.mem_cons, or_left_comm, ← List.mem_append,
    List.takeWhile_append_dropWhile]

@[simp] theorem length_addSorted (value : ℕ) (out : List ℕ) :
    (addSorted value out).length = out.length + 1 := by
  rw [addSorted, List.length_append, List.length_cons, ← Nat.add_assoc, ← List.length_append,
    List.takeWhile_append_dropWhile]

/-- A new value goes to its place. -/
theorem pairwise_addSorted {value : ℕ} {out : List ℕ} (h : out.Pairwise (· < ·))
    (hnew : value ∉ out) : (addSorted value out).Pairwise (· < ·) := by
  induction out with
  | nil => exact List.pairwise_singleton _ _
  | cons x out ih =>
    obtain ⟨hx, hout⟩ := List.pairwise_cons.1 h
    have hne := List.ne_of_not_mem_cons hnew
    rw [addSorted_cons]
    split
    · refine List.pairwise_cons.2 ⟨fun y hy ↦ ?_, ih hout (List.not_mem_of_not_mem_cons hnew)⟩
      obtain rfl | hy := mem_addSorted.1 hy
      · omega
      · exact hx y hy
    · refine List.pairwise_cons.2 ⟨fun y hy ↦ ?_, h⟩
      obtain rfl | hy := List.mem_cons.1 hy
      · omega
      · have := hx y hy
        omega

/-- **A point between two neighbours is a new one.** -/
theorem Cuts.addSorted {llsize : ℕ} {splitpoints : List ℕ} (h : Cuts llsize splitpoints)
    {lstart lend llpos : ℕ} (hb : Between llsize splitpoints lstart lend) (hlo : lstart < llpos)
    (hhi : llpos < lend) : Cuts llsize (addSorted llpos splitpoints) := by
  have hnew : llpos ∉ splitpoints := by
    intro hmem
    have := hb.apart llpos hmem
    omega
  refine ⟨pairwise_addSorted h.increasing hnew, fun p hp ↦ ?_⟩
  obtain rfl | hp := mem_addSorted.1 hp
  · have := hb.lend_le
    omega
  · exact h.inside p hp

/-- There are fewer points than entries. -/
theorem Cuts.length_le {llsize : ℕ} {splitpoints : List ℕ} (h : Cuts llsize splitpoints) :
    splitpoints.length ≤ llsize := by
  have hsub : splitpoints ⊆ List.range llsize := fun p hp ↦ List.mem_range.2 (h.inside p hp).2
  have hperm := List.subperm_of_subset (h.increasing.imp fun hlt ↦ hlt.ne) hsub
  simpa using hperm.length_le

/-- What `FindLargestSplittableBlock` finds is one of the blocks, and not done. -/
theorem findLargestSplittableBlock_eq {llsize : ℕ} {done : List Bool} {splitpoints : List ℕ}
    {b : ℕ × ℕ} (h : findLargestSplittableBlock llsize done splitpoints = some b) :
    ∃ i ≤ splitpoints.length, b = blockBounds 0 (llsize - 1) splitpoints i ∧
      done.getD b.1 false = false := by
  revert h b
  unfold findLargestSplittableBlock
  refine List.foldlRecOn (motive := fun acc : ℕ × Option (ℕ × ℕ) ↦ ∀ {b}, acc.2 = some b →
    ∃ i ≤ splitpoints.length, b = blockBounds 0 (llsize - 1) splitpoints i ∧
      done.getD b.1 false = false) _ _ (by simp) fun acc hacc i hi b h ↦ ?_
  obtain ⟨longest, found⟩ := acc
  dsimp only at h
  split at h
  · rename_i htake
    rw [Bool.and_eq_true, Bool.not_eq_true'] at htake
    obtain rfl := Option.some_injective _ h
    exact ⟨i, Nat.lt_succ_iff.1 (List.mem_range.1 hi), rfl, htake.1⟩
  · exact hacc h

/-- **The blocks that increasing points make have no point inside.** -/
theorem Cuts.between {llsize : ℕ} {splitpoints : List ℕ} (h : Cuts llsize splitpoints) {i : ℕ}
    (hi : i ≤ splitpoints.length) :
    Between llsize splitpoints (blockBounds 0 (llsize - 1) splitpoints i).1
      (blockBounds 0 (llsize - 1) splitpoints i).2 := by
  have hget : ∀ j, j < splitpoints.length → splitpoints.getD j 0 ∈ splitpoints := by
    intro j hj
    rw [List.getD_eq_getElem _ 0 hj]
    exact List.getElem_mem hj
  have hmono : ∀ j k, j < k → k < splitpoints.length →
      splitpoints.getD j 0 < splitpoints.getD k 0 := by
    intro j k hjk hk
    rw [List.getD_eq_getElem _ 0 hk, List.getD_eq_getElem _ 0 (hjk.trans hk)]
    exact List.pairwise_iff_getElem.1 h.increasing j k _ hk hjk
  refine ⟨?_, fun p hp ↦ ?_⟩
  · show (if i = splitpoints.length then llsize - 1 else splitpoints.getD i 0) ≤ llsize
    split
    · exact Nat.sub_le _ _
    · exact (h.inside _ (hget i (by omega))).2.le
  · obtain ⟨j, hj, rfl⟩ := List.getElem_of_mem hp
    rw [← List.getD_eq_getElem _ 0 hj]
    show _ ≤ (if i = 0 then 0 else splitpoints.getD (i - 1) 0) ∨
      (if i = splitpoints.length then llsize - 1 else splitpoints.getD i 0) ≤ _
    obtain hlt | hge := lt_or_ge j i
    · rw [if_neg (show i ≠ 0 by omega)]
      obtain rfl | hlt := (Nat.le_sub_one_of_lt hlt).eq_or_lt
      · exact .inl le_rfl
      · exact .inl (hmono j (i - 1) hlt (by omega)).le
    · rw [if_neg (show i ≠ splitpoints.length by omega)]
      obtain rfl | hlt := hge.eq_or_lt
      · exact .inr le_rfl
      · exact .inr (hmono i j hlt hj).le

/-! ### The loop -/

/-- The starts that are not done. -/
theorem count_set_done {done : List Bool} {i : ℕ} (hi : i < done.length)
    (h : done.getD i false = false) :
    (done.set i true).count false + 1 = done.count false := by
  rw [List.getD_eq_getElem _ false hi] at h
  have hpos : 0 < done.count false := List.count_pos_iff.2 (h ▸ List.getElem_mem hi)
  rw [List.count_set hi, h]
  simp only [beq_self_eq_true, if_true, Bool.true_beq, Bool.false_eq_true, if_false]
  omega

/-- **A round splits a block or gives its start up**, so that the loop ends, with points that cut
the entries into pieces. -/
theorem splitLoop_spec {entries : LZ77Store} (hx : ∀ x ∈ entries, Encodable x) (maxblocks : ℕ) :
    ∀ (fuel lstart lend : ℕ) (done : List Bool) (splitpoints : List ℕ),
    done.count false + (entries.length - splitpoints.length) < fuel →
    Cuts entries.length splitpoints → Between entries.length splitpoints lstart lend →
    done.length = entries.length → done.getD lstart false = false → lstart + 10 ≤ lend →
    (maxblocks = 0 ∨ splitpoints.length < maxblocks) →
    ∃ points,
      splitLoop entries maxblocks fuel (splitpoints.length + 1) lstart lend done splitpoints =
        some points ∧ Cuts entries.length points ∧ (maxblocks = 0 ∨ points.length < maxblocks) := by
  intro fuel
  induction fuel with
  | zero => exact fun _ _ _ _ h ↦ absurd h (Nat.not_lt_zero _)
  | succ fuel ih =>
    intro lstart lend done splitpoints hfuel hcuts hbetween hlength hdone hlong hmax
    rw [splitLoop]
    split
    · exact ⟨splitpoints, rfl, hcuts, hmax⟩
    · rename_i hgo
      have hstart : lstart < entries.length := by
        have := hbetween.lend_le
        omega
      have hlt : lstart < lend := by omega
      obtain ⟨llpos, hllpos, hlo, hhi⟩ :=
        findMinimum_mem (exists_splitCost hx lstart lend) (show lstart + 1 < lend by omega)
      obtain ⟨splitcost, hsplit⟩ := exists_splitCost hx lstart lend llpos
      obtain ⟨origcost, horig⟩ := exists_estimateCost hx lstart lend
      have hafter : llpos > lstart := hlo
      simp only [guard_of hlt, hllpos, guard_of hafter, guard_of hhi, hsplit, horig,
        Option.bind_eq_bind, Option.bind_some]
      -- what the round makes of the points and of the starts
      suffices hnext : ∀ (done' : List Bool) (points : List ℕ), Cuts entries.length points →
          done'.length = entries.length →
          done'.count false + (entries.length - points.length) < fuel →
          (maxblocks = 0 ∨ points.length < maxblocks) →
          ∃ r, (match findLargestSplittableBlock entries.length done' points with
            | none => some points
            | some (lstart, lend) =>
              if lend - lstart < 10 then some points
              else splitLoop entries maxblocks fuel (points.length + 1) lstart lend done' points) =
              some r ∧ Cuts entries.length r ∧ (maxblocks = 0 ∨ r.length < maxblocks) by
        by_cases hworse : splitcost > origcost ∨ llpos = lstart + 1 ∨ llpos = lend
        · simp only [if_pos hworse]
          refine hnext _ _ hcuts (by rw [List.length_set, hlength]) ?_ hmax
          have := count_set_done (hlength.symm ▸ hstart) hdone
          omega
        · simp only [if_neg hworse]
          have hcuts' := hcuts.addSorted hbetween hafter hhi
          have hle := hcuts'.length_le
          rw [length_addSorted] at hle
          have := hnext done _ hcuts' hlength (by rw [length_addSorted]; omega)
            (by rw [length_addSorted]; omega)
          rwa [length_addSorted] at this
      intro done' points hcuts' hlength' hfuel' hmax'
      split
      · exact ⟨points, rfl, hcuts', hmax'⟩
      · rename_i lstart' lend' hfound
        obtain ⟨i, hi, hb, hdone'⟩ := findLargestSplittableBlock_eq hfound
        have hbetween' := hcuts'.between hi
        rw [← hb] at hbetween'
        split
        · exact ⟨points, rfl, hcuts', hmax'⟩
        · exact ih _ _ _ _ hfuel' hcuts' hbetween' hlength' hdone' (by omega) hmax'

/-- **The split points cut the entries into pieces**, fewer than `maxblocks` of them unless it is
zero, and no assertion of the search fails. -/
theorem blockSplitLZ77_cuts {entries : LZ77Store} (hx : ∀ x ∈ entries, Encodable x)
    (maxblocks : ℕ) : ∃ points, blockSplitLZ77 entries maxblocks = some points ∧
      Cuts entries.length points ∧ (maxblocks = 0 ∨ points.length < maxblocks) := by
  rw [blockSplitLZ77]
  split
  · exact ⟨[], rfl, cuts_nil _, Nat.eq_zero_or_pos _⟩
  · rename_i hlong
    refine splitLoop_spec hx maxblocks _ _ _ _ _ ?_ (cuts_nil _) ⟨le_rfl, by simp⟩
      List.length_replicate ?_ (by omega) (Nat.eq_zero_or_pos _)
    · simp only [List.count_replicate_self, List.length_nil]
      omega
    · rw [List.getD_eq_getElem _ _ (by rw [List.length_replicate]; omega), List.getElem_replicate]

end Zopfli

end Camlispp
