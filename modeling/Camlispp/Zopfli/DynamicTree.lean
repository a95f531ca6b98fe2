import Camlispp.Library.Inflate
import Camlispp.Zopfli.Output
import Camlispp.Zopfli.Tree

/-!
# Describing the codes of a block

`AddDynamicTree` writes the lengths of a block's two codes: the unused symbols at the end are cut
off, runs of equal lengths are shortened (`rleEncode`), and what is left is written in a third code,
made for it. **The reader of the format gets the same lengths back** (`addDynamicTree_spec`).

The reader is strict, so two things that only look like economy matter here: the third code must
have two symbols at least, which the runs give it (`exists_ne_of_rleEncode`), and the distance code
must be complete, which is what `PatchDistanceCodesForBuggyDecoders` makes it (`complete_patch`).

## What each result rests on

* `rleEncode_spec`: the encoding expands to the lengths, run by run (`rleRun_spec`).
* `exists_thirdCode`: two symbols or more have a complete code, by `lengthLimitedCodeLengths_spec`.
* `holds_writeTree`: what is written, number by number and codeword by codeword, in the order the
  format has for the lengths of the third code (`order_idxOf`).
* `end_kept`: the symbol for the end of the block is in use, so that the trimmed codes still have
  it.

`addDynamicTree_spec` gives the reader's view: from the bits, the two lists of lengths, and the rest
of the stream.
-/

namespace Camlispp

namespace Zopfli

open Bits PrefixCode Inflate

/-! ### The tree -/

/-- `PatchDistanceCodesForBuggyDecoders`. -/
def patchDistanceCodesForBuggyDecoders (d_lengths : List ℕ) : List ℕ :=
  let num_dist_codes := (d_lengths.take 30).countP (· ≠ 0)
  if num_dist_codes ≥ 2 then d_lengths
  else if num_dist_codes = 0 then (d_lengths.set 0 1).set 1 1
  else d_lengths.set (if d_lengths.getD 0 0 ≠ 0 then 1 else 0) 1

/-- `while (h > 0 && lengths[base + h - 1] == 0) h--`. -/
def trim (lengths : List ℕ) (base : ℕ) : ℕ → ℕ
  | 0 => 0
  | h + 1 => if lengths.getD (base + h) 0 = 0 then trim lengths base h else h + 1

/-- How a run of `count` lengths is written, and how many of them. -/
def rleRun (v count : ℕ) : List (ℕ × ℕ) × ℕ :=
  if count ≥ 4 ∨ count ≥ 3 ∧ v = 0 then
    if v = 0 then
      if count > 10 then
        let count := if count > 138 then 138 else count
        ([(18, count - 11)], count)
      else ([(17, count - 3)], count)
    else
      -- the first one is written out
      let repeat_ := count - 1
      let repeat' := if repeat_ % 6 ≥ 3 then repeat_ % 6 - 3 else repeat_ % 6
      ((v, 0) :: (List.replicate (repeat_ / 6) (16, 3) ++
        ((if repeat_ % 6 ≥ 3 then [(16, 0)] else []) ++ List.replicate repeat' (v, 0))), count)
  else ([(v, 0)], 1)

/-- The run-length encoding of the lengths, with its extra bits. -/
def rleEncode : ℕ → List ℕ → List (ℕ × ℕ)
  | 0, _ => []
  | _, [] => []
  | fuel + 1, v :: lengths =>
    let count := ((v :: lengths).takeWhile (· = v)).length
    let (entries, used) := rleRun v count
    entries ++ rleEncode fuel ((v :: lengths).drop used)

/-- `order`, in which the lengths of the code length code are written. -/
def order : List ℕ := [16, 17, 18, 0, 8, 7, 9, 6, 10, 5, 11, 4, 12, 3, 13, 2, 14, 1, 15]

/-- Writes one entry of the run-length encoding. -/
def addRle (clcl clsymbols : List ℕ) (e : ℕ × ℕ) (o : Output) : Output :=
  let o := addHuffmanBits (clsymbols.getD e.1 0) (clcl.getD e.1 0) o
  if e.1 = 16 then addBits e.2 2 o
  else if e.1 = 17 then addBits e.2 3 o
  else if e.1 = 18 then addBits e.2 7 o
  else o

/-- `hlit`: the literal symbols from 257 on that are kept. -/
def hlit (ll_lengths : List ℕ) : ℕ := trim ll_lengths 257 29

/-- `hdist`: the distance symbols from 1 on that are kept. -/
def hdist (d_lengths : List ℕ) : ℕ := trim d_lengths 1 29

/-- `lld_lengths`: the lengths that are kept, in one array. -/
def lldLengths (ll_lengths d_lengths : List ℕ) : List ℕ :=
  let lld_total := hlit ll_lengths + 257 + hdist d_lengths + 1
  (List.range lld_total).map fun i ↦
    if i < 257 + hlit ll_lengths then ll_lengths.getD i 0
    else d_lengths.getD (i - 257 - hlit ll_lengths) 0

/-- `clcounts`. -/
def clCounts (rle : List (ℕ × ℕ)) : List ℕ := tally (rle.map Prod.fst) (List.replicate 19 0)

/-- `hclen`: the lengths of the third code from the fourth on that are kept. -/
def hclen (clcounts : List ℕ) : ℕ := trim (order.map fun s ↦ clcounts.getD s 0) 4 15

/-- What `AddDynamicTree` writes. -/
def writeTree (hlit hdist hclen : ℕ) (clcl clsymbols : List ℕ) (rle : List (ℕ × ℕ)) (o : Output) :
    Output :=
  let o := addBits hclen 4 (addBits hdist 5 (addBits hlit 5 o))
  let o := (List.range (hclen + 4)).foldl
    (fun o i ↦ addBits (clcl.getD (order.getD i 0) 0) 3 o) o
  rle.foldl (fun o e ↦ addRle clcl clsymbols e o) o

/-- `AddDynamicTree`. -/
def addDynamicTree (ll_lengths d_lengths : List ℕ) (o : Output) : Option Output := do
  let lld_lengths := lldLengths ll_lengths d_lengths
  guard (∀ n ∈ lld_lengths, n < 16)
  let rle := rleEncode lld_lengths.length lld_lengths
  guard (∀ e ∈ rle, e.1 ≤ 18)
  let clcl ← calculateBitLengths (clCounts rle) 7
  let clsymbols ← lengthsToSymbols clcl 7
  some (writeTree (hlit ll_lengths) (hdist d_lengths) (hclen (clCounts rle)) clcl clsymbols rle o)

/-! ### Runs -/

/-- Single lengths. -/
theorem expand_replicate {v : ℕ} (hv : v < 16) (k : ℕ) (acc : List ℕ) :
    (List.replicate k (v, 0)).foldlM expand acc = some (acc ++ List.replicate k v) := by
  induction k generalizing acc with
  | zero => simp
  | succ k ih =>
    rw [List.replicate_succ, List.foldlM_cons, List.replicate_succ]
    simp [expand, hv, ih]

/-- Repeated copies of the last length. -/
theorem expand_copies {v : ℕ} (k j : ℕ) {acc : List ℕ} (h : acc.getLast? = some v) :
    (List.replicate k (16, j)).foldlM expand acc =
        some (acc ++ List.replicate (k * (3 + j)) v) ∧
      (acc ++ List.replicate (k * (3 + j)) v).getLast? = some v := by
  induction k generalizing acc with
  | zero => simpa using h
  | succ k ih =>
    have hlast : (acc ++ List.replicate (3 + j) v).getLast? = some v := by
      rw [List.getLast?_append]
      simp [List.getLast?_replicate]
    obtain ⟨hfold, hlast'⟩ := ih hlast
    have hsum : List.replicate (3 + j) v ++ List.replicate (k * (3 + j)) v =
        List.replicate ((k + 1) * (3 + j)) v := by
      rw [← List.replicate_add]
      congr 1
      ring
    rw [List.append_assoc, hsum] at hfold hlast'
    refine ⟨?_, hlast'⟩
    rw [List.replicate_succ, List.foldlM_cons]
    simpa [expand, h] using hfold

/-- **A run is written as itself**, and not more than there is of it. -/
theorem rleRun_spec {v count : ℕ} (hv : v < 16) (hc : 0 < count) (acc : List ℕ) :
    (rleRun v count).1.foldlM expand acc =
        some (acc ++ List.replicate (rleRun v count).2 v) ∧
      0 < (rleRun v count).2 ∧ (rleRun v count).2 ≤ count ∧
      ∀ e ∈ (rleRun v count).1, e.1 ≤ 18 ∧ e.2 < 2 ^ repeatBits e.1 := by
  have hsmall : v ≤ 18 ∧ 0 < 2 ^ repeatBits v := ⟨by omega, by positivity⟩
  rw [rleRun]
  split
  · rename_i hrun
    split
    · rename_i hzero
      subst hzero
      simp only
      split
      · -- 18
        rename_i h10
        obtain ⟨c, hcdef⟩ : ∃ c, c = if count > 138 then 138 else count := ⟨_, rfl⟩
        rw [← hcdef]
        have hc' : 11 ≤ c ∧ c ≤ 138 ∧ c ≤ count := by
          split at hcdef <;> omega
        have h11 : 11 + (c - 11) = c := by omega
        refine ⟨by simp [expand, h11], by simp only; omega, hc'.2.2, ?_⟩
        simp only [List.mem_singleton, forall_eq, repeatBits]
        norm_num
        omega
      · -- 17
        have h3 : 3 + (count - 3) = count := by omega
        refine ⟨by simp [expand, h3], hc, le_rfl, ?_⟩
        simp only [List.mem_singleton, forall_eq, repeatBits]
        norm_num
        omega
    · -- 16
      rename_i hpos
      have hlast : (acc ++ [v]).getLast? = some v := List.getLast?_concat
      obtain ⟨hsix, hlast₆⟩ := expand_copies ((count - 1) / 6) 3 hlast
      obtain ⟨hthree, hlast₃⟩ := expand_copies 1 0 hlast₆
      have hfirst : expand acc (v, 0) = some (acc ++ [v]) := by simp [expand, hv]
      refine ⟨?_, hc, le_rfl, fun e he ↦ ?_⟩
      · rw [List.foldlM_cons, hfirst, Option.bind_eq_bind, Option.bind_some, List.foldlM_append,
          hsix, Option.bind_eq_bind, Option.bind_some, List.foldlM_append]
        split
        · rename_i h3
          rw [List.replicate_one] at hthree
          rw [hthree, Option.bind_eq_bind, Option.bind_some, expand_replicate hv]
          simp only [List.append_assoc, ← List.replicate_add, List.singleton_append,
            ← List.replicate_succ]
          congr 3
          omega
        · rename_i h3
          rw [List.foldlM_nil, Option.pure_def, Option.bind_eq_bind, Option.bind_some,
            expand_replicate hv]
          simp only [List.append_assoc, ← List.replicate_add, List.singleton_append,
            ← List.replicate_succ]
          congr 3
          omega
      · have hcopy : (16 : ℕ) ≤ 18 ∧ 3 < 2 ^ repeatBits 16 ∧ 0 < 2 ^ repeatBits 16 := by decide
        simp only [List.mem_cons, List.mem_append, List.mem_replicate] at he
        obtain rfl | ⟨-, rfl⟩ | he | ⟨-, rfl⟩ := he
        · exact hsmall
        · exact ⟨hcopy.1, hcopy.2.1⟩
        · split at he
          · obtain rfl := List.mem_singleton.1 he
            exact ⟨hcopy.1, hcopy.2.2⟩
          · cases he
        · exact hsmall
  · exact ⟨by simp [expand, hv], Nat.one_pos, hc, by simpa using hsmall⟩

/-- The run at the beginning of a list. -/
theorem take_run (v : ℕ) (l : List ℕ) :
    l.take (l.takeWhile (· = v)).length = List.replicate (l.takeWhile (· = v)).length v := by
  rw [← List.prefix_iff_eq_take.1 (List.takeWhile_prefix _)]
  refine List.eq_replicate_of_mem fun x hx ↦ ?_
  simpa using List.mem_takeWhile_imp hx

/-- **The run-length encoding expands to the lengths.** -/
theorem rleEncode_spec {lengths : List ℕ} (h : ∀ n ∈ lengths, n < 16) {fuel : ℕ}
    (hfuel : lengths.length ≤ fuel) (acc : List ℕ) :
    (rleEncode fuel lengths).foldlM expand acc = some (acc ++ lengths) ∧
      ∀ e ∈ rleEncode fuel lengths, e.1 ≤ 18 ∧ e.2 < 2 ^ repeatBits e.1 := by
  induction fuel generalizing lengths acc with
  | zero =>
    obtain rfl := List.eq_nil_of_length_eq_zero (Nat.le_zero.1 hfuel)
    simp [rleEncode]
  | succ fuel ih =>
    cases lengths with
    | nil => simp [rleEncode]
    | cons v lengths =>
      obtain ⟨count, hcount⟩ : ∃ c, c = ((v :: lengths).takeWhile (· = v)).length := ⟨_, rfl⟩
      have hpos : 0 < count := by simp [hcount]
      obtain ⟨hfold, hused, hle, hentries⟩ := rleRun_spec (h v List.mem_cons_self) hpos acc
      rw [rleEncode]
      simp only [← hcount]
      obtain ⟨used, hu⟩ : ∃ u, u = (rleRun v count).2 := ⟨_, rfl⟩
      rw [← hu] at hfold hused hle ⊢
      have htake : (v :: lengths).take used = List.replicate used v := by
        have hrun : (v :: lengths).take count = List.replicate count v := by
          rw [hcount]
          exact take_run v (v :: lengths)
        rw [← Nat.min_eq_left hle, ← List.take_take, hrun, List.take_replicate]
      have hdrop : ∀ n ∈ (v :: lengths).drop used, n < 16 :=
        fun n hn ↦ h n (List.mem_of_mem_drop hn)
      obtain ⟨hrest, hentries'⟩ := ih hdrop
        (by simp only [List.length_drop, List.length_cons] at hfuel ⊢; omega)
        (acc ++ List.replicate used v)
      refine ⟨?_, fun e he ↦ (List.mem_append.1 he).elim (hentries e) (hentries' e)⟩
      rw [List.foldlM_append, hfold, Option.bind_eq_bind, Option.bind_some, hrest,
        List.append_assoc, ← htake, List.take_append_drop]

/-! ### Two symbols at least -/

/-- Entries of one symbol expand to equal lengths, or to unused ones. -/
theorem expand_uniform {s : ℕ} {es : List (ℕ × ℕ)} (hes : ∀ e ∈ es, e.1 = s) (hs : s ≠ 16)
    {acc lengths : List ℕ} (h : es.foldlM expand acc = some lengths) :
    (∀ n ∈ lengths, n ∈ acc ∨ n = if s < 16 then s else 0) := by
  induction es generalizing acc with
  | nil =>
    obtain rfl : acc = lengths := by simpa using h
    exact fun n hn ↦ .inl hn
  | cons e es ih =>
    obtain ⟨acc', he, hrest⟩ : ∃ acc', expand acc e = some acc' ∧
        es.foldlM expand acc' = some lengths := by
      simpa [List.foldlM_cons, Option.bind_eq_some_iff] using h
    have hsymbol := hes e List.mem_cons_self
    have hstep : ∀ n ∈ acc', n ∈ acc ∨ n = if s < 16 then s else 0 := by
      intro n hn
      simp only [expand, hsymbol, if_neg hs] at he
      split at he
      · rename_i hlt
        obtain rfl := Option.some.inj he
        rw [if_pos hlt]
        simpa using hn
      · split at he
        all_goals
          obtain rfl := Option.some.inj he
          obtain hn | hn := List.mem_append.1 hn
          · exact .inl hn
          · exact .inr (by rw [List.eq_of_mem_replicate hn, if_neg ‹_›])
    intro n hn
    obtain hn | hn := ih (fun x hx ↦ hes x (List.mem_cons_of_mem e hx)) hrest n hn
    · exact hstep n hn
    · exact .inr hn

/-- A long run of a used length is shortened. -/
theorem copies_mem_rleEncode (fuel : ℕ) {v n : ℕ} (hv : v ≠ 0) (hn : 7 ≤ n) :
    (16, 3) ∈ rleEncode (fuel + 1) (List.replicate n v) := by
  obtain ⟨m, rfl⟩ : ∃ m, n = m + 1 := ⟨n - 1, by omega⟩
  have hcount : ((v :: List.replicate m v).takeWhile (· = v)).length = m + 1 := by
    rw [← List.replicate_succ, List.takeWhile_replicate]
    simp
  rw [List.replicate_succ, rleEncode, hcount, rleRun, if_pos (.inl (by omega)), if_neg hv]
  simp only [Nat.add_sub_cancel, List.cons_append, List.mem_cons, List.mem_append,
    List.mem_replicate]
  exact .inr (.inl (.inl ⟨by omega, trivial⟩))

/-- **The runs are written with two symbols at least.** -/
theorem exists_ne_of_rleEncode {lengths : List ℕ} (h : ∀ n ∈ lengths, n < 16)
    (hlong : 7 ≤ lengths.length) (hused : ∃ n ∈ lengths, n ≠ 0) {fuel : ℕ}
    (hfuel : lengths.length ≤ fuel) :
    ∃ e ∈ rleEncode fuel lengths, ∃ e' ∈ rleEncode fuel lengths, e.1 ≠ e'.1 := by
  obtain ⟨hexpand, -⟩ := rleEncode_spec h hfuel []
  rw [List.nil_append] at hexpand
  by_contra hno
  have hsame : ∀ e ∈ rleEncode fuel lengths, ∀ e' ∈ rleEncode fuel lengths, e.1 = e'.1 := by
    intro e he e' he'
    by_contra hne
    exact hno ⟨e, he, e', he', hne⟩
  obtain ⟨first, rest, hfirst⟩ : ∃ first rest, rleEncode fuel lengths = first :: rest := by
    match hr : rleEncode fuel lengths with
    | [] =>
      rw [hr] at hexpand
      obtain rfl : lengths = [] := by simpa using hexpand.symm
      simp at hlong
    | first :: rest => exact ⟨first, rest, rfl⟩
  have hfirstmem : first ∈ rleEncode fuel lengths := by
    rw [hfirst]
    exact List.mem_cons_self
  have huniform : ∀ e ∈ rleEncode fuel lengths, e.1 = first.1 :=
    fun e he ↦ hsame e he first hfirstmem
  have h16 : first.1 ≠ 16 := by
    intro h16
    rw [hfirst, List.foldlM_cons] at hexpand
    simp [expand, h16] at hexpand
  obtain ⟨n, hn, hn0⟩ := hused
  have hall := expand_uniform huniform h16 hexpand
  have hsmall : first.1 < 16 := by
    by_contra hbig
    have := hall n hn
    simp [if_neg hbig, hn0] at this
  have hreplicate : lengths = List.replicate lengths.length first.1 := by
    refine List.eq_replicate_of_mem fun x hx ↦ ?_
    simpa [hsmall] using hall x hx
  have hfirst0 : first.1 ≠ 0 := by
    intro hzero
    have := hall n hn
    simp [hzero, hn0] at this
  obtain ⟨fuel, rfl⟩ : ∃ f, fuel = f + 1 := ⟨fuel - 1, by omega⟩
  have hcopies := copies_mem_rleEncode fuel hfirst0 hlong
  rw [← hreplicate] at hcopies
  exact h16 (huniform _ hcopies).symm

/-! ### The parts of the tree -/

theorem trim_le (lengths : List ℕ) (base h : ℕ) : trim lengths base h ≤ h := by
  induction h with
  | zero => exact le_rfl
  | succ h ih =>
    rw [trim]
    split
    · exact ih.trans (Nat.le_succ h)
    · exact le_rfl

/-- Only unused symbols are cut off. -/
theorem getD_of_trim_le {lengths : List ℕ} {base h i : ℕ} (hi : base + trim lengths base h ≤ i)
    (hi' : i < base + h) : lengths.getD i 0 = 0 := by
  induction h with
  | zero => omega
  | succ h ih =>
    rw [trim] at hi
    split at hi
    · rename_i hzero
      obtain hlt | rfl := Nat.lt_succ_iff_lt_or_eq.1 (show i < base + h + 1 from hi')
      · exact ih hi hlt
      · exact hzero
    · omega

/-- The two lists of lengths, one after the other. -/
theorem lld_eq {ll d : List ℕ} {n m : ℕ} (hn : n ≤ ll.length) (hm : m ≤ d.length) :
    ((List.range (n + m)).map fun i ↦ if i < n then ll.getD i 0 else d.getD (i - n) 0) =
      ll.take n ++ d.take m := by
  refine List.ext_getElem (by simp; omega) fun i h₁ h₂ ↦ ?_
  have hi : i < n + m := by simpa using h₁
  simp only [List.getElem_map, List.getElem_range]
  split
  · rename_i hlt
    rw [List.getElem_append_left (by simp; omega), List.getElem_take, List.getD_eq_getElem]
  · rename_i hge
    have htake : (ll.take n).length = n := List.length_take_of_le hn
    rw [List.getElem_append_right (by omega), List.getElem_take, ← List.getD_eq_getElem d 0, htake]

theorem order_idxOf {i : ℕ} (hi : i < 19) :
    lengthOrder.idxOf i < 19 ∧ order.getD (lengthOrder.idxOf i) 0 = i := by
  revert i
  decide

/-- The lengths of the third code, as written and read back. -/
theorem unorder_order {clcl : List ℕ} {n : ℕ} (hlen : clcl.length = 19)
    (hzero : ∀ p, n ≤ p → p < 19 → clcl.getD (order.getD p 0) 0 = 0) :
    unorder ((List.range n).map fun i ↦ clcl.getD (order.getD i 0) 0) = clcl := by
  refine List.ext_getElem (by simp [unorder, hlen]) fun i h₁ h₂ ↦ ?_
  obtain ⟨hp, hget⟩ := order_idxOf (i := i) (by omega)
  have hmember : clcl[i] = clcl.getD (order.getD (lengthOrder.idxOf i) 0) 0 := by
    rw [hget, List.getD_eq_getElem]
  rw [hmember]
  simp only [unorder, List.getElem_map, List.getElem_range]
  obtain hlt | hge := lt_or_ge (lengthOrder.idxOf i) n
  · rw [List.getD_eq_getElem _ 0 (by simpa using hlt), List.getElem_map, List.getElem_range]
  · rw [List.getD_eq_default _ 0 (by simpa using hge), hzero _ hge hp]

/-- An entry is written as its text. -/
theorem Output.Holds.addRle {o : Output} {s : Bits} (h : o.Holds s) {clcl clsymbols : List ℕ}
    {e : ℕ × ℕ} (hcode : clsymbols.getD e.1 0 = code clcl e.1) :
    (addRle clcl clsymbols e o).Holds (s ++ lengthText clcl e) := by
  have hword : (Zopfli.addHuffmanBits (clsymbols.getD e.1 0) (clcl.getD e.1 0) o).Holds
      (s ++ codeword clcl e.1) := by
    rw [hcode]
    exact h.addHuffmanBits _ _
  rw [lengthText, ← List.append_assoc, Zopfli.addRle, repeatBits]
  split
  · exact hword.addBits _ _
  · split
    · exact hword.addBits _ _
    · split
      · exact hword.addBits _ _
      · simpa using hword

/-! ### The whole tree -/

/-- The lengths a block's two codes may have. -/
structure Describable (ll d : List ℕ) : Prop where
  length_ll : ll.length = 288
  length_d : d.length = 32
  ll_tail : ∀ i, 286 ≤ i → len ll i = 0
  d_tail : ∀ i, 30 ≤ i → len d i = 0
  end_pos : 0 < len ll 256
  complete_ll : PrefixCode.Complete ll 15 ∨ Single ll 15
  complete_d : PrefixCode.Complete d 15

/-- The literal lengths that are kept. -/
def llKept (ll : List ℕ) : List ℕ := ll.take (257 + hlit ll)

/-- The distance lengths that are kept. -/
def dKept (d : List ℕ) : List ℕ := d.take (1 + hdist d)

namespace Describable

variable {ll d : List ℕ} (h : Describable ll d)

include h

theorem ll_le : ∀ n ∈ ll, n ≤ 15 := h.complete_ll.elim (·.1) (·.1)

theorem len_llKept (i : ℕ) : len ll i = len (llKept ll) i := by
  refine len_take (fun j hj ↦ ?_) i
  obtain hlt | hge := lt_or_ge j 286
  · exact getD_of_trim_le hj hlt
  · exact h.ll_tail j hge

theorem len_dKept (i : ℕ) : len d i = len (dKept d) i := by
  refine len_take (fun j hj ↦ ?_) i
  obtain hlt | hge := lt_or_ge j 30
  · exact getD_of_trim_le hj hlt
  · exact h.d_tail j hge

theorem length_llKept : (llKept ll).length = 257 + hlit ll := by
  have := trim_le ll 257 29
  have := h.length_ll
  exact List.length_take_of_le (by unfold hlit; omega)

theorem length_dKept : (dKept d).length = 1 + hdist d := by
  have := trim_le d 1 29
  have := h.length_d
  exact List.length_take_of_le (by unfold hdist; omega)

theorem lldLengths_eq : lldLengths ll d = llKept ll ++ dKept d := by
  have hll := trim_le ll 257 29
  have hd := trim_le d 1 29
  rw [llKept, dKept, ← lld_eq (by rw [h.length_ll, hlit]; omega) (by rw [h.length_d, hdist]; omega),
    lldLengths, show hlit ll + 257 + hdist d + 1 = 257 + hlit ll + (1 + hdist d) by omega]
  simp only [Nat.sub_sub]

/-- The lengths are asserted to be small. -/
theorem lldLengths_lt : ∀ n ∈ lldLengths ll d, n < 16 := by
  intro n hn
  rw [h.lldLengths_eq] at hn
  obtain hn | hn := List.mem_append.1 hn
  · exact Nat.lt_succ_of_le (h.ll_le n (List.mem_of_mem_take hn))
  · exact Nat.lt_succ_of_le (h.complete_d.1 n (List.mem_of_mem_take hn))

theorem end_kept : 0 < len (llKept ll) 256 := h.len_llKept 256 ▸ h.end_pos

/-- The end of the block is used, so not every length is zero. -/
theorem exists_used : ∃ n ∈ lldLengths ll d, n ≠ 0 := by
  have hend := h.end_kept
  have h256 : 256 < (llKept ll).length := lt_length_of_used hend
  rw [len, List.getD_eq_getElem _ 0 h256] at hend
  rw [h.lldLengths_eq]
  exact ⟨_, List.mem_append_left _ (List.getElem_mem h256), hend.ne'⟩

theorem le_length_lldLengths : 7 ≤ (lldLengths ll d).length := by
  rw [h.lldLengths_eq, List.length_append, h.length_llKept]
  omega

end Describable

/-! ### The third code -/

/-- What makes a third code fit for the entries. -/
structure ThirdCode (rle : List (ℕ × ℕ)) (clcl clsymbols : List ℕ) : Prop where
  lengths : calculateBitLengths (clCounts rle) 7 = some clcl
  symbols : lengthsToSymbols clcl 7 = some clsymbols
  length_eq : clcl.length = 19
  complete : PrefixCode.Complete clcl 7
  used : ∀ e ∈ rle, 0 < len clcl e.1
  unused : ∀ s, len (clCounts rle) s = 0 → len clcl s = 0
  code_eq : ∀ i, 0 < len clcl i → clsymbols.getD i 0 = code clcl i

/-- **Entries with two symbols at least have a complete code.** -/
theorem exists_thirdCode {rle : List (ℕ × ℕ)} (h18 : ∀ e ∈ rle, e.1 ≤ 18)
    (hne : ∃ e ∈ rle, ∃ e' ∈ rle, e.1 ≠ e'.1) : ∃ clcl clsymbols, ThirdCode rle clcl clsymbols := by
  have hlength : (clCounts rle).length = 19 := by
    rw [clCounts, length_tally, List.length_replicate]
  have hcount : ∀ e ∈ rle, 0 < len (clCounts rle) e.1 := by
    intro e he
    have := h18 e he
    rw [clCounts, len_tally _ _ (by rw [List.length_replicate]; omega), len_replicate_zero,
      Nat.zero_add]
    exact List.count_pos_iff.2 (List.mem_map_of_mem he)
  have hfew : (used (clCounts rle)).card ≤ 2 ^ 7 := by
    have hcard : (used (clCounts rle)).card ≤ (Finset.range (clCounts rle).length).card :=
      Finset.card_filter_le _ _
    rw [Finset.card_range, hlength] at hcard
    exact hcard.trans (by norm_num)
  obtain ⟨clcl, hclcl, hspec⟩ := lengthLimitedCodeLengths_spec (by norm_num) hfew
  have htwo : 2 ≤ (used (clCounts rle)).card := by
    obtain ⟨e, he, e', he', hne⟩ := hne
    rw [← Finset.card_pair hne]
    refine Finset.card_le_card fun s hs ↦ ?_
    obtain rfl | hs := Finset.mem_insert.1 hs
    · exact mem_used.2 (hcount e he)
    · obtain rfl := Finset.mem_singleton.1 hs
      exact mem_used.2 (hcount e' he')
  obtain ⟨clsymbols, hclsymbols, hcode⟩ := lengthsToSymbols_spec hspec.le
  refine ⟨clcl, clsymbols, hclcl, hclsymbols, hspec.length_eq.trans hlength, hspec.complete htwo,
    fun e he ↦ (hspec.pos_iff _).2 (hcount e he), fun s hs ↦ ?_, hcode⟩
  by_contra hpos
  have := (hspec.pos_iff s).1 (Nat.pos_of_ne_zero hpos)
  omega

namespace ThirdCode

variable {rle : List (ℕ × ℕ)} {clcl clsymbols : List ℕ} (t : ThirdCode rle clcl clsymbols)

include t

/-- The lengths of the third code that are not written are unused. -/
theorem cut {p : ℕ} (hp : hclen (clCounts rle) + 4 ≤ p) (hp' : p < 19) :
    clcl.getD (order.getD p 0) 0 = 0 := by
  refine t.unused _ ?_
  have hzero : (order.map fun s ↦ (clCounts rle).getD s 0).getD p 0 = 0 :=
    getD_of_trim_le (show 4 + trim _ 4 15 ≤ p by unfold hclen at hp; omega) hp'
  have hlen19 : p < order.length := hp'
  rwa [List.getD_eq_getElem _ 0 (by simpa using hlen19), List.getElem_map,
    ← List.getD_eq_getElem order 0 hlen19] at hzero

/-- The numbers that are written are the lengths of the third code. -/
theorem unorder_eq : unorder ((List.range (hclen (clCounts rle) + 4)).map fun i ↦
    clcl.getD (order.getD i 0) 0) = clcl :=
  unorder_order t.length_eq fun _ hp hp' ↦ t.cut hp hp'

/-- **What is written**, as a stream. -/
theorem holds_writeTree {o : Output} {s : Bits} (ho : o.Holds s) (hlit hdist : ℕ) :
    (writeTree hlit hdist (hclen (clCounts rle)) clcl clsymbols rle o).Holds
      (s ++ (lsb 5 hlit ++ (lsb 5 hdist ++ (lsb 4 (hclen (clCounts rle)) ++
        (((List.range (hclen (clCounts rle) + 4)).map fun i ↦
          clcl.getD (order.getD i 0) 0).flatMap (lsb 3) ++ rle.flatMap (lengthText clcl)))))) := by
  have hheader := ((ho.addBits hlit 5).addBits hdist 5).addBits (hclen (clCounts rle)) 4
  have hnumbers := hheader.flatMap (List.range (hclen (clCounts rle) + 4))
    (f := fun i ↦ addBits (clcl.getD (order.getD i 0) 0) 3)
    (g := fun i ↦ lsb 3 (clcl.getD (order.getD i 0) 0)) fun i _ _ _ h ↦ h.addBits _ _
  have hall := hnumbers.flatMap rle (f := addRle clcl clsymbols) (g := lengthText clcl)
    fun e he _ _ h ↦ h.addRle (t.code_eq e.1 (t.used e he))
  rw [List.flatMap_map]
  simp only [List.append_assoc] at hall
  exact hall

end ThirdCode

/-- **`AddDynamicTree` describes the two codes**, without the unused symbols at the end. -/
theorem addDynamicTree_spec {ll d : List ℕ} (h : Describable ll d) :
    ∃ (ll' d' : List ℕ) (c : Described ll' d'), (∀ i, len ll i = len ll' i) ∧
      (∀ i, len d i = len d' i) ∧ ∀ {o : Output} {s : Bits}, o.Holds s →
        ∃ o', addDynamicTree ll d o = some o' ∧ o'.Holds (s ++ c.text) := by
  obtain ⟨hexpand, hentries⟩ := rleEncode_spec h.lldLengths_lt le_rfl []
  have hne := exists_ne_of_rleEncode h.lldLengths_lt h.le_length_lldLengths h.exists_used le_rfl
  rw [List.nil_append] at hexpand
  set rle := rleEncode (lldLengths ll d).length (lldLengths ll d) with hrle
  have h18 : ∀ e ∈ rle, e.1 ≤ 18 := fun e he ↦ (hentries e he).1
  obtain ⟨clcl, clsymbols, t⟩ := exists_thirdCode h18 hne
  have hll : ∀ n ∈ llKept ll, n ≤ 15 := fun n hn ↦ h.ll_le n (List.mem_of_mem_take hn)
  have hd : ∀ n ∈ dKept d, n ≤ 15 := fun n hn ↦ h.complete_d.1 n (List.mem_of_mem_take hn)
  let c : Described (llKept ll) (dKept d) :=
    { hlit := hlit ll
      hdist := hdist d
      hclen := hclen (clCounts rle)
      vs := (List.range (hclen (clCounts rle) + 4)).map fun i ↦ clcl.getD (order.getD i 0) 0
      es := rle
      hlit_le := trim_le ll 257 29
      hdist_le := trim_le d 1 29
      hclen_le := trim_le _ 4 15
      length_vs := by rw [List.length_map, List.length_range]
      lt_vs := fun v hv ↦ by
        obtain ⟨i, -, rfl⟩ := List.mem_map.1 hv
        exact Nat.lt_succ_of_le (len_le_of_forall t.complete.1 _)
      complete_cl := t.unorder_eq.symm ▸ t.complete
      entries := fun e he ↦ ⟨t.unorder_eq.symm ▸ t.used e he, hentries e he⟩
      expands := hexpand.trans (congrArg some h.lldLengths_eq)
      length_ll := h.length_llKept
      length_d := h.length_dKept
      end_pos := h.end_kept
      complete_ll := h.complete_ll.imp (complete_congr h.len_llKept hll)
        (single_congr h.len_llKept hll)
      complete_d := complete_congr h.len_dKept hd h.complete_d }
  refine ⟨llKept ll, dKept d, c, h.len_llKept, h.len_dKept, fun {o s} ho ↦
    ⟨writeTree (hlit ll) (hdist d) (hclen (clCounts rle)) clcl clsymbols rle o, ?_, ?_⟩⟩
  · rw [addDynamicTree, guard_of h.lldLengths_lt]
    simp only [← hrle, guard_of h18, t.lengths, t.symbols, Option.bind_eq_bind, Option.bind_some]
  · have htext := t.holds_writeTree ho (hlit ll) (hdist d)
    rw [Described.text, t.unorder_eq]
    exact htext

/-! ### The distance code -/

theorem len_set {l : List ℕ} {i : ℕ} (hi : i < l.length) (n s : ℕ) :
    len (l.set i n) s = if s = i then n else len l s := by
  simp only [len, List.getD_eq_getElem?_getD]
  obtain rfl | hne := eq_or_ne s i
  · rw [List.getElem?_set_self hi, if_pos rfl]
    rfl
  · rw [List.getElem?_set_ne hne.symm, if_neg hne]

/-- The used symbols, as counted in the list. -/
theorem card_used (l : List ℕ) : (used l).card = l.countP (· ≠ 0) := by
  induction l using List.reverseRecOn with
  | nil => rfl
  | append_singleton l n ih =>
    have hinit : ∀ i ∈ Finset.range l.length, (0 < len (l ++ [n]) i ↔ 0 < len l i) := by
      intro i hi
      rw [len, len, List.getD_append _ _ _ _ (Finset.mem_range.1 hi)]
    have hlast : len (l ++ [n]) l.length = n := by
      rw [len, List.getD_append_right _ _ _ _ le_rfl, Nat.sub_self, List.getD_cons_zero]
    rw [used, List.length_append, List.length_singleton, Finset.range_add_one, Finset.filter_insert,
      hlast, Finset.filter_congr hinit, List.countP_append, ← ih, List.countP_singleton]
    obtain rfl | hpos := Nat.eq_zero_or_pos n
    · simp [used]
    · rw [if_pos hpos, Finset.card_insert_of_notMem (by simp)]
      simp [used, hpos.ne']

/-- Two codewords of one bit are a complete code. -/
theorem complete_pair {l : List ℕ} {i j : ℕ} (hij : i ≠ j)
    (h : ∀ s, len l s = if s = i ∨ s = j then 1 else 0) : PrefixCode.Complete l 15 := by
  have hused : used l = {i, j} := by
    ext s
    rw [mem_used, h, Finset.mem_insert, Finset.mem_singleton]
    split <;> simp_all
  refine ⟨fun n hn ↦ ?_, ?_⟩
  · obtain ⟨s, hs, rfl⟩ := List.mem_iff_getElem.1 hn
    rw [← List.getD_eq_getElem l 0 hs]
    change len l s ≤ 15
    rw [h]
    split <;> norm_num
  · rw [kraft, hused, Finset.sum_pair hij, h, h, if_pos (.inl rfl), if_pos (.inr rfl)]
    norm_num

/-- What the distance code is like once it is patched. -/
structure Patched (d d' : List ℕ) : Prop where
  length_eq : d'.length = 32
  tail : ∀ i, 30 ≤ i → len d' i = 0
  complete : PrefixCode.Complete d' 15
  used : ∀ i, 0 < len d i → 0 < len d' i

/-- **`PatchDistanceCodesForBuggyDecoders` makes the distance code complete**, whatever distances
are used. -/
theorem patched {counts d : List ℕ} (hspec : CodeLengths counts 15 d) (hlen : counts.length = 32)
    (htail : ∀ i, 30 ≤ i → len counts i = 0) :
    Patched d (patchDistanceCodesForBuggyDecoders d) := by
  have hdlen : d.length = 32 := hspec.length_eq.trans hlen
  have hdtail : ∀ i, 30 ≤ i → len d i = 0 := by
    intro i hi
    by_contra hpos
    have := (hspec.pos_iff i).1 (Nat.pos_of_ne_zero hpos)
    exact this.ne' (htail i hi)
  have hused : used counts = used d := (used_congr hspec.pos_iff).symm
  have hnum : (d.take 30).countP (· ≠ 0) = (used d).card := by
    rw [← card_used, used_congr fun s ↦ by rw [len_take hdtail s]]
  rw [patchDistanceCodesForBuggyDecoders, hnum]
  split
  · rename_i h2
    exact ⟨hdlen, hdtail, hspec.complete (hused ▸ h2), fun i hi ↦ hi⟩
  split
  · -- no distances
    rename_i h0
    have hzero : ∀ s, len d s = 0 := by
      intro s
      by_contra hpos
      have : s ∈ used d := mem_used.2 (Nat.pos_of_ne_zero hpos)
      rw [Finset.card_eq_zero.1 h0] at this
      exact absurd this (Finset.notMem_empty s)
    have hlens : ∀ s, len ((d.set 0 1).set 1 1) s = if s = 0 ∨ s = 1 then 1 else 0 := by
      intro s
      rw [len_set (by rw [List.length_set]; omega), len_set (by omega), hzero]
      split <;> split <;> simp_all
    refine ⟨by simpa using hdlen, fun i hi ↦ ?_, complete_pair zero_ne_one hlens, fun i hi ↦ ?_⟩
    · rw [hlens, if_neg (by omega)]
    · exact absurd (hzero i) hi.ne'
  · -- one distance
    rename_i h2 h0
    have hone : (used d).card = 1 := by omega
    obtain ⟨k, hk⟩ := Finset.card_eq_one.1 hone
    have hsingle := hspec.single (hused ▸ hone)
    have hkpos : 0 < len d k := mem_used.1 (hk ▸ Finset.mem_singleton_self k)
    have hlenk : len d k = 1 := by
      have hroom := hsingle.2.2
      rw [kraft, hk, Finset.sum_singleton] at hroom
      have := Nat.pow_right_injective le_rfl hroom
      omega
    have hlens : ∀ s, len d s = if s = k then 1 else 0 := by
      intro s
      obtain rfl | hne := eq_or_ne s k
      · rw [if_pos rfl, hlenk]
      · rw [if_neg hne]
        by_contra hpos
        have : s ∈ used d := mem_used.2 (Nat.pos_of_ne_zero hpos)
        rw [hk, Finset.mem_singleton] at this
        exact hne this
    obtain ⟨j, hj⟩ : ∃ j, j = if d.getD 0 0 ≠ 0 then 1 else 0 := ⟨_, rfl⟩
    have hd0 : d.getD 0 0 = if 0 = k then 1 else 0 := hlens 0
    have hjk : j ≠ k ∧ j < 2 := by
      rw [hj, hd0]
      split <;> split <;> omega
    have hlens' : ∀ s, len (d.set j 1) s = if s = j ∨ s = k then 1 else 0 := by
      intro s
      rw [len_set (by omega), hlens]
      split <;> split <;> simp_all
    rw [← hj]
    refine ⟨by simpa using hdlen, fun i hi ↦ ?_, complete_pair hjk.1 hlens', fun i hi ↦ ?_⟩
    · have hik : i ≠ k := by
        rintro rfl
        exact hkpos.ne' (hdtail i hi)
      rw [hlens', if_neg (by omega)]
    · rw [hlens']
      rw [hlens] at hi
      split at hi
      · rw [if_pos (.inr ‹_›)]
        exact Nat.one_pos
      · omega

end Zopfli

end Camlispp
