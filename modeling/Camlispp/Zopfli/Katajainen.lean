import Camlispp.Library.Bytes
import Camlispp.Library.PrefixCode
import Mathlib.Algebra.BigOperators.Intervals
import Mathlib.Algebra.Group.Even
import Mathlib.Data.List.Sort
import Mathlib.Tactic.Linarith
import Mathlib.Tactic.Ring

/-!
# Length-limited codes

`ZopfliLengthLimitedCodeLengths` gives every used symbol the length of its codeword by the boundary
package-merge algorithm. Each of `maxbits` lists is a merge, by weight, of the leaves and of the
packages of two of the list before; only the last two chains of a list are kept, a chain saying how
many leaves each list below contributes.

The lists are kept here with the **highest first**, since `BoundaryPM` only reaches down, and a
chain is the list of its nodes, so that there is no pool of nodes to collect.

## Two arithmetics

A weight is a `size_t`. `LeafComparator` returns the difference of two as an `int`, and sums may
wrap. The algorithm is therefore written over an `Arithmetic`: `Arithmetic.machine` is what the code
computes with, and `Arithmetic.exact` has no bounds. **For counts below `2 ^ 31` and up to 30 bits
they agree** (`lengthLimitedCodeLengths_machine`): a weight of a list is at most `2 ^ j` leaves',
`j` lists being below it (`Light`), so that no sum comes near to `2 ^ 64`. Without the bound they do
not: `leafComparator` takes a weight of `2 ^ 31 + 1` for less than a weight of one.

## Why the lengths are right

They are because of two counts. The `size` of a chain is the number of leaves and packages it stands
for, and **a step of a list makes it grow by one** (`Inv.boundaryPM`) until the list is exhausted
(`Dead`), which with `2 ^ maxbits` leaves at most does not happen before the last list has
`2 * n - 2` of them (`size_of_dead`). A chain of that size, its counts not increasing downwards,
gives lengths that take the whole room (`kraft_add_size`): `lengthLimitedCodeLengths_spec`.

`lengthLimitedCodeLengths_correct` says it of what the code computes with.
-/

namespace Camlispp

namespace Zopfli

open PrefixCode

/-! ### The algorithm -/

/-- A node of a chain: its total weight, and the number of leaves before it. A leaf is a node too,
whose count is its symbol. -/
structure Node where
  weight : ℕ
  count : ℕ
deriving DecidableEq

/-- A node and the nodes its tail leads to. -/
abbrev Chain := List Node

/-- The two lookahead chains of each list, the highest list first. -/
abbrev Lists := List (Chain × Chain)

/-- `chain->weight`. -/
def Chain.weight (c : Chain) : ℕ := (c.headD ⟨0, 0⟩).weight

/-- `chain->count`. -/
def Chain.count (c : Chain) : ℕ := (c.headD ⟨0, 0⟩).count

/-- `LeafComparator`, as `qsort` uses it: the difference of two `size_t`, returned as an `int`. -/
def leafComparator (a b : Node) : Bool := Bytes.int32 (((a.weight : ℤ) - b.weight) % 2 ^ 64) ≤ 0

/-- How weights are compared and added. -/
structure Arithmetic where
  /-- The comparison of two leaves. -/
  comparator : Node → Node → Bool
  /-- The sum of two weights. -/
  add : ℕ → ℕ → ℕ

/-- The arithmetic of the code. -/
def Arithmetic.machine : Arithmetic := ⟨leafComparator, fun m n ↦ (m + n) % 2 ^ 64⟩

/-- Arithmetic without bounds. -/
def Arithmetic.exact : Arithmetic := ⟨fun a b ↦ a.weight ≤ b.weight, fun m n ↦ m + n⟩

theorem exact_add (m n : ℕ) : Arithmetic.exact.add m n = m + n := rfl

section Algorithm

variable (A : Arithmetic) (leaves : List Node)

/-- `leaves[i].weight`. -/
def leafWeight (i : ℕ) : ℕ := (leaves.getD i ⟨0, 0⟩).weight

/-- `BoundaryPM`, on the list of the given index and those below it. -/
def boundaryPM : ℕ → Bool → Lists → Lists
  | 0, _, (lookahead, oldchain) :: below =>
    let lastcount := oldchain.count
    if lastcount ≥ leaves.length then (lookahead, oldchain) :: below
    else (oldchain, [⟨leafWeight leaves lastcount, lastcount + 1⟩]) :: below
  | index + 1, final, (_, oldchain) :: (prev₀, prev₁) :: below =>
    let lastcount := oldchain.count
    let sum := A.add prev₀.weight prev₁.weight
    if lastcount < leaves.length ∧ sum > leafWeight leaves lastcount then
      (oldchain, ⟨leafWeight leaves lastcount, lastcount + 1⟩ :: oldchain.tail) ::
        (prev₀, prev₁) :: below
    else
      (oldchain, ⟨sum, lastcount⟩ :: prev₁) ::
        if final then (prev₀, prev₁) :: below
        else boundaryPM index false (boundaryPM index false ((prev₀, prev₁) :: below))
  | _, _, lists => lists

/-- `InitLists`. -/
def initLists (maxbits : ℕ) : Lists :=
  List.replicate maxbits ([⟨leafWeight leaves 0, 1⟩], [⟨leafWeight leaves 1, 2⟩])

/-- The last chain of the last list. -/
def lastChain (lists : Lists) : Chain := (lists.headD ([], [])).2

/-- `ExtractBitLengths`. -/
def extractBitLengths (chain : Chain) (bitlengths : List ℕ) : List ℕ :=
  chain.foldl (fun bitlengths node ↦ (leaves.take node.count).foldl
    (fun bitlengths leaf ↦ bitlengths.modify leaf.count (· + 1)) bitlengths) bitlengths

/-- The runs of `BoundaryPM` on the last list. -/
def boundaryPMRuns (maxbits : ℕ) : Lists :=
  let numBoundaryPMRuns := 2 * leaves.length - 4
  (List.range numBoundaryPMRuns).foldl
    (fun lists i ↦ boundaryPM A leaves (maxbits - 1) (i = numBoundaryPMRuns - 1) lists)
    (initLists leaves maxbits)

end Algorithm

/-- The leaves of the used symbols. -/
def leavesOf (frequencies : List ℕ) : List Node :=
  (frequencies.zipIdx.filter fun p ↦ p.1 ≠ 0).map fun p ↦ ⟨p.1, p.2⟩

/-- `ZopfliLengthLimitedCodeLengths`, the error being `none`. -/
def lengthLimitedCodeLengths (A : Arithmetic) (frequencies : List ℕ) (maxbits : ℕ) :
    Option (List ℕ) :=
  let bitlengths := List.replicate frequencies.length 0
  let leaves := leavesOf frequencies
  if 1 <<< maxbits < leaves.length then none
  else if leaves.length = 0 then some bitlengths
  else if leaves.length = 1 then
    some (bitlengths.set (leaves.headD ⟨0, 0⟩).count 1)
  else
    let leaves := leaves.mergeSort A.comparator
    some (extractBitLengths leaves (lastChain (boundaryPMRuns A leaves maxbits)) bitlengths)

/-! ### What a chain stands for -/

namespace Chain

/-- The leaves and packages up to a chain. -/
def size : Chain → ℕ
  | [] => 0
  | n :: t => n.count + size t / 2

theorem size_eq (c : Chain) : c.size = c.count + size c.tail / 2 := by
  cases c <;> rfl

/-- Every package is made of two. -/
def Exact : Chain → Prop
  | [] => True
  | _ :: t => Even (size t) ∧ Exact t

/-- The counts do not increase downwards. -/
def Falling (c : Chain) : Prop := c.Pairwise fun x y ↦ y.count ≤ x.count

/-- How many lists a leaf is counted in, which is its code length. -/
def depth (c : Chain) (k : ℕ) : ℕ := c.countP fun n ↦ k < n.count

/-- A leaf that is not counted in the highest list is counted in none. -/
theorem depth_eq_zero {n : Node} {t : Chain} (h : Falling (n :: t)) {k : ℕ} (hk : n.count ≤ k) :
    depth (n :: t) k = 0 := by
  refine List.countP_eq_zero.2 fun y hy ↦ ?_
  have hle : y.count ≤ n.count := by
    obtain rfl | hy := List.mem_cons.1 hy
    · exact le_rfl
    · exact (List.pairwise_cons.1 h).1 y hy
  simp only [decide_eq_true_eq, not_lt]
  exact hle.trans hk

theorem depth_le (c : Chain) (k : ℕ) : depth c k ≤ c.length := List.countP_le_length

/-- **The size of a chain and the room of the codewords it gives add up.** -/
theorem kraft_add_size {c : Chain} (hfall : c.Falling) (hexact : c.Exact) {m N : ℕ}
    (hm : c.length ≤ m) (hN : c.count ≤ N) :
    2 * ∑ k ∈ Finset.range N, 2 ^ (m - c.depth k) + c.size * 2 ^ m = 2 * N * 2 ^ m := by
  induction c generalizing m N with
  | nil => simp [depth, size, Nat.mul_assoc]
  | cons n t ih =>
    obtain _ | m := m
    · simp at hm
    have hN' : n.count ≤ N := hN
    obtain ⟨⟨half, hhalf⟩, hexact'⟩ := hexact
    have hfall' := List.pairwise_cons.1 hfall
    have hcount : Chain.count t ≤ n.count := by
      cases t with
      | nil => exact Nat.zero_le _
      | cons y t => exact hfall'.1 y List.mem_cons_self
    have hbelow := ih hfall'.2 hexact' (by simpa using hm) hcount
    -- the leaves counted in the highest list, and the others
    have hin : ∑ k ∈ Finset.range n.count, 2 ^ (m + 1 - depth (n :: t) k) =
        ∑ k ∈ Finset.range n.count, 2 ^ (m - depth t k) := by
      refine Finset.sum_congr rfl fun k hk ↦ ?_
      have hd : depth (n :: t) k = depth t k + 1 := by
        simp [depth, List.countP_cons_of_pos, Finset.mem_range.1 hk]
      rw [hd, Nat.add_sub_add_right]
    have hout : ∑ k ∈ Finset.Ico n.count N, 2 ^ (m + 1 - depth (n :: t) k) =
        (N - n.count) * 2 ^ (m + 1) := by
      rw [Finset.sum_congr rfl fun k hk ↦ by
        rw [depth_eq_zero hfall (Finset.mem_Ico.1 hk).1, Nat.sub_zero]]
      simp
    rw [Finset.range_eq_Ico, ← Finset.sum_Ico_consecutive _ (Nat.zero_le _) hN',
      ← Finset.range_eq_Ico, hin, hout]
    obtain ⟨rest, rfl⟩ := Nat.exists_eq_add_of_le hN'
    have hdiv : size t / 2 = half := by omega
    rw [hhalf] at hbelow
    simp only [size, hdiv, pow_succ, Nat.add_sub_cancel_left]
    linarith

end Chain

/-! ### The lengths of a chain -/

/-- Counting the symbols of some leaves. -/
theorem foldl_leaves (ls : List Node) (b : List ℕ) :
    ls.foldl (fun b leaf ↦ b.modify leaf.count (· + 1)) b = tally (ls.map Node.count) b := by
  rw [tally, List.foldl_map]

theorem length_extractBitLengths (leaves : List Node) (c : Chain) (b : List ℕ) :
    (extractBitLengths leaves c b).length = b.length := by
  induction c generalizing b with
  | nil => rfl
  | cons n t ih =>
    rw [extractBitLengths, List.foldl_cons, foldl_leaves]
    exact (ih _).trans (length_tally _ b)

theorem len_extractBitLengths (leaves : List Node) (c : Chain) (b : List ℕ) {s : ℕ}
    (hs : s < b.length) : len (extractBitLengths leaves c b) s =
      len b s + (c.map fun n ↦ ((leaves.take n.count).map Node.count).count s).sum := by
  induction c generalizing b with
  | nil => rfl
  | cons n t ih =>
    have hstep := ih (tally ((leaves.take n.count).map Node.count) b) (by rwa [length_tally])
    rw [extractBitLengths, List.foldl_cons, foldl_leaves]
    refine hstep.trans ?_
    rw [len_tally _ b hs, List.map_cons, List.sum_cons, Nat.add_assoc]

/-- A leaf is among the first `c` if its place is. -/
theorem count_take {leaves : List Node} (hnodup : (leaves.map Node.count).Nodup) (c : ℕ) {k : ℕ}
    (hk : k < leaves.length) :
    ((leaves.take c).map Node.count).count leaves[k].count = if k < c then 1 else 0 := by
  have hnodup' : ((leaves.take c).map Node.count).Nodup := by
    rw [List.map_take]
    exact hnodup.sublist (List.take_sublist _ _)
  rw [hnodup'.count]
  refine if_congr ?_ rfl rfl
  rw [List.map_take, List.mem_take_iff_getElem]
  constructor
  · rintro ⟨j, hj, heq⟩
    simp only [List.length_map, lt_min_iff] at hj
    have hj' : j < (leaves.map Node.count).length := by simpa using hj.2
    have hk' : k < (leaves.map Node.count).length := by simpa using hk
    have hsame : (leaves.map Node.count)[j] = (leaves.map Node.count)[k] := by simpa using heq
    obtain rfl : j = k := hnodup.getElem_inj_iff.1 hsame
    exact hj.1
  · intro hc
    exact ⟨k, by simpa using ⟨hc, hk⟩, by simp⟩

/-- **The length of a leaf's symbol is the number of lists the leaf is counted in.** -/
theorem len_extract_leaf {leaves : List Node} (hnodup : (leaves.map Node.count).Nodup) (c : Chain)
    {n k : ℕ} (hk : k < leaves.length) (hs : leaves[k].count < n) :
    len (extractBitLengths leaves c (List.replicate n 0)) leaves[k].count = c.depth k := by
  rw [len_extractBitLengths leaves c _ (by simpa using hs), len_replicate_zero, Nat.zero_add]
  induction c with
  | nil => rfl
  | cons x t ih =>
    rw [List.map_cons, List.sum_cons, ih, count_take hnodup x.count hk, Chain.depth, Chain.depth,
      List.countP_cons]
    simp only [decide_eq_true_eq]
    omega

/-- A symbol that is not used has no codeword. -/
theorem len_extract_other {leaves : List Node} (c : Chain) (n : ℕ) {s : ℕ}
    (hs : s ∉ leaves.map Node.count) :
    len (extractBitLengths leaves c (List.replicate n 0)) s = 0 := by
  obtain hlt | hge := lt_or_ge s n
  · rw [len_extractBitLengths leaves c _ (by simpa using hlt), len_replicate_zero, Nat.zero_add]
    refine List.sum_eq_zero fun x hx ↦ ?_
    obtain ⟨y, -, rfl⟩ := List.mem_map.1 hx
    refine List.count_eq_zero_of_not_mem fun hmem ↦ ?_
    obtain ⟨leaf, hleaf, rfl⟩ := List.mem_map.1 hmem
    exact hs (List.mem_map_of_mem (List.mem_of_mem_take hleaf))
  · rw [len, List.getD_eq_default]
    rwa [length_extractBitLengths, List.length_replicate]

/-! ### One step of a list -/

/-- The leaves are sorted from the lightest to the heaviest, and every leaf weighs something. -/
structure Sorted (leaves : List Node) : Prop where
  mono : ∀ {i j : ℕ}, i ≤ j → j < leaves.length → leafWeight leaves i ≤ leafWeight leaves j
  pos : ∀ {i : ℕ}, i < leaves.length → 0 < leafWeight leaves i

section Step

variable (leaves : List Node)

/-- What the two chains of a list say about the leaves: the weights do not decrease, the leaves
counted are not heavier, and the next leaf is not lighter. -/
structure Level (lookahead chain : Chain) : Prop where
  low_pos : 0 < lookahead.weight
  le : lookahead.weight ≤ chain.weight
  count_pos : 0 < chain.count
  count_le : chain.count ≤ leaves.length
  counted : ∀ {k : ℕ}, k < chain.count → leafWeight leaves k ≤ chain.weight
  next : chain.count < leaves.length → chain.weight ≤ leafWeight leaves chain.count
  falling : chain.Falling

/-- A list that can grow no more: every leaf is counted, and the list below is exhausted and has no
two chains left to package. -/
def Dead : Lists → Prop
  | [] => True
  | [(_, b)] => b.count = leaves.length
  | (_, b) :: (a', b') :: below =>
    b.count = leaves.length ∧ Dead ((a', b') :: below) ∧ Chain.size b.tail / 2 = b'.size / 2

/-- The invariant of the lists: two new chains below every list, unless the list below is
exhausted. -/
def Inv : Lists → Prop
  | [] => False
  | [(a, b)] => Level leaves a b ∧ b.length = 1
  | (a, b) :: (a', b') :: below =>
    Level leaves a b ∧ b.length ≤ below.length + 2 ∧ b.weight ≤ a'.weight + b'.weight ∧
      (Even b'.size ∧ b'.size = Chain.size b.tail + 2 ∧ b'.Exact ∨
        Dead leaves ((a', b') :: below) ∧ Chain.size b.tail / 2 = b'.size / 2) ∧
      (¬Dead leaves ((a, b) :: (a', b') :: below) → b.Exact) ∧ Inv ((a', b') :: below)

/-- What a step of a list does: its two chains move on, and it grows by one unless it is
exhausted. -/
structure Grown (lists lists' : Lists) : Prop where
  inv : Inv leaves lists'
  length_eq : lists'.length = lists.length
  low : (lists.headD ([], [])).1.weight ≤ (lists'.headD ([], [])).1.weight
  high : (lastChain lists).weight ≤ (lastChain lists').weight
  size : Dead leaves lists ∧ Dead leaves lists' ∧
      (lastChain lists').size = (lastChain lists).size ∨
    ¬Dead leaves lists ∧ (lastChain lists').size = (lastChain lists).size + 1 ∧
      (lastChain lists').Exact

variable {leaves}

theorem Inv.level {a b : Chain} {below : Lists} (h : Inv leaves ((a, b) :: below)) :
    Level leaves a b := by
  cases below with
  | nil => exact h.1
  | cons p below => exact h.1

/-- A chain counts something, so it has a first node. -/
theorem Level.eq_cons {a b : Chain} (h : Level leaves a b) : ∃ n t, b = n :: t := by
  cases b with
  | nil => exact absurd h.count_pos (lt_irrefl 0)
  | cons n t => exact ⟨n, t, rfl⟩

/-- A leaf moves a list on. -/
theorem Level.leaf (hs : Sorted leaves) {a b : Chain} (h : Level leaves a b)
    (hlt : b.count < leaves.length) (t : Chain) (ht : t <:+ b.tail) :
    Level leaves b (⟨leafWeight leaves b.count, b.count + 1⟩ :: t) where
  low_pos := h.low_pos.trans_le h.le
  le := h.next hlt
  count_pos := Nat.succ_pos _
  count_le := hlt
  counted := fun hk ↦ hs.mono (Nat.le_of_lt_succ hk) hlt
  next := fun hlt' ↦ hs.mono (Nat.le_succ _) hlt'
  falling := by
    obtain ⟨n, t', rfl⟩ := h.eq_cons
    have hfall := List.pairwise_cons.1 h.falling
    refine List.pairwise_cons.2 ⟨fun y hy ↦ ?_, hfall.2.sublist ht.sublist⟩
    exact (hfall.1 y (ht.mem hy)).trans (Nat.le_succ _)

/-- A package moves a list on. -/
theorem Level.package {a b a' b' : Chain} (h : Level leaves a b)
    (h' : Level leaves a' b') (hsum : b.weight ≤ a'.weight + b'.weight)
    (hno : ¬(b.count < leaves.length ∧ a'.weight + b'.weight > leafWeight leaves b.count)) :
    Level leaves b (⟨a'.weight + b'.weight, b.count⟩ :: b') where
  low_pos := h.low_pos.trans_le h.le
  le := hsum
  count_pos := h.count_pos
  count_le := h.count_le
  counted := fun hk ↦ (h.counted hk).trans hsum
  next := fun hlt ↦ not_lt.1 fun hgt ↦ hno ⟨hlt, hgt⟩
  falling := by
    -- a leaf counted below and not here would have come before the package
    have hcount : b'.count ≤ b.count := by
      by_contra hlt
      rw [not_le] at hlt
      have hleaf : leafWeight leaves b.count ≤ b'.weight := h'.counted hlt
      exact hno ⟨hlt.trans_le h'.count_le, by have := h'.low_pos; omega⟩
    obtain ⟨n, t, rfl⟩ := h'.eq_cons
    have hfall := List.pairwise_cons.1 h'.falling
    refine List.pairwise_cons.2 ⟨fun y hy ↦ ?_, h'.falling⟩
    obtain rfl | hy := List.mem_cons.1 hy
    · exact hcount
    · exact (hfall.1 y hy).trans hcount

theorem Inv.length_le {a b : Chain} {below : Lists} (h : Inv leaves ((a, b) :: below)) :
    b.length ≤ below.length + 1 := by
  cases below with
  | nil => exact h.2.le
  | cons p below => exact h.2.1

theorem Dead.count_eq {a b : Chain} {below : Lists} (h : Dead leaves ((a, b) :: below)) :
    b.count = leaves.length := by
  cases below with
  | nil => exact h
  | cons p below => exact h.1

/-- Two steps of the list below a package: two new chains, or the list is exhausted. -/
theorem Grown.twice {lists lists₁ lists₂ : Lists} {n : ℕ} (h₁ : Grown leaves lists lists₁)
    (h₂ : Grown leaves lists₁ lists₂) (hn : (lastChain lists).size = n) (heven : Even n) :
    Even (lastChain lists₂).size ∧ (lastChain lists₂).size = n + 2 ∧ (lastChain lists₂).Exact ∨
      Dead leaves lists₂ ∧ n / 2 = (lastChain lists₂).size / 2 := by
  subst hn
  obtain ⟨-, hdead, hsize⟩ | ⟨-, hsize, -⟩ := h₁.size
  · obtain ⟨-, hdead', hsize'⟩ | ⟨hno, -, -⟩ := h₂.size
    · exact .inr ⟨hdead', by rw [hsize', hsize]⟩
    · exact absurd hdead hno
  · obtain ⟨-, hdead', hsize'⟩ | ⟨-, hsize', hexact⟩ := h₂.size
    · obtain ⟨half, hhalf⟩ := heven
      exact .inr ⟨hdead', by omega⟩
    · refine .inl ⟨?_, by omega, hexact⟩
      rw [hsize', hsize, Nat.even_add_one, Nat.even_add_one, not_not]
      exact heven

/-- The first list takes the leaves one by one. -/
theorem Inv.grown_first (hs : Sorted leaves) {a b : Chain} (h : Inv leaves [(a, b)]) :
    Grown leaves [(a, b)] (boundaryPM .exact leaves 0 false [(a, b)]) := by
  obtain ⟨hlevel, hone⟩ := h
  obtain ⟨n, rfl⟩ := List.length_eq_one_iff.1 hone
  rw [Zopfli.boundaryPM]
  split
  · rename_i hge
    have hdead : Dead leaves [(a, [n])] := le_antisymm hlevel.count_le hge
    exact ⟨⟨hlevel, hone⟩, rfl, le_rfl, le_rfl, .inl ⟨hdead, hdead, rfl⟩⟩
  · rename_i hlt
    rw [not_le] at hlt
    have hlevel' := hlevel.leaf hs hlt [] (List.nil_suffix)
    refine ⟨⟨hlevel', rfl⟩, rfl, hlevel.le, hlevel'.le, .inr ⟨fun hdead ↦ ?_, rfl, ?_⟩⟩
    · exact hlt.ne hdead
    · exact ⟨⟨0, rfl⟩, trivial⟩

section Above

variable {a b a' b' : Chain} {below : Lists} (h : Inv leaves ((a, b) :: (a', b') :: below))

include h

/-- A leaf makes a list grow. -/
theorem Inv.grown_leaf (hs : Sorted leaves) (hlt : b.count < leaves.length)
    (hgt : a'.weight + b'.weight > leafWeight leaves b.count) :
    Grown leaves ((a, b) :: (a', b') :: below)
      ((b, ⟨leafWeight leaves b.count, b.count + 1⟩ :: b.tail) :: (a', b') :: below) := by
  obtain ⟨hlevel, hlength, hsum, hlink, hexact, hbelow⟩ := h
  have halive : ¬Dead leaves ((a, b) :: (a', b') :: below) := fun hdead ↦ hlt.ne hdead.1
  have hlevel' := hlevel.leaf hs hlt b.tail List.suffix_rfl
  obtain ⟨n, t, rfl⟩ := hlevel.eq_cons
  have hexact' : Chain.Exact (⟨leafWeight leaves (Chain.count (n :: t)),
      Chain.count (n :: t) + 1⟩ :: t) := hexact halive
  refine ⟨⟨hlevel', hlength, hgt.le, hlink, fun _ ↦ hexact', hbelow⟩, rfl, hlevel.le, hlevel'.le,
    .inr ⟨halive, ?_, hexact'⟩⟩
  show Chain.count (n :: t) + 1 + Chain.size t / 2 = n.count + Chain.size t / 2 + 1
  have hcount : Chain.count (n :: t) = n.count := rfl
  omega

variable {a₂ b₂ : Chain} {below₂ lists : Lists} (hgrown₁ : Grown leaves ((a', b') :: below) lists)
  (hgrown₂ : Grown leaves lists ((a₂, b₂) :: below₂))
  (hno : ¬(b.count < leaves.length ∧ a'.weight + b'.weight > leafWeight leaves b.count))

include hgrown₁ hgrown₂

/-- Behind a package there are two later chains below, which are no lighter. -/
theorem Inv.replaced : b'.length + 1 ≤ below₂.length + 2 ∧
    a'.weight + b'.weight ≤ a₂.weight + b₂.weight ∧ below₂.length = below.length := by
  have hlen : below₂.length + 1 = below.length + 1 :=
    hgrown₂.length_eq.trans hgrown₁.length_eq
  have hlength := h.2.2.2.2.2.length_le
  exact ⟨by omega, Nat.add_le_add (hgrown₁.low.trans hgrown₂.low) (hgrown₁.high.trans hgrown₂.high),
    Nat.succ_injective hlen⟩

include hno

/-- A package of two new chains makes a list grow. -/
theorem Inv.grown_package (heven : Even b'.size) (hsize : b'.size = Chain.size b.tail + 2)
    (hexact' : b'.Exact) :
    Grown leaves ((a, b) :: (a', b') :: below)
      ((b, ⟨a'.weight + b'.weight, b.count⟩ :: b') :: (a₂, b₂) :: below₂) := by
  obtain ⟨hlength, hweight, hbelow₂⟩ := h.replaced hgrown₁ hgrown₂
  obtain ⟨hlevel, -, hsum, -, -, hbelow⟩ := h
  have hlevel' := hlevel.package hbelow.level hsum hno
  have halive : ¬Dead leaves ((a, b) :: (a', b') :: below) := by
    rintro ⟨-, -, hhalf⟩
    omega
  refine ⟨⟨hlevel', hlength, hweight,
    hgrown₁.twice hgrown₂ (show _ = b'.size from rfl) heven, fun _ ↦ ⟨heven, hexact'⟩,
    hgrown₂.inv⟩, by simp [hbelow₂], hlevel.le, hsum, .inr ⟨halive, ?_, heven, hexact'⟩⟩
  show b.count + b'.size / 2 = b.size + 1
  have := b.size_eq
  omega

/-- A package of two old chains, the list below being exhausted: this one is, too. -/
theorem Inv.grown_dead (hdead' : Dead leaves ((a', b') :: below))
    (hhalf : Chain.size b.tail / 2 = b'.size / 2) :
    Grown leaves ((a, b) :: (a', b') :: below)
      ((b, ⟨a'.weight + b'.weight, b.count⟩ :: b') :: (a₂, b₂) :: below₂) := by
  obtain ⟨hlength, hweight, hbelow₂⟩ := h.replaced hgrown₁ hgrown₂
  obtain ⟨hlevel, -, hsum, -, -, hbelow⟩ := h
  have hlevel' := hlevel.package hbelow.level hsum hno
  -- a leaf that is left would be lighter than the package
  have hall : b.count = leaves.length := by
    refine le_antisymm hlevel.count_le (not_lt.1 fun hlt ↦ hno ⟨hlt, ?_⟩)
    have hleaf := hbelow.level.counted (hdead'.count_eq ▸ hlt)
    have := hbelow.level.low_pos
    omega
  have hdead : Dead leaves ((a, b) :: (a', b') :: below) := ⟨hall, hdead', hhalf⟩
  obtain ⟨-, hdead₁, hsize₁⟩ | ⟨hno₁, -, -⟩ := hgrown₁.size
  · obtain ⟨-, hdead₂, hsize₂⟩ | ⟨hno₂, -, -⟩ := hgrown₂.size
    · have hsame : b'.size / 2 = b₂.size / 2 := congrArg (· / 2) (hsize₂.trans hsize₁).symm
      have hdead'' : Dead leaves ((b, ⟨a'.weight + b'.weight, b.count⟩ :: b') ::
          (a₂, b₂) :: below₂) := ⟨hall, hdead₂, hsame⟩
      refine ⟨⟨hlevel', hlength, hweight, .inr ⟨hdead₂, hsame⟩,
        fun halive ↦ absurd hdead'' halive, hgrown₂.inv⟩, by simp [hbelow₂], hlevel.le, hsum,
        .inl ⟨hdead, hdead'', ?_⟩⟩
      show b.count + b'.size / 2 = b.size
      have := b.size_eq
      omega
    · exact absurd hdead₁ hno₂
  · exact absurd hdead' hno₁

end Above

/-- **A step of a list keeps the invariant, and the list grows by one until it is exhausted.** -/
theorem Inv.boundaryPM (hs : Sorted leaves) {index : ℕ} : ∀ {lists : Lists},
    lists.length = index + 1 → Inv leaves lists →
      Grown leaves lists (boundaryPM .exact leaves index false lists) := by
  induction index with
  | zero =>
    intro lists hlen h
    obtain ⟨⟨a, b⟩, rfl⟩ := List.length_eq_one_iff.1 hlen
    exact h.grown_first hs
  | succ index ih =>
    intro lists hlen h
    obtain ⟨⟨a, b⟩, ⟨a', b'⟩, below, rfl⟩ : ∃ p q below, lists = p :: q :: below := by
      match lists, hlen with
      | p :: q :: below, _ => exact ⟨p, q, below, rfl⟩
    have hgrown₁ := ih (by simpa using hlen) h.2.2.2.2.2
    have hgrown₂ := ih (hgrown₁.length_eq.trans (by simpa using hlen)) hgrown₁.inv
    rw [Zopfli.boundaryPM, exact_add]
    split
    · rename_i hleaf
      exact h.grown_leaf hs hleaf.1 hleaf.2
    · rename_i hno
      simp only [Bool.false_eq_true, if_false]
      generalize Zopfli.boundaryPM .exact leaves index false
        (Zopfli.boundaryPM .exact leaves index false ((a', b') :: below)) = lists₂ at hgrown₂ ⊢
      match lists₂, hgrown₂.length_eq.trans hgrown₁.length_eq with
      | (a₂, b₂) :: below₂, _ =>
        -- two new chains below, or none
        obtain ⟨heven, hsize, hexact⟩ | ⟨hdead, hhalf⟩ := h.2.2.2.1
        · exact h.grown_package hgrown₁ hgrown₂ hno heven hsize hexact
        · exact h.grown_dead hgrown₁ hgrown₂ hno hdead hhalf

/-! ### All the steps -/

/-- **An exhausted list is long**: it misses less than `n / 2 ^ j + 1` of the `2 * n` chains, `j`
lists being below it. -/
theorem size_of_dead {a b : Chain} {below : Lists} (h : Dead leaves ((a, b) :: below)) :
    2 * leaves.length * 2 ^ below.length <
      b.size * 2 ^ below.length + 2 ^ below.length + leaves.length := by
  have hcount := h.count_eq
  rw [b.size_eq, hcount]
  induction below generalizing a b with
  | nil =>
    simp only [List.length_nil, pow_zero]
    omega
  | cons p below ih =>
    obtain ⟨a', b'⟩ := p
    obtain ⟨-, hdead', hhalf⟩ := h
    have hbelow := ih hdead' hdead'.count_eq
    rw [hhalf]
    have hb' := b'.size_eq
    rw [hdead'.count_eq] at hb'
    rw [← hb'] at hbelow
    have hfloor : b'.size * 2 ^ below.length ≤
        2 * (b'.size / 2) * 2 ^ below.length + 2 ^ below.length := by
      calc b'.size * 2 ^ below.length
          ≤ (2 * (b'.size / 2) + 1) * 2 ^ below.length := Nat.mul_le_mul_right _ (by omega)
        _ = 2 * (b'.size / 2) * 2 ^ below.length + 2 ^ below.length := by ring
    rw [List.length_cons, pow_succ]
    nlinarith

/-- Whether a step is the last one does not change the chains of its own list. -/
theorem lastChain_final (index : ℕ) (final : Bool) (lists : Lists) :
    lastChain (boundaryPM .exact leaves index final lists) =
      lastChain (boundaryPM .exact leaves index false lists) := by
  match index, lists with
  | 0, [] => rfl
  | 0, _ :: _ => rfl
  | _ + 1, [] => rfl
  | _ + 1, [_] => rfl
  | index + 1, (a, b) :: (a', b') :: below =>
    rw [boundaryPM, boundaryPM]
    split <;> rfl

/-- What the lists are after some steps. -/
structure After (leaves : List Node) (maxbits n : ℕ) (lists : Lists) : Prop where
  inv : Inv leaves lists
  length_eq : lists.length = maxbits
  size_eq : (lastChain lists).size = n
  exact : (lastChain lists).Exact

/-- Two chains are in each list at first. -/
theorem after_initLists (hs : Sorted leaves) (h2 : 2 ≤ leaves.length) {maxbits : ℕ}
    (hm : 0 < maxbits) : After leaves maxbits 2 (initLists leaves maxbits) := by
  have hlevel : Level leaves [⟨leafWeight leaves 0, 1⟩] [⟨leafWeight leaves 1, 2⟩] :=
    { low_pos := hs.pos (by omega)
      le := hs.mono (Nat.zero_le 1) (by omega)
      count_pos := Nat.two_pos
      count_le := h2
      counted := fun hk ↦ hs.mono (Nat.le_of_lt_succ hk) (by omega)
      next := fun hlt ↦ hs.mono one_le_two hlt
      falling := List.pairwise_singleton _ _ }
  obtain ⟨m, rfl⟩ : ∃ m, maxbits = m + 1 := ⟨maxbits - 1, by omega⟩
  refine ⟨?_, by simp [initLists], rfl, ⟨⟨0, rfl⟩, trivial⟩⟩
  unfold initLists
  induction m with
  | zero => exact ⟨hlevel, rfl⟩
  | succ m ih =>
    have hfresh : Even (Chain.size [⟨leafWeight leaves 1, 2⟩]) := ⟨1, rfl⟩
    exact ⟨hlevel, by simp, Nat.le_add_left _ _, .inl ⟨hfresh, rfl, ⟨⟨0, rfl⟩, trivial⟩⟩,
      fun _ ↦ ⟨⟨0, rfl⟩, trivial⟩, ih (Nat.succ_pos m)⟩

/-- **A step of the last list makes it grow**, as long as it is short of `2 * n - 2`. -/
theorem After.boundaryPM (hs : Sorted leaves) {maxbits n : ℕ} {lists : Lists}
    (h : After leaves maxbits n lists) (hm : 0 < maxbits) (hfew : leaves.length ≤ 2 ^ maxbits)
    (hn : n + 2 < 2 * leaves.length) :
    After leaves maxbits (n + 1) (boundaryPM .exact leaves (maxbits - 1) false lists) := by
  have hgrown := h.inv.boundaryPM hs (show lists.length = maxbits - 1 + 1 by
    rw [h.length_eq]
    omega)
  obtain ⟨hdead, -, -⟩ | ⟨-, hsize, hexact⟩ := hgrown.size
  · obtain ⟨⟨a, b⟩, below, rfl⟩ : ∃ p below, lists = p :: below := by
      match lists, h.length_eq with
      | p :: below, _ => exact ⟨p, below, rfl⟩
    have hlong := size_of_dead hdead
    have hsize : b.size = n := h.size_eq
    have hlen : below.length + 1 = maxbits := h.length_eq
    rw [hsize] at hlong
    rw [← hlen, pow_succ] at hfew
    have hroom : 2 * leaves.length * 2 ^ below.length < (n + 3) * 2 ^ below.length := by linarith
    have := Nat.lt_of_mul_lt_mul_right hroom
    omega
  · exact ⟨hgrown.inv, hgrown.length_eq.trans h.length_eq, hsize.trans (by rw [h.size_eq]), hexact⟩

/-- The last chain: as long as a code needs, and no deeper than there are lists. -/
structure Chain.Final (leaves : List Node) (maxbits : ℕ) (c : Chain) : Prop where
  falling : c.Falling
  exact : c.Exact
  count_le : c.count ≤ leaves.length
  length_le : c.length ≤ maxbits
  size_eq : c.size + 2 = 2 * leaves.length

theorem After.final {maxbits n : ℕ} {lists : Lists} (h : After leaves maxbits n lists)
    (hn : n + 2 = 2 * leaves.length) : (lastChain lists).Final leaves maxbits := by
  obtain ⟨hinv, hlen, hsize, hexact⟩ := h
  match lists, hinv with
  | (a, b) :: below, hinv =>
    exact ⟨hinv.level.falling, hexact, hinv.level.count_le, hlen ▸ hinv.length_le, by
      rw [hsize, hn]⟩

/-- **The runs of `BoundaryPM` end with the chain of a code.** -/
theorem final_boundaryPMRuns (hs : Sorted leaves) (h2 : 2 ≤ leaves.length) {maxbits : ℕ}
    (hm : 0 < maxbits) (hfew : leaves.length ≤ 2 ^ maxbits) :
    (lastChain (boundaryPMRuns .exact leaves maxbits)).Final leaves maxbits := by
  obtain ⟨runs, hruns⟩ : ∃ runs, runs = 2 * leaves.length - 4 := ⟨_, rfl⟩
  have hsteps : ∀ k, k + 1 ≤ runs → After leaves maxbits (k + 2)
      ((List.range k).foldl
        (fun lists i ↦ Zopfli.boundaryPM .exact leaves (maxbits - 1) (i = runs - 1) lists)
        (initLists leaves maxbits)) := by
    intro k hk
    induction k with
    | zero => exact after_initLists hs h2 hm
    | succ k ih =>
      have hfinal : decide (k = runs - 1) = false := decide_eq_false (by omega)
      rw [List.range_succ, List.foldl_append, List.foldl_cons, List.foldl_nil, hfinal]
      exact (ih (by omega)).boundaryPM hs hm hfew (by omega)
  rw [boundaryPMRuns, ← hruns]
  obtain rfl | hpos := Nat.eq_zero_or_pos runs
  · exact (after_initLists hs h2 hm).final (by omega)
  · obtain ⟨k, rfl⟩ : ∃ k, runs = k + 1 := ⟨runs - 1, by omega⟩
    have hlast := (hsteps _ le_rfl).boundaryPM hs hm hfew (by omega)
    have hfinal := hlast.final (by omega)
    simp only [List.range_succ, List.foldl_append, List.foldl_cons, List.foldl_nil]
    rwa [lastChain_final]

end Step

/-! ### The leaves -/

theorem leavesOf_eq (f : List ℕ) :
    leavesOf f = ((List.range f.length).filter fun i ↦ len f i ≠ 0).map fun i ↦ ⟨len f i, i⟩ := by
  have hzip : f.zipIdx = (List.range f.length).map fun i ↦ (len f i, i) := by
    refine List.ext_getElem (by simp) fun i h₁ h₂ ↦ ?_
    have hi : i < f.length := by simpa using h₁
    simp [len, hi]
  rw [leavesOf, hzip, List.filter_map, List.map_map]
  rfl

theorem map_count_leavesOf (f : List ℕ) :
    (leavesOf f).map Node.count = (List.range f.length).filter fun i ↦ len f i ≠ 0 := by
  rw [leavesOf_eq, List.map_map]
  exact List.map_id _

theorem nodup_leavesOf (f : List ℕ) : ((leavesOf f).map Node.count).Nodup := by
  rw [map_count_leavesOf]
  exact List.nodup_range.filter _

/-- The leaves are those of the used symbols. -/
theorem toFinset_leavesOf (f : List ℕ) : ((leavesOf f).map Node.count).toFinset = used f := by
  ext s
  simp [map_count_leavesOf, used, Nat.pos_iff_ne_zero]

theorem length_leavesOf (f : List ℕ) : (leavesOf f).length = (used f).card := by
  rw [← toFinset_leavesOf, List.toFinset_card_of_nodup (nodup_leavesOf f), List.length_map]

theorem weight_pos_of_mem {f : List ℕ} {x : Node} (hx : x ∈ leavesOf f) : 0 < x.weight := by
  rw [leavesOf_eq] at hx
  obtain ⟨i, hi, rfl⟩ := List.mem_map.1 hx
  simpa [Nat.pos_iff_ne_zero] using (List.mem_filter.1 hi).2

/-- Sorted leaves. -/
theorem sorted_mergeSort (f : List ℕ) :
    Sorted ((leavesOf f).mergeSort Arithmetic.exact.comparator) := by
  have hpairwise : ((leavesOf f).mergeSort Arithmetic.exact.comparator).Pairwise
      fun a b ↦ Arithmetic.exact.comparator a b = true :=
    List.pairwise_mergeSort
      (fun a b c hab hbc ↦ by simp only [Arithmetic.exact, decide_eq_true_eq] at *; omega)
      (fun a b ↦ by simp only [Arithmetic.exact, Bool.or_eq_true, decide_eq_true_eq]; omega) _
  refine ⟨fun {i j} hij hj ↦ ?_, fun {i} hi ↦ ?_⟩
  · rw [leafWeight, leafWeight, List.getD_eq_getElem _ _ (hij.trans_lt hj),
      List.getD_eq_getElem _ _ hj]
    obtain rfl | hlt := hij.eq_or_lt
    · exact le_rfl
    · have := List.pairwise_iff_getElem.1 hpairwise i j (hij.trans_lt hj) hj hlt
      simpa [Arithmetic.exact] using this
  · rw [leafWeight, List.getD_eq_getElem _ _ hi]
    exact weight_pos_of_mem (List.mem_mergeSort.1 (List.getElem_mem hi))

/-! ### The lengths of the codewords -/

/-- Lengths for the used symbols, and for no others, no longer than `maxbits`. Two symbols or more
take the whole room, and a single one has a codeword of one bit. -/
structure CodeLengths (frequencies : List ℕ) (maxbits : ℕ) (l : List ℕ) : Prop where
  length_eq : l.length = frequencies.length
  pos_iff : ∀ s, 0 < len l s ↔ 0 < len frequencies s
  le : ∀ n ∈ l, n ≤ maxbits
  complete : 2 ≤ (used frequencies).card → PrefixCode.Complete l maxbits
  single : (used frequencies).card = 1 → Single l maxbits

/-- A list of leaves, as numbered. -/
theorem sum_leaves (leaves : List Node) (g : ℕ → ℕ) :
    ((leaves.map Node.count).map g).sum =
      ∑ k ∈ Finset.range leaves.length, g (leaves.getD k ⟨0, 0⟩).count := by
  have hlist : leaves = (List.range leaves.length).map fun k ↦ leaves.getD k ⟨0, 0⟩ := by
    refine List.ext_getElem (by simp) fun i h₁ h₂ ↦ ?_
    simp [h₁]
  conv_lhs => rw [hlist]
  rw [List.map_map, List.map_map]
  rfl

/-- The symbol of a leaf has a place. -/
theorem exists_leaf {leaves : List Node} {s : ℕ} (hs : s ∈ leaves.map Node.count) :
    ∃ k < leaves.length, s = (leaves.getD k ⟨0, 0⟩).count := by
  obtain ⟨k, hk, rfl⟩ := List.mem_iff_getElem.1 hs
  have hk' : k < leaves.length := by simpa using hk
  exact ⟨k, hk', by rw [List.getD_eq_getElem _ _ hk', List.getElem_map]⟩

/-- The codewords of all leaves, those that no list counts included, take the whole room. -/
theorem Chain.Final.room {leaves : List Node} {maxbits : ℕ} {c : Chain}
    (hc : c.Final leaves maxbits) :
    ∑ k ∈ Finset.range leaves.length, 2 ^ (maxbits - c.depth k) = 2 ^ maxbits := by
  have hsum := kraft_add_size hc.falling hc.exact hc.length_le hc.count_le
  rw [← hc.size_eq] at hsum
  linarith

/-- So every leaf is counted. -/
theorem Chain.Final.depth_pos {leaves : List Node} {maxbits : ℕ} {c : Chain}
    (hc : c.Final leaves maxbits) (h2 : 2 ≤ leaves.length) {k : ℕ} (hk : k < leaves.length) :
    0 < c.depth k := by
  by_contra hzero
  have hall : 2 ^ (maxbits - c.depth k) = 2 ^ maxbits := by
    rw [Nat.eq_zero_of_not_pos hzero, Nat.sub_zero]
  obtain ⟨j, hj, hne⟩ : ∃ j < leaves.length, j ≠ k := by
    obtain rfl | hk0 := Nat.eq_zero_or_pos k
    · exact ⟨1, h2, one_ne_zero⟩
    · exact ⟨0, hk0.trans hk, hk0.ne⟩
  have hboth : 2 ^ (maxbits - c.depth j) + 2 ^ (maxbits - c.depth k) ≤ 2 ^ maxbits := by
    rw [← hc.room, ← Finset.sum_pair (f := fun k ↦ 2 ^ (maxbits - c.depth k)) hne]
    refine Finset.sum_le_sum_of_subset fun i hi ↦ ?_
    obtain rfl | hi := Finset.mem_insert.1 hi
    · exact Finset.mem_range.2 hj
    · exact Finset.mem_range.2 (Finset.mem_singleton.1 hi ▸ hk)
  have : 0 < 2 ^ (maxbits - c.depth j) := by positivity
  omega

/-- **The chain of a code gives the lengths of a complete code.** -/
theorem codeLengths_of_final {f : List ℕ} {maxbits : ℕ} {leaves : List Node}
    (hperm : leaves.Perm (leavesOf f)) (h2 : 2 ≤ leaves.length) {c : Chain}
    (hc : c.Final leaves maxbits) :
    CodeLengths f maxbits (extractBitLengths leaves c (List.replicate f.length 0)) := by
  set l := extractBitLengths leaves c (List.replicate f.length 0) with hl
  have hnodup : (leaves.map Node.count).Nodup :=
    (hperm.map Node.count).nodup_iff.2 (nodup_leavesOf f)
  have hsymbols : (leaves.map Node.count).toFinset = used f := by
    rw [← toFinset_leavesOf]
    exact List.toFinset_eq_of_perm _ _ (hperm.map Node.count)
  have hdepth : ∀ k, k < leaves.length → len l (leaves.getD k ⟨0, 0⟩).count = c.depth k := by
    intro k hk
    rw [List.getD_eq_getElem _ _ hk]
    refine len_extract_leaf hnodup c hk ?_
    have hmem : leaves[k].count ∈ used f := by
      rw [← hsymbols]
      exact List.mem_toFinset.2 (List.mem_map_of_mem (List.getElem_mem hk))
    exact lt_length_of_used (mem_used.1 hmem)
  have hiff : ∀ s, 0 < len l s ↔ 0 < len f s := by
    intro s
    rw [← mem_used (l := f), ← hsymbols, List.mem_toFinset]
    constructor
    · intro h
      by_contra hs
      rw [hl, len_extract_other c f.length hs] at h
      exact lt_irrefl 0 h
    · intro hs
      obtain ⟨k, hk, rfl⟩ := exists_leaf hs
      rw [hdepth k hk]
      exact hc.depth_pos h2 hk
  have hle : ∀ n ∈ l, n ≤ maxbits := by
    intro n hn
    obtain ⟨s, hs, rfl⟩ := List.mem_iff_getElem.1 hn
    rw [← List.getD_eq_getElem l 0 hs]
    change len l s ≤ maxbits
    obtain hmem | hmem := Decidable.em (s ∈ leaves.map Node.count)
    · obtain ⟨k, hk, rfl⟩ := exists_leaf hmem
      rw [hdepth k hk]
      exact (c.depth_le k).trans hc.length_le
    · rw [hl, len_extract_other c f.length hmem]
      exact Nat.zero_le _
  have hlength : l.length = f.length := by
    rw [hl, length_extractBitLengths, List.length_replicate]
  refine ⟨hlength, hiff, hle, fun _ ↦ ⟨hle, ?_⟩, fun hone ↦ ?_⟩
  · rw [kraft, used_congr hiff, ← hsymbols, List.sum_toFinset _ hnodup, sum_leaves, ← hc.room]
    exact Finset.sum_congr rfl fun k hk ↦ by rw [hdepth k (Finset.mem_range.1 hk)]
  · rw [← length_leavesOf, ← hperm.length_eq] at hone
    omega

/-- A single symbol. -/
theorem codeLengths_single {f : List ℕ} {maxbits : ℕ} (hm : 0 < maxbits)
    (hone : (leavesOf f).length = 1) : CodeLengths f maxbits
      ((List.replicate f.length 0).set ((leavesOf f).headD ⟨0, 0⟩).count 1) := by
  obtain ⟨x, hx⟩ := List.length_eq_one_iff.1 hone
  have hused : used f = {x.count} := by
    rw [← toFinset_leavesOf, hx]
    rfl
  have hlt : x.count < f.length := by
    have : x.count ∈ used f := by rw [hused, Finset.mem_singleton]
    exact lt_length_of_used (mem_used.1 this)
  rw [hx, List.headD_cons]
  set l := (List.replicate f.length 0).set x.count 1 with hl
  have hlen : ∀ s, len l s = if s = x.count then 1 else 0 := by
    intro s
    obtain rfl | hne := eq_or_ne s x.count
    · rw [if_pos rfl, len, hl, List.getD_eq_getElem _ _ (by simpa using hlt),
        List.getElem_set_self]
    · rw [if_neg hne, len, hl, List.getD_eq_getElem?_getD, List.getElem?_set_ne hne.symm,
        List.getElem?_replicate]
      split <;> rfl
  have hiff : ∀ s, 0 < len l s ↔ 0 < len f s := by
    intro s
    rw [← mem_used (l := f), hused, Finset.mem_singleton, hlen]
    split <;> simp_all
  have hle : ∀ n ∈ l, n ≤ maxbits := by
    intro n hn
    obtain hn | rfl := List.mem_or_eq_of_mem_set hn
    · rw [List.eq_of_mem_replicate hn]
      exact Nat.zero_le _
    · exact hm
  have hcard : (used l).card = 1 := by rw [used_congr hiff, hused, Finset.card_singleton]
  refine ⟨by rw [hl, List.length_set, List.length_replicate], hiff, hle, fun h2 ↦ ?_,
    fun _ ↦ ⟨hle, hcard, ?_⟩⟩
  · rw [hused, Finset.card_singleton] at h2
    omega
  · rw [kraft, used_congr hiff, hused, Finset.sum_singleton, hlen, if_pos rfl]

/-- **`ZopfliLengthLimitedCodeLengths` gives a code its lengths**, unless there are more symbols
than codewords of `maxbits` bits. -/
theorem lengthLimitedCodeLengths_spec {f : List ℕ} {maxbits : ℕ} (hm : 0 < maxbits)
    (hfew : (used f).card ≤ 2 ^ maxbits) :
    ∃ l, lengthLimitedCodeLengths .exact f maxbits = some l ∧ CodeLengths f maxbits l := by
  rw [← length_leavesOf] at hfew
  rw [lengthLimitedCodeLengths, if_neg (by rw [Nat.one_shiftLeft]; omega)]
  split
  · rename_i hnone
    have hused : used f = ∅ := by
      rw [← Finset.card_eq_zero, ← length_leavesOf, hnone]
    refine ⟨_, rfl, List.length_replicate, fun s ↦ ?_, fun n hn ↦ ?_, fun h2 ↦ ?_, fun h1 ↦ ?_⟩
    · rw [← mem_used (l := f), hused, len_replicate_zero]
      simp
    · rw [List.eq_of_mem_replicate hn]
      exact Nat.zero_le _
    · rw [hused, Finset.card_empty] at h2
      omega
    · rw [hused, Finset.card_empty] at h1
      omega
  · split
    · rename_i hone
      exact ⟨_, rfl, codeLengths_single hm hone⟩
    · rename_i hsome hmany
      have hperm := List.mergeSort_perm (leavesOf f) Arithmetic.exact.comparator
      have hlength := hperm.length_eq
      refine ⟨_, rfl, codeLengths_of_final hperm (by omega) ?_⟩
      exact final_boundaryPMRuns (sorted_mergeSort f) (by omega) hm (by omega)

/-! ### The arithmetic of the code -/

/-- Weights whose difference is an `int` are compared as they are. -/
theorem leafComparator_eq {a b : Node} (ha : a.weight < 2 ^ 31) (hb : b.weight < 2 ^ 31) :
    leafComparator a b = Arithmetic.exact.comparator a b := by
  refine decide_eq_decide.2 ?_
  rw [Bytes.int32, Int.bmod_def]
  omega

-- a heavy leaf before a light one
example : leafComparator ⟨2 ^ 31 + 1, 0⟩ ⟨1, 1⟩ = true := by decide

/-- The weights of a list are at most those of `2 ^ j` leaves, `j` lists being below it. -/
def Light (W : ℕ) : Lists → Prop
  | [] => True
  | (a, b) :: below =>
    a.weight ≤ 2 ^ below.length * W ∧ b.weight ≤ 2 ^ below.length * W ∧ Light W below

/-- One list more below, and the bound is twice as high. -/
theorem bound_cons (W : ℕ) (list : Chain × Chain) (below : Lists) :
    2 ^ (list :: below).length * W = 2 * (2 ^ below.length * W) := by
  rw [List.length_cons, pow_succ]
  ring

section Light

variable {leaves : List Node} {W : ℕ} (hleaves : ∀ i, leafWeight leaves i ≤ W)

include hleaves

theorem light_initLists (maxbits : ℕ) : Light W (initLists leaves maxbits) := by
  unfold initLists
  induction maxbits with
  | zero => exact trivial
  | succ m ih =>
    have hpow := Nat.le_mul_of_pos_left W (Nat.two_pow_pos (List.replicate m
      ([(⟨leafWeight leaves 0, 1⟩ : Node)], [(⟨leafWeight leaves 1, 2⟩ : Node)])).length)
    exact ⟨(hleaves 0).trans hpow, (hleaves 1).trans hpow, ih⟩

/-- **A step keeps the lists light**, and no sum of it wraps. -/
theorem Light.boundaryPM {index : ℕ} {final : Bool} {lists : Lists} (h : Light W lists)
    (hsize : 2 ^ lists.length * W < 2 ^ 64) :
    boundaryPM .machine leaves index final lists = boundaryPM .exact leaves index final lists ∧
      Light W (boundaryPM .exact leaves index final lists) ∧
      (boundaryPM .exact leaves index final lists).length = lists.length := by
  induction index generalizing final lists with
  | zero =>
    match lists, h with
    | [], _ => exact ⟨rfl, trivial, rfl⟩
    | (a, b) :: below, h =>
      rw [Zopfli.boundaryPM, Zopfli.boundaryPM]
      split
      · exact ⟨rfl, h, rfl⟩
      · have hpow := Nat.le_mul_of_pos_left W (Nat.two_pow_pos below.length)
        exact ⟨rfl, ⟨h.2.1, (hleaves _).trans hpow, h.2.2⟩, rfl⟩
  | succ index ih =>
    match lists, h, hsize with
    | [], _, _ => exact ⟨rfl, trivial, rfl⟩
    | [(a, b)], h, _ => exact ⟨rfl, h, rfl⟩
    | (a, b) :: (a', b') :: below, h, hsize =>
      obtain ⟨-, hb, hbelow⟩ := h
      have hpow := bound_cons W (a', b') below
      have hpow' := bound_cons W (a, b) ((a', b') :: below)
      have hsum : a'.weight + b'.weight ≤ 2 ^ ((a', b') :: below).length * W := by
        have hboth := Nat.add_le_add hbelow.1 hbelow.2.1
        omega
      have hadd : Arithmetic.machine.add a'.weight b'.weight = a'.weight + b'.weight :=
        Nat.mod_eq_of_lt (by omega)
      have hlow : W ≤ 2 ^ ((a', b') :: below).length * W :=
        Nat.le_mul_of_pos_left W (Nat.two_pow_pos _)
      rw [Zopfli.boundaryPM, Zopfli.boundaryPM, hadd, exact_add]
      split
      · exact ⟨rfl, ⟨hb, (hleaves _).trans hlow, hbelow⟩, rfl⟩
      cases final with
      | true => exact ⟨rfl, ⟨hb, hsum, hbelow⟩, rfl⟩
      | false =>
        -- the list below moves on twice
        obtain ⟨heq₁, hlight₁, hlen₁⟩ := @ih false _ hbelow (by omega)
        obtain ⟨heq₂, hlight₂, hlen₂⟩ := @ih false _ hlight₁ (by rw [hlen₁]; omega)
        have hlen := hlen₂.trans hlen₁
        simp only [Bool.false_eq_true, if_false]
        rw [heq₁, heq₂]
        refine ⟨rfl, ⟨?_, ?_, hlight₂⟩, congrArg (· + 1) hlen⟩
        · rwa [hlen]
        · rwa [hlen]

theorem Light.foldl_boundaryPM {index : ℕ} {final : ℕ → Bool} {lists : Lists} (h : Light W lists)
    (hsize : 2 ^ lists.length * W < 2 ^ 64) (runs : List ℕ) :
    runs.foldl (fun lists i ↦ Zopfli.boundaryPM .machine leaves index (final i) lists) lists =
      runs.foldl (fun lists i ↦ Zopfli.boundaryPM .exact leaves index (final i) lists) lists := by
  induction runs generalizing lists with
  | nil => rfl
  | cons i runs ih =>
    obtain ⟨heq, hlight, hlen⟩ := @Light.boundaryPM leaves W hleaves index (final i) lists h hsize
    rw [List.foldl_cons, List.foldl_cons, heq]
    exact ih hlight (by rwa [hlen])

theorem boundaryPMRuns_machine {maxbits : ℕ} (hsize : 2 ^ maxbits * W < 2 ^ 64) :
    boundaryPMRuns .machine leaves maxbits = boundaryPMRuns .exact leaves maxbits := by
  refine (light_initLists hleaves maxbits).foldl_boundaryPM hleaves ?_ _
  rwa [initLists, List.length_replicate]

end Light

/-- **For counts of 31 bits and lengths of up to 30 the code computes exactly.** -/
theorem lengthLimitedCodeLengths_machine {f : List ℕ} {maxbits : ℕ} (hmax : maxbits < 31)
    (hf : ∀ n ∈ f, n < 2 ^ 31) :
    lengthLimitedCodeLengths .machine f maxbits = lengthLimitedCodeLengths .exact f maxbits := by
  have hweight : ∀ x ∈ leavesOf f, x.weight < 2 ^ 31 := by
    intro x hx
    obtain ⟨p, hp, rfl⟩ := List.mem_map.1 hx
    exact hf p.1 (List.fst_mem_of_mem_zipIdx (List.mem_of_mem_filter hp))
  have hsort : (leavesOf f).mergeSort Arithmetic.machine.comparator =
      (leavesOf f).mergeSort Arithmetic.exact.comparator := by
    have hmap := List.map_mergeSort (f := id) fun a ha b hb ↦
      leafComparator_eq (hweight a ha) (hweight b hb)
    rwa [List.map_id, List.map_id] at hmap
  have hleaves : ∀ i,
      leafWeight ((leavesOf f).mergeSort Arithmetic.exact.comparator) i ≤ 2 ^ 31 := by
    intro i
    rw [leafWeight, List.getD_eq_getElem?_getD]
    rcases h : ((leavesOf f).mergeSort Arithmetic.exact.comparator)[i]? with - | x
    · exact Nat.zero_le _
    · exact (hweight x (List.mem_mergeSort.1 (List.mem_of_getElem? h))).le
  have hsize : 2 ^ maxbits * 2 ^ 31 < 2 ^ 64 := by
    rw [← pow_add]
    exact Nat.pow_lt_pow_right one_lt_two (by omega)
  simp only [lengthLimitedCodeLengths, hsort, boundaryPMRuns_machine hleaves hsize]

/-- **The error is raised for too many symbols and for nothing else**, and lengths that are returned
are those of a code. -/
theorem lengthLimitedCodeLengths_correct (f : List ℕ) {maxbits : ℕ} (hm : 0 < maxbits)
    (hmax : maxbits < 31) (hf : ∀ n ∈ f, n < 2 ^ 31) :
    (lengthLimitedCodeLengths .machine f maxbits = none ↔ 2 ^ maxbits < (used f).card) ∧
      ∀ l, lengthLimitedCodeLengths .machine f maxbits = some l → CodeLengths f maxbits l := by
  rw [lengthLimitedCodeLengths_machine hmax hf]
  obtain hfew | hmany := le_or_gt (used f).card (2 ^ maxbits)
  · obtain ⟨l, hl, hspec⟩ := lengthLimitedCodeLengths_spec hm hfew
    refine ⟨⟨fun h ↦ ?_, fun h ↦ absurd h hfew.not_gt⟩, fun l' hl' ↦ ?_⟩
    · rw [hl] at h
      cases h
    · rw [hl] at hl'
      exact Option.some_injective _ hl' ▸ hspec
  · have hnone : lengthLimitedCodeLengths .exact f maxbits = none := by
      rw [lengthLimitedCodeLengths, if_pos (by rwa [Nat.one_shiftLeft, length_leavesOf])]
    refine ⟨⟨fun _ ↦ hmany, fun _ ↦ hnone⟩, fun l hl ↦ ?_⟩
    rw [hnone] at hl
    cases hl

theorem lengthLimitedCodeLengths_correct_four :
    (lengthLimitedCodeLengths .machine [5, 1, 1, 2] 3 = none ↔
        2 ^ 3 < (used [5, 1, 1, 2]).card) ∧
      ∀ l, lengthLimitedCodeLengths .machine [5, 1, 1, 2] 3 = some l →
        CodeLengths [5, 1, 1, 2] 3 l :=
  lengthLimitedCodeLengths_correct [5, 1, 1, 2] (by decide) (by decide) (by decide)

end Zopfli

end Camlispp
