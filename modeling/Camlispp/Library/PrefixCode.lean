import Camlispp.Library.BitStream
import Mathlib.Algebra.BigOperators.Group.Finset.Basic
import Mathlib.Algebra.BigOperators.Ring.Finset
import Mathlib.Algebra.Order.BigOperators.Group.Finset

/-!
# Canonical prefix codes

A canonical code is given by the lengths of its codewords alone, `0` for a symbol that has none. The
codewords of one length are consecutive numbers, in the order of the symbols, and each starts where
the shorter ones end: the codeword of a symbol is the **sum of the room the earlier codewords take**
(`code`), an earlier codeword being a shorter one, or one of the same length and a smaller symbol.

Everything rests on one inequality, `code_succ_le`: the numbers up to a symbol's own fit in its
length as soon as the lengths satisfy Kraft's inequality (`Fits`). From it and from the room an
earlier codeword takes in a later one (`code_lt_div`) no codeword is a prefix of another
(`eq_of_prefix`), and reading a codeword back gives its symbol (`decode_codeword`).

Nothing here depends on a particular program.
-/

open Bits

namespace PrefixCode

variable (l : List ℕ) {m : ℕ}

/-- The length of the codeword of a symbol. -/
def len (i : ℕ) : ℕ := l.getD i 0

/-- The symbols that have a codeword. -/
def used : Finset ℕ := (Finset.range l.length).filter fun i ↦ 0 < len l i

/-- The codewords that come before that of `i`. -/
def Before (j i : ℕ) : Prop := len l j < len l i ∨ len l j = len l i ∧ j < i

instance (j i : ℕ) : Decidable (Before l j i) := inferInstanceAs (Decidable (_ ∨ _))

/-- The number of the codeword of `i`. -/
def code (i : ℕ) : ℕ := ∑ j ∈ (used l).filter fun j ↦ Before l j i, 2 ^ (len l i - len l j)

/-- The codeword of `i`. -/
def codeword (i : ℕ) : Bits := msb (len l i) (code l i)

/-- The room the codewords take, the whole room being `2 ^ m`. -/
def kraft (m : ℕ) : ℕ := ∑ j ∈ used l, 2 ^ (m - len l j)

/-- No codeword is longer than `m`, and together they take at most the whole room. -/
structure Fits (m : ℕ) : Prop where
  len_le : ∀ i, len l i ≤ m
  kraft_le : kraft l m ≤ 2 ^ m

/-- No codeword is longer than `m`, and together they take the whole room. -/
def Complete (m : ℕ) : Prop := (∀ n ∈ l, n ≤ m) ∧ kraft l m = 2 ^ m

instance (m : ℕ) : Decidable (Complete l m) := inferInstanceAs (Decidable (_ ∧ _))

/-- One symbol has a codeword, of one bit. -/
def Single (m : ℕ) : Prop := (∀ n ∈ l, n ≤ m) ∧ (used l).card = 1 ∧ kraft l m = 2 ^ (m - 1)

instance (m : ℕ) : Decidable (Single l m) := inferInstanceAs (Decidable (_ ∧ _ ∧ _))

/-- The symbol whose codeword the stream starts with, and the rest of the stream. -/
def decode (s : Bits) : Option (ℕ × Bits) :=
  (List.range l.length).findSome? fun i ↦
    if 0 < len l i ∧ codeword l i <+: s then some (i, s.drop (len l i)) else none

variable {l}

/-! ### Lengths that fit -/

theorem len_le_of_forall (h : ∀ n ∈ l, n ≤ m) (i : ℕ) : len l i ≤ m := by
  obtain hi | hi := lt_or_ge i l.length
  · rw [len, List.getD_eq_getElem l 0 hi]
    exact h _ (List.getElem_mem hi)
  · rw [len, List.getD_eq_default l 0 hi]
    exact Nat.zero_le m

theorem Complete.fits (h : Complete l m) : Fits l m :=
  ⟨len_le_of_forall h.1, h.2.le⟩

theorem Single.fits (h : Single l m) : Fits l m :=
  ⟨len_le_of_forall h.1, h.2.2.le.trans (Nat.pow_le_pow_right (by norm_num) (Nat.sub_le m 1))⟩

/-! ### Codes with the same lengths -/

theorem mem_used {i : ℕ} : i ∈ used l ↔ 0 < len l i := by
  simp only [used, Finset.mem_filter, Finset.mem_range, and_iff_right_iff_imp]
  intro h
  by_contra hi
  rw [len, List.getD_eq_default l 0 (not_lt.1 hi)] at h
  exact absurd h (lt_irrefl 0)

theorem lt_length_of_used {i : ℕ} (h : 0 < len l i) : i < l.length :=
  Finset.mem_range.1 (Finset.mem_filter.1 (mem_used.2 h)).1

theorem used_congr {l' : List ℕ} (h : ∀ s, 0 < len l s ↔ 0 < len l' s) : used l = used l' := by
  ext s
  rw [mem_used, mem_used, h]

section Congr

variable {l' : List ℕ} (h : ∀ s, len l s = len l' s)

include h

theorem kraft_congr (m : ℕ) : kraft l m = kraft l' m := by
  have hused : used l = used l' := used_congr fun s ↦ by rw [h]
  rw [kraft, kraft, hused]
  exact Finset.sum_congr rfl fun j _ ↦ by rw [h]

theorem codeword_congr (i : ℕ) : codeword l i = codeword l' i := by
  have hcode : code l i = code l' i := by
    have hused : used l = used l' := used_congr fun s ↦ by rw [h]
    rw [code, code, hused]
    refine Finset.sum_congr (Finset.filter_congr fun j _ ↦ ?_) fun j _ ↦ by rw [h, h]
    rw [Before, Before, h, h]
  rw [codeword, codeword, h, hcode]

theorem complete_congr {m : ℕ} (hle : ∀ n ∈ l', n ≤ m) (hc : Complete l m) : Complete l' m :=
  ⟨hle, (kraft_congr h m).symm.trans hc.2⟩

theorem single_congr {m : ℕ} (hle : ∀ n ∈ l', n ≤ m) (hc : Single l m) : Single l' m := by
  have hused : used l = used l' := used_congr fun s ↦ by rw [h]
  exact ⟨hle, hused ▸ hc.2.1, (kraft_congr h m).symm.trans hc.2.2⟩

end Congr

/-- The symbols at the end that have no codeword may be left out. -/
theorem len_take {n : ℕ} (h : ∀ i, n ≤ i → len l i = 0) (i : ℕ) : len l i = len (l.take n) i := by
  obtain hi | hi := lt_or_ge i n
  · simp only [len, List.getD_eq_getElem?_getD, List.getElem?_take_of_lt hi]
  · rw [h i hi, len, List.getD_eq_default]
    exact (List.length_take_le n l).trans hi

/-! ### Counting symbols -/

/-- Counts each of the symbols `ks` once more. -/
def tally (ks b : List ℕ) : List ℕ := ks.foldl (fun b k ↦ b.modify k (· + 1)) b

theorem len_modify (b : List ℕ) (k : ℕ) {s : ℕ} (hs : s < b.length) :
    len (b.modify k (· + 1)) s = len b s + if k = s then 1 else 0 := by
  simp only [len, List.getD_eq_getElem?_getD, List.getElem?_modify, List.getElem?_eq_getElem hs]
  split <;> simp

@[simp] theorem length_tally (ks b : List ℕ) : (tally ks b).length = b.length := by
  induction ks generalizing b with
  | nil => rfl
  | cons k ks ih =>
    rw [tally, List.foldl_cons]
    exact (ih _).trans (List.length_modify _ _ _)

theorem len_tally (ks b : List ℕ) {s : ℕ} (hs : s < b.length) :
    len (tally ks b) s = len b s + ks.count s := by
  induction ks generalizing b with
  | nil => rfl
  | cons k ks ih =>
    have hstep := ih (b.modify k (· + 1)) (by simpa using hs)
    rw [tally, List.foldl_cons]
    refine hstep.trans ?_
    rw [len_modify b k hs, List.count_cons]
    simp only [beq_iff_eq]
    omega

@[simp] theorem len_replicate_zero (n s : ℕ) : len (List.replicate n 0) s = 0 := by
  simp only [len, List.getD_eq_getElem?_getD, List.getElem?_replicate]
  split <;> rfl

/-! ### The order of the codewords -/

/-- Of two symbols one comes first. -/
theorem before_or_before {i j : ℕ} (h : i ≠ j) : Before l i j ∨ Before l j i := by
  unfold Before
  omega

/-- Coming first is transitive. -/
theorem Before.trans {i j k : ℕ} (h : Before l i j) (h' : Before l j k) : Before l i k := by
  unfold Before at *
  omega

theorem Before.len_le {i j : ℕ} (h : Before l i j) : len l i ≤ len l j := by
  unfold Before at h
  omega

theorem not_before_self (i : ℕ) : ¬Before l i i := by
  unfold Before
  omega

/-! ### The room of a codeword -/

/-- The numbers up to that of `i` are those of the codewords not after it. -/
theorem code_succ (i : ℕ) :
    code l i + 1 = ∑ j ∈ insert i ((used l).filter fun j ↦ Before l j i),
      2 ^ (len l i - len l j) := by
  rw [Finset.sum_insert (by simp [not_before_self]), Nat.sub_self, pow_zero, add_comm, code]

/-- What a sum of rooms is in a longer codeword. -/
theorem sum_mul_pow {s : Finset ℕ} {n k : ℕ} (hs : ∀ j ∈ s, len l j ≤ n) (hk : n ≤ k) :
    (∑ j ∈ s, 2 ^ (n - len l j)) * 2 ^ (k - n) = ∑ j ∈ s, 2 ^ (k - len l j) := by
  rw [Finset.sum_mul]
  refine Finset.sum_congr rfl fun j hj ↦ ?_
  rw [← pow_add]
  congr 1
  have := hs j hj
  omega

/-- **The number of a codeword fits in its length.** -/
theorem code_succ_le (h : Fits l m) {i : ℕ} (hi : 0 < len l i) : code l i + 1 ≤ 2 ^ len l i := by
  set s := insert i ((used l).filter fun j ↦ Before l j i) with hs
  have hle : ∀ j ∈ s, len l j ≤ len l i := by
    intro j hj
    obtain rfl | hj := Finset.mem_insert.1 hj
    · exact le_rfl
    · exact (Finset.mem_filter.1 hj).2.len_le
  have hsub : s ⊆ used l := by
    refine Finset.insert_subset (mem_used.2 hi) (Finset.filter_subset _ _)
  have hroom : (code l i + 1) * 2 ^ (m - len l i) ≤ 2 ^ len l i * 2 ^ (m - len l i) := by
    calc (code l i + 1) * 2 ^ (m - len l i)
        = ∑ j ∈ s, 2 ^ (m - len l j) := by rw [code_succ i, ← hs, sum_mul_pow hle (h.len_le i)]
      _ ≤ kraft l m := Finset.sum_le_sum_of_subset hsub
      _ ≤ 2 ^ m := h.kraft_le
      _ = 2 ^ len l i * 2 ^ (m - len l i) := by rw [← pow_add, Nat.add_sub_cancel' (h.len_le i)]
  exact Nat.le_of_mul_le_mul_right hroom (by positivity)

/-- **A later codeword starts after the room of an earlier one.** -/
theorem code_lt_div {i j : ℕ} (hi : 0 < len l i) (hij : Before l i j) :
    code l i < code l j / 2 ^ (len l j - len l i) := by
  rw [Nat.lt_iff_add_one_le, Nat.le_div_iff_mul_le (by positivity), code_succ i,
    sum_mul_pow (fun k hk ↦ ?_) hij.len_le]
  · refine Finset.sum_le_sum_of_subset fun k hk ↦ ?_
    obtain rfl | hk := Finset.mem_insert.1 hk
    · exact Finset.mem_filter.2 ⟨mem_used.2 hi, hij⟩
    · obtain ⟨hu, hki⟩ := Finset.mem_filter.1 hk
      exact Finset.mem_filter.2 ⟨hu, hki.trans hij⟩
  · obtain rfl | hk := Finset.mem_insert.1 hk
    · exact le_rfl
    · exact (Finset.mem_filter.1 hk).2.len_le

/-! ### Reading a codeword -/

@[simp] theorem length_codeword (i : ℕ) : (codeword l i).length = len l i := length_msb _ _

/-- An earlier codeword is not the beginning of a later one. -/
theorem not_prefix_of_before (h : Fits l m) {i j : ℕ} (hi : 0 < len l i) (hj : 0 < len l j)
    (hij : Before l i j) : ¬codeword l i <+: codeword l j := by
  intro hp
  have hlen : len l i + (len l j - len l i) = len l j := Nat.add_sub_cancel' hij.len_le
  have htake : msb (len l i) (code l j / 2 ^ (len l j - len l i)) = msb (len l i) (code l i) := by
    rw [← take_msb, hlen]
    simpa [codeword] using (List.prefix_iff_eq_take.1 hp).symm
  have hj' : code l j / 2 ^ (len l j - len l i) < 2 ^ len l i := by
    rw [Nat.div_lt_iff_lt_mul (by positivity), ← pow_add, hlen]
    exact code_succ_le h hj
  exact (code_lt_div hi hij).ne' (msb_injective hj' (code_succ_le h hi) htake)

/-- **No codeword is the beginning of another.** -/
theorem eq_of_prefix (h : Fits l m) {i j : ℕ} (hi : 0 < len l i) (hj : 0 < len l j) {s : Bits}
    (hpi : codeword l i <+: s) (hpj : codeword l j <+: s) : i = j := by
  have hno : ∀ {i j}, 0 < len l i → 0 < len l j → codeword l i <+: s → codeword l j <+: s →
      ¬Before l i j := by
    intro i j hi hj hpi hpj hij
    refine not_prefix_of_before h hi hj hij (List.prefix_of_prefix_length_le hpi hpj ?_)
    simpa using hij.len_le
  by_contra hne
  obtain hij | hji := before_or_before (l := l) hne
  · exact hno hi hj hpi hpj hij
  · exact hno hj hi hpj hpi hji

/-- **A written codeword is read back.** -/
theorem decode_codeword (h : Fits l m) {i : ℕ} (hi : 0 < len l i) (s : Bits) :
    decode l (codeword l i ++ s) = some (i, s) := by
  have hfound : ∀ j, 0 < len l j ∧ codeword l j <+: codeword l i ++ s ↔ j = i := by
    intro j
    refine ⟨fun hj ↦ eq_of_prefix h hj.1 hi hj.2 (List.prefix_append _ _), ?_⟩
    rintro rfl
    exact ⟨hi, List.prefix_append _ _⟩
  have hdrop : (codeword l i ++ s).drop (len l i) = s := List.drop_left' (length_codeword i)
  have hmem : i ∈ List.range l.length := List.mem_range.2 (lt_length_of_used hi)
  obtain ⟨before, after, hsplit⟩ := List.append_of_mem hmem
  have hbefore : ∀ j ∈ before, j ≠ i := by
    rintro j hj rfl
    have hnodup : (before ++ j :: after).Nodup := hsplit ▸ List.nodup_range
    exact (List.nodup_append.1 hnodup).2.2 j hj j List.mem_cons_self rfl
  have hnone : before.findSome? (fun j ↦ if 0 < len l j ∧ codeword l j <+: codeword l i ++ s
      then some (j, (codeword l i ++ s).drop (len l j)) else none) = none := by
    refine List.findSome?_eq_none_iff.2 fun j hj ↦ ?_
    rw [if_neg (mt (hfound j).1 (hbefore j hj))]
  rw [decode, hsplit, List.findSome?_append, hnone, Option.none_or, List.findSome?_cons,
    if_pos ((hfound i).2 rfl), hdrop]

end PrefixCode
