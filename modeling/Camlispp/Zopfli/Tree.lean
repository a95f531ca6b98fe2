import Camlispp.Zopfli.Katajainen

/-!
# Codewords from lengths

`ZopfliLengthsToSymbols` numbers the codewords in three passes: how many there are of each length,
where each length starts, and then one number after the other. The numbers are **those of the
canonical code** (`lengthsToSymbols_spec`), whatever the lengths; that the codewords can be told
apart is then a matter of the lengths alone.

An assertion that fails is `none`.

The three passes are compared with the library's `code`, which is a sum over the symbols in front.
`startCode_succ` is the step of the second pass: what the shorter codewords take is twice what it
was, and the codewords of the length before are counted in. The number may take more bits than the
codeword has; that it does not is `code_succ_le`, and needs the lengths to fit.
-/

namespace Camlispp

namespace Zopfli

open PrefixCode

/-- The number of codewords of each length, asserted to be at most `maxbits`. -/
def blCount (lengths : List ℕ) (maxbits : ℕ) : Option (List ℕ) :=
  lengths.foldlM (fun bl_count l ↦ do
    guard (l ≤ maxbits)
    some (bl_count.modify l (· + 1))) (List.replicate (maxbits + 1) 0)

/-- The smallest codeword of each length, and the `code` of the loop. -/
def nextCode (bl_count : List ℕ) (maxbits : ℕ) : List ℕ × ℕ :=
  (List.range maxbits).foldl (fun (next_code, code) i ↦
    let bits := i + 1
    let code := (code + bl_count.getD (bits - 1) 0) <<< 1
    (next_code.set bits code, code)) (List.replicate (maxbits + 1) 0, 0)

/-- Numbers the codewords: the next number of each length, and the numbers of the symbols so far. -/
def assignCodes (lengths : List ℕ) (next_code : List ℕ) : List ℕ × List ℕ :=
  lengths.foldl (fun (next_code, symbols) l ↦
    if l ≠ 0 then (next_code.modify l (· + 1), symbols ++ [next_code.getD l 0])
    else (next_code, symbols ++ [0])) (next_code, [])

/-- `ZopfliLengthsToSymbols`. -/
def lengthsToSymbols (lengths : List ℕ) (maxbits : ℕ) : Option (List ℕ) := do
  let bl_count ← blCount lengths maxbits
  let bl_count := bl_count.set 0 0
  let next_code := (nextCode bl_count maxbits).1
  some (assignCodes lengths next_code).2

/-- `ZopfliCalculateBitLengths`, which asserts that there is no error. The counts of a block are
below `2 ^ 31`, where the arithmetic of the code is exact (`lengthLimitedCodeLengths_machine`). -/
def calculateBitLengths (count : List ℕ) (maxbits : ℕ) : Option (List ℕ) :=
  lengthLimitedCodeLengths .exact count maxbits

/-- An assertion that holds. -/
theorem guard_of {p : Prop} [Decidable p] (h : p) : (guard p : Option Unit) = some () := if_pos h

/-! ### Where a length starts -/

/-- The room the shorter codewords take among those of `b` bits. -/
def startCode (l : List ℕ) (b : ℕ) : ℕ :=
  ∑ j ∈ (used l).filter fun j ↦ len l j < b, 2 ^ (b - len l j)

/-- The symbols of one length, as counted in the list. -/
theorem card_filter_len (l : List ℕ) (b : ℕ) {n : ℕ} (hn : n ≤ l.length) :
    ((Finset.range n).filter fun j ↦ len l j = b).card = (l.take n).count b := by
  induction n with
  | zero => simp
  | succ n ih =>
    have hlast : len l n = l[n] := List.getD_eq_getElem l 0 hn
    rw [Finset.range_add_one, Finset.filter_insert, List.take_add_one,
      List.getElem?_eq_getElem hn, Option.toList_some, List.count_append, List.count_singleton,
      ← ih (by omega), hlast]
    split
    · rename_i heq
      rw [Finset.card_insert_of_notMem (by simp), if_pos (by simp [heq])]
    · rename_i hne
      rw [if_neg (by simp [hne]), Nat.add_zero]

/-- A symbol's number is the start of its length and the symbols of that length before it. -/
theorem code_eq_startCode {l : List ℕ} {i : ℕ} (hi : 0 < len l i) :
    code l i = startCode l (len l i) + (l.take i).count (len l i) := by
  have hsplit : (used l).filter (fun j ↦ Before l j i) =
      (used l).filter (fun j ↦ len l j < len l i) ∪
        (Finset.range i).filter (fun j ↦ len l j = len l i) := by
    ext j
    simp only [Finset.mem_filter, Finset.mem_union, mem_used, Finset.mem_range]
    unfold Before
    constructor
    · rintro ⟨hj, hlt | ⟨heq, hji⟩⟩
      · exact .inl ⟨hj, hlt⟩
      · exact .inr ⟨hji, heq⟩
    · rintro (⟨hj, hlt⟩ | ⟨hji, heq⟩)
      · exact ⟨hj, .inl hlt⟩
      · exact ⟨heq ▸ hi, .inr ⟨heq, hji⟩⟩
  have hdisjoint : Disjoint ((used l).filter (fun j ↦ len l j < len l i))
      ((Finset.range i).filter (fun j ↦ len l j = len l i)) := by
    refine Finset.disjoint_left.2 fun j hj hj' ↦ ?_
    have := (Finset.mem_filter.1 hj).2
    have := (Finset.mem_filter.1 hj').2
    omega
  have hsame : ∑ j ∈ (Finset.range i).filter (fun j ↦ len l j = len l i),
      2 ^ (len l i - len l j) = (l.take i).count (len l i) := by
    rw [← card_filter_len l _ (lt_length_of_used hi).le, Finset.card_eq_sum_ones]
    refine Finset.sum_congr rfl fun j hj ↦ ?_
    rw [(Finset.mem_filter.1 hj).2, Nat.sub_self, pow_zero]
  rw [code, hsplit, Finset.sum_union hdisjoint, hsame, startCode]

/-- The starts of the lengths follow each other. -/
theorem startCode_succ (l : List ℕ) {b : ℕ} (hb : 0 < b) :
    startCode l (b + 1) = 2 * (startCode l b + l.count b) := by
  have hsplit : (used l).filter (fun j ↦ len l j < b + 1) =
      (used l).filter (fun j ↦ len l j < b) ∪
        (Finset.range l.length).filter (fun j ↦ len l j = b) := by
    ext j
    simp only [Finset.mem_filter, Finset.mem_union, mem_used, Finset.mem_range]
    constructor
    · rintro ⟨hj, hlt⟩
      obtain hlt | heq := (Nat.le_of_lt_succ hlt).lt_or_eq
      · exact .inl ⟨hj, hlt⟩
      · exact .inr ⟨lt_length_of_used hj, heq⟩
    · rintro (⟨hj, hlt⟩ | ⟨-, rfl⟩)
      · exact ⟨hj, hlt.trans (Nat.lt_succ_self b)⟩
      · exact ⟨hb, Nat.lt_succ_self _⟩
  have hdisjoint : Disjoint ((used l).filter (fun j ↦ len l j < b))
      ((Finset.range l.length).filter (fun j ↦ len l j = b)) := by
    refine Finset.disjoint_left.2 fun j hj hj' ↦ ?_
    have := (Finset.mem_filter.1 hj).2
    have := (Finset.mem_filter.1 hj').2
    omega
  have hshort : ∑ j ∈ (used l).filter (fun j ↦ len l j < b), 2 ^ (b + 1 - len l j) =
      2 * startCode l b := by
    rw [startCode, Finset.mul_sum]
    refine Finset.sum_congr rfl fun j hj ↦ ?_
    have := (Finset.mem_filter.1 hj).2
    rw [← pow_succ']
    congr 1
    omega
  have hsame : ∑ j ∈ (Finset.range l.length).filter (fun j ↦ len l j = b), 2 ^ (b + 1 - len l j) =
      2 * l.count b := by
    have hcount := card_filter_len l b le_rfl
    rw [List.take_length] at hcount
    rw [← hcount, Finset.card_eq_sum_ones, Finset.mul_sum]
    refine Finset.sum_congr rfl fun j hj ↦ ?_
    rw [(Finset.mem_filter.1 hj).2, Nat.add_sub_cancel_left, pow_one, mul_one]
  rw [startCode, hsplit, Finset.sum_union hdisjoint, hshort, hsame, Nat.mul_add]

/-- Nothing is shorter than one bit. -/
theorem startCode_one (l : List ℕ) : startCode l 1 = 0 := by
  refine Finset.sum_eq_zero fun j hj ↦ ?_
  obtain ⟨hu, hlt⟩ := Finset.mem_filter.1 hj
  have := mem_used.1 hu
  omega

/-! ### The three passes -/

/-- **First pass.** -/
theorem blCount_eq {lengths : List ℕ} {maxbits : ℕ} (h : ∀ n ∈ lengths, n ≤ maxbits) :
    ∃ bl, blCount lengths maxbits = some bl ∧ bl.length = maxbits + 1 ∧
      ∀ b ≤ maxbits, bl.getD b 0 = lengths.count b := by
  have hfold : ∀ (ls init : List ℕ), (∀ n ∈ ls, n ≤ maxbits) → init.length = maxbits + 1 →
      ∃ bl, ls.foldlM (fun bl_count l ↦ do
          guard (l ≤ maxbits)
          some (bl_count.modify l (· + 1))) init = some bl ∧ bl.length = maxbits + 1 ∧
        ∀ b ≤ maxbits, len bl b = len init b + ls.count b := by
    intro ls
    induction ls with
    | nil => exact fun init _ hlen ↦ ⟨init, rfl, hlen, fun b _ ↦ rfl⟩
    | cons n ls ih =>
      intro init hls hlen
      have hn := hls n List.mem_cons_self
      obtain ⟨bl, hbl, hbllen, hcount⟩ := ih (init.modify n (· + 1))
        (fun x hx ↦ hls x (List.mem_cons_of_mem n hx)) (by rwa [List.length_modify])
      refine ⟨bl, by simpa [List.foldlM_cons, hn] using hbl, hbllen, fun b hb ↦ ?_⟩
      rw [hcount b hb, len_modify init n (by omega), List.count_cons]
      simp only [beq_iff_eq]
      omega
  obtain ⟨bl, hbl, hlen, hcount⟩ := hfold lengths _ h (List.length_replicate)
  refine ⟨bl, hbl, hlen, fun b hb ↦ (hcount b hb).trans ?_⟩
  rw [len_replicate_zero, Nat.zero_add]

/-- **Second pass.** -/
theorem nextCode_eq {l bl : List ℕ} {maxbits : ℕ} (hbl : bl.getD 0 0 = 0)
    (hcount : ∀ b, 0 < b → b ≤ maxbits → bl.getD b 0 = l.count b) :
    (nextCode bl maxbits).1.length = maxbits + 1 ∧
      ∀ b, 0 < b → b ≤ maxbits → (nextCode bl maxbits).1.getD b 0 = startCode l b := by
  have hfold : ∀ k ≤ maxbits,
      let s := (List.range k).foldl (fun (next_code, code) i ↦
        let bits := i + 1
        let code := (code + bl.getD (bits - 1) 0) <<< 1
        (next_code.set bits code, code)) (List.replicate (maxbits + 1) 0, 0)
      s.1.length = maxbits + 1 ∧ (∀ b, 0 < b → b ≤ k → s.1.getD b 0 = startCode l b) ∧
        (0 < k → s.2 = startCode l k) ∧ (k = 0 → s.2 = 0) := by
    intro k hk
    induction k with
    | zero => exact ⟨List.length_replicate, fun b h0 hb ↦ by omega, fun h ↦ by omega, fun _ ↦ rfl⟩
    | succ k ih =>
      obtain ⟨hlen, hbits, hcode, hzero⟩ := ih (by omega)
      rw [List.range_succ, List.foldl_append, List.foldl_cons, List.foldl_nil]
      generalize (List.range k).foldl _ _ = s at hlen hbits hcode hzero ⊢
      obtain ⟨next_code, code⟩ := s
      simp only at hlen hbits hcode hzero ⊢
      have hnew : (code + bl.getD k 0) <<< 1 = startCode l (k + 1) := by
        rw [Nat.shiftLeft_eq, pow_one, mul_comm]
        obtain rfl | hpos := Nat.eq_zero_or_pos k
        · rw [hzero rfl, hbl, startCode_one, Nat.add_zero, Nat.mul_zero]
        · rw [hcode hpos, hcount k hpos (by omega), startCode_succ l hpos]
      rw [Nat.add_sub_cancel, hnew]
      refine ⟨by rwa [List.length_set], fun b h0 hb ↦ ?_, fun _ ↦ rfl, fun h ↦ by omega⟩
      obtain rfl | hne := eq_or_ne b (k + 1)
      · rw [List.getD_eq_getElem _ _ (by rw [List.length_set]; omega), List.getElem_set_self]
      · rw [List.getD_eq_getElem?_getD, List.getElem?_set_ne hne.symm, ← List.getD_eq_getElem?_getD,
          hbits b h0 (by omega)]
  obtain ⟨hlen, hbits, -, -⟩ := hfold maxbits le_rfl
  exact ⟨hlen, hbits⟩

/-- **Third pass.** -/
theorem assignCodes_eq {l next_code : List ℕ} {maxbits : ℕ} (hlen : next_code.length = maxbits + 1)
    (hle : ∀ n ∈ l, n ≤ maxbits)
    (hstart : ∀ b, 0 < b → b ≤ maxbits → next_code.getD b 0 = startCode l b) :
    (assignCodes l next_code).2.length = l.length ∧
      ∀ i, 0 < len l i → (assignCodes l next_code).2.getD i 0 = code l i := by
  have hfold : ∀ k ≤ l.length,
      let s := (l.take k).foldl (fun (next_code, symbols) n ↦
        if n ≠ 0 then (next_code.modify n (· + 1), symbols ++ [next_code.getD n 0])
        else (next_code, symbols ++ [0])) (next_code, [])
      s.1.length = maxbits + 1 ∧ s.2.length = k ∧
        (∀ b, 0 < b → b ≤ maxbits → len s.1 b = startCode l b + (l.take k).count b) ∧
        ∀ i < k, 0 < len l i → s.2.getD i 0 = code l i := by
    intro k hk
    induction k with
    | zero => exact ⟨hlen, rfl, fun b h0 hb ↦ hstart b h0 hb, fun i hi ↦ by omega⟩
    | succ k ih =>
      obtain ⟨hlen', hsymbols, hnext, hcode⟩ := ih (by omega)
      have hget : len l k = l[k] := List.getD_eq_getElem l 0 hk
      have hk' := hle l[k] (List.getElem_mem hk)
      have htake : l.take (k + 1) = l.take k ++ [l[k]] := by
        rw [List.take_add_one, List.getElem?_eq_getElem hk, Option.toList_some]
      rw [htake, List.foldl_append, List.foldl_cons, List.foldl_nil]
      generalize (l.take k).foldl _ _ = s at hlen' hsymbols hnext hcode ⊢
      obtain ⟨next_code', symbols⟩ := s
      simp only at hlen' hsymbols hnext hcode ⊢
      have hold (x : ℕ) : ∀ i < k, (symbols ++ [x]).getD i 0 = symbols.getD i 0 := by
        intro i hi
        rw [List.getD_eq_getElem?_getD, List.getElem?_append_left (by omega),
          List.getD_eq_getElem?_getD]
      have hlast (x : ℕ) : (symbols ++ [x]).getD k 0 = x := by
        rw [List.getD_eq_getElem?_getD, List.getElem?_append_right hsymbols.le, hsymbols]
        simp
      split
      · rename_i hne
        refine ⟨by rwa [List.length_modify], by simp [hsymbols], fun b h0 hb ↦ ?_,
          fun i hi hpos ↦ ?_⟩
        · rw [len_modify _ _ (by omega), hnext b h0 hb, List.count_append, List.count_singleton]
          simp only [beq_iff_eq]
          omega
        · obtain hi | rfl := Nat.lt_succ_iff_lt_or_eq.1 hi
          · rw [hold _ i hi, hcode i hi hpos]
          · have := hnext (len l i) hpos (by omega)
            rw [hlast, code_eq_startCode hpos, ← this, hget]
            rfl
      · rename_i heq
        rw [not_not] at heq
        refine ⟨hlen', by simp [hsymbols], fun b h0 hb ↦ ?_, fun i hi hpos ↦ ?_⟩
        · rw [hnext b h0 hb, List.count_append, heq, List.count_singleton, if_neg (by simp; omega),
            Nat.add_zero]
        · obtain hi | rfl := Nat.lt_succ_iff_lt_or_eq.1 hi
          · rw [hold _ i hi, hcode i hi hpos]
          · rw [hget, heq] at hpos
            exact absurd hpos (lt_irrefl 0)
  obtain ⟨-, hsymbols, -, hcode⟩ := hfold l.length le_rfl
  rw [List.take_length] at hsymbols hcode
  exact ⟨hsymbols, fun i hi ↦ hcode i (lt_length_of_used hi) hi⟩

/-- **`ZopfliLengthsToSymbols` numbers the codewords of the canonical code.** -/
theorem lengthsToSymbols_spec {l : List ℕ} {maxbits : ℕ} (h : ∀ n ∈ l, n ≤ maxbits) :
    ∃ symbols, lengthsToSymbols l maxbits = some symbols ∧
      ∀ i, 0 < len l i → symbols.getD i 0 = code l i := by
  obtain ⟨bl, hbl, hlen, hcount⟩ := blCount_eq h
  have hzero : (bl.set 0 0).getD 0 0 = 0 := by
    rw [List.getD_eq_getElem _ _ (by rw [List.length_set]; omega), List.getElem_set_self]
  have hcount' : ∀ b, 0 < b → b ≤ maxbits → (bl.set 0 0).getD b 0 = l.count b := by
    intro b h0 hb
    rw [List.getD_eq_getElem?_getD, List.getElem?_set_ne (by omega), ← List.getD_eq_getElem?_getD,
      hcount b hb]
  obtain ⟨hnlen, hnext⟩ := nextCode_eq hzero hcount'
  obtain ⟨-, hcode⟩ := assignCodes_eq hnlen h hnext
  exact ⟨_, by simp [lengthsToSymbols, hbl], hcode⟩

end Zopfli

end Camlispp
