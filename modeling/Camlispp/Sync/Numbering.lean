import Camlispp.Sync.Push

/-!
# How many blobs a stat request can name

`stat_request` numbers its parameters with an `int`, and the server reads them with the grammar of
query strings, which has no `-` in a key. The request and its reading agree as long as no number is
negative: the request for `2 ^ 31` blobs ends with `blob-2147483648`, from which the grammar takes a
parameter `blob` without a value and reads no further.

The counter is modelled as it wraps on the machine; the language leaves the overflow undefined.

## What the result rests on

* `countedParameters_append` and `mem_countedParameters`: up to the greatest `int` the numbers are
  those of the protocol, and behind it comes the least `int`.
* `many_querySep_negative`: the grammar stops at a parameter with a negative number, and what it has
  of it is a name without a value.

`perm_decodeQueryStringBlobs_statRequest_iff` is an equivalence. The only caller passes pages of at
most 501 entries, so the daemon never comes near to the bound.
-/

open Bytes Peg

namespace Camlispp

/-- The parameters up to the greatest `int`, and the one that follows them. -/
theorem countedParameters_append {n : ℕ} {refs : List Bytes} (h : n + refs.length = 2 ^ 31)
    (r : Bytes) (rest : List Bytes) : ∃ ps, countedParameters (int32 n) (refs ++ r :: rest) =
      blobParameters n refs ++ (lit "blob" ++ decimalInt (-2 ^ 31), r) :: ps := by
  induction refs generalizing n with
  | nil =>
    have hmin : int32 n = -2 ^ 31 := by
      rw [show n = 2 ^ 31 from h]
      rfl
    rw [hmin]
    exact ⟨_, rfl⟩
  | cons ref refs ih =>
    rw [List.length_cons] at h
    obtain ⟨ps, hps⟩ := ih (show n + 1 + refs.length = 2 ^ 31 by omega)
    refine ⟨ps, ?_⟩
    rw [int32_of_lt (show n < 2 ^ 31 by omega), List.cons_append, countedParameters,
      ← Int.natCast_succ, hps]
    rfl

/-- A negative number ends the parameters: what is left of it is a `blob` without a value. -/
theorem many_querySep_negative (t : Bytes) :
    many querySep (lit "&blob-" ++ t) = some ([(lit "blob", [])], 45 :: t) := by
  have hstop : querySep (45 :: t) = none := by
    simp [querySep, Peg.map, seq, alt, show lit ";" = [59] from rfl, show lit "&" = [38] from rfl,
      literal_singleton]
  have hkey : queryKey (98 :: (lit "lob" ++ 45 :: t)) = some (lit "blob", 45 :: t) := by
    simp only [queryKey, Peg.map, seq, satisfy, many_satisfy]
    rfl
  have hvalue : opt (seq (literal (lit "=")) queryValue) (45 :: t) = some (none, 45 :: t) := by
    simp [opt, seq, show lit "=" = [61] from rfl, literal_singleton]
  have hpair : queryPair (98 :: (lit "lob" ++ 45 :: t)) = some ((lit "blob", []), 45 :: t) := by
    rw [queryPair, Peg.map, seq, hkey, Option.bind_some, hvalue]
    rfl
  have hblob : querySep (lit "&blob-" ++ t) = some ((lit "blob", []), 45 :: t) := by
    have hsep : alt (literal (lit ";")) (literal (lit "&")) (lit "&blob-" ++ t) =
        some ((), 98 :: (lit "lob" ++ 45 :: t)) := by
      simp [alt, lit, literal_singleton]
    rw [querySep, Peg.map, seq, hsep, Option.bind_some, hpair]
    rfl
  exact many_of_some consumes_querySep hblob (many_of_none hstop)

theorem mem_countedParameters {n : ℤ} {refs : List Bytes} {p : Bytes × Bytes}
    (h : p ∈ countedParameters n refs) :
    ∃ m : ℤ, p.1 = lit "blob" ++ decimalInt m ∧ p.2 ∈ refs := by
  induction refs generalizing n with
  | nil => cases h
  | cons ref refs ih =>
    rcases List.mem_cons.1 h with rfl | h
    · exact ⟨n, rfl, List.mem_cons_self⟩
    · obtain ⟨m, hkey, hmem⟩ := ih h
      exact ⟨m, hkey, List.mem_cons_of_mem _ hmem⟩

theorem isRefByte_of_mem_decimalInt {m : ℤ} {b : UInt8} (hb : b ∈ decimalInt m) :
    isRefByte b = true := by
  have hdigit : ∀ n, b ∈ decimal n → isRefByte b = true := fun n hb ↦ by
    simp [isRefByte, isAlnum, isDigit_of_mem_decimal hb]
  cases m with
  | ofNat m => exact hdigit m hb
  | negSucc m =>
    rcases List.mem_cons.1 hb with rfl | hb
    · decide
    · exact hdigit _ hb

section Request

variable {blobs : List (BlobKey × Blob)} (h : ∀ e ∈ blobs, e.1.Computed)

include h

theorem isRefText_of_mem_map {r : Bytes} (hr : r ∈ blobs.map fun e ↦ e.1.blobref) :
    IsRefText r := by
  obtain ⟨e, he, rfl⟩ := List.mem_map.1 hr
  exact (h e he).isRefText

/-- The request has no question mark, so the server reads all of it. -/
theorem dropQuestion_statRequest : dropQuestion (statRequest blobs) = statRequest blobs := by
  refine dropQuestion_of_notMem fun hmem ↦ ?_
  have hbyte := mem_parameters (fun p hp b hb ↦ ?_) (show (63 : UInt8) ∈ _ from hmem)
  · exact absurd hbyte (by decide)
  · obtain ⟨m, hkey, href⟩ := mem_countedParameters hp
    rw [hkey, List.mem_append, List.mem_append] at hb
    rcases hb with (hb | hb) | hb
    · have hname : ∀ b ∈ lit "blob", isRefByte b = true := by decide +kernel
      exact hname b hb
    · exact isRefByte_of_mem_decimalInt hb
    · exact (isRefText_of_mem_map h href).bytes b hb

/-- A request for more blobs than there are positive numbers in an `int` is read as if it asked for
the empty reference. -/
theorem nil_mem_decodeQueryStringBlobs (hlen : 2 ^ 31 ≤ blobs.length) :
    [] ∈ decodeQueryStringBlobs (statRequest blobs) := by
  set refs := blobs.map fun e ↦ e.1.blobref with hrefs
  have hrefsLen : refs.length = blobs.length := List.length_map _
  -- the parameters with a positive number, the first without one, and the others
  obtain ⟨r, rest, hsplit⟩ : ∃ r rest, refs.drop (2 ^ 31 - 1) = r :: rest :=
    List.exists_cons_of_ne_nil fun hnil ↦ by
      have := List.drop_eq_nil_iff.1 hnil
      omega
  set front := refs.take (2 ^ 31 - 1) with hfront
  have hfrontLen : 1 + front.length = 2 ^ 31 := by
    rw [hfront, List.length_take]
    omega
  obtain ⟨ps, hps⟩ := countedParameters_append hfrontLen r rest
  rw [← hsplit, hfront, List.take_append_drop] at hps
  have hcounted : countedParameters 1 refs = blobParameters 1 front ++
      (lit "blob" ++ decimalInt (-2 ^ 31), r) :: ps := hps
  set tail := decimal (2 ^ 31) ++ 61 :: r ++ (ps.map fun p ↦ 38 :: pairText p).flatten with htail
  have htext : statRequest blobs = pairText (lit "camliversion", lit "1") ++
      (((blobParameters 1 front).map fun p ↦ 38 :: pairText p).flatten ++
        (lit "&blob-" ++ tail)) := by
    rw [statRequest, hcounted, List.map_append, List.flatten_append, List.map_cons,
      List.flatten_cons]
    rfl
  have hpairs : ∀ p ∈ blobParameters 1 front, IsPair p := fun p hp ↦
    isPair_of_mem_blobParameters
      (fun q hq ↦ isRefText_of_mem_map h (List.mem_of_mem_take hq)) hp
  have hread := keysAndValues_append isPair_version hpairs
    (show EndsPair (lit "&blob-" ++ tail) from endsPair_amp _) (many_querySep_negative tail)
  have hnodup : (((lit "camliversion", lit "1") ::
      (blobParameters 1 front ++ [(lit "blob", [])])).map Prod.fst).Nodup := by
    rw [← List.cons_append, List.map_append]
    refine List.nodup_append.2 ⟨nodup_statParameters front, List.nodup_singleton _, ?_⟩
    intro k hk k' hk' heq
    rw [heq, List.mem_singleton.1 hk', List.map_cons, List.mem_cons] at hk
    rcases hk with hk | hk
    · exact absurd hk (by decide)
    · obtain ⟨p, hp, hname⟩ := List.mem_map.1 hk
      obtain ⟨m, -, hkey, -⟩ := mem_blobParameters hp
      exact decimal_ne_nil m (List.append_cancel_left
        ((hkey.symm.trans hname).trans (List.append_nil _).symm))
  rw [decodeQueryStringBlobs, dropQuestion_statRequest h, htext, hread]
  refine List.mem_map.2 ⟨(lit "blob", []), List.mem_filter.2 ⟨?_, by decide⟩, rfl⟩
  exact (OrdMap.perm_entries_collect hnodup).symm.subset (by simp)

end Request

/-- **When the stat request and its reading agree**: for every list of index entries, the server is
asked about exactly these references, in some order, if and only if their number is an `int`. -/
theorem perm_decodeQueryStringBlobs_statRequest_iff {blobs : List (BlobKey × Blob)}
    (h : ∀ e ∈ blobs, e.1.Computed) :
    (decodeQueryStringBlobs (statRequest blobs)).Perm (blobs.map fun e ↦ e.1.blobref) ↔
      blobs.length < 2 ^ 31 := by
  constructor
  · intro hperm
    by_contra hlen
    have hnil := hperm.subset (nil_mem_decodeQueryStringBlobs h (not_lt.1 hlen))
    exact (isRefText_of_mem_map h hnil).ne_nil rfl
  · intro hlen
    refine perm_decodeQueryStringBlobs (fun r hr ↦ isRefText_of_mem_map h hr) ?_
    rw [dropQuestion_statRequest h, statRequest_eq_statText hlen]

/-- One entry, twice. -/
theorem perm_decodeQueryStringBlobs_statRequest_a :
    (decodeQueryStringBlobs (statRequest (List.replicate 2 (keyOfA, .new 0 [])))).Perm
      [keyOfA.blobref, keyOfA.blobref] :=
  (perm_decodeQueryStringBlobs_statRequest_iff fun _ he ↦
    (List.eq_of_mem_replicate he) ▸ computed_keyOfA).2 (by decide)

/-- The first list that is too long. -/
theorem not_perm_decodeQueryStringBlobs_statRequest :
    (∀ e ∈ List.replicate (2 ^ 31) (keyOfA, Blob.new 0 []), e.1.Computed) ∧
      ¬(decodeQueryStringBlobs (statRequest (List.replicate (2 ^ 31) (keyOfA, .new 0 [])))).Perm
        ((List.replicate (2 ^ 31) (keyOfA, Blob.new 0 [])).map fun e ↦ e.1.blobref) := by
  have hcomp : ∀ e ∈ List.replicate (2 ^ 31) (keyOfA, Blob.new 0 []), e.1.Computed := fun e he ↦
    (List.eq_of_mem_replicate he) ▸ computed_keyOfA
  refine ⟨hcomp, fun hperm ↦ ?_⟩
  have hlen := (List.length_replicate (n := 2 ^ 31) (a := (keyOfA, Blob.new 0 []))).ge
  have hnil := hperm.subset (nil_mem_decodeQueryStringBlobs hcomp hlen)
  exact (isRefText_of_mem_map hcomp hnil).ne_nil rfl

end Camlispp
