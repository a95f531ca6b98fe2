import Camlispp.Library.Paging
import Camlispp.Store.ContentAddressing

/-!
# Walking the index

`paginate` as a page of the ordered list of keys, and the index as a list that only grows. The
cursor is the text of a key; for the keys an addition computes, the text determines the key, so the
walk is the inclusive paging of `Paging` over the keys (`paginate_keys`).

`Reachable` and `Standard` are the two assumptions about stores in what follows: that a store was
made by additions, and, weaker, that all its keys are of the form an addition computes. The second
is kept by every addition (`Store.Standard.addBlob`), so a result that needs it alone holds in the
middle of a history, too.

## What the result rests on

* `CursorText` relates a cursor to its text, for the keys that an addition computes.
* `Store.paginate_eq`: a page is the beginning of the entries from the cursor on. It rests on the
  text of such a key being read back as that key (`BlobKey.Computed.createBlobKey_blobref`).
* `Store.length_paginate` and `Store.cursor_paginate` are what the loops ask of a page: whether it
  is full, and what its last key is.
-/

open Bytes Paging

namespace Camlispp

variable {D : Digests} {cfg : Config}

/-- The loop of `paginate` takes as many entries as are still wanted. -/
theorem Store.pushUntil_eq {count : ℕ} {blobs : List (BlobKey × Blob)}
    (h : blobs.length < count) (rest : List (BlobKey × Blob)) :
    Store.pushUntil count blobs rest = blobs ++ rest.take (count - blobs.length) := by
  induction rest generalizing blobs with
  | nil => simp [Store.pushUntil]
  | cons e rest ih =>
    obtain ⟨m, hm⟩ : ∃ m, count - blobs.length = m + 1 := ⟨count - blobs.length - 1, by omega⟩
    have hlen : (blobs ++ [e]).length = blobs.length + 1 := by simp
    rw [Store.pushUntil, hm, List.take_succ_cons]
    by_cases hfull : (blobs ++ [e]).length ≥ count
    · obtain rfl : m = 0 := by omega
      rw [if_pos hfull, List.take_zero]
    · rw [if_neg hfull, ih (by omega), hlen, show count - (blobs.length + 1) = m by omega]
      simp

/-- The cursor of a request: the text of a computed key, or none. -/
inductive CursorText : Option BlobKey → Option Bytes → Prop
  | none : CursorText none none
  | some {k : BlobKey} (hk : k.Computed) : CursorText (some k) (some k.blobref)

/-- The entries that `paginate` starts from. -/
def Store.boundedEntries (st : Store) : Option BlobKey → List (BlobKey × Blob)
  | none => st.blobs.entries
  | some k => st.blobs.lowerBound k

theorem Store.paginate_eq (st : Store) {c : Option BlobKey} {t : Option Bytes}
    (h : CursorText c t) {count : ℕ} (hcount : 0 < count) :
    st.paginate t count = (st.boundedEntries c).take count := by
  cases h with
  | none => exact Store.pushUntil_eq hcount _
  | some hk =>
    rw [Store.paginate, hk.createBlobKey_blobref]
    exact Store.pushUntil_eq hcount _

theorem Store.keys_boundedEntries (st : Store) (c : Option BlobKey) :
    (st.boundedEntries c).map Prod.fst = bounded c st.blobs.keys := by
  cases c with
  | none => rfl
  | some k => exact st.blobs.keys_lowerBound k

/-- **A page of the index** is a page of its keys. -/
theorem Store.paginate_keys (st : Store) {c : Option BlobKey} {t : Option Bytes}
    (h : CursorText c t) {count : ℕ} (hcount : 0 < count) :
    (st.paginate t count).map Prod.fst = (bounded c st.blobs.keys).take count := by
  rw [st.paginate_eq h hcount, List.map_take, st.keys_boundedEntries]

theorem Store.length_paginate (st : Store) {c : Option BlobKey} {t : Option Bytes}
    (h : CursorText c t) {count : ℕ} (hcount : 0 < count) :
    (st.paginate t count).length = min count (bounded c st.blobs.keys).length := by
  rw [← List.length_map (f := Prod.fst), st.paginate_keys h hcount, List.length_take]

/-- The entry asked for beyond a page of `n` has the key the next page begins with. -/
theorem Store.cursor_paginate (st : Store) {c : Option BlobKey} {t : Option Bytes}
    (h : CursorText c t) (n : ℕ) :
    (if (st.paginate t (n + 1)).length > n then (st.paginate t (n + 1)).getLast?.map Prod.fst
      else none) = (bounded c st.blobs.keys)[n]? := by
  rw [← getLast?_take, ← st.paginate_keys h n.succ_pos, List.length_map, List.getLast?_map]

/-- A page shows entries of the index. -/
theorem Store.mem_keys_of_mem_paginate {st : Store} {c : Option BlobKey} {t : Option Bytes}
    (h : CursorText c t) {count : ℕ} (hcount : 0 < count) {e : BlobKey × Blob}
    (he : e ∈ st.paginate t count) : e.1 ∈ st.blobs.keys := by
  have hmem := List.mem_map_of_mem (f := Prod.fst) he
  rw [st.paginate_keys h hcount] at hmem
  exact (bounded_suffix c _).subset (List.mem_of_mem_take hmem)

/-- The entries from an entry on are what stands from its position on. -/
theorem Store.boundedEntries_getElem (st : Store) {c : Option BlobKey} {n : ℕ}
    {e : BlobKey × Blob} (he : (st.boundedEntries c)[n]? = some e) :
    st.boundedEntries (some e.1) = (st.boundedEntries c).drop n := by
  have hsuffix : ∀ c, st.boundedEntries c <:+ st.blobs.entries := by
    rintro (_ | k)
    · exact List.suffix_rfl
    · exact st.blobs.lowerBound_suffix k
  have hkey : (bounded c st.blobs.keys)[n]? = some e.1 := by
    rw [← st.keys_boundedEntries, List.getElem?_map, he]
    rfl
  have hlen : (st.boundedEntries (some e.1)).length = ((st.boundedEntries c).drop n).length := by
    have hdrop := bounded_getElem st.blobs.pairwise_keys (bounded_suffix c _) hkey
    rw [← List.length_map (f := Prod.fst), st.keys_boundedEntries, hdrop, List.length_drop,
      ← st.keys_boundedEntries, List.length_map, List.length_drop]
  -- two suffixes of one length
  refine List.IsSuffix.eq_of_length (List.suffix_of_suffix_length_le (hsuffix _) ?_ hlen.le) hlen
  exact (List.drop_suffix _ _).trans (hsuffix c)

/-! ### Reachable stores -/

/-- What additions can lead to from an empty index and an empty data directory. -/
def Reachable (D : Digests) (cfg : Config) (st : Store) : Prop :=
  ∃ calls, addBlobs D cfg .empty calls = .ok st

/-- Every key has the form an addition computes. -/
def Store.Standard (st : Store) : Prop := ∀ k ∈ st.blobs.keys, k.Computed

/-- **What a text finds** is what is indexed under the key it is the text of. -/
theorem Store.Standard.get_eq_some_iff {st : Store} (hst : st.Standard) {hash : Bytes} {b : Blob} :
    st.get hash = some b ↔ ∃ k, k.blobref = hash ∧ st.blobs.find k = some b := by
  constructor
  · intro h
    rw [Store.get] at h
    rcases hk : createBlobKey hash with - | k
    · rw [hk] at h
      cases h
    · rw [hk] at h
      have hmem : k ∈ st.blobs.keys := OrdMap.mem_keys_iff.2 ⟨b, h⟩
      exact ⟨k, (hst k hmem).blobref_eq_of_create hk, h⟩
  · rintro ⟨k, rfl, hb⟩
    rw [(hst k (OrdMap.mem_keys_iff.2 ⟨b, hb⟩)).get_blobref]
    exact hb

theorem Recorded.standard {st : Store} {past : List Bytes} (h : Recorded D cfg st past) :
    st.Standard := by
  intro k hk
  obtain ⟨b, hb⟩ := OrdMap.mem_keys_iff.1 hk
  obtain ⟨x, -, hkx, -⟩ := h.entry hb
  exact computed_of_mem_blobKeys hkx

theorem Reachable.standard {st : Store} (h : Reachable D cfg st) : st.Standard := by
  obtain ⟨calls, hrun⟩ := h
  obtain ⟨past, hrec, -⟩ := recorded_addBlobs hrun
  exact hrec.standard

theorem Store.Standard.stored {st : Store} (h : st.Standard) (bytes : Bytes) :
    (st.stored D cfg bytes).Standard := by
  intro k hk
  rcases mem_keys_stored.1 hk with hk | hk
  · exact computed_of_mem_blobKeys hk
  · exact h k hk

theorem Store.Standard.addBlob {st : Store} (h : st.Standard) {providedHash : Option Bytes}
    {bytes : Bytes} {r : Option Blob × Store}
    (hadd : addBlob D cfg st providedHash bytes = .ok r) : r.2.Standard := by
  rw [addBlob_eq] at hadd
  split_ifs at hadd
  · obtain rfl := Except.ok.inj hadd
    exact h.stored bytes
  · obtain rfl := Except.ok.inj hadd
    exact h

/-- What a run of additions keeps: the form of the keys, and all that was there. -/
theorem Store.Standard.addBlobs {st st' : Store} (h : st.Standard) {calls : List AddCall}
    (hrun : addBlobs D cfg st calls = .ok st') : st'.Standard ∧ st.Extends st' :=
  addBlobs_induction (P := fun s ↦ s.Standard ∧ st.Extends s)
    (fun _ h hadd ↦ ⟨h.1.addBlob hadd, h.2.trans (.addBlob hadd)⟩) hrun ⟨h, .refl st⟩

end Camlispp
