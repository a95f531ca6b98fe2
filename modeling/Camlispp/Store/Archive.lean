import Camlispp.Store.ContentAddressing

/-!
# What the store is for

An archive is a **set of contents**: adding puts one in, nothing takes one out, and a key stands for
the content it is a digest of. The order of additions, how often a content was added, the addresses
of the records and the directory of the files are no part of it.

`Store.Archives` says that a store holds a set of contents. The store still knows more than the
set, but not where it can be seen: `Store.catalog` is everything the handlers read, a size and the
bytes behind each key, and two stores of one set have one catalog (`catalog_eq_of_archives`), in
whatever order, and into whatever directories, the contents came.

This takes contents that can be told apart by what the digest functors see of them (`Separate`):
without collisions, and not different only behind a `NUL`. For two contents with one C string the
first file and the last record win, and the order shows.

## What each result rests on

* `Store.Archives.find_catalog_iff` rests on `Recorded`, and on `eq_of_mem_blobKeys`: two contents
  of the set share no key. Under that assumption the last content of a key and the first content of
  a file are the same one.
* `catalog_eq_of_archives` follows from it by `ext_find`: a map is what its lookups return.

The layers above speak of sets only. `Replica` reads the handlers through the catalog, and
`Exchange` and `Network` say what a sync does to the sets.
-/

open Bytes

namespace Camlispp

variable {D : Digests} {cfg cfg' : Config} {st st' : Store} {S : Set Bytes}

/-! ### Contents that can be told apart -/

/-- The digests tell the contents of the set apart. -/
structure Separate (D : Digests) (S : Set Bytes) : Prop where
  /-- No two contents agree up to their first `NUL`. -/
  cut : S.InjOn cString
  /-- No two of the strings that are hashed share a digest. -/
  free : D.CollisionFree (cString '' S)

namespace Separate

theorem mono {T : Set Bytes} (h : Separate D S) (hT : T ⊆ S) : Separate D T where
  cut := h.cut.mono hT
  free := ⟨h.free.1.mono (Set.image_mono hT), h.free.2.mono (Set.image_mono hT)⟩

/-- A key belongs to one content. -/
theorem eq_of_mem_blobKeys (h : Separate D S) {x y : Bytes} (hx : x ∈ S) (hy : y ∈ S)
    {k : BlobKey} (hkx : k ∈ blobKeys D x) (hky : k ∈ blobKeys D y) : x = y :=
  h.cut hx hy (cString_eq_of_mem_blobKeys h.free (Set.mem_image_of_mem _ hx)
    (Set.mem_image_of_mem _ hy) hkx hky)

/-- A path belongs to one content. -/
theorem eq_of_pathOf_eq (h : Separate D S) {x y : Bytes} (hx : x ∈ S) (hy : y ∈ S)
    (hpath : pathOf D cfg x = pathOf D cfg y) : x = y :=
  h.cut hx hy (cString_eq_of_pathOf_eq h.free (Set.mem_image_of_mem _ hx)
    (Set.mem_image_of_mem _ hy) hpath)

end Separate

/-- The digests of the sample tell `a` from `b`. -/
theorem separate_sample : Separate Digests.sample {[97], [98]} where
  cut := by simp [Set.InjOn, cString]
  free := by
    have himage : cString '' {[97], [98]} = {[97], [98]} := by simp [Set.image_pair, cString]
    rw [himage]
    constructor <;> simp [Set.InjOn] <;> decide

/-! ### Stores of a set -/

/-- The store holds the contents of the set, and nothing else. -/
def Store.Archives (D : Digests) (cfg : Config) (st : Store) (S : Set Bytes) : Prop :=
  ∃ past, Recorded D cfg st past ∧ ∀ x, x ∈ past ↔ x ∈ S

theorem archives_empty : Store.empty.Archives D cfg ∅ := ⟨[], recorded_empty, by simp⟩

/-- The contents a sequence of additions puts in. -/
def addedBy (D : Digests) (calls : List AddCall) : Set Bytes :=
  {x | ∃ c ∈ calls, c.Accepted D ∧ c.bytes = x}

/-- **Additions put in their contents.** -/
theorem Store.Archives.addBlobs {calls : List AddCall} (h : st.Archives D cfg S)
    (hrun : addBlobs D cfg st calls = .ok st') :
    st'.Archives D cfg (S ∪ addedBy D calls) := by
  obtain ⟨past, hrec, hmem⟩ := h
  obtain ⟨past', hrec', hmem'⟩ := hrec.addBlobs hrun
  refine ⟨past', hrec', fun x ↦ ?_⟩
  rw [hmem', hmem]
  rfl

theorem archives_addBlobs {calls : List AddCall} (hrun : addBlobs D cfg .empty calls = .ok st) :
    st.Archives D cfg (addedBy D calls) := by
  have harch := archives_empty.addBlobs hrun
  rwa [Set.empty_union] at harch

theorem Store.Archives.congr {T : Set Bytes} (h : st.Archives D cfg S) (hT : S = T) :
    st.Archives D cfg T := hT ▸ h

/-- The keys of a store are those of its contents. -/
theorem Store.Archives.mem_keys_iff (h : st.Archives D cfg S) {k : BlobKey} :
    k ∈ st.blobs.keys ↔ ∃ x ∈ S, k ∈ blobKeys D x := by
  obtain ⟨past, hrec, hmem⟩ := h
  constructor
  · intro hk
    obtain ⟨b, hb⟩ := OrdMap.mem_keys_iff.1 hk
    obtain ⟨x, hx, hkx, -⟩ := hrec.entry hb
    exact ⟨x, (hmem x).1 hx, hkx⟩
  · rintro ⟨x, hx, hk⟩
    exact hrec.keys x ((hmem x).2 hx) k hk

theorem Store.Archives.ne_nil (h : st.Archives D cfg S) {x : Bytes} (hx : x ∈ S) : x ≠ [] := by
  obtain ⟨past, hrec, hmem⟩ := h
  exact hrec.ne_nil x ((hmem x).2 hx)

theorem Store.Archives.stored (h : st.Archives D cfg S) {x : Bytes} (hx : x ≠ []) :
    (st.stored D cfg x).Archives D cfg (insert x S) := by
  obtain ⟨past, hrec, hmem⟩ := h
  refine ⟨x :: past, hrec.stored hx, fun y ↦ ?_⟩
  rw [List.mem_cons, hmem, Set.mem_insert_iff]

/-- Among contents that can be told apart, a key says which content is there. -/
theorem Store.Archives.mem_of_key {U : Set Bytes} (h : st.Archives D cfg S) (hU : Separate D U)
    (hS : S ⊆ U) {x : Bytes} (hx : x ∈ U) {k : BlobKey} (hk : k ∈ blobKeys D x)
    (hkey : k ∈ st.blobs.keys) : x ∈ S := by
  obtain ⟨y, hy, hky⟩ := h.mem_keys_iff.1 hkey
  exact hU.eq_of_mem_blobKeys hx (hS hy) hk hky ▸ hy

/-! ### The catalog -/

/-- Everything a store is asked for: under each key the size of the record and the bytes of the
file it points to. -/
def Store.catalog (st : Store) : OrdMap BlobKey (ℤ × Option Bytes) :=
  st.blobs.mapValues fun b ↦ (b.size, st.files.find b.filePath)

/-- **The catalog is read off the set**: under the keys of each content, its length and its
bytes. -/
theorem Store.Archives.find_catalog_iff (h : st.Archives D cfg S) (hS : Separate D S)
    {k : BlobKey} {v : ℤ × Option Bytes} :
    st.catalog.find k = some v ↔
      ∃ x ∈ S, k ∈ blobKeys D x ∧ v = (int32 x.length, some x) := by
  obtain ⟨past, hrec, hmem⟩ := h
  -- the record of a content points to the file of that content
  have hfile : ∀ x ∈ S, st.files.find (pathOf D cfg x) = some x := by
    intro x hx
    obtain ⟨y, hy⟩ := hrec.files x ((hmem x).2 hx)
    obtain ⟨hpast, hpath⟩ := hrec.file hy
    rw [hy, hS.eq_of_pathOf_eq hx ((hmem y).1 hpast) hpath]
  rw [catalog, OrdMap.find_mapValues, Option.map_eq_some_iff]
  constructor
  · rintro ⟨b, hb, rfl⟩
    obtain ⟨x, hx, hk, addr, rfl⟩ := hrec.entry hb
    have hxS := (hmem x).1 hx
    exact ⟨x, hxS, hk, by rw [size_recordOf, filePath_recordOf, hfile x hxS]⟩
  · rintro ⟨x, hx, hk, rfl⟩
    obtain ⟨b, hb⟩ := OrdMap.mem_keys_iff.1 (hrec.keys x ((hmem x).2 hx) k hk)
    obtain ⟨y, hy, hky, addr, rfl⟩ := hrec.entry hb
    obtain rfl := hS.eq_of_mem_blobKeys hx ((hmem y).1 hy) hk hky
    exact ⟨_, hb, by rw [size_recordOf, filePath_recordOf, hfile x hx]⟩

/-- **Stores of one set have one catalog**, whatever their directories. -/
theorem catalog_eq_of_archives (h : st.Archives D cfg S) (h' : st'.Archives D cfg' S)
    (hS : Separate D S) : st.catalog = st'.catalog := by
  refine OrdMap.ext_find fun k ↦ Option.ext fun v ↦ ?_
  rw [h.find_catalog_iff hS, h'.find_catalog_iff hS]

end Camlispp
