import Camlispp.Store.Paginate
import Mathlib.Algebra.Ring.Parity

/-!
# Sibling keys

Every addition writes two keys, one of each digest type, and both point to the record it has
allocated. Later additions of the same content replace both, additions of another content neither,
and refused additions change nothing: so the keys of an index come in pairs with one record each.

That both keys are replaced together is where collision-freeness comes in: it makes the two digests
of a content equally new. `Paired` is the invariant, kept by every addition over strings without
collisions (`Paired.addBlob`), and the rest is read off the records, which `Recorded` describes.

`is_match` is the exception. It looks a reference up in a set that is ordered by `strcmp`, and does
not see what stands behind a `NUL`: `siblings_iff` says exactly which references it gets wrong.

## What each result rests on

* `Paired.addBlob` rests on `same_of_refused` and `find_hashes_recordOf`: a record has exactly two
  members, the texts of its two keys, and an addition is refused before it touches the index or
  stores under both.
* `even_size` needs no more than the pairing: the keys of the index are those of its records, two
  for each.
* `siblings_iff` puts them together in every state that additions reach. The part about `is_match`
  rests on `strcmp`: `get` compares whole strings, so the two disagree about a reference with
  something behind a `NUL`, and agree about every other one (`isMatch_recordOf`).

The condition is on the string that is asked about. None is needed on the run but that its strings
do not collide.
-/

open Bytes

namespace Camlispp

variable (D : Digests) (cfg : Config)

/-! ### The members of the classes -/

/-- `BlobIndex::size`: the number of entries, converted to `int`. -/
def Store.size (st : Store) : ℤ := int32 st.blobs.entries.length

/-- `Blob::hashes`, as the list of its members. -/
def Blob.members (b : Blob) : List Bytes := b.hashes.entries.map Prod.snd

/-! ### Pairs -/

/-- `b` is the record of the content `x`. -/
structure IsRecordOf (st : Store) (b : Blob) (x : Bytes) : Prop where
  sha1 : st.blobs.find (blobKeyOf D x .sha1) = some b
  sha256 : st.blobs.find (blobKeyOf D x .sha256) = some b
  /-- No other key has it. -/
  only : ∀ {k}, st.blobs.find k = some b → k = blobKeyOf D x .sha1 ∨ k = blobKeyOf D x .sha256
  members : ∀ r, r ∈ b.members ↔
    r = (blobKeyOf D x .sha1).blobref ∨ r = (blobKeyOf D x .sha256).blobref
  filePath : b.filePath = createPath cfg (blobKeyOf D x .sha256).hashValue

/-- The index after some calls, and a reference to ask its records about. -/
structure Siblings (calls : List AddCall) (st : Store) (r : Bytes) : Prop where
  /-- Every key is one of the two keys of an added content, which share its record. -/
  pairs : ∀ {k b}, st.blobs.find k = some b → ∃ c ∈ calls, c.Accepted D ∧
    IsRecordOf D cfg st b c.bytes
  even : Even st.size
  /-- A record says that a reference is its own exactly if the index says so. -/
  isMatch : ∀ {k b}, st.blobs.find k = some b → (b.isMatch r = true ↔ st.get r = some b)
  /-- Different records have different files. -/
  files : ∀ {k k' b b'}, st.blobs.find k = some b → st.blobs.find k' = some b' → b ≠ b' →
    b.filePath ≠ b'.filePath
  /-- A refused addition leaves the entries and the files alone. -/
  refused : ∀ {providedHash bytes st'}, addBlob D cfg st providedHash bytes = .ok (none, st') →
    st'.blobs = st.blobs ∧ st'.files = st.files

variable {D cfg} {st st' : Store} {S : Set Bytes}

/-! ### The record of a content -/

theorem mem_blobKeys_iff_eq {x : Bytes} {k : BlobKey} :
    k ∈ blobKeys D x ↔ k = blobKeyOf D x .sha1 ∨ k = blobKeyOf D x .sha256 := by
  simp [blobKeys]

theorem BlobKey.Computed.nul_notMem {k : BlobKey} (hk : k.Computed) : 0 ∉ k.blobref := by
  rw [k.blobref_eq, List.mem_append, List.mem_cons]
  rintro (h | h | h)
  · rcases hk.hashType with ht | ht
    · rw [ht] at h
      exact absurd h (by decide)
    · rw [ht] at h
      exact absurd h (by decide)
  · exact absurd h (by decide)
  · exact absurd (hk.hashValue 0 h) (by decide)

theorem blobKeyOf_mem_blobKeys (x : Bytes) (t : HashType) : blobKeyOf D x t ∈ blobKeys D x := by
  rw [mem_blobKeys_iff_eq]
  cases t with
  | sha1 => exact Or.inl rfl
  | sha256 => exact Or.inr rfl

theorem computed_blobKeyOf (x : Bytes) (t : HashType) : (blobKeyOf D x t).Computed :=
  computed_of_mem_blobKeys (blobKeyOf_mem_blobKeys x t)

/-- **The set of a record**: the texts of its two keys, under themselves. -/
theorem find_hashes_recordOf (addr : ℕ) (x r : Bytes) :
    (recordOf D cfg addr x).hashes.find r =
      if r = (blobKeyOf D x .sha1).blobref ∨ r = (blobKeyOf D x .sha256).blobref then some r
      else none := by
  have hhashes : (recordOf D cfg addr x).hashes =
      (OrdMap.empty.insert (cString (blobKeyOf D x .sha1).blobref)
        (blobKeyOf D x .sha1).blobref).insert (cString (blobKeyOf D x .sha256).blobref)
        (blobKeyOf D x .sha256).blobref := rfl
  rw [hhashes, cString_eq_self (computed_blobKeyOf x .sha1).nul_notMem,
    cString_eq_self (computed_blobKeyOf x .sha256).nul_notMem]
  simp only [OrdMap.find_insert, OrdMap.find_empty, Option.getD_none]
  by_cases h₂ : r = (blobKeyOf D x .sha256).blobref
  · rw [if_pos h₂, if_pos (Or.inr h₂), h₂]
    split_ifs with h₁
    · rw [h₁]
      rfl
    · rfl
  · rw [if_neg h₂]
    by_cases h₁ : r = (blobKeyOf D x .sha1).blobref
    · rw [if_pos h₁, if_pos (Or.inl h₁), h₁]
    · rw [if_neg h₁, if_neg (not_or.2 ⟨h₁, h₂⟩)]

theorem mem_members_recordOf {addr : ℕ} {x r : Bytes} :
    r ∈ (recordOf D cfg addr x).members ↔
      r = (blobKeyOf D x .sha1).blobref ∨ r = (blobKeyOf D x .sha256).blobref := by
  rw [Blob.members, List.mem_map]
  constructor
  · rintro ⟨⟨j, r⟩, he, rfl⟩
    have hfind := OrdMap.find_eq_some_iff.2 he
    rw [find_hashes_recordOf] at hfind
    split_ifs at hfind with hj
    obtain rfl := Option.some.inj hfind
    exact hj
  · intro hr
    exact ⟨(r, r), OrdMap.find_eq_some_iff.1 (by rw [find_hashes_recordOf, if_pos hr]), rfl⟩

/-- `is_match` looks at a reference up to its first `NUL`. -/
theorem isMatch_recordOf {addr : ℕ} {x r : Bytes} :
    (recordOf D cfg addr x).isMatch r = true ↔
      cString r = (blobKeyOf D x .sha1).blobref ∨ cString r = (blobKeyOf D x .sha256).blobref := by
  rw [Blob.isMatch, find_hashes_recordOf]
  split_ifs with h
  · simpa using h
  · simpa using h

/-! ### Both keys together -/

/-- What the two keys of a content share, in between any two additions. -/
structure Paired (D : Digests) (S : Set Bytes) (st : Store) : Prop where
  same : ∀ {x}, cString x ∈ S →
    st.blobs.find (blobKeyOf D x .sha1) = st.blobs.find (blobKeyOf D x .sha256)
  even : Even st.blobs.entries.length

theorem paired_empty : Paired D S .empty := ⟨fun _ ↦ rfl, ⟨0, rfl⟩⟩

/-- A content that shares a digest of one type shares those of both. -/
theorem blobKeyOf_mem_of_mem (hcf : D.CollisionFree S) {x y : Bytes} (hx : cString x ∈ S)
    (hy : cString y ∈ S) {t t' : HashType} (h : blobKeyOf D x t ∈ blobKeys D y) :
    blobKeyOf D x t' ∈ blobKeys D y := by
  have hcs := cString_eq_of_mem_blobKeys hcf hx hy (blobKeyOf_mem_blobKeys x t) h
  rw [← blobKeys_eq_of_cString_eq hcs]
  exact blobKeyOf_mem_blobKeys x t'

theorem length_stored (st : Store) (x : Bytes) :
    (st.stored D cfg x).blobs.entries.length =
      st.blobs.entries.length + (if blobKeyOf D x .sha1 ∈ st.blobs.keys then 0 else 1) +
        if blobKeyOf D x .sha256 ∈ st.blobs.keys then 0 else 1 := by
  have hne : blobKeyOf D x .sha256 ≠ blobKeyOf D x .sha1 := fun h ↦
    absurd (BlobKey.mk.inj h).1 (by decide)
  have hstored : (st.stored D cfg x).blobs =
      (st.blobs.assign (blobKeyOf D x .sha1) (recordOf D cfg st.allocated x)).assign
        (blobKeyOf D x .sha256) (recordOf D cfg st.allocated x) := rfl
  simp only [hstored, OrdMap.length_assign, OrdMap.mem_keys_assign, hne, false_or]
  split_ifs <;> omega

theorem Paired.stored (h : Paired D S st) (hcf : D.CollisionFree S) {x : Bytes}
    (hx : cString x ∈ S) : Paired D S (st.stored D cfg x) where
  same := by
    intro y hy
    rw [find_blobs_stored, find_blobs_stored, h.same hy]
    refine if_congr ⟨fun h ↦ ?_, fun h ↦ ?_⟩ rfl rfl
    · exact blobKeyOf_mem_of_mem hcf hy hx h
    · exact blobKeyOf_mem_of_mem hcf hy hx h
  even := by
    have hboth : blobKeyOf D x .sha1 ∈ st.blobs.keys ↔ blobKeyOf D x .sha256 ∈ st.blobs.keys := by
      rw [OrdMap.mem_keys_iff, OrdMap.mem_keys_iff, h.same hx]
    rw [length_stored]
    by_cases hk : blobKeyOf D x .sha256 ∈ st.blobs.keys
    · simpa [hboth, hk] using h.even
    · rw [if_neg (mt hboth.1 hk), if_neg hk]
      exact h.even.add_one.add_one

/-- **An addition replaces both keys or neither.** -/
theorem Paired.addBlob (h : Paired D S st) (hcf : D.CollisionFree S) {c : AddCall}
    (hc : cString c.bytes ∈ S) {r : Option Blob × Store}
    (hadd : Camlispp.addBlob D cfg st c.providedHash c.bytes = .ok r) : Paired D S r.2 := by
  rw [addBlob_eq] at hadd
  split_ifs at hadd
  · obtain rfl := Except.ok.inj hadd
    exact h.stored hcf hc
  · obtain rfl := Except.ok.inj hadd
    exact ⟨h.same, h.even⟩

theorem paired_addBlobs {calls : List AddCall} (hcf : D.CollisionFree (digested calls))
    (hrun : addBlobs D cfg .empty calls = .ok st) : Paired D (digested calls) st :=
  addBlobs_induction (fun hc h hadd ↦ h.addBlob hcf ⟨_, hc, rfl⟩ hadd) hrun paired_empty

/-! ### Every index -/

section Index

variable {calls : List AddCall} (hcf : D.CollisionFree (digested calls))
  (hrun : addBlobs D cfg .empty calls = .ok st)

include hcf hrun

/-- **Every record is that of an added content.** -/
theorem exists_isRecordOf {k : BlobKey} {b : Blob} (hb : st.blobs.find k = some b) :
    ∃ c ∈ calls, c.Accepted D ∧ k ∈ blobKeys D c.bytes ∧ IsRecordOf D cfg st b c.bytes ∧
      ∃ addr, b = recordOf D cfg addr c.bytes := by
  obtain ⟨past, hrec, hmem⟩ := recorded_addBlobs hrun
  have hpair := paired_addBlobs hcf hrun
  have hS : ∀ x ∈ past, cString x ∈ digested calls := fun x hx ↦ by
    obtain ⟨c, hc, -, rfl⟩ := (hmem x).1 hx
    exact ⟨c, hc, rfl⟩
  obtain ⟨x, hx, hk, addr, rfl⟩ := hrec.entry hb
  obtain ⟨c, hc, hacc, rfl⟩ := (hmem x).1 hx
  have hsame := hpair.same (hS _ hx)
  have hboth : st.blobs.find (blobKeyOf D c.bytes .sha1) = some (recordOf D cfg addr c.bytes) ∧
      st.blobs.find (blobKeyOf D c.bytes .sha256) = some (recordOf D cfg addr c.bytes) := by
    rcases mem_blobKeys_iff_eq.1 hk with rfl | rfl
    · exact ⟨hb, hsame ▸ hb⟩
    · exact ⟨hsame.trans hb, hb⟩
  refine ⟨c, hc, hacc, hk, ⟨hboth.1, hboth.2, fun {j} hj ↦ ?_, fun r ↦ mem_members_recordOf, ?_⟩,
    addr, rfl⟩
  · -- a record under another key would have the path of another content
    obtain ⟨y, hy, hjy, addr', heq⟩ := hrec.entry hj
    have hpath : pathOf D cfg c.bytes = pathOf D cfg y := by
      have hfile := congrArg Blob.filePath heq
      rwa [filePath_recordOf, filePath_recordOf] at hfile
    have hcs := cString_eq_of_pathOf_eq hcf (hS _ hx) (hS y hy) hpath
    rw [← blobKeys_eq_of_cString_eq hcs] at hjy
    exact mem_blobKeys_iff_eq.1 hjy
  · exact filePath_recordOf addr c.bytes

theorem filePath_ne {k k' : BlobKey} {b b' : Blob} (hb : st.blobs.find k = some b)
    (hb' : st.blobs.find k' = some b') (hne : b ≠ b') : b.filePath ≠ b'.filePath := by
  intro hpath
  obtain ⟨c, hc, -, -, hrec, -⟩ := exists_isRecordOf hcf hrun hb
  obtain ⟨c', hc', -, -, hrec', -⟩ := exists_isRecordOf hcf hrun hb'
  rw [hrec.filePath, hrec'.filePath] at hpath
  have hkey : blobKeyOf D c.bytes .sha256 = blobKeyOf D c'.bytes .sha256 :=
    congrArg (BlobKey.mk (lit "sha256")) (createPath_injective cfg hpath)
  refine hne (Option.some.inj ?_)
  rw [← hrec.sha256, hkey, hrec'.sha256]

theorem get_eq_some_iff_mem {k : BlobKey} {b : Blob} (hb : st.blobs.find k = some b) {r : Bytes} :
    st.get r = some b ↔ r ∈ b.members := by
  obtain ⟨c, hc, -, -, hrec, -⟩ := exists_isRecordOf hcf hrun hb
  rw [(Reachable.standard ⟨calls, hrun⟩).get_eq_some_iff, hrec.members]
  constructor
  · rintro ⟨j, rfl, hj⟩
    rcases hrec.only hj with rfl | rfl
    · exact Or.inl rfl
    · exact Or.inr rfl
  · rintro (rfl | rfl)
    · exact ⟨_, rfl, hrec.sha1⟩
    · exact ⟨_, rfl, hrec.sha256⟩

theorem isMatch_iff_mem {k : BlobKey} {b : Blob} (hb : st.blobs.find k = some b) {r : Bytes} :
    b.isMatch r = true ↔ cString r ∈ b.members := by
  obtain ⟨c, -, -, -, -, addr, rfl⟩ := exists_isRecordOf hcf hrun hb
  rw [isMatch_recordOf, mem_members_recordOf]

theorem nul_notMem_of_mem {k : BlobKey} {b : Blob} (hb : st.blobs.find k = some b) {r : Bytes}
    (hr : r ∈ b.members) : 0 ∉ r := by
  obtain ⟨c, hc, -, -, hrec, -⟩ := exists_isRecordOf hcf hrun hb
  rcases (hrec.members r).1 hr with rfl | rfl
  · exact (computed_blobKeyOf _ _).nul_notMem
  · exact (computed_blobKeyOf _ _).nul_notMem

theorem even_size : Even st.size := by
  have hlen : Even (st.blobs.entries.length : ℤ) :=
    (Int.even_coe_nat _).2 (paired_addBlobs hcf hrun).even
  have hpow : Even ((2 ^ 32 : ℕ) : ℤ) := (Int.even_coe_nat _).2 (by decide)
  -- the conversion takes away a multiple of 2^32
  rw [Store.size, int32, Int.bmod_eq_self_sub_mul_bdiv]
  exact hlen.sub (hpow.mul_right _)

end Index

/-- A refused addition changes neither the entries nor the files. -/
theorem same_of_refused {providedHash : Option Bytes} {bytes : Bytes}
    (h : addBlob D cfg st providedHash bytes = .ok (none, st')) :
    st'.blobs = st.blobs ∧ st'.files = st.files := by
  rw [addBlob_eq] at h
  split_ifs at h
  · cases h
  · cases h
    exact ⟨rfl, rfl⟩

/-- **When the siblings are right.** In every state that additions reach, over strings without
collisions, everything holds, but for references with a `NUL` behind one the index knows: those
`is_match` takes for the reference before the `NUL`. -/
theorem siblings_iff (D : Digests) (cfg : Config) (calls : List AddCall) (st : Store) (r : Bytes)
    (hcf : D.CollisionFree (digested calls)) (hrun : addBlobs D cfg .empty calls = .ok st) :
    Siblings D cfg calls st r ↔ (0 ∈ r → st.get (cString r) = none) := by
  constructor
  · intro h hnul
    rw [Option.eq_none_iff_forall_ne_some]
    intro b hb
    obtain ⟨k, hk, hfind⟩ := (Reachable.standard ⟨calls, hrun⟩).get_eq_some_iff.1 hb
    -- the record behind the cut reference matches, and is not found
    have hmem := (get_eq_some_iff_mem hcf hrun hfind).1 hb
    have hget := (h.isMatch hfind).1 ((isMatch_iff_mem hcf hrun hfind).2 hmem)
    exact nul_notMem_of_mem hcf hrun hfind ((get_eq_some_iff_mem hcf hrun hfind).1 hget) hnul
  · intro h
    refine ⟨fun hb ↦ ?_, even_size hcf hrun, fun hb ↦ ?_, filePath_ne hcf hrun, same_of_refused⟩
    · obtain ⟨c, hc, hacc, -, hrec, -⟩ := exists_isRecordOf hcf hrun hb
      exact ⟨c, hc, hacc, hrec⟩
    · rw [isMatch_iff_mem hcf hrun hb, get_eq_some_iff_mem hcf hrun hb]
      by_cases hnul : 0 ∈ r
      · refine iff_of_false (fun hmem ↦ ?_) fun hmem ↦ ?_
        · rw [(get_eq_some_iff_mem hcf hrun hb).2 hmem] at h
          exact absurd (h hnul) (by simp)
        · exact nul_notMem_of_mem hcf hrun hb hmem hnul
      · rw [cString_eq_self hnul]

/-- A content, a refused addition of another one, and the content again. -/
theorem siblings_a_refused : ∃ st,
    addBlobs Digests.sample {} .empty
      [⟨none, [97]⟩, ⟨some (lit "sha1-0"), [98]⟩, ⟨none, [97]⟩] = .ok st ∧
    Siblings Digests.sample {} [⟨none, [97]⟩, ⟨some (lit "sha1-0"), [98]⟩, ⟨none, [97]⟩] st
      keyOfA.blobref := by
  have hne : ∀ c ∈ [(⟨none, [97]⟩ : AddCall), ⟨some (lit "sha1-0"), [98]⟩, ⟨none, [97]⟩],
      c.bytes ≠ [] := by decide
  obtain ⟨st, hrun⟩ := exists_addBlobs_eq_ok Digests.sample {} hne .empty
  refine ⟨st, hrun, (siblings_iff _ _ _ _ _ ?_ hrun).2 fun hnul ↦ ?_⟩
  · have hset : digested [⟨none, [97]⟩, ⟨some (lit "sha1-0"), [98]⟩, ⟨none, [97]⟩] =
        {[97], [98]} := by
      ext s
      simp [digested, cString]
      tauto
    rw [hset]
    constructor <;> simp [Set.InjOn] <;> decide
  · exact absurd hnul computed_keyOfA.nul_notMem

/-- The SHA-1 reference of `a` with a `NUL` behind it: the record of `a` matches it, and the index
does not know it. -/
theorem not_siblings_nul : Digests.sample.CollisionFree (digested [⟨none, [97]⟩]) ∧ ∃ st,
    addBlobs Digests.sample {} .empty [⟨none, [97]⟩] = .ok st ∧
    ¬Siblings Digests.sample {} [⟨none, [97]⟩] st (keyOfA.blobref ++ [0]) := by
  refine ⟨?_, _, rfl, fun h ↦ ?_⟩
  · have hset : digested [⟨none, [97]⟩] = {[97]} := by
      ext s
      simp [digested, cString]
    rw [hset]
    constructor <;> simp [Set.InjOn]
  · have hmatch := h.isMatch (k := keyOfA) (b := recordOf Digests.sample {} 0 [97])
      (by decide +kernel)
    exact absurd (hmatch.1 (by decide +kernel)) (by decide +kernel)

end Camlispp
