import Camlispp.Library.OrdMap
import Camlispp.Store.BlobKey

/-!
# The blob index

`BlobIndex` with the data directory it writes to: adding a blob, looking one up, and walking the
index in key order.

The digest functions come from a library that is not part of the program, so they are a parameter
(`Digests`): two functions from byte strings to their digest in upper-case hex, about which nothing
else is assumed here. What the program hands them is modelled as it is: the functors receive a
pointer **and** a length, and read the pointer as a C string (`callSha1`, `callSha256`).

A `Blob *` is modelled by the record with the number of its allocation (`Blob.addr`). Records are
written only by the addition that allocates them, before it releases the lock, so the pointer and
the pointed-to record never come apart; the number keeps two records of one content distinct.

`addBlob` runs in `Except Fault`: the assertion on the length of the content is a step that can
stop the process, and every caller has to say why it does not.
-/

open Bytes

namespace Camlispp

/-! ### Digests -/

/-- The digest library: the two digests of a byte string, as upper-case hex. -/
structure Digests where
  /-- SHA-1. -/
  sha1 : Bytes → Bytes
  /-- SHA-256. -/
  sha256 : Bytes → Bytes
  /-- The hex encoder writes digits and the letters `A` to `F`. -/
  sha1_hex : ∀ s, ∀ b ∈ sha1 s, isUpperHex b
  /-- The hex encoder writes digits and the letters `A` to `F`. -/
  sha256_hex : ∀ s, ∀ b ∈ sha256 s, isUpperHex b

namespace Digests

variable (D : Digests)

/-- `Sha1::operator()(const char *s, size_t len)`. The source reads `s` up to the first `NUL` and
never looks at `len`. -/
def callSha1 (s : Bytes) (_len : ℕ) : Bytes := D.sha1 (cString s)

/-- `Sha256::operator()(const char *s, size_t len)`, likewise. -/
def callSha256 (s : Bytes) (_len : ℕ) : Bytes := D.sha256 (cString s)

/-- No two strings of `S` share a digest of either type. -/
def CollisionFree (S : Set Bytes) : Prop := S.InjOn D.sha1 ∧ S.InjOn D.sha256

/-- Digests read from a table: the tabulated pair for a listed string, zeros for any other. -/
def ofTable (t : List (Bytes × Bytes × Bytes))
    (h : ∀ e ∈ t, (∀ b ∈ e.2.1, isUpperHex b) ∧ ∀ b ∈ e.2.2, isUpperHex b) : Digests where
  sha1 s := ((t.find? fun e ↦ e.1 = s).map fun e ↦ e.2.1).getD (List.replicate 40 48)
  sha256 s := ((t.find? fun e ↦ e.1 = s).map fun e ↦ e.2.2).getD (List.replicate 64 48)
  sha1_hex s := by
    rcases hs : t.find? (fun e ↦ e.1 = s) with - | e
    · rw [hs]
      exact List.all_eq_true.1 (by decide +kernel)
    · rw [hs]
      exact (h e (List.mem_of_find?_eq_some hs)).1
  sha256_hex s := by
    rcases hs : t.find? (fun e ↦ e.1 = s) with - | e
    · rw [hs]
      exact List.all_eq_true.1 (by decide +kernel)
    · rw [hs]
      exact (h e (List.mem_of_find?_eq_some hs)).2

/-- The digits of a table, checked one after another. -/
theorem isUpperHex_of_all {t : List (Bytes × Bytes × Bytes)}
    (h : (t.all fun e ↦ e.2.1.all isUpperHex && e.2.2.all isUpperHex) = true) :
    ∀ e ∈ t, (∀ b ∈ e.2.1, isUpperHex b) ∧ ∀ b ∈ e.2.2, isUpperHex b := by
  intro e he
  have hboth := List.all_eq_true.1 h e he
  rw [Bool.and_eq_true, List.all_eq_true, List.all_eq_true] at hboth
  exact hboth

/-- The SHA-1 and SHA-256 digests of the empty string, of `a`, `b` and `a NUL b`, and of the two
bytes `C3 A9`. -/
def sample : Digests := ofTable
  [([], lit "DA39A3EE5E6B4B0D3255BFEF95601890AFD80709",
      lit "E3B0C44298FC1C149AFBF4C8996FB92427AE41E4649B934CA495991B7852B855"),
    ([97], lit "86F7E437FAA5A7FCE15D1DDCB9EAEAEA377667B8",
      lit "CA978112CA1BBDCAFAC231B39A23DC4DA786EFF8147C4E72B9807785AFEE48BB"),
    ([98], lit "E9D71F5EE7C92D6DC9E92FFDAD17B8BD49418F98",
      lit "3E23E8160039594A33894F6564E1B1348BBD7A0088D42C4ACB73EEAED59C009D"),
    ([97, 0, 98], lit "4A3DEC2D1F8245280855C42DB0EE4239F917FDB8",
      lit "59B271AE1BBCB1D31D41929817F4B16FB439EB4F31520B5AD1D5CE98920A7138"),
    ([195, 169], lit "BF15BE717AC1B080B4F1C456692825891FF5073D",
      lit "4A99557E4033C3539DE2EB65472017CAD5F9557F7A0625A09F1C3F6E2BA69C4C")]
  (isUpperHex_of_all (by decide +kernel))

end Digests

/-- The digest types an addition computes. -/
inductive HashType
  | sha1
  | sha256
deriving DecidableEq

/-! ### The index -/

/-- The configuration the store and the handlers read. -/
structure Config where
  /-- Where blobs are written. -/
  directory : Bytes := lit "/tmp/"
  /-- Where static files are served from. -/
  staticDirectory : Bytes := lit "./static/"

/-- A blob record. `hashes` is a set ordered by `strcmp`, so its members are told apart by the part
before their first `NUL`. -/
structure Blob where
  /-- Which allocation this record is: the identity of the pointer. -/
  addr : ℕ
  filePath : Bytes
  size : ℤ
  /-- The size is an `int`. -/
  size_range : -2 ^ 31 ≤ size ∧ size < 2 ^ 31
  hashes : OrdMap Bytes Bytes
deriving DecidableEq

namespace Blob

/-- A fresh record. -/
def new (addr : ℕ) (filePath : Bytes) : Blob := ⟨addr, filePath, 0, by decide, .empty⟩

/-- `Blob::size(int)`: the argument is converted to `int`. -/
def setSize (b : Blob) (size : ℕ) : Blob :=
  { b with size := int32 size, size_range := int32_range size }

def addHash (b : Blob) (hash : Bytes) : Blob :=
  { b with hashes := b.hashes.insert (cString hash) hash }

@[simp] theorem filePath_addHash (b : Blob) (hash : Bytes) :
    (b.addHash hash).filePath = b.filePath := rfl

@[simp] theorem size_addHash (b : Blob) (hash : Bytes) : (b.addHash hash).size = b.size := rfl

def isMatch (b : Blob) (hash : Bytes) : Bool := (b.hashes.find (cString hash)).isSome

end Blob

/-- The index together with the data directory: what `add_blob` reads and writes. -/
structure Store where
  /-- The map from keys to records. -/
  blobs : OrdMap BlobKey Blob
  /-- How many records have been allocated. -/
  allocated : ℕ
  /-- The files of the data directory, by path. -/
  files : OrdMap Bytes Bytes
deriving DecidableEq

/-- Nothing indexed, nothing written. -/
def Store.empty : Store := ⟨.empty, 0, .empty⟩

/-- What can stop the process. -/
inductive Fault
  /-- A failed `assert`. -/
  | assertFailed
  /-- An exception that nothing catches. -/
  | runtimeError
  /-- A loop that does not end. -/
  | endless
deriving DecidableEq

variable (D : Digests) (cfg : Config)

/-- `create_path`: a directory named by the first three digits, a file named by all of them. -/
def createPath (hash : Bytes) : Bytes :=
  let directory :=
    if (lit "/").isSuffixOf cfg.directory then cfg.directory else cfg.directory ++ lit "/"
  directory ++ hash.take 3 ++ lit "/" ++ hash ++ lit ".dat"

/-- One arm of the `switch` over the digest types. -/
def blobKeyOf (bytes : Bytes) : HashType → BlobKey
  | .sha1 => ⟨lit "sha1", D.callSha1 bytes bytes.length⟩
  | .sha256 => ⟨lit "sha256", D.callSha256 bytes bytes.length⟩

/-- The provided-hash check: without a hash anything passes, with one it must be the text of one of
the computed keys. -/
def providedHashOk (blobKeys : List BlobKey) : Option Bytes → Bool
  | none => true
  | some providedHash =>
    (createBlobKey providedHash).isSome && blobKeys.any fun k ↦ k.blobref = providedHash

/-- `add_blob` with the digest types spelled out. Both loops over the keys run under the lock, and
the map holds pointers: whoever looks a key up later sees the record with all its hashes. -/
def addBlobAs (st : Store) (providedHash : Option Bytes) (bytes : Bytes)
    (hashTypes : List HashType) : Except Fault (Option Blob × Store) :=
  if bytes.length = 0 then .error .assertFailed
  else
    let path := createPath cfg (D.callSha256 bytes bytes.length)
    let b := (Blob.new st.allocated path).setSize bytes.length
    let st := { st with allocated := st.allocated + 1 }
    let blobKeys := hashTypes.map (blobKeyOf D bytes)
    if providedHashOk blobKeys providedHash = false then .ok (none, st)
    else
      let b := blobKeys.foldl (fun b k ↦ b.addHash k.blobref) b
      let blobs := blobKeys.foldl (fun m k ↦ m.assign k b) st.blobs
      let files :=
        if (st.files.find path).isSome then st.files else st.files.assign path bytes
      .ok (some b, { st with blobs := blobs, files := files })

/-- `add_blob`: both digests are computed. -/
def addBlob (st : Store) (providedHash : Option Bytes) (bytes : Bytes) :
    Except Fault (Option Blob × Store) :=
  addBlobAs D cfg st providedHash bytes [.sha1, .sha256]

namespace Store

/-- `BlobIndex::get`. -/
def get (st : Store) (hash : Bytes) : Option Blob :=
  match createBlobKey hash with
  | some blobKey => st.blobs.find blobKey
  | none => none

/-- The loop of `paginate`: append entries until there are `count` of them. -/
def pushUntil (count : ℕ) (blobs : List (BlobKey × Blob)) :
    List (BlobKey × Blob) → List (BlobKey × Blob)
  | [] => blobs
  | e :: rest =>
    let blobs := blobs ++ [e]
    if blobs.length ≥ count then blobs else pushUntil count blobs rest

/-- `BlobIndex::paginate` into an empty vector. -/
def paginate (st : Store) (last : Option Bytes) (count : ℕ) : List (BlobKey × Blob) :=
  let start :=
    match last with
    | some last =>
      match createBlobKey last with
      | some b => st.blobs.lowerBound b
      | none => st.blobs.entries
    | none => st.blobs.entries
  pushUntil count [] start

end Store

/-! ### What an addition stores -/

/-- The keys an addition computes for a content. -/
def blobKeys (bytes : Bytes) : List BlobKey := [HashType.sha1, .sha256].map (blobKeyOf D bytes)

/-- The path an addition computes for a content. -/
def pathOf (bytes : Bytes) : Bytes := createPath cfg (D.callSha256 bytes bytes.length)

/-- The record of a content, as allocation number `addr`. -/
def recordOf (addr : ℕ) (bytes : Bytes) : Blob :=
  (blobKeys D bytes).foldl (fun b k ↦ b.addHash k.blobref)
    ((Blob.new addr (pathOf D cfg bytes)).setSize bytes.length)

/-- The store after an addition that passes the check. -/
def Store.stored (st : Store) (bytes : Bytes) : Store where
  blobs := (blobKeys D bytes).foldl (fun m k ↦ m.assign k (recordOf D cfg st.allocated bytes))
    st.blobs
  allocated := st.allocated + 1
  files :=
    if (st.files.find (pathOf D cfg bytes)).isSome then st.files
    else st.files.assign (pathOf D cfg bytes) bytes

/-- The store after an addition that is refused: the record was allocated and is lost. -/
def Store.refused (st : Store) : Store := { st with allocated := st.allocated + 1 }

variable {D cfg}

/-- **Everything an addition can do**: fail its assertion, be refused, or store the content. -/
theorem addBlob_eq (st : Store) (providedHash : Option Bytes) (bytes : Bytes) :
    addBlob D cfg st providedHash bytes =
      if bytes = [] then .error .assertFailed
      else if providedHashOk (blobKeys D bytes) providedHash then
        .ok (some (recordOf D cfg st.allocated bytes), st.stored D cfg bytes)
      else .ok (none, st.refused) := by
  rw [addBlob, addBlobAs]
  by_cases hnil : bytes = []
  · rw [if_pos hnil, if_pos (by rw [hnil]; rfl)]
  · rw [if_neg hnil, if_neg (by rwa [List.length_eq_zero_iff])]
    change (if providedHashOk (blobKeys D bytes) providedHash = false then _ else _) = _
    cases providedHashOk (blobKeys D bytes) providedHash <;> rfl

/-- An addition of a non-empty content meets no assertion. -/
theorem exists_addBlob_eq_ok (D : Digests) (cfg : Config) {bytes : Bytes} (h : bytes ≠ [])
    (st : Store) (providedHash : Option Bytes) :
    ∃ r, addBlob D cfg st providedHash bytes = .ok r := by
  rw [addBlob_eq, if_neg h]
  split_ifs
  · exact ⟨_, rfl⟩
  · exact ⟨_, rfl⟩

/-- An addition of a non-empty content without a provided hash always stores it. -/
theorem addBlob_none {bytes : Bytes} (h : bytes ≠ []) (st : Store) :
    addBlob D cfg st none bytes =
      .ok (some (recordOf D cfg st.allocated bytes), st.stored D cfg bytes) := by
  rw [addBlob_eq, if_neg h]
  rfl

theorem mem_blobKeys_iff {bytes : Bytes} {k : BlobKey} :
    k ∈ blobKeys D bytes ↔ k = ⟨lit "sha1", D.sha1 (cString bytes)⟩ ∨
      k = ⟨lit "sha256", D.sha256 (cString bytes)⟩ := by
  simp [blobKeys, blobKeyOf, Digests.callSha1, Digests.callSha256]

/-- The form of a key that an addition computes. -/
structure BlobKey.Computed (k : BlobKey) : Prop where
  hashType : k.hashType = lit "sha1" ∨ k.hashType = lit "sha256"
  hashValue : ∀ b ∈ k.hashValue, isUpperHex b

theorem computed_of_mem_blobKeys {bytes : Bytes} {k : BlobKey} (h : k ∈ blobKeys D bytes) :
    k.Computed := by
  rcases mem_blobKeys_iff.1 h with rfl | rfl
  · exact ⟨Or.inl rfl, D.sha1_hex _⟩
  · exact ⟨Or.inr rfl, D.sha256_hex _⟩

/-- The key of the content `a` by its SHA-1 digest. -/
def keyOfA : BlobKey := blobKeyOf Digests.sample [97] .sha1

theorem computed_keyOfA : keyOfA.Computed :=
  computed_of_mem_blobKeys (D := Digests.sample) (List.mem_cons_self (l := [_]))

theorem BlobKey.Computed.createBlobKey_blobref {k : BlobKey} (hk : k.Computed) :
    createBlobKey k.blobref = some k := by
  rcases hk.hashType with h | h
  · exact Camlispp.createBlobKey_blobref (by rw [h]; decide) (by rw [h]; decide)
  · exact Camlispp.createBlobKey_blobref (by rw [h]; decide) (by rw [h]; decide)

theorem BlobKey.Computed.eq_of_blobref {k k' : BlobKey} (hk : k.Computed) (hk' : k'.Computed)
    (h : k.blobref = k'.blobref) : k = k' := by
  have heq := hk.createBlobKey_blobref
  rw [h, hk'.createBlobKey_blobref] at heq
  exact (Option.some.inj heq).symm

/-- A computed key is made of its own text only: what is cut in the wrong place keeps its dash. -/
theorem BlobKey.Computed.blobref_eq_of_create {k : BlobKey} (hk : k.Computed) {hash : Bytes}
    (h : createBlobKey hash = some k) : k.blobref = hash := by
  have hs : (115 : UInt8) ∈ k.hashType := by
    rcases hk.hashType with ht | ht
    · rw [ht]
      decide
    · rw [ht]
      decide
  rw [createBlobKey_eq] at h
  obtain rfl := Option.some.inj h
  by_cases hdash : 45 ∈ hash
  · obtain ⟨u, v, rfl, hu⟩ := List.eq_append_cons_of_mem hdash
    by_cases hlen : u.length + 1 < 2 ^ 32
    · rw [BlobKey.blobref_eq, (splitUnsigned_append_iff hu).2 hlen]
    · have hmem := mem_splitUnsigned_of_le (c := 45) (v := v) (not_lt.1 hlen)
      exact absurd (hk.hashValue 45 hmem) (by decide)
  · -- without a dash the value is the whole text, and begins like the type
    have hsplit := splitUnsigned_of_notMem hdash
    have hmem : (115 : UInt8) ∈ (splitUnsigned 45 hash).2 := by
      rw [hsplit] at hs ⊢
      exact List.mem_of_mem_take hs
    exact absurd (hk.hashValue 115 hmem) (by decide)

/-- A computed key is looked up by its own text. -/
theorem BlobKey.Computed.get_blobref {k : BlobKey} (hk : k.Computed) (st : Store) :
    st.get k.blobref = st.blobs.find k := by
  rw [Store.get, hk.createBlobKey_blobref]

@[simp] theorem filePath_recordOf (addr : ℕ) (bytes : Bytes) :
    (recordOf D cfg addr bytes).filePath = pathOf D cfg bytes := by
  simp [recordOf, blobKeys, Blob.setSize, Blob.new]

@[simp] theorem size_recordOf (addr : ℕ) (bytes : Bytes) :
    (recordOf D cfg addr bytes).size = int32 bytes.length := by
  simp [recordOf, blobKeys, Blob.setSize]

/-- Storing writes the content's keys and leaves the others. -/
theorem find_blobs_stored (st : Store) (bytes : Bytes) (k : BlobKey) :
    (st.stored D cfg bytes).blobs.find k =
      if k ∈ blobKeys D bytes then some (recordOf D cfg st.allocated bytes)
      else st.blobs.find k := by
  simp only [Store.stored, blobKeys, List.map_cons, List.map_nil, List.foldl_cons, List.foldl_nil,
    OrdMap.find_assign, List.mem_cons, List.not_mem_nil, or_false]
  by_cases h₁ : k = blobKeyOf D bytes .sha1 <;> by_cases h₂ : k = blobKeyOf D bytes .sha256 <;>
    simp [h₁, h₂]

theorem mem_keys_stored {st : Store} {bytes : Bytes} {k : BlobKey} :
    k ∈ (st.stored D cfg bytes).blobs.keys ↔ k ∈ blobKeys D bytes ∨ k ∈ st.blobs.keys := by
  simp only [OrdMap.mem_keys_iff, find_blobs_stored]
  by_cases h : k ∈ blobKeys D bytes <;> simp [h]

/-- Storing writes the content's file unless there is one already, and leaves the others. -/
theorem find_files_stored (st : Store) (bytes p : Bytes) :
    (st.stored D cfg bytes).files.find p =
      if p = pathOf D cfg bytes then some ((st.files.find p).getD bytes) else st.files.find p := by
  by_cases hp : p = pathOf D cfg bytes
  · subst hp
    rw [if_pos rfl, Store.stored]
    rcases hf : st.files.find (pathOf D cfg bytes) with - | y
    · simp [OrdMap.find_assign]
    · simp [hf]
  · rw [if_neg hp, Store.stored]
    split_ifs
    · rfl
    · rw [OrdMap.find_assign, if_neg hp]

/-! ### Stores only grow -/

/-- `st'` still has every key of `st`, and every file with the same bytes. -/
structure Store.Extends (st st' : Store) : Prop where
  keys : ∀ {k}, k ∈ st.blobs.keys → k ∈ st'.blobs.keys
  files : ∀ {p y}, st.files.find p = some y → st'.files.find p = some y

namespace Store.Extends

variable {st st' st'' : Store}

theorem refl (st : Store) : st.Extends st := ⟨id, id⟩

theorem trans (h : st.Extends st') (h' : st'.Extends st'') : st.Extends st'' :=
  ⟨fun hk ↦ h'.keys (h.keys hk), fun hy ↦ h'.files (h.files hy)⟩

theorem stored (st : Store) (bytes : Bytes) : st.Extends (st.stored D cfg bytes) where
  keys hk := mem_keys_stored.2 (Or.inr hk)
  files := by
    intro p y hy
    rw [find_files_stored, hy]
    split_ifs
    · rfl
    · rfl

theorem refused (st : Store) : st.Extends st.refused := ⟨id, id⟩

/-- **An addition removes no key and changes no file**, whatever it is given. -/
theorem addBlob {providedHash : Option Bytes} {bytes : Bytes} {r : Option Blob × Store}
    (h : addBlob D cfg st providedHash bytes = .ok r) : st.Extends r.2 := by
  rw [addBlob_eq] at h
  split_ifs at h
  · obtain rfl := Except.ok.inj h
    exact stored st bytes
  · obtain rfl := Except.ok.inj h
    exact refused st

/-- A reference that was found once stays found. -/
theorem isSome_get (h : st.Extends st') {r : Bytes} (hr : (st.get r).isSome) :
    (st'.get r).isSome := by
  rw [Store.get] at hr ⊢
  rcases hk : createBlobKey r with - | k
  · rw [hk] at hr
    exact absurd hr (by simp)
  · rw [hk] at hr
    exact OrdMap.isSome_find_iff.2 (h.keys (OrdMap.isSome_find_iff.1 hr))

end Store.Extends

end Camlispp
