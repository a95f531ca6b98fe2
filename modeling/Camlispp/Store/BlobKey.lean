import Camlispp.Library.Bytes
import Mathlib.Data.Prod.Lex

/-!
# Blob keys

A `BlobKey` is a digest type and a digest value, written `type-value` as a blobref. The index is
ordered by type first and value second.

`createBlobKey` is kept exactly as the source computes it, with the split position in a 32-bit
variable that is compared with a 64-bit `npos`. Two consequences are recorded right away:

* the comparison never sees "not found", so the function **always** returns a key
  (`createBlobKey_eq`); a text without a dash becomes both halves of its key;
* a blobref is split where it was joined exactly if its type is shorter than 4 GiB
  (`createBlobKey_blobref_iff`).

Keys are compared as pairs of byte strings (`halves`), so the order of the index is linear and the
library's maps can be used; `lt_iff_operatorLt` says that it is the order of the source.

Reading a key back asks for a type without a dash. The types an addition computes, `sha1` and
`sha256`, have none and are short, so for the keys of the index a blobref and its key say the same.
-/

open Bytes

namespace Camlispp

/-- A digest type with a digest value. -/
structure BlobKey where
  /-- The digest type, as `sha1`. -/
  hashType : Bytes
  /-- The digest value, in hex. -/
  hashValue : Bytes
deriving DecidableEq

namespace BlobKey

/-- `operator<`: by type, then by value. -/
def operatorLt (mk1 mk2 : BlobKey) : Bool :=
  if mk1.hashType ≠ mk2.hashType then mk1.hashType < mk2.hashType
  else mk1.hashValue < mk2.hashValue

/-- The pair of a key's halves, lexicographically ordered. -/
def halves (k : BlobKey) : Bytes ×ₗ Bytes := toLex (k.hashType, k.hashValue)

theorem halves_injective : Function.Injective halves := by
  rintro ⟨t, v⟩ ⟨t', v'⟩ h
  simpa [halves] using h

instance : LinearOrder BlobKey := LinearOrder.lift' halves halves_injective

/-- The order of the index is the source's `operator<`. -/
theorem lt_iff_operatorLt {mk1 mk2 : BlobKey} : mk1 < mk2 ↔ operatorLt mk1 mk2 = true := by
  have hlex : mk1 < mk2 ↔ mk1.hashType < mk2.hashType ∨
      mk1.hashType = mk2.hashType ∧ mk1.hashValue < mk2.hashValue := Prod.Lex.lt_iff
  rw [hlex, operatorLt]
  by_cases h : mk1.hashType = mk2.hashType
  · simp [h]
  · simp [h]

/-- The text of a key. -/
def blobref (k : BlobKey) : Bytes := k.hashType ++ lit "-" ++ k.hashValue

end BlobKey

/-- A key from its text. The split position is an `unsigned`, the test is against `npos`. -/
def createBlobKey (hash : Bytes) : Option BlobKey :=
  let splitPos := findUnsigned (lit "-") hash
  if splitPos ≠ npos then
    let hashType := hash.take splitPos
    let encodedHash := hash.drop ((splitPos + 1) % 2 ^ 32)
    some ⟨hashType, encodedHash⟩
  else none

/-- **No text is refused**: the truncated position is never `npos`. -/
theorem createBlobKey_eq (hash : Bytes) :
    createBlobKey hash = some ⟨(splitUnsigned 45 hash).1, (splitUnsigned 45 hash).2⟩ :=
  if_pos (findUnsigned_ne_npos (lit "-") hash)

theorem createBlobKey_isSome (hash : Bytes) : (createBlobKey hash).isSome := by
  rw [createBlobKey_eq]
  rfl

theorem BlobKey.blobref_eq (k : BlobKey) : k.blobref = k.hashType ++ 45 :: k.hashValue := by
  simp [BlobKey.blobref, lit]

/-- **A key is read back from its own text** exactly if its type is shorter than 4 GiB. -/
theorem createBlobKey_blobref_iff {k : BlobKey} (hdash : 45 ∉ k.hashType) :
    createBlobKey k.blobref = some k ↔ k.hashType.length + 1 < 2 ^ 32 := by
  rw [← splitUnsigned_append_iff (v := k.hashValue) hdash, createBlobKey_eq, k.blobref_eq,
    Option.some_inj, BlobKey.mk.injEq, Prod.ext_iff]

theorem createBlobKey_blobref {k : BlobKey} (hdash : 45 ∉ k.hashType)
    (hlen : k.hashType.length + 1 < 2 ^ 32) : createBlobKey k.blobref = some k :=
  (createBlobKey_blobref_iff hdash).2 hlen

end Camlispp
