import Camlispp.Server.Routing
import Camlispp.Store.Paginate

/-!
# What two servers say to each other

The texts a syncing server writes, URLs and stat requests, and its reading of the replies. A reply
that is JSON but not of the expected shape raises: `get_str`, `get_array` and `get_obj` throw, and
nothing catches it.

An array of `2 ^ 32` elements keeps the loop over it going for ever, since its index is an `unsigned
int`; that is a `Fault` of its own (`endless`).

The end of the module is about the server's own documents. All their strings are plain: references
are letters, digits and one dash (`BlobKey.Computed.plainStr`), and what the server repeats of a
query was let through by its grammar (`plainStr_of_isValueByte`). So any `Json.Reader` reads them
back.
-/

open Bytes

namespace Camlispp

/-! ### Replies -/

/-- `Value::get_str`. -/
def Json.getStr : Json → Except Fault Bytes
  | .str s => .ok s
  | _ => .error .runtimeError

/-- `Value::get_array`. -/
def Json.getArray : Json → Except Fault (List Json)
  | .arr vs => .ok vs
  | _ => .error .runtimeError

/-- `Value::get_obj`. -/
def Json.getObj : Json → Except Fault (List (Bytes × Json))
  | .obj ms => .ok ms
  | _ => .error .runtimeError

/-- `SyncEnumeration`. -/
structure SyncEnumeration where
  last : Option Bytes
  blobRefs : List Bytes
deriving DecidableEq

/-- The references of one element of `blobs` or `stat`. -/
def blobRefsOf (v : Json) : Except Fault (List Bytes) := do
  let blobObj ← v.getObj
  (blobObj.filter fun m ↦ m.1 = lit "blobRef").mapM fun m ↦ m.2.getStr

/-- The loop over the elements of `blobs` or `stat`. Its index is an `unsigned int`: in an array of
`2 ^ 32` elements it returns to zero before it reaches the end. -/
def blobRefsOfArray (blobsArray : List Json) : Except Fault (List Bytes) := do
  let refs ← (blobsArray.take (2 ^ 32)).mapM blobRefsOf
  if blobsArray.length < 2 ^ 32 then .ok refs.flatten else .error .endless

/-- The first test on a member of a reply. -/
def parseLast (e : SyncEnumeration) (m : Bytes × Json) : Except Fault SyncEnumeration :=
  if m.1 = lit "continueAfter" then do
    let last ← m.2.getStr
    .ok { e with last := some last }
  else .ok e

/-- The second test on a member of a reply. -/
def parseBlobs (e : SyncEnumeration) (m : Bytes × Json) : Except Fault SyncEnumeration :=
  if m.1 = lit "blobs" ∨ m.1 = lit "stat" then do
    let blobsArray ← m.2.getArray
    let refs ← blobRefsOfArray blobsArray
    .ok { e with blobRefs := e.blobRefs ++ refs }
  else .ok e

/-- One round of the loop over the members of a reply. -/
def parseMember (e : SyncEnumeration) (m : Bytes × Json) : Except Fault SyncEnumeration := do
  let e ← parseLast e m
  parseBlobs e m

/-- `parse_sync_enumeration`. -/
def parseSyncEnumeration (R : Json.Read) (content : Bytes) :
    Except Fault (Option SyncEnumeration) :=
  match R content with
  | none => .ok none
  | some (.obj members) => do
    let e ← members.foldlM parseMember ⟨none, []⟩
    .ok (some e)
  | some _ => .ok none

/-! ### Requests -/

/-- `build_stat_url`. -/
def buildStatUrl (host : Bytes) : Bytes := host ++ lit "/stat"

/-- `build_enumeration_url`. -/
def buildEnumerationUrl (host last : Bytes) : Bytes :=
  host ++ lit "/enumerate-blobs" ++ if last.length > 0 then lit "?after=" ++ last else []

/-- `build_blob_url`. -/
def buildBlobUrl (host blobRef : Bytes) : Bytes :=
  host ++ (if (lit "/").isSuffixOf host then [] else lit "/") ++ blobRef

/-- The parameters of a stat request, numbered from `n` on. -/
def blobParameters : ℕ → List Bytes → List (Bytes × Bytes)
  | _, [] => []
  | n, ref :: refs => (lit "blob" ++ decimal n, ref) :: blobParameters (n + 1) refs

/-- A stat request for references, as the protocol has it. -/
def statText (refs : List Bytes) : Bytes :=
  lit "camliversion=" ++ decimal 1 ++
    ((blobParameters 1 refs).map fun p ↦ 38 :: pairText p).flatten

/-- The parameters that `stat_request` writes. Its counter is an `int`, and goes on from the least
one when it has passed the greatest. -/
def countedParameters : ℤ → List Bytes → List (Bytes × Bytes)
  | _, [] => []
  | n, ref :: refs => (lit "blob" ++ decimalInt n, ref) :: countedParameters (int32 (n + 1)) refs

/-- `stat_request`, with `CAMLI_VERSION` 1. -/
def statRequest (blobs : List (BlobKey × Blob)) : Bytes :=
  lit "camliversion=" ++ decimal 1 ++
    ((countedParameters 1 (blobs.map fun e ↦ e.1.blobref)).map fun p ↦ 38 :: pairText p).flatten

/-- As long as the counter has not passed the greatest `int`, the numbers are the protocol's. -/
theorem countedParameters_eq {n : ℕ} {refs : List Bytes} (h : n + refs.length ≤ 2 ^ 31) :
    countedParameters (int32 n) refs = blobParameters n refs := by
  induction refs generalizing n with
  | nil => rfl
  | cons ref refs ih =>
    rw [List.length_cons] at h
    rw [int32_of_lt (by omega), countedParameters, blobParameters, ← Int.natCast_succ,
      ih (by omega)]
    rfl

theorem statRequest_eq_statText {blobs : List (BlobKey × Blob)} (h : blobs.length < 2 ^ 31) :
    statRequest blobs = statText (blobs.map fun e ↦ e.1.blobref) := by
  have hlen : 1 + (blobs.map fun e ↦ e.1.blobref).length ≤ 2 ^ 31 := by
    rw [List.length_map]
    omega
  have hparams := countedParameters_eq hlen
  rw [statRequest, statText, ← hparams]
  rfl

/-! ### Reading the server's own documents -/

theorem plainStr_of_all {s : Bytes}
    (h : s.all fun b ↦ 32 ≤ b && b ≤ 126 && b ≠ 34 && b ≠ 92) : Json.PlainStr s := by
  intro b hb
  simpa [and_assoc] using List.all_eq_true.1 h b hb

theorem plain_of_isAlnum {b : UInt8} (h : isAlnum b = true) :
    32 ≤ b ∧ b ≤ 126 ∧ b ≠ 34 ∧ b ≠ 92 := by
  simp only [isAlnum, isAlpha, isDigit, Bool.or_eq_true, Bool.and_eq_true, decide_eq_true_eq,
    UInt8.le_iff_toNat_le, ne_eq, ← UInt8.toNat_inj, UInt8.reduceToNat] at h ⊢
  omega

/-- References are plain strings. -/
theorem plainStr_of_isRefByte {s : Bytes} (h : ∀ b ∈ s, isRefByte b = true) : Json.PlainStr s := by
  intro b hb
  have hbyte := h b hb
  rw [isRefByte, Bool.or_eq_true, decide_eq_true_eq] at hbyte
  rcases hbyte with hbyte | rfl
  · exact plain_of_isAlnum hbyte
  · decide

theorem BlobKey.Computed.plainStr {k : BlobKey} (hk : k.Computed) : Json.PlainStr k.blobref :=
  plainStr_of_isRefByte hk.isRefByte

theorem plain_blobValue {ref : Bytes} (h : Json.PlainStr ref) (b : Blob) :
    Json.Plain (blobValue ref b) := by
  refine .obj (by simp [plainStr_of_all, lit]) ?_
  simp only [List.mem_cons, List.not_mem_nil, or_false, forall_eq_or_imp, forall_eq]
  exact ⟨.str h, .int (by linarith [b.size_range.1]) (by linarith [b.size_range.2])⟩

theorem blobRefsOf_blobValue (ref : Bytes) (b : Blob) : blobRefsOf (blobValue ref b) = .ok [ref] :=
  rfl

theorem mapM_blobRefsOf (es : List (Bytes × Blob)) :
    (es.map fun e ↦ blobValue e.1 e.2).mapM blobRefsOf = .ok (es.map fun e ↦ [e.1]) := by
  induction es with
  | nil => rfl
  | cons e es ih =>
    rw [List.map_cons, List.mapM_cons, blobRefsOf_blobValue, ih]
    rfl

theorem blobRefsOfArray_of_lt {vs : List Json} (h : vs.length < 2 ^ 32) :
    blobRefsOfArray vs = vs.mapM blobRefsOf >>= fun refs ↦ .ok refs.flatten := by
  rw [blobRefsOfArray, List.take_of_length_le h.le]
  simp only [h, if_true]

/-- The array of the blobs is read as the list of their references. -/
theorem parseMember_blobs {name : Bytes} (hname : name = lit "blobs" ∨ name = lit "stat")
    (e : SyncEnumeration) {es : List (Bytes × Blob)} (hes : es.length < 2 ^ 32) :
    parseMember e (name, .arr (es.map fun e ↦ blobValue e.1 e.2)) =
      .ok { e with blobRefs := e.blobRefs ++ es.map Prod.fst } := by
  have hflat : (es.map fun e ↦ [e.1]).flatten = es.map Prod.fst := by
    rw [← List.flatMap_def, List.map_eq_flatMap]
  have hlen : (es.map fun e ↦ blobValue e.1 e.2).length < 2 ^ 32 := by rwa [List.length_map]
  have hcont : name ≠ lit "continueAfter" := by
    rcases hname with rfl | rfl
    · decide
    · decide
  simp only [parseMember, parseLast, parseBlobs, hcont, if_false, hname, if_true, Json.getArray,
    bind, Except.bind, blobRefsOfArray_of_lt hlen, mapM_blobRefsOf, hflat]

end Camlispp
