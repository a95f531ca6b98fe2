import Camlispp.Daemon.Run
import Camlispp.Http.Numbers
import Camlispp.Sync.Pull
import Camlispp.Sync.Push

/-!
# A slash behind the host

Of the four places that make a URL from a configured host, only `build_blob_url` looks at its last
character. With a slash behind the host the other three ask the peer for paths that begin with two
slashes, and the peer routes by prefixes: its enumeration is looked up as a blob and not found, and
its stat request is taken for an upload without a boundary. Neither reply is JSON, so both phases
end at once and **nothing is synced** (`syncHost_slash`).

Without the slash the two phases do what `Pull` and `Push` say. So a slash makes no difference
exactly where there is nothing to do (`slashIgnored_iff`): nothing the get phase would keep, and
nothing the peer would store of what the send phase uploads.

## What the result rests on

* `storeAfter_eq` and its companions: what each request leaves of the peer's store.
* `upload_server`: an upload comes to the peer through its request parser, with the length of the
  form announced (`Http.Request.received`). A form of more than 16 MiB is refused, or is cut off
  where the conversion of its length makes it small; either way nothing is stored.
* `Touched`: up to the first content that the peer stores it has the keys it had at first, so it is
  enough to look at those.
* `getPhase_slash` and `sendPhase_slash`: the replies behind two slashes are a page of HTML and an
  empty text, and the reader refuses both (`Reader.Strict`).

**The condition is exact in every mode**, on the index record by record and on the files.
-/

open Bytes

namespace Camlispp

/-! ### What curl sends -/

/-- `build_upload`: the part that carries a file under a reference. -/
def buildUpload (blobRef content : Bytes) : Draft where
  lines :=
    [lit "Content-Disposition: form-data; name=\"" ++ blobRef ++ lit "\"; filename=\"blob1\"",
      lit "Content-Type: application/octet-stream"]
  payload := content

/-- What requests owe to libcurl: the headers of all of them, and the boundary of a form. -/
structure Curl where
  headers : List Http.Header
  /-- Nothing is said about encodings or about the type of a content. -/
  headers_plain : ∀ h ∈ headers,
    lower h.name ≠ lower (lit "Accept-Encoding") ∧ lower h.name ≠ lower (lit "Content-Type")
  /-- The boundary for a reference and the content of its file. -/
  boundary : Bytes → Bytes → Bytes
  boundary_token : ∀ blobRef content, IsToken (boundary blobRef content)
  /-- The delimiter occurs in no line of the form and not in the file. -/
  boundary_fits : ∀ blobRef content,
    ∀ l ∈ content :: (buildUpload blobRef content).lines,
      ¬delimiter (boundary blobRef content) <:+: l

namespace Curl

variable (curl : Curl)

/-- The headers of a request that has a content. -/
def typed (contentType : Bytes) : List Http.Header :=
  curl.headers ++ [⟨lit "Content-Type", contentType⟩]

/-- The headers of `fetch_url`: `CURLOPT_POSTFIELDS` has a type of its own. -/
def fetchHeaders : Option Bytes → List Http.Header
  | none => curl.headers
  | some _ => curl.typed (lit "application/x-www-form-urlencoded")

/-- The Content-Type of an upload. -/
def formType (blobRef content : Bytes) : ContentType :=
  ⟨lit "multipart/form-data", 0, [], 1, lit "boundary", curl.boundary blobRef content⟩

/-- The request of `send_blob`. -/
def uploadRequest (path blobRef content : Bytes) : Http.Request where
  method := lit "POST"
  uri := path
  httpVersionMajor := 1
  httpVersionMinor := 1
  headers := curl.typed (curl.formType blobRef content).text
  content := encode (curl.boundary blobRef content) [buildUpload blobRef content] true

/-- The content can be delivered under a reference: it is 7-bit, and the form is not too long for
the peer's parser. -/
def Delivers (blobRef content : Bytes) : Prop :=
  SevenBit content ∧
    (encode (curl.boundary blobRef content) [buildUpload blobRef content] true).length ≤
      16 * 1024 * 1024

instance (blobRef content : Bytes) : Decidable (curl.Delivers blobRef content) :=
  inferInstanceAs (Decidable (_ ∧ _))

theorem find?_headers {name : Bytes}
    (hname : name = lit "Accept-Encoding" ∨ name = lit "Content-Type") :
    curl.headers.find? (fun h ↦ lower h.name = lower name) = none := by
  refine List.find?_eq_none.2 fun h hh ↦ ?_
  rcases hname with rfl | rfl
  · simpa using (curl.headers_plain h hh).1
  · simpa using (curl.headers_plain h hh).2

theorem getHeader_typed (contentType : Bytes) :
    Http.getHeader (curl.typed contentType) (lit "Content-Type") = contentType := by
  rw [Http.getHeader, typed, List.find?_append, curl.find?_headers (Or.inr rfl)]
  simp

theorem getHeader_fetchHeaders (postbody : Option Bytes) :
    Http.getHeader (curl.fetchHeaders postbody) (lit "Accept-Encoding") = [] := by
  have hne : lower (lit "Content-Type") ≠ lower (lit "Accept-Encoding") := by decide
  cases postbody with
  | none => simp [Http.getHeader, fetchHeaders, curl.find?_headers (Or.inl rfl)]
  | some _ =>
    rw [Http.getHeader, fetchHeaders, typed, List.find?_append, curl.find?_headers (Or.inl rfl)]
    simp [hne]

theorem wellFormed_formType (blobRef content : Bytes) :
    (curl.formType blobRef content).WellFormed where
  type := by
    show lower (lit "multipart/form-data") = _
    decide
  params := fun p hp ↦ absurd hp List.not_mem_nil
  name := by
    show lower (lit "boundary") = _
    decide
  boundary :=
    ⟨(curl.boundary_token blobRef content).1, (curl.boundary_token blobRef content).oneLine⟩

theorem legible_formType (blobRef content : Bytes) : (curl.formType blobRef content).Legible where
  plain := fun p hp ↦ absurd hp List.not_mem_nil
  lead := rfl
  sevenBit := fun b hb ↦ ((curl.boundary_token blobRef content).2 b hb).2.1.trans (by decide)
  opensQuote := by
    have hhead := (curl.boundary_token blobRef content).head?_ne [] (c := 34) (by decide)
    rw [List.append_nil] at hhead
    exact opensQuote_of_head hhead

/-- A form for a computed reference is fit to be encoded. -/
theorem fits_buildUpload {k : BlobKey} (hk : k.Computed) (content : Bytes) :
    ∀ d ∈ [buildUpload k.blobref content], d.Fits (curl.boundary k.blobref content) := by
  have hfits := curl.boundary_fits k.blobref content
  have href : OneLine k.blobref :=
    ⟨notMem_of_isRefByte hk.isRefByte (by decide), notMem_of_isRefByte hk.isRefByte (by decide)⟩
  refine List.forall_mem_singleton.2 ⟨fun l hl ↦ ?_, hfits content List.mem_cons_self⟩
  have hnot := hfits l (List.mem_cons_of_mem _ hl)
  simp only [buildUpload, List.mem_cons, List.not_mem_nil, or_false] at hl
  rcases hl with rfl | rfl
  · exact ⟨by simp [lit], ((show OneLine (lit _) by decide).append href).append (by decide), hnot⟩
  · exact ⟨by decide, by decide, hnot⟩

end Curl

theorem sevenBit_buildUpload {k : BlobKey} (hk : k.Computed) {content : Bytes} :
    (buildUpload k.blobref content).SevenBit ↔ SevenBit content := by
  refine and_iff_right fun l hl ↦ ?_
  simp only [buildUpload, List.mem_cons, List.not_mem_nil, or_false] at hl
  have href : SevenBit k.blobref := fun b hb ↦ (hk.plainStr b hb).2.1.trans_lt (by decide)
  rcases hl with rfl | rfl
  · intro b hb
    rcases List.mem_append.1 hb with hb | hb
    · rcases List.mem_append.1 hb with hb | hb
      · have hlit : SevenBit (lit "Content-Disposition: form-data; name=\"") := by decide +kernel
        exact hlit b hb
      · exact href b hb
    · have hlit : SevenBit (lit "\"; filename=\"blob1\"") := by decide +kernel
      exact hlit b hb
  · show SevenBit (lit _)
    decide +kernel

/-! ### The server at the other end -/

section Server

variable (D : Digests) (cfg : Config) (env : Environment) (curl : Curl)

/-- The store a request leaves behind. -/
def storeAfter (st : Store) (req : Http.Request) : Store :=
  match handleRequest D cfg env st req with
  | .ok served => served.store
  | .error _ => st

/-- The peer that is this server, with its root at `host`. A file that cannot be opened is not
uploaded, and one that makes too long a request is refused by the peer's parser. The other requests
are short: pages of references. -/
def Curl.server (host : Bytes) : Peer Store where
  cfg := cfg
  env := env
  store := id
  next := storeAfter D cfg env
  upload st url blobRef
    | none => (none, st)
    | some content =>
      if host.isPrefixOf url then
        match (curl.uploadRequest (url.drop host.length) blobRef content).received with
        | none => (some (Http.stockReply .badRequest).content, st)
        | some req =>
          match handleRequest D cfg env st req with
          | .ok served => (some served.reply.content, served.store)
          | .error _ => (none, st)
      else (none, st)
  headers := curl.fetchHeaders
  headers_plain := curl.getHeader_fetchHeaders

variable {D cfg env curl}

theorem storeAfter_eq {st : Store} {req : Http.Request} {served : Served}
    (h : handleRequest D cfg env st req = .ok served) :
    storeAfter D cfg env st req = served.store := by
  rw [storeAfter, h]

/-- A `GET` changes nothing. -/
theorem storeAfter_get (st : Store) {req : Http.Request} (hget : req.method = lit "GET") :
    storeAfter D cfg env st req = st := by
  have hput : ¬(lit "GET" = lit "PUT" ∨ lit "GET" = lit "POST") := by decide
  rw [storeAfter, handleRequest]
  rcases urlDecode req.uri with - | path
  · rfl
  dsimp only
  by_cases hbad : path.head? ≠ some 47 ∨ (find (lit "..") path).isSome = true
  · rw [if_pos hbad]
  · rw [if_neg hbad]
    simp only [route, hget, hput, if_false]
    split_ifs
    all_goals rfl

theorem storeAfter_stat (st : Store) (curl : Curl) (host postbody : Bytes) :
    storeAfter D cfg env st ((curl.server D cfg env host).request (lit "/stat") (some postbody)) =
      st :=
  storeAfter_eq (handleRequest_statPost D cfg env st _ rfl rfl)

/-- The handler's part in an upload: what is read of the form is stored. -/
theorem storeAfter_upload (st : Store) (curl : Curl) (blobRef y content : Bytes) :
    storeAfter D cfg env st
        { curl.uploadRequest (lit "/upload") blobRef y with content := content } =
      (uploadParts { curl.uploadRequest (lit "/upload") blobRef y with content := content }).foldl
        (Store.afterPart D cfg) st := by
  have hct := curl.getHeader_typed (curl.formType blobRef y).text
  have hne : (curl.formType blobRef y).text ≠ [] := by
    simp [ContentType.text, Curl.formType, lit]
  have hpath : IsOtherPath (lit "/upload") := ⟨rfl, by decide, by decide, by decide, rfl, rfl⟩
  have hserved : handleRequest D cfg env st
      { curl.uploadRequest (lit "/upload") blobRef y with content := content } =
      .ok ⟨⟨.ok, [], []⟩, (uploadParts { curl.uploadRequest (lit "/upload") blobRef y with
        content := content }).foldl (Store.afterPart D cfg) st, []⟩ := by
    rw [handleRequest_post D cfg env st hpath _ rfl rfl, handlePut_eq,
      if_neg (by rw [Curl.uploadRequest, hct]; exact hne)]
    rfl
  exact storeAfter_eq hserved

/-- Of a form that breaks off nothing is read. -/
theorem uploadParts_take (curl : Curl) {k : BlobKey} (hk : k.Computed) (y : Bytes) {n : ℕ}
    (hn : n + 4 < (curl.uploadRequest (lit "/upload") k.blobref y).content.length) :
    uploadParts { curl.uploadRequest (lit "/upload") k.blobref y with
      content := (curl.uploadRequest (lit "/upload") k.blobref y).content.take n } = [] := by
  have hct := curl.getHeader_typed (curl.formType k.blobref y).text
  have hwf := curl.wellFormed_formType k.blobref y
  have hboundary := hwf.attributeValue_iff.2 (curl.legible_formType k.blobref y)
  have hchunks := chunks_take_encode (curl.boundary_token k.blobref y).oneLine
    (curl.fits_buildUpload hk y _ List.mem_cons_self) true hn
  have hnone : multiPartFormData (curl.boundary k.blobref y)
      ((curl.uploadRequest (lit "/upload") k.blobref y).content.take n) = [] := by
    rw [multiPartFormData, Curl.uploadRequest, hchunks]
  rw [uploadParts, Curl.uploadRequest, hct, hboundary]
  exact hnone

/-- **An upload** is stored if its content can be delivered, and otherwise lost: refused for its
length, cut off in the conversion of its length, or not read for a byte that is not 7-bit. -/
theorem upload_server (st : Store) (curl : Curl) (host : Bytes) {k : BlobKey} (hk : k.Computed)
    {y : Bytes} (hy : y ≠ []) :
    ((curl.server D cfg env host).upload st (host ++ lit "/upload") k.blobref (some y)).2 =
      if curl.Delivers k.blobref y then st.stored D cfg y else st := by
  set req := curl.uploadRequest (lit "/upload") k.blobref y with hreq
  have hpre : host.isPrefixOf (host ++ lit "/upload") = true :=
    List.isPrefixOf_iff_prefix.2 (List.prefix_append _ _)
  -- what is received is handled
  have hafter : ((curl.server D cfg env host).upload st (host ++ lit "/upload") k.blobref
      (some y)).2 = match req.received with
        | none => st
        | some req => storeAfter D cfg env st req := by
    simp only [Curl.server, hpre, if_true, List.drop_left, storeAfter, ← hreq]
    rcases req.received with - | req'
    · rfl
    · dsimp only
      rcases handleRequest D cfg env st req' with f | r <;> rfl
  rw [hafter]
  have hct := curl.getHeader_typed (curl.formType k.blobref y).text
  have hwf := curl.wellFormed_formType k.blobref y
  have hfits := curl.fits_buildUpload hk y
  have hparts : ∀ content, storeAfter D cfg env st { req with content := content } = _ :=
    storeAfter_upload st curl k.blobref y
  rcases le_or_gt req.content.length (16 * 1024 * 1024) with hshort | hlong
  · rw [Http.received_of_le hshort]
    refine (hparts req.content).trans ?_
    -- the only part is read if it is 7-bit, and then it is not empty
    by_cases h7 : SevenBit y
    · rw [if_pos ⟨h7, hshort⟩, uploadParts_of_legible hwf hfits hct rfl (curl.legible_formType _ _)
        (List.forall_mem_singleton.2 ((sevenBit_buildUpload hk).2 h7))]
      simp [Store.afterPart, buildUpload, hy]
    · rw [if_neg fun h ↦ h7 h.1, uploadParts_of_not_legible hwf hfits hct rfl
        (List.cons_ne_nil _ _) fun h ↦ h7 ?_]
      · rfl
      · exact (sevenBit_buildUpload hk).1 (h.2 _ List.mem_cons_self)
  · rw [if_neg fun h ↦ absurd h.2 (not_le.2 hlong)]
    rcases Http.received_of_gt hlong with hnone | ⟨n, hn, hsome⟩
    · rw [hnone]
    · rw [hsome]
      refine (hparts _).trans ?_
      rw [uploadParts_take curl hk y (show n + 4 < req.content.length by omega)]
      rfl

end Server

/-! ### Stores compared -/

/-- The same index, record by record, and the same files. -/
structure Store.Same (st st' : Store) : Prop where
  blobs : st.blobs = st'.blobs
  files : st.files = st'.files

theorem Store.Same.refl (st : Store) : st.Same st := ⟨rfl, rfl⟩

/-- The content of the file behind a key. -/
def Store.fileOf (st : Store) (k : BlobKey) : Option Bytes :=
  (st.blobs.find k).bind fun b ↦ st.files.find b.filePath

theorem Store.Same.fileOf_eq {st st' : Store} (h : st.Same st') (k : BlobKey) :
    st.fileOf k = st'.fileOf k := by
  rw [Store.fileOf, Store.fileOf, h.blobs, h.files]

section Numbers

variable {D : Digests} {cfg : Config}

/-- Behind the keys of a content that is stored there is what its path held before, if anything. -/
theorem fileOf_stored {st : Store} {x : Bytes} {k : BlobKey} (hk : k ∈ blobKeys D x) :
    (st.stored D cfg x).fileOf k = some ((st.files.find (pathOf D cfg x)).getD x) := by
  rw [Store.fileOf, find_blobs_stored, if_pos hk, Option.bind_some, filePath_recordOf,
    find_files_stored, if_pos rfl]

/-- There is a file behind every key, with something in it. -/
theorem Reachable.exists_fileOf {st : Store} (h : Reachable D cfg st) {k : BlobKey}
    (hk : k ∈ st.blobs.keys) : ∃ y, st.fileOf k = some y ∧ y ≠ [] := by
  obtain ⟨calls, hrun⟩ := h
  obtain ⟨past, hrec, -⟩ := recorded_addBlobs hrun
  obtain ⟨b, hb⟩ := OrdMap.mem_keys_iff.1 hk
  obtain ⟨x, hx, -, addr, rfl⟩ := hrec.entry hb
  obtain ⟨y, hy⟩ := hrec.files x hx
  refine ⟨y, ?_, hrec.ne_nil y (hrec.file hy).1⟩
  rw [Store.fileOf, hb, Option.bind_some, filePath_recordOf, hy]

/-- Every record was allocated. -/
theorem Reachable.addr_lt {st : Store} (h : Reachable D cfg st) {k : BlobKey} {b : Blob}
    (hb : st.blobs.find k = some b) : b.addr < st.allocated := by
  obtain ⟨calls, hrun⟩ := h
  refine addBlobs_induction (P := fun s ↦ ∀ k b, s.blobs.find k = some b → b.addr < s.allocated)
    (fun {s c r} _ ih hadd k b hb ↦ ?_) hrun (by simp [Store.empty]) k b hb
  rw [addBlob_eq] at hadd
  split_ifs at hadd
  · obtain rfl := Except.ok.inj hadd
    rw [find_blobs_stored] at hb
    split_ifs at hb
    · obtain rfl := Option.some.inj hb
      exact Nat.lt_succ_self _
    · exact (ih k b hb).trans (Nat.lt_succ_self _)
  · obtain rfl := Except.ok.inj hadd
    exact (ih k b hb).trans (Nat.lt_succ_self _)

/-- Something was stored since the first store: there is a record from a later allocation. -/
structure Renewed (st st' : Store) : Prop where
  allocated : st.allocated ≤ st'.allocated
  entry : ∃ k b, st'.blobs.find k = some b ∧ st.allocated ≤ b.addr

theorem renewed_stored {st st' : Store} (h : st.allocated ≤ st'.allocated) (bytes : Bytes) :
    Renewed st (st'.stored D cfg bytes) where
  allocated := h.trans (Nat.le_succ _)
  entry := by
    refine ⟨blobKeyOf D bytes .sha1, recordOf D cfg st'.allocated bytes, ?_, h⟩
    have hmem : blobKeyOf D bytes .sha1 ∈ blobKeys D bytes := List.mem_cons_self
    rw [find_blobs_stored, if_pos hmem]

theorem Renewed.not_same {st st' : Store} (h : Renewed st st') (hst : Reachable D cfg st) :
    ¬st'.Same st := by
  intro hsame
  obtain ⟨k, b, hb, haddr⟩ := h.entry
  rw [hsame.blobs] at hb
  exact absurd (hst.addr_lt hb) (by omega)

/-- What became of a store on a condition: something was stored, or nothing changed. -/
structure Touched (st : Store) (p : Prop) (st' : Store) : Prop where
  renewed : p → Renewed st st'
  eq : ¬p → st' = st

theorem touched_refl (st : Store) : Touched st False st := ⟨False.elim, fun _ ↦ rfl⟩

theorem Touched.congr {st st' : Store} {p q : Prop} (h : Touched st p st') (hpq : p ↔ q) :
    Touched st q st' := ⟨fun hq ↦ h.renewed (hpq.2 hq), fun hq ↦ h.eq fun hp ↦ hq (hpq.1 hp)⟩

theorem Touched.allocated_le {st st' : Store} {p : Prop} (h : Touched st p st') :
    st.allocated ≤ st'.allocated := by
  by_cases hp : p
  · exact (h.renewed hp).allocated
  · rw [h.eq hp]

theorem Touched.same_iff {st st' : Store} {p : Prop} (h : Touched st p st')
    (hst : Reachable D cfg st) : st'.Same st ↔ ¬p := by
  refine ⟨fun hsame hp ↦ (h.renewed hp).not_same hst hsame, fun hp ↦ ?_⟩
  rw [h.eq hp]
  exact .refl st

end Numbers

/-! ### The send phase without the slash -/

/-- The file behind the key can be delivered. -/
def Store.DeliveredAt (st : Store) (curl : Curl) (k : BlobKey) : Prop :=
  ∃ y, st.fileOf k = some y ∧ curl.Delivers k.blobref y

/-- Every local key is one of the peer's, or its file cannot be delivered. -/
def NothingToPush (curl : Curl) (st pst : Store) : Prop :=
  ∀ k ∈ st.blobs.keys, k ∈ pst.blobs.keys ∨ ¬st.DeliveredAt curl k

theorem Store.Same.nothingToPush_iff {st st' : Store} (h : st.Same st') (curl : Curl)
    (pst : Store) : NothingToPush curl st pst ↔ NothingToPush curl st' pst := by
  simp only [NothingToPush, Store.DeliveredAt, h.fileOf_eq, h.blobs]

section Pushing

variable {D : Digests} {pcfg : Config} {penv : Environment} {curl : Curl} {host : Bytes}
  {st pst : Store} (hstd : st.Standard)
  (hfile : ∀ k ∈ st.blobs.keys, ∃ y, st.fileOf k = some y ∧ y ≠ [])

include hstd hfile

/-- One upload. -/
theorem uploads_cons {k : BlobKey} (hk : k ∈ st.blobs.keys) {y : Bytes} (hy : st.fileOf k = some y)
    (s : Store) (refs : List Bytes) :
    (curl.server D pcfg penv host).uploads host st s (k.blobref :: refs) =
      (curl.server D pcfg penv host).uploads host st
        (if curl.Delivers k.blobref y then s.stored D pcfg y else s) refs := by
  obtain ⟨y', hy', hne⟩ := hfile k hk
  obtain rfl : y' = y := Option.some.inj (hy'.symm.trans hy)
  obtain ⟨b, hb, hcontent⟩ := Option.bind_eq_some_iff.1 hy
  have hget : st.get k.blobref = some b := by rw [(hstd k hk).get_blobref, hb]
  rw [Peer.uploads, Peer.uploads, List.foldl_cons]
  simp only [hget, hcontent]
  rw [upload_server s curl host (hstd k hk) hne]

/-- The uploads of a round. -/
theorem Touched.uploads {refs : List Bytes}
    (hrefs : ∀ r ∈ refs, ∃ k ∈ st.blobs.keys, r = k.blobref) {s : Store} {p : Prop}
    (hs : Touched pst p s) :
    Touched pst (p ∨ ∃ k ∈ st.blobs.keys, k.blobref ∈ refs ∧ st.DeliveredAt curl k)
      ((curl.server D pcfg penv host).uploads host st s refs) := by
  induction refs generalizing s p with
  | nil => exact hs.congr (by simp)
  | cons r refs ih =>
    obtain ⟨k, hk, rfl⟩ := hrefs r List.mem_cons_self
    obtain ⟨y, hy, -⟩ := hfile k hk
    have hdel : st.DeliveredAt curl k ↔ curl.Delivers k.blobref y :=
      ⟨fun ⟨y', hy', h7⟩ ↦ Option.some.inj (hy'.symm.trans hy) ▸ h7, fun h7 ↦ ⟨y, hy, h7⟩⟩
    -- the first reference, from the state before the others
    have hone : Touched pst (p ∨ curl.Delivers k.blobref y)
        (if curl.Delivers k.blobref y then s.stored D pcfg y else s) := by
      split_ifs with h7
      · exact ⟨fun _ ↦ renewed_stored hs.allocated_le y, fun h ↦ (h (Or.inr h7)).elim⟩
      · exact hs.congr (by simp [h7])
    rw [uploads_cons hstd hfile hk hy]
    refine (ih (fun r hr ↦ hrefs r (List.mem_cons_of_mem _ hr)) hone).congr ?_
    rw [or_assoc]
    refine or_congr_right ⟨?_, ?_⟩
    · rintro (h7 | ⟨j, hj, hmem, h7⟩)
      · exact ⟨k, hk, List.mem_cons_self, hdel.2 h7⟩
      · exact ⟨j, hj, List.mem_cons_of_mem _ hmem, h7⟩
    · rintro ⟨j, hj, hmem, h7⟩
      rcases List.mem_cons.1 hmem with heq | hmem
      · have hjk := (hstd j hj).eq_of_blobref (hstd k hk) heq
        exact Or.inl (hdel.1 (hjk ▸ h7))
      · exact Or.inr ⟨j, hj, hmem, h7⟩

/-- **All rounds**, by induction on the offers. As long as nothing was stored the peer has the keys
it had at first, so the first content that it can store is among what is sent. -/
theorem Touched.offers {offers : List (Offer Store)} {s s' : Store}
    (hchain : Offers (curl.server D pcfg penv host) host st s offers s')
    (hoffers : ∀ o ∈ offers, o.Exact (curl.server D pcfg penv host) ∧
      ∀ e ∈ o.page, e.1 ∈ st.blobs.keys) {p : Prop} (hs : Touched pst p s) :
    Touched pst (p ∨ ∃ o ∈ offers, ∃ e ∈ o.page,
      e.1 ∉ pst.blobs.keys ∧ st.DeliveredAt curl e.1) s' := by
  induction hchain generalizing p with
  | nil s => exact hs.congr (by simp)
  | cons o h ih =>
    obtain ⟨hexact, hlocal⟩ := hoffers o List.mem_cons_self
    have hrefs : ∀ r ∈ o.sent, ∃ k ∈ st.blobs.keys, r = k.blobref := by
      intro r hr
      obtain ⟨e, he, hr, -⟩ := (hexact.mem_sent r).1 hr
      exact ⟨e.1, hlocal e he, hr⟩
    have hafter : Touched pst (p ∨ ∃ e ∈ o.page, e.1 ∉ pst.blobs.keys ∧ st.DeliveredAt curl e.1)
        (o.after (curl.server D pcfg penv host) host st) := by
      have hstat : (curl.server D pcfg penv host).next o.peer
          ((curl.server D pcfg penv host).request (lit "/stat") (some (statRequest o.page))) =
            o.peer := storeAfter_stat o.peer curl host _
      rw [Offer.after, hstat]
      refine (hs.uploads hstd hfile hrefs).congr ?_
      -- once something was stored, it does not matter what else is sent
      by_cases hp : p
      · exact iff_of_true (Or.inl hp) (Or.inl hp)
      refine or_congr_right ?_
      have hpeer : (curl.server D pcfg penv host).store o.peer = pst := hs.eq hp
      simp only [hexact.mem_sent, hpeer]
      constructor
      · rintro ⟨k, hk, ⟨e, he, heq, hnew⟩, h7⟩
        have hke := (hstd k hk).eq_of_blobref (hstd e.1 (hlocal e he)) heq
        exact ⟨e, he, hnew, hke ▸ h7⟩
      · rintro ⟨e, he, hnew, h7⟩
        exact ⟨e.1, hlocal e he, ⟨e, he, rfl, hnew⟩, h7⟩
    refine (ih (fun o' ho' ↦ hoffers o' (List.mem_cons_of_mem _ ho')) hafter).congr ?_
    rw [or_assoc, List.exists_mem_cons_iff]

/-- **The send phase** ends, leaves the local store, and the peer stores something unless there is
nothing to push. -/
theorem exists_sendPhase (R : Json.Reader) (cfg : Config) (env : Environment)
    (log : List (SyncEvent Store)) :
    ∃ fuel x, sendPhase R D cfg env ((curl.server D pcfg penv host).world D host) host fuel
        ⟨pst, st, log⟩ none = .ok (some x) ∧ x.store = st ∧
      Touched pst (¬NothingToPush curl st pst) x.world := by
  obtain ⟨fuel, world, offers, hrun, hchain, hoffers, hcover⟩ :=
    sendPhase_from D cfg env (curl.server D pcfg penv host) host R hstd ⟨pst, st, log⟩ .none rfl rfl
  refine ⟨fuel, _, hrun, rfl, ?_⟩
  refine ((touched_refl pst).offers hstd hfile hchain hoffers).congr ?_
  rw [false_or]
  constructor
  · rintro ⟨o, ho, e, he, hnew, h7⟩ hnothing
    exact (hnothing e.1 ((hoffers o ho).2 e he)).elim hnew fun hnot ↦ hnot h7
  · intro hpush
    rw [NothingToPush] at hpush
    push Not at hpush
    obtain ⟨k, hk, hnew, h7⟩ := hpush
    obtain ⟨o, ho, hmem⟩ := hcover k hk
    obtain ⟨e, he, rfl⟩ := List.mem_map.1 hmem
    exact ⟨o, ho, e, he, hnew, h7⟩

end Pushing

/-! ### The get phase without the slash -/

/-- The file behind the key is a content of this key. -/
def Store.MatchesAt (D : Digests) (st : Store) (k : BlobKey) : Prop :=
  ∃ y, st.fileOf k = some y ∧ k ∈ blobKeys D y

section Pulling

variable {D : Digests} {cfg pcfg : Config} {env penv : Environment} {curl : Curl} {host : Bytes}
  {st pst : Store}

theorem fetchUrl_server (x : Syncing Store) (url : Bytes) :
    (fetchUrl ((curl.server D pcfg penv host).world D host) x url none).2.world = x.world := by
  show (if host.isPrefixOf url then _ else _ : Option Bytes × Store).2 = x.world
  split_ifs
  · exact storeAfter_get x.world rfl
  · rfl

variable (cfg env penv curl) in
/-- One reference of a page: it is taken in if the peer's file is a content of it, and only then
does anything change. -/
theorem fetchMissing_server (hhost : (lit "/").isSuffixOf host = false)
    (hpst : Reachable D pcfg pst) {x : Syncing Store} (hx : x.world = pst) {k : BlobKey}
    (hk : k ∈ pst.blobs.keys) :
    ∃ x', fetchMissing D cfg env ((curl.server D pcfg penv host).world D host) host x k.blobref =
        .ok x' ∧ x'.world = pst ∧ x.store.Extends x'.store ∧
      (k ∈ x.store.blobs.keys ∧ x'.store = x.store ∨
        k ∉ x.store.blobs.keys ∧ pst.MatchesAt D k ∧
          (∃ y, x'.store = x.store.stored D cfg y) ∧ k ∈ x'.store.blobs.keys ∨
        k ∉ x.store.blobs.keys ∧ ¬pst.MatchesAt D k ∧ x'.store = x.store.refused) := by
  have hcomp : k.Computed := hpst.standard k hk
  have hget := hcomp.get_blobref x.store
  rcases hfound : x.store.get k.blobref with - | b
  · obtain ⟨y, hy, hne⟩ := hpst.exists_fileOf hk
    obtain ⟨b, hb, hcontent⟩ := Option.bind_eq_some_iff.1 hy
    have hnew : k ∉ x.store.blobs.keys := OrdMap.find_eq_none_iff.1 (hget ▸ hfound)
    have hmatch : pst.MatchesAt D k ↔ k ∈ blobKeys D y :=
      ⟨fun ⟨y', hy', hmem⟩ ↦ Option.some.inj (hy'.symm.trans hy) ▸ hmem, fun hmem ↦ ⟨y, hy, hmem⟩⟩
    have hworld : (curl.server D pcfg penv host).next x.world
        ((curl.server D pcfg penv host).request (47 :: k.blobref) none) = pst :=
      (storeAfter_get x.world rfl).trans hx
    rw [fetchMissing_missing cfg env hhost (curl.server D pcfg penv host) hcomp
      (hx ▸ hb) (hx ▸ hcontent) hfound, addBlob_eq, if_neg hne, hworld]
    -- `add_blob` keeps the content if the reference is one of its own
    by_cases hmem : k ∈ blobKeys D y
    · rw [if_pos ((providedHashOk_blobref_iff hcomp).2 hmem)]
      exact ⟨_, rfl, rfl, .stored x.store y, Or.inr (Or.inl ⟨hnew, hmatch.2 hmem, ⟨y, rfl⟩,
        mem_keys_stored.2 (Or.inl hmem)⟩)⟩
    · rw [if_neg fun hok ↦ hmem ((providedHashOk_blobref_iff hcomp).1 hok)]
      exact ⟨_, rfl, rfl, .refused x.store,
        Or.inr (Or.inr ⟨hnew, fun h ↦ hmem (hmatch.1 h), rfl⟩)⟩
  · exact ⟨x, fetchMissing_found cfg env hfound, hx, .refl x.store,
      Or.inl ⟨OrdMap.mem_keys_iff.2 ⟨b, hget ▸ hfound⟩, rfl⟩⟩

/-- Every key of the peer is in the local index, or its file is not a content of it. -/
def NothingToPull (D : Digests) (st pst : Store) : Prop :=
  ∀ k ∈ pst.blobs.keys, k ∈ st.blobs.keys ∨ ¬pst.MatchesAt D k

variable (cfg env penv curl) in
/-- **The get phase** ends, leaves the peer, and changes the local index exactly if there is
something to pull. -/
theorem exists_getPhase_server (R : Json.Reader) (hhost : (lit "/").isSuffixOf host = false)
    (hst : st.Standard) (hpst : Reachable D pcfg pst) :
    ∃ fuel x, getPhase R D cfg env ((curl.server D pcfg penv host).world D host) host fuel
        ⟨pst, st, []⟩ [] = .ok (some x) ∧ x.world = pst ∧ x.store.Standard ∧
      (x.store.Same st ↔ NothingToPull D st pst) := by
  have hinv : PullInvariant D cfg env (curl.server D pcfg penv host) host pst
      (fun x ↦ x.world = pst ∧ x.store.Standard ∧ (NothingToPull D st pst → x.store.Same st))
      {k | pst.MatchesAt D k} := by
    refine ⟨fun hx ↦ hx.1, fun {x} url hx ↦ ⟨(fetchUrl_server x url).trans hx.1, hx.2⟩, ?_⟩
    rintro x k ⟨hworld, hstd, hsame⟩ hk
    obtain ⟨x', hx', hworld', hext, hcase⟩ :=
      fetchMissing_server cfg env penv curl hhost hpst hworld hk
    refine ⟨x', hx', ?_⟩
    rcases hcase with ⟨hold, hstore⟩ | ⟨hnew, hmatch, ⟨y, hstore⟩, hmem⟩ | ⟨hnew, hmatch, hstore⟩
    · exact ⟨⟨hworld', hstore ▸ hstd, hstore ▸ hsame⟩, fun _ ↦ hstore ▸ hold, hext⟩
    · refine ⟨⟨hworld', hstore ▸ hstd.stored y, fun hnothing ↦ ?_⟩, fun _ ↦ hmem, hext⟩
      -- the key would be a local one
      rcases hnothing k hk with hlocal | hnot
      · exact absurd ((hsame hnothing).blobs ▸ hlocal) hnew
      · exact absurd hmatch hnot
    · refine ⟨⟨hworld', hstore ▸ hstd, fun hnothing ↦ ?_⟩, fun h ↦ absurd h hmatch, hext⟩
      rw [hstore]
      exact ⟨(hsame hnothing).blobs, (hsame hnothing).files⟩
  obtain ⟨fuel, x, hrun, ⟨hworld, hstd, hsame⟩, hmem, -⟩ :=
    hinv.exists_getPhase R hpst.standard (x := ⟨pst, st, []⟩) ⟨rfl, hst, fun _ ↦ .refl st⟩
  refine ⟨fuel, x, hrun, hworld, hstd, fun h k hk ↦ ?_, hsame⟩
  by_cases hmatch : pst.MatchesAt D k
  · exact Or.inl (h.blobs ▸ hmem k hk hmatch)
  · exact Or.inr hmatch

end Pulling

/-! ### With the slash -/

section Slash

variable {R : Json.Reader} (hR : R.Strict) {D : Digests} {cfg pcfg : Config}
  {env penv : Environment} {curl : Curl} {host : Bytes}

theorem Store.Standard.get_eq_none {st : Store} (hst : st.Standard) {r : Bytes} {k : BlobKey}
    (hr : createBlobKey r = some k) (hk : ¬k.Computed) : st.get r = none := by
  rw [Store.get, hr]
  exact OrdMap.find_eq_none_iff.2 fun hmem ↦ hk (hst k hmem)

/-- The peer's answer to an enumeration with two slashes: the page for a blob that is not there. -/
theorem handleRequest_enumerate_slash {pst : Store} (hpst : pst.Standard) (peer : Peer Store) :
    handleRequest D pcfg penv pst (peer.request (lit "//enumerate-blobs") none) =
      .ok ⟨Http.stockReply .notFound, pst, []⟩ := by
  have hget : pst.get (lit "/enumerate-blobs") = none := by
    refine hpst.get_eq_none (k := ⟨lit "/enumerate", lit "blobs"⟩) (by decide +kernel) fun hk ↦ ?_
    rcases hk.hashType with h | h
    · exact absurd h (by decide)
    · exact absurd h (by decide)
  have hpath : IsOtherPath (lit "//enumerate-blobs") :=
    ⟨rfl, by decide, by decide, by decide, rfl, rfl⟩
  have hlookup : handleGet penv pst (lit "//enumerate-blobs")
      (peer.request (lit "//enumerate-blobs") none) = (Http.stockReply .notFound, []) := by
    rw [handleGet, show (lit "//enumerate-blobs").drop 1 = lit "/enumerate-blobs" from rfl, hget]
  rw [handleRequest_lookup D pcfg penv pst hpath _ rfl rfl rfl, hlookup]

/-- Its answer to a stat request with two slashes: an upload without a boundary. -/
theorem handleRequest_stat_slash (pst : Store) (postbody : Bytes) :
    handleRequest D pcfg penv pst
      ((curl.server D pcfg penv host).request (lit "//stat") (some postbody)) =
        .ok ⟨⟨.ok, [], []⟩, pst, []⟩ := by
  have hpath : IsOtherPath (lit "//stat") := ⟨rfl, by decide, by decide, by decide, rfl, rfl⟩
  have hct : Http.getHeader ((curl.server D pcfg penv host).request (lit "//stat")
      (some postbody)).headers (lit "Content-Type") = lit "application/x-www-form-urlencoded" :=
    curl.getHeader_typed _
  have hnone : (parseBoundryHeader (lit "application/x-www-form-urlencoded")).attributeValue
      (lit "boundary") = none := by decide +kernel
  have hparts : uploadParts ((curl.server D pcfg penv host).request (lit "//stat")
      (some postbody)) = [] := by
    rw [uploadParts, hct, hnone]
  rw [handleRequest_post D pcfg penv pst hpath _ rfl rfl, handlePut_eq, hct, if_neg (by decide),
    hparts]
  rfl

/-- A request that leaves the peer alone. -/
theorem exists_fetchUrl_server {x : Syncing Store} {path : Bytes} {postbody : Option Bytes}
    {rep : Http.Reply} {opened : List Bytes}
    (h : handleRequest D pcfg penv x.world
      ((curl.server D pcfg penv host).request path postbody) = .ok ⟨rep, x.world, opened⟩) :
    ∃ x', fetchUrl ((curl.server D pcfg penv host).world D host) x (host ++ path) postbody =
      (some rep.content, x') ∧ x'.world = x.world ∧ x'.store = x.store := by
  have hfetch := (curl.server D pcfg penv host).fetchUrl_world D host path x postbody
  rw [(curl.server D pcfg penv host).answer_eq D h] at hfetch
  exact ⟨_, hfetch, storeAfter_eq h, rfl⟩

include hR

/-- The get phase ends with the first reply. -/
theorem getPhase_slash {x : Syncing Store} (hx : x.world.Standard) (fuel : ℕ) :
    ∃ x', getPhase R D cfg env ((curl.server D pcfg penv host).world D host) (host ++ lit "/")
        (fuel + 1) x [] = .ok (some x') ∧ x'.world = x.world ∧ x'.store = x.store := by
  have hurl : buildEnumerationUrl (host ++ lit "/") [] = host ++ lit "//enumerate-blobs" := by
    rw [buildEnumerationUrl, if_neg (by decide), List.append_nil, List.append_assoc]
    rfl
  have hparse : parseSyncEnumeration R (Http.stockReply .notFound).content = .ok none := by
    rw [parseSyncEnumeration, show (Http.stockReply .notFound).content = 60 :: _ from rfl, hR.html]
  have hserved : handleRequest D pcfg penv x.world _ = _ :=
    handleRequest_enumerate_slash hx (curl.server D pcfg penv host)
  obtain ⟨x', hfetch, hsame⟩ := exists_fetchUrl_server hserved
  exact ⟨x', by simp only [getPhase, hurl, hfetch, hparse, bind, Except.bind], hsame⟩

/-- The send phase ends with the first page, if there is one. -/
theorem sendPhase_slash (x : Syncing Store) (fuel : ℕ) :
    ∃ x', sendPhase R D cfg env ((curl.server D pcfg penv host).world D host) (host ++ lit "/")
        (fuel + 1) x none = .ok (some x') ∧ x'.world = x.world ∧ x'.store = x.store := by
  have hurl : buildStatUrl (host ++ lit "/") = host ++ lit "//stat" := by
    rw [buildStatUrl, List.append_assoc]
    rfl
  have hparse : parseSyncEnumeration R [] = .ok none := by
    rw [parseSyncEnumeration, hR.nil]
  have hothers : serveOthers D cfg env ((curl.server D pcfg penv host).world D host) x = .ok x :=
    (curl.server D pcfg penv host).serveOthers_world x
  have hserved : handleRequest D pcfg penv x.world
      ((curl.server D pcfg penv host).request _ _) = _ :=
    handleRequest_stat_slash x.world (statRequest (x.store.paginate none 501))
  obtain ⟨x', hfetch, hsame⟩ := exists_fetchUrl_server hserved
  rcases Nat.eq_zero_or_pos (x.store.paginate none 501).length with hzero | hpos
  · refine ⟨x, ?_, rfl, rfl⟩
    simp [sendPhase, hothers, bind, Except.bind, hzero]
  · refine ⟨x', ?_, hsame⟩
    simp only [sendPhase, hothers, bind, Except.bind, gt_iff_lt, hpos, if_true, hurl, hfetch,
      hparse]

variable (D cfg env pcfg penv curl host) in
/-- **With the slash nothing is synced**, in any mode. -/
theorem syncHost_slash {pst : Store} (hpst : pst.Standard) (st : Store) (mode : SyncMode)
    (fuel : ℕ) :
    ∃ x, syncHost R D cfg env ((curl.server D pcfg penv host).world D host) (fuel + 1)
        ⟨host ++ lit "/", mode⟩ ⟨pst, st, []⟩ = .ok (some x) ∧ x.world = pst ∧ x.store = st := by
  set c : SyncConfig := ⟨host ++ lit "/", mode⟩
  have hsend : ∀ x : Syncing Store, ∃ x', syncSend R D cfg env
      ((curl.server D pcfg penv host).world D host) (fuel + 1) c (some x) = .ok (some x') ∧
        x'.world = x.world ∧ x'.store = x.store := by
    intro x
    rw [syncSend]
    split_ifs
    · exact sendPhase_slash hR x fuel
    · exact ⟨x, rfl, rfl, rfl⟩
  rw [syncHost]
  split_ifs
  · obtain ⟨x, hrun, hworld, hstore⟩ := getPhase_slash hR (x := ⟨pst, st, []⟩) hpst fuel
    obtain ⟨x', hrun', hworld', hstore'⟩ := hsend x
    refine ⟨x', ?_, hworld'.trans hworld, hstore'.trans hstore⟩
    rw [hrun]
    exact hrun'
  · exact hsend ⟨pst, st, []⟩

end Slash

/-! ### When the slash makes no difference -/

section Comparison

variable (R : Json.Reader) (D : Digests) (cfg : Config) (env : Environment) (curl : Curl)
  (pcfg : Config) (penv : Environment) (host : Bytes) (mode : SyncMode) (st pst : Store)

/-- Syncing with the host, with a slash behind it and without, comes to an end and leaves the same
local store and the same peer. -/
def SlashIgnored : Prop :=
  ∃ fuel x x', syncHost R D cfg env ((curl.server D pcfg penv host).world D host) fuel ⟨host, mode⟩
      ⟨pst, st, []⟩ = .ok (some x) ∧
    syncHost R D cfg env ((curl.server D pcfg penv host).world D host) fuel ⟨host ++ lit "/", mode⟩
      ⟨pst, st, []⟩ = .ok (some x') ∧
    x.store.Same x'.store ∧ x.world.Same x'.world

variable {D cfg pcfg st pst}

/-- The first half of a sync. -/
theorem exists_syncGet (hhost : (lit "/").isSuffixOf host = false) (hst : Reachable D cfg st)
    (hpst : Reachable D pcfg pst) :
    ∃ fuel x, (∀ m, fuel ≤ m →
        syncHost R D cfg env ((curl.server D pcfg penv host).world D host) m ⟨host, mode⟩
            ⟨pst, st, []⟩ =
          syncSend R D cfg env ((curl.server D pcfg penv host).world D host) m ⟨host, mode⟩
            (some x)) ∧
      x.world = pst ∧ x.store.Standard ∧
      (x.store.Same st ↔ (SyncConfig.get ⟨host, mode⟩ = true → NothingToPull D st pst)) := by
  by_cases hget : SyncConfig.get ⟨host, mode⟩ = true
  · obtain ⟨n, x, hrun, hworld, hstd, hsame⟩ :=
      exists_getPhase_server cfg env penv curl R hhost hst.standard hpst
    refine ⟨n, x, fun m hm ↦ ?_, hworld, hstd, hsame.trans (by simp [hget])⟩
    rw [syncHost, if_pos hget, getPhase_mono hm _ _ _ hrun]
    rfl
  · refine ⟨0, ⟨pst, st, []⟩, fun m _ ↦ ?_, rfl, hst.standard, ?_⟩
    · rw [syncHost, if_neg hget]
    · exact iff_of_true (.refl st) fun h ↦ absurd h hget

/-- The second half of a sync. -/
theorem exists_syncSend (hst : Reachable D cfg st) (hpst : Reachable D pcfg pst)
    {x : Syncing Store} (hworld : x.world = pst) (hstd : x.store.Standard) :
    ∃ fuel x', syncSend R D cfg env ((curl.server D pcfg penv host).world D host) fuel ⟨host, mode⟩
        (some x) = .ok (some x') ∧ x'.store = x.store ∧
      (x.store.Same st → (x'.world.Same pst ↔
        (SyncConfig.send ⟨host, mode⟩ = true → NothingToPush curl st pst))) := by
  rcases x with ⟨s, st₁, log⟩
  obtain rfl : s = pst := hworld
  by_cases hsend : SyncConfig.send ⟨host, mode⟩ = true
  · simp only [syncSend, hsend, if_true, forall_const]
    -- a store that has changed decides already; only the end of the phase is needed then
    by_cases hsame : st₁.Same st
    · have hfile : ∀ k ∈ st₁.blobs.keys, ∃ y, st₁.fileOf k = some y ∧ y ≠ [] := by
        intro k hk
        rw [hsame.blobs] at hk
        rw [hsame.fileOf_eq]
        exact hst.exists_fileOf hk
      obtain ⟨fuel, x', hrun, hstore, htouched⟩ := exists_sendPhase hstd hfile R cfg env log
      refine ⟨fuel, x', hrun, hstore, fun _ ↦ ?_⟩
      rw [htouched.same_iff hpst, not_not, hsame.nothingToPush_iff]
    · obtain ⟨fuel, world, offers, hrun, -⟩ := sendPhase_from D cfg env
        (curl.server D pcfg penv host) host R hstd ⟨s, st₁, log⟩ .none rfl rfl
      exact ⟨fuel, _, hrun, rfl, fun h ↦ absurd h hsame⟩
  · refine ⟨0, ⟨s, st₁, log⟩, ?_, rfl, fun _ ↦ iff_of_true (.refl s) fun h ↦ absurd h hsend⟩
    rw [syncSend, if_neg hsend]

/-- **Without the slash** nothing changes exactly if there is nothing to do. -/
theorem exists_syncHost (hhost : (lit "/").isSuffixOf host = false) (hst : Reachable D cfg st)
    (hpst : Reachable D pcfg pst) :
    ∃ fuel x, syncHost R D cfg env ((curl.server D pcfg penv host).world D host) fuel ⟨host, mode⟩
        ⟨pst, st, []⟩ = .ok (some x) ∧
      (x.store.Same st ∧ x.world.Same pst ↔
        (SyncConfig.get ⟨host, mode⟩ = true → NothingToPull D st pst) ∧
        (SyncConfig.send ⟨host, mode⟩ = true → NothingToPush curl st pst)) := by
  obtain ⟨n, x₁, hfirst, hworld, hstd, hpull⟩ :=
    exists_syncGet R env curl penv host mode hhost hst hpst
  obtain ⟨m, x, hsecond, hstore, hpush⟩ :=
    exists_syncSend R env curl penv host mode hst hpst hworld hstd
  refine ⟨max n m, x, ?_, ?_⟩
  · rw [hfirst _ (le_max_left n m)]
    exact syncSend_mono (le_max_right n m) _ _ _ hsecond
  · rw [hstore, ← hpull]
    exact and_congr_right hpush

/-- The run with the slash is known, and so a run without it decides. -/
theorem slashIgnored_iff_same {R : Json.Reader} {env penv : Environment} {curl : Curl}
    {host : Bytes} {mode : SyncMode} (hR : R.Strict) (hpst : Reachable D pcfg pst) {n : ℕ}
    {x : Syncing Store}
    (hrun : syncHost R D cfg env ((curl.server D pcfg penv host).world D host) n ⟨host, mode⟩
      ⟨pst, st, []⟩ = .ok (some x)) :
    SlashIgnored R D cfg env curl pcfg penv host mode st pst ↔
      x.store.Same st ∧ x.world.Same pst := by
  have hslash := syncHost_slash hR D cfg pcfg env penv curl host hpst.standard st mode
  constructor
  · rintro ⟨fuel, y, y', hy, hy', hstore, hworld⟩
    -- with more fuel the two runs are the known ones
    obtain ⟨x', hrun', hworld', hstore'⟩ := hslash fuel
    have hyx : y = x := by
      have hmax := syncHost_mono (le_max_left fuel n) _ _ _ hy
      rw [syncHost_mono (le_max_right fuel n) _ _ _ hrun] at hmax
      exact (Option.some.inj (Except.ok.inj hmax)).symm
    have hyx' : y' = x' := by
      have hsucc := syncHost_mono (Nat.le_succ fuel) _ _ _ hy'
      rw [hrun'] at hsucc
      exact (Option.some.inj (Except.ok.inj hsucc)).symm
    subst hyx hyx'
    exact ⟨hstore' ▸ hstore, hworld' ▸ hworld⟩
  · rintro ⟨hstore, hworld⟩
    obtain ⟨x', hrun', hworld', hstore'⟩ := hslash n
    refine ⟨n + 1, x, x', syncHost_mono (Nat.le_succ n) _ _ _ hrun, hrun', ?_, ?_⟩
    · rw [hstore']
      exact hstore
    · rw [hworld']
      exact hworld

variable (D cfg pcfg st pst)

/-- **When a slash behind the host makes no difference**: between reachable stores, exactly if the
mode gives nothing to do. In a mode that gets, every key of the peer is a local one or its file is
not a content of it; in one that sends, every local key is one of the peer's or its file cannot be
delivered, since it is not 7-bit or makes too long a form. -/
theorem slashIgnored_iff (hR : R.Strict) (hhost : (lit "/").isSuffixOf host = false)
    (hst : Reachable D cfg st) (hpst : Reachable D pcfg pst) :
    SlashIgnored R D cfg env curl pcfg penv host mode st pst ↔
      (SyncConfig.get ⟨host, mode⟩ = true → NothingToPull D st pst) ∧
      (SyncConfig.send ⟨host, mode⟩ = true → NothingToPush curl st pst) := by
  obtain ⟨n, x, hrun, hiff⟩ := exists_syncHost R env curl penv host mode hhost hst hpst
  rw [slashIgnored_iff_same hR hpst hrun, hiff]

end Comparison

/-! ### Examples of both -/

/-- The boundary of a form: dashes and hex digits, and more of them where they occur in the form. -/
def sampleBoundary (blobRef content : Bytes) : Bytes :=
  let boundary := lit "------------------------5c7e4a0b9d21f386"
  let texts := content :: (buildUpload blobRef content).lines
  if ∀ l ∈ texts, ¬delimiter boundary <:+: l then boundary
  else boundary ++ List.replicate texts.flatten.length 48

theorem isToken_dashes (n : ℕ) :
    IsToken (lit "------------------------5c7e4a0b9d21f386" ++ List.replicate n 48) := by
  refine ⟨by simp [lit], fun b hb ↦ ?_⟩
  rcases List.mem_append.1 hb with hb | hb
  · have hall : ∀ b ∈ lit "------------------------5c7e4a0b9d21f386",
        32 < b ∧ b < 127 ∧ b ∉ lit "()<>@,;:\\\"/[]?=" := by decide +kernel
    exact hall b hb
  · obtain rfl := List.eq_of_mem_replicate hb
    decide

theorem isToken_sampleBoundary (blobRef content : Bytes) :
    IsToken (sampleBoundary blobRef content) := by
  rw [sampleBoundary]
  split_ifs
  · simpa using isToken_dashes 0
  · exact isToken_dashes _

theorem sampleBoundary_fits (blobRef content : Bytes) :
    ∀ l ∈ content :: (buildUpload blobRef content).lines,
      ¬delimiter (sampleBoundary blobRef content) <:+: l := by
  intro l hl hocc
  rw [sampleBoundary] at hocc
  split_ifs at hocc with hfits
  · exact hfits l hl hocc
  · -- the delimiter is longer than the form
    have hlen := hocc.length_le
    have hsub := (List.sublist_flatten_of_mem hl).length_le
    have hdash : (lit "--").length = 2 := by decide
    simp only [delimiter, List.length_append, List.length_replicate] at hlen
    omega

/-- The headers libcurl sends by itself. -/
def sampleHeaders : List Http.Header :=
  [⟨lit "Host", lit "peer:8080"⟩, ⟨lit "Accept", lit "*/*"⟩]

theorem sampleHeaders_plain : ∀ h ∈ sampleHeaders,
    lower h.name ≠ lower (lit "Accept-Encoding") ∧ lower h.name ≠ lower (lit "Content-Type") := by
  intro h hh
  simp only [sampleHeaders, List.mem_cons, List.not_mem_nil, or_false] at hh
  rcases hh with rfl | rfl
  · exact ⟨by decide, by decide⟩
  · exact ⟨by decide, by decide⟩

/-- What libcurl sends, up to the digits of its boundaries. -/
def Curl.sample : Curl :=
  ⟨sampleHeaders, sampleHeaders_plain, sampleBoundary, isToken_sampleBoundary, sampleBoundary_fits⟩

theorem reachable_a : Reachable Digests.sample {} (Store.empty.stored Digests.sample {} [97]) :=
  ⟨[⟨none, [97]⟩], rfl⟩

theorem reachable_a_eight : Reachable Digests.sample {}
    ((Store.empty.stored Digests.sample {} [97]).stored Digests.sample {} [195, 169]) :=
  ⟨[⟨none, [97]⟩, ⟨none, [195, 169]⟩], rfl⟩

/-- The peer holds `a`; the local store holds `a` too, and the two bytes `C3 A9`, which the peer
would lose. -/
theorem slashIgnored_a_eight :
    SlashIgnored Json.plainReader Digests.sample {} ⟨true, fun _ ↦ none, fun _ s ↦ s⟩ Curl.sample {}
      ⟨true, fun _ ↦ none, fun _ s ↦ s⟩ (lit "http://peer:8080") .getAndSend
      ((Store.empty.stored Digests.sample {} [97]).stored Digests.sample {} [195, 169])
      (Store.empty.stored Digests.sample {} [97]) := by
  refine (slashIgnored_iff Json.plainReader Digests.sample {} ⟨true, fun _ ↦ none, fun _ s ↦ s⟩
    Curl.sample {} ⟨true, fun _ ↦ none, fun _ s ↦ s⟩ (lit "http://peer:8080") .getAndSend _ _
    Json.strict_plainReader (by decide) reachable_a_eight reachable_a).2
    ⟨fun _ k hk ↦ Or.inl (mem_keys_stored.2 (Or.inr hk)), fun _ k hk ↦ ?_⟩
  rcases mem_keys_stored.1 hk with hnew | hold
  · refine Or.inr ?_
    rintro ⟨y, hy, h7⟩
    have hpath : pathOf Digests.sample {} [195, 169] ≠ pathOf Digests.sample {} [97] := by
      decide +kernel
    have hfree : (Store.empty.stored Digests.sample {} [97]).files.find
        (pathOf Digests.sample {} [195, 169]) = none := by
      rw [find_files_stored, if_neg hpath]
      rfl
    rw [fileOf_stored hnew, hfree, Option.getD_none] at hy
    obtain rfl := Option.some.inj hy
    exact absurd (h7.1 195 List.mem_cons_self) (by decide)
  · exact Or.inl hold

/-- The peer holds `a`, the local store nothing: without the slash `a` is fetched, with it not. -/
theorem not_slashIgnored_a :
    Json.plainReader.Strict ∧ (lit "/").isSuffixOf (lit "http://peer:8080") = false ∧
      Reachable Digests.sample {} .empty ∧
      Reachable Digests.sample {} (Store.empty.stored Digests.sample {} [97]) ∧
      ¬SlashIgnored Json.plainReader Digests.sample {} ⟨true, fun _ ↦ none, fun _ s ↦ s⟩
        Curl.sample {} ⟨true, fun _ ↦ none, fun _ s ↦ s⟩ (lit "http://peer:8080") .get .empty
        (Store.empty.stored Digests.sample {} [97]) := by
  have hempty : Reachable Digests.sample {} .empty := ⟨[], rfl⟩
  refine ⟨Json.strict_plainReader, by decide, hempty, reachable_a, fun h ↦ ?_⟩
  obtain ⟨n, x, hrun, hiff⟩ := exists_syncHost Json.plainReader ⟨true, fun _ ↦ none, fun _ s ↦ s⟩
    Curl.sample ⟨true, fun _ ↦ none, fun _ s ↦ s⟩ (lit "http://peer:8080") .get (by decide) hempty
    reachable_a
  have hsame := (slashIgnored_iff_same Json.strict_plainReader reachable_a hrun).1 h
  have hpull := (hiff.1 hsame).1 rfl
  have hkey : keyOfA ∈ blobKeys Digests.sample [97] := List.mem_cons_self
  rcases hpull keyOfA (mem_keys_stored.2 (Or.inl hkey)) with hlocal | hnot
  · exact absurd hlocal List.not_mem_nil
  · exact hnot ⟨[97], fileOf_stored hkey, hkey⟩

end Camlispp
