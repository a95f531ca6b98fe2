import Camlispp.Server.Handler

/-!
# Paths that name a blob

A reference is written with letters, digits and one dash, so a path made of it passes the decoder
unchanged. It reaches the handler of single blobs unless its beginning is taken for another
handler's: `IsName` says that it is not. The references an addition computes are names; a reference
whose type begins with `stat` is not one.

The results are one lemma for each handler, which says that a request of a certain form reaches it
(`handleRequest_ref`, `handleRequest_get`, `handleRequest_head`, `handleRequest_post`). They are
used by name wherever one server asks another, or a client asks a server, so that the order of the
tests in `handle_request` is gone through here and nowhere else.

`exists_handleRequest_eq_ok` says of every request that it is answered: the handlers hand the index
no empty content, so no assertion of `add_blob` can fail on the way of a request.
-/

open Bytes

namespace Camlispp

/-- The bytes of a reference: letters, digits and the dash. -/
def isRefByte (b : UInt8) : Bool := isAlnum b || b = 45

theorem BlobKey.Computed.isRefByte {k : BlobKey} (hk : k.Computed) :
    ∀ b ∈ k.blobref, isRefByte b = true := by
  intro b hb
  rw [BlobKey.blobref, List.mem_append, List.mem_append] at hb
  rcases hb with (hb | hb) | hb
  · have htype : ∀ b ∈ k.hashType, Camlispp.isRefByte b = true := by
      rcases hk.hashType with h | h
      · rw [h]
        decide +kernel
      · rw [h]
        decide +kernel
    exact htype b hb
  · obtain rfl := List.mem_singleton.1 hb
    decide
  · simp [Camlispp.isRefByte, isAlnum_of_isUpperHex (hk.hashValue b hb)]

theorem notMem_of_isRefByte {s : Bytes} (h : ∀ b ∈ s, isRefByte b = true) {c : UInt8}
    (hc : isRefByte c = false) : c ∉ s := fun hmem ↦ by
  rw [h c hmem] at hc
  cases hc

theorem isValueByte_of_isRefByte {b : UInt8} (h : isRefByte b = true) : isValueByte b = true := by
  simp only [isRefByte, Bool.or_eq_true, decide_eq_true_eq] at h
  rcases h with h | rfl
  · simp [isValueByte, h]
  · decide

theorem blobref_ne_nil (k : BlobKey) : k.blobref ≠ [] := by
  simp [BlobKey.blobref, lit]

/-- No request stops the process. -/
theorem exists_handleRequest_eq_ok (D : Digests) (cfg : Config) (env : Environment) (st : Store)
    (req : Http.Request) : ∃ served, handleRequest D cfg env st req = .ok served := by
  rw [handleRequest]
  split
  · exact ⟨_, rfl⟩
  · split_ifs
    · exact ⟨_, rfl⟩
    · -- the put is the only handler that is not a pure function, and it does not fail either
      obtain ⟨r, hput⟩ : ∃ r, handlePut D cfg st req = .ok r := by
        rw [handlePut_eq]
        split_ifs
        · exact ⟨_, rfl⟩
        · exact ⟨_, rfl⟩
      rw [route, hput]
      split_ifs
      all_goals exact ⟨_, rfl⟩

variable (D : Digests) (cfg : Config) (env : Environment) (st : Store)

/-- A path of plain characters is routed as it stands. -/
theorem handleRequest_plain (req : Http.Request) (hhead : req.uri.head? = some 47)
    (hpct : 37 ∉ req.uri) (hplus : 43 ∉ req.uri) (hdot : 46 ∉ req.uri) :
    handleRequest D cfg env st req = route D cfg env st req.uri req := by
  have hdots : find (lit "..") req.uri = none := find_cons_of_notMem hdot _
  rw [handleRequest, urlDecode_eq_self hpct hplus]
  simp [hhead, hdots]

theorem notMem_refPath {r : Bytes} (hr : ∀ b ∈ r, isRefByte b = true) {c : UInt8}
    (hc : isRefByte c = false) (hne : c ≠ 47) : c ∉ 47 :: r := by
  rw [List.mem_cons, not_or]
  exact ⟨hne, notMem_of_isRefByte hr hc⟩

/-- A reference made into a path is routed as it stands. -/
theorem handleRequest_ref (req : Http.Request) {r : Bytes} (huri : req.uri = 47 :: r)
    (hr : ∀ b ∈ r, isRefByte b = true) :
    handleRequest D cfg env st req = route D cfg env st (47 :: r) req := by
  have hnot : ∀ c, isRefByte c = false → c ≠ 47 → c ∉ req.uri := fun c hc hne ↦
    huri ▸ notMem_refPath hr hc hne
  rw [handleRequest_plain D cfg env st req (by rw [huri]; rfl) (hnot 37 (by decide) (by decide))
    (hnot 43 (by decide) (by decide)) (hnot 46 (by decide) (by decide)), huri]

/-- A stat request by `POST` is answered about what its content names. -/
theorem handleRequest_statPost (req : Http.Request) (huri : req.uri = lit "/stat")
    (hpost : req.method = lit "POST") :
    handleRequest D cfg env st req =
      .ok ⟨jsonReply (statistics st (decodeQueryStringBlobs req.content)), st, []⟩ := by
  have hnot : ∀ c, c ∉ lit "/stat" → c ∉ req.uri := fun c hc ↦ huri ▸ hc
  have hstatic : (lit "/static/").isPrefixOf (lit "/stat") = false := by decide
  have hstat : (lit "/stat").isPrefixOf (lit "/stat") = true := by decide
  have hne : lit "POST" ≠ lit "GET" := by decide
  rw [handleRequest_plain D cfg env st req (by rw [huri]; rfl) (hnot 37 (by decide))
    (hnot 43 (by decide)) (hnot 46 (by decide))]
  simp only [route, huri, hstatic, hstat, Bool.false_eq_true, and_false, if_false, if_true,
    handleStat, hpost, hne]

/-- A stat request by `GET` is answered about what its decoded query names. The test for the version
never fails. -/
theorem handleRequest_statGet (req : Http.Request) {q d : Bytes}
    (huri : req.uri = lit "/stat?" ++ q) (hget : req.method = lit "GET")
    (hd : urlDecode q = some d) (hdots : ¬lit ".." <:+: d) :
    handleRequest D cfg env st req =
      .ok ⟨jsonReply (statistics st (decodeQueryStringBlobs (lit "/stat?" ++ d))), st, []⟩ := by
  have hpath : urlDecode req.uri = some (lit "/stat?" ++ d) := by
    rw [huri, urlDecode_append (by decide) (by decide), hd, Option.map_some]
  have hfind : find (lit "..") (lit "/stat?" ++ d) = none := by
    rw [find_eq_none_iff (by decide)]
    simpa [lit, List.infix_cons_iff] using hdots
  have hhead : (lit "/stat?" ++ d).head? = some 47 := rfl
  have hstatic : (lit "/static/").isPrefixOf (lit "/stat?" ++ d) = false := rfl
  have hstat : (lit "/stat").isPrefixOf (lit "/stat?" ++ d) = true :=
    List.isPrefixOf_iff_prefix.2 ⟨63 :: d, rfl⟩
  rw [handleRequest, hpath]
  simp only [hhead, hfind, ne_eq, not_true_eq_false, Option.isSome_none, Bool.false_eq_true,
    or_self, if_false, route, hstatic, hstat, and_false, if_true, handleStat, hget,
    findUnsigned_ne_npos]

/-- A path that is routed as it stands, to none of the statistics and the static files. -/
structure IsOtherPath (path : Bytes) : Prop where
  head : path.head? = some 47
  pct : 37 ∉ path
  plus : 43 ∉ path
  dot : 46 ∉ path
  not_static : (lit "/static/").isPrefixOf path = false
  not_stat : (lit "/stat").isPrefixOf path = false

section OtherPath

variable {path : Bytes} (h : IsOtherPath path) (req : Http.Request) (huri : req.uri = path)

include h huri

/-- A `POST` there is an upload. -/
theorem handleRequest_post (hpost : req.method = lit "POST") :
    handleRequest D cfg env st req =
      (handlePut D cfg st req >>= fun r ↦ .ok ⟨r.1, r.2, []⟩) := by
  have hget : lit "POST" ≠ lit "GET" := by decide
  have hhead : lit "POST" ≠ lit "HEAD" := by decide
  subst huri
  rw [handleRequest_plain D cfg env st req h.head h.pct h.plus h.dot]
  simp only [route, h.not_static, h.not_stat, hpost, hget, hhead, Bool.false_eq_true, and_false,
    if_false, or_true, if_true]

/-- A `GET` there looks up a blob, unless it asks for the enumeration. -/
theorem handleRequest_lookup (hget : req.method = lit "GET")
    (henum : (lit "/enumerate-blobs").isPrefixOf path = false) :
    handleRequest D cfg env st req =
      .ok ⟨(handleGet env st path req).1, st, (handleGet env st path req).2⟩ := by
  have hne : lit "GET" ≠ lit "HEAD" := by decide
  subst huri
  rw [handleRequest_plain D cfg env st req h.head h.pct h.plus h.dot]
  simp only [route, h.not_static, h.not_stat, henum, hget, hne, Bool.false_eq_true, and_false,
    false_and, if_false, if_true]

/-- A `HEAD` there looks up a blob. -/
theorem handleRequest_check (hhead : req.method = lit "HEAD") :
    handleRequest D cfg env st req = .ok ⟨handleCheck st path, st, []⟩ := by
  have hne : lit "HEAD" ≠ lit "GET" := by decide
  subst huri
  rw [handleRequest_plain D cfg env st req h.head h.pct h.plus h.dot]
  simp only [route, h.not_static, h.not_stat, hhead, hne, Bool.false_eq_true, and_false, if_false,
    if_true]

end OtherPath

/-- A reference that no other handler takes for its own. -/
structure IsName (r : Bytes) : Prop where
  bytes : ∀ b ∈ r, isRefByte b = true
  not_stat : (lit "stat").isPrefixOf r = false
  not_enumerate : (lit "enumerate-blobs").isPrefixOf r = false

theorem BlobKey.Computed.isName {k : BlobKey} (hk : k.Computed) : IsName k.blobref := by
  refine ⟨hk.isRefByte, ?_, ?_⟩
  · rcases hk.hashType with h | h
    · rw [BlobKey.blobref, h]
      rfl
    · rw [BlobKey.blobref, h]
      rfl
  · rcases hk.hashType with h | h
    · rw [BlobKey.blobref, h]
      rfl
    · rw [BlobKey.blobref, h]
      rfl

theorem isPrefixOf_static {r : Bytes} (h : (lit "stat").isPrefixOf r = false) :
    (lit "/static/").isPrefixOf (47 :: r) = false := by
  rw [Bool.eq_false_iff, Ne, List.isPrefixOf_iff_prefix] at h ⊢
  refine fun hpre ↦ h (List.IsPrefix.trans ?_ (List.cons_prefix_cons.1 hpre).2)
  exact ⟨lit "ic/", rfl⟩

/-- A name made into a path. -/
theorem IsName.isOtherPath {r : Bytes} (hr : IsName r) : IsOtherPath (47 :: r) where
  head := rfl
  pct := notMem_refPath hr.bytes (by decide) (by decide)
  plus := notMem_refPath hr.bytes (by decide) (by decide)
  dot := notMem_refPath hr.bytes (by decide) (by decide)
  not_static := isPrefixOf_static hr.not_stat
  not_stat := hr.not_stat

variable {st} {req : Http.Request} {r : Bytes}

/-- `GET` on a name looks up the blob. -/
theorem handleRequest_get (huri : req.uri = 47 :: r) (hr : IsName r)
    (hget : req.method = lit "GET") :
    handleRequest D cfg env st req =
      .ok ⟨(handleGet env st (47 :: r) req).1, st, (handleGet env st (47 :: r) req).2⟩ :=
  handleRequest_lookup D cfg env st hr.isOtherPath req huri hget hr.not_enumerate

/-- `HEAD` on a name looks up the blob. -/
theorem handleRequest_head (huri : req.uri = 47 :: r) (hr : IsName r)
    (hhead : req.method = lit "HEAD") :
    handleRequest D cfg env st req = .ok ⟨handleCheck st (47 :: r), st, []⟩ :=
  handleRequest_check D cfg env st hr.isOtherPath req huri hhead

end Camlispp
