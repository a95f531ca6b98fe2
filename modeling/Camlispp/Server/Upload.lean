import Camlispp.Http.Message
import Camlispp.Multipart.ContentType
import Camlispp.Multipart.Disposition
import Camlispp.Store.ContentAddressing

/-!
# Uploads

`handle_put`: the boundary is taken from the Content-Type, the body is read as a form, and the
payload of every part that has one is added to the index. The answer is 200 on every path behind
the check for a Content-Type; nothing in it depends on what was stored.

## The two results, and what each rests on

* `kept_iff` says for which uploads every payload is in the index afterwards, for every Content-Type
  that ends in an unquoted boundary and every body in the encoding of RFC 2046. It rests on the two
  readings of the body: `uploadChunks_of_legible`, where everything is read, and
  `uploadParts_of_not_legible`, where nothing is. There is no third case, so an upload is not kept
  in part.
* `verified_iff` says for which uploads a part whose name is a reference to another content is
  turned away: only where storing it changes nothing anyway, because **the name is never given to
  `add_blob`**. It rests on `sameContents_stored_iff`, when an addition changes nothing, and on
  where the keys and the files of a loop come from (`mem_keys_foldl_afterPart`,
  `isSome_files_foldl_afterPart`).

The name in `verified_iff` is what the header line says (`namesOf`), not what the reader makes of
the line. A name that is lost to the reader is a name all the same, and the part is stored all the
same (`bareLine`).

Both are about any index and any digests. Neither needs the store to have been made by additions.
-/

open Bytes

namespace Camlispp

variable (D : Digests) (cfg : Config)

/-! ### The handler -/

/-- The loop of `handle_put` over the parts. -/
def storeParts (st : Store) : List Part → Except Fault Store
  | [] => .ok st
  | part :: parts =>
    if 0 < part.payload.length then do
      let (_, st) ← addBlob D cfg st none part.payload
      storeParts st parts
    else storeParts st parts

/-- `handle_put`. -/
def handlePut (st : Store) (req : Http.Request) : Except Fault (Http.Reply × Store) :=
  let body := req.content
  let contentType := Http.getHeader req.headers (lit "Content-Type")
  if contentType = [] then .ok (Http.stockReply .badRequest, st)
  else
    match (parseBoundryHeader contentType).attributeValue (lit "boundary") with
    | some boundary => do
      let st ← storeParts D cfg st (multiPartFormData boundary body)
      .ok (⟨.ok, [], []⟩, st)
    | none => .ok (⟨.ok, [], []⟩, st)

/-! ### What the loop stores -/

/-- The store after a part: a non-empty payload is stored, an empty one is passed over. -/
def Store.afterPart (st : Store) (part : Part) : Store :=
  if part.payload = [] then st else st.stored D cfg part.payload

variable {D cfg}

theorem storeParts_eq (st : Store) (parts : List Part) :
    storeParts D cfg st parts = .ok (parts.foldl (Store.afterPart D cfg) st) := by
  induction parts generalizing st with
  | nil => rfl
  | cons p ps ih =>
    rw [storeParts, List.foldl_cons, Store.afterPart]
    by_cases hp : p.payload = []
    · rw [if_neg (by simp [hp]), if_pos hp, ih]
    · rw [if_pos (List.length_pos_of_ne_nil hp), if_neg hp, addBlob_none hp, ← ih]
      rfl

/-- The parts of an upload, as `handle_put` gets to see them. -/
def uploadParts (req : Http.Request) : List Part :=
  match (parseBoundryHeader (Http.getHeader req.headers (lit "Content-Type"))).attributeValue
    (lit "boundary") with
  | some boundary => multiPartFormData boundary req.content
  | none => []

/-- The same parts, each with the chunk of the body it is made of. -/
def uploadChunks (req : Http.Request) : List (Bytes × Part) :=
  match (parseBoundryHeader (Http.getHeader req.headers (lit "Content-Type"))).attributeValue
    (lit "boundary") with
  | some boundary => chunkParts boundary req.content
  | none => []

theorem map_snd_uploadChunks (req : Http.Request) :
    (uploadChunks req).map Prod.snd = uploadParts req := by
  rw [uploadChunks, uploadParts]
  split
  · exact map_snd_chunkParts _ _
  · rfl

/-- **Everything `handle_put` can do**: refuse a request without a Content-Type, or answer 200 and
store the parts it sees. -/
theorem handlePut_eq (D : Digests) (cfg : Config) (st : Store) (req : Http.Request) :
    handlePut D cfg st req =
      if Http.getHeader req.headers (lit "Content-Type") = [] then
        .ok (Http.stockReply .badRequest, st)
      else .ok (⟨.ok, [], []⟩, (uploadParts req).foldl (Store.afterPart D cfg) st) := by
  rw [handlePut, uploadParts]
  split_ifs
  · rfl
  · split
    · rw [storeParts_eq]
      rfl
    · rfl

theorem mem_keys_afterPart {st : Store} {part : Part} {k : BlobKey} :
    k ∈ (st.afterPart D cfg part).blobs.keys ↔
      k ∈ st.blobs.keys ∨ part.payload ≠ [] ∧ k ∈ blobKeys D part.payload := by
  rw [Store.afterPart]
  split_ifs with hp
  · simp [hp]
  · rw [mem_keys_stored]
    tauto

/-- **The keys after an upload** are the previous ones and those of the payloads. -/
theorem mem_keys_foldl_afterPart {st : Store} {parts : List Part} {k : BlobKey} :
    k ∈ (parts.foldl (Store.afterPart D cfg) st).blobs.keys ↔
      k ∈ st.blobs.keys ∨ ∃ p ∈ parts, p.payload ≠ [] ∧ k ∈ blobKeys D p.payload := by
  induction parts generalizing st with
  | nil => simp
  | cons p ps ih =>
    rw [List.foldl_cons, ih, mem_keys_afterPart]
    simp only [List.mem_cons, exists_eq_or_imp]
    tauto

/-! ### Nothing is lost -/

section Kept

/-- The references of a payload are found. -/
def Store.Holds (D : Digests) (st : Store) (payload : Bytes) : Prop :=
  ∀ k ∈ blobKeys D payload, (st.get k.blobref).isSome

theorem Store.holds_iff {st : Store} {payload : Bytes} :
    st.Holds D payload ↔ ∀ k ∈ blobKeys D payload, k ∈ st.blobs.keys := by
  refine forall₂_congr fun k hk ↦ ?_
  rw [(computed_of_mem_blobKeys hk).get_blobref, OrdMap.isSome_find_iff]

/-- The request is answered with 200, and every non-empty payload is found afterwards. -/
def Kept (D : Digests) (cfg : Config) (st : Store) (req : Http.Request) (ds : List Draft) : Prop :=
  ∃ rep st', handlePut D cfg st req = .ok (rep, st') ∧ rep.status = .ok ∧
    ∀ d ∈ ds, d.payload ≠ [] → st'.Holds D d.payload

variable {req : Http.Request} {c : ContentType} {ds : List Draft} {finalEol : Bool}

/-- An upload with a Content-Type is answered with 200, and what is read of it is stored. -/
theorem handlePut_of_wellFormed (D : Digests) (cfg : Config) (st : Store) (hc : c.WellFormed)
    (hct : Http.getHeader req.headers (lit "Content-Type") = c.text) :
    handlePut D cfg st req =
      .ok (⟨.ok, [], []⟩, (uploadParts req).foldl (Store.afterPart D cfg) st) := by
  have hne : c.text ≠ [] := by
    intro h
    have hpair := hc.headerPair_text
    rw [h] at hpair
    cases hpair
  rw [handlePut_eq, hct, if_neg hne]

/-- A readable upload is read part by part. -/
theorem uploadChunks_of_legible (hc : c.WellFormed) (hd : ∀ d ∈ ds, d.Fits c.boundary)
    (hct : Http.getHeader req.headers (lit "Content-Type") = c.text)
    (hbody : req.content = encode c.boundary ds finalEol) (hleg : c.Legible)
    (h7 : ∀ d ∈ ds, d.SevenBit) : uploadChunks req = ds.map fun d ↦ (d.text, d.part) := by
  rw [uploadChunks, hct, hc.attributeValue_iff.2 hleg, hbody]
  exact chunkParts_encode hc.boundary.2 hd h7 finalEol

theorem uploadParts_of_legible (hc : c.WellFormed) (hd : ∀ d ∈ ds, d.Fits c.boundary)
    (hct : Http.getHeader req.headers (lit "Content-Type") = c.text)
    (hbody : req.content = encode c.boundary ds finalEol) (hleg : c.Legible)
    (h7 : ∀ d ∈ ds, d.SevenBit) : uploadParts req = ds.map Draft.part := by
  rw [← map_snd_uploadChunks, uploadChunks_of_legible hc hd hct hbody hleg h7, List.map_map]
  rfl

/-- Of any other upload with a part, **nothing at all** is read. -/
theorem uploadParts_of_not_legible (hc : c.WellFormed) (hd : ∀ d ∈ ds, d.Fits c.boundary)
    (hct : Http.getHeader req.headers (lit "Content-Type") = c.text)
    (hbody : req.content = encode c.boundary ds finalEol) (hne : ds ≠ [])
    (hnot : ¬(c.Legible ∧ ∀ d ∈ ds, d.SevenBit)) : uploadParts req = [] := by
  rw [uploadParts, hct, hbody]
  rcases hb : (parseBoundryHeader c.text).attributeValue (lit "boundary") with - | b
  · rfl
  have hchunks : chunks b (encode c.boundary ds finalEol) = none := by
    by_cases hbc : b = c.boundary
    · subst hbc
      have hleg := hc.attributeValue_iff.1 hb
      exact chunks_encode_of_eight hc.boundary.2 hd (fun h7 ↦ hnot ⟨hleg, h7⟩) finalEol
    · exact chunks_encode_of_ne hc.boundary.2 hbc (oneLine_of_attributeValue hc.oneLine_text hb)
        hne finalEol
  simp [multiPartFormData, hchunks]

/-- **Which uploads are kept.** A multipart upload with an unquoted boundary as its last parameter
is stored completely exactly when its Content-Type is legible and all its lines and payloads are
7-bit, or there was nothing left to store. -/
theorem kept_iff (D : Digests) (cfg : Config) (st : Store) (req : Http.Request) (c : ContentType)
    (ds : List Draft) (finalEol : Bool) (hc : c.WellFormed) (hd : ∀ d ∈ ds, d.Fits c.boundary)
    (hct : Http.getHeader req.headers (lit "Content-Type") = c.text)
    (hbody : req.content = encode c.boundary ds finalEol) :
    Kept D cfg st req ds ↔
      (c.Legible ∧ ∀ d ∈ ds, d.SevenBit) ∨ ∀ d ∈ ds, d.payload ≠ [] → st.Holds D d.payload := by
  have hput := handlePut_of_wellFormed D cfg st hc hct
  constructor
  · rintro ⟨rep, st', hrun, -, hheld⟩
    rw [hput] at hrun
    obtain ⟨-, rfl⟩ := Prod.mk.inj (Except.ok.inj hrun)
    -- nothing of an upload that is not legible is read, so what is held was there before
    by_cases hds : ds = []
    · exact Or.inr (by simp [hds])
    refine or_iff_not_imp_left.2 fun hnot ↦ ?_
    rwa [uploadParts_of_not_legible hc hd hct hbody hds hnot] at hheld
  · intro h
    refine ⟨_, _, hput, rfl, fun d hdmem hpay ↦ Store.holds_iff.2 fun k hk ↦ ?_⟩
    rw [mem_keys_foldl_afterPart]
    rcases h with ⟨hleg, h7⟩ | hold
    · refine Or.inr ⟨d.part, ?_, by simpa using hpay, by simpa using hk⟩
      rw [uploadParts_of_legible hc hd hct hbody hleg h7]
      exact List.mem_map_of_mem hdmem
    · exact Or.inl (Store.holds_iff.1 (hold d hdmem hpay) k hk)

/-- A form field with a payload. -/
def field (payload : Bytes) : Draft := ⟨[lit "Content-Disposition: form-data; name=\"f\""], payload⟩

/-- The Content-Type `multipart/form-data; boundary=x`. -/
def fieldContentType : ContentType :=
  ⟨lit "multipart/form-data", 0, [], 1, lit "boundary", lit "x"⟩

/-- A POST of one form field. -/
def fieldUpload (payload : Bytes) : Http.Request where
  method := lit "POST"
  uri := lit "/upload"
  httpVersionMajor := 1
  httpVersionMinor := 1
  headers := [⟨lit "content-type", fieldContentType.text⟩]
  content := encode fieldContentType.boundary [field payload] true

theorem wellFormed_fieldContentType : fieldContentType.WellFormed where
  type := by decide
  params := fun p hp ↦ absurd hp List.not_mem_nil
  name := by decide
  boundary := by decide

theorem legible_fieldContentType : fieldContentType.Legible :=
  ⟨fun p hp ↦ absurd hp List.not_mem_nil, rfl, by decide +kernel, by decide⟩

theorem getHeader_fieldUpload (payload : Bytes) :
    Http.getHeader (fieldUpload payload).headers (lit "Content-Type") = fieldContentType.text := by
  have hname : lower (lit "content-type") = lower (lit "Content-Type") := by decide
  simp [Http.getHeader, fieldUpload, hname]

theorem not_delimiter_infix {s : Bytes} (h : 120 ∉ s) :
    ¬delimiter fieldContentType.boundary <:+: s := fun hinf ↦
  h (hinf.subset (show 120 ∈ delimiter fieldContentType.boundary by decide))

theorem fits_field {payload : Bytes} (h : 120 ∉ payload) :
    ∀ d ∈ [field payload], d.Fits fieldContentType.boundary := by
  refine List.forall_mem_singleton.2 ⟨List.forall_mem_singleton.2 ⟨by decide, by decide, ?_⟩, ?_⟩
  · exact not_delimiter_infix (by decide)
  · exact not_delimiter_infix h

/-- An upload of the text `a` is kept. -/
theorem kept_fieldUpload_a :
    Kept Digests.sample {} .empty (fieldUpload [97]) [field [97]] := by
  refine (kept_iff Digests.sample {} .empty (fieldUpload [97]) fieldContentType [field [97]] true
    wellFormed_fieldContentType (fits_field (by decide)) (getHeader_fieldUpload _) rfl).2
    (Or.inl ⟨legible_fieldContentType, ?_⟩)
  exact List.forall_mem_singleton.2 ⟨by decide +kernel, by decide +kernel⟩

/-- An upload of the two bytes `C3 A9` is answered with 200 and lost. -/
theorem not_kept_fieldUpload_eight :
    fieldContentType.WellFormed ∧
      (∀ d ∈ [field [195, 169]], d.Fits fieldContentType.boundary) ∧
      Http.getHeader (fieldUpload [195, 169]).headers (lit "Content-Type") = fieldContentType.text ∧
      (fieldUpload [195, 169]).content =
        encode fieldContentType.boundary [field [195, 169]] true ∧
      (∃ rep st', handlePut Digests.sample {} .empty (fieldUpload [195, 169]) = .ok (rep, st') ∧
        rep.status = .ok) ∧
      ¬Kept Digests.sample {} .empty (fieldUpload [195, 169]) [field [195, 169]] := by
  have hfits := fits_field (show 120 ∉ [195, 169] by decide)
  have hct := getHeader_fieldUpload [195, 169]
  have hnone : uploadParts (fieldUpload [195, 169]) = [] :=
    uploadParts_of_not_legible wellFormed_fieldContentType hfits hct rfl (by simp)
      fun h ↦ absurd ((h.2 _ List.mem_cons_self).2 195 List.mem_cons_self) (by decide)
  have hput := handlePut_of_wellFormed Digests.sample {} .empty wellFormed_fieldContentType hct
  rw [hnone] at hput
  refine ⟨wellFormed_fieldContentType, hfits, hct, rfl, ⟨_, _, hput, rfl⟩, ?_⟩
  rintro ⟨rep, st', hrun, -, hheld⟩
  rw [hput] at hrun
  obtain ⟨-, rfl⟩ := Prod.mk.inj (Except.ok.inj hrun)
  have hkey := Store.holds_iff.1 (hheld _ List.mem_cons_self (by simp [field])) _
    (mem_blobKeys_digest .sha1 _)
  exact absurd hkey List.not_mem_nil

end Kept

/-! ### The name of a part -/

section Verified

/-- A text of the form digest-hex. -/
def isRef (s : Bytes) : Bool :=
  let digest := s.takeWhile (· ≠ 45)
  let hex := (s.dropWhile (· ≠ 45)).tail
  digest ≠ [] && digest.all isAlnum && hex ≠ [] && hex.all isHexDigit

/-- A chunk and the part made of it: a Content-Disposition among the lines of the chunk gives a name
that is a reference, and none of the payload's own. -/
def mismatched (D : Digests) (e : Bytes × Part) : Bool :=
  (namesOf e.1).any fun n ↦ isRef n && (blobKeys D e.2.payload).all fun k ↦ k.blobref ≠ n

/-- Between two states of the loop no key was added and no file was written. -/
def Store.SameContents (st st' : Store) : Prop :=
  (∀ k, k ∈ st'.blobs.keys ↔ k ∈ st.blobs.keys) ∧ ∀ f, st'.files.find f = st.files.find f

/-- Every part that is mismatched leaves the index and the files alone, and every other one is
stored, if it has a payload. -/
def Verified (D : Digests) (cfg : Config) (st : Store) (req : Http.Request) : Prop :=
  ∀ before chunk p after st₁ st₂, uploadChunks req = before ++ (chunk, p) :: after →
    storeParts D cfg st (before.map Prod.snd) = .ok st₁ →
    storeParts D cfg st (before.map Prod.snd ++ [p]) = .ok st₂ →
    if mismatched D (chunk, p) then st₁.SameContents st₂
    else p.payload ≠ [] → (∀ k ∈ blobKeys D p.payload, k ∈ st₂.blobs.keys) ∧
      (st₂.files.find (pathOf D cfg p.payload)).isSome

/-- A content whose keys and whose file the index had before the upload, or got from an earlier
part of it. -/
structure Known (D : Digests) (cfg : Config) (st : Store) (before : List Part) (x : Bytes) :
    Prop where
  keys : ∀ k ∈ blobKeys D x,
    k ∈ st.blobs.keys ∨ ∃ q ∈ before, q.payload ≠ [] ∧ k ∈ blobKeys D q.payload
  file : (st.files.find (pathOf D cfg x)).isSome ∨
    ∃ q ∈ before, q.payload ≠ [] ∧ pathOf D cfg x = pathOf D cfg q.payload

theorem isSome_files_afterPart {st : Store} {part : Part} {f : Bytes} :
    ((st.afterPart D cfg part).files.find f).isSome ↔
      (st.files.find f).isSome ∨ part.payload ≠ [] ∧ f = pathOf D cfg part.payload := by
  rw [Store.afterPart]
  by_cases hp : part.payload = []
  · simp [hp]
  · rw [if_neg hp, find_files_stored]
    by_cases hf : f = pathOf D cfg part.payload <;> simp [hf, hp]

theorem isSome_files_foldl_afterPart {st : Store} {parts : List Part} {f : Bytes} :
    ((parts.foldl (Store.afterPart D cfg) st).files.find f).isSome ↔
      (st.files.find f).isSome ∨
        ∃ p ∈ parts, p.payload ≠ [] ∧ f = pathOf D cfg p.payload := by
  induction parts generalizing st with
  | nil => simp
  | cons p ps ih =>
    rw [List.foldl_cons, ih, isSome_files_afterPart]
    simp only [List.mem_cons, exists_eq_or_imp]
    tauto

/-- Storing a content changes nothing exactly if its keys and its file are there. -/
theorem sameContents_stored_iff {st : Store} {x : Bytes} :
    st.SameContents (st.stored D cfg x) ↔
      (∀ k ∈ blobKeys D x, k ∈ st.blobs.keys) ∧ (st.files.find (pathOf D cfg x)).isSome := by
  constructor
  · rintro ⟨hkeys, hfiles⟩
    refine ⟨fun k hk ↦ (hkeys k).1 (mem_keys_stored.2 (Or.inl hk)), ?_⟩
    rw [← hfiles, find_files_stored, if_pos rfl]
    rfl
  · rintro ⟨hkeys, hfile⟩
    refine ⟨fun k ↦ mem_keys_stored.trans ⟨fun h ↦ h.elim (hkeys k) id, Or.inr⟩, fun f ↦ ?_⟩
    rw [find_files_stored]
    split_ifs with hf
    · obtain ⟨y, hy⟩ := Option.isSome_iff_exists.1 hfile
      rw [hf, hy]
      rfl
    · rfl

/-- The loop up to a part, and the part. -/
theorem foldl_afterPart_append (st : Store) (before : List Part) (p : Part) :
    (before ++ [p]).foldl (Store.afterPart D cfg) st =
      (before.foldl (Store.afterPart D cfg) st).afterPart D cfg p := by
  rw [List.foldl_append, List.foldl_cons, List.foldl_nil]

theorem Verified.sameContents {st : Store} {req : Http.Request}
    {before after : List (Bytes × Part)} {chunk : Bytes} {p : Part} (h : Verified D cfg st req)
    (hparts : uploadChunks req = before ++ (chunk, p) :: after)
    (hmis : mismatched D (chunk, p) = true) :
    ((before.map Prod.snd).foldl (Store.afterPart D cfg) st).SameContents
      (((before.map Prod.snd).foldl (Store.afterPart D cfg) st).afterPart D cfg p) := by
  have hsame := h before chunk p after _ _ hparts (storeParts_eq st _) (storeParts_eq st _)
  rwa [if_pos hmis, foldl_afterPart_append] at hsame

/-- **Which uploads are verified.** A mismatched part is kept out exactly where storing it changes
nothing: it has no payload, or its keys and its file are there when it is reached. -/
theorem verified_iff (D : Digests) (cfg : Config) (st : Store) (req : Http.Request) :
    Verified D cfg st req ↔ ∀ before chunk p after,
      uploadChunks req = before ++ (chunk, p) :: after → mismatched D (chunk, p) = true →
        p.payload = [] ∨ Known D cfg st (before.map Prod.snd) p.payload := by
  constructor
  · intro h before chunk p after hparts hmis
    have hsame := h.sameContents hparts hmis
    refine or_iff_not_imp_left.2 fun hpay ↦ ?_
    rw [Store.afterPart, if_neg hpay, sameContents_stored_iff] at hsame
    exact ⟨fun k hk ↦ mem_keys_foldl_afterPart.1 (hsame.1 k hk),
      isSome_files_foldl_afterPart.1 hsame.2⟩
  · intro h before chunk p after st₁ st₂ hparts h₁ h₂
    obtain rfl := Except.ok.inj ((storeParts_eq st _).symm.trans h₁)
    obtain rfl := Except.ok.inj ((storeParts_eq st _).symm.trans h₂)
    rw [foldl_afterPart_append]
    split_ifs with hmis
    · rw [Store.afterPart]
      split_ifs with hpay
      · exact ⟨fun _ ↦ Iff.rfl, fun _ ↦ rfl⟩
      · obtain hknown := (h before chunk p after hparts hmis).resolve_left hpay
        exact sameContents_stored_iff.2 ⟨fun k hk ↦ mem_keys_foldl_afterPart.2 (hknown.keys k hk),
          isSome_files_foldl_afterPart.2 hknown.file⟩
    · exact fun hpay ↦ ⟨fun k hk ↦ mem_keys_afterPart.2 (Or.inr ⟨hpay, hk⟩),
        isSome_files_afterPart.2 (Or.inr ⟨hpay, rfl⟩)⟩

/-- The content `a` under a line. -/
def underLine (line : Bytes) : Draft := ⟨[line], [97]⟩

/-- A line with the SHA-1 reference of `b`. -/
def wrongLine : Bytes :=
  lit "Content-Disposition: form-data; name=\"sha1-E9D71F5EE7C92D6DC9E92FFDAD17B8BD49418F98\""

/-- The same name without quotes and without a space behind the semicolon; it is lost to the
reader. -/
def bareLine : Bytes :=
  lit "Content-Disposition: form-data;name=sha1-E9D71F5EE7C92D6DC9E92FFDAD17B8BD49418F98;" ++
    lit " filename=blob1"

/-- A POST of `a` under a line. -/
def uploadUnder (line : Bytes) : Http.Request :=
  { fieldUpload [97] with content := encode fieldContentType.boundary [underLine line] true }

theorem uploadChunks_uploadUnder (line : Bytes) (hne : line ≠ []) (hl : OneLine line)
    (hx : 120 ∉ line) (h7 : SevenBit line) :
    uploadChunks (uploadUnder line) = [((underLine line).text, (underLine line).part)] := by
  have hfits : ∀ d ∈ [underLine line], d.Fits fieldContentType.boundary := by
    refine List.forall_mem_singleton.2 ⟨List.forall_mem_singleton.2 ⟨hne, hl, ?_⟩, ?_⟩
    · exact not_delimiter_infix hx
    · exact not_delimiter_infix (show 120 ∉ [97] by decide)
  refine uploadChunks_of_legible wellFormed_fieldContentType hfits (getHeader_fieldUpload [97])
    rfl legible_fieldContentType ?_
  exact List.forall_mem_singleton.2
    ⟨List.forall_mem_singleton.2 h7, List.forall_mem_singleton.2 (by decide)⟩

/-- An upload of one mismatched part into an empty index. -/
theorem not_verified_of_one {req : Http.Request} {chunk : Bytes} {p : Part}
    (hparts : uploadChunks req = [(chunk, p)]) (hmis : mismatched D (chunk, p) = true)
    (hpay : p.payload ≠ []) : ¬Verified D cfg .empty req := by
  intro h
  have hfirst : uploadChunks req = [] ++ (chunk, p) :: [] := hparts
  have hsame := h.sameContents hfirst hmis
  have hkey := (hsame.1 _).1 (mem_keys_afterPart.2 (Or.inr ⟨hpay, mem_blobKeys_digest .sha1 _⟩))
  exact absurd hkey List.not_mem_nil

/-- Into an empty index `a` is stored under its own references, whatever its name said, and however
the name was written. -/
theorem not_verified_wrongUpload :
    uploadChunks (uploadUnder wrongLine) =
      [((underLine wrongLine).text, (underLine wrongLine).part)] ∧
    mismatched Digests.sample ((underLine wrongLine).text, (underLine wrongLine).part) = true ∧
    ¬Verified Digests.sample {} .empty (uploadUnder wrongLine) ∧
    mismatched Digests.sample ((underLine bareLine).text, (underLine bareLine).part) = true ∧
    ¬Verified Digests.sample {} .empty (uploadUnder bareLine) := by
  have hwrong := uploadChunks_uploadUnder wrongLine (by decide) (by decide +kernel)
    (by decide +kernel) (by decide +kernel)
  have hbare := uploadChunks_uploadUnder bareLine (by decide) (by decide +kernel)
    (by decide +kernel) (by decide +kernel)
  have hmis : mismatched Digests.sample ((underLine wrongLine).text, (underLine wrongLine).part) =
      true := by decide +kernel
  have hmis' : mismatched Digests.sample ((underLine bareLine).text, (underLine bareLine).part) =
      true := by decide +kernel
  exact ⟨hwrong, hmis, not_verified_of_one hwrong hmis (by simp [underLine]), hmis',
    not_verified_of_one hbare hmis' (by simp [underLine])⟩

end Verified

end Camlispp
