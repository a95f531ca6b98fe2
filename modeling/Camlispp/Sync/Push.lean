import Camlispp.Server.Routing
import Camlispp.Sync.Host

/-!
# Push replication

The send phase against a peer that answers stat requests. A stat request is written by one side,
read by the other with the grammar of query strings into a map ordered by parameter names (`blob10`
before `blob2`), answered in that order and read back. `perm_decodeQueryStringBlobs` says that the
peer is asked about exactly the references of the page, `parseSyncEnumeration_statistics` that the
references it reports are those it has, and `sendPhase_offers` follows both through all pages.

## What the result rests on

* `perm_decodeQueryStringBlobs` holds for every text behind the question mark, so it can be used for
  the two ways to ask, and for `Numbering`.
* `sendPhase_round`: one page, from the stat request to the last upload. A page of 501 ends with the
  first key of the next, which is offered with both.
* `sendPhase_from` is by induction on the number of keys that are left, which every full page
  lowers.

**The peer may change at any time**, and what becomes of an upload is left open: the phase looks at
neither. So the result is about what is offered and sent, and `Exchange` says what arrives.
-/

open Bytes Paging

namespace Camlispp

/-! ### The stat request -/

theorem map_snd_blobParameters (n : ℕ) (refs : List Bytes) :
    (blobParameters n refs).map Prod.snd = refs := by
  induction refs generalizing n with
  | nil => rfl
  | cons ref refs ih => rw [blobParameters, List.map_cons, ih]

theorem mem_blobParameters {n : ℕ} {refs : List Bytes} {p : Bytes × Bytes}
    (h : p ∈ blobParameters n refs) : ∃ m, n ≤ m ∧ p.1 = lit "blob" ++ decimal m ∧ p.2 ∈ refs := by
  induction refs generalizing n with
  | nil => cases h
  | cons ref refs ih =>
    rcases List.mem_cons.1 h with rfl | h
    · exact ⟨n, le_rfl, rfl, List.mem_cons_self⟩
    · obtain ⟨m, hm, hkey, hmem⟩ := ih h
      exact ⟨m, by omega, hkey, List.mem_cons_of_mem _ hmem⟩

/-- The parameters have different names. -/
theorem nodup_blobParameters (n : ℕ) (refs : List Bytes) :
    ((blobParameters n refs).map Prod.fst).Nodup := by
  induction refs generalizing n with
  | nil => exact List.nodup_nil
  | cons ref refs ih =>
    refine List.nodup_cons.2 ⟨fun hmem ↦ ?_, ih (n + 1)⟩
    obtain ⟨p, hp, hname⟩ := List.mem_map.1 hmem
    obtain ⟨m, hm, hkey, -⟩ := mem_blobParameters hp
    have hnm : m = n := decimal_injective (List.append_cancel_left (hkey.symm.trans hname))
    omega

/-- A reference as the value of a parameter. -/
structure IsRefText (r : Bytes) : Prop where
  ne_nil : r ≠ []
  bytes : ∀ b ∈ r, isRefByte b = true

theorem BlobKey.Computed.isRefText {k : BlobKey} (hk : k.Computed) : IsRefText k.blobref :=
  ⟨blobref_ne_nil k, hk.isRefByte⟩

theorem isPair_blob {r : Bytes} (hr : IsRefText r) (m : ℕ) :
    IsPair (lit "blob" ++ decimal m, r) where
  key := by
    refine ⟨98, lit "lob" ++ decimal m, rfl, by decide, fun b hb ↦ ?_⟩
    rcases List.mem_append.1 hb with hb | hb
    · have hlob : ∀ b ∈ lit "lob", isKeyRest b = true := by decide +kernel
      exact hlob b hb
    · simp [isKeyRest, isDigit_of_mem_decimal hb]
  value_ne := hr.ne_nil
  value b hb := isValueByte_of_isRefByte (hr.bytes b hb)

theorem isPrefixOf_of_mem_blobParameters {n : ℕ} {refs : List Bytes} {p : Bytes × Bytes}
    (hp : p ∈ blobParameters n refs) : (lit "blob").isPrefixOf p.1 = true := by
  obtain ⟨m, -, hkey, -⟩ := mem_blobParameters hp
  rw [hkey, List.isPrefixOf_iff_prefix]
  exact List.prefix_append _ _

/-- The version is none of the blobs. -/
theorem nodup_statParameters (refs : List Bytes) :
    (((lit "camliversion", lit "1") :: blobParameters 1 refs).map Prod.fst).Nodup := by
  refine List.nodup_cons.2 ⟨fun hmem ↦ ?_, nodup_blobParameters 1 _⟩
  obtain ⟨p, hp, hname⟩ := List.mem_map.1 hmem
  have hblob := isPrefixOf_of_mem_blobParameters hp
  rw [hname] at hblob
  exact absurd hblob (by decide)

theorem isPair_version : IsPair (lit "camliversion", lit "1") :=
  ⟨⟨99, lit "amliversion", rfl, by decide, by decide +kernel⟩, by decide, by decide +kernel⟩

/-- The bytes of a version and further parameters. -/
theorem mem_parameters {ps : List (Bytes × Bytes)}
    (hps : ∀ p ∈ ps, ∀ b ∈ p.1 ++ p.2, isRefByte b = true) {b : UInt8}
    (hb : b ∈ pairText (lit "camliversion", lit "1") ++
      (ps.map fun p ↦ 38 :: pairText p).flatten) : isRefByte b = true ∨ b = 38 ∨ b = 61 := by
  rcases List.mem_append.1 hb with hb | hb
  · have hversion : ∀ b ∈ pairText (lit "camliversion", lit "1"),
        isRefByte b = true ∨ b = 38 ∨ b = 61 := by decide +kernel
    exact hversion b hb
  · obtain ⟨l, hl, hb⟩ := List.mem_flatten.1 hb
    obtain ⟨p, hp, rfl⟩ := List.mem_map.1 hl
    rw [List.mem_cons, pairText, List.mem_append, List.mem_cons] at hb
    rcases hb with hb | hb | hb | hb
    · exact Or.inr (Or.inl hb)
    · exact Or.inl (hps p hp b (List.mem_append_left _ hb))
    · exact Or.inr (Or.inr hb)
    · exact Or.inl (hps p hp b (List.mem_append_right _ hb))

section StatText

variable {refs : List Bytes} (h : ∀ r ∈ refs, IsRefText r)

theorem statText_eq (refs : List Bytes) :
    statText refs = pairText (lit "camliversion", lit "1") ++
      ((blobParameters 1 refs).map fun p ↦ 38 :: pairText p).flatten := rfl

include h

theorem isPair_of_mem_blobParameters {p : Bytes × Bytes} (hp : p ∈ blobParameters 1 refs) :
    IsPair p := by
  obtain ⟨m, -, hkey, hmem⟩ := mem_blobParameters hp
  rw [show p = (lit "blob" ++ decimal m, p.2) from Prod.ext hkey rfl]
  exact isPair_blob (h p.2 hmem) m

/-- The bytes of a stat request. -/
theorem mem_statText {b : UInt8} (hb : b ∈ statText refs) :
    isRefByte b = true ∨ b = 38 ∨ b = 61 := by
  refine mem_parameters (fun p hp b hb ↦ ?_) (statText_eq refs ▸ hb)
  obtain ⟨m, -, hkey, hmem⟩ := mem_blobParameters hp
  rw [hkey, List.mem_append, List.mem_append] at hb
  rcases hb with (hb | hb) | hb
  · have hname : ∀ b ∈ lit "blob", isRefByte b = true := by decide +kernel
    exact hname b hb
  · simp [isRefByte, isAlnum, isDigit_of_mem_decimal hb]
  · exact (h p.2 hmem).bytes b hb

theorem notMem_statText {c : UInt8} (hc : isRefByte c = false) (hamp : c ≠ 38) (heq : c ≠ 61) :
    c ∉ statText refs := fun hmem ↦ by
  rcases mem_statText h hmem with hbyte | hbyte | hbyte
  · rw [hc] at hbyte
    cases hbyte
  · exact hamp hbyte
  · exact heq hbyte

/-- **The server is asked about the references**: whatever text leaves a stat request behind its
question mark, what is decoded from it are the references, in some order. -/
theorem perm_decodeQueryStringBlobs {input : Bytes} (hinput : dropQuestion input = statText refs) :
    (decodeQueryStringBlobs input).Perm refs := by
  rw [decodeQueryStringBlobs, hinput, statText_eq,
    keysAndValues_text isPair_version _ fun p hp ↦ isPair_of_mem_blobParameters h hp]
  have hperm := ((OrdMap.perm_entries_collect (nodup_statParameters refs)).filter
    fun e ↦ (lit "blob").isPrefixOf e.1).map Prod.snd
  rw [List.filter_cons_of_neg (by decide),
    List.filter_eq_self.2 fun p hp ↦ isPrefixOf_of_mem_blobParameters hp,
    map_snd_blobParameters] at hperm
  exact hperm

end StatText

/-! ### The peer's answer -/

section Answer

variable {σ : Type} {D : Digests} (peer : Peer σ) {s : σ}

theorem Peer.answer_stat (postbody : Bytes) :
    peer.answer D s (peer.request (lit "/stat") (some postbody)) =
      some ((statistics (peer.store s) (decodeQueryStringBlobs postbody)).write ++ crlf) := by
  exact peer.answer_eq D (handleRequest_statPost D peer.cfg peer.env (peer.store s) _ rfl rfl)

/-- The entries of a stat reply. -/
theorem statistics_eq (st : Store) (refs : List Bytes) :
    statistics st refs = .obj [(lit "stat", .arr ((refs.filterMap fun r ↦
        (st.get r).map (Prod.mk r)).map fun e ↦ blobValue e.1 e.2)),
      (lit "maxUploadSize", .int 1048576), (lit "uploadUrl", .str (lit "/upload")),
      (lit "uploadUrlExpirationSeconds", .int 7200), (lit "canLongPoll", .bool false)] := by
  have hstat : refs.filterMap (fun r ↦ (st.get r).map (blobValue r)) =
      (refs.filterMap fun r ↦ (st.get r).map (Prod.mk r)).map fun e ↦ blobValue e.1 e.2 := by
    rw [List.map_filterMap]
    refine List.filterMap_congr fun r _ ↦ ?_
    rw [Option.map_map]
    rfl
  rw [statistics, hstat]

theorem mem_of_mem_statEntries {st : Store} {refs : List Bytes} {e : Bytes × Blob}
    (he : e ∈ refs.filterMap fun r ↦ (st.get r).map (Prod.mk r)) :
    e.1 ∈ refs ∧ st.get e.1 = some e.2 := by
  obtain ⟨r, hr, hre⟩ := List.mem_filterMap.1 he
  obtain ⟨b, hb, rfl⟩ := Option.map_eq_some_iff.1 hre
  exact ⟨hr, hb⟩

theorem map_fst_statEntries (st : Store) (refs : List Bytes) :
    (refs.filterMap fun r ↦ (st.get r).map (Prod.mk r)).map Prod.fst =
      refs.filter fun r ↦ (st.get r).isSome := by
  rw [List.map_filterMap, ← List.filterMap_eq_filter]
  refine List.filterMap_congr fun r _ ↦ ?_
  rcases hr : st.get r with - | b
  · simp [Option.guard, hr]
  · simp [Option.guard, hr]

theorem plain_statistics (st : Store) {refs : List Bytes} (h : ∀ r ∈ refs, Json.PlainStr r) :
    Json.Plain (statistics st refs) := by
  rw [statistics_eq]
  refine .obj ?_ ?_
  · simp only [List.mem_cons, List.not_mem_nil, or_false, forall_eq_or_imp, forall_eq]
    refine ⟨?_, ?_, ?_, ?_, ?_⟩ <;> exact plainStr_of_all (by decide)
  · simp only [List.mem_cons, List.not_mem_nil, or_false, forall_eq_or_imp, forall_eq]
    refine ⟨.arr fun v hv ↦ ?_, .int (by decide) (by decide),
      .str (plainStr_of_all (by decide)), .int (by decide) (by decide), .bool _⟩
    obtain ⟨e, he, rfl⟩ := List.mem_map.1 hv
    exact plain_blobValue (h e.1 (mem_of_mem_statEntries he).1) e.2

/-- The references of the answer are those asked about that the store has. -/
theorem parseSyncEnumeration_statistics (R : Json.Reader) (st : Store) {refs : List Bytes}
    (h : ∀ r ∈ refs, Json.PlainStr r) (hlen : refs.length < 2 ^ 32) :
    parseSyncEnumeration R ((statistics st refs).write ++ crlf) =
      .ok (some ⟨none, refs.filter fun r ↦ (st.get r).isSome⟩) := by
  have hsmall := (List.length_filterMap_le (fun r ↦ (st.get r).map (Prod.mk r)) refs).trans_lt hlen
  rw [parseSyncEnumeration, R.read_write (plain_statistics st h), statistics_eq]
  simp only [List.foldlM_cons, parseMember_blobs (Or.inr rfl) _ hsmall, List.foldlM_nil]
  rw [List.nil_append, map_fst_statEntries]
  rfl

end Answer

/-! ### One page -/

theorem mem_foldl_erase {α : Type*} [DecidableEq α] {l : List α} {t : Finset α} {a : α} :
    a ∈ l.foldl Finset.erase t ↔ a ∈ t ∧ a ∉ l := by
  induction l generalizing t with
  | nil => simp
  | cons b l ih =>
    rw [List.foldl_cons, ih, Finset.mem_erase, List.mem_cons, not_or]
    tauto

/-- What one round of the phase did: the page it asked about, the state of the peer when it
answered, and the references `send_blob` was called for. -/
structure Offer (σ : Type) where
  page : List (BlobKey × Blob)
  peer : σ
  sent : List Bytes

/-- The peer after the uploads of some references from a store. -/
def Peer.uploads {σ : Type} (peer : Peer σ) (host : Bytes) (st : Store) (s : σ)
    (refs : List Bytes) : σ :=
  refs.foldl (fun s r ↦
    match st.get r with
    | none => s
    | some blob =>
      (peer.upload s (host ++ lit "/upload") r (st.files.find blob.filePath)).2) s

/-- The peer after a round. -/
def Offer.after {σ : Type} (peer : Peer σ) (host : Bytes) (st : Store) (o : Offer σ) : σ :=
  peer.uploads host st (peer.next o.peer (peer.request (lit "/stat") (some (statRequest o.page))))
    o.sent

/-- Rounds that follow one another, from one state of the peer to another. -/
inductive Offers {σ : Type} (peer : Peer σ) (host : Bytes) (st : Store) :
    σ → List (Offer σ) → σ → Prop
  | nil (s : σ) : Offers peer host st s [] s
  | cons (o : Offer σ) {os : List (Offer σ)} {s : σ}
      (h : Offers peer host st (o.after peer host st) os s) :
      Offers peer host st o.peer (o :: os) s

/-- The part of the log a round wrote. -/
def Offer.events {σ : Type} (host : Bytes) (o : Offer σ) : List (SyncEvent σ) :=
  .fetched (buildStatUrl host) (some (statRequest o.page)) o.peer :: o.sent.map .sent

/-- Sent is what stood on the page and was not in the peer's index, each once. -/
structure Offer.Exact {σ : Type} (peer : Peer σ) (o : Offer σ) : Prop where
  nodup : o.sent.Nodup
  mem_sent : ∀ r, r ∈ o.sent ↔
    ∃ e ∈ o.page, r = e.1.blobref ∧ e.1 ∉ (peer.store o.peer).blobs.keys

section Pushing

variable {σ : Type} {D : Digests} {cfg : Config} {env : Environment} {peer : Peer σ} {host : Bytes}

/-- `send_blob` changes nothing but the world, whatever becomes of the upload. -/
theorem foldlM_sendBlob (D : Digests) (cfg : Config) (env : Environment) (peer : Peer σ)
    (host : Bytes) (refs : List Bytes) (x : Syncing σ) :
    refs.foldlM (sendBlob D cfg env (peer.world D host) host) x =
      .ok ⟨peer.uploads host x.store x.world refs, x.store, x.log ++ refs.map .sent⟩ := by
  induction refs generalizing x with
  | nil =>
    rw [List.map_nil, List.append_nil]
    rfl
  | cons r refs ih =>
    have hone : sendBlob D cfg env (peer.world D host) host x r =
        .ok ⟨peer.uploads host x.store x.world [r], x.store, x.log ++ [.sent r]⟩ := by
      simp only [sendBlob, peer.serveOthers_world, bind, Except.bind, Peer.uploads,
        List.foldl_cons, List.foldl_nil]
      rcases x.store.get r with - | b
      · rfl
      · rfl
    rw [List.foldlM_cons, hone]
    change refs.foldlM _ _ = _
    rw [ih, List.map_cons, List.append_assoc]
    rfl

/-- A round in which the stat request is answered. -/
theorem sendPhase_step {R : Json.Read} {w : World σ} {x x₁ x₂ x₃ : Syncing σ} {t : Option Bytes}
    {content : Bytes} {e : SyncEnumeration} (hothers : serveOthers D cfg env w x = .ok x₁)
    (hne : x₁.store.paginate t 501 ≠ [])
    (hurl : fetchUrl w x₁ (buildStatUrl host) (some (statRequest (x₁.store.paginate t 501))) =
      (some content, x₂))
    (hparse : parseSyncEnumeration R content = .ok (some e))
    (hsend : ((e.blobRefs.foldl Finset.erase ((x₁.store.paginate t 501).map
      fun e ↦ e.1.blobref).toFinset).sort (· ≤ ·)).foldlM (sendBlob D cfg env w host) x₂ = .ok x₃)
    (fuel : ℕ) :
    sendPhase R D cfg env w host (fuel + 1) x t =
      if (x₁.store.paginate t 501).length = 501 then
        sendPhase R D cfg env w host fuel x₃
          ((x₁.store.paginate t 501).getLast?.map fun last ↦ last.1.blobref)
      else .ok (some x₃) := by
  have hpos : (x₁.store.paginate t 501).length > 0 := List.length_pos_of_ne_nil hne
  simp only [sendPhase, hothers, bind, Except.bind, hpos, if_true, hurl, hparse, hsend]
  split_ifs
  · rfl
  · rfl

variable (D cfg env peer host) in
/-- **One round** of the phase, on a page that is not empty. -/
theorem sendPhase_round (R : Json.Reader) {x : Syncing σ} {c : Option BlobKey} {t : Option Bytes}
    (hstd : x.store.Standard) (ht : CursorText c t) (hne : x.store.paginate t 501 ≠ []) :
    ∃ o : Offer σ, o.page = x.store.paginate t 501 ∧ o.peer = x.world ∧ o.Exact peer ∧
      ∀ fuel, sendPhase R D cfg env (peer.world D host) host (fuel + 1) x t =
        if (x.store.paginate t 501).length = 501 then
          sendPhase R D cfg env (peer.world D host) host fuel
            ⟨o.after peer host x.store, x.store, x.log ++ o.events host⟩
            ((x.store.paginate t 501).getLast?.map fun last ↦ last.1.blobref)
        else .ok (some ⟨o.after peer host x.store, x.store, x.log ++ o.events host⟩) := by
  set blobs := x.store.paginate t 501 with hblobs
  have hcomp : ∀ e ∈ blobs, e.1.Computed := fun e he ↦
    hstd _ (Store.mem_keys_of_mem_paginate ht (by decide) he)
  have hrefs : ∀ r ∈ blobs.map fun e ↦ e.1.blobref, IsRefText r := by
    intro r hr
    obtain ⟨e, he, rfl⟩ := List.mem_map.1 hr
    exact (hcomp e he).isRefText
  have hlen : blobs.length ≤ 501 := by
    rw [hblobs, x.store.length_paginate ht (by decide)]
    exact Nat.min_le_left _ _
  have hperm := perm_decodeQueryStringBlobs hrefs
    (dropQuestion_of_notMem (notMem_statText hrefs (by decide) (by decide) (by decide)))
  rw [← statRequest_eq_statText (by omega)] at hperm
  -- what the peer is asked about is the page, in the order of the parameter names
  set asked := decodeQueryStringBlobs (statRequest blobs)
  have hplain : ∀ r ∈ asked, Json.PlainStr r := by
    intro r hr
    obtain ⟨e, he, rfl⟩ := List.mem_map.1 (hperm.subset hr)
    exact (hcomp e he).plainStr
  set found := asked.filter fun r ↦ ((peer.store x.world).get r).isSome with hfound
  have hparse := parseSyncEnumeration_statistics R (peer.store x.world) hplain
    (by rw [hperm.length_eq, List.length_map]; omega)
  set missing := found.foldl Finset.erase (blobs.map fun e ↦ e.1.blobref).toFinset with hmissing
  have hsent := foldlM_sendBlob D cfg env peer host (missing.sort (· ≤ ·))
    ⟨peer.next x.world (peer.request (lit "/stat") (some (statRequest blobs))), x.store,
      x.log ++ [.fetched (host ++ lit "/stat") (some (statRequest blobs)) x.world]⟩
  refine ⟨⟨blobs, x.world, missing.sort (· ≤ ·)⟩, rfl, rfl, ⟨missing.sort_nodup _, fun r ↦ ?_⟩,
    fun fuel ↦ ?_⟩
  · rw [Finset.mem_sort, hmissing, mem_foldl_erase, List.mem_toFinset, List.mem_map, hfound,
      List.mem_filter]
    constructor
    · rintro ⟨⟨e, he, rfl⟩, hnot⟩
      refine ⟨e, he, rfl, fun hkey ↦ hnot ⟨hperm.symm.subset (List.mem_map_of_mem he), ?_⟩⟩
      rw [(hcomp e he).get_blobref]
      exact OrdMap.isSome_find_iff.2 hkey
    · rintro ⟨e, he, rfl, hkey⟩
      refine ⟨⟨e, he, rfl⟩, fun hnot ↦ hkey ?_⟩
      have hsome := hnot.2
      rw [(hcomp e he).get_blobref] at hsome
      exact OrdMap.isSome_find_iff.1 hsome
  -- and one round does no more than ask and send
  · have hurl := peer.fetchUrl_world D host (lit "/stat") x (some (statRequest blobs))
    rw [peer.answer_stat] at hurl
    rw [sendPhase_step (peer.serveOthers_world x) hne hurl hparse hsent fuel, List.append_assoc]
    rfl

variable (D cfg env peer host) in
/-- **All rounds from a cursor on**, by induction on the number of keys that are left. -/
theorem sendPhase_from (R : Json.Reader) {st : Store} (hstd : st.Standard) :
    ∀ {len : ℕ} {c : Option BlobKey} {t : Option Bytes} (x : Syncing σ), CursorText c t →
      (bounded c st.blobs.keys).length = len → x.store = st →
      ∃ fuel world, ∃ offers : List (Offer σ),
        sendPhase R D cfg env (peer.world D host) host fuel x t =
            .ok (some ⟨world, st, x.log ++ offers.flatMap (Offer.events host)⟩) ∧
          Offers peer host st x.world offers world ∧
          (∀ o ∈ offers, o.Exact peer ∧ ∀ e ∈ o.page, e.1 ∈ st.blobs.keys) ∧
          ∀ k ∈ bounded c st.blobs.keys, ∃ o ∈ offers, k ∈ o.page.map Prod.fst := by
  intro len
  induction len using Nat.strong_induction_on with
  | _ len ih =>
    rintro c t x ht hlen rfl
    have hkeys := x.store.paginate_keys ht (show 0 < 501 by decide)
    have hlength := x.store.length_paginate ht (show 0 < 501 by decide)
    rw [hlen] at hlength
    rcases Nat.eq_zero_or_pos len with rfl | hpos
    · -- nothing is left: the page is empty and nothing is asked
      have hnil : x.store.paginate t 501 = [] := List.length_eq_zero_iff.1 (by omega)
      refine ⟨1, x.world, [], ?_, .nil _, by simp, ?_⟩
      · simp only [sendPhase, peer.serveOthers_world, bind, Except.bind, hnil]
        simp
      · simp [List.length_eq_zero_iff.1 hlen]
    · have hne : x.store.paginate t 501 ≠ [] := List.ne_nil_of_length_pos (by omega)
      obtain ⟨o, hpage, hpeer, hexact, hround⟩ :=
        sendPhase_round D cfg env peer host R hstd ht hne
      have hlocal : ∀ e ∈ x.store.paginate t 501, e.1 ∈ x.store.blobs.keys := fun e he ↦
        Store.mem_keys_of_mem_paginate ht (by decide) he
      by_cases hmore : 500 < len
      · -- a full page: its last key is where the next begins
        obtain ⟨c', hc'⟩ : ∃ c', (bounded c x.store.blobs.keys)[500]? = some c' :=
          ⟨_, List.getElem?_eq_getElem (by omega)⟩
        have hcomp : c'.Computed :=
          hstd c' ((bounded_suffix c _).subset (List.mem_of_getElem? hc'))
        have hlast : (x.store.paginate t 501).getLast?.map (fun last ↦ last.1.blobref) =
            some c'.blobref := by
          have hcursor := x.store.cursor_paginate ht 500
          rw [if_pos (show 500 < (x.store.paginate t 501).length by omega), hc'] at hcursor
          obtain ⟨e, he, rfl⟩ := Option.map_eq_some_iff.1 hcursor
          rw [he]
          rfl
        have hdrop := bounded_getElem x.store.blobs.pairwise_keys (bounded_suffix c _) hc'
        have hnext : (bounded (some c') x.store.blobs.keys).length = len - 500 := by
          rw [hdrop, List.length_drop, hlen]
        obtain ⟨fuel, world, offers, hrun, hchain, hoffers, hcover⟩ := ih (len - 500) (by omega)
          ⟨o.after peer host x.store, x.store, x.log ++ o.events host⟩ (.some hcomp) hnext rfl
        refine ⟨fuel + 1, world, o :: offers, ?_, hpeer ▸ .cons o hchain, ?_, fun k hk ↦ ?_⟩
        · rw [hround, if_pos (by omega), hlast, hrun, List.flatMap_cons, List.append_assoc]
        · intro o' ho'
          rcases List.mem_cons.1 ho' with rfl | ho'
          · exact ⟨hexact, hpage ▸ hlocal⟩
          · exact hoffers o' ho'
        · rw [← List.take_append_drop 500 (bounded c x.store.blobs.keys), ← hdrop] at hk
          rcases List.mem_append.1 hk with hk | hk
          · refine ⟨o, List.mem_cons_self, ?_⟩
            rw [hpage, hkeys]
            exact (List.take_subset_take_left _ (by decide)) hk
          · obtain ⟨o', ho', hk'⟩ := hcover k hk
            exact ⟨o', List.mem_cons_of_mem _ ho', hk'⟩
      · refine ⟨1, o.after peer host x.store, [o], ?_, hpeer ▸ .cons o (.nil _), ?_,
          fun k hk ↦ ⟨o, List.mem_singleton_self o, ?_⟩⟩
        · rw [hround, if_neg (by omega), List.flatMap_singleton]
        · intro o' ho'
          rw [List.mem_singleton.1 ho']
          exact ⟨hexact, hpage ▸ hlocal⟩
        · rw [hpage, hkeys, List.take_of_length_le (by omega)]
          exact hk

end Pushing

/-- What the send phase has done, by its log: it consists of offers, which are exact and ask about
local keys only, and every local key was asked about. -/
def Offered {σ : Type} (peer : Peer σ) (host : Bytes) (st : Store) (log : List (SyncEvent σ)) :
    Prop :=
  ∃ offers : List (Offer σ), log = offers.flatMap (Offer.events host) ∧
    (∀ o ∈ offers, o.Exact peer ∧ ∀ e ∈ o.page, e.1 ∈ st.blobs.keys) ∧
    ∀ k ∈ st.blobs.keys, ∃ o ∈ offers, k ∈ o.page.map Prod.fst

/-- **Push replication offers everything and nothing known**: from any store whose keys are
computed, as those of every reachable store are, against a peer with any index that may change at
any time, and whatever becomes of the uploads. -/
theorem sendPhase_offers {σ : Type} (R : Json.Reader) (D : Digests) (cfg : Config)
    (env : Environment) (peer : Peer σ) (host : Bytes) (s : σ) (st : Store) (hst : st.Standard) :
    ∃ fuel x, sendPhase R D cfg env (peer.world D host) host fuel ⟨s, st, []⟩ none = .ok (some x) ∧
      x.store = st ∧ Offered peer host st x.log := by
  obtain ⟨fuel, world, offers, hrun, -, hoffers, hcover⟩ :=
    sendPhase_from D cfg env peer host R hst ⟨s, st, []⟩ .none rfl rfl
  exact ⟨fuel, _, hrun, rfl, offers, List.nil_append _, hoffers, hcover⟩

/-- The contents `a` and `b` are offered to a peer that has `a`. -/
theorem sendPhase_offers_a_b : ∃ fuel x,
    sendPhase Json.plainReader Digests.sample {} ⟨true, fun _ ↦ none, fun _ s ↦ s⟩
        ((Peer.fixed (Store.empty.stored Digests.sample {} [97])).world Digests.sample
          (lit "http://peer:8080")) (lit "http://peer:8080") fuel
        ⟨(), (Store.empty.stored Digests.sample {} [97]).stored Digests.sample {} [98], []⟩ none =
          .ok (some x) ∧
      x.store = (Store.empty.stored Digests.sample {} [97]).stored Digests.sample {} [98] ∧
      Offered (Peer.fixed (Store.empty.stored Digests.sample {} [97])) (lit "http://peer:8080")
        ((Store.empty.stored Digests.sample {} [97]).stored Digests.sample {} [98]) x.log :=
  sendPhase_offers Json.plainReader Digests.sample {} ⟨true, fun _ ↦ none, fun _ s ↦ s⟩ _ _ () _
    (Store.Standard.stored (Store.Standard.stored (fun k hk ↦ by cases hk) _) _)

end Camlispp
