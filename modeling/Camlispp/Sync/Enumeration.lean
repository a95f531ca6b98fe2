import Camlispp.Library.Avoids
import Camlispp.Server.Routing
import Camlispp.Sync.Wire
import Mathlib.Data.List.Nodup

/-!
# Complete enumeration

A client that asks for `/enumerate-blobs` and follows `continueAfter`, while blobs are added between
its requests. Each request goes through the whole server, and each reply through the JSON reader:
the cursor is written as text, decoded as a URI, parsed as a query and split into a key again.

`fetchPage_eq` says that all of this amounts to one page of the ordered list of keys, and
`exchange_eq` that a whole exchange refines the paging of `Paging` over the growing list.

## What each result rests on

* `decodeQueryStringAfter_enumerateUri`: a cursor that is the text of a computed key comes through
  the URI unchanged.
* `parseSyncEnumeration_page`: of the 26 entries the server takes, 25 are listed and the last is the
  cursor. Here the reader is used, on a document of the server's own.
* `fetchPage_eq` and `exchange_eq` reduce the rest to `Paging`. `exchange_complete` is `pages_spec`,
  `exists_pages` and `length_pages`, read through them.

**Additions come between two requests.** The walk of one request over the index is taken as one
step, as in `Threads`, since `paginate` takes no lock.

In the witness a page is full, a letter is added, and the cursor leads to a second page with its
key.
-/

open Bytes Paging

namespace Camlispp

/-! ### One request -/

/-- The URI of an enumeration request. -/
def enumerateUri : Option Bytes → Bytes
  | none => lit "/enumerate-blobs"
  | some after => lit "/enumerate-blobs?after=" ++ after

theorem decodeQueryStringAfter_enumerateUri {c : Option BlobKey} {t : Option Bytes}
    (h : CursorText c t) : decodeQueryStringAfter (enumerateUri t) = t := by
  cases h with
  | none =>
    rw [decodeQueryStringAfter, if_pos (findUnsigned_ne_npos _ _),
      dropQuestion_of_notMem (by decide)]
    rfl
  | @some k hk =>
    have hdrop : dropQuestion (enumerateUri (some k.blobref)) = pairText (lit "after", k.blobref) :=
      dropQuestion_append (s := lit "/enumerate-blobs") (by decide) (by decide) _
    have hpair : IsPair (lit "after", k.blobref) :=
      ⟨⟨97, lit "fter", rfl, by decide, by decide +kernel⟩, blobref_ne_nil k,
        fun b hb ↦ isValueByte_of_isRefByte (hk.isRefByte b hb)⟩
    have hread := keysAndValues_text hpair [] (by simp)
    rw [List.map_nil, List.flatten_nil, List.append_nil] at hread
    rw [decodeQueryStringAfter, if_pos (findUnsigned_ne_npos _ _), hdrop, hread]
    rfl

section Exchange

variable (R : Json.Reader) (D : Digests) (cfg : Config) (env : Environment) (base : Http.Request)

/-- An enumeration request. Headers, version and content are those of `base`. -/
def enumerateRequest (t : Option Bytes) : Http.Request :=
  { base with method := lit "GET", uri := enumerateUri t }

/-- One request of the client, and what it reads from the reply. -/
def fetchPage (st : Store) (t : Option Bytes) : Except Fault (Option SyncEnumeration) := do
  let served ← handleRequest D cfg env st (enumerateRequest base t)
  if served.reply.status = .ok then parseSyncEnumeration R served.reply.content else .ok none

/-- The exchange from request `i` on: the pages, and the store at the last request. The additions
`additions i` happen between request `i` and the next. -/
def exchange (additions : ℕ → List AddCall) :
    ℕ → ℕ → Store → Option Bytes → Except Fault (Option (List (List Bytes) × Store))
  | 0, _, _, _ => .ok none
  | fuel + 1, i, st, t => do
    match ← fetchPage R D cfg env base st t with
    | none => .ok none
    | some page =>
      match page.last with
      | none => .ok (some ([page.blobRefs], st))
      | some t' => do
        let st ← addBlobs D cfg st (additions i)
        let rest ← exchange additions fuel (i + 1) st (some t')
        .ok (rest.map fun x ↦ (page.blobRefs :: x.1, x.2))

variable {R D cfg env base}

theorem exchange_last {additions : ℕ → List AddCall} {fuel i : ℕ} {st : Store} {t : Option Bytes}
    {refs : List Bytes} (hpage : fetchPage R D cfg env base st t = .ok (some ⟨none, refs⟩)) :
    exchange R D cfg env base additions (fuel + 1) i st t = .ok (some ([refs], st)) := by
  simp only [exchange, hpage, bind, Except.bind]

theorem exchange_more {additions : ℕ → List AddCall} {fuel i : ℕ} {st st' : Store}
    {t : Option Bytes} {t' : Bytes} {refs : List Bytes}
    (hpage : fetchPage R D cfg env base st t = .ok (some ⟨some t', refs⟩))
    (hst' : addBlobs D cfg st (additions i) = .ok st')
    {rest : Option (List (List Bytes) × Store)}
    (hrest : exchange R D cfg env base additions fuel (i + 1) st' (some t') = .ok rest) :
    exchange R D cfg env base additions (fuel + 1) i st t =
      .ok (rest.map fun x ↦ (refs :: x.1, x.2)) := by
  simp only [exchange, hpage, hst', hrest, bind, Except.bind]

theorem handleRequest_enumerate (D : Digests) (cfg : Config) (env : Environment)
    (base : Http.Request) (st : Store) {c : Option BlobKey} {t : Option Bytes}
    (h : CursorText c t) :
    handleRequest D cfg env st (enumerateRequest base t) =
      .ok ⟨jsonReply (enumeration (st.paginate t 26)), st, []⟩ := by
  -- no character of the path means anything to the decoder
  have huri : ∃ r, enumerateUri t = lit "/enumerate-blobs" ++ r ∧ 37 ∉ r ∧ 43 ∉ r ∧ 46 ∉ r := by
    cases h with
    | none => exact ⟨[], rfl, by decide, by decide, by decide⟩
    | @some k hk =>
      have hno : ∀ c, isRefByte c = false → c ∉ lit "?after=" → c ∉ lit "?after=" ++ k.blobref := by
        intro c hc hlit
        rw [List.mem_append, not_or]
        exact ⟨hlit, notMem_of_isRefByte hk.isRefByte hc⟩
      exact ⟨lit "?after=" ++ k.blobref, rfl, hno 37 (by decide) (by decide),
        hno 43 (by decide) (by decide), hno 46 (by decide) (by decide)⟩
  obtain ⟨r, hr, hpct, hplus, hdot⟩ := huri
  have hnot : ∀ c, c ∉ r → c ∉ lit "/enumerate-blobs" → c ∉ enumerateUri t := by
    intro c hcr hlit
    rw [hr, List.mem_append, not_or]
    exact ⟨hlit, hcr⟩
  rw [handleRequest_plain D cfg env st (enumerateRequest base t)
    (show (enumerateUri t).head? = some 47 by rw [hr]; rfl) (hnot 37 hpct (by decide))
    (hnot 43 hplus (by decide)) (hnot 46 hdot (by decide))]
  have hstatic : (lit "/static/").isPrefixOf (enumerateUri t) = false := by rw [hr]; rfl
  have hstat : (lit "/stat").isPrefixOf (enumerateUri t) = false := by rw [hr]; rfl
  have henum : (lit "/enumerate-blobs").isPrefixOf (enumerateUri t) = true := by
    rw [hr]
    exact List.isPrefixOf_iff_prefix.2 (List.prefix_append _ _)
  simp only [route, enumerateRequest, hstatic, hstat, henum, handleEnumerate,
    decodeQueryStringAfter_enumerateUri h]
  simp

/-- The document of a page is plain. -/
theorem plain_enumeration {blobs : List (BlobKey × Blob)} (h : ∀ e ∈ blobs, e.1.Computed) :
    Json.Plain (enumeration blobs) := by
  have hcont : ∀ m ∈ if blobs.length > 25 then
        (blobs.getLast?.map fun last ↦ (lit "continueAfter", Json.str last.1.blobref)).toList
      else [], ∃ last ∈ blobs, m = (lit "continueAfter", .str last.1.blobref) := by
    intro m hm
    split_ifs at hm
    · obtain ⟨last, hlast, rfl⟩ := Option.map_eq_some_iff.1 (Option.mem_toList.1 hm)
      exact ⟨last, List.mem_of_getLast? hlast, rfl⟩
    · cases hm
  refine .obj (fun m hm ↦ ?_) fun m hm ↦ ?_
  · rcases List.mem_cons.1 hm with rfl | hm
    · exact plainStr_of_all (s := lit "blobs") (by decide)
    · rcases List.mem_append.1 hm with hm | hm
      · obtain ⟨last, -, rfl⟩ := hcont m hm
        exact plainStr_of_all (s := lit "continueAfter") (by decide)
      · rw [List.mem_singleton.1 hm]
        exact plainStr_of_all (s := lit "canLongPoll") (by decide)
  · rcases List.mem_cons.1 hm with rfl | hm
    · refine .arr fun v hv ↦ ?_
      obtain ⟨e, he, rfl⟩ := List.mem_map.1 hv
      exact plain_blobValue (h e (List.mem_of_mem_take he)).plainStr e.2
    · rcases List.mem_append.1 hm with hm | hm
      · obtain ⟨last, hlast, rfl⟩ := hcont m hm
        exact .str (h last hlast).plainStr
      · rw [List.mem_singleton.1 hm]
        exact .str (plainStr_of_all (by decide))

/-- The document of a page, as `parse_sync_enumeration` reads it. -/
theorem parseSyncEnumeration_enumeration (R : Json.Reader) {blobs : List (BlobKey × Blob)}
    (h : ∀ e ∈ blobs, e.1.Computed) :
    parseSyncEnumeration R ((enumeration blobs).write ++ crlf) = .ok (some
      ⟨if blobs.length > 25 then blobs.getLast?.map fun e ↦ e.1.blobref else none,
        (blobs.take 25).map fun e ↦ e.1.blobref⟩) := by
  have hstat : (blobs.take 25).map (fun e ↦ blobValue e.1.blobref e.2) =
      ((blobs.take 25).map fun e ↦ (e.1.blobref, e.2)).map fun e ↦ blobValue e.1 e.2 := by
    rw [List.map_map]
    rfl
  have hrefs : ((blobs.take 25).map fun e ↦ (e.1.blobref, e.2)).map Prod.fst =
      (blobs.take 25).map fun e ↦ e.1.blobref := by
    rw [List.map_map]
    rfl
  have hsmall : ((blobs.take 25).map fun e ↦ (e.1.blobref, e.2)).length < 2 ^ 32 := by
    rw [List.length_map, List.length_take]
    omega
  rw [parseSyncEnumeration, R.read_write (plain_enumeration h), enumeration, hstat]
  simp only [List.foldlM_cons, parseMember_blobs (Or.inl rfl) _ hsmall]
  -- with a twenty-sixth blob there is a member to continue with
  by_cases hlen : blobs.length > 25
  · have hne : blobs ≠ [] := List.ne_nil_of_length_pos (by omega)
    obtain ⟨last, hlast⟩ : ∃ last, blobs.getLast? = some last :=
      ⟨_, List.getLast?_eq_some_getLast hne⟩
    rw [if_pos hlen, if_pos hlen, hlast, hrefs]
    rfl
  · rw [if_neg hlen, if_neg hlen, hrefs]
    rfl

/-- The document of a page of the index, as `parse_sync_enumeration` reads it. -/
theorem parseSyncEnumeration_page (R : Json.Reader) {st : Store} (hst : st.Standard)
    {c : Option BlobKey} {t : Option Bytes} (h : CursorText c t) :
    parseSyncEnumeration R ((enumeration (st.paginate t 26)).write ++ crlf) = .ok (some
      ⟨(page 25 c st.blobs.keys).2.map BlobKey.blobref,
        (page 25 c st.blobs.keys).1.map BlobKey.blobref⟩) := by
  have hkeys := st.paginate_keys h (show 0 < 26 by decide)
  have hcomp : ∀ e ∈ st.paginate t 26, e.1.Computed := fun e he ↦
    hst _ (Store.mem_keys_of_mem_paginate h (by decide) he)
  -- the twenty-sixth entry is the cursor, and is not shown
  have hlast : (if (st.paginate t 26).length > 25 then
      (st.paginate t 26).getLast?.map (fun e ↦ e.1.blobref) else none) =
        (bounded c st.blobs.keys)[25]?.map BlobKey.blobref := by
    rw [← st.cursor_paginate h 25]
    split_ifs
    · rw [Option.map_map]
      rfl
    · rfl
  have hshown : ((st.paginate t 26).take 25).map (fun e ↦ e.1.blobref) =
      ((bounded c st.blobs.keys).take 25).map BlobKey.blobref := by
    have htake : (bounded c st.blobs.keys).take 25 =
        ((bounded c st.blobs.keys).take 26).take 25 := by
      rw [List.take_take, Nat.min_eq_left (by decide)]
    rw [htake, ← hkeys, ← List.map_take, List.map_map]
    rfl
  rw [parseSyncEnumeration_enumeration R hcomp, hlast, hshown]
  rfl

/-- **One request is one page of the keys**, whatever is written and read on the way. -/
theorem fetchPage_eq (R : Json.Reader) (D : Digests) (cfg : Config) (env : Environment)
    (base : Http.Request) {st : Store} (hst : st.Standard) {c : Option BlobKey} {t : Option Bytes}
    (h : CursorText c t) :
    fetchPage R D cfg env base st t = .ok (some
      ⟨(page 25 c st.blobs.keys).2.map BlobKey.blobref,
        (page 25 c st.blobs.keys).1.map BlobKey.blobref⟩) := by
  rw [fetchPage, handleRequest_enumerate D cfg env base st h]
  exact parseSyncEnumeration_page R hst h

/-! ### The whole exchange -/

/-- The store at request `i`. -/
def storeAt (D : Digests) (cfg : Config) (st : Store) (additions : ℕ → List AddCall) : ℕ → Store
  | 0 => st
  | i + 1 =>
    match addBlobs D cfg (storeAt D cfg st additions i) (additions i) with
    | .ok st' => st'
    | .error _ => storeAt D cfg st additions i

section Growing

variable {st : Store} {additions : ℕ → List AddCall}
  (hadd : ∀ i, ∀ c ∈ additions i, c.bytes ≠ [])

include hadd

theorem addBlobs_storeAt (i : ℕ) :
    addBlobs D cfg (storeAt D cfg st additions i) (additions i) =
      .ok (storeAt D cfg st additions (i + 1)) := by
  obtain ⟨st', hst'⟩ := exists_addBlobs_eq_ok D cfg (hadd i) (storeAt D cfg st additions i)
  rw [storeAt, hst']

theorem standard_storeAt (hst : st.Standard) (i : ℕ) :
    (storeAt D cfg st additions i).Standard := by
  induction i with
  | zero => exact hst
  | succ i ih => exact (ih.addBlobs (addBlobs_storeAt hadd i)).1

theorem keys_storeAt_subset (hst : st.Standard) (i : ℕ) :
    (storeAt D cfg st additions i).blobs.keys ⊆
      (storeAt D cfg st additions (i + 1)).blobs.keys := fun _ hk ↦
  ((standard_storeAt hadd hst i).addBlobs (addBlobs_storeAt hadd i)).2.keys hk

/-- **An exchange refines paging.** -/
theorem exchange_eq (R : Json.Reader) (D : Digests) (cfg : Config) (env : Environment)
    (base : Http.Request) (hst : st.Standard) :
    ∀ (fuel i : ℕ) {c : Option BlobKey} {t : Option Bytes}, CursorText c t →
      exchange R D cfg env base additions fuel i (storeAt D cfg st additions i) t =
        .ok ((pages 25 (fun j ↦ (storeAt D cfg st additions j).blobs.keys) fuel i c).map fun ps ↦
          (ps.map (·.map BlobKey.blobref), storeAt D cfg st additions (i + (ps.length - 1)))) := by
  intro fuel
  induction fuel with
  | zero => exact fun i c t _ ↦ rfl
  | succ fuel ih =>
    intro i c t h
    have hstd : (storeAt D cfg st additions i).Standard := standard_storeAt hadd hst i
    have hpage := fetchPage_eq R D cfg env base hstd h
    -- the last page, or a page before others
    rcases hc : (bounded c (storeAt D cfg st additions i).blobs.keys)[25]? with - | c'
    · rw [page, hc] at hpage
      rw [exchange_last hpage, pages_last hc]
      rfl
    · have hc' : c'.Computed :=
        hstd c' ((bounded_suffix c _).subset (List.mem_of_getElem? hc))
      rw [page, hc] at hpage
      rw [exchange_more hpage (addBlobs_storeAt hadd i) (ih (i + 1) (.some hc')), pages_more hc]
      rcases hp : pages 25 (fun j ↦ (storeAt D cfg st additions j).blobs.keys) fuel (i + 1)
        (some c') with - | ps
      · rfl
      · have hne := (pages_spec (fun j ↦ (storeAt D cfg st additions j).blobs.pairwise_keys)
          (fun j ↦ keys_storeAt_subset hadd hst j) hp).1
        have hlen : i + 1 + (ps.length - 1) = i + ps.length := by
          have := List.length_pos_of_ne_nil hne
          omega
        simp only [Option.map_some, List.map_cons, List.length_cons, Nat.add_sub_cancel]
        rw [← hlen]

end Growing

/-- What an exchange between the stores `st` and `st'` has listed: the keys in their order, none of
them twice, all that were there at the beginning and none that is not there at the end. -/
structure Complete (st : Store) (listed : List Bytes) (st' : Store) : Prop where
  increasing : ∃ ks : List BlobKey, listed = ks.map BlobKey.blobref ∧ ks.Pairwise (· < ·) ∧
    (∀ k ∈ st.blobs.keys, k ∈ ks) ∧ ∀ k ∈ ks, k ∈ st'.blobs.keys
  nodup : listed.Nodup

theorem Store.Standard.nodup_blobref {st : Store} (hst : st.Standard) {ks : List BlobKey}
    (hks : ks.Pairwise (· < ·)) (hmem : ∀ k ∈ ks, k ∈ st.blobs.keys) :
    (ks.map BlobKey.blobref).Nodup := by
  refine List.Nodup.map_on (fun k hk k' hk' h ↦ ?_) (hks.imp ne_of_lt)
  exact (hst k (hmem k hk)).eq_of_blobref (hst k' (hmem k' hk')) h

/-- **Enumeration is complete.** From any reachable index, with any additions between the requests:
an exchange that has come to its end listed the keys completely; it comes to its end once the
additions stop; and without additions it takes exactly one request for every 25 keys, and at least
one. -/
theorem exchange_complete (R : Json.Reader) (D : Digests) (cfg : Config) (env : Environment)
    (base : Http.Request) (st : Store) (hst : Reachable D cfg st) (additions : ℕ → List AddCall)
    (hadd : ∀ i, ∀ c ∈ additions i, c.bytes ≠ []) :
    (∀ fuel shown st', exchange R D cfg env base additions fuel 0 st none =
        .ok (some (shown, st')) → Complete st shown.flatten st') ∧
      ((∃ N, ∀ i, N ≤ i → additions i = []) → ∃ fuel shown st',
        exchange R D cfg env base additions fuel 0 st none = .ok (some (shown, st'))) ∧
      ((∀ i, additions i = []) → ∃ fuel shown st',
        exchange R D cfg env base additions fuel 0 st none = .ok (some (shown, st')) ∧
          shown.length = max 1 ((st.blobs.keys.length + 24) / 25)) := by
  have hstd := hst.standard
  have hrun := fun fuel ↦ exchange_eq hadd R D cfg env base hstd fuel 0 .none
  have hsorted := fun i ↦ (storeAt D cfg st additions i).blobs.pairwise_keys
  refine ⟨fun fuel shown st' h ↦ ?_, ?_, ?_⟩
  · obtain ⟨ps, hps, heq⟩ := Option.map_eq_some_iff.1 (Except.ok.inj ((hrun fuel).symm.trans h))
    obtain ⟨rfl, rfl⟩ := Prod.mk.inj heq
    obtain ⟨-, hinc, -, hall, hend⟩ :=
      pages_spec hsorted (fun i ↦ keys_storeAt_subset hadd hstd i) hps
    rw [Nat.zero_add] at hend ⊢
    rw [← List.map_flatten]
    refine ⟨⟨ps.flatten, rfl, hinc, fun k hk ↦ hall k hk (by simp [NotBelow]), hend⟩, ?_⟩
    exact (standard_storeAt hadd hstd _).nodup_blobref hinc hend
  · rintro ⟨N, hN⟩
    -- from the last addition on the store is fixed, and the pages come to an end
    have hconst : ∀ i, N ≤ i → storeAt D cfg st additions i = storeAt D cfg st additions N := by
      intro i hi
      induction i, hi using Nat.le_induction with
      | base => rfl
      | succ i hi ih => rw [storeAt, hN i hi, ih]; rfl
    obtain ⟨fuel, ps, hps⟩ := exists_pages (n := 25) (by decide) hsorted
      (fun i hi ↦ by rw [hconst i hi]) 0 none
    exact ⟨fuel, _, _, (hrun fuel).trans (by rw [hps]; rfl)⟩
  · intro hnone
    have hconst : ∀ i, storeAt D cfg st additions i = st := by
      intro i
      induction i with
      | zero => rfl
      | succ i ih => rw [storeAt, hnone i, ih]; rfl
    have hkeys : ∀ j, 0 ≤ j → (storeAt D cfg st additions j).blobs.keys = st.blobs.keys :=
      fun j _ ↦ by rw [hconst j]
    obtain ⟨ps, hps, hlen⟩ := length_pages (n := 25) (c := none) (by decide)
      st.blobs.pairwise_keys hkeys rfl _ (Nat.lt_succ_self _)
    refine ⟨_, _, _, (hrun _).trans (by rw [hps]; rfl), ?_⟩
    rw [List.length_map, hlen]
    rfl

/-- A number in hexadecimal digits. -/
def upperHex (width n : ℕ) : Bytes :=
  (List.range width).reverse.map fun i ↦ Json.toHexChar (n / 16 ^ i % 16)

theorem isUpperHex_upperHex (width n : ℕ) : ∀ b ∈ upperHex width n, isUpperHex b := by
  have hdigit : ∀ c < 16, isUpperHex (Json.toHexChar c) := by decide
  intro b hb
  obtain ⟨i, -, rfl⟩ := List.mem_map.1 hb
  exact hdigit _ (Nat.mod_lt _ (by decide))

/-- The digests of some letters. -/
def letterDigests : List (UInt8 × ℕ × ℕ) := [
  (97, 0x86F7E437FAA5A7FCE15D1DDCB9EAEAEA377667B8,
    0xCA978112CA1BBDCAFAC231B39A23DC4DA786EFF8147C4E72B9807785AFEE48BB),
  (98, 0xE9D71F5EE7C92D6DC9E92FFDAD17B8BD49418F98,
    0x3E23E8160039594A33894F6564E1B1348BBD7A0088D42C4ACB73EEAED59C009D),
  (99, 0x84A516841BA77A5B4648DE2CD0DFCB30EA46DBB4,
    0x2E7D2C03A9507AE265ECF5B5356885A53393A2029D241394997265A1A25AEFC6),
  (100, 0x3C363836CF4E16666669A25DA280A1865C2D2874,
    0x18AC3E7343F016890C510E93F935261169D9E3F565436429830FAF0934F4F8E4),
  (101, 0x58E6B3A414A1E090DFC6029ADD0F3555CCBA127F,
    0x3F79BB7B435B05321651DAEFD374CDC681DC06FAA65E374E38337B88CA046DEA),
  (102, 0x4A0A19218E082A343A1B17E5333409AF9D98F0F5,
    0x252F10C83610EBCA1A059C0BAE8255EBA2F95BE4D1D7BCFA89D7248A82D9F111),
  (103, 0x54FD1711209FB1C0781092374132C66E79E2241B,
    0xCD0AA9856147B6C5B4FF2B7DFEE5DA20AA38253099EF1B4A64ACED233C9AFE29),
  (104, 0x27D5482EEBD075DE44389774FCE28C69F45C8A75,
    0xAAA9402664F1A41F40EBBC52C9993EB66AEB366602958FDFAA283B71E64DB123),
  (105, 0x042DC4512FA3D391C5170CF3AA61E6A638F84342,
    0xDE7D1B721A1E0632B7CF04EDF5032C8ECFFA9F9A08492152B926F1A5A7E765D7),
  (106, 0x5C2DD944DDE9E08881BEF0894FE7B22A5C9C4B06,
    0x189F40034BE7A199F1FA9891668EE3AB6049F82D38C68BE70F596EAB2E1857B7),
  (107, 0x13FBD79C3D390E5D6585A21E11FF5EC1970CFF0C,
    0x8254C329A92850F6D539DD376F4816EE2764517DA5E0235514AF433164480D7A),
  (108, 0x07C342BE6E560E7F43842E2E21B774E61D85F047,
    0xACAC86C0E609CA906F632B0E2DACCCB2B77D22B0621F20EBECE1A4835B93F6F0),
  (109, 0x6B0D31C0D563223024DA45691584643AC78C96E8,
    0x62C66A7A5DD70C3146618063C344E531E6D4B59E379808443CE962B3ABD63C5A),
  (116, 0x8EFD86FB78A56A5145ED7739DCB00C78581C5375,
    0xE3B98A4DA31A127D4BDE6E43033F66BA274CAB0EB7EB1C70EC41402BF6273DD8)]

/-- Digests that are right for these letters. -/
def lettersDigests : Digests :=
  .ofTable (letterDigests.map fun e ↦ ([e.1], upperHex 40 e.2.1, upperHex 64 e.2.2)) fun e he ↦ by
    obtain ⟨e, -, rfl⟩ := List.mem_map.1 he
    exact ⟨isUpperHex_upperHex _ _, isUpperHex_upperHex _ _⟩

/-- Thirteen letters, which have 26 keys. -/
def letters : List AddCall := (List.range 13).map fun i ↦ ⟨none, [UInt8.ofNat (97 + i)]⟩

/-- One more, whose SHA-256 key comes behind them all. -/
def oneMore (i : ℕ) : List AddCall := if i = 0 then [⟨none, [116]⟩] else []

/-- The first page is full. Then a letter is added, and the cursor leads to it. -/
theorem exchange_complete_letters :
    ∃ st shown st', addBlobs lettersDigests {} .empty letters = .ok st ∧
      exchange Json.plainReader lettersDigests {} ⟨true, fun _ ↦ none, fun _ s ↦ s⟩
        ⟨[], [], 1, 1, [], []⟩ oneMore 2 0 st none = .ok (some (shown, st')) ∧
      shown.map List.length = [25, 2] ∧ Complete st shown.flatten st' := by
  -- the pages of the keys, which the exchange refines
  have htest : (addBlobs lettersDigests {} .empty letters).toOption.bind (fun st ↦
      (pages 25 (fun j ↦ (storeAt lettersDigests {} st oneMore j).blobs.keys) 2 0 none).map
        (·.map List.length)) = some [25, 2] := by decide +kernel
  obtain ⟨st, hst, hpages⟩ := Option.bind_eq_some_iff.1 htest
  obtain ⟨ps, hps, hlength⟩ := Option.map_eq_some_iff.1 hpages
  have hload : Reachable lettersDigests {} st := ⟨letters, Except.eq_ok_of_toOption hst⟩
  have hadd : ∀ i, ∀ c ∈ oneMore i, c.bytes ≠ [] := by
    intro i c hc
    rw [oneMore] at hc
    split_ifs at hc
    · rw [List.mem_singleton.1 hc]
      decide
    · cases hc
  have hrun := exchange_eq hadd Json.plainReader lettersDigests {}
    ⟨true, fun _ ↦ none, fun _ s ↦ s⟩ ⟨[], [], 1, 1, [], []⟩ hload.standard 2 0 .none
  rw [hps] at hrun
  obtain ⟨hsound, -, -⟩ := exchange_complete Json.plainReader lettersDigests {}
    ⟨true, fun _ ↦ none, fun _ s ↦ s⟩ ⟨[], [], 1, 1, [], []⟩ st hload oneMore hadd
  refine ⟨st, _, _, Except.eq_ok_of_toOption hst, hrun, ?_, hsound 2 _ _ hrun⟩
  rw [← hlength, List.map_map]
  simp [Function.comp_def]

end Exchange

end Camlispp
