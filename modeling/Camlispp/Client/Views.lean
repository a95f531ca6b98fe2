import Camlispp.Store.History
import Camlispp.Sync.Enumeration
import Camlispp.Sync.Push

/-!
# Four views of a blob

A client can look at a blob in four ways: `HEAD`, `GET`, a stat request that names it, and the
complete enumeration. Three of them report the size in the record of the key, which the last
addition wrote; `GET` returns the file, which the first addition wrote.

`views_agree_iff` says exactly when the four agree, after any run of additions: the last content of
the key must have the length of the first content of its file, as an `int`; and the reference must
not begin with `stat`, where `HEAD` and `GET` are taken for stat requests.

## What each result rests on

* `exists_views`: each of the four requests goes through the whole handler, so that the texts of the
  replies are those of the source, and is then reduced to one lookup in the index.
* `walk_eq`: the enumeration lists all entries, by the paging of `Paging`. Its sizes are those of
  the records.
* `agree_iff_sameSize` is where they are compared: the record has the size of the last content of
  the key, the file is the first content of its path (`find_addBlobs`).
* `isRef_spec` says which references can be asked for at all. That the split position may overflow
  does not matter: `Store.Standard.get_of_isRef`.

`views_agree_iff` is an equivalence for every run, so its condition is not only enough: `a` and then
`a NUL b` is a run that breaks it.
-/

open Bytes Paging

namespace Camlispp

/-! ### Reading sizes -/

/-- The member of an object with a name. -/
def Json.member (name : Bytes) : Json → Option Json
  | .obj ms => (ms.find? fun m ↦ m.1 = name).map Prod.snd
  | _ => none

/-- The reference and the size in an element of a list of blobs. -/
def Json.sized (v : Json) : Option (Bytes × ℤ) :=
  match v.member (lit "blobRef"), v.member (lit "size") with
  | some (.str ref), some (.int size) => some (ref, size)
  | _, _ => none

/-- What a document lists under a name. -/
def Json.listing (name : Bytes) (doc : Json) : List (Bytes × ℤ) :=
  match doc.member name with
  | some (.arr vs) => vs.filterMap Json.sized
  | _ => []

theorem filterMap_sized (es : List (Bytes × Blob)) :
    (es.map fun e ↦ blobValue e.1 e.2).filterMap Json.sized =
      es.map fun e ↦ (e.1, e.2.size) := by
  induction es with
  | nil => rfl
  | cons e es ih =>
    have hone : Json.sized (blobValue e.1 e.2) = some (e.1, e.2.size) := rfl
    rw [List.map_cons, List.filterMap_cons, hone, ih]
    rfl

/-! ### The views -/

section Views

variable (R : Json.Reader) (D : Digests) (cfg : Config) (env : Environment) (base : Http.Request)
  (st : Store)

/-- A request that names a blob in its path. -/
def blobRequest (method r : Bytes) : Http.Request := { base with method := method, uri := 47 :: r }

/-- A stat request that names blobs, by `POST` or by `GET`. -/
def statQuery (post : Bool) (refs : List Bytes) : Http.Request :=
  if post then { base with method := lit "POST", uri := lit "/stat", content := statText refs }
  else { base with method := lit "GET", uri := lit "/stat?" ++ statText refs }

/-- The complete enumeration: every page, as `continueAfter` leads to it. -/
def walk : ℕ → Option Bytes → Except Fault (Option (List (Bytes × ℤ)))
  | 0, _ => .ok none
  | fuel + 1, t => do
    let served ← handleRequest D cfg env st (enumerateRequest base t)
    match R.read served.reply.content with
    | none => .ok none
    | some doc =>
      match doc.member (lit "continueAfter") with
      | some (.str t') => do
        let rest ← walk fuel (some t')
        .ok (rest.map (doc.listing (lit "blobs") ++ ·))
      | _ => .ok (some (doc.listing (lit "blobs")))

/-- What a client finds out about a reference. -/
structure Views where
  head : Http.Reply
  get : Http.Reply
  /-- References and sizes in the answer to the stat request. -/
  stat : List (Bytes × ℤ)
  /-- References and sizes in the complete enumeration. -/
  listed : List (Bytes × ℤ)

/-- The four views of `r`, with a stat request that names `refs`. The walk has fuel for one key a
page. -/
def views (post : Bool) (refs : List Bytes) (r : Bytes) : Except Fault (Option Views) := do
  let head ← handleRequest D cfg env st (blobRequest base (lit "HEAD") r)
  let get ← handleRequest D cfg env st (blobRequest base (lit "GET") r)
  let stat ← handleRequest D cfg env st (statQuery base post refs)
  let listed ← walk R D cfg env base st (st.blobs.keys.length + 1) none
  .ok do
    let doc ← R.read stat.reply.content
    let listed ← listed
    some ⟨head.reply, get.reply, doc.listing (lit "stat"), listed⟩

/-- The views agree on whether there is such a blob, and on its size. -/
structure Views.Agree (r : Bytes) (v : Views) : Prop where
  head_get : v.head.status = .ok ↔ v.get.status = .ok
  get_stat : v.get.status = .ok ↔ ∃ n, (r, n) ∈ v.stat
  stat_listed : (∃ n, (r, n) ∈ v.stat) ↔ ∃ n, (r, n) ∈ v.listed
  sizes : v.get.status = .ok →
    Http.getHeader v.head.headers (lit "Content-Length") = decimal v.get.content.length ∧
      (∀ n, (r, n) ∈ v.stat → n = v.get.content.length) ∧
      ∀ n, (r, n) ∈ v.listed → n = v.get.content.length

end Views

/-! ### The stat request -/

section Stat

variable {D : Digests} {cfg : Config} {env : Environment} {base : Http.Request} {st : Store}
  {refs : List Bytes}

/-- A stat request is answered about the references it names. -/
theorem handleRequest_statQuery (D : Digests) (cfg : Config) (env : Environment)
    (base : Http.Request) (st : Store) (post : Bool) (h : ∀ r ∈ refs, IsRefText r) :
    ∃ asked, asked.Perm refs ∧ handleRequest D cfg env st (statQuery base post refs) =
      .ok ⟨jsonReply (statistics st asked), st, []⟩ := by
  have hnot : ∀ c, isRefByte c = false → c ≠ 38 → c ≠ 61 → c ∉ statText refs := fun c ↦
    notMem_statText h
  cases post with
  | true =>
    have hdrop := dropQuestion_of_notMem (hnot 63 (by decide) (by decide) (by decide))
    exact ⟨_, perm_decodeQueryStringBlobs h hdrop, handleRequest_statPost D cfg env st _ rfl rfl⟩
  | false =>
    have hdrop : dropQuestion (lit "/stat?" ++ statText refs) = statText refs :=
      dropQuestion_append (s := lit "/stat") (by decide) (by decide) _
    have hdecode := urlDecode_eq_self (hnot 37 (by decide) (by decide) (by decide))
      (hnot 43 (by decide) (by decide) (by decide))
    have hdots : ¬lit ".." <:+: statText refs := fun hocc ↦
      hnot 46 (by decide) (by decide) (by decide) (hocc.subset (by decide))
    exact ⟨_, perm_decodeQueryStringBlobs h hdrop,
      handleRequest_statGet D cfg env st _ rfl rfl hdecode hdots⟩

/-- A stat reply lists what it was asked about and the store has. -/
theorem mem_listing_statistics {asked : List Bytes} {r : Bytes} {n : ℤ} :
    (r, n) ∈ (statistics st asked).listing (lit "stat") ↔
      r ∈ asked ∧ ∃ b, st.get r = some b ∧ b.size = n := by
  have hlisting : (statistics st asked).listing (lit "stat") =
      (asked.filterMap fun r ↦ (st.get r).map (Prod.mk r)).map fun e ↦ (e.1, e.2.size) := by
    rw [statistics_eq]
    exact filterMap_sized _
  rw [hlisting, List.mem_map]
  constructor
  · rintro ⟨e, he, heq⟩
    obtain ⟨rfl, rfl⟩ := Prod.mk.inj heq
    obtain ⟨hmem, hget⟩ := mem_of_mem_statEntries he
    exact ⟨hmem, e.2, hget, rfl⟩
  · rintro ⟨hmem, b, hget, rfl⟩
    exact ⟨(r, b), List.mem_filterMap.2 ⟨r, hmem, by rw [hget]; rfl⟩, rfl⟩

end Stat

/-! ### The complete enumeration -/

section Walk

theorem listing_enumeration (blobs : List (BlobKey × Blob)) :
    (enumeration blobs).listing (lit "blobs") =
      (blobs.take 25).map fun e ↦ (e.1.blobref, e.2.size) := by
  have hstat : (blobs.take 25).map (fun e ↦ blobValue e.1.blobref e.2) =
      ((blobs.take 25).map fun e ↦ (e.1.blobref, e.2)).map fun e ↦ blobValue e.1 e.2 := by
    rw [List.map_map]
    rfl
  show ((blobs.take 25).map fun e ↦ blobValue e.1.blobref e.2).filterMap Json.sized = _
  rw [hstat, filterMap_sized, List.map_map]
  rfl

theorem member_enumeration_of_le (blobs : List (BlobKey × Blob)) (h : blobs.length ≤ 25) :
    (enumeration blobs).member (lit "continueAfter") = none := by
  rw [enumeration, if_neg (by omega)]
  rfl

theorem member_enumeration_of_lt (blobs : List (BlobKey × Blob)) (h : 25 < blobs.length)
    {last : BlobKey × Blob}
    (hlast : blobs.getLast? = some last) :
    (enumeration blobs).member (lit "continueAfter") = some (.str last.1.blobref) := by
  rw [enumeration, if_pos h, hlast]
  rfl

/-- **The walk lists all entries**, with the sizes of their records. -/
theorem walk_eq (R : Json.Reader) (D : Digests) (cfg : Config) (env : Environment)
    (base : Http.Request) {st : Store} (hst : st.Standard) :
    ∀ {fuel : ℕ} {c : Option BlobKey} {t : Option Bytes}, CursorText c t →
      (st.boundedEntries c).length < fuel →
      walk R D cfg env base st fuel t =
        .ok (some ((st.boundedEntries c).map fun e ↦ (e.1.blobref, e.2.size))) := by
  intro fuel
  induction fuel with
  | zero => exact fun _ h ↦ absurd h (by omega)
  | succ fuel ih =>
    intro c t ht hlen
    have hpage := st.paginate_eq ht (show 0 < 26 by decide)
    have hcomp : ∀ e ∈ st.boundedEntries c, e.1.Computed := by
      intro e he
      have hmem := List.mem_map_of_mem (f := Prod.fst) he
      rw [st.keys_boundedEntries] at hmem
      exact hst _ ((bounded_suffix c _).subset hmem)
    have hread : R.read (jsonReply (enumeration (st.paginate t 26))).content =
        some (enumeration (st.paginate t 26)) := by
      refine R.read_write (plain_enumeration fun e he ↦ ?_)
      rw [hpage] at he
      exact hcomp e (List.mem_of_mem_take he)
    have hlisting : (enumeration (st.paginate t 26)).listing (lit "blobs") =
        ((st.boundedEntries c).take 25).map fun e ↦ (e.1.blobref, e.2.size) := by
      rw [listing_enumeration, hpage, List.take_take, Nat.min_eq_left (by decide)]
    rcases he : (st.boundedEntries c)[25]? with - | e
    · -- the last page
      have hle : (st.boundedEntries c).length ≤ 25 := List.getElem?_eq_none_iff.1 he
      have hmember := member_enumeration_of_le (st.paginate t 26) (by
        rw [hpage, List.length_take]
        omega)
      simp only [walk, handleRequest_enumerate D cfg env base st ht, bind, Except.bind, hread,
        hmember, hlisting, List.take_of_length_le hle]
    · have hlt : 25 < (st.boundedEntries c).length := (List.getElem?_eq_some_iff.1 he).1
      have hlast : (st.paginate t 26).getLast? = some e := by
        have := getLast?_take (st.boundedEntries c) 25
        rwa [if_pos (by rw [List.length_take]; omega), he, ← hpage] at this
      have hmember := member_enumeration_of_lt (st.paginate t 26) (by
        rw [hpage, List.length_take]
        omega) hlast
      have hdrop := st.boundedEntries_getElem he
      have hrest := ih (.some (hcomp e (List.mem_of_getElem? he))) (by
        rw [hdrop, List.length_drop]
        omega)
      simp only [walk, handleRequest_enumerate D cfg env base st ht, bind, Except.bind, hread,
        hmember, hlisting, hrest, Option.map_some]
      rw [hdrop, ← List.map_append, List.take_append_drop]

end Walk

/-! ### References and their keys -/

/-- The key a reference names: what stands before its first dash, and what stands behind. -/
def refKey (r : Bytes) : BlobKey := ⟨r.takeWhile (· ≠ 45), (r.dropWhile (· ≠ 45)).tail⟩

theorem refKey_append {t : Bytes} (ht : 45 ∉ t) (v : Bytes) : refKey (t ++ 45 :: v) = ⟨t, v⟩ := by
  have hall : ∀ b ∈ t, decide (b ≠ 45) = true := fun b hb ↦ by
    simpa using fun h : b = 45 ↦ ht (h ▸ hb)
  rw [refKey, List.takeWhile_append_of_pos hall, List.dropWhile_append_of_pos hall]
  simp

theorem BlobKey.Computed.dash_notMem {k : BlobKey} (hk : k.Computed) : 45 ∉ k.hashType := by
  rcases hk.hashType with h | h
  · rw [h]
    decide
  · rw [h]
    decide

theorem BlobKey.Computed.refKey_blobref {k : BlobKey} (hk : k.Computed) : refKey k.blobref = k := by
  rw [BlobKey.blobref, List.append_assoc]
  exact refKey_append hk.dash_notMem _

/-- A reference is its type, a dash and hex digits. -/
theorem isRef_spec {r : Bytes} (h : isRef r = true) :
    r = (refKey r).hashType ++ 45 :: (refKey r).hashValue ∧
      (∀ b ∈ (refKey r).hashType, isAlnum b = true) ∧
      ∀ b ∈ (refKey r).hashValue, isHexDigit b = true := by
  simp only [isRef, Bool.and_eq_true, decide_eq_true_eq, List.all_eq_true] at h
  obtain ⟨⟨⟨-, halnum⟩, hne⟩, hhex⟩ := h
  refine ⟨?_, halnum, hhex⟩
  rcases hdrop : r.dropWhile (· ≠ 45) with - | ⟨c, v⟩
  · rw [hdrop] at hne
    exact absurd rfl hne
  · have hc : c = 45 := by
      have := List.head?_dropWhile_not (fun b : UInt8 ↦ decide (b ≠ 45)) r
      rw [hdrop] at this
      simpa using this
    subst hc
    have hsplit := List.takeWhile_append_dropWhile (p := fun b : UInt8 ↦ decide (b ≠ 45)) (l := r)
    rw [hdrop] at hsplit
    rw [refKey, hdrop]
    exact hsplit.symm

theorem blobref_refKey {r : Bytes} (h : isRef r = true) : (refKey r).blobref = r := by
  rw [BlobKey.blobref, List.append_assoc]
  exact (isRef_spec h).1.symm

theorem isRefText_of_isRef {r : Bytes} (h : isRef r = true) : IsRefText r := by
  obtain ⟨hr, halnum, hhex⟩ := isRef_spec h
  refine ⟨fun hnil ↦ by rw [hnil] at h; exact absurd h (by decide), fun b hb ↦ ?_⟩
  rw [hr, List.mem_append, List.mem_cons] at hb
  rcases hb with hb | rfl | hb
  · simp [isRefByte, halnum b hb]
  · decide
  · simp [isRefByte, isAlnum_of_isHexDigit (hhex b hb)]

/-- No reference begins like an enumeration: `l` is not a hex digit. -/
theorem not_enumerate_of_isRef {r : Bytes} (h : isRef r = true) :
    (lit "enumerate-blobs").isPrefixOf r = false := by
  rw [Bool.eq_false_iff, Ne, List.isPrefixOf_iff_prefix]
  rintro ⟨u, rfl⟩
  have hfalse : isRef (lit "enumerate-blobs" ++ u) = false := rfl
  rw [hfalse] at h
  cases h

/-- **A reference is looked up under its key**, also where the split position overflows: then
neither finds anything. -/
theorem Store.Standard.get_of_isRef {st : Store} (hst : st.Standard) {r : Bytes}
    (h : isRef r = true) : st.get r = st.blobs.find (refKey r) := by
  refine Option.ext fun b ↦ ?_
  rw [hst.get_eq_some_iff]
  constructor
  · rintro ⟨k, rfl, hb⟩
    rw [(hst k (OrdMap.mem_keys_iff.2 ⟨b, hb⟩)).refKey_blobref]
    exact hb
  · exact fun hb ↦ ⟨refKey r, blobref_refKey h, hb⟩

/-! ### When the views agree -/

section Agreement

variable {R : Json.Reader} {D : Digests} {cfg : Config} {env : Environment} {base : Http.Request}
  {st : Store} {r : Bytes}

/-- A path that begins like a stat request is taken for one, whatever the method. -/
theorem handleRequest_of_stat (method : Bytes) (hr : IsRefText r)
    (hstat : (lit "stat").isPrefixOf r = true) :
    handleRequest D cfg env st (blobRequest base method r) =
      .ok ⟨handleStat st (47 :: r) (blobRequest base method r), st, []⟩ := by
  have hstatic : (lit "/static/").isPrefixOf (47 :: r) = false := by
    rw [Bool.eq_false_iff, Ne, List.isPrefixOf_iff_prefix]
    intro hpre
    have hslash : (47 : UInt8) ∈ r := (List.cons_prefix_cons.1 hpre).2.subset (by decide)
    exact absurd (hr.bytes 47 hslash) (by decide)
  have hstat' : (lit "/stat").isPrefixOf (47 :: r) = true := hstat
  rw [handleRequest_ref D cfg env st (blobRequest base method r) rfl hr.bytes, route]
  simp [hstatic, hstat']

/-- The complete enumeration has a reference if the index has its key. -/
theorem mem_entries_iff (hst : st.Standard) (h : isRef r = true) {n : ℤ} :
    (r, n) ∈ st.blobs.entries.map (fun e ↦ (e.1.blobref, e.2.size)) ↔
      ∃ b, st.blobs.find (refKey r) = some b ∧ b.size = n := by
  rw [List.mem_map]
  constructor
  · rintro ⟨e, he, heq⟩
    obtain ⟨rfl, rfl⟩ := Prod.mk.inj heq
    have hcomp : e.1.Computed := hst e.1 (List.mem_map_of_mem he)
    refine ⟨e.2, ?_, rfl⟩
    rw [hcomp.refKey_blobref]
    exact OrdMap.find_eq_some_iff.2 he
  · rintro ⟨b, hb, rfl⟩
    refine ⟨(refKey r, b), OrdMap.find_eq_some_iff.1 hb, ?_⟩
    rw [blobref_refKey h]

/-- The four requests are answered: by the two handlers of a path, by a list of those asked about
that the index has, and by the list of all it has. -/
theorem exists_views (R : Json.Reader) (D : Digests) (cfg : Config) (env : Environment)
    (base : Http.Request) (hst : st.Standard) (post : Bool) {refs : List Bytes}
    (hrefs : ∀ q ∈ refs, isRef q = true) (hr : r ∈ refs) :
    ∃ v head get, handleRequest D cfg env st (blobRequest base (lit "HEAD") r) = .ok head ∧
      handleRequest D cfg env st (blobRequest base (lit "GET") r) = .ok get ∧
      views R D cfg env base st post refs r = .ok (some v) ∧ v.head = head.reply ∧
      v.get = get.reply ∧
      (∀ n, (r, n) ∈ v.stat ↔ ∃ b, st.blobs.find (refKey r) = some b ∧ b.size = n) ∧
      ∀ n, (r, n) ∈ v.listed ↔ ∃ b, st.blobs.find (refKey r) = some b ∧ b.size = n := by
  have hplain : ∀ q ∈ refs, Json.PlainStr q := fun q hq ↦
    plainStr_of_isRefByte (isRefText_of_isRef (hrefs q hq)).bytes
  obtain ⟨head, hhead⟩ :=
    exists_handleRequest_eq_ok D cfg env st (blobRequest base (lit "HEAD") r)
  obtain ⟨get, hget⟩ := exists_handleRequest_eq_ok D cfg env st (blobRequest base (lit "GET") r)
  obtain ⟨asked, hperm, hstat⟩ := handleRequest_statQuery D cfg env base st post
    fun q hq ↦ isRefText_of_isRef (hrefs q hq)
  have hread : R.read (jsonReply (statistics st asked)).content = some (statistics st asked) :=
    R.read_write (plain_statistics st fun q hq ↦ hplain q (hperm.subset hq))
  -- one more page than there are keys is enough for the walk
  have hwalk := walk_eq R D cfg env base hst .none (show (st.boundedEntries none).length <
    st.blobs.keys.length + 1 by
      rw [← List.length_map, st.keys_boundedEntries]
      exact Nat.lt_succ_self _)
  refine ⟨⟨head.reply, get.reply, (statistics st asked).listing (lit "stat"),
    st.blobs.entries.map fun e ↦ (e.1.blobref, e.2.size)⟩, head, get, hhead, hget, ?_, rfl, rfl,
    fun n ↦ ?_, fun n ↦ mem_entries_iff hst (hrefs r hr)⟩
  · simp only [views, hhead, hget, hstat, hwalk, bind, Except.bind, hread, Option.bind_some]
    rfl
  · rw [mem_listing_statistics, hst.get_of_isRef (hrefs r hr)]
    exact and_iff_right (hperm.symm.subset hr)

/-- The last content of a key has the length of the first content of its file, as an `int`. -/
def SameSize (D : Digests) (cfg : Config) (calls : List AddCall) (k : BlobKey) : Prop :=
  ∀ x ∈ lastUnder D calls k, ∀ y ∈ firstAt D cfg calls (pathOf D cfg x), int32 x.length = y.length

/-- What a run left under a key: nothing, or a record of the last content with a file that holds the
first. -/
theorem find_addBlobs {calls : List AddCall} (hrun : addBlobs D cfg .empty calls = .ok st)
    (k : BlobKey) :
    lastUnder D calls k = none ∧ st.blobs.find k = none ∨
      ∃ x y b, lastUnder D calls k = some x ∧ firstAt D cfg calls (pathOf D cfg x) = some y ∧
        st.blobs.find k = some b ∧ st.files.find b.filePath = some y ∧ b.size = int32 x.length := by
  have hblobs := find_blobs_addBlobs hrun k
  rcases hlast : lastUnder D calls k with - | x
  · refine Or.inl ⟨rfl, ?_⟩
    rw [hlast] at hblobs
    exact Option.map_eq_none_iff.1 hblobs
  · rw [hlast] at hblobs
    obtain ⟨b, hb, heq⟩ := Option.map_eq_some_iff.1 hblobs
    obtain ⟨hpath, hsize⟩ := Prod.mk.inj heq
    have hmem : x ∈ accepted D calls := List.mem_reverse.1 (List.mem_of_find?_eq_some hlast)
    have hfirst : (firstAt D cfg calls (pathOf D cfg x)).isSome :=
      List.find?_isSome.2 ⟨x, hmem, decide_eq_true rfl⟩
    obtain ⟨y, hy⟩ := Option.isSome_iff_exists.1 hfirst
    refine Or.inr ⟨x, y, b, rfl, hy, hb, ?_, hsize⟩
    rw [find_files_addBlobs hrun, hpath, hy]
    rfl

/-- The views of a name the index does not have agree. -/
theorem Views.agree_of_none {v : Views} (hhead : v.head.status = .notFound)
    (hget : v.get.status = .notFound) (hstat : ∀ n, (r, n) ∉ v.stat)
    (hlisted : ∀ n, (r, n) ∉ v.listed) : v.Agree r where
  head_get := by simp [hhead, hget]
  get_stat := by simp [hget, hstat]
  stat_listed := by simp [hstat, hlisted]
  sizes h := by
    rw [hget] at h
    cases h

/-- The views of a name the index has agree if the size is the length. -/
theorem Views.agree_iff_of_some {v : Views} {n : ℤ} {y : Bytes} (hhead : v.head.status = .ok)
    (hlength : Http.getHeader v.head.headers (lit "Content-Length") = decimalInt n)
    (hget : v.get.status = .ok) (hcontent : v.get.content = y)
    (hstat : ∀ m, (r, m) ∈ v.stat ↔ n = m) (hlisted : ∀ m, (r, m) ∈ v.listed ↔ n = m) :
    v.Agree r ↔ n = y.length := by
  constructor
  · intro h
    have hsize := ((h.sizes hget).2.1 n ((hstat n).2 rfl))
    rwa [hcontent] at hsize
  · intro hn
    refine ⟨by simp [hhead, hget], by simp [hget, hstat], by simp [hstat, hlisted], fun _ ↦ ?_⟩
    rw [hlength, hcontent, decimalInt_eq_decimal_iff]
    refine ⟨hn, fun m hm ↦ ?_, fun m hm ↦ ?_⟩
    · rw [← (hstat m).1 hm, hn]
    · rw [← (hlisted m).1 hm, hn]

section Run

variable {calls : List AddCall} (hrun : addBlobs D cfg .empty calls = .ok st) (post : Bool)
  (refs : List Bytes) (hrefs : ∀ q ∈ refs, isRef q = true) (hr : r ∈ refs)

include hrun hrefs hr

/-- A reference that reaches the handlers of single blobs. -/
theorem agree_iff_sameSize (R : Json.Reader) (env : Environment) (base : Http.Request)
    (hplain : Http.getHeader base.headers (lit "Accept-Encoding") = [])
    (hpre : (lit "stat").isPrefixOf r = false) :
    ∃ v, views R D cfg env base st post refs r = .ok (some v) ∧
      (v.Agree r ↔ SameSize D cfg calls (refKey r)) := by
  have hst : st.Standard := Reachable.standard ⟨calls, hrun⟩
  have href := hrefs r hr
  have hname : IsName r := ⟨(isRefText_of_isRef href).bytes, hpre, not_enumerate_of_isRef href⟩
  have hlookup : st.get ((47 :: r).drop 1) = st.blobs.find (refKey r) := hst.get_of_isRef href
  obtain ⟨v, head, get, hhead, hget, hviews, hvhead, hvget, hstat, hlisted⟩ :=
    exists_views R D cfg env base hst post hrefs hr
  rw [handleRequest_head D cfg env rfl hname rfl] at hhead
  rw [handleRequest_get D cfg env rfl hname rfl] at hget
  rw [← Except.ok.inj hhead] at hvhead
  rw [← Except.ok.inj hget] at hvget
  refine ⟨v, hviews, ?_⟩
  rcases find_addBlobs hrun (refKey r) with
    ⟨hlast, hnone⟩ | ⟨x, y, b, hlast, hfirst, hb, hfile, hsize⟩
  · -- no such key: nothing is found in any of the four ways
    refine iff_of_true (Views.agree_of_none ?_ ?_ ?_ ?_) ?_
    · simp only [hvhead, handleCheck, hlookup, hnone]
      rfl
    · simp only [hvget, handleGet, hlookup, hnone]
      rfl
    · simp [hstat, hnone]
    · simp [hlisted, hnone]
    · intro x hx
      rw [hlast] at hx
      cases hx
  · -- three views show the record of `x`, and `GET` shows the file of `y`
    have hno : compressOutput (Http.getHeader (blobRequest base (lit "GET") r).headers
        (lit "Accept-Encoding")) = none := by
      rw [blobRequest, hplain]
      rfl
    have hgetReply : v.get = .withContent .ok y "application/octet-stream" := by
      simp only [hvget, handleGet, hlookup, hb, hfile, hno]
    have hheadReply : v.head = ⟨.ok, [⟨lit "Content-Length", decimalInt b.size⟩,
        ⟨lit "Content-Type", lit "application/octet-stream"⟩], []⟩ := by
      simp only [hvhead, handleCheck, hlookup, hb]
    have hsame : SameSize D cfg calls (refKey r) ↔ b.size = y.length := by
      simp [SameSize, hlast, hfirst, hsize]
    rw [hsame]
    refine Views.agree_iff_of_some (by rw [hheadReply]) ?_ (by rw [hgetReply]; rfl)
      (by rw [hgetReply]; rfl) (fun m ↦ ?_) fun m ↦ ?_
    · rw [hheadReply]
      rfl
    · rw [hstat, hb]
      simp
    · rw [hlisted, hb]
      simp

/-- A reference that is taken for a stat request: its path answers 200, and no key has such a
type. -/
theorem not_agree_of_stat (R : Json.Reader) (env : Environment) (base : Http.Request)
    (hpre : (lit "stat").isPrefixOf r = true) :
    ∃ v, views R D cfg env base st post refs r = .ok (some v) ∧ ¬v.Agree r := by
  have hst : st.Standard := Reachable.standard ⟨calls, hrun⟩
  have href := hrefs r hr
  obtain ⟨v, head, get, -, hget, hviews, -, hvget, hstat, -⟩ :=
    exists_views R D cfg env base hst post hrefs hr
  refine ⟨v, hviews, fun hagree ↦ ?_⟩
  rw [handleRequest_of_stat _ (isRefText_of_isRef href) hpre] at hget
  have hmethod : (blobRequest base (lit "GET") r).method = lit "GET" := rfl
  have hok : v.get.status = .ok := by
    rw [hvget, ← Except.ok.inj hget, handleStat, if_pos hmethod, if_neg (findUnsigned_ne_npos _ _)]
    rfl
  obtain ⟨n, hn⟩ := hagree.get_stat.1 hok
  obtain ⟨b, hb, -⟩ := (hstat n).1 hn
  have hcomp : (refKey r).Computed := hst _ (OrdMap.mem_keys_iff.2 ⟨b, hb⟩)
  have hnot := hcomp.isName.not_stat
  rw [blobref_refKey href, hpre] at hnot
  cases hnot

end Run

/-- **When the four views agree.** After any run of additions of non-empty contents, for every
reference and every stat request that names it. -/
theorem views_agree_iff (R : Json.Reader) (D : Digests) (cfg : Config) (env : Environment)
    (base : Http.Request) (hplain : Http.getHeader base.headers (lit "Accept-Encoding") = [])
    (calls : List AddCall) (hne : ∀ c ∈ calls, c.bytes ≠ []) (post : Bool) (refs : List Bytes)
    (hrefs : ∀ q ∈ refs, isRef q = true) (r : Bytes) (hr : r ∈ refs) :
    ∃ st v, addBlobs D cfg .empty calls = .ok st ∧
      views R D cfg env base st post refs r = .ok (some v) ∧
      (v.Agree r ↔ (lit "stat").isPrefixOf r = false ∧ SameSize D cfg calls (refKey r)) := by
  obtain ⟨st, hrun⟩ := exists_addBlobs_eq_ok D cfg hne .empty
  rcases hpre : (lit "stat").isPrefixOf r with - | -
  · obtain ⟨v, hviews, hagree⟩ :=
      agree_iff_sameSize hrun post refs hrefs hr R env base hplain hpre
    exact ⟨st, v, hrun, hviews, hagree.trans (and_iff_right rfl).symm⟩
  · obtain ⟨v, hviews, hnot⟩ := not_agree_of_stat hrun post refs hrefs hr R env base hpre
    exact ⟨st, v, hrun, hviews, iff_of_false hnot fun h ↦ by cases h.1⟩

end Agreement

/-- The content `a`, uploaded twice. -/
theorem views_agree_a_a : ∃ st v,
    addBlobs Digests.sample {} .empty [⟨none, [97]⟩, ⟨none, [97]⟩] = .ok st ∧
      views Json.plainReader Digests.sample {} ⟨true, fun _ ↦ none, fun _ s ↦ s⟩
        ⟨[], [], 1, 1, [], []⟩ st true [keyOfA.blobref] keyOfA.blobref = .ok (some v) ∧
      v.Agree keyOfA.blobref := by
  obtain ⟨st, v, hrun, hviews, hagree⟩ := views_agree_iff Json.plainReader Digests.sample {}
    ⟨true, fun _ ↦ none, fun _ s ↦ s⟩ ⟨[], [], 1, 1, [], []⟩ rfl [⟨none, [97]⟩, ⟨none, [97]⟩]
    (by decide) true [keyOfA.blobref] (by decide) keyOfA.blobref List.mem_cons_self
  refine ⟨st, v, hrun, hviews, hagree.2 ⟨by decide, fun x hx y hy ↦ ?_⟩⟩
  have hall : ∀ x ∈ accepted Digests.sample [⟨none, [97]⟩, ⟨none, [97]⟩], x = [97] := by decide
  rw [hall x (List.mem_reverse.1 (List.mem_of_find?_eq_some hx)),
    hall y (List.mem_of_find?_eq_some hy)]
  rfl

/-- The content `a`, and then `a NUL b`, which has the same digests here: the record has size 3, the
file one byte. -/
theorem not_views_agree_a_nul : ∃ st v,
    addBlobs Digests.sample {} .empty [⟨none, [97]⟩, ⟨none, [97, 0, 98]⟩] = .ok st ∧
      views Json.plainReader Digests.sample {} ⟨true, fun _ ↦ none, fun _ s ↦ s⟩
        ⟨[], [], 1, 1, [], []⟩ st true [keyOfA.blobref] keyOfA.blobref = .ok (some v) ∧
      ¬v.Agree keyOfA.blobref := by
  have hne : ∀ c ∈ [(⟨none, [97]⟩ : AddCall), ⟨none, [97, 0, 98]⟩], c.bytes ≠ [] := by decide
  obtain ⟨st, hrun⟩ := exists_addBlobs_eq_ok Digests.sample {} hne .empty
  obtain ⟨v, hviews, hagree⟩ := agree_iff_sameSize hrun true [keyOfA.blobref]
    (r := keyOfA.blobref) (by decide) List.mem_cons_self Json.plainReader
    ⟨true, fun _ ↦ none, fun _ s ↦ s⟩ ⟨[], [], 1, 1, [], []⟩ rfl (by decide)
  refine ⟨st, v, hrun, hviews, fun h ↦ ?_⟩
  have hsame := hagree.1 h
  rw [computed_keyOfA.refKey_blobref] at hsame
  exact absurd (hsame [97, 0, 98] (by decide) [97] (by decide)) (by decide)

end Camlispp
