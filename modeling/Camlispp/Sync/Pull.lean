import Camlispp.Sync.Enumeration
import Camlispp.Sync.Host

/-!
# Pull replication

The get phase against a peer that runs this same server. The peer's answers are known exactly: a
page of its keys for an enumeration (`answer_enumerate`), and the file behind a key for a blob
(`answer_blob`). The phase then is the paging of `Paging` over the peer's keys, with one step for
every key: `PullInvariant` says what such a step has to keep, and its `exists_getPhase` what then
holds of the whole phase. Here the step leaves the local index with the key (`Pulled.fetchMissing`).

## What the result rests on

* `answer_enumerate` and `answer_blob` are requests through the whole handler of the peer.
* `exists_serves`: over strings without collisions there is behind every key a file that is a
  content of it.
* `fetchMissing_new`: so a blob that is fetched passes the test in `add_blob`, which compares the
  reference it was asked for with its own, and is taken in.
* `getPhase_converges` is then `exists_getPhase`, by induction on the pages of the peer's keys.

The peer does not change during the phase. What a changing or hostile peer can do is said in
`Termination` and `Provenance`.
-/

open Bytes Paging

namespace Camlispp

variable {σ : Type} {R : Json.Read} {D : Digests} {cfg : Config} {env : Environment}

/-! ### The peer's answers -/

section Answers

variable (peer : Peer σ) {s : σ}

theorem Peer.answer_enumerate {c : Option BlobKey} {t : Option Bytes} (h : CursorText c t) :
    peer.answer D s (peer.request (enumerateUri t) none) =
      some ((enumeration ((peer.store s).paginate t 26)).write ++ crlf) := by
  exact peer.answer_eq D (handleRequest_enumerate D peer.cfg peer.env
    ⟨[], [], 1, 1, peer.headers none, []⟩ (peer.store s) h)

theorem Peer.answer_blob {k : BlobKey} (hk : k.Computed) {b : Blob} {y : Bytes}
    (hb : (peer.store s).blobs.find k = some b)
    (hy : (peer.store s).files.find b.filePath = some y) :
    peer.answer D s (peer.request (47 :: k.blobref) none) = some y := by
  have hget : (peer.store s).get ((47 :: k.blobref).drop 1) = some b := by
    rw [List.drop_one, List.tail_cons, hk.get_blobref, hb]
  have hplain : compressOutput (Http.getHeader (peer.headers none) (lit "Accept-Encoding")) =
      none := by
    rw [peer.headers_plain]
    rfl
  rw [Peer.answer, handleRequest_get D peer.cfg peer.env (r := k.blobref) rfl hk.isName rfl]
  simp only [handleGet, hget, hy, Peer.request, hplain]
  rfl

theorem buildEnumerationUrl_eq (host : Bytes) {c : Option BlobKey} {t : Option Bytes}
    (h : CursorText c t) : buildEnumerationUrl host (t.getD []) = host ++ enumerateUri t := by
  cases h with
  | none => simp [buildEnumerationUrl, enumerateUri]
  | @some k hk =>
    have hpos : k.blobref.length > 0 := List.length_pos_of_ne_nil (blobref_ne_nil k)
    rw [buildEnumerationUrl, Option.getD_some, if_pos hpos, List.append_assoc]
    rfl

theorem buildBlobUrl_eq {host : Bytes} (hhost : (lit "/").isSuffixOf host = false) (r : Bytes) :
    buildBlobUrl host r = host ++ 47 :: r := by
  rw [buildBlobUrl, hhost]
  simp [lit]

end Answers

/-! ### What a key's file holds -/

/-- The store has a file `y` behind the key, whose own keys it has too. -/
structure Store.Serves (D : Digests) (st : Store) (k : BlobKey) (y : Bytes) : Prop where
  computed : k.Computed
  entry : ∃ b, st.blobs.find k = some b ∧ st.files.find b.filePath = some y
  ne_nil : y ≠ []
  mem : k ∈ blobKeys D y
  keys : ∀ k' ∈ blobKeys D y, k' ∈ st.blobs.keys

/-- After a run over collision-free strings, there is a file behind every key. -/
theorem exists_serves {calls : List AddCall} {st : Store}
    (hrun : addBlobs D cfg .empty calls = .ok st) (hcf : D.CollisionFree (digested calls))
    {k : BlobKey} (hk : k ∈ st.blobs.keys) : ∃ y, st.Serves D k y := by
  obtain ⟨past, hrec, hmem⟩ := recorded_addBlobs hrun
  obtain ⟨b, hb⟩ := OrdMap.mem_keys_iff.1 hk
  obtain ⟨x, hx, y, hy, hkx, -, -, hfile, hcs⟩ := hrec.exists_file hcf (fun x hx ↦ by
    obtain ⟨c, hc, -, rfl⟩ := (hmem x).1 hx
    exact ⟨c, hc, rfl⟩) hb
  exact ⟨y, computed_of_mem_blobKeys hkx, ⟨b, hb, hfile⟩, hrec.ne_nil y hy,
    blobKeys_eq_of_cString_eq hcs ▸ hkx, hrec.keys y hy⟩

/-- A content passes the check under its own keys and no other. -/
theorem providedHashOk_blobref_iff {k : BlobKey} (hk : k.Computed) {y : Bytes} :
    providedHashOk (blobKeys D y) (some k.blobref) = true ↔ k ∈ blobKeys D y := by
  rw [providedHashOk, Bool.and_eq_true, List.any_eq_true]
  constructor
  · rintro ⟨-, j, hj, heq⟩
    have hjk := (computed_of_mem_blobKeys hj).eq_of_blobref hk (of_decide_eq_true heq)
    exact hjk ▸ hj
  · exact fun hmem ↦ ⟨createBlobKey_isSome _, k, hmem, by simp⟩

theorem addBlob_own_key {k : BlobKey} {y : Bytes} (hy : y ≠ []) (hk : k ∈ blobKeys D y)
    (st : Store) : addBlob D cfg st (some k.blobref) y =
      .ok (some (recordOf D cfg st.allocated y), st.stored D cfg y) := by
  have hok := (providedHashOk_blobref_iff (computed_of_mem_blobKeys hk)).2 hk
  rw [addBlob_eq, if_neg hy, if_pos hok]

/-! ### One reference -/

/-- What holds while the phase runs: the local keys are the old ones and those of the downloaded
contents, each content came from the peer, once, and was kept. -/
structure Pulled (D : Digests) (old peer : Store) (x : Syncing σ) : Prop where
  keys : ∀ k, k ∈ x.store.blobs.keys ↔
    k ∈ old.blobs.keys ∨ ∃ d ∈ x.downloads, k ∈ blobKeys D d.content
  served : ∀ d ∈ x.downloads, d.kept = true ∧
    ∃ k, d.blobRef = k.blobref ∧ peer.Serves D k d.content
  once : (x.downloads.map Download.content).Nodup

theorem Pulled.fetched {old pst : Store} {x : Syncing σ} (hx : Pulled D old pst x) (world : σ)
    (url : Bytes) (postbody : Option Bytes) (s : σ) :
    Pulled D old pst ⟨world, x.store, x.log ++ [.fetched url postbody s]⟩ := by
  have hlog : Syncing.downloads ⟨world, x.store, x.log ++ [.fetched url postbody s]⟩ =
      x.downloads := by
    rw [Syncing.downloads, List.filterMap_append]
    exact List.append_nil _
  exact ⟨by rw [hlog]; exact hx.keys, by rw [hlog]; exact hx.served, by rw [hlog]; exact hx.once⟩

/-- Keeping a content the peer serves under a new key. -/
theorem Pulled.stored {old pst : Store} {x x' : Syncing σ} (hx : Pulled D old pst x)
    {k : BlobKey} {y : Bytes} (hk : pst.Serves D k y) (hnew : k ∉ x.store.blobs.keys)
    (hstore : x'.store = x.store.stored D cfg y)
    (hlog : x'.downloads = x.downloads ++ [⟨k.blobref, y, true⟩]) : Pulled D old pst x' where
  keys := by
    intro j
    rw [hstore, mem_keys_stored, hx.keys, hlog]
    simp only [List.mem_append, List.mem_singleton, or_and_right, exists_or, exists_eq_left]
    rw [or_comm, or_assoc]
  served := by
    intro d hd
    rw [hlog, List.mem_append, List.mem_singleton] at hd
    rcases hd with hd | rfl
    · exact hx.served d hd
    · exact ⟨rfl, k, rfl, hk⟩
  once := by
    rw [hlog, List.map_append, List.map_singleton, List.nodup_append]
    refine ⟨hx.once, List.nodup_singleton _, fun z hz z' hz' heq ↦ hnew ?_⟩
    -- an earlier download of the same content would have brought the key
    obtain ⟨d, hd, rfl⟩ := List.mem_map.1 hz
    rw [List.mem_singleton.1 hz'] at heq
    exact (hx.keys k).2 (Or.inr ⟨d, hd, heq ▸ hk.mem⟩)

section Pulling

variable (cfg env) {host : Bytes} (hhost : (lit "/").isSuffixOf host = false) {peer : Peer σ}

include hhost

variable (peer) in
/-- A reference that is missing is fetched, and its file given to `add_blob`. -/
theorem fetchMissing_missing {x : Syncing σ} {k : BlobKey} (hk : k.Computed) {b : Blob} {y : Bytes}
    (hb : (peer.store x.world).blobs.find k = some b)
    (hy : (peer.store x.world).files.find b.filePath = some y)
    (hnew : x.store.get k.blobref = none) :
    fetchMissing D cfg env (peer.world D host) host x k.blobref =
      (addBlob D cfg x.store (some k.blobref) y >>= fun r ↦ .ok
        ⟨peer.next x.world (peer.request (47 :: k.blobref) none), r.2,
          x.log ++ [.fetched (host ++ 47 :: k.blobref) none x.world] ++
            [.added ⟨k.blobref, y, r.1.isSome⟩]⟩) := by
  have hreply := peer.answer_blob (D := D) hk hb hy
  simp only [fetchMissing, peer.serveOthers_world, bind, Except.bind, hnew, fetchBlob,
    buildBlobUrl_eq hhost, peer.fetchUrl_world, hreply]

omit hhost in
theorem fetchMissing_found {x : Syncing σ} {ref : Bytes} {b : Blob}
    (hget : x.store.get ref = some b) :
    fetchMissing D cfg env (peer.world D host) host x ref = .ok x := by
  simp only [fetchMissing, peer.serveOthers_world, bind, Except.bind, hget]

theorem fetchMissing_new {x : Syncing σ} {k : BlobKey} {y : Bytes}
    (hk : (peer.store x.world).Serves D k y) (hnew : x.store.get k.blobref = none) :
    fetchMissing D cfg env (peer.world D host) host x k.blobref = .ok
      ⟨peer.next x.world (peer.request (47 :: k.blobref) none), x.store.stored D cfg y,
        x.log ++ [.fetched (host ++ 47 :: k.blobref) none x.world] ++
          [.added ⟨k.blobref, y, true⟩]⟩ := by
  obtain ⟨b, hb, hfile⟩ := hk.entry
  rw [fetchMissing_missing cfg env hhost peer hk.computed hb hfile hnew,
    addBlob_own_key hk.ne_nil hk.mem]
  rfl

/-- **One reference of a page.** Afterwards its key is in the local index. -/
theorem Pulled.fetchMissing {old pst : Store} {x : Syncing σ} (hx : Pulled D old pst x)
    (hpeer : peer.store x.world = pst) {k : BlobKey} {y : Bytes} (hk : pst.Serves D k y) :
    ∃ x', Camlispp.fetchMissing D cfg env (peer.world D host) host x k.blobref = .ok x' ∧
      Pulled D old pst x' ∧ k ∈ x'.store.blobs.keys ∧ x.store.Extends x'.store := by
  have hget := hk.computed.get_blobref x.store
  rcases hfound : x.store.get k.blobref with - | b
  · refine ⟨_, fetchMissing_new cfg env hhost (hpeer ▸ hk) hfound, ?_, ?_, .stored x.store y⟩
    · refine hx.stored hk (OrdMap.find_eq_none_iff.1 (hget ▸ hfound)) rfl ?_
      rw [Syncing.downloads, List.append_assoc, List.filterMap_append]
      rfl
    · exact mem_keys_stored.2 (Or.inl hk.mem)
  · exact ⟨x, fetchMissing_found cfg env hfound, hx,
      OrdMap.mem_keys_iff.2 ⟨b, hget ▸ hfound⟩, .refl x.store⟩

end Pulling

/-! ### All pages -/

/-- What the get phase keeps, as long as the peer has the store `pst`, and the keys it takes in. -/
structure PullInvariant (D : Digests) (cfg : Config) (env : Environment) (peer : Peer σ)
    (host : Bytes) (pst : Store) (P : Syncing σ → Prop) (S : Set BlobKey) : Prop where
  store : ∀ {x}, P x → peer.store x.world = pst
  fetched : ∀ {x} (url : Bytes), P x → P (fetchUrl (peer.world D host) x url none).2
  missing : ∀ {x k}, P x → k ∈ pst.blobs.keys →
    ∃ x', fetchMissing D cfg env (peer.world D host) host x k.blobref = .ok x' ∧ P x' ∧
      (k ∈ S → k ∈ x'.store.blobs.keys) ∧ x.store.Extends x'.store

namespace PullInvariant

variable {peer : Peer σ} {host : Bytes} {pst : Store} {P : Syncing σ → Prop} {S : Set BlobKey}
  (h : PullInvariant D cfg env peer host pst P S)

include h

/-- **One page.** -/
theorem foldlM_fetchMissing {ks : List BlobKey} (hks : ∀ k ∈ ks, k ∈ pst.blobs.keys) :
    ∀ {x : Syncing σ}, P x →
      ∃ x', (ks.map BlobKey.blobref).foldlM
          (Camlispp.fetchMissing D cfg env (peer.world D host) host) x = .ok x' ∧
        P x' ∧ (∀ k ∈ ks, k ∈ S → k ∈ x'.store.blobs.keys) ∧ x.store.Extends x'.store := by
  induction ks with
  | nil => exact fun {x} hx ↦ ⟨x, rfl, hx, by simp, .refl x.store⟩
  | cons k ks ih =>
    intro x hx
    obtain ⟨x₁, hx₁, hp, hmem, hext⟩ := h.missing hx (hks k List.mem_cons_self)
    obtain ⟨x₂, hx₂, hp', hmem', hext'⟩ := ih (fun j hj ↦ hks j (List.mem_cons_of_mem _ hj)) hp
    refine ⟨x₂, ?_, hp', ?_, hext.trans hext'⟩
    · rw [List.map_cons, List.foldlM_cons, hx₁]
      exact hx₂
    · intro j hj hS
      rcases List.mem_cons.1 hj with rfl | hj
      · exact hext'.keys (hmem hS)
      · exact hmem' j hj hS

/-- The phase follows the paging of the peer's keys. -/
theorem getPhase_of_pages (R : Json.Reader) (hstd : pst.Standard) :
    ∀ {fuel i : ℕ} {c : Option BlobKey} {t : Option Bytes} {ps : List (List BlobKey)}
      {x : Syncing σ}, pages 25 (fun _ ↦ pst.blobs.keys) fuel i c = some ps → CursorText c t →
      P x →
      ∃ x', getPhase R D cfg env (peer.world D host) host fuel x (t.getD []) = .ok (some x') ∧
        P x' ∧ (∀ k ∈ ps.flatten, k ∈ S → k ∈ x'.store.blobs.keys) ∧
          x.store.Extends x'.store := by
  intro fuel
  induction fuel with
  | zero => exact fun h ↦ by cases h
  | succ fuel ih =>
    intro i c t ps x hps ht hx
    have hparse := parseSyncEnumeration_page R hstd ht
    have hpage : ∀ k ∈ (bounded c pst.blobs.keys).take 25, k ∈ pst.blobs.keys := fun k hk ↦
      (bounded_suffix c _).subset (List.mem_of_mem_take hk)
    have hfetch := peer.fetchUrl_world D host (enumerateUri t) x none
    have hx₀ := h.fetched (host ++ enumerateUri t) hx
    rw [hfetch] at hx₀
    obtain ⟨x₁, hx₁, hp, hmem, hext⟩ := h.foldlM_fetchMissing hpage hx₀
    have hstep : getPhase R D cfg env (peer.world D host) host (fuel + 1) x (t.getD []) =
        ((page 25 c pst.blobs.keys).2.map BlobKey.blobref).elim (.ok (some x₁))
          (getPhase R D cfg env (peer.world D host) host fuel x₁) := by
      simp only [getPhase, buildEnumerationUrl_eq host ht, hfetch, peer.answer_enumerate ht,
        h.store hx, hparse, bind, Except.bind, page, hx₁]
      rcases (bounded c pst.blobs.keys)[25]? with - | c'
      · rfl
      · rfl
    rw [hstep]
    rcases hc : (bounded c pst.blobs.keys)[25]? with - | c'
    · -- the last page
      rw [pages_last hc] at hps
      obtain rfl := Option.some.inj hps
      rw [page, hc]
      exact ⟨x₁, rfl, hp, by simpa using hmem, hext⟩
    · rw [pages_more hc] at hps
      obtain ⟨rest, hrest, rfl⟩ := Option.map_eq_some_iff.1 hps
      have hc' : c'.Computed := hstd c' ((bounded_suffix c _).subset (List.mem_of_getElem? hc))
      obtain ⟨x₂, hx₂, hp', hmem', hext'⟩ := ih hrest (.some hc') hp
      rw [page, hc]
      refine ⟨x₂, hx₂, hp', fun k hk hS ↦ ?_, hext.trans hext'⟩
      rcases List.mem_append.1 hk with hk | hk
      · exact hext'.keys (hmem k hk hS)
      · exact hmem' k hk hS

/-- **All pages**: the phase comes to its end, and takes in what it can. -/
theorem exists_getPhase (R : Json.Reader) (hstd : pst.Standard) {x : Syncing σ} (hx : P x) :
    ∃ fuel x', getPhase R D cfg env (peer.world D host) host fuel x [] = .ok (some x') ∧ P x' ∧
      (∀ k ∈ pst.blobs.keys, k ∈ S → k ∈ x'.store.blobs.keys) ∧ x.store.Extends x'.store := by
  obtain ⟨fuel, ps, hps⟩ := exists_pages (n := 25) (l := fun _ ↦ pst.blobs.keys) (by decide)
    (fun _ ↦ pst.blobs.pairwise_keys) (fun i (_ : 0 ≤ i) ↦ rfl) 0 none
  obtain ⟨-, -, -, hall, -⟩ := pages_spec (fun _ ↦ pst.blobs.pairwise_keys)
    (fun _ ↦ List.Subset.refl _) hps
  obtain ⟨x', hx', hp, hmem, hext⟩ := h.getPhase_of_pages R hstd hps .none hx
  exact ⟨fuel, x', hx', hp, fun k hk ↦ hmem k (hall k hk (by simp [NotBelow])), hext⟩

end PullInvariant

/-- What the get phase has reached: the union of the keys, by downloads of which each brought a
content the peer serves under that reference, none brought a content again, and none was refused. -/
structure Converged (old peer : Store) (x : Syncing σ) : Prop where
  keys : ∀ k, k ∈ x.store.blobs.keys ↔ k ∈ old.blobs.keys ∨ k ∈ peer.blobs.keys
  served : ∀ d ∈ x.downloads,
    ∃ b, peer.get d.blobRef = some b ∧ peer.files.find b.filePath = some d.content
  once : (x.downloads.map Download.content).Nodup
  kept : ∀ d ∈ x.downloads, d.kept = true

/-- **Pull replication converges**: from any local store, against any peer whose store was reached
by additions and does not change. -/
theorem getPhase_converges (R : Json.Reader) (D : Digests) (cfg : Config) (env : Environment)
    (peer : Peer σ) (host : Bytes) (hhost : (lit "/").isSuffixOf host = false)
    (calls : List AddCall) (pst : Store) (hrun : addBlobs D peer.cfg .empty calls = .ok pst)
    (hcf : D.CollisionFree (digested calls)) (hpeer : ∀ s, peer.store s = pst) (s : σ)
    (old : Store) :
    ∃ fuel x, getPhase R D cfg env (peer.world D host) host fuel ⟨s, old, []⟩ [] = .ok (some x) ∧
      Converged old pst x := by
  have hstd : pst.Standard := Reachable.standard ⟨calls, hrun⟩
  have hinv : PullInvariant D cfg env peer host pst (Pulled D old pst) Set.univ := by
    refine ⟨fun _ ↦ hpeer _, fun url hx ↦ hx.fetched _ _ _ _, fun hx hk ↦ ?_⟩
    obtain ⟨y, hy⟩ := exists_serves hrun hcf hk
    obtain ⟨x', hx', hpulled, hmem, hext⟩ := hx.fetchMissing cfg env hhost (hpeer _) hy
    exact ⟨x', hx', hpulled, fun _ ↦ hmem, hext⟩
  have hstart : Pulled D old pst (⟨s, old, []⟩ : Syncing σ) :=
    ⟨by simp [Syncing.downloads], by simp [Syncing.downloads], by simp [Syncing.downloads]⟩
  obtain ⟨fuel, x, hx, hpulled, hmem, hext⟩ := hinv.exists_getPhase R hstd hstart
  refine ⟨fuel, x, hx, fun k ↦ ⟨fun hk ↦ ?_, ?_⟩, fun d hd ↦ ?_, hpulled.once,
    fun d hd ↦ (hpulled.served d hd).1⟩
  -- a key that came with a download is a key of the peer, since the peer has all keys of its files
  · rcases (hpulled.keys k).1 hk with hk | ⟨d, hd, hk⟩
    · exact Or.inl hk
    · obtain ⟨-, j, -, hserved⟩ := hpulled.served d hd
      exact Or.inr (hserved.keys k hk)
  · rintro (hk | hk)
    · exact hext.keys hk
    · exact hmem k hk (Set.mem_univ k)
  · obtain ⟨-, j, hj, hserved⟩ := hpulled.served d hd
    obtain ⟨b, hb, hfile⟩ := hserved.entry
    exact ⟨b, by rw [hj, hserved.computed.get_blobref, hb], hfile⟩

/-- A peer that holds `a`, and a local store that holds `b`. -/
theorem getPhase_converges_a : ∃ fuel x,
    getPhase Json.plainReader Digests.sample {} ⟨true, fun _ ↦ none, fun _ s ↦ s⟩
        ((Peer.fixed (Store.empty.stored Digests.sample {} [97])).world Digests.sample
          (lit "http://peer:8080")) (lit "http://peer:8080") fuel
        ⟨(), Store.empty.stored Digests.sample {} [98], []⟩ [] = .ok (some x) ∧
      Converged (Store.empty.stored Digests.sample {} [98])
        (Store.empty.stored Digests.sample {} [97]) x := by
  refine getPhase_converges Json.plainReader Digests.sample {} ⟨true, fun _ ↦ none, fun _ s ↦ s⟩
    _ _ (by decide) [⟨none, [97]⟩] _ ?_ ?_ (fun _ ↦ rfl) () _
  · rw [addBlobs, addBlob_none (by decide)]
    rfl
  · have hset : digested [⟨none, [97]⟩] = {[97]} := by
      ext x
      simp [digested, cString]
    rw [hset]
    exact ⟨Set.injOn_singleton _ _, Set.injOn_singleton _ _⟩

end Camlispp
