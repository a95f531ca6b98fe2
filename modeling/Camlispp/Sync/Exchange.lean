import Camlispp.Store.Archive
import Camlispp.Sync.Slash

/-!
# Two servers in sync

`sync_host` between two servers, as an operation on the sets of contents they hold. The get phase
takes in the peer's set (`archives_getPhase`). The send phase gives the peer the local set, as far
as the contents can be delivered (`archives_sendPhase`): an upload with a byte that is not 7-bit is
not read as a form, one that is longer than 16 MiB is refused by the peer's parser, and both are
lost without a word.

So in the mode `get_and_send`, which is the default, both hold the union afterwards if the local
contents can be delivered, and a second sync has nothing left to do (`sync_settles`).

## What the results rest on

* `Separate`: no two of the contents on either side have a digest in common. Then a store that is
  made by additions **is** the set of its contents (`Store.Archives`), whatever their order was.
  Without it the keys would not say what the files hold, and "the union" would depend on who came
  first.
* `archives_getPhase` is the loop rule of `Pull` with an invariant that gives bounds on the set from
  both sides; that the lower bound is reached is a matter of keys only.
* `archives_sendPhase` is an induction on the offers of `Push`. A content is on one page under each
  of its keys, and one delivery is enough; what the peer has by then it does not have to be sent.
* `sync_settles` needs the two phases twice. The second time they find nothing new, and then the
  stores themselves are unchanged, not only their sets.
-/

open Bytes

namespace Camlispp

variable {D : Digests} {cfg pcfg : Config} {env penv : Environment} {curl : Curl} {host : Bytes}
  {st pst : Store} {S T : Set Bytes}

/-! ### Stores of a set, as the phases see them -/

theorem Store.Archives.standard (h : st.Archives D cfg S) : st.Standard := fun k hk ↦ by
  obtain ⟨x, -, hkx⟩ := h.mem_keys_iff.1 hk
  exact computed_of_mem_blobKeys hkx

/-- The file behind a key is the content of that key. -/
theorem Store.Archives.fileOf_eq_some_iff (h : st.Archives D cfg S) (hS : Separate D S)
    {k : BlobKey} {y : Bytes} : st.fileOf k = some y ↔ y ∈ S ∧ k ∈ blobKeys D y := by
  have hcat : st.fileOf k = (st.catalog.find k).bind Prod.snd := by
    rw [Store.fileOf, Store.catalog, OrdMap.find_mapValues, Option.bind_map]
    rfl
  rw [hcat, Option.bind_eq_some_iff]
  constructor
  · rintro ⟨v, hv, hy⟩
    obtain ⟨x, hx, hk, rfl⟩ := (h.find_catalog_iff hS).1 hv
    obtain rfl := Option.some.inj hy
    exact ⟨hx, hk⟩
  · rintro ⟨hy, hk⟩
    exact ⟨_, (h.find_catalog_iff hS).2 ⟨y, hy, hk, rfl⟩, rfl⟩

theorem Store.Archives.exists_serves (h : st.Archives D cfg S) (hS : Separate D S) {k : BlobKey}
    (hk : k ∈ st.blobs.keys) : ∃ y ∈ S, st.Serves D k y := by
  obtain ⟨y, hy, hky⟩ := h.mem_keys_iff.1 hk
  obtain ⟨b, hb, hfile⟩ := Option.bind_eq_some_iff.1 ((h.fileOf_eq_some_iff hS).2 ⟨hy, hky⟩)
  exact ⟨y, hy, computed_of_mem_blobKeys hky, ⟨b, hb, hfile⟩, h.ne_nil hy, hky,
    fun k' hk' ↦ h.mem_keys_iff.2 ⟨y, hy, hk'⟩⟩

/-! ### The get phase -/

variable (env penv curl) in
/-- **The get phase takes in the peer's contents**, and leaves the peer as it is. -/
theorem archives_getPhase (R : Json.Reader) (hhost : (lit "/").isSuffixOf host = false)
    (hst : st.Archives D cfg S) (hpst : pst.Archives D pcfg T) (hsep : Separate D (S ∪ T)) :
    ∃ fuel x, getPhase R D cfg env ((curl.server D pcfg penv host).world D host) host fuel
        ⟨pst, st, []⟩ [] = .ok (some x) ∧ x.world = pst ∧ x.store.Archives D cfg (S ∪ T) := by
  have hT : Separate D T := hsep.mono Set.subset_union_right
  have hinv : PullInvariant D cfg env (curl.server D pcfg penv host) host pst
      (fun x ↦ x.world = pst ∧ ∃ S', S ⊆ S' ∧ S' ⊆ S ∪ T ∧ x.store.Archives D cfg S')
      Set.univ := by
    refine ⟨fun hx ↦ hx.1, fun {x} url hx ↦ ⟨(fetchUrl_server x url).trans hx.1, hx.2⟩, ?_⟩
    rintro x k ⟨rfl, S', hlower, hupper, harch⟩ hk
    obtain ⟨y, hy, hserves⟩ := hpst.exists_serves hT hk
    have hpeer : ((curl.server D pcfg penv host).store x.world).Serves D k y := hserves
    have hget := hserves.computed.get_blobref x.store
    rcases hfound : x.store.get k.blobref with - | b
    · refine ⟨_, fetchMissing_new cfg env hhost hpeer hfound,
        ⟨storeAfter_get _ rfl, insert y S', ?_, ?_, harch.stored hserves.ne_nil⟩,
        fun _ ↦ mem_keys_stored.2 (Or.inl hserves.mem), .stored x.store y⟩
      · exact hlower.trans (Set.subset_insert y S')
      · exact Set.insert_subset (Or.inr hy) hupper
    · exact ⟨x, fetchMissing_found cfg env hfound, ⟨rfl, S', hlower, hupper, harch⟩,
        fun _ ↦ OrdMap.mem_keys_iff.2 ⟨b, hget ▸ hfound⟩, .refl x.store⟩
  obtain ⟨fuel, x, hrun, ⟨hworld, S', hlower, hupper, harch⟩, hmem, -⟩ :=
    hinv.exists_getPhase R hpst.standard (x := ⟨pst, st, []⟩)
      ⟨rfl, S, subset_rfl, Set.subset_union_left, hst⟩
  refine ⟨fuel, x, hrun, hworld, harch.congr (hupper.antisymm (Set.union_subset hlower ?_))⟩
  intro y hy
  have hkey : blobKeyOf D y .sha1 ∈ blobKeys D y := List.mem_cons_self
  exact harch.mem_of_key hsep hupper (Or.inr hy) hkey
    (hmem _ (hpst.mem_keys_iff.2 ⟨y, hy, hkey⟩) (Set.mem_univ _))

/-! ### The send phase -/

/-- The contents that survive an upload under one of their references. -/
def Curl.deliverable (curl : Curl) (D : Digests) : Set Bytes :=
  {y | ∃ k ∈ blobKeys D y, curl.Delivers k.blobref y}

section Sending

variable (hst : st.Archives D cfg S) (hS : Separate D S)

include hst hS

theorem Store.Archives.exists_fileOf {k : BlobKey} (hk : k ∈ st.blobs.keys) :
    ∃ y, st.fileOf k = some y ∧ y ≠ [] := by
  obtain ⟨y, hy, hky⟩ := hst.mem_keys_iff.1 hk
  exact ⟨y, (hst.fileOf_eq_some_iff hS).2 ⟨hy, hky⟩, hst.ne_nil hy⟩

/-- The uploads of a round: the peer holds what could be delivered under the references. -/
theorem archives_uploads {refs : List Bytes}
    (hrefs : ∀ r ∈ refs, ∃ k ∈ st.blobs.keys, r = k.blobref) {s : Store}
    (hs : s.Archives D pcfg T) :
    ((curl.server D pcfg penv host).uploads host st s refs).Archives D pcfg
      (T ∪ {y | ∃ k, k.blobref ∈ refs ∧ k ∈ st.blobs.keys ∧ st.fileOf k = some y ∧
        curl.Delivers k.blobref y}) := by
  have hfile := fun k hk ↦ hst.exists_fileOf hS (k := k) hk
  induction refs generalizing s T with
  | nil => exact hs.congr (by simp)
  | cons r refs ih =>
    obtain ⟨k, hk, rfl⟩ := hrefs r List.mem_cons_self
    obtain ⟨y, hy, hne⟩ := hfile k hk
    have hstd := hst.standard
    rw [uploads_cons hstd hfile hk hy]
    have hrest := fun r hr ↦ hrefs r (List.mem_cons_of_mem _ hr)
    -- a reference has one key, and so one content
    have hone : ∀ j, j ∈ st.blobs.keys → j.blobref = k.blobref → ∀ z, st.fileOf j = some z →
        z = y := fun j hj hjk z hz ↦ by
      rw [(hstd j hj).eq_of_blobref (hstd k hk) hjk, hy] at hz
      exact (Option.some.inj hz).symm
    split_ifs with hdel
    · refine (ih hrest (hs.stored hne)).congr (Set.ext fun z ↦ ?_)
      simp only [Set.mem_union, Set.mem_insert_iff, Set.mem_ofPred_eq, List.mem_cons]
      constructor
      · rintro ((rfl | hz) | ⟨j, hj, hjk, hz, hzdel⟩)
        · exact Or.inr ⟨k, Or.inl rfl, hk, hy, hdel⟩
        · exact Or.inl hz
        · exact Or.inr ⟨j, Or.inr hj, hjk, hz, hzdel⟩
      · rintro (hz | ⟨j, hj | hj, hjk, hz, hzdel⟩)
        · exact Or.inl (Or.inr hz)
        · exact Or.inl (Or.inl (hone j hjk hj z hz))
        · exact Or.inr ⟨j, hj, hjk, hz, hzdel⟩
    · refine (ih hrest hs).congr (Set.ext fun z ↦ ?_)
      simp only [Set.mem_union, Set.mem_ofPred_eq, List.mem_cons]
      refine or_congr_right (exists_congr fun j ↦ ?_)
      refine and_congr_left fun ⟨hjk, hz, hzdel⟩ ↦ ⟨Or.inr, fun hj ↦ hj.resolve_left fun heq ↦ ?_⟩
      rw [heq, hone j hjk heq z hz] at hzdel
      exact hdel hzdel

/-- **All rounds**, by induction on the offers: the peer keeps what it has, gets no more than the
local contents that can be delivered, and has those of every page that was offered. -/
theorem archives_offers (hsep : Separate D (S ∪ T)) {offers : List (Offer Store)} {s s' : Store}
    (hchain : Offers (curl.server D pcfg penv host) host st s offers s')
    (hoffers : ∀ o ∈ offers, o.Exact (curl.server D pcfg penv host) ∧
      ∀ e ∈ o.page, e.1 ∈ st.blobs.keys) {T' : Set Bytes} (hlower : T ⊆ T')
    (hupper : T' ⊆ T ∪ S ∩ curl.deliverable D) (hs : s.Archives D pcfg T') :
    ∃ T'', T' ⊆ T'' ∧ T'' ⊆ T ∪ S ∩ curl.deliverable D ∧ s'.Archives D pcfg T'' ∧
      ∀ o ∈ offers, ∀ e ∈ o.page, ∀ y, st.fileOf e.1 = some y →
        curl.Delivers e.1.blobref y → y ∈ T'' := by
  have hstd := hst.standard
  induction hchain generalizing T' with
  | nil s => exact ⟨T', subset_rfl, hupper, hs, by simp⟩
  | cons o h ih =>
    obtain ⟨hexact, hlocal⟩ := hoffers o List.mem_cons_self
    have hrefs : ∀ r ∈ o.sent, ∃ k ∈ st.blobs.keys, r = k.blobref := by
      intro r hr
      obtain ⟨e, he, hr, -⟩ := (hexact.mem_sent r).1 hr
      exact ⟨e.1, hlocal e he, hr⟩
    have hstat : (curl.server D pcfg penv host).next o.peer
        ((curl.server D pcfg penv host).request (lit "/stat") (some (statRequest o.page))) =
          o.peer := storeAfter_stat o.peer curl host _
    have hafter :
        ((curl.server D pcfg penv host).uploads host st o.peer o.sent).Archives D pcfg _ :=
      archives_uploads hst hS hrefs hs
    rw [← hstat] at hafter
    -- what is stored in this round are local contents
    have hupper' : T' ∪ {y | ∃ k, k.blobref ∈ o.sent ∧ k ∈ st.blobs.keys ∧ st.fileOf k = some y ∧
        curl.Delivers k.blobref y} ⊆ T ∪ S ∩ curl.deliverable D := by
      refine Set.union_subset hupper ?_
      rintro y ⟨k, -, -, hy, hdel⟩
      obtain ⟨hyS, hky⟩ := (hst.fileOf_eq_some_iff hS).1 hy
      exact Or.inr ⟨hyS, k, hky, hdel⟩
    obtain ⟨T'', hsub, hupper'', harch, hall⟩ := ih
      (fun o' ho' ↦ hoffers o' (List.mem_cons_of_mem _ ho'))
      (hlower.trans Set.subset_union_left) hupper' hafter
    refine ⟨T'', Set.subset_union_left.trans hsub, hupper'', harch, fun o' ho' e he y hy hdel ↦ ?_⟩
    rcases List.mem_cons.1 ho' with rfl | ho'
    · obtain ⟨hyS, hky⟩ := (hst.fileOf_eq_some_iff hS).1 hy
      by_cases hold : e.1 ∈ (Peer.store (curl.server D pcfg penv host) o'.peer).blobs.keys
      · -- the peer had the key, and so the content
        refine hsub (Or.inl (hs.mem_of_key hsep ?_ (Or.inl hyS) hky hold))
        exact hupper.trans (Set.union_subset Set.subset_union_right
          (Set.inter_subset_left.trans Set.subset_union_left))
      · exact hsub (Or.inr ⟨e.1, (hexact.mem_sent _).2 ⟨e, he, rfl, hold⟩, hlocal e he, hy, hdel⟩)
    · exact hall o' ho' e he y hy hdel

variable (env) in
/-- **The send phase gives the peer the local contents that can be delivered**, and leaves the local
store as it is. -/
theorem archives_sendPhase (R : Json.Reader) (hpst : pst.Archives D pcfg T)
    (hsep : Separate D (S ∪ T)) (log : List (SyncEvent Store)) :
    ∃ fuel x, sendPhase R D cfg env ((curl.server D pcfg penv host).world D host) host fuel
        ⟨pst, st, log⟩ none = .ok (some x) ∧ x.store = st ∧
      x.world.Archives D pcfg (T ∪ S ∩ curl.deliverable D) := by
  obtain ⟨fuel, world, offers, hrun, hchain, hoffers, hcover⟩ := sendPhase_from D cfg env
    (curl.server D pcfg penv host) host R hst.standard ⟨pst, st, log⟩ .none rfl rfl
  obtain ⟨T'', hlower, hupper, harch, hall⟩ :=
    archives_offers hst hS hsep hchain hoffers subset_rfl Set.subset_union_left hpst
  refine ⟨fuel, _, hrun, rfl, harch.congr (hupper.antisymm (Set.union_subset hlower ?_))⟩
  rintro y ⟨hyS, k, hky, hdel⟩
  obtain ⟨o, ho, hmem⟩ := hcover _ (hst.mem_keys_iff.2 ⟨y, hyS, hky⟩)
  obtain ⟨e, he, rfl⟩ := List.mem_map.1 hmem
  exact hall o ho e he y ((hst.fileOf_eq_some_iff hS).2 ⟨hyS, hky⟩) hdel

end Sending

/-! ### A whole sync -/

/-- The local contents after a sync. -/
def SyncConfig.localAfter (c : SyncConfig) (S T : Set Bytes) : Set Bytes :=
  if c.get then S ∪ T else S

/-- The peer's contents after a sync. -/
def SyncConfig.peerAfter (c : SyncConfig) (curl : Curl) (D : Digests) (S T : Set Bytes) :
    Set Bytes :=
  if c.send then T ∪ c.localAfter S T ∩ curl.deliverable D else T

theorem SyncConfig.localAfter_subset (c : SyncConfig) (S T : Set Bytes) :
    c.localAfter S T ⊆ S ∪ T := by
  rw [localAfter]
  split_ifs
  · exact subset_rfl
  · exact Set.subset_union_left

theorem SyncConfig.peerAfter_subset (c : SyncConfig) (curl : Curl) (D : Digests)
    (S T : Set Bytes) : c.peerAfter curl D S T ⊆ S ∪ T := by
  rw [peerAfter]
  split_ifs
  · exact Set.union_subset Set.subset_union_right
      (Set.inter_subset_left.trans (c.localAfter_subset S T))
  · exact Set.subset_union_right

section Sync

variable (R : Json.Reader) (env penv curl)

/-- A sync whose phases come to their ends. -/
theorem syncHost_of_phases {mode : SyncMode} {x₁ x₂ : Syncing Store}
    (hget : if SyncConfig.get ⟨host, mode⟩ then
      ∃ n, getPhase R D cfg env ((curl.server D pcfg penv host).world D host) host n
        ⟨pst, st, []⟩ [] = .ok (some x₁) else x₁ = ⟨pst, st, []⟩)
    (hsend : if SyncConfig.send ⟨host, mode⟩ then
      ∃ n, sendPhase R D cfg env ((curl.server D pcfg penv host).world D host) host n x₁ none =
        .ok (some x₂) else x₂ = x₁) :
    ∃ fuel, syncHost R D cfg env ((curl.server D pcfg penv host).world D host) fuel ⟨host, mode⟩
      ⟨pst, st, []⟩ = .ok (some x₂) := by
  obtain ⟨m, hm⟩ : ∃ m, ∀ k, m ≤ k → syncSend R D cfg env
      ((curl.server D pcfg penv host).world D host) k ⟨host, mode⟩ (some x₁) = .ok (some x₂) := by
    split_ifs at hsend with h
    · obtain ⟨m, hm⟩ := hsend
      refine ⟨m, fun k hk ↦ ?_⟩
      rw [syncSend, if_pos h]
      exact sendPhase_mono hk _ _ _ hm
    · refine ⟨0, fun k _ ↦ ?_⟩
      rw [syncSend, if_neg h, hsend]
  split_ifs at hget with h
  · obtain ⟨n, hn⟩ := hget
    refine ⟨max n m, ?_⟩
    rw [syncHost, if_pos h, getPhase_mono (le_max_left n m) _ _ _ hn]
    exact hm _ (le_max_right n m)
  · refine ⟨m, ?_⟩
    rw [syncHost, if_neg h, ← hget]
    exact hm m le_rfl

/-- **A sync, in any mode, as an operation on sets of contents.** -/
theorem archives_syncHost (hhost : (lit "/").isSuffixOf host = false) (mode : SyncMode)
    (hst : st.Archives D cfg S) (hpst : pst.Archives D pcfg T) (hsep : Separate D (S ∪ T)) :
    ∃ fuel x, syncHost R D cfg env ((curl.server D pcfg penv host).world D host) fuel ⟨host, mode⟩
        ⟨pst, st, []⟩ = .ok (some x) ∧
      x.store.Archives D cfg (SyncConfig.localAfter ⟨host, mode⟩ S T) ∧
      x.world.Archives D pcfg (SyncConfig.peerAfter ⟨host, mode⟩ curl D S T) := by
  obtain ⟨x₁, hget, hworld, hstore⟩ : ∃ x₁ : Syncing Store,
      (if SyncConfig.get ⟨host, mode⟩ then
        ∃ n, getPhase R D cfg env ((curl.server D pcfg penv host).world D host) host n
          ⟨pst, st, []⟩ [] = .ok (some x₁) else x₁ = ⟨pst, st, []⟩) ∧ x₁.world = pst ∧
        x₁.store.Archives D cfg (SyncConfig.localAfter ⟨host, mode⟩ S T) := by
    rw [SyncConfig.localAfter]
    split_ifs
    · obtain ⟨n, x₁, hrun, hworld, hstore⟩ :=
        archives_getPhase env penv curl R hhost hst hpst hsep
      exact ⟨x₁, ⟨n, hrun⟩, hworld, hstore⟩
    · exact ⟨⟨pst, st, []⟩, rfl, rfl, hst⟩
  obtain ⟨x₂, hsend, hstore₂, hworld₂⟩ : ∃ x₂ : Syncing Store,
      (if SyncConfig.send ⟨host, mode⟩ then
        ∃ n, sendPhase R D cfg env ((curl.server D pcfg penv host).world D host) host n x₁ none =
          .ok (some x₂) else x₂ = x₁) ∧ x₂.store = x₁.store ∧
        x₂.world.Archives D pcfg (SyncConfig.peerAfter ⟨host, mode⟩ curl D S T) := by
    rw [SyncConfig.peerAfter]
    split_ifs
    · rcases x₁ with ⟨s, st₁, log⟩
      obtain rfl : s = pst := hworld
      have hsub := SyncConfig.localAfter_subset ⟨host, mode⟩ S T
      obtain ⟨n, x₂, hrun, hstore₂, hworld₂⟩ := archives_sendPhase env hstore (hsep.mono hsub) R
        hpst (hsep.mono (Set.union_subset hsub Set.subset_union_right)) log
      exact ⟨x₂, ⟨n, hrun⟩, hstore₂, hworld₂⟩
    · exact ⟨x₁, rfl, rfl, hworld ▸ hpst⟩
  obtain ⟨fuel, hfuel⟩ := syncHost_of_phases env penv curl R hget hsend
  exact ⟨fuel, x₂, hfuel, hstore₂ ▸ hstore, hworld₂⟩

/-- A get phase that finds every key of the peer leaves everything as it is. -/
theorem getPhase_settled (hst : st.Archives D cfg S) (hpst : pst.Archives D pcfg T) (hTS : T ⊆ S) :
    ∃ fuel x, getPhase R D cfg env ((curl.server D pcfg penv host).world D host) host fuel
        ⟨pst, st, []⟩ [] = .ok (some x) ∧ x.world = pst ∧ x.store = st := by
  have hinv : PullInvariant D cfg env (curl.server D pcfg penv host) host pst
      (fun x ↦ x.world = pst ∧ x.store = st) Set.univ := by
    refine ⟨fun hx ↦ hx.1, fun {x} url hx ↦ ⟨(fetchUrl_server x url).trans hx.1, hx.2⟩, ?_⟩
    rintro x k ⟨hworld, rfl⟩ hk
    obtain ⟨y, hy, hky⟩ := hpst.mem_keys_iff.1 hk
    have hlocal : k ∈ x.store.blobs.keys := hst.mem_keys_iff.2 ⟨y, hTS hy, hky⟩
    obtain ⟨b, hb⟩ := OrdMap.mem_keys_iff.1 hlocal
    have hget : x.store.get k.blobref = some b := by
      rw [(hst.standard k hlocal).get_blobref, hb]
    exact ⟨x, fetchMissing_found cfg env hget, ⟨hworld, rfl⟩, fun _ ↦ hlocal, .refl x.store⟩
  obtain ⟨fuel, x, hrun, hx, -⟩ :=
    hinv.exists_getPhase R hpst.standard (x := ⟨pst, st, []⟩) ⟨rfl, rfl⟩
  exact ⟨fuel, x, hrun, hx⟩

/-- A send phase with nothing for the peer but contents it cannot take leaves everything as it
is. -/
theorem sendPhase_settled (hst : st.Archives D cfg S) (hS : Separate D S)
    (hpst : pst.Archives D pcfg T) (hST : S ∩ curl.deliverable D ⊆ T)
    (log : List (SyncEvent Store)) :
    ∃ fuel x, sendPhase R D cfg env ((curl.server D pcfg penv host).world D host) host fuel
        ⟨pst, st, log⟩ none = .ok (some x) ∧ x.world = pst ∧ x.store = st := by
  have hstd := hst.standard
  have hfile := fun k hk ↦ hst.exists_fileOf hS (k := k) hk
  obtain ⟨fuel, x, hrun, hstore, htouched⟩ : ∃ fuel x, sendPhase R D cfg env
      ((curl.server D pcfg penv host).world D host) host fuel ⟨pst, st, log⟩ none = .ok (some x) ∧
        x.store = st ∧ Touched pst (¬NothingToPush curl st pst) x.world :=
    exists_sendPhase hstd hfile R cfg env log
  refine ⟨fuel, x, hrun, htouched.eq (not_not.2 fun k hk ↦ ?_), hstore⟩
  obtain ⟨y, hy, hky⟩ := hst.mem_keys_iff.1 hk
  rw [or_iff_not_imp_right, not_not]
  rintro ⟨z, hz, hdel⟩
  obtain ⟨hzS, hkz⟩ := (hst.fileOf_eq_some_iff hS).1 hz
  exact hpst.mem_keys_iff.2 ⟨z, hST ⟨hzS, k, hkz, hdel⟩, hkz⟩

end Sync

/-- **A sync settles.** Between servers whose contents can be told apart, a sync ends, in any mode.
In a mode that gets, the local contents are the union of both; in one that sends, the peer gets of
the local contents those that can be delivered: the 7-bit ones whose form is at most 16 MiB long.
Nothing else is lost, made up or moved. And the next sync changes neither index and neither
directory. -/
theorem sync_settles (R : Json.Reader) (D : Digests) (cfg pcfg : Config) (env penv : Environment)
    (curl : Curl) (host : Bytes) (mode : SyncMode) (st pst : Store) (S T : Set Bytes)
    (hhost : (lit "/").isSuffixOf host = false) (hst : st.Archives D cfg S)
    (hpst : pst.Archives D pcfg T) (hsep : Separate D (S ∪ T)) :
    ∃ fuel x, syncHost R D cfg env ((curl.server D pcfg penv host).world D host) fuel ⟨host, mode⟩
        ⟨pst, st, []⟩ = .ok (some x) ∧
      x.store.Archives D cfg (SyncConfig.localAfter ⟨host, mode⟩ S T) ∧
      x.world.Archives D pcfg (SyncConfig.peerAfter ⟨host, mode⟩ curl D S T) ∧
      ∃ fuel' x', syncHost R D cfg env ((curl.server D pcfg penv host).world D host) fuel'
          ⟨host, mode⟩ ⟨x.world, x.store, []⟩ = .ok (some x') ∧
        x'.store = x.store ∧ x'.world = x.world := by
  obtain ⟨fuel, x, hrun, hstore, hworld⟩ :=
    archives_syncHost env penv curl R hhost mode hst hpst hsep
  have hlocal := SyncConfig.localAfter_subset ⟨host, mode⟩ S T
  refine ⟨fuel, x, hrun, hstore, hworld, ?_⟩
  obtain ⟨x₁, hget, hworld₁, hstore₁⟩ : ∃ x₁ : Syncing Store,
      (if SyncConfig.get ⟨host, mode⟩ then
        ∃ n, getPhase R D cfg env ((curl.server D pcfg penv host).world D host) host n
          ⟨x.world, x.store, []⟩ [] = .ok (some x₁) else x₁ = ⟨x.world, x.store, []⟩) ∧
        x₁.world = x.world ∧ x₁.store = x.store := by
    split_ifs with h
    · have hTS : SyncConfig.peerAfter ⟨host, mode⟩ curl D S T ⊆
          SyncConfig.localAfter ⟨host, mode⟩ S T := by
        rw [SyncConfig.localAfter, if_pos h]
        exact SyncConfig.peerAfter_subset _ curl D S T
      obtain ⟨n, x₁, hrun₁, hsame⟩ := getPhase_settled env penv curl R hstore hworld hTS
      exact ⟨x₁, ⟨n, hrun₁⟩, hsame⟩
    · exact ⟨_, rfl, rfl, rfl⟩
  obtain ⟨x₂, hsend, hworld₂, hstore₂⟩ : ∃ x₂ : Syncing Store,
      (if SyncConfig.send ⟨host, mode⟩ then
        ∃ n, sendPhase R D cfg env ((curl.server D pcfg penv host).world D host) host n x₁ none =
          .ok (some x₂) else x₂ = x₁) ∧ x₂.world = x₁.world ∧ x₂.store = x₁.store := by
    split_ifs with h
    · rcases x₁ with ⟨s, st₁, log⟩
      obtain rfl : s = x.world := hworld₁
      obtain rfl : st₁ = x.store := hstore₁
      have hST : SyncConfig.localAfter ⟨host, mode⟩ S T ∩ curl.deliverable D ⊆
          SyncConfig.peerAfter ⟨host, mode⟩ curl D S T := by
        rw [SyncConfig.peerAfter, if_pos h]
        exact Set.subset_union_right
      obtain ⟨n, x₂, hrun₂, hsame⟩ :=
        sendPhase_settled env penv curl R hstore (hsep.mono hlocal) hworld hST log
      exact ⟨x₂, ⟨n, hrun₂⟩, hsame⟩
    · exact ⟨_, rfl, rfl, rfl⟩
  obtain ⟨fuel', hfuel'⟩ := syncHost_of_phases env penv curl R hget hsend
  exact ⟨fuel', x₂, hfuel', hstore₂.trans hstore₁, hworld₂.trans hworld₁⟩

theorem archives_stored_sample {x : Bytes} (hx : x ≠ []) :
    (Store.empty.stored Digests.sample {} x).Archives Digests.sample {} {x} :=
  (archives_empty.stored hx).congr (by simp)

/-- The local store holds `a`, the peer holds `b`. -/
theorem sync_settles_a_b : ∃ fuel x,
    syncHost Json.plainReader Digests.sample {} ⟨true, fun _ ↦ none, fun _ s ↦ s⟩
        ((Curl.sample.server Digests.sample {} ⟨true, fun _ ↦ none, fun _ s ↦ s⟩
          (lit "http://peer:8080")).world Digests.sample (lit "http://peer:8080")) fuel
        ⟨lit "http://peer:8080", .getAndSend⟩
        ⟨Store.empty.stored Digests.sample {} [98], Store.empty.stored Digests.sample {} [97], []⟩ =
          .ok (some x) ∧
      x.store.Archives Digests.sample {} {[97], [98]} ∧
      x.world.Archives Digests.sample {} {[97], [98]} := by
  have hunion : ({[97]} ∪ {[98]} : Set Bytes) = {[97], [98]} := Set.singleton_union
  obtain ⟨fuel, x, hrun, hstore, hworld, -⟩ := sync_settles Json.plainReader Digests.sample {} {}
    ⟨true, fun _ ↦ none, fun _ s ↦ s⟩ ⟨true, fun _ ↦ none, fun _ s ↦ s⟩ Curl.sample
    (lit "http://peer:8080") .getAndSend _ _ {[97]} {[98]} (by decide)
    (archives_stored_sample (by decide)) (archives_stored_sample (by decide))
    (hunion ▸ separate_sample)
  refine ⟨fuel, x, hrun, hstore.congr hunion, hworld.congr ?_⟩
  have hget : SyncConfig.get ⟨lit "http://peer:8080", .getAndSend⟩ = true := rfl
  have hsend : SyncConfig.send ⟨lit "http://peer:8080", .getAndSend⟩ = true := rfl
  have hdel : ({[97], [98]} : Set Bytes) ⊆ Curl.sample.deliverable Digests.sample := by
    rintro x (rfl | rfl)
    · exact ⟨blobKeyOf Digests.sample [97] .sha1, List.mem_cons_self, by decide +kernel⟩
    · exact ⟨blobKeyOf Digests.sample [98] .sha1, List.mem_cons_self, by decide +kernel⟩
  rw [SyncConfig.peerAfter, if_pos hsend, SyncConfig.localAfter, if_pos hget, hunion,
    Set.inter_eq_left.2 hdel]
  exact Set.union_eq_right.2 (by simp)

end Camlispp
