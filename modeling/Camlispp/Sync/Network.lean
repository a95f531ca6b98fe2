import Camlispp.Library.Gossip
import Camlispp.Server.Replica
import Camlispp.Sync.Exchange

/-!
# A network of servers

Any number of servers, each configured to sync with some of the others. A sync is taken as one step
of the network: the two servers do nothing else meanwhile, and the others may.

By `archives_syncHost` a sync is one or two flows between the sets of contents of its two servers,
so a run of the network is a run of `Gossip` (`archives_netRun`). Once the configured syncs have
been gone through often enough, in whatever order in each round, **all servers hold everything**,
and then no client can tell which of them answers (`network_converges`).

## What the result rests on, and what it assumes

* `archives_syncHost` says what one sync does to the sets of its two servers. The faithful model is
  used there and not again.
* `mem_flows_flatten`, of `Gossip`: a content comes along every walk whose hops the rounds repeat.
* `answers_eq_of_archives`: servers that hold one set answer alike.

The digests tell the contents of all servers apart (`Separate`). A content comes over a sync that
sends only if it can be delivered (`Curl.deliverable`): the peer stores no other. Two servers answer
alike if they have the same static files all the time (`Config.Alike`).

Contents that cannot be delivered need syncs that get. Where there are none, they stay where they
are: the hops that `hreach` asks for are those of the flows.
-/

open Bytes Gossip

namespace Camlispp

variable {ι : Type} [DecidableEq ι]

/-- The servers of a network, and how the others reach them. -/
structure Network (ι : Type) where
  cfg : ι → Config
  env : ι → Environment
  curl : ι → Curl
  /-- The host the others have in their configuration. -/
  host : ι → Bytes
  host_slash : ∀ i, (lit "/").isSuffixOf (host i) = false

/-- A server that syncs with another, in some mode. -/
structure NetSync (ι : Type) where
  client : ι
  peer : ι
  mode : SyncMode

variable (R : Json.Reader) (D : Digests) (net : Network ι)

/-- What a sync moves, in order: everything to the client, and to the peer what can be delivered. -/
def NetSync.flows (a : NetSync ι) : List (Flow ι Bytes) :=
  (if a.mode = .get ∨ a.mode = .getAndSend then [⟨a.peer, a.client, Set.univ⟩] else []) ++
    if a.mode = .send ∨ a.mode = .getAndSend then
      [⟨a.client, a.peer, (net.curl a.client).deliverable D⟩] else []

/-- A sync that came to its end, between two different servers. -/
def NetStep (st : ι → Store) (a : NetSync ι) (st' : ι → Store) : Prop :=
  a.client ≠ a.peer ∧ ∃ fuel x,
    syncHost R D (net.cfg a.client) (net.env a.client)
      (((net.curl a.client).server D (net.cfg a.peer) (net.env a.peer) (net.host a.peer)).world D
        (net.host a.peer)) fuel ⟨net.host a.peer, a.mode⟩ ⟨st a.peer, st a.client, []⟩ =
          .ok (some x) ∧
    st' = Function.update (Function.update st a.client x.store) a.peer x.world

/-- One sync after the other. -/
inductive NetRun : (ι → Store) → List (NetSync ι) → (ι → Store) → Prop
  | nil (st : ι → Store) : NetRun st [] st
  | cons {st st' st'' : ι → Store} {a : NetSync ι} {as : List (NetSync ι)}
      (h : NetStep R D net st a st') (hrest : NetRun st' as st'') : NetRun st (a :: as) st''

variable {R D net} {S : ι → Set Bytes} {st st' : ι → Store} {a : NetSync ι}

/-- The stores of the network hold these sets. -/
def NetArchives (D : Digests) (net : Network ι) (st : ι → Store) (S : ι → Set Bytes) : Prop :=
  ∀ i, (st i).Archives D (net.cfg i) (S i)

omit [DecidableEq ι] in
theorem syncHost_unique {σ : Type} {cfg : Config} {env : Environment} {w : World σ} {n m : ℕ}
    {c : SyncConfig} {x y z : Syncing σ} (hy : syncHost R D cfg env w n c x = .ok (some y))
    (hz : syncHost R D cfg env w m c x = .ok (some z)) : y = z := by
  have hmax := syncHost_mono (le_max_left n m) _ _ _ hy
  rw [syncHost_mono (le_max_right n m) _ _ _ hz] at hmax
  exact (Option.some.inj (Except.ok.inj hmax)).symm

/-- What a sync does to the two sets, as flows. -/
theorem flows_netSync (hne : a.client ≠ a.peer) (host : Bytes) (S : ι → Set Bytes) :
    flows S (a.flows D net) = Function.update
      (Function.update S a.client
        (SyncConfig.localAfter ⟨host, a.mode⟩ (S a.client) (S a.peer)))
      a.peer
        (SyncConfig.peerAfter ⟨host, a.mode⟩ (net.curl a.client) D (S a.client) (S a.peer)) := by
  obtain ⟨i, j, mode⟩ := a
  have hij : i ≠ j := hne
  funext l
  cases mode with
  | get =>
    rcases eq_or_ne l j with rfl | hl
    · simp [NetSync.flows, flows, flow, SyncConfig.peerAfter, SyncConfig.send, hij.symm]
    · simp [NetSync.flows, flows, flow, SyncConfig.localAfter, SyncConfig.get, hl]
  | send =>
    rcases eq_or_ne l j with rfl | hl
    · simp [NetSync.flows, flows, flow, SyncConfig.peerAfter, SyncConfig.send,
        SyncConfig.localAfter, SyncConfig.get]
    · simp [NetSync.flows, flows, flow, SyncConfig.localAfter, SyncConfig.get, hl]
  | getAndSend =>
    rcases eq_or_ne l j with rfl | hl
    · simp [NetSync.flows, flows, flow, SyncConfig.peerAfter, SyncConfig.send,
        SyncConfig.localAfter, SyncConfig.get, hij.symm]
    · simp [NetSync.flows, flows, flow, SyncConfig.localAfter, SyncConfig.get, hl]

/-- A sync of the network can be made. -/
theorem exists_netStep (hne : a.client ≠ a.peer) (hst : NetArchives D net st S)
    (hsep : Separate D (⋃ i, S i)) :
    ∃ st', NetStep R D net st a st' ∧ NetArchives D net st' (flows S (a.flows D net)) := by
  have hpair : S a.client ∪ S a.peer ⊆ ⋃ i, S i :=
    Set.union_subset (Set.subset_iUnion S _) (Set.subset_iUnion S _)
  obtain ⟨fuel, x, hrun, hlocal, hpeer⟩ := archives_syncHost (net.env a.client) (net.env a.peer)
    (net.curl a.client) R (net.host_slash a.peer) a.mode (hst a.client) (hst a.peer)
    (hsep.mono hpair)
  refine ⟨_, ⟨hne, fuel, x, hrun, rfl⟩, fun i ↦ ?_⟩
  rw [flows_netSync hne (net.host a.peer)]
  rcases eq_or_ne i a.peer with rfl | hi
  · rw [Function.update_self, Function.update_self]
    exact hpeer
  · rw [Function.update_of_ne hi, Function.update_of_ne hi]
    rcases eq_or_ne i a.client with rfl | hi
    · rw [Function.update_self, Function.update_self]
      exact hlocal
    · rw [Function.update_of_ne hi, Function.update_of_ne hi]
      exact hst i

/-- **A sync of the network is a flow between sets.** -/
theorem archives_netStep (h : NetStep R D net st a st') (hst : NetArchives D net st S)
    (hsep : Separate D (⋃ i, S i)) : NetArchives D net st' (flows S (a.flows D net)) := by
  obtain ⟨hne, fuel, x, hrun, rfl⟩ := h
  obtain ⟨_, ⟨-, fuel', x', hrun', rfl⟩, harch⟩ := exists_netStep (R := R) hne hst hsep
  obtain rfl := syncHost_unique hrun hrun'
  exact harch

theorem separate_flows (hsep : Separate D (⋃ i, S i)) (fs : List (Flow ι Bytes)) :
    Separate D (⋃ i, flows S fs i) :=
  hsep.mono (Set.iUnion_subset fun i ↦ flows_subset fs (fun j ↦ Set.subset_iUnion S j) i)

/-- **A run of the network is a run of flows.** -/
theorem archives_netRun {as : List (NetSync ι)} (h : NetRun R D net st as st')
    (hst : NetArchives D net st S) (hsep : Separate D (⋃ i, S i)) :
    NetArchives D net st' (flows S (as.flatMap (NetSync.flows D net))) := by
  induction h generalizing S with
  | nil => exact hst
  | cons hstep _ ih =>
    rw [List.flatMap_cons, flows_append]
    exact ih (archives_netStep hstep hst hsep) (separate_flows hsep _)

/-- Every sequence of syncs can be gone through. -/
theorem exists_netRun {as : List (NetSync ι)} (hne : ∀ a ∈ as, a.client ≠ a.peer)
    (hst : NetArchives D net st S) (hsep : Separate D (⋃ i, S i)) :
    ∃ st', NetRun R D net st as st' := by
  induction as generalizing st S with
  | nil => exact ⟨st, .nil st⟩
  | cons a as ih =>
    obtain ⟨st₁, hstep, harch⟩ := exists_netStep (R := R) (hne a List.mem_cons_self) hst hsep
    obtain ⟨st', hrest⟩ := ih (fun b hb ↦ hne b (List.mem_cons_of_mem _ hb)) harch
      (separate_flows hsep _)
    exact ⟨st', .cons hstep hrest⟩

/-- **The network converges.** Rounds of syncs are gone through, each with all the configured syncs
in any order. If from the server that holds a content every server is reached by as many hops as
there are rounds, over syncs that get and, for a content that can be delivered, over syncs that
send, then every server holds everything that any of them held; and whatever clients ask and upload
from then on, two servers with the same static files answer alike. -/
theorem network_converges (R : Json.Reader) (D : Digests) (net : Network ι) (S : ι → Set Bytes)
    (st : ι → Store) (hst : NetArchives D net st S) (hsep : Separate D (⋃ i, S i))
    (syncs : List (NetSync ι)) (rounds : List (List (NetSync ι)))
    (hne : ∀ r ∈ rounds, ∀ a ∈ r, a.client ≠ a.peer) (hrounds : ∀ r ∈ rounds, syncs ⊆ r)
    (hreach : ∀ i, ∀ x ∈ S i, ∀ j,
      Within (Hop (syncs.flatMap (NetSync.flows D net)) x) i rounds.length j) :
    (∃ st', NetRun R D net st rounds.flatten st') ∧
      ∀ st', NetRun R D net st rounds.flatten st' →
        NetArchives D net st' (fun _ ↦ ⋃ i, S i) ∧
        ∀ i j, net.env i = net.env j → (net.cfg i).Alike (net.cfg j) →
          ∀ rest, Separate D ((⋃ i, S i) ∪ Access.contents D (net.env i) rest) →
            answers D (net.cfg i) (net.env i) (st' i) rest =
              answers D (net.cfg j) (net.env j) (st' j) rest := by
  refine ⟨exists_netRun (fun a ha ↦ ?_) hst hsep, fun st' hrun ↦ ?_⟩
  · obtain ⟨r, hr, ha⟩ := List.mem_flatten.1 ha
    exact hne r hr a ha
  · have hflows := archives_netRun hrun hst hsep
    have hflatten : rounds.flatten.flatMap (NetSync.flows D net) =
        (rounds.map fun r ↦ r.flatMap (NetSync.flows D net)).flatten := by
      rw [List.flatMap_def, List.map_flatten, List.flatten_flatten, List.map_map]
      rfl
    have hall : ∀ j, flows S (rounds.flatten.flatMap (NetSync.flows D net)) j = ⋃ i, S i := by
      intro j
      refine (flows_subset _ (fun i ↦ Set.subset_iUnion S i) j).antisymm
        (Set.iUnion_subset fun i x hx ↦ ?_)
      rw [hflatten]
      have hsub : ∀ r ∈ rounds.map fun r ↦ r.flatMap (NetSync.flows D net),
          syncs.flatMap (NetSync.flows D net) ⊆ r := by
        intro r hr f hf
        obtain ⟨r, hmem, rfl⟩ := List.mem_map.1 hr
        obtain ⟨a, ha, hf⟩ := List.mem_flatMap.1 hf
        exact List.mem_flatMap.2 ⟨a, hrounds r hmem ha, hf⟩
      refine mem_flows_flatten hx hsub ?_
      rw [List.length_map]
      exact hreach i x hx j
    have harch : NetArchives D net st' (fun _ ↦ ⋃ i, S i) := fun j ↦ (hflows j).congr (hall j)
    refine ⟨harch, fun i j henv hcfg rest hrest ↦ ?_⟩
    rw [← henv]
    exact answers_eq_of_archives hcfg.static (harch i) (harch j) hrest

/-- Two servers that get from each other, one of which keeps its files elsewhere. -/
def twoServers : Network Bool where
  cfg i := ⟨if i then lit "/srv/" else lit "/tmp/", lit "./static/"⟩
  env _ := ⟨true, fun _ ↦ none, fun _ s ↦ s⟩
  curl _ := Curl.sample
  host i := if i then lit "http://b:8080" else lit "http://a:8080"
  host_slash i := by cases i <;> decide

/-- One holds `a`, the other `b`. -/
def twoStores (i : Bool) : Store :=
  Store.empty.stored Digests.sample (twoServers.cfg i) (if i then [98] else [97])

theorem network_converges_a_b : ∃ st',
    NetRun Json.plainReader Digests.sample twoServers twoStores
      [⟨false, true, .get⟩, ⟨true, false, .get⟩] st' ∧
    NetArchives Digests.sample twoServers st' (fun _ ↦ {[97], [98]}) := by
  have hunion : ⋃ i : Bool, ({if i then [98] else [97]} : Set Bytes) = {[97], [98]} := by
    ext x
    simp
  obtain ⟨⟨st', hrun⟩, hall⟩ := network_converges Json.plainReader Digests.sample twoServers
    (fun i ↦ {if i then [98] else [97]}) twoStores
    (fun i ↦ (archives_empty.stored (by cases i <;> decide)).congr (by simp))
    (hunion ▸ separate_sample) [⟨false, true, .get⟩, ⟨true, false, .get⟩]
    [[⟨false, true, .get⟩, ⟨true, false, .get⟩]] (by simp) (by simp) (by
      rintro i x - j
      rcases eq_or_ne i j with rfl | hne
      · exact .here _
      · refine .hop (.here 0) ⟨⟨i, j, Set.univ⟩, ?_, rfl, rfl, Set.mem_univ x⟩
        cases i <;> cases j <;> simp [NetSync.flows] at hne ⊢)
  refine ⟨st', hrun, fun i ↦ ((hall st' hrun).1 i).congr hunion⟩

end Camlispp
