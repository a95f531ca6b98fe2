import Camlispp.Daemon.Run
import Camlispp.Server.Containment

/-!
# Where served contents come from

Clients and peers may send anything, at any time. What the daemon then serves under a reference was
given to it in one of three ways (`Source`): it was a file of the load directory, a part of an
upload, or the reply of a peer that was asked for a reference.

The bytes that are served under a SHA-256 reference have that digest up to their first `NUL`, with
no assumption on the digests: the path of a file is made of the SHA-256 digest, so no later content
takes the file of another one over. For a SHA-1 reference the same holds, unless two contents with
one SHA-256 digest are at hand (`served_authentic`).

## When a client is served

**A client is served inside a sync, too**, by the threads that run beside the sync thread. A peer
may keep it there for ever, so it is not enough to look at the state behind a phase: none may
follow.

* `SendTurn` is to the send phase what `GetTurn` is to the get phase: the states between two
  accesses of the sync thread to the index.
* `DaemonTurn` puts the states together in which the other threads get their turn: between two
  events of a run, and inside a phase.
* `Reached` is a store behind some of their requests in such a state. Every `GET` of a run finds
  such a store.

## What the result rests on

* `Traced`: a store is the outcome of additions that all have a source. `add_blob` is the only way
  in which any step changes the index, so each step keeps it (`Traced.addBlobs`), and a loop keeps
  it by `Ensures.foldlM`.
* `traced_getTurn` and `traced_sendTurn`: it holds in the states inside a phase, by induction on how
  they are come to.
* `recorded_addBlobs`: what an index that was made by additions says about its files.

Nothing is asked of the digests, of the peers, or of the function that reads their replies.
-/

open Bytes Except

namespace Camlispp

variable {σ : Type} (R : Json.Read) (D : Digests) (cfg : Config) (env : Environment)
  (w : World σ) (files : List LoadEntry) (s : σ) (events : List Event)

/-! ### The states of a run -/

/-- A send phase of at most `fuel` pages, from `x` and the cursor `after`, comes to the state `y`
and turns to the index: for a page, or for a blob that is sent. -/
inductive SendTurn (host : Bytes) : ℕ → Syncing σ → Option Bytes → Syncing σ → Prop
  | page {fuel : ℕ} {x : Syncing σ} {after : Option Bytes} : SendTurn host (fuel + 1) x after x
  | blob {fuel : ℕ} {x x₁ x₂ y : Syncing σ} {after : Option Bytes} {content blobRef : Bytes}
      {e : SyncEnumeration} {blobs : List (BlobKey × Blob)} {before rest : List Bytes}
      (hserve : serveOthers D cfg env w x = .ok x₁) (hblobs : x₁.store.paginate after 501 = blobs)
      (hlength : blobs.length > 0)
      (hfetch : fetchUrl w x₁ (buildStatUrl host) (some (statRequest blobs)) = (some content, x₂))
      (hparse : parseSyncEnumeration R content = .ok (some e))
      (hrefs : sentRefs blobs e = before ++ blobRef :: rest)
      (hbefore : before.foldlM (sendBlob D cfg env w host) x₂ = .ok y) :
      SendTurn host (fuel + 1) x after y
  | next {fuel : ℕ} {x x₁ x₂ x₃ y : Syncing σ} {after : Option Bytes} {content : Bytes}
      {e : SyncEnumeration} {blobs : List (BlobKey × Blob)}
      (hserve : serveOthers D cfg env w x = .ok x₁) (hblobs : x₁.store.paginate after 501 = blobs)
      (hmore : blobs.length = 501)
      (hfetch : fetchUrl w x₁ (buildStatUrl host) (some (statRequest blobs)) = (some content, x₂))
      (hparse : parseSyncEnumeration R content = .ok (some e))
      (hpage : (sentRefs blobs e).foldlM (sendBlob D cfg env w host) x₂ = .ok x₃)
      (hrest : SendTurn host fuel x₃ (blobs.getLast?.map fun last ↦ last.1.blobref) y) :
      SendTurn host (fuel + 1) x after y

/-- The states of a run in which clients are served: between two events, and inside a phase. -/
inductive DaemonTurn : Syncing σ → Prop
  | idle {before after : List Event} {x : Syncing σ} (hevents : events = before ++ after)
      (hrun : runDaemon R D cfg env w files s before = .ok (some x)) : DaemonTurn x
  | get {host blobRef : Bytes} {y : Syncing σ}
      (hturn : RunTurn R D cfg env w files s events host y blobRef) : DaemonTurn y
  | fetched {host blobRef content : Bytes} {y y' y'' : Syncing σ}
      (hturn : RunTurn R D cfg env w files s events host y blobRef)
      (hserve : serveOthers D cfg env w y = .ok y') (hmissing : y'.store.get blobRef = none)
      (hfetch : fetchUrl w y' (buildBlobUrl host blobRef) none = (some content, y'')) :
      DaemonTurn y''
  | send {before after : List Event} {syncConfig : SyncConfig} {fuel : ℕ} {x got y : Syncing σ}
      (hevents : events = before ++ .sync syncConfig fuel :: after)
      (hrun : runDaemon R D cfg env w files s before = .ok (some x))
      (hgot : if syncConfig.get then
        getPhase R D cfg env w syncConfig.host fuel x [] = .ok (some got) else got = x)
      (hsend : syncConfig.send = true)
      (hturn : SendTurn R D cfg env w syncConfig.host fuel got none y) : DaemonTurn y

/-- A store that a request of a run may find: in some state, behind the requests that were handled
before it. -/
def Reached (st : Store) : Prop :=
  ∃ y before after, DaemonTurn R D cfg env w files s events y ∧
    (w.others y.world).1 = before ++ after ∧
    before.foldlM (fun st req ↦ do
      let served ← handleRequest D cfg env st req
      .ok served.store) y.store = .ok st

/-! ### Sources -/

/-- The ways a content gets to `add_blob`. -/
inductive Source : AddCall → Prop
  | loaded {f : LoadEntry} {content : Bytes} (hf : f ∈ files) (hreg : f.isRegularFile = true)
      (hcontent : f.content = some content) : Source ⟨none, content⟩
  | uploaded {req : Http.Request} {c : AddCall}
      (hreq : .request req ∈ events ∨ ∃ s, req ∈ (w.others s).1) (hc : c ∈ requestCalls env req) :
      Source c
  | fetched {s : σ} {host blobRef content : Bytes}
      (hhost : ∃ mode fuel, .sync ⟨host, mode⟩ fuel ∈ events)
      (hcontent : (w.fetchUrl s (buildBlobUrl host blobRef) none).1 = some content) :
      Source ⟨some blobRef, content⟩

/-- The store was made by additions that have a source. -/
def Traced (st : Store) : Prop :=
  ∃ calls, addBlobs D cfg .empty calls = .ok st ∧ ∀ c ∈ calls, Source env w files events c

variable {R D cfg env w files s events} {st st' : Store} {x : Syncing σ}

theorem Traced.addBlobs {calls : List AddCall} (h : Traced D cfg env w files events st)
    (hsource : ∀ c ∈ calls, Source env w files events c)
    (hrun : addBlobs D cfg st calls = .ok st') : Traced D cfg env w files events st' := by
  obtain ⟨before, hbefore, hall⟩ := h
  refine ⟨before ++ calls, by rw [addBlobs_append, hbefore]; exact hrun, fun c hc ↦ ?_⟩
  rcases List.mem_append.1 hc with hc | hc
  · exact hall c hc
  · exact hsource c hc

theorem Traced.addBlob {c : AddCall} (h : Traced D cfg env w files events st)
    (hsource : Source env w files events c) :
    (Camlispp.addBlob D cfg st c.providedHash c.bytes).Ensures
      fun r ↦ Traced D cfg env w files events r.2 := by
  intro r hr
  refine h.addBlobs (List.forall_mem_singleton.2 hsource) ?_
  rw [Camlispp.addBlobs, hr]
  rfl

theorem Traced.handleRequest {req : Http.Request} (h : Traced D cfg env w files events st)
    (hreq : .request req ∈ events ∨ ∃ s, req ∈ (w.others s).1) :
    (Camlispp.handleRequest D cfg env st req).Ensures
      fun served ↦ Traced D cfg env w files events served.store :=
  fun _ hserved ↦ h.addBlobs (fun _ hc ↦ .uploaded hreq hc) (handleRequest_store hserved)

/-! ### The sync thread -/

/-- Any number of requests. -/
theorem Traced.handleRequests {reqs : List Http.Request} (h : Traced D cfg env w files events st)
    (hreqs : ∀ req ∈ reqs, ∃ s, req ∈ (w.others s).1) :
    (reqs.foldlM (fun st req ↦ do
      let served ← Camlispp.handleRequest D cfg env st req
      .ok served.store) st).Ensures (Traced D cfg env w files events) :=
  Ensures.foldlM (fun _ req hreq hst ↦
    (hst.handleRequest (Or.inr (hreqs req hreq))).bind fun _ hserved ↦ ensures_ok hserved) h

theorem traced_serveOthers (h : Traced D cfg env w files events x.store) :
    (serveOthers D cfg env w x).Ensures fun x' ↦ Traced D cfg env w files events x'.store :=
  Ensures.bind (h.handleRequests fun _ hreq ↦ ⟨x.world, hreq⟩) fun _ hst ↦ ensures_ok hst

section Host

variable {host : Bytes} (hhost : ∃ mode fuel, .sync ⟨host, mode⟩ fuel ∈ events)

include hhost

theorem traced_fetchBlob (h : Traced D cfg env w files events x.store) (blobRef : Bytes) :
    (fetchBlob D cfg env w host x blobRef).Ensures
      fun x' ↦ Traced D cfg env w files events x'.store := by
  rw [fetchBlob, fetchUrl]
  rcases hreply : w.fetchUrl x.world (buildBlobUrl host blobRef) none with ⟨- | content, world⟩
  · exact ensures_ok h
  · have hsource : Source env w files events ⟨some blobRef, content⟩ :=
      .fetched (s := x.world) hhost (by rw [hreply])
    dsimp only
    refine Ensures.bind (traced_serveOthers h) fun x' hx' ↦ ?_
    exact (hx'.addBlob hsource).bind fun r hr ↦ ensures_ok hr

theorem traced_fetchMissing (h : Traced D cfg env w files events x.store) (blobRef : Bytes) :
    (fetchMissing D cfg env w host x blobRef).Ensures
      fun x' ↦ Traced D cfg env w files events x'.store := by
  refine (traced_serveOthers h).bind fun x' hx' ↦ ?_
  split
  · exact traced_fetchBlob hhost hx' blobRef
  · exact ensures_ok hx'

/-- The references of a page, or the first of them. -/
theorem traced_fetchMissings (h : Traced D cfg env w files events x.store) (refs : List Bytes) :
    (refs.foldlM (fetchMissing D cfg env w host) x).Ensures
      fun x' ↦ Traced D cfg env w files events x'.store :=
  Ensures.foldlM (fun _ ref _ hx ↦ traced_fetchMissing hhost hx ref) h

theorem traced_getPhase (R : Json.Read) {fuel : ℕ} {last : Bytes}
    (h : Traced D cfg env w files events x.store) :
    (getPhase R D cfg env w host fuel x last).Ensures
      fun x' ↦ ∀ x'' ∈ x', Traced D cfg env w files events x''.store := by
  induction fuel generalizing x last with
  | zero => exact ensures_ok (by simp)
  | succ fuel ih =>
    rw [getPhase]
    have hfetch : Traced D cfg env w files events
        (fetchUrl w x (buildEnumerationUrl host last) none).2.store := h
    generalize fetchUrl w x (buildEnumerationUrl host last) none = r at hfetch ⊢
    rcases r with ⟨- | content, x₁⟩
    · exact ensures_ok (by simpa using hfetch)
    · refine Ensures.bind (P := fun _ ↦ True) (fun _ _ ↦ trivial) fun e _ ↦ ?_
      rcases e with - | e
      · exact ensures_ok (by simpa using hfetch)
      · dsimp only
        refine Ensures.bind (traced_fetchMissings hhost hfetch e.blobRefs) fun x₂ hx₂ ↦ ?_
        rcases e.last with - | last
        · exact ensures_ok (by simpa using hx₂)
        · exact ih hx₂

/-- What a get phase comes to is traced, and so is what follows from the reply for a blob. -/
theorem traced_getTurn {R : Json.Read} {fuel : ℕ} {last blobRef : Bytes} {y : Syncing σ}
    (h : Traced D cfg env w files events x.store)
    (hturn : GetTurn R D cfg env w host fuel x last y blobRef) :
    Traced D cfg env w files events y.store := by
  induction hturn with
  | here hfetch hparse hrefs hbefore =>
    have hx₁ := (congrArg (fun r ↦ r.2.store) hfetch).symm
    exact traced_fetchMissings hhost (by rwa [hx₁]) _ _ hbefore
  | next hfetch hparse hpage hlast hrest ih =>
    have hx₁ := (congrArg (fun r ↦ r.2.store) hfetch).symm
    exact ih (traced_fetchMissings hhost (by rwa [hx₁]) _ _ hpage)

omit hhost

theorem traced_sendBlob (h : Traced D cfg env w files events x.store) (blobRef : Bytes) :
    (sendBlob D cfg env w host x blobRef).Ensures
      fun x' ↦ Traced D cfg env w files events x'.store := by
  refine (traced_serveOthers (x := { x with log := x.log ++ [.sent blobRef] }) h).bind
    fun x' hx' ↦ ?_
  split
  · exact ensures_ok hx'
  · exact ensures_ok hx'

theorem traced_sendBlobs (h : Traced D cfg env w files events x.store) (refs : List Bytes) :
    (refs.foldlM (sendBlob D cfg env w host) x).Ensures
      fun x' ↦ Traced D cfg env w files events x'.store :=
  Ensures.foldlM (fun _ ref _ hx ↦ traced_sendBlob hx ref) h

theorem traced_sendTurn {R : Json.Read} {fuel : ℕ} {after : Option Bytes} {y : Syncing σ}
    (h : Traced D cfg env w files events x.store)
    (hturn : SendTurn R D cfg env w host fuel x after y) :
    Traced D cfg env w files events y.store := by
  induction hturn with
  | page => exact h
  | blob hserve hblobs hlength hfetch hparse hrefs hbefore =>
    have hx₁ := traced_serveOthers h _ hserve
    have hx₂ := (congrArg (fun r ↦ r.2.store) hfetch).symm
    exact traced_sendBlobs (by rwa [hx₂]) _ _ hbefore
  | next hserve hblobs hmore hfetch hparse hpage hrest ih =>
    have hx₁ := traced_serveOthers h _ hserve
    have hx₂ := (congrArg (fun r ↦ r.2.store) hfetch).symm
    exact ih (traced_sendBlobs (by rwa [hx₂]) _ _ hpage)

/-- The send phase adds nothing to the local index; only the other threads do. -/
theorem traced_sendPhase (R : Json.Read) {fuel : ℕ} {after : Option Bytes}
    (h : Traced D cfg env w files events x.store) :
    (sendPhase R D cfg env w host fuel x after).Ensures
      fun x' ↦ ∀ x'' ∈ x', Traced D cfg env w files events x''.store := by
  induction fuel generalizing x after with
  | zero => exact ensures_ok (by simp)
  | succ fuel ih =>
    rw [sendPhase]
    refine (traced_serveOthers h).bind fun x₁ hx₁ ↦ ?_
    dsimp only
    split
    · have hfetch : Traced D cfg env w files events (fetchUrl w x₁ (buildStatUrl host)
          (some (statRequest (x₁.store.paginate after 501)))).2.store := hx₁
      generalize fetchUrl w x₁ (buildStatUrl host)
        (some (statRequest (x₁.store.paginate after 501))) = r at hfetch ⊢
      rcases r with ⟨- | content, x₂⟩
      · exact ensures_ok (by simpa using hfetch)
      · refine Ensures.bind (P := fun _ ↦ True) (fun _ _ ↦ trivial) fun e _ ↦ ?_
        rcases e with - | e
        · exact ensures_ok (by simpa using hfetch)
        · dsimp only
          refine Ensures.bind (traced_sendBlobs hfetch _) fun x₃ hx₃ ↦ ?_
          split
          · exact ih hx₃
          · exact ensures_ok (by simpa using hx₃)
    · exact ensures_ok (by simpa using hx₁)

end Host

/-! ### Whole runs -/

theorem traced_stepDaemon (R : Json.Read) {event : Event} (hevent : event ∈ events)
    (h : Traced D cfg env w files events x.store) :
    (stepDaemon R D cfg env w x event).Ensures
      fun x' ↦ ∀ x'' ∈ x', Traced D cfg env w files events x''.store := by
  cases event with
  | request req =>
    exact (h.handleRequest (Or.inl hevent)).bind fun served hserved ↦
      ensures_ok (by simpa using hserved)
  | sync syncConfig fuel =>
    have hsend : ∀ got : Option (Syncing σ),
        (∀ x ∈ got, Traced D cfg env w files events x.store) →
        (syncSend R D cfg env w fuel syncConfig got).Ensures
          fun x' ↦ ∀ x'' ∈ x', Traced D cfg env w files events x''.store := by
      rintro (_ | x) hx
      · exact ensures_ok (by simp)
      · rw [syncSend]
        split_ifs
        · exact traced_sendPhase R (hx x rfl)
        · exact ensures_ok hx
    rw [stepDaemon, syncHost]
    split_ifs
    · exact (traced_getPhase ⟨_, _, hevent⟩ R h).bind fun got hgot ↦ hsend got hgot
    · exact hsend _ (by simpa using h)

/-- Every store between two events of a run can be traced. -/
theorem traced_runDaemon {before : List Event} (hbefore : ∀ event ∈ before, event ∈ events) :
    (runDaemon R D cfg env w files s before).Ensures
      fun x ↦ ∀ x' ∈ x, Traced D cfg env w files events x'.store := by
  refine Ensures.bind (P := Traced D cfg env w files events)
    (Ensures.foldlM (fun st f hf hst ↦ ?_) ⟨[], rfl, by simp⟩) fun st hst ↦ ?_
  · rw [loadEntry]
    split_ifs with hreg
    · split
      · next content hcontent =>
        exact (hst.addBlob (c := ⟨none, content⟩) (.loaded hf hreg hcontent)).bind
          fun r hr ↦ ensures_ok hr
      · exact ensures_ok hst
    · exact ensures_ok hst
  · refine Ensures.foldlM (fun x event hevent hx ↦ ?_) (by simpa using hst)
    rcases x with - | x
    · exact ensures_ok (by simp)
    · exact traced_stepDaemon R (hbefore event hevent) (hx x rfl)

theorem traced_before {before rest : List Event} (hevents : events = before ++ rest)
    (hrun : runDaemon R D cfg env w files s before = .ok (some x)) :
    Traced D cfg env w files events x.store := by
  refine traced_runDaemon (fun event hevent ↦ ?_) _ hrun x rfl
  rw [hevents]
  exact List.mem_append_left _ hevent

theorem exists_sync_mem {before after : List Event} {syncConfig : SyncConfig} {fuel : ℕ}
    (hevents : events = before ++ .sync syncConfig fuel :: after) :
    ∃ mode fuel, .sync ⟨syncConfig.host, mode⟩ fuel ∈ events := by
  refine ⟨syncConfig.mode, fuel, ?_⟩
  rw [hevents]
  exact List.mem_append_right _ List.mem_cons_self

theorem traced_runTurn {host blobRef : Bytes} {y : Syncing σ}
    (h : RunTurn R D cfg env w files s events host y blobRef) :
    Traced D cfg env w files events y.store := by
  obtain ⟨before, c, fuel, after, x, hevents, hrun, -, rfl, hturn⟩ := h
  exact traced_getTurn (exists_sync_mem hevents) (traced_before hevents hrun) hturn

/-- **Every state of a run can be traced**, those inside a phase too. -/
theorem traced_daemonTurn {y : Syncing σ} (h : DaemonTurn R D cfg env w files s events y) :
    Traced D cfg env w files events y.store := by
  cases h with
  | idle hevents hrun => exact traced_before hevents hrun
  | get hturn => exact traced_runTurn hturn
  | fetched hturn hserve hmissing hfetch =>
    have hy'' := (congrArg (fun r ↦ r.2.store) hfetch).symm
    have hy' := traced_serveOthers (traced_runTurn hturn) _ hserve
    rwa [hy'']
  | send hevents hrun hgot hsend hturn =>
    have hx := traced_before hevents hrun
    refine traced_sendTurn ?_ hturn
    split_ifs at hgot with hmode
    · exact traced_getPhase (exists_sync_mem hevents) _ hx _ hgot _ rfl
    · rwa [hgot]

theorem Reached.traced (h : Reached R D cfg env w files s events st) :
    Traced D cfg env w files events st := by
  obtain ⟨y, before, after, hturn, hothers, hrun⟩ := h
  refine (traced_daemonTurn hturn).handleRequests (fun req hreq ↦ ⟨y.world, ?_⟩) _ hrun
  rw [hothers]
  exact List.mem_append_left _ hreq

/-! ### What is served -/

variable (D env w files events) in
/-- Bytes that may be served under a reference: they have a source, under a reference of their own
if a peer sent them, and hash to the reference up to their first `NUL`. Under a SHA-1 reference
there may be other bytes, if a second content with the same SHA-256 digest has a source too. -/
structure Authentic (r content : Bytes) : Prop where
  source : ∃ c, Source env w files events c ∧ c.Accepted D ∧ c.bytes = content
  digest : ∃ (t : HashType) (v : Bytes), createBlobKey r = some ⟨t.name, v⟩ ∧
    (v = D.digest t (cString content) ∨ t = .sha1 ∧ ∃ c, Source env w files events c ∧
      cString c.bytes ≠ cString content ∧ D.sha256 (cString c.bytes) = D.sha256 (cString content))

/-- The file behind a key of a traced store. -/
theorem Traced.authentic (h : Traced D cfg env w files events st) {r : Bytes} {b : Blob}
    (hb : st.get r = some b) {y : Bytes} (hy : st.files.find b.filePath = some y) :
    Authentic D env w files events r y := by
  obtain ⟨calls, hrun, hsource⟩ := h
  obtain ⟨past, hrec, hmem⟩ := recorded_addBlobs hrun
  obtain ⟨k, hkey, hk⟩ : ∃ k, createBlobKey r = some k ∧ st.blobs.find k = some b := by
    rw [Store.get] at hb
    rcases hkey : createBlobKey r with - | k
    · rw [hkey] at hb
      cases hb
    · rw [hkey] at hb
      exact ⟨k, rfl, hb⟩
  obtain ⟨x, hx, hkx, addr, rfl⟩ := hrec.entry hk
  rw [filePath_recordOf] at hy
  obtain ⟨hypast, hpath⟩ := hrec.file hy
  obtain ⟨c, hc, hacc, rfl⟩ := (hmem y).1 hypast
  -- a path is made of a SHA-256 digest
  have hsha : D.sha256 (cString x) = D.sha256 (cString c.bytes) := createPath_injective cfg hpath
  refine ⟨⟨c, hsource c hc, hacc, rfl⟩, ?_⟩
  rcases mem_blobKeys_iff.1 hkx with rfl | rfl
  · refine ⟨.sha1, _, hkey, ?_⟩
    rcases eq_or_ne (cString x) (cString c.bytes) with heq | hne
    · exact Or.inl (congrArg D.sha1 heq)
    · obtain ⟨c', hc', -, rfl⟩ := (hmem x).1 hx
      exact Or.inr ⟨rfl, c', hsource c' hc', hne, hsha⟩
  · exact ⟨.sha256, _, hkey, Or.inl hsha⟩

/-- **Only authentic bytes are served.** Wherever a run of the daemon is, among any clients and
peers, a `GET` of a reference that is answered with 200 and not encoded brings bytes with a source
that hash to the reference. -/
theorem served_authentic (R : Json.Read) (D : Digests) (cfg : Config) (env : Environment)
    (w : World σ) (files : List LoadEntry) (s : σ) (events : List Event) (st : Store)
    (hst : Reached R D cfg env w files s events st) (req : Http.Request) (r : Bytes)
    (huri : req.uri = 47 :: r) (hr : IsName r) (hget : req.method = lit "GET")
    (hplain : compressOutput (Http.getHeader req.headers (lit "Accept-Encoding")) = none) :
    ∃ served, handleRequest D cfg env st req = .ok served ∧
      (served.reply.status = .ok → Authentic D env w files events r served.reply.content) := by
  refine ⟨_, handleRequest_get D cfg env huri hr hget, fun hok ↦ ?_⟩
  have hdrop : (47 :: r).drop 1 = r := rfl
  rcases hb : st.get r with - | b
  · simp [handleGet, hdrop, hb] at hok
  · rcases hy : st.files.find b.filePath with - | y
    · simp [handleGet, hdrop, hb, hy] at hok
    · simpa [handleGet, hdrop, hb, hy, hplain] using hst.traced.authentic hb hy

/-- A page that lists `a` and names a next one. -/
def pageOfA : Bytes :=
  (Json.obj [(lit "blobs",
      .arr [.obj [(lit "blobRef", .str keyOfA.blobref), (lit "size", .int 1)]]),
    (lit "continueAfter", .str (lit "a"))]).write ++ crlf

/-- A peer that has the blob `a`, and says the same page to everything else. -/
def endlessPeer : World Unit where
  fetchUrl _ url _ :=
    (some (if url = lit "http://peer/" ++ keyOfA.blobref then [97] else pageOfA), ())
  upload _ _ _ _ := (none, ())
  others _ := ([], ())

theorem parseSyncEnumeration_pageOfA :
    parseSyncEnumeration Json.plainReader pageOfA =
      .ok (some ⟨some (lit "a"), [keyOfA.blobref]⟩) := by
  decide +kernel

/-- Its reply to a request for a page. -/
theorem fetchUrl_page {last : Bytes} (hlast : last = [] ∨ last = lit "a") (x : Syncing Unit) :
    fetchUrl endlessPeer x (buildEnumerationUrl (lit "http://peer") last) none = (some pageOfA,
      { x with log := x.log ++
        [.fetched (buildEnumerationUrl (lit "http://peer") last) none x.world] }) := by
  have hurl : buildEnumerationUrl (lit "http://peer") last ≠
      lit "http://peer/" ++ keyOfA.blobref := by
    rcases hlast with rfl | rfl
    · decide
    · decide
  simp only [fetchUrl, endlessPeer, if_neg hurl]

/-- Its reply to a request for `a`. -/
theorem fetchUrl_blobOfA (x : Syncing Unit) :
    fetchUrl endlessPeer x (buildBlobUrl (lit "http://peer") keyOfA.blobref) none = (some [97],
      { x with log := x.log ++
        [.fetched (buildBlobUrl (lit "http://peer") keyOfA.blobref) none x.world] }) := by
  have hurl : buildBlobUrl (lit "http://peer") keyOfA.blobref =
      lit "http://peer/" ++ keyOfA.blobref := by decide
  simp only [fetchUrl, endlessPeer, hurl, if_true]

/-- A page of which nothing is known yet. -/
theorem exists_fetchMissing_blobOfA {x : Syncing Unit} {r : Option Blob} {st : Store}
    (hmissing : x.store.get keyOfA.blobref = none)
    (hadd : addBlob Digests.sample {} x.store (some keyOfA.blobref) [97] = .ok (r, st)) :
    ∃ x', [keyOfA.blobref].foldlM (fetchMissing Digests.sample {}
      ⟨true, fun _ ↦ none, fun _ s ↦ s⟩ endlessPeer (lit "http://peer")) x = .ok x' ∧
        x'.store = st := by
  have hothers : ∀ x : Syncing Unit, serveOthers Digests.sample {}
      ⟨true, fun _ ↦ none, fun _ s ↦ s⟩ endlessPeer x = .ok x := fun x ↦ rfl
  simp only [List.foldlM_cons, List.foldlM_nil, fetchMissing, hothers, hmissing, fetchBlob,
    fetchUrl_blobOfA, hadd, bind, Except.bind, pure, Except.pure]
  exact ⟨_, rfl, rfl⟩

/-- A `GET` of `a`. -/
def requestGetA : Http.Request := ⟨lit "GET", 47 :: keyOfA.blobref, 1, 1, [], []⟩

/-- `b` is uploaded and the daemon turns to a peer that keeps it in its loop. On the second page
there is `a` to serve, and no state behind the phase. -/
theorem served_authentic_a : ∃ st served,
    Reached Json.plainReader Digests.sample {} ⟨true, fun _ ↦ none, fun _ s ↦ s⟩ endlessPeer [] ()
      [.request (fieldUpload [98]), .sync ⟨lit "http://peer", .get⟩ 2] st ∧
    handleRequest Digests.sample {} ⟨true, fun _ ↦ none, fun _ s ↦ s⟩ st requestGetA = .ok served ∧
    served.reply.status = .ok ∧
    Authentic Digests.sample ⟨true, fun _ ↦ none, fun _ s ↦ s⟩ endlessPeer []
      [.request (fieldUpload [98]), .sync ⟨lit "http://peer", .get⟩ 2] keyOfA.blobref
      served.reply.content := by
  -- the upload, what is stored of the peer's blob, and the answer, all computed
  have htest : (runDaemon Json.plainReader Digests.sample {} ⟨true, fun _ ↦ none, fun _ s ↦ s⟩
      endlessPeer [] () [.request (fieldUpload [98])]).toOption.join.map (fun x ↦
        (x.store.get keyOfA.blobref).isNone &&
        (addBlob Digests.sample {} x.store (some keyOfA.blobref) [97]).toOption.any fun r ↦
          (handleRequest Digests.sample {} ⟨true, fun _ ↦ none, fun _ s ↦ s⟩ r.2
            requestGetA).toOption.any fun served ↦ decide (served.reply.status = .ok)) =
      some true := by decide +kernel
  obtain ⟨x, hx, hanswer⟩ := Option.map_eq_some_iff.1 htest
  have hrun : runDaemon Json.plainReader Digests.sample {} ⟨true, fun _ ↦ none, fun _ s ↦ s⟩
      endlessPeer [] () [.request (fieldUpload [98])] = .ok (some x) :=
    eq_ok_of_toOption (Option.join_eq_some_iff.1 hx)
  rw [Bool.and_eq_true, Option.any_eq_true] at hanswer
  obtain ⟨hmissing, ⟨r, st⟩, hadd, hanswer⟩ := hanswer
  obtain ⟨served, hserved, hstatus⟩ := (Option.any_eq_true _ _).1 hanswer
  have hserved := eq_ok_of_toOption hserved
  obtain ⟨x₂, hfetched, rfl⟩ := exists_fetchMissing_blobOfA
    (x := { x with log := x.log ++
      [.fetched (buildEnumerationUrl (lit "http://peer") []) none x.world] })
    (Option.isNone_iff_eq_none.1 hmissing) (eq_ok_of_toOption hadd)
  -- the second page lists `a` again
  have hsecond : GetTurn Json.plainReader Digests.sample {} ⟨true, fun _ ↦ none, fun _ s ↦ s⟩
      endlessPeer (lit "http://peer") 1 x₂ (lit "a") _ keyOfA.blobref :=
    .here (fetchUrl_page (Or.inr rfl) x₂) parseSyncEnumeration_pageOfA
      (show _ = [] ++ keyOfA.blobref :: [] from rfl) rfl
  have hturn := hsecond.next (fetchUrl_page (Or.inl rfl) x) parseSyncEnumeration_pageOfA
    hfetched rfl
  have hreached : Reached Json.plainReader Digests.sample {} ⟨true, fun _ ↦ none, fun _ s ↦ s⟩
      endlessPeer [] () [.request (fieldUpload [98]), .sync ⟨lit "http://peer", .get⟩ 2] x₂.store :=
    ⟨_, [], [], .get ⟨_, ⟨lit "http://peer", .get⟩, 2, [], x, rfl, hrun, rfl, rfl, hturn⟩, rfl, rfl⟩
  obtain ⟨served', hserved', hauth⟩ := served_authentic Json.plainReader Digests.sample {}
    ⟨true, fun _ ↦ none, fun _ s ↦ s⟩ endlessPeer [] () _ x₂.store hreached requestGetA
    keyOfA.blobref rfl computed_keyOfA.isName rfl (by decide)
  obtain rfl := Except.ok.inj (hserved.symm.trans hserved')
  exact ⟨x₂.store, served, hreached, hserved, of_decide_eq_true hstatus,
    hauth (of_decide_eq_true hstatus)⟩

end Camlispp
