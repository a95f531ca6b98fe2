import Camlispp.Library.Avoids
import Camlispp.Sync.Wire
import Mathlib.Data.Finset.Sort

/-!
# Syncing with a host

`sync_host`: the phase that fetches what the peer has and the phase that offers what the peer may
lack. Both are loops whose end the peer decides, so they run on fuel; `none` means that the fuel ran
out, not that anything failed.

Everything the thread does not decide itself is a `World`: what curl brings back, what becomes of an
upload, and which requests the other threads of the server handle in the meantime, between any two
of its accesses to the index. `Syncing` carries the world's state along with the store and a log of
what was asked, added and sent.

`Peer.world` is the world in which the other end runs this same server.

## What is taken as given

* The number of pages a phase may go through is its `fuel`. A phase that uses it up has not come
  back, which is `none`; with more fuel it does the same, and goes on (`getPhase_mono`,
  `sendPhase_mono`).
* The replies are any bytes at all. How they are read is a parameter, too: any function of the bytes
  (`Json.Read`). Results that need to know what it makes of the server's own documents take a
  `Json.Reader`.
* The other threads have a turn before each access to the index, so that nothing the sync thread has
  seen of the index need still be so.
-/

open Bytes Except

namespace Camlispp

/-- What the sync thread meets. -/
structure World (σ : Type) where
  /-- What `curl_easy_perform` brings back for a URL, with a body to post or without; `none` if the
  result is not `CURLE_OK`. A reply of any status brings its content. -/
  fetchUrl : σ → Bytes → Option Bytes → Option Bytes × σ
  /-- The upload of a file to a URL, under a reference: what the file holds, if it can be opened. -/
  upload : σ → Bytes → Bytes → Option Bytes → Option Bytes × σ
  /-- The requests that other threads handle before the next access to the index. -/
  others : σ → List Http.Request × σ

/-- A content that was fetched for a reference and given to `add_blob`, which kept it or not. -/
structure Download where
  blobRef : Bytes
  content : Bytes
  kept : Bool
deriving DecidableEq

/-- What the sync thread did. -/
inductive SyncEvent (σ : Type)
  /-- A URL was fetched, with a body to post or without, in this state of the world. -/
  | fetched (url : Bytes) (postbody : Option Bytes) (world : σ)
  /-- A fetched content was given to `add_blob`. -/
  | added (download : Download)
  /-- `send_blob` was called. -/
  | sent (blobRef : Bytes)

/-- The state of the sync thread. -/
structure Syncing (σ : Type) where
  world : σ
  store : Store
  log : List (SyncEvent σ) := []

/-- The downloads of a log. -/
def SyncEvent.download? {σ : Type} : SyncEvent σ → Option Download
  | .added d => some d
  | _ => none

def Syncing.downloads {σ : Type} (x : Syncing σ) : List Download :=
  x.log.filterMap SyncEvent.download?

variable {σ : Type} (R : Json.Read) (D : Digests) (cfg : Config) (env : Environment)
  (w : World σ)

/-- The other threads handle their requests. -/
def serveOthers (x : Syncing σ) : Except Fault (Syncing σ) := do
  let (reqs, world) := w.others x.world
  let store ← reqs.foldlM (fun st req ↦ do
    let served ← handleRequest D cfg env st req
    .ok served.store) x.store
  .ok { x with world := world, store := store }

/-- `fetch_url`, both overloads. -/
def fetchUrl (x : Syncing σ) (url : Bytes) (postbody : Option Bytes) :
    Option Bytes × Syncing σ :=
  let (buffer, world) := w.fetchUrl x.world url postbody
  (buffer, { x with world := world, log := x.log ++ [.fetched url postbody x.world] })

/-! ### The get phase -/

/-- `fetch_blob`. -/
def fetchBlob (host : Bytes) (x : Syncing σ) (blobRef : Bytes) : Except Fault (Syncing σ) :=
  match fetchUrl w x (buildBlobUrl host blobRef) none with
  | (none, x) => .ok x
  | (some content, x) => do
    let x ← serveOthers D cfg env w x
    let (blob, store) ← addBlob D cfg x.store (some blobRef) content
    .ok { x with store := store, log := x.log ++ [.added ⟨blobRef, content, blob.isSome⟩] }

/-- The body of the loop over a page: a reference that is not in the index is fetched. -/
def fetchMissing (host : Bytes) (x : Syncing σ) (blobRef : Bytes) : Except Fault (Syncing σ) := do
  let x ← serveOthers D cfg env w x
  match x.store.get blobRef with
  | none => fetchBlob D cfg env w host x blobRef
  | some _ => .ok x

/-- The get phase of `sync_host`. -/
def getPhase (host : Bytes) : ℕ → Syncing σ → Bytes → Except Fault (Option (Syncing σ))
  | 0, _, _ => .ok none
  | fuel + 1, x, last =>
    match fetchUrl w x (buildEnumerationUrl host last) none with
    | (none, x) => .ok (some x)
    | (some content, x) => do
      match ← parseSyncEnumeration R content with
      | none => .ok (some x)
      | some syncEnumeration => do
        let x ← syncEnumeration.blobRefs.foldlM (fetchMissing D cfg env w host) x
        match syncEnumeration.last with
        | none => .ok (some x)
        | some last => getPhase host fuel x last

/-! ### The send phase -/

/-- `send_blob`. Its callers ignore what it returns. -/
def sendBlob (host : Bytes) (x : Syncing σ) (blobRef : Bytes) : Except Fault (Syncing σ) := do
  let x ← serveOthers D cfg env w { x with log := x.log ++ [.sent blobRef] }
  match x.store.get blobRef with
  | none => .ok x
  | some blob =>
    let content := x.store.files.find blob.filePath
    .ok { x with world := (w.upload x.world (host ++ lit "/upload") blobRef content).2 }

/-- The send phase of `sync_host`. A page of 501 blobs ends with the first of the next. -/
def sendPhase (host : Bytes) : ℕ → Syncing σ → Option Bytes → Except Fault (Option (Syncing σ))
  | 0, _, _ => .ok none
  | fuel + 1, x, after => do
    let x ← serveOthers D cfg env w x
    let blobs := x.store.paginate after 501
    let checkMore := blobs.length = 501
    let after := if checkMore then blobs.getLast?.map fun last ↦ last.1.blobref else after
    if blobs.length > 0 then
      let checkBlobRefs : Finset Bytes := (blobs.map fun e ↦ e.1.blobref).toFinset
      match fetchUrl w x (buildStatUrl host) (some (statRequest blobs)) with
      | (none, x) => .ok (some x)
      | (some content, x) => do
        match ← parseSyncEnumeration R content with
        | none => .ok (some x)
        | some syncEnumeration => do
          let checkBlobRefs := syncEnumeration.blobRefs.foldl Finset.erase checkBlobRefs
          let x ← (checkBlobRefs.sort (· ≤ ·)).foldlM (sendBlob D cfg env w host) x
          if checkMore then sendPhase host fuel x after else .ok (some x)
    else .ok (some x)

/-- What the peer does not know of a page, after its answer: the references that are sent. -/
def sentRefs (blobs : List (BlobKey × Blob)) (e : SyncEnumeration) : List Bytes :=
  (e.blobRefs.foldl Finset.erase (blobs.map fun e ↦ e.1.blobref).toFinset).sort (· ≤ ·)

/-! ### Fuel -/

section Fuel

variable {R D cfg env w} {host : Bytes} {n m : ℕ}

/-- A get phase that came back comes back with more fuel. -/
theorem getPhase_mono (hnm : n ≤ m) (x : Syncing σ) (last : Bytes) :
    (getPhase R D cfg env w host n x last).Below (getPhase R D cfg env w host m x last) := by
  induction n generalizing m x last with
  | zero => exact below_none _
  | succ n ih =>
    obtain ⟨m, rfl⟩ : ∃ l, m = l + 1 := ⟨m - 1, by omega⟩
    rw [getPhase, getPhase]
    rcases fetchUrl w x (buildEnumerationUrl host last) none with ⟨- | content, x₁⟩
    · exact .refl _
    refine .bind _ fun e ↦ ?_
    rcases e with - | e
    · exact .refl _
    refine .bind _ fun x₂ ↦ ?_
    rcases e.last with - | c
    · exact .refl _
    · exact ih (by omega) x₂ c

/-- A send phase that came back comes back with more fuel. -/
theorem sendPhase_mono (hnm : n ≤ m) (x : Syncing σ) (after : Option Bytes) :
    (sendPhase R D cfg env w host n x after).Below (sendPhase R D cfg env w host m x after) := by
  induction n generalizing m x after with
  | zero => exact below_none _
  | succ n ih =>
    obtain ⟨m, rfl⟩ : ∃ l, m = l + 1 := ⟨m - 1, by omega⟩
    rw [sendPhase, sendPhase]
    refine .bind _ fun x₁ ↦ ?_
    refine .ite ?_ (.refl _)
    rcases fetchUrl w x₁ (buildStatUrl host) (some (statRequest (x₁.store.paginate after 501)))
      with ⟨- | content, x₂⟩
    · exact .refl _
    refine .bind _ fun e ↦ ?_
    rcases e with - | e
    · exact .refl _
    refine .bind _ fun x₃ ↦ ?_
    exact .ite (ih (by omega) x₃ _) (.refl _)

end Fuel

/-! ### A peer that runs this server -/

/-- The other end: this same server over a store that depends on the state. -/
structure Peer (σ : Type) where
  cfg : Config
  env : Environment
  /-- The peer's index and data directory. -/
  store : σ → Store
  /-- What may happen at the peer after it answered a request. -/
  next : σ → Http.Request → σ
  /-- What becomes of an upload. -/
  upload : σ → Bytes → Bytes → Option Bytes → Option Bytes × σ
  /-- The headers curl sends, with a body to post or without. -/
  headers : Option Bytes → List Http.Header
  /-- They ask for no encoding. -/
  headers_plain : ∀ postbody, Http.getHeader (headers postbody) (lit "Accept-Encoding") = []

namespace Peer

variable (peer : Peer σ)

/-- The request curl makes: `POST` if there is a body, `GET` if not. -/
def request (path : Bytes) : Option Bytes → Http.Request
  | none => ⟨lit "GET", path, 1, 1, peer.headers none, []⟩
  | some postbody => ⟨lit "POST", path, 1, 1, peer.headers (some postbody), postbody⟩

/-- The content of the peer's reply. -/
def answer (s : σ) (req : Http.Request) : Option Bytes :=
  match handleRequest D peer.cfg peer.env (peer.store s) req with
  | .ok served => some served.reply.content
  | .error _ => none

/-- The world with the peer behind `host`: what follows the host in a URL is the path. No other
thread runs. -/
def world (host : Bytes) : World σ where
  fetchUrl s url postbody :=
    if host.isPrefixOf url then
      let req := peer.request (url.drop host.length) postbody
      (peer.answer D s req, peer.next s req)
    else (none, s)
  upload := peer.upload
  others s := ([], s)

theorem answer_eq {s : σ} {req : Http.Request} {served : Served}
    (h : handleRequest D peer.cfg peer.env (peer.store s) req = .ok served) :
    peer.answer D s req = some served.reply.content := by
  rw [answer, h]

theorem fetchUrl_world (host path : Bytes) (x : Syncing σ) (postbody : Option Bytes) :
    fetchUrl (peer.world D host) x (host ++ path) postbody =
      (peer.answer D x.world (peer.request path postbody),
        { x with
          world := peer.next x.world (peer.request path postbody)
          log := x.log ++ [.fetched (host ++ path) postbody x.world] }) := by
  have hpre : host.isPrefixOf (host ++ path) = true :=
    List.isPrefixOf_iff_prefix.2 (List.prefix_append _ _)
  simp only [fetchUrl, world, hpre, if_true, List.drop_left]

variable {D}

theorem serveOthers_world {cfg : Config} {env : Environment} {host : Bytes} (x : Syncing σ) :
    serveOthers D cfg env (peer.world D host) x = .ok x := rfl

/-- A peer that always has the same store, and loses what is uploaded to it. -/
def fixed (st : Store) : Peer Unit where
  cfg := {}
  env := ⟨true, fun _ ↦ none, fun _ s ↦ s⟩
  store _ := st
  next _ _ := ()
  upload _ _ _ _ := (none, ())
  headers _ := []
  headers_plain _ := rfl

end Peer

end Camlispp
