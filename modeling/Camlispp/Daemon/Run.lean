import Camlispp.Library.Avoids
import Camlispp.Server.Routing
import Camlispp.Sync.Enumeration
import Camlispp.Sync.Host

/-!
# Runs of the daemon

`main`: the load directory is read in, then clients are served while the sync thread goes through
its hosts, again and again. A run is the sequence of what happens after start-up; requests that are
handled while the sync thread is inside `sync_host` are part of its `World`.

## The assertion of `add_blob`

Three callers reach it. `handle_put` never fails it, since it passes over empty payloads
(`exists_handleRequest_eq_ok`). The loading loop and `fetch_blob` hand over what they read, and fail
it exactly when that is empty (`load_eq_assertFailed_iff`, `fetchBlob_eq_assertFailed_iff`).

`runDaemon_ne_assertFailed_iff` says so for whole runs, and in both directions: a run stops there if
and only if a file of the load directory is empty, or **a blob that the run comes to ask for** comes
back empty. Other replies may be empty, and so may blobs that are never asked for.

## What the result rests on

* `GetTurn`: a get phase as a sequence of turns, one for each reference of a page. It is what the
  definition of `getPhase` goes through on its way, so it is the same whether the phase comes to its
  end, stops, or runs out of fuel behind the turn.
* `foldlM_eq_error_iff`: a loop fails where a round fails that the rounds in front of it lead to.
  With it the two loops, over the references of a page and over the events of a run, need no
  induction of their own.
* `sendPhase_avoids`: the send phase adds nothing to the local index.
-/

open Bytes Except

namespace Camlispp

variable {σ : Type} (R : Json.Read) (D : Digests) (cfg : Config) (env : Environment)
  (w : World σ)

/-! ### Start-up -/

/-- An entry of the load directory. -/
structure LoadEntry where
  isRegularFile : Bool
  /-- What the file holds, if it can be opened. -/
  content : Option Bytes
deriving DecidableEq

/-- One round of the loading loop of `main`. -/
def loadEntry (st : Store) (file : LoadEntry) : Except Fault Store :=
  if file.isRegularFile then
    match file.content with
    | some content => do
      let (_, st) ← addBlob D cfg st none content
      .ok st
    | none => .ok st
  else .ok st

/-! ### Syncing -/

/-- `SyncMode`. -/
inductive SyncMode
  | get
  | send
  | getAndSend
deriving DecidableEq

/-- `SyncConfig`. -/
structure SyncConfig where
  host : Bytes
  mode : SyncMode := .getAndSend

/-- `SyncConfig::get`. -/
def SyncConfig.get (c : SyncConfig) : Bool := c.mode = .get || c.mode = .getAndSend

/-- `SyncConfig::send`. -/
def SyncConfig.send (c : SyncConfig) : Bool := c.mode = .send || c.mode = .getAndSend

/-- The second half of `sync_host`, after a first half that came back or did not. -/
def syncSend (fuel : ℕ) (syncConfig : SyncConfig) :
    Option (Syncing σ) → Except Fault (Option (Syncing σ))
  | none => .ok none
  | some x =>
    if syncConfig.send then sendPhase R D cfg env w syncConfig.host fuel x none else .ok (some x)

/-- `sync_host`. -/
def syncHost (fuel : ℕ) (syncConfig : SyncConfig) (x : Syncing σ) :
    Except Fault (Option (Syncing σ)) :=
  if syncConfig.get then do
    let got ← getPhase R D cfg env w syncConfig.host fuel x []
    syncSend R D cfg env w fuel syncConfig got
  else syncSend R D cfg env w fuel syncConfig (some x)

section Fuel

variable {R : Json.Read} {D : Digests} {cfg : Config} {env : Environment} {w : World σ}
  {n m : ℕ}

theorem syncSend_mono (hnm : n ≤ m) (syncConfig : SyncConfig) (x : Syncing σ) :
    (syncSend R D cfg env w n syncConfig (some x)).Below
      (syncSend R D cfg env w m syncConfig (some x)) :=
  .ite (sendPhase_mono hnm x none) (.refl _)

/-- A sync that came back comes back with more fuel. -/
theorem syncHost_mono (hnm : n ≤ m) (syncConfig : SyncConfig) (x : Syncing σ) :
    (syncHost R D cfg env w n syncConfig x).Below (syncHost R D cfg env w m syncConfig x) :=
  .ite (.bind_option (getPhase_mono hnm x []) rfl (syncSend_mono hnm syncConfig))
    (syncSend_mono hnm syncConfig x)

end Fuel

/-! ### Runs -/

/-- What can happen after start-up. -/
inductive Event
  /-- A client's request is handled. -/
  | request (req : Http.Request)
  /-- The sync thread turns to a host, and goes through at most `fuel` pages in each phase. -/
  | sync (syncConfig : SyncConfig) (fuel : ℕ)

/-- One event. A phase that used up its pages is still in its loop: nothing is known to follow. -/
def stepDaemon (x : Syncing σ) : Event → Except Fault (Option (Syncing σ))
  | .request req => do
    let served ← handleRequest D cfg env x.store req
    .ok (some { x with store := served.store })
  | .sync syncConfig fuel => syncHost R D cfg env w fuel syncConfig x

/-- The events of a run, up to a phase that does not come back. -/
def runEvents (x : Syncing σ) (events : List Event) : Except Fault (Option (Syncing σ)) :=
  events.foldlM (fun x event ↦
    match x with
    | none => .ok none
    | some x => stepDaemon R D cfg env w x event) (some x)

/-- A run of the daemon from its start with nothing indexed. -/
def runDaemon (files : List LoadEntry) (s : σ) (events : List Event) :
    Except Fault (Option (Syncing σ)) := do
  let st ← files.foldlM (loadEntry D cfg) .empty
  runEvents R D cfg env w ⟨s, st, []⟩ events

/-! ### What a get phase goes through -/

/-- A get phase of at most `fuel` pages, from `x` and the cursor `last`, comes to the reference
`blobRef` of a page in the state `y`. -/
inductive GetTurn (host : Bytes) : ℕ → Syncing σ → Bytes → Syncing σ → Bytes → Prop
  | here {fuel : ℕ} {x x₁ y : Syncing σ} {last content blobRef : Bytes} {e : SyncEnumeration}
      {before after : List Bytes}
      (hfetch : fetchUrl w x (buildEnumerationUrl host last) none = (some content, x₁))
      (hparse : parseSyncEnumeration R content = .ok (some e))
      (hrefs : e.blobRefs = before ++ blobRef :: after)
      (hbefore : before.foldlM (fetchMissing D cfg env w host) x₁ = .ok y) :
      GetTurn host (fuel + 1) x last y blobRef
  | next {fuel : ℕ} {x x₁ x₂ y : Syncing σ} {last content c blobRef : Bytes} {e : SyncEnumeration}
      (hfetch : fetchUrl w x (buildEnumerationUrl host last) none = (some content, x₁))
      (hparse : parseSyncEnumeration R content = .ok (some e))
      (hpage : e.blobRefs.foldlM (fetchMissing D cfg env w host) x₁ = .ok x₂)
      (hlast : e.last = some c) (hrest : GetTurn host fuel x₂ c y blobRef) :
      GetTurn host (fuel + 1) x last y blobRef

/-- In the state `y` the reference is asked for, since it is not in the index when the other threads
have had their turn, and it is answered with an empty content. -/
def EmptyReply (host : Bytes) (y : Syncing σ) (blobRef : Bytes) : Prop :=
  ∃ y', serveOthers D cfg env w y = .ok y' ∧ y'.store.get blobRef = none ∧
    (w.fetchUrl y'.world (buildBlobUrl host blobRef) none).1 = some []

/-- In a run, a get phase with this host comes to a reference in the state `y`. -/
def RunTurn (files : List LoadEntry) (s : σ) (events : List Event) (host : Bytes) (y : Syncing σ)
    (blobRef : Bytes) : Prop :=
  ∃ before syncConfig fuel after x, events = before ++ .sync syncConfig fuel :: after ∧
    runDaemon R D cfg env w files s before = .ok (some x) ∧ syncConfig.get = true ∧
    syncConfig.host = host ∧ GetTurn R D cfg env w host fuel x [] y blobRef

/-! ### The three callers -/

variable {R D cfg env w}

/-- The other threads come to the end of their requests. -/
theorem exists_serveOthers_eq_ok (D : Digests) (cfg : Config) (env : Environment) (w : World σ)
    (x : Syncing σ) : ∃ x', serveOthers D cfg env w x = .ok x' := by
  obtain ⟨st', hst'⟩ : ∃ st', (w.others x.world).1.foldlM (fun st req ↦ do
      let served ← handleRequest D cfg env st req
      .ok served.store) x.store = (.ok st' : Except Fault Store) := by
    refine exists_foldlM_eq_ok (fun st req _ ↦ ?_) x.store
    obtain ⟨served, hserved⟩ := exists_handleRequest_eq_ok D cfg env st req
    exact ⟨served.store, by rw [hserved]; rfl⟩
  refine ⟨⟨(w.others x.world).2, st', x.log⟩, ?_⟩
  change ((w.others x.world).1.foldlM _ x.store >>= _) = _
  rw [hst']
  rfl

/-- A file of the load directory that has nothing in it. -/
def LoadEntry.Empty (file : LoadEntry) : Prop := file.isRegularFile = true ∧ file.content = some []

theorem loadEntry_spec (D : Digests) (cfg : Config) (st : Store) (file : LoadEntry) :
    file.Empty ∧ loadEntry D cfg st file = .error .assertFailed ∨
      ¬file.Empty ∧ ∃ st', loadEntry D cfg st file = .ok st' := by
  rw [loadEntry, LoadEntry.Empty]
  split_ifs with hreg
  · rcases file.content with - | content
    · exact Or.inr ⟨by simp, st, rfl⟩
    · by_cases hnil : content = []
      · subst hnil
        exact Or.inl ⟨⟨hreg, rfl⟩, rfl⟩
      · obtain ⟨r, hr⟩ := exists_addBlob_eq_ok D cfg hnil st none
        refine Or.inr ⟨by simp [hnil], r.2, ?_⟩
        change (addBlob D cfg st none content >>= _) = _
        rw [hr]
        rfl
  · exact Or.inr ⟨fun h ↦ hreg h.1, st, rfl⟩

/-- The loading loop stops the process exactly at an empty file. -/
theorem load_eq_assertFailed_iff {files : List LoadEntry} {st : Store} :
    files.foldlM (loadEntry D cfg) st = .error .assertFailed ↔ ∃ f ∈ files, f.Empty := by
  induction files generalizing st with
  | nil => exact ⟨fun h ↦ (by cases h), fun ⟨_, hf, _⟩ ↦ (by cases hf)⟩
  | cons f files ih =>
    rw [List.foldlM_cons, List.exists_mem_cons_iff]
    rcases loadEntry_spec D cfg st f with ⟨hempty, hfail⟩ | ⟨hnot, st', hok⟩
    · rw [hfail]
      exact ⟨fun _ ↦ Or.inl hempty, fun _ ↦ rfl⟩
    · rw [hok]
      exact ih.trans ⟨Or.inr, fun h ↦ h.resolve_left hnot⟩

/-- `fetch_blob` stops the process at an empty reply, and comes to its end at any other. -/
theorem fetchBlob_spec (D : Digests) (cfg : Config) (env : Environment) (w : World σ)
    (host : Bytes) (x : Syncing σ) (blobRef : Bytes) :
    (w.fetchUrl x.world (buildBlobUrl host blobRef) none).1 = some [] ∧
        fetchBlob D cfg env w host x blobRef = .error .assertFailed ∨
      (w.fetchUrl x.world (buildBlobUrl host blobRef) none).1 ≠ some [] ∧
        ∃ x', fetchBlob D cfg env w host x blobRef = .ok x' := by
  rcases hreply : (w.fetchUrl x.world (buildBlobUrl host blobRef) none).1 with - | content
  · refine Or.inr ⟨by simp, (fetchUrl w x (buildBlobUrl host blobRef) none).2, ?_⟩
    simp only [fetchBlob, fetchUrl, hreply]
  · obtain ⟨x', hx'⟩ := exists_serveOthers_eq_ok D cfg env w
      (fetchUrl w x (buildBlobUrl host blobRef) none).2
    have hstep : fetchBlob D cfg env w host x blobRef =
        (addBlob D cfg x'.store (some blobRef) content >>= fun r ↦
          .ok { x' with
            store := r.2
            log := x'.log ++ [.added ⟨blobRef, content, r.1.isSome⟩] }) := by
      simp only [fetchUrl, hreply] at hx'
      simp only [fetchBlob, fetchUrl, hreply, hx', bind, Except.bind]
    -- the content is what `add_blob` asserts about
    rw [hstep]
    by_cases hnil : content = []
    · subst hnil
      exact Or.inl ⟨rfl, rfl⟩
    · obtain ⟨r, hr⟩ := exists_addBlob_eq_ok D cfg hnil x'.store (some blobRef)
      rw [hr]
      exact Or.inr ⟨by simpa using hnil, _, rfl⟩

theorem fetchBlob_eq_assertFailed_iff {host blobRef : Bytes} {x : Syncing σ} :
    fetchBlob D cfg env w host x blobRef = .error .assertFailed ↔
      (w.fetchUrl x.world (buildBlobUrl host blobRef) none).1 = some [] := by
  rcases fetchBlob_spec D cfg env w host x blobRef with ⟨hnil, hfail⟩ | ⟨hne, x', hx'⟩
  · exact iff_of_true hfail hnil
  · exact iff_of_false (by rw [hx']; exact fun h ↦ by cases h) hne

/-! ### Whole runs -/

/-- Reading a reply throws or not, but asserts nothing. -/
theorem parseSyncEnumeration_avoids (R : Json.Read) (content : Bytes) :
    (parseSyncEnumeration R content).Avoids Fault.assertFailed := by
  have hstr : ∀ v : Json, v.getStr.Avoids Fault.assertFailed := by
    rintro (_ | _ | _ | _ | _ | _ | _) h <;> cases h
  have harr : ∀ v : Json, v.getArray.Avoids Fault.assertFailed := by
    rintro (_ | _ | _ | _ | _ | _ | _) h <;> cases h
  have hobj : ∀ v : Json, v.getObj.Avoids Fault.assertFailed := by
    rintro (_ | _ | _ | _ | _ | _ | _) h <;> cases h
  -- from the accessors up to a member, each by the rules for its construct
  have hrefs : ∀ v : Json, (blobRefsOf v).Avoids Fault.assertFailed := fun v ↦
    (hobj v).bind fun ms _ ↦ Avoids.mapM (fun m : Bytes × Json ↦ hstr m.2) _
  have harray : ∀ vs : List Json, (blobRefsOfArray vs).Avoids Fault.assertFailed := by
    intro vs
    refine (Avoids.mapM hrefs _).bind fun refs _ ↦ ?_
    split_ifs
    · exact avoids_ok _
    · exact fun h ↦ by cases h
  have hmember : ∀ e m, (parseMember e m).Avoids Fault.assertFailed := by
    intro e m
    refine Avoids.bind ?_ fun e' _ ↦ ?_
    · rw [parseLast]
      split_ifs
      · exact (hstr m.2).bind fun last _ ↦ avoids_ok _
      · exact avoids_ok e
    · rw [parseBlobs]
      split_ifs
      · exact (harr m.2).bind fun vs _ ↦ (harray vs).bind fun refs _ ↦ avoids_ok _
      · exact avoids_ok e'
  rw [parseSyncEnumeration]
  split
  · exact avoids_ok _
  · exact (Avoids.foldlM (fun e m _ ↦ hmember e m) _).bind fun e _ ↦ avoids_ok _
  · exact avoids_ok _

theorem serveOthers_avoids (x : Syncing σ) :
    (serveOthers D cfg env w x).Avoids Fault.assertFailed := by
  obtain ⟨x', hx'⟩ := exists_serveOthers_eq_ok D cfg env w x
  rw [hx']
  exact avoids_ok _

theorem fetchMissing_eq_assertFailed_iff {host blobRef : Bytes} {y : Syncing σ} :
    fetchMissing D cfg env w host y blobRef = .error .assertFailed ↔
      EmptyReply D cfg env w host y blobRef := by
  obtain ⟨y', hy'⟩ := exists_serveOthers_eq_ok D cfg env w y
  rcases hget : y'.store.get blobRef with - | b
  · have hstep : fetchMissing D cfg env w host y blobRef =
        fetchBlob D cfg env w host y' blobRef := by
      simp only [fetchMissing, hy', hget, bind, Except.bind]
    rw [hstep, EmptyReply]
    refine fetchBlob_eq_assertFailed_iff.trans ⟨fun h ↦ ⟨y', hy', hget, h⟩, ?_⟩
    rintro ⟨y'', hy'', -, h⟩
    obtain rfl := Except.ok.inj (hy'.symm.trans hy'')
    exact h
  · have hstep : fetchMissing D cfg env w host y blobRef = .ok y' := by
      simp only [fetchMissing, hy', hget, bind, Except.bind]
    rw [hstep]
    refine iff_of_false (fun h ↦ by cases h) ?_
    rintro ⟨y'', hy'', hnone, -⟩
    obtain rfl := Except.ok.inj (hy'.symm.trans hy'')
    rw [hget] at hnone
    cases hnone

/-- **Where a get phase stops the process**: at a blob it asks for that comes back empty. -/
theorem getPhase_eq_assertFailed_iff {host : Bytes} {fuel : ℕ} {x : Syncing σ} {last : Bytes} :
    getPhase R D cfg env w host fuel x last = .error .assertFailed ↔
      ∃ y blobRef, GetTurn R D cfg env w host fuel x last y blobRef ∧
        EmptyReply D cfg env w host y blobRef := by
  constructor
  · intro h
    induction fuel generalizing x last with
    | zero => cases h
    | succ fuel ih =>
      rw [getPhase] at h
      rcases hfetch : fetchUrl w x (buildEnumerationUrl host last) none with ⟨- | content, x₁⟩
      · rw [hfetch] at h
        cases h
      rw [hfetch] at h
      rcases bind_eq_error_iff.1 h with hparse | ⟨- | e, hparse, h⟩
      · exact absurd hparse (parseSyncEnumeration_avoids R content)
      · cases h
      rcases bind_eq_error_iff.1 h with hpage | ⟨x₂, hpage, h⟩
      · obtain ⟨before, ref, after, y, hrefs, hbefore, hfail⟩ := foldlM_eq_error_iff.1 hpage
        exact ⟨y, ref, .here hfetch hparse hrefs hbefore, fetchMissing_eq_assertFailed_iff.1 hfail⟩
      · rcases hlast : e.last with - | c
        · rw [hlast] at h
          cases h
        · rw [hlast] at h
          obtain ⟨y, ref, hturn, hempty⟩ := ih h
          exact ⟨y, ref, .next hfetch hparse hpage hlast hturn, hempty⟩
  · rintro ⟨y, ref, hturn, hempty⟩
    induction hturn with
    | here hfetch hparse hrefs hbefore =>
      rw [getPhase, hfetch]
      refine bind_eq_error_iff.2 (Or.inr ⟨_, hparse, bind_eq_error_iff.2 (Or.inl ?_)⟩)
      exact foldlM_eq_error_iff.2 ⟨_, _, _, _, hrefs, hbefore,
        fetchMissing_eq_assertFailed_iff.2 hempty⟩
    | next hfetch hparse hpage hlast _ ih =>
      rw [getPhase, hfetch]
      refine bind_eq_error_iff.2 (Or.inr ⟨_, hparse, bind_eq_error_iff.2 (Or.inr ⟨_, hpage, ?_⟩)⟩)
      rw [hlast]
      exact ih hempty

/-- The send phase adds nothing to the local index. -/
theorem sendPhase_avoids (host : Bytes) : ∀ (fuel : ℕ) (x : Syncing σ) (after : Option Bytes),
    (sendPhase R D cfg env w host fuel x after).Avoids Fault.assertFailed := by
  have hsend : ∀ (x : Syncing σ) (ref : Bytes),
      (sendBlob D cfg env w host x ref).Avoids Fault.assertFailed := by
    intro x ref
    refine (serveOthers_avoids _).bind fun x' _ ↦ ?_
    split
    · exact avoids_ok _
    · exact avoids_ok _
  intro fuel
  induction fuel with
  | zero => exact fun _ _ ↦ avoids_ok _
  | succ fuel ih =>
    intro x after
    rw [sendPhase]
    refine (serveOthers_avoids x).bind fun x' _ ↦ ?_
    dsimp only
    split
    · split
      · exact avoids_ok _
      · refine (parseSyncEnumeration_avoids R _).bind fun e _ ↦ ?_
        split
        · exact avoids_ok _
        · refine (Avoids.foldlM (fun x ref _ ↦ hsend x ref) _).bind fun x'' _ ↦ ?_
          split
          · exact ih _ _
          · exact avoids_ok _
    · exact avoids_ok _

theorem stepDaemon_eq_assertFailed_iff {x : Syncing σ} {event : Event} :
    stepDaemon R D cfg env w x event = .error .assertFailed ↔
      ∃ syncConfig fuel y blobRef, event = .sync syncConfig fuel ∧ syncConfig.get = true ∧
        GetTurn R D cfg env w syncConfig.host fuel x [] y blobRef ∧
        EmptyReply D cfg env w syncConfig.host y blobRef := by
  cases event with
  | request req =>
    obtain ⟨served, hserved⟩ := exists_handleRequest_eq_ok D cfg env x.store req
    refine iff_of_false ?_ ?_
    · rw [stepDaemon, hserved]
      exact fun h ↦ by cases h
    · rintro ⟨_, _, _, _, h, -⟩
      cases h
  | sync syncConfig fuel =>
    have hsend : ∀ got, (syncSend R D cfg env w fuel syncConfig got).Avoids Fault.assertFailed := by
      rintro (_ | x)
      · exact avoids_ok _
      · rw [syncSend]
        split_ifs
        · exact sendPhase_avoids _ _ _ _
        · exact avoids_ok _
    -- only the first half can stop the process
    have hget : stepDaemon R D cfg env w x (.sync syncConfig fuel) = .error .assertFailed ↔
        syncConfig.get = true ∧
          getPhase R D cfg env w syncConfig.host fuel x [] = .error .assertFailed := by
      rw [stepDaemon, syncHost]
      split_ifs with hmode
      · rw [bind_eq_error_iff, and_iff_right hmode]
        exact or_iff_left fun ⟨got, _, h⟩ ↦ hsend got h
      · exact iff_of_false (hsend _) fun h ↦ hmode h.1
    rw [hget, getPhase_eq_assertFailed_iff]
    constructor
    · rintro ⟨hmode, y, ref, hturn, hempty⟩
      exact ⟨syncConfig, fuel, y, ref, rfl, hmode, hturn, hempty⟩
    · rintro ⟨_, _, y, ref, heq, hmode, hturn, hempty⟩
      cases heq
      exact ⟨hmode, y, ref, hturn, hempty⟩

/-- **When the assertions of `add_blob` hold** in a run, whatever clients send and peers enumerate:
no file of the load directory is empty, and no blob that the sync thread asks for comes back
empty. -/
theorem runDaemon_ne_assertFailed_iff (R : Json.Read) (D : Digests) (cfg : Config)
    (env : Environment) (w : World σ) (files : List LoadEntry) (s : σ) (events : List Event) :
    runDaemon R D cfg env w files s events ≠ .error .assertFailed ↔
      (∀ f ∈ files, ¬f.Empty) ∧ ∀ host y blobRef,
        RunTurn R D cfg env w files s events host y blobRef →
          ¬EmptyReply D cfg env w host y blobRef := by
  have hrun : runDaemon R D cfg env w files s events = .error .assertFailed ↔
      (∃ f ∈ files, f.Empty) ∨ ∃ host y blobRef,
        RunTurn R D cfg env w files s events host y blobRef ∧
          EmptyReply D cfg env w host y blobRef := by
    rw [runDaemon, bind_eq_error_iff, load_eq_assertFailed_iff]
    refine or_congr_right ?_
    simp only [runEvents, foldlM_eq_error_iff]
    constructor
    · rintro ⟨st, hload, before, event, after, x, rfl, hbefore, hfail⟩
      rcases x with - | x
      · cases hfail
      obtain ⟨c, fuel, y, ref, rfl, hmode, hturn, hempty⟩ := stepDaemon_eq_assertFailed_iff.1 hfail
      refine ⟨c.host, y, ref, ⟨before, c, fuel, after, x, rfl, ?_, hmode, rfl, hturn⟩, hempty⟩
      rw [runDaemon, hload]
      exact hbefore
    · rintro ⟨_, y, ref, ⟨before, c, fuel, after, x, rfl, hbefore, hmode, rfl, hturn⟩, hempty⟩
      rw [runDaemon] at hbefore
      rcases hload : files.foldlM (loadEntry D cfg) .empty with e | st
      · rw [hload] at hbefore
        cases hbefore
      rw [hload] at hbefore
      exact ⟨st, rfl, before, _, after, some x, rfl, hbefore,
        stepDaemon_eq_assertFailed_iff.2 ⟨c, fuel, y, ref, rfl, hmode, hturn, hempty⟩⟩
  rw [ne_eq, hrun, not_or]
  simp only [not_exists, not_and]

/-- The reply of a peer that has the blob `a` under this key only. -/
def listOfA : Bytes := (enumeration [(keyOfA, recordOf Digests.sample {} 0 [97])]).write ++ crlf

theorem parseSyncEnumeration_listOfA :
    parseSyncEnumeration Json.plainReader listOfA = .ok (some ⟨none, [keyOfA.blobref]⟩) :=
  parseSyncEnumeration_enumeration Json.plainReader (by simpa using computed_keyOfA)

/-- A peer that lists the blob `a`, and has nothing to say when asked for it. -/
def silentPeer : World Unit where
  fetchUrl _ url _ := (some (if url = lit "http://peer/enumerate-blobs" then listOfA else []), ())
  upload _ _ _ _ := (none, ())
  others _ := ([], ())

/-- An empty reply for a blob stops the process, and so does an empty file at start-up. -/
theorem runDaemon_eq_assertFailed :
    runDaemon Json.plainReader Digests.sample {} ⟨true, fun _ ↦ none, fun _ s ↦ s⟩ silentPeer
        [] () [.sync ⟨lit "http://peer", .get⟩ 1] = .error .assertFailed ∧
      runDaemon Json.plainReader Digests.sample {} ⟨true, fun _ ↦ none, fun _ s ↦ s⟩ silentPeer
        [⟨true, some []⟩] () [] = .error .assertFailed := by
  refine ⟨?_, rfl⟩
  have hlist : buildEnumerationUrl (lit "http://peer") [] = lit "http://peer/enumerate-blobs" := by
    decide
  have hurl : buildBlobUrl (lit "http://peer") keyOfA.blobref ≠
      lit "http://peer/enumerate-blobs" := by decide
  have hblob : ∀ x : Syncing Unit, fetchBlob Digests.sample {} ⟨true, fun _ ↦ none, fun _ s ↦ s⟩
      silentPeer (lit "http://peer") x keyOfA.blobref = .error .assertFailed := by
    refine fun x ↦ fetchBlob_eq_assertFailed_iff.2 ?_
    show some (if _ = _ then listOfA else []) = some []
    rw [if_neg hurl]
  have hget : Store.empty.get keyOfA.blobref = none := computed_keyOfA.get_blobref .empty
  have hothers : ∀ x : Syncing Unit, serveOthers Digests.sample {}
      ⟨true, fun _ ↦ none, fun _ s ↦ s⟩ silentPeer x = .ok x := fun x ↦ rfl
  have hfetch : fetchUrl silentPeer ⟨(), .empty, []⟩ (buildEnumerationUrl (lit "http://peer") [])
      none = (some listOfA,
        ⟨(), .empty, [.fetched (lit "http://peer/enumerate-blobs") none ()]⟩) := by
    show (some (if _ = _ then listOfA else []), _) = _
    rw [if_pos hlist, hlist]
    rfl
  have hphase : getPhase Json.plainReader Digests.sample {} ⟨true, fun _ ↦ none, fun _ s ↦ s⟩
      silentPeer (lit "http://peer") 1 ⟨(), .empty, []⟩ [] = .error .assertFailed := by
    simp only [getPhase, hfetch, parseSyncEnumeration_listOfA, bind, Except.bind, List.foldlM_cons,
      fetchMissing, hothers, hget, hblob]
  have hmode : SyncConfig.get ⟨lit "http://peer", .get⟩ = true := rfl
  simp only [runDaemon, runEvents, List.foldlM_cons, List.foldlM_nil, stepDaemon, syncHost, hmode,
    if_true, hphase, bind, Except.bind, pure, Except.pure]

end Camlispp
