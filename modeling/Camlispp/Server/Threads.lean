import Camlispp.Http.RequestGrammar
import Camlispp.Library.Runs
import Camlispp.Server.Replica
import Mathlib.Data.List.Forall2
import Mathlib.Data.List.ReduceOption

/-!
# Threads

The server runs its connections on a pool of threads, and the index is shared. A handler holds the
lock for one `get` or one `add_blob` at a time, so between two of them other threads can get in. A
`Task` is a request at such a point, `Task.step` takes it to the next one, and `Server.step` lets
any connection move next: one that reads, one that handles its request, or the sync thread, which
adds a blob it has fetched.

**An assumption**: `paginate` takes no lock. A run in which it overlaps an addition has no meaning
in the source, and here an enumeration is one step, as are the lookups and the additions.

## The two theorems, and what each rests on

* `written_at_once`: among others, a reply is still the one `handle_request` gives **at once**, in a
  state of the run in which the connection was being handled. Left alone a task does what
  `handle_request` does (`finish_start`, `finish_step`); that others get in between does not matter
  to `handle_get`, because the file behind a record that was found does not change any more. A stat
  request is the exception, since it looks up one reference after the other: each is reported as it
  was at such a moment, but not all at one.
* `uploads_serializable`: the uploads of different connections are stored in turns. When none is
  under way the store cannot be told apart from that of a server that handled the same requests one
  by one, **in any order**. It rests on a ledger of the calls of `add_blob` (`Accounts`): every call
  belongs to a request or to the sync thread, and every request has made its own as far as it got.
  The order of the calls is lost in it, and by `answers_eq_of_archives` it does not matter, as long
  as no two contents have a digest in common.

The first is about one connection and the states it was in, the second about all of them at the end;
the first needs nothing of the second.
-/

open Bytes Runs

namespace Camlispp

open Http

variable (D : Digests) (cfg : Config) (env : Environment)

/-! ### One request, step by step -/

/-- A request inside `handle_request`, where other threads can get in between. -/
inductive Task
  /-- The reply is complete. -/
  | answer (reply : Reply)
  /-- `handle_enumerate` before `paginate`. -/
  | enumerate (requestPath : Bytes)
  /-- `handle_check` before `get`. -/
  | check (requestPath : Bytes)
  /-- `handle_get` before `get`. -/
  | lookup (requestPath : Bytes)
  /-- `handle_get` with the record it found, before it opens the file. -/
  | read (foundBlob : Blob)
  /-- The loop of `handle_stat`: the references to look up, and the values so far. -/
  | stat (blobs : List Bytes) (found : List Json)
  /-- The loop of `handle_put`: the parts to store. -/
  | put (parts : List Part)

/-- The rest of `handle_get` behind the lookup. -/
def readFile (st : Store) (foundBlob : Blob) (req : Request) : Reply :=
  match st.files.find foundBlob.filePath with
  | none => stockReply .notFound
  | some content =>
    match compressOutput (getHeader req.headers (lit "Accept-Encoding")) with
    | none => .withContent .ok content "application/octet-stream"
    | some format =>
      let rep :=
        Reply.withContent .ok (env.zopfliCompress format content) "application/octet-stream"
      { rep with headers := rep.headers ++ [⟨lit "Content-Encoding", format.encoding⟩] }

/-- The document of `handle_stat` around the values it found. -/
def statDocument (stat : List Json) : Json :=
  .obj [(lit "stat", .arr stat), (lit "maxUploadSize", .int 1048576),
    (lit "uploadUrl", .str (lit "/upload")), (lit "uploadUrlExpirationSeconds", .int 7200),
    (lit "canLongPoll", .bool false)]

/-- `handle_stat` up to its loop. -/
def startStat (requestPath : Bytes) (req : Request) : Task :=
  if req.method = lit "GET" then
    if findUnsigned (lit "camliversion=1") requestPath = npos then .answer (stockReply .badRequest)
    else .stat (decodeQueryStringBlobs requestPath) []
  else if req.method = lit "POST" then .stat (decodeQueryStringBlobs req.content) []
  else .stat [] []

/-- `handle_put` up to its loop. -/
def startPut (req : Request) : Task :=
  if getHeader req.headers (lit "Content-Type") = [] then .answer (stockReply .badRequest)
  else .put (uploadParts req)

/-- `handle_request` behind the checks on the path, up to the first access to the index. -/
def startRoute (requestPath : Bytes) (req : Request) : Task :=
  if env.enableStatic ∧ (lit "/static/").isPrefixOf requestPath then
    .answer (handleStatic cfg env requestPath).1
  else if (lit "/stat").isPrefixOf requestPath then startStat requestPath req
  else if (lit "/enumerate-blobs").isPrefixOf requestPath ∧ req.method = lit "GET" then
    .enumerate requestPath
  else if req.method = lit "HEAD" then .check requestPath
  else if req.method = lit "GET" then .lookup requestPath
  else if req.method = lit "PUT" ∨ req.method = lit "POST" then startPut req
  else .answer (stockReply .badRequest)

/-- `handle_request` up to the first access to the index. -/
def Task.start (req : Request) : Task :=
  match urlDecode req.uri with
  | none => .answer (stockReply .badRequest)
  | some requestPath =>
    if requestPath.head? ≠ some 47 ∨ (find (lit "..") requestPath).isSome then
      .answer (stockReply .badRequest)
    else startRoute cfg env requestPath req

/-- One access to the index, and what follows up to the next. -/
def Task.step (req : Request) (st : Store) : Task → Except Fault (Task × Store)
  | .answer reply => .ok (.answer reply, st)
  | .enumerate requestPath => .ok (.answer (handleEnumerate st requestPath), st)
  | .check requestPath => .ok (.answer (handleCheck st requestPath), st)
  | .lookup requestPath =>
    match st.get (requestPath.drop 1) with
    | none => .ok (.answer (stockReply .notFound), st)
    | some foundBlob => .ok (.read foundBlob, st)
  | .read foundBlob => .ok (.answer (readFile env st foundBlob req), st)
  | .stat [] found => .ok (.answer (jsonReply (statDocument found)), st)
  | .stat (blob :: blobs) found =>
    .ok (.stat blobs (found ++ ((st.get blob).map (blobValue blob)).toList), st)
  | .put [] => .ok (.answer ⟨.ok, [], []⟩, st)
  | .put (part :: parts) =>
    if 0 < part.payload.length then do
      let (_, st) ← addBlob D cfg st none part.payload
      .ok (.put parts, st)
    else .ok (.put parts, st)

/-- What comes of a task that no other thread gets in between of. -/
def Task.finish (req : Request) (st : Store) : Task → Except Fault (Reply × Store)
  | .answer reply => .ok (reply, st)
  | .enumerate requestPath => .ok (handleEnumerate st requestPath, st)
  | .check requestPath => .ok (handleCheck st requestPath, st)
  | .lookup requestPath => .ok ((handleGet env st requestPath req).1, st)
  | .read foundBlob => .ok (readFile env st foundBlob req, st)
  | .stat blobs found =>
    .ok (jsonReply (statDocument
      (found ++ blobs.filterMap fun blob ↦ (st.get blob).map (blobValue blob))), st)
  | .put parts => do
    let st ← storeParts D cfg st parts
    .ok (⟨.ok, [], []⟩, st)

variable {D cfg env} {st st' : Store} {req : Request} {task task' : Task}

theorem handleGet_eq (env : Environment) (st : Store) (requestPath : Bytes) (req : Request) :
    (handleGet env st requestPath req).1 = match st.get (requestPath.drop 1) with
      | none => stockReply .notFound
      | some foundBlob => readFile env st foundBlob req := by
  rw [handleGet]
  rcases st.get (requestPath.drop 1) with - | b
  · rfl
  · dsimp only
    rw [readFile]
    rcases st.files.find b.filePath with - | content
    · rfl
    · dsimp only
      rcases compressOutput (getHeader req.headers (lit "Accept-Encoding")) with - | format
      · rfl
      · rfl

/-- **A step is on the way**: left alone, what comes of a task does not change by it. -/
theorem finish_step (h : task.step D cfg env req st = .ok (task', st')) :
    task'.finish D cfg env req st' = task.finish D cfg env req st := by
  cases task with
  | answer | enumerate | check | read =>
    obtain ⟨rfl, rfl⟩ := Prod.mk.inj (Except.ok.inj h)
    rfl
  | lookup requestPath =>
    rw [Task.finish, handleGet_eq]
    rw [Task.step] at h
    rcases hget : st.get (requestPath.drop 1) with - | b
    · rw [hget] at h
      obtain ⟨rfl, rfl⟩ := Prod.mk.inj (Except.ok.inj h)
      rfl
    · rw [hget] at h
      obtain ⟨rfl, rfl⟩ := Prod.mk.inj (Except.ok.inj h)
      rfl
  | stat blobs found =>
    rcases blobs with - | ⟨blob, blobs⟩
    · obtain ⟨rfl, rfl⟩ := Prod.mk.inj (Except.ok.inj h)
      simp [Task.finish]
    · obtain ⟨rfl, rfl⟩ := Prod.mk.inj (Except.ok.inj h)
      rcases hget : st.get blob with - | b
      · simp [Task.finish, hget]
      · simp [Task.finish, hget]
  | put parts =>
    rcases parts with - | ⟨part, parts⟩
    · obtain ⟨rfl, rfl⟩ := Prod.mk.inj (Except.ok.inj h)
      rfl
    · rw [Task.step] at h
      rw [Task.finish, storeParts]
      split_ifs at h ⊢ with hlen
      · rcases hadd : addBlob D cfg st none part.payload with e | r
        · rw [hadd] at h
          cases h
        · rw [hadd] at h
          obtain ⟨rfl, rfl⟩ := Prod.mk.inj (Except.ok.inj h)
          rfl
      · obtain ⟨rfl, rfl⟩ := Prod.mk.inj (Except.ok.inj h)
        rfl

/-- **Left alone, a request is handled by `handle_request`.** -/
theorem finish_start (D : Digests) (cfg : Config) (env : Environment) (st : Store)
    (req : Request) :
    (Task.start cfg env req).finish D cfg env req st =
      (handleRequest D cfg env st req).map fun served ↦ (served.reply, served.store) := by
  rw [Task.start, handleRequest]
  rcases urlDecode req.uri with - | requestPath
  · rfl
  · dsimp only
    split_ifs
    · rfl
    · rw [startRoute, route]
      split_ifs
      · rfl
      · rw [startStat, handleStat]
        split_ifs
        · rfl
        · rfl
        · rfl
        · rfl
      · rfl
      · rfl
      · rfl
      · rw [startPut, handlePut_eq]
        split_ifs
        · rfl
        · rw [Task.finish, storeParts_eq]
          rfl
      · rfl

/-! ### The pool -/

/-- A connection. -/
inductive Conn
  /-- It waits for a read to complete. -/
  | reading (p : RequestParser) (req : Request)
  /-- A thread is inside `handle_request`. -/
  | handling (req : Request) (task : Task)
  /-- The reply was given to `async_write`. -/
  | written (reply : Reply)
  /-- A read failed. -/
  | closed

/-- The connections, and the index they share. -/
structure Server (ι : Type) where
  conns : ι → Conn
  store : Store

/-- Who moves, and what a read brought. -/
inductive Turn (ι : Type)
  /-- A read of a connection completes. -/
  | read (i : ι) (buffer : Bytes)
  /-- A read of a connection fails. -/
  | fail (i : ι)
  /-- The thread that handles a request gets to its next access to the index. -/
  | run (i : ι)
  /-- The sync thread adds a blob. -/
  | add (call : AddCall)

variable {ι : Type} [DecidableEq ι]

/-- The server with one connection changed. -/
def Server.set (s : Server ι) (i : ι) (c : Conn) : Server ι :=
  { s with conns := Function.update s.conns i c }

variable (D cfg env)

/-- `handle_read` without an error. -/
def Conn.read (p : RequestParser) (req : Request) (buffer : Bytes) : Conn :=
  match handleRead p req buffer with
  | .handled req => .handling req (Task.start cfg env req)
  | .badRequest => .written (stockReply .badRequest)
  | .readSome p req => .reading p req

/-- One action, if it is possible and does not stop the process. -/
def Server.step (s : Server ι) : Turn ι → Option (Server ι)
  | .read i buffer =>
    match s.conns i with
    | .reading p req => some (s.set i (Conn.read cfg env p req buffer))
    | _ => none
  | .fail i =>
    match s.conns i with
    | .reading _ _ => some (s.set i .closed)
    | _ => none
  | .run i =>
    match s.conns i with
    | .handling _ (.answer reply) => some (s.set i (.written reply))
    | .handling req task =>
      match task.step D cfg env req s.store with
      | .ok (task, st) => some { s.set i (.handling req task) with store := st }
      | .error _ => none
    | _ => none
  | .add call =>
    match addBlob D cfg s.store call.providedHash call.bytes with
    | .ok (_, st) => some { s with store := st }
    | .error _ => none

/-- What an action can do. -/
inductive Moves (s : Server ι) : Turn ι → Server ι → Prop
  | read {i : ι} {p : RequestParser} {req : Request} (hi : s.conns i = .reading p req)
      (buffer : Bytes) : Moves s (.read i buffer) (s.set i (Conn.read cfg env p req buffer))
  | fail {i : ι} {p : RequestParser} {req : Request} (hi : s.conns i = .reading p req) :
      Moves s (.fail i) (s.set i .closed)
  | reply {i : ι} {req : Request} {rep : Reply} (hi : s.conns i = .handling req (.answer rep)) :
      Moves s (.run i) (s.set i (.written rep))
  | run {i : ι} {req : Request} {task task' : Task} {st : Store}
      (hi : s.conns i = .handling req task)
      (hstep : task.step D cfg env req s.store = .ok (task', st)) :
      Moves s (.run i) { s.set i (.handling req task') with store := st }
  | add {call : AddCall} {r : Option Blob × Store}
      (hadd : addBlob D cfg s.store call.providedHash call.bytes = .ok r) :
      Moves s (.add call) { s with store := r.2 }

variable {D cfg env} {s s' s₀ : Server ι} {i j : ι}

@[simp] theorem Server.conns_set_self (s : Server ι) (i : ι) (c : Conn) :
    (s.set i c).conns i = c := by simp [Server.set]

@[simp] theorem Server.conns_set_of_ne (s : Server ι) (c : Conn) (h : j ≠ i) :
    (s.set i c).conns j = s.conns j := by simp [Server.set, h]

/-- One connection is another, and the rest are as they were. -/
theorem Server.forall_conns_set {P : ι → Conn → Prop} {c : Conn} (hi : P i c)
    (hother : ∀ j, j ≠ i → P j (s.conns j)) (j : ι) : P j ((s.set i c).conns j) := by
  rcases eq_or_ne j i with rfl | hne
  · rwa [Server.conns_set_self]
  · rw [s.conns_set_of_ne c hne]
    exact hother j hne

/-- **Everything an action can do.** -/
theorem moves_of_step {a : Turn ι} (h : s.step D cfg env a = some s') :
    Moves D cfg env s a s' := by
  cases a with
  | read i buffer =>
    rw [Server.step] at h
    split at h
    · next hi => exact Option.some.inj h ▸ .read hi buffer
    · cases h
  | fail i =>
    rw [Server.step] at h
    split at h
    · next hi => exact Option.some.inj h ▸ .fail hi
    · cases h
  | run i =>
    rw [Server.step] at h
    split at h
    · next hi => exact Option.some.inj h ▸ .reply hi
    · next hi =>
      split at h
      · next hstep => exact Option.some.inj h ▸ .run hi hstep
      · cases h
    · cases h
  | add call =>
    rw [Server.step] at h
    split at h
    · next hadd => exact Option.some.inj h ▸ .add hadd
    · cases h

/-- The bytes a turn brings to a connection. -/
def Turn.buffer (i : ι) : Turn ι → Option Bytes
  | .read j buffer => if j = i then some buffer else none
  | _ => none

variable (D cfg env) in
/-- What a turn can do to one connection. -/
inductive Conn.Moves (s : Server ι) (i : ι) : Turn ι → Conn → Prop
  | other {a : Turn ι} (ha : a.buffer i = none) : Conn.Moves s i a (s.conns i)
  | read {p : RequestParser} {req : Request} (hi : s.conns i = .reading p req) (buffer : Bytes) :
      Conn.Moves s i (.read i buffer) (Conn.read cfg env p req buffer)
  | fail {p : RequestParser} {req : Request} (hi : s.conns i = .reading p req) :
      Conn.Moves s i (.fail i) .closed
  | reply {req : Request} {rep : Reply} (hi : s.conns i = .handling req (.answer rep)) :
      Conn.Moves s i (.run i) (.written rep)
  | run {req : Request} {task task' : Task} {st : Store} (hi : s.conns i = .handling req task)
      (hstep : task.step D cfg env req s.store = .ok (task', st)) :
      Conn.Moves s i (.run i) (.handling req task')

/-- **Everything a turn can do to one connection.** -/
theorem conn_moves {a : Turn ι} (h : Moves D cfg env s a s') (i : ι) :
    Conn.Moves D cfg env s i a (s'.conns i) := by
  cases h with
  | @read j p req hj buffer =>
    exact Server.forall_conns_set (P := fun i ↦ Conn.Moves D cfg env s i _) (.read hj buffer)
      (fun _ hne ↦ .other (if_neg hne.symm)) i
  | @fail j p req hj =>
    exact Server.forall_conns_set (P := fun i ↦ Conn.Moves D cfg env s i (.fail j))
      (.fail hj) (fun _ _ ↦ .other rfl) i
  | @reply j req rep hj =>
    exact Server.forall_conns_set (P := fun i ↦ Conn.Moves D cfg env s i (.run j))
      (.reply hj) (fun _ _ ↦ .other rfl) i
  | @run j req task task' st hj hstep =>
    exact Server.forall_conns_set (P := fun i ↦ Conn.Moves D cfg env s i (.run j))
      (.run hj hstep) (fun _ _ ↦ .other rfl) i
  | add => exact .other rfl

/-! ### What is stored on the way -/

/-- The calls of `add_blob` a task has still to make. -/
def Task.calls : Task → List AddCall
  | .put parts => (parts.filter fun part ↦ part.payload ≠ []).map fun part ↦ ⟨none, part.payload⟩
  | _ => []

/-- A request has all its calls before it. -/
theorem calls_start (cfg : Config) (env : Environment) (req : Request) :
    (Task.start cfg env req).calls = requestCalls env req := by
  have hnone : ∀ task : Task, task.calls = [] → reachesPut env req = false →
      task.calls = requestCalls env req := fun task htask hput ↦ by
    rw [htask, requestCalls, hput]
    rfl
  rw [Task.start]
  split
  · next hd => exact hnone _ rfl (by rw [reachesPut, hd])
  · next requestPath hd =>
    split_ifs with hcheck
    · refine hnone _ rfl ?_
      rcases hcheck with hcheck | hcheck
      · simp [reachesPut, hd, hcheck]
      · simp [reachesPut, hd, hcheck]
    · obtain ⟨hhead, hfind⟩ := not_or.1 hcheck
      rw [startRoute]
      split_ifs with hstatic hstat henum hmethod hget hput
      · exact hnone _ rfl (by simp [reachesPut, hd, hstatic])
      · refine hnone _ ?_ (by simp [reachesPut, hd, hstat])
        rw [startStat]
        split_ifs
        all_goals rfl
      · exact hnone _ rfl (reachesPut_of_method (by rw [henum.2]; decide))
      · exact hnone _ rfl (reachesPut_of_method (by rw [hmethod]; decide))
      · exact hnone _ rfl (reachesPut_of_method (by rw [hget]; decide))
      · have hserved : (env.enableStatic && (lit "/static/").isPrefixOf requestPath) = false :=
          Bool.eq_false_iff.2 fun hboth ↦ hstatic (Bool.and_eq_true _ _ ▸ hboth)
        have hreach : reachesPut env req = true := by
          simp [reachesPut, hd, not_not.1 hhead, Option.not_isSome_iff_eq_none.1 hfind,
            Bool.eq_false_iff.2 hstat, hserved, hput]
        rw [requestCalls, if_pos hreach, startPut, putCalls]
        split_ifs
        · rfl
        · rfl
      · exact hnone _ rfl (reachesPut_of_method hput)

/-- **A step makes the first of the calls**, or none. -/
theorem calls_step (h : task.step D cfg env req st = .ok (task', st')) :
    ∃ made, task.calls = made ++ task'.calls ∧ addBlobs D cfg st made = .ok st' := by
  cases task with
  | answer | enumerate | check | read =>
    obtain ⟨rfl, rfl⟩ := Prod.mk.inj (Except.ok.inj h)
    exact ⟨[], rfl, rfl⟩
  | lookup requestPath =>
    rw [Task.step] at h
    split at h
    · obtain ⟨rfl, rfl⟩ := Prod.mk.inj (Except.ok.inj h)
      exact ⟨[], rfl, rfl⟩
    · obtain ⟨rfl, rfl⟩ := Prod.mk.inj (Except.ok.inj h)
      exact ⟨[], rfl, rfl⟩
  | stat blobs found =>
    rcases blobs with - | ⟨blob, blobs⟩
    · obtain ⟨rfl, rfl⟩ := Prod.mk.inj (Except.ok.inj h)
      exact ⟨[], rfl, rfl⟩
    · obtain ⟨rfl, rfl⟩ := Prod.mk.inj (Except.ok.inj h)
      exact ⟨[], rfl, rfl⟩
  | put parts =>
    rcases parts with - | ⟨part, parts⟩
    · obtain ⟨rfl, rfl⟩ := Prod.mk.inj (Except.ok.inj h)
      exact ⟨[], rfl, rfl⟩
    · rw [Task.step] at h
      split_ifs at h with hlen
      · have hne : part.payload ≠ [] := List.ne_nil_of_length_pos hlen
        rw [addBlob_none hne] at h
        obtain ⟨rfl, rfl⟩ := Prod.mk.inj (Except.ok.inj h)
        refine ⟨[⟨none, part.payload⟩], by simp [Task.calls, hne], ?_⟩
        rw [addBlobs, addBlob_none hne]
        rfl
      · have hnil : part.payload = [] := by
          rwa [List.length_pos_iff, not_not] at hlen
        obtain ⟨rfl, rfl⟩ := Prod.mk.inj (Except.ok.inj h)
        exact ⟨[], by simp [Task.calls, hnil], rfl⟩

theorem Store.Extends.addBlobs {calls : List AddCall}
    (hrun : addBlobs D cfg st calls = .ok st') : st.Extends st' :=
  addBlobs_induction (P := fun st'' ↦ st.Extends st'') (fun _ h hadd ↦ h.trans (.addBlob hadd)) hrun
    (.refl st)

/-- The calls of `add_blob` that a turn makes. -/
theorem exists_calls_of_moves {a : Turn ι} (h : Moves D cfg env s a s') :
    ∃ made, addBlobs D cfg s.store made = .ok s'.store := by
  cases h with
  | read | fail | reply => exact ⟨[], rfl⟩
  | run hi hstep =>
    obtain ⟨made, -, hmade⟩ := calls_step hstep
    exact ⟨made, hmade⟩
  | @add call r hadd => exact ⟨[call], by rw [addBlobs, hadd]; rfl⟩

/-- Whatever happens, keys stay and files keep their bytes. -/
theorem extends_of_run {as : List (Turn ι)} (h : run (Server.step D cfg env) s as = some s') :
    s.store.Extends s'.store := by
  refine run_induction (P := fun _ t ↦ s.store.Extends t.store) (.refl _) ?_ h
  intro _ _ _ _ _ hext hstep
  obtain ⟨made, hmade⟩ := exists_calls_of_moves (moves_of_step hstep)
  exact hext.trans (.addBlobs hmade)

/-- Every store of the run is one of a set of contents. -/
theorem exists_archives_of_run {S : Set Bytes} (h₀ : s₀.store.Archives D cfg S)
    {as : List (Turn ι)} (h : run (Server.step D cfg env) s₀ as = some s) :
    ∃ T, s.store.Archives D cfg T := by
  refine run_induction (P := fun _ t ↦ ∃ T, t.store.Archives D cfg T) ⟨S, h₀⟩ ?_ h
  rintro _ _ _ _ - ⟨T, hT⟩ hstep
  obtain ⟨made, hmade⟩ := exists_calls_of_moves (moves_of_step hstep)
  exact ⟨_, hT.addBlobs hmade⟩

/-! ### Which request a connection handles -/

/-- The buffers a connection was given in a run. -/
def received (i : ι) (as : List (Turn ι)) : List Bytes := as.filterMap (Turn.buffer i)

/-- The request a connection reads, by what it was given. -/
def requestOf (i : ι) (as : List (Turn ι)) : List Request := calls {} .blank (received i as)

/-- A connection is where its own bytes have brought it. -/
def Conn.Follows (i : ι) (as : List (Turn ι)) : Conn → Prop
  | .reading p req => ∀ buffers, calls {} .blank (received i as ++ buffers) = calls p req buffers
  | .handling req _ => requestOf i as = [req]
  | .written _ => True
  | .closed => requestOf i as = []

theorem received_concat (as : List (Turn ι)) (a : Turn ι) :
    received i (as ++ [a]) = received i as ++ (a.buffer i).toList := by
  rw [received, List.filterMap_append, received]
  rcases h : a.buffer i with - | buffer
  · simp [h]
  · simp [h]

theorem requestOf_concat {as : List (Turn ι)} {a : Turn ι} (h : a.buffer i = none) :
    requestOf i (as ++ [a]) = requestOf i as := by
  rw [requestOf, received_concat, h, Option.toList_none, List.append_nil, requestOf]

theorem Conn.Follows.concat {c : Conn} {as : List (Turn ι)} {a : Turn ι} (h : c.Follows i as)
    (ha : a.buffer i = none) : c.Follows i (as ++ [a]) := by
  cases c with
  | reading p req =>
    rw [Follows, received_concat, ha, Option.toList_none, List.append_nil]
    exact h
  | handling | closed => exact (requestOf_concat ha).trans h
  | written => trivial

/-- A connection that reads has no request yet. -/
theorem Conn.Follows.requestOf_eq_nil {p : RequestParser} {as : List (Turn ι)}
    (h : (Conn.reading p req).Follows i as) : requestOf i as = [] := by
  have hnil := h []
  rwa [List.append_nil] at hnil

theorem Conn.Follows.calls_read {p : RequestParser} {as : List (Turn ι)}
    (h : (Conn.reading p req).Follows i as) (buffer : Bytes) (buffers : List Bytes) :
    calls {} .blank (received i (as ++ [.read i buffer]) ++ buffers) =
      calls p req (buffer :: buffers) := by
  rw [received_concat, Turn.buffer, if_pos rfl, List.append_assoc]
  exact h _

theorem Conn.Follows.requestOf_read {p : RequestParser} {as : List (Turn ι)}
    (h : (Conn.reading p req).Follows i as) (buffer : Bytes) :
    requestOf i (as ++ [.read i buffer]) = calls p req [buffer] := by
  rw [requestOf, ← h.calls_read, List.append_nil]

/-- What a completed read makes of a connection that was where its bytes had brought it. -/
theorem Conn.Follows.read {p : RequestParser} {as : List (Turn ι)} {buffer : Bytes}
    (h : (Conn.reading p req).Follows i as) :
    (Conn.read cfg env p req buffer).Follows i (as ++ [.read i buffer]) := by
  rw [Conn.read]
  rcases hread : handleRead p req buffer with req' | - | ⟨p', req'⟩
  · show requestOf i _ = [req']
    rw [h.requestOf_read, calls, hread]
  · trivial
  · intro buffers
    rw [h.calls_read, calls, hread]

/-- **A connection depends on its own bytes alone**, whatever the others do meanwhile. -/
theorem follows_of_run (h₀ : ∀ i, s₀.conns i = .reading {} .blank) {as : List (Turn ι)}
    (h : run (Server.step D cfg env) s₀ as = some s) (i : ι) : (s.conns i).Follows i as := by
  refine run_induction (P := fun as s ↦ (s.conns i).Follows i as) ?_ ?_ h
  · rw [h₀]
    exact fun _ ↦ rfl
  · intro as a s s' _ ih hstep
    have hmoves := conn_moves (moves_of_step hstep) i
    generalize s'.conns i = c at hmoves ⊢
    cases hmoves with
    | other ha => exact ih.concat ha
    | read hi buffer =>
      rw [hi] at ih
      exact ih.read
    | fail hi =>
      rw [hi] at ih
      exact (requestOf_concat rfl).trans ih.requestOf_eq_nil
    | reply => trivial
    | run hi =>
      rw [hi] at ih
      exact (requestOf_concat rfl).trans ih

/-! ### Replies -/

section Replies

variable (D cfg env) (s₀ : Server ι) (i : ι) (req : Request) (as : List (Turn ι))

/-- So the index was in a state of the run in which the connection's request was being handled. -/
def Meanwhile (P : Store → Prop) : Prop :=
  Sometime (Server.step D cfg env) s₀ as fun s ↦
    (∃ task, s.conns i = .handling req task) ∧ P s.store

/-- The reply is the one `handle_request` gives at once, in a state of the run in which the request
was being handled. -/
def AtOnce (rep : Reply) : Prop :=
  Meanwhile D cfg env s₀ i req as fun st ↦
    ∃ served, handleRequest D cfg env st req = .ok served ∧ served.reply = rep

/-- Each reference is reported as it was in a state of the run in which the request was being
handled. -/
def OneByOne (blobs : List Bytes) (found : List Json) : Prop :=
  ∃ vs, List.Forall₂ (fun blob v ↦ Meanwhile D cfg env s₀ i req as fun st ↦
    (st.get blob).map (blobValue blob) = v) blobs vs ∧ found = vs.reduceOption

/-- What a reply says. -/
def Answers (rep : Reply) : Prop :=
  AtOnce D cfg env s₀ i req as rep ∨
    ∃ blobs found, Task.start cfg env req = .stat blobs [] ∧
      OneByOne D cfg env s₀ i req as blobs found ∧ rep = jsonReply (statDocument found)

/-- How a task came about. -/
def Task.Explained : Task → Prop
  | .answer rep => Answers D cfg env s₀ i req as rep
  | .read foundBlob => ∃ requestPath, Task.start cfg env req = .lookup requestPath ∧
      Meanwhile D cfg env s₀ i req as fun st ↦ st.get (requestPath.drop 1) = some foundBlob
  | .stat blobs found => ∃ before, Task.start cfg env req = .stat (before ++ blobs) [] ∧
      OneByOne D cfg env s₀ i req as before found
  | .put _ => ∃ parts, Task.start cfg env req = .put parts
  | task => Task.start cfg env req = task

variable {D cfg env s₀ i req as}

theorem Meanwhile.mono {P : Store → Prop} (h : Meanwhile D cfg env s₀ i req as P)
    (a : Turn ι) : Meanwhile D cfg env s₀ i req (as ++ [a]) P :=
  Sometime.mono h (List.prefix_append as [a])

theorem OneByOne.mono {blobs : List Bytes} {found : List Json}
    (h : OneByOne D cfg env s₀ i req as blobs found) (a : Turn ι) :
    OneByOne D cfg env s₀ i req (as ++ [a]) blobs found := by
  obtain ⟨vs, hvs, rfl⟩ := h
  exact ⟨vs, List.Forall₂.imp (fun _ _ hv ↦ hv.mono a) hvs, rfl⟩

theorem Answers.mono {rep : Reply} (h : Answers D cfg env s₀ i req as rep) (a : Turn ι) :
    Answers D cfg env s₀ i req (as ++ [a]) rep := by
  rcases h with h | ⟨blobs, found, hstart, hfound, rfl⟩
  · exact Or.inl (Meanwhile.mono h a)
  · exact Or.inr ⟨blobs, found, hstart, hfound.mono a, rfl⟩

theorem Task.Explained.mono (h : task.Explained D cfg env s₀ i req as) (a : Turn ι) :
    task.Explained D cfg env s₀ i req (as ++ [a]) := by
  cases task with
  | answer => exact Answers.mono h a
  | read =>
    obtain ⟨requestPath, hstart, hget⟩ := h
    exact ⟨requestPath, hstart, hget.mono a⟩
  | stat =>
    obtain ⟨before, hstart, hbefore⟩ := h
    exact ⟨before, hstart, hbefore.mono a⟩
  | enumerate | check | lookup | put => exact h

/-- What comes of a whole request in one go is what `handle_request` answers. -/
theorem exists_served_of_finish {rep : Reply} (st' : Store)
    (h : (Task.start cfg env req).finish D cfg env req st = .ok (rep, st')) :
    ∃ served, handleRequest D cfg env st req = .ok served ∧ served.reply = rep := by
  obtain ⟨served, hserved⟩ := exists_handleRequest_eq_ok D cfg env st req
  rw [finish_start, hserved] at h
  exact ⟨served, hserved, (Prod.mk.inj (Except.ok.inj h)).1⟩

/-- A task at its beginning: no record was found, and nothing was reported. -/
def Task.Fresh : Task → Prop
  | .read _ => False
  | .stat _ found => found = []
  | _ => True

theorem fresh_start (cfg : Config) (env : Environment) (req : Request) :
    (Task.start cfg env req).Fresh := by
  rw [Task.start]
  split
  · trivial
  · split_ifs
    · trivial
    · rw [startRoute, startStat, startPut]
      split_ifs
      all_goals trivial

/-- The request has just been read. -/
theorem explained_start (h : run (Server.step D cfg env) s₀ as = some s)
    (hi : s.conns i = .handling req (Task.start cfg env req)) :
    (Task.start cfg env req).Explained D cfg env s₀ i req as := by
  have hfresh := fresh_start cfg env req
  rcases htask : Task.start cfg env req with rep | _ | _ | _ | _ | ⟨blobs, found⟩ | parts
  · refine Or.inl (sometime_of_run h ⟨⟨_, hi⟩, exists_served_of_finish s.store ?_⟩)
    rw [htask]
    rfl
  · exact htask
  · exact htask
  · exact htask
  · rw [htask] at hfresh
    exact hfresh.elim
  · rw [htask] at hfresh
    obtain rfl := hfresh
    exact ⟨[], htask, [], .nil, rfl⟩
  · exact ⟨parts, htask⟩

/-- The file behind a record that was found is there, and stays as it is. -/
theorem readFile_eq {S : Set Bytes} (h₀ : s₀.store.Archives D cfg S) {before rest : List (Turn ι)}
    {m : Server ι} (hm : run (Server.step D cfg env) s₀ before = some m)
    (hs : run (Server.step D cfg env) m rest = some s) {r : Bytes} {b : Blob}
    (hb : m.store.get r = some b) (req : Request) :
    readFile env m.store b req = readFile env s.store b req := by
  obtain ⟨T, past, hrec, -⟩ := exists_archives_of_run h₀ hm
  obtain ⟨k, -, hk⟩ : ∃ k, createBlobKey r = some k ∧ m.store.blobs.find k = some b := by
    rw [Store.get] at hb
    rcases hkey : createBlobKey r with - | k
    · rw [hkey] at hb
      cases hb
    · rw [hkey] at hb
      exact ⟨k, rfl, hb⟩
  obtain ⟨x, hx, -, addr, rfl⟩ := hrec.entry hk
  obtain ⟨y, hy⟩ := hrec.files x hx
  rw [readFile, readFile, filePath_recordOf, hy, (extends_of_run hs).files hy]

/-- **Every step of a task is explained by the state it is taken in.** -/
theorem Task.Explained.step {S : Set Bytes} (h₀ : s₀.store.Archives D cfg S)
    (hrun : run (Server.step D cfg env) s₀ as = some s) (hi : s.conns i = .handling req task)
    (hstep : task.step D cfg env req s.store = .ok (task', st))
    (h : task.Explained D cfg env s₀ i req as) : task'.Explained D cfg env s₀ i req as := by
  -- a reply that the task, left alone, gives from its beginning
  have honce : ∀ rep st', task = Task.start cfg env req →
      task.finish D cfg env req s.store = .ok (rep, st') → Answers D cfg env s₀ i req as rep := by
    intro rep st' htask hfinish
    rw [htask] at hfinish
    exact Or.inl (sometime_of_run hrun ⟨⟨_, hi⟩, exists_served_of_finish st' hfinish⟩)
  cases task with
  | answer =>
    obtain ⟨rfl, rfl⟩ := Prod.mk.inj (Except.ok.inj hstep)
    exact h
  | enumerate | check =>
    obtain ⟨rfl, rfl⟩ := Prod.mk.inj (Except.ok.inj hstep)
    exact honce _ _ (Eq.symm h) rfl
  | lookup requestPath =>
    rw [Task.step] at hstep
    split at hstep
    · next hget =>
      obtain ⟨rfl, rfl⟩ := Prod.mk.inj (Except.ok.inj hstep)
      refine honce _ s.store (Eq.symm h) ?_
      rw [Task.finish, handleGet_eq, hget]
    · next hget =>
      obtain ⟨rfl, rfl⟩ := Prod.mk.inj (Except.ok.inj hstep)
      exact ⟨requestPath, h, sometime_of_run hrun ⟨⟨_, hi⟩, hget⟩⟩
  | read b =>
    obtain ⟨rfl, rfl⟩ := Prod.mk.inj (Except.ok.inj hstep)
    obtain ⟨requestPath, hstart, hget⟩ := h
    -- at the moment of the lookup, reading would have given the same
    refine Or.inl ((hget.exists_run hrun).imp ?_)
    rintro m before hm ⟨⟨hhandling, hb⟩, rest, hrest⟩
    refine ⟨hhandling, exists_served_of_finish m.store ?_⟩
    rw [hstart, Task.finish, handleGet_eq, hb, ← readFile_eq h₀ hm hrest hb]
  | stat blobs found =>
    obtain ⟨before, hstart, vs, hvs, rfl⟩ := h
    rcases blobs with - | ⟨blob, blobs⟩
    · obtain ⟨rfl, rfl⟩ := Prod.mk.inj (Except.ok.inj hstep)
      rw [List.append_nil] at hstart
      exact Or.inr ⟨before, _, hstart, ⟨vs, hvs, rfl⟩, rfl⟩
    · obtain ⟨rfl, rfl⟩ := Prod.mk.inj (Except.ok.inj hstep)
      refine ⟨before ++ [blob], by rw [hstart, List.append_assoc]; rfl,
        vs ++ [(s.store.get blob).map (blobValue blob)], ?_, ?_⟩
      · exact List.rel_append hvs (.cons (sometime_of_run hrun ⟨⟨_, hi⟩, rfl⟩) .nil)
      · rw [List.reduceOption_append, List.reduceOption_singleton]
  | put parts =>
    obtain ⟨parts', hstart⟩ := h
    rcases parts with - | ⟨part, parts⟩
    · -- the reply to an upload does not depend on the index
      obtain ⟨rfl, rfl⟩ := Prod.mk.inj (Except.ok.inj hstep)
      refine Or.inl (sometime_of_run hrun ⟨⟨_, hi⟩, ?_⟩)
      refine exists_served_of_finish (parts'.foldl (Store.afterPart D cfg) s.store) ?_
      rw [hstart, Task.finish, storeParts_eq]
      rfl
    · rw [Task.step] at hstep
      split_ifs at hstep with hlen
      · rw [addBlob_none (List.ne_nil_of_length_pos hlen)] at hstep
        obtain ⟨rfl, rfl⟩ := Prod.mk.inj (Except.ok.inj hstep)
        exact ⟨parts', hstart⟩
      · obtain ⟨rfl, rfl⟩ := Prod.mk.inj (Except.ok.inj hstep)
        exact ⟨parts', hstart⟩

variable (D cfg env s₀ i as) in
/-- How a connection came to where it is. -/
def Conn.Explained : Conn → Prop
  | .handling req task => task.Explained D cfg env s₀ i req as
  | .written rep => requestOf i as = [] ∧ rep = stockReply .badRequest ∨
      ∃ req, requestOf i as = [req] ∧ Answers D cfg env s₀ i req as rep
  | _ => True

theorem Conn.Explained.concat {c : Conn} (h : c.Explained D cfg env s₀ i as) {a : Turn ι}
    (ha : a.buffer i = none) : c.Explained D cfg env s₀ i (as ++ [a]) := by
  cases c with
  | reading | closed => trivial
  | handling => exact Task.Explained.mono h a
  | written =>
    rw [Explained, requestOf_concat ha]
    exact h.imp_right fun ⟨req, hreq, hrep⟩ ↦ ⟨req, hreq, hrep.mono a⟩

/-- What a read leads to. -/
theorem explained_read {p : RequestParser} (hi : s.conns i = .reading p req) {buffer : Bytes}
    (hfollows : (s.conns i).Follows i as)
    (hrun : run (Server.step D cfg env) s₀ (as ++ [.read i buffer]) = some s')
    (hi' : s'.conns i = Conn.read cfg env p req buffer) :
    (Conn.read cfg env p req buffer).Explained D cfg env s₀ i (as ++ [.read i buffer]) := by
  rw [hi] at hfollows
  rw [Conn.read] at hi' ⊢
  rcases hread : handleRead p req buffer with req' | - | ⟨p', req'⟩
  · rw [hread] at hi'
    exact explained_start hrun hi'
  · exact Or.inl ⟨by rw [hfollows.requestOf_read, calls, hread], rfl⟩
  · trivial

/-- **Every reply is given at once.** In any interleaving of connections that start with nothing
read, over an index that was filled by additions, and while the sync thread adds blobs, the reply a
connection writes is either the stock reply to bytes that are no request, or answers the one
request its own bytes spell: as `handle_request` does **in one go**, in a state of the run in which
this request was being handled. The exception are stat requests, which report each reference as it
was in such a state. -/
theorem written_at_once (D : Digests) (cfg : Config) (env : Environment) (s₀ s : Server ι)
    (S : Set Bytes) (as : List (Turn ι)) (i : ι) (rep : Reply)
    (h₀ : ∀ i, s₀.conns i = .reading {} .blank) (hstore : s₀.store.Archives D cfg S)
    (hrun : run (Server.step D cfg env) s₀ as = some s) (hi : s.conns i = .written rep) :
    requestOf i as = [] ∧ rep = stockReply .badRequest ∨
      ∃ req, requestOf i as = [req] ∧ Answers D cfg env s₀ i req as rep := by
  have hexplained : (s.conns i).Explained D cfg env s₀ i as := by
    refine run_induction (P := fun as s ↦ (s.conns i).Explained D cfg env s₀ i as) ?_ ?_ hrun
    · rw [h₀]
      trivial
    · intro as a s s' hrun ih hstep
      have hrun' := run_concat_eq_some_iff.2 ⟨s, hrun, hstep⟩
      have hfollows := follows_of_run h₀ hrun i
      have hmoves := conn_moves (moves_of_step hstep) i
      generalize hc : s'.conns i = c at hmoves ⊢
      cases hmoves with
      | other ha => exact ih.concat ha
      | read hi buffer => exact explained_read hi hfollows hrun' hc
      | fail => trivial
      | reply hi =>
        rw [hi] at ih hfollows
        exact Or.inr ⟨_, (requestOf_concat rfl).trans hfollows, Answers.mono ih _⟩
      | run hi htask =>
        rw [hi] at ih
        exact (Task.Explained.step hstore hrun hi htask ih).mono _
  rw [hi] at hexplained
  exact hexplained

/-- The text of a request for the blob `a`. -/
def getA : Bytes := lit "GET /" ++ keyOfA.blobref ++ lit " HTTP/1.0\r\n\r\n"

/-- A connection reads its request in two pieces. Another adds `a` before the lookup, and `b`
between the lookup and the reading of the file. -/
def getTurns : List (Turn Bool) :=
  [.read true (getA.take 9), .add ⟨none, [97]⟩, .read true (getA.drop 9), .run true,
    .add ⟨none, [98]⟩, .run true, .run true]

/-- Two connections, and an empty index. -/
def idle : Server Bool := ⟨fun _ ↦ .reading {} .blank, .empty⟩

theorem written_at_once_a : ∃ s rep,
    run (Server.step Digests.sample {} ⟨true, fun _ ↦ none, fun _ s ↦ s⟩) idle getTurns = some s ∧
    s.conns true = .written rep ∧ rep.content = [97] ∧
    (requestOf true getTurns = [] ∧ rep = stockReply .badRequest ∨
      ∃ req, requestOf true getTurns = [req] ∧
        Answers Digests.sample {} ⟨true, fun _ ↦ none, fun _ s ↦ s⟩ idle true req getTurns
          rep) := by
  have hwritten : (run (Server.step Digests.sample {} ⟨true, fun _ ↦ none, fun _ s ↦ s⟩) idle
      getTurns).bind (fun s ↦ match s.conns true with
        | .written rep => some rep.content
        | _ => none) = some [97] := by decide +kernel
  obtain ⟨s, hs, hcontent⟩ := Option.bind_eq_some_iff.1 hwritten
  split at hcontent
  · next rep hrep =>
    refine ⟨s, rep, hs, hrep, Option.some.inj hcontent, ?_⟩
    exact written_at_once _ _ _ idle s ∅ getTurns true rep (fun _ ↦ rfl) archives_empty hs hrep
  · cases hcontent

end Replies

/-! ### Uploads -/

/-- What reached the index in a run: the requests of the connections, and the additions of the sync
thread. -/
def accesses (as : List (Turn ι)) : Set Access :=
  {access | (∃ i, ∃ req ∈ requestOf i as, access = .request req) ∨
    ∃ call, .add call ∈ as ∧ access = .add call}

/-- The calls of `add_blob` a connection should have made by now are among these. -/
def Conn.Made (env : Environment) (i : ι) (as : List (Turn ι)) (made : List AddCall) : Conn → Prop
  | .handling req task => ∃ done, requestCalls env req = done ++ task.calls ∧ done ⊆ made
  | .written _ => ∀ req ∈ requestOf i as, requestCalls env req ⊆ made
  | _ => True

/-- These are the calls of `add_blob` of a run. -/
structure Accounts (D : Digests) (cfg : Config) (env : Environment) (s₀ : Server ι)
    (as : List (Turn ι)) (s : Server ι) (made : List AddCall) : Prop where
  store : addBlobs D cfg s₀.store made = .ok s.store
  /-- No call comes from nowhere. -/
  sound : ∀ c ∈ made, ∃ access ∈ accesses as, c ∈ access.calls env
  /-- What the sync thread added was added. -/
  added : ∀ c, .add c ∈ as → c ∈ made
  /-- Each connection has made its calls. -/
  conns : ∀ i, (s.conns i).Made env i as made

theorem Conn.Made.mono {c : Conn} {as : List (Turn ι)} {made made' : List AddCall}
    (h : c.Made env i as made) (hsub : made ⊆ made') : c.Made env i as made' := by
  cases c with
  | reading | closed => trivial
  | handling =>
    obtain ⟨done, hdone, hmade⟩ := h
    exact ⟨done, hdone, List.Subset.trans hmade hsub⟩
  | written => exact fun req hreq ↦ List.Subset.trans (h req hreq) hsub

theorem Conn.Made.concat {c : Conn} {as : List (Turn ι)} {a : Turn ι} {made : List AddCall}
    (h : c.Made env i as made) (ha : a.buffer i = none) : c.Made env i (as ++ [a]) made := by
  cases c with
  | reading | closed | handling => exact h
  | written =>
    rw [Made, requestOf_concat ha]
    exact h

/-- A connection that read a request keeps it. -/
theorem mem_requestOf_concat (h₀ : ∀ i, s₀.conns i = .reading {} .blank) {as : List (Turn ι)}
    (hrun : run (Server.step D cfg env) s₀ as = some s) {a : Turn ι}
    (hstep : s.step D cfg env a = some s') (hreq : req ∈ requestOf i as) :
    req ∈ requestOf i (as ++ [a]) := by
  rcases hbuffer : a.buffer i with - | buffer
  · rwa [requestOf_concat hbuffer]
  · -- only a connection without a request reads
    have hfollows := follows_of_run h₀ hrun i
    have hmoves := conn_moves (moves_of_step hstep) i
    generalize s'.conns i = c at hmoves
    cases hmoves with
    | other ha => rw [ha] at hbuffer; cases hbuffer
    | read hi =>
      rw [hi] at hfollows
      rw [hfollows.requestOf_eq_nil] at hreq
      cases hreq
    | fail | reply | run => cases hbuffer

theorem accesses_concat (h₀ : ∀ i, s₀.conns i = .reading {} .blank) {as : List (Turn ι)}
    (hrun : run (Server.step D cfg env) s₀ as = some s) {a : Turn ι}
    (hstep : s.step D cfg env a = some s') : accesses as ⊆ accesses (as ++ [a]) := by
  rintro access (⟨i, req, hreq, rfl⟩ | ⟨call, hcall, rfl⟩)
  · exact Or.inl ⟨i, req, mem_requestOf_concat h₀ hrun hstep hreq, rfl⟩
  · exact Or.inr ⟨call, List.mem_append_left _ hcall, rfl⟩

/-- The calls a turn makes, and whose they are. -/
theorem exists_made (h₀ : ∀ i, s₀.conns i = .reading {} .blank) {as : List (Turn ι)}
    (hrun : run (Server.step D cfg env) s₀ as = some s) {a : Turn ι} {made : List AddCall}
    (hmade : ∀ i, (s.conns i).Made env i as made) (hstep : s.step D cfg env a = some s') :
    ∃ new, addBlobs D cfg s.store new = .ok s'.store ∧
      (∀ c ∈ new, ∃ access ∈ accesses (as ++ [a]), c ∈ access.calls env) ∧
      (∀ c, a = .add c → c ∈ new) ∧ ∀ i, (s'.conns i).Made env i (as ++ [a]) (made ++ new) := by
  have hother : ∀ i new, a.buffer i = none → (s.conns i).Made env i (as ++ [a]) (made ++ new) :=
    fun i new ha ↦ ((hmade i).mono (List.subset_append_left _ _)).concat ha
  cases moves_of_step hstep with
  | @read i p req hi buffer =>
    refine ⟨[], rfl, by simp, by simp, Server.forall_conns_set (P := fun j c ↦ c.Made env j _ _)
      ?_ fun j hne ↦ hother j [] (if_neg hne.symm)⟩
    have hfollows := follows_of_run h₀ hrun i
    rw [hi] at hfollows
    rw [Conn.read]
    rcases hread : handleRead p req buffer with req' | - | ⟨p', req'⟩
    · exact ⟨[], (calls_start cfg env req').symm, List.nil_subset _⟩
    · intro req'' hreq''
      rw [hfollows.requestOf_read, calls, hread] at hreq''
      cases hreq''
    · trivial
  | @fail i p req hi =>
    exact ⟨[], rfl, by simp, by simp, Server.forall_conns_set (P := fun j c ↦ c.Made env j _ _)
      trivial fun j _ ↦ hother j [] rfl⟩
  | @reply i req rep hi =>
    refine ⟨[], rfl, by simp, by simp, Server.forall_conns_set (P := fun j c ↦ c.Made env j _ _)
      ?_ fun j _ ↦ hother j [] rfl⟩
    have hfollows := follows_of_run h₀ hrun i
    have hdone := hmade i
    rw [hi] at hfollows hdone
    obtain ⟨done, hcalls, hsub⟩ := hdone
    have hnone : (Task.answer rep).calls = [] := rfl
    rw [Conn.Made, requestOf_concat rfl, hfollows]
    intro req' hreq'
    rw [List.mem_singleton.1 hreq', hcalls, hnone, List.append_nil, List.append_nil]
    exact hsub
  | @run i req task task' st hi htask =>
    obtain ⟨new, hnew, hadd⟩ := calls_step htask
    have hfollows := follows_of_run h₀ hrun i
    have hdone := hmade i
    rw [hi] at hfollows hdone
    obtain ⟨done, hcalls, hsub⟩ := hdone
    refine ⟨new, hadd, fun c hc ↦ ⟨.request req, Or.inl ⟨i, req, ?_, rfl⟩, ?_⟩, by simp,
      Server.forall_conns_set (P := fun j c ↦ c.Made env j _ _) ?_ fun j _ ↦ hother j new rfl⟩
    · rw [requestOf_concat rfl, hfollows]
      exact List.mem_singleton_self req
    · show c ∈ requestCalls env req
      rw [hcalls, hnew]
      exact List.mem_append_right _ (List.mem_append_left _ hc)
    · refine ⟨done ++ new, by rw [hcalls, hnew, List.append_assoc], ?_⟩
      exact List.append_subset.2 ⟨List.Subset.trans hsub (List.subset_append_left _ _),
        List.subset_append_right _ _⟩
  | @add call r hadd =>
    refine ⟨[call], by rw [addBlobs, hadd]; rfl, fun c hc ↦ ?_, by simp, fun j ↦ hother j _ rfl⟩
    obtain rfl := List.mem_singleton.1 hc
    exact ⟨.add c, Or.inr ⟨c, by simp, rfl⟩, List.mem_singleton_self c⟩

/-- **Every addition of a run belongs to a request or to the sync thread**, and every request has
made its own as far as it got. -/
theorem exists_accounts (h₀ : ∀ i, s₀.conns i = .reading {} .blank) {as : List (Turn ι)}
    (hrun : run (Server.step D cfg env) s₀ as = some s) :
    ∃ made, Accounts D cfg env s₀ as s made := by
  refine run_induction (P := fun as s ↦ ∃ made, Accounts D cfg env s₀ as s made) ?_ ?_ hrun
  · refine ⟨[], rfl, by simp, by simp, fun i ↦ ?_⟩
    rw [h₀]
    trivial
  · rintro as a s s' hrun ⟨made, hmade⟩ hstep
    obtain ⟨new, hadd, hsound, hadded, hconns⟩ := exists_made h₀ hrun hmade.conns hstep
    refine ⟨made ++ new, ?_, fun c hc ↦ ?_, fun c hc ↦ ?_, hconns⟩
    · rw [addBlobs_append, hmade.store]
      exact hadd
    · rcases List.mem_append.1 hc with hc | hc
      · obtain ⟨access, haccess, hcalls⟩ := hmade.sound c hc
        exact ⟨access, accesses_concat h₀ hrun hstep haccess, hcalls⟩
      · exact hsound c hc
    · rcases List.mem_append.1 hc with hc | hc
      · exact List.mem_append_left _ (hmade.added c hc)
      · exact List.mem_append_right _ (hadded c (List.mem_singleton.1 hc).symm)

/-- When no request is being handled, every access has made all its calls. -/
theorem Accounts.complete {as : List (Turn ι)} {made : List AddCall}
    (h : Accounts D cfg env s₀ as s made) (h₀ : ∀ i, s₀.conns i = .reading {} .blank)
    (hrun : run (Server.step D cfg env) s₀ as = some s)
    (hquiet : ∀ i req task, s.conns i ≠ .handling req task) {access : Access}
    (haccess : access ∈ accesses as) : access.calls env ⊆ made := by
  rcases haccess with ⟨i, req, hreq, rfl⟩ | ⟨call, hcall, rfl⟩
  · have hfollows := follows_of_run h₀ hrun i
    have hmade := h.conns i
    rcases hc : s.conns i with ⟨p, req'⟩ | ⟨req', task⟩ | rep | -
    · rw [hc] at hfollows
      rw [hfollows.requestOf_eq_nil] at hreq
      cases hreq
    · exact absurd hc (hquiet i req' task)
    · rw [hc] at hmade
      exact hmade req hreq
    · rw [hc] at hfollows
      rw [show requestOf i as = [] from hfollows] at hreq
      cases hreq
  · intro c hc
    obtain rfl := List.mem_singleton.1 hc
    exact h.added c hcall

theorem ne_nil_of_addBlobs {calls : List AddCall} (hrun : addBlobs D cfg st calls = .ok st') :
    ∀ c ∈ calls, c.bytes ≠ [] := by
  induction calls generalizing st with
  | nil => simp
  | cons c cs ih =>
    rcases hadd : addBlob D cfg st c.providedHash c.bytes with e | r
    · rw [addBlobs, hadd] at hrun
      cases hrun
    · rw [addBlobs, hadd] at hrun
      intro c' hc'
      rcases List.mem_cons.1 hc' with rfl | hc'
      · intro hnil
        rw [addBlob_eq, if_pos hnil] at hadd
        cases hadd
      · exact ih hrun c' hc'

theorem addedBy_mono {calls calls' : List AddCall} (h : calls ⊆ calls') :
    addedBy D calls ⊆ addedBy D calls' := fun _ ⟨c, hc, hx⟩ ↦ ⟨c, h hc, hx⟩

/-- **Uploads are serializable.** Connections take turns, each storing a part at a time, and the
sync thread adds blobs in between. Once no request is being handled, a server that handled the same
requests and additions one after the other, **in any order**, answers everything that follows in the
same way. -/
theorem uploads_serializable (D : Digests) (cfg : Config) (env : Environment) (s₀ s : Server ι)
    (S : Set Bytes) (as : List (Turn ι)) (history rest : List Access)
    (h₀ : ∀ i, s₀.conns i = .reading {} .blank) (hstore : s₀.store.Archives D cfg S)
    (hrun : run (Server.step D cfg env) s₀ as = some s)
    (hquiet : ∀ i req task, s.conns i ≠ .handling req task)
    (hhistory : ∀ access, access ∈ history ↔ access ∈ accesses as)
    (hS : Separate D (S ∪ Access.contents D env (history ++ rest))) :
    ∃ st', serve D cfg env s₀.store history = .ok st' ∧
      answers D cfg env s.store rest = answers D cfg env st' rest := by
  obtain ⟨made, hmade⟩ := exists_accounts h₀ hrun
  have hsound : made ⊆ history.flatMap (Access.calls env) := fun c hc ↦ by
    obtain ⟨access, haccess, hcalls⟩ := hmade.sound c hc
    exact List.mem_flatMap.2 ⟨access, (hhistory access).2 haccess, hcalls⟩
  have hcomplete : history.flatMap (Access.calls env) ⊆ made := fun c hc ↦ by
    obtain ⟨access, haccess, hcalls⟩ := List.mem_flatMap.1 hc
    exact hmade.complete h₀ hrun hquiet ((hhistory access).1 haccess) hcalls
  obtain ⟨st', hst'⟩ := exists_addBlobs_eq_ok D cfg
    (fun c hc ↦ ne_nil_of_addBlobs hmade.store c (hcomplete hc)) s₀.store
  refine ⟨st', by rw [serve_eq_addBlobs]; exact hst', ?_⟩
  have hadded : addedBy D made = Access.contents D env history :=
    Set.Subset.antisymm (addedBy_mono hsound) (addedBy_mono hcomplete)
  have harch := hstore.addBlobs hmade.store
  rw [hadded] at harch
  refine answers_eq_of_archives rfl harch (hstore.addBlobs hst') ?_
  rwa [Access.contents_append, ← Set.union_assoc] at hS

/-- The text of an upload of `a`. -/
def putA : Bytes :=
  lit "POST /upload HTTP/1.1\r\nContent-Type: multipart/form-data; boundary=x\r\n" ++
    lit "Content-Length: " ++ decimal (fieldUpload [97]).content.length ++ crlf ++ crlf ++
    (fieldUpload [97]).content

/-- A connection reads an upload in two pieces, and `b` is added before its part is stored. -/
def putTurns : List (Turn Bool) :=
  [.read true (putA.take 40), .read true (putA.drop 40), .add ⟨none, [98]⟩, .run true, .run true,
    .run true]

/-- The request that `putTurns` brings. -/
def requestPutA : Request :=
  ⟨lit "POST", lit "/upload", 1, 1, [⟨lit "content-type", fieldContentType.text⟩,
    ⟨lit "content-length", decimal (fieldUpload [97]).content.length⟩], (fieldUpload [97]).content⟩

theorem mem_accesses_putTurns (access : Access) : access ∈ accesses putTurns ↔
    access ∈ [.request requestPutA, .add ⟨none, [98]⟩] := by
  have htrue : requestOf true putTurns = [requestPutA] := by decide +kernel
  have hfalse : requestOf false putTurns = [] := by decide +kernel
  have hadd : ∀ call : AddCall, .add call ∈ putTurns ↔ call = ⟨none, [98]⟩ := by
    simp [putTurns]
  simp only [accesses, Set.mem_ofPred_eq, Bool.exists_bool, htrue, hfalse, hadd, List.mem_cons,
    List.not_mem_nil, or_false, false_and, exists_false, false_or, exists_eq_left]

/-- An upload during which `b` is added; one by one, the upload comes first. -/
theorem uploads_serializable_a : ∃ s st',
    run (Server.step Digests.sample {} ⟨true, fun _ ↦ none, fun _ s ↦ s⟩) idle putTurns = some s ∧
    s.conns true = .written ⟨.ok, [], []⟩ ∧
    serve Digests.sample {} ⟨true, fun _ ↦ none, fun _ s ↦ s⟩ .empty
      [.request requestPutA, .add ⟨none, [98]⟩] = .ok st' ∧
    answers Digests.sample {} ⟨true, fun _ ↦ none, fun _ s ↦ s⟩ s.store
        [.request ⟨lit "GET", 47 :: keyOfA.blobref, 1, 0, [], []⟩] =
      answers Digests.sample {} ⟨true, fun _ ↦ none, fun _ s ↦ s⟩ st'
        [.request ⟨lit "GET", 47 :: keyOfA.blobref, 1, 0, [], []⟩] := by
  have hend : (run (Server.step Digests.sample {} ⟨true, fun _ ↦ none, fun _ s ↦ s⟩) idle
      putTurns).map (fun s ↦ match s.conns true, s.conns false with
        | .written rep, .reading _ _ => decide (rep = ⟨.ok, [], []⟩)
        | _, _ => false) = some true := by decide +kernel
  obtain ⟨s, hs, hconns⟩ := Option.map_eq_some_iff.1 hend
  obtain ⟨hwritten, hquiet⟩ : s.conns true = .written ⟨.ok, [], []⟩ ∧
      ∀ i req task, s.conns i ≠ .handling req task := by
    split at hconns
    · next htrue hfalse =>
      refine ⟨by rw [htrue, of_decide_eq_true hconns], fun i req task hi ↦ ?_⟩
      cases i with
      | true => cases htrue.symm.trans hi
      | false => cases hfalse.symm.trans hi
    · cases hconns
  have hput : requestCalls ⟨true, fun _ ↦ none, fun _ s ↦ s⟩ requestPutA = [⟨none, [97]⟩] := by
    decide +kernel
  have hget : requestCalls ⟨true, fun _ ↦ none, fun _ s ↦ s⟩
      ⟨lit "GET", 47 :: keyOfA.blobref, 1, 0, [], []⟩ = [] :=
    if_neg (by rw [reachesPut_of_method (by decide)]; decide)
  have hcontents : ∅ ∪ Access.contents Digests.sample ⟨true, fun _ ↦ none, fun _ s ↦ s⟩
      ([.request requestPutA, .add ⟨none, [98]⟩] ++
        [.request ⟨lit "GET", 47 :: keyOfA.blobref, 1, 0, [], []⟩]) = {[97], [98]} := by
    ext x
    simp [Access.contents, addedBy, Access.calls, hput, hget, AddCall.Accepted, providedHashOk,
      @eq_comm _ x]
  obtain ⟨st', hst', hanswers⟩ := uploads_serializable Digests.sample {}
    ⟨true, fun _ ↦ none, fun _ s ↦ s⟩ idle s ∅ putTurns
    [.request requestPutA, .add ⟨none, [98]⟩]
    [.request ⟨lit "GET", 47 :: keyOfA.blobref, 1, 0, [], []⟩] (fun _ ↦ rfl)
    archives_empty hs hquiet (fun access ↦ (mem_accesses_putTurns access).symm)
    (hcontents ▸ separate_sample)
  exact ⟨s, st', hs, hwritten, hst', hanswers⟩

end Camlispp
