import Camlispp.Library.Paths
import Camlispp.Server.Routing
import Camlispp.Store.Immutability

/-!
# Which files are read

`handle_request` opens a file in two places: `handle_static` a path made of the static directory and
the decoded request path, `handle_get` the path a record of the index holds.

For the first, the test for `..` comes before the path is changed and cut, and neither can bring two
dots together: `index.html` is put behind a slash, and what is in front of a `NUL` was there before.
For the second, every record was made by an addition, so the argument is about the whole history: a
request changes the index exactly by the additions its upload makes (`handleRequest_store`), and a
server that has handled any requests, among additions by other threads, has the index those
additions make (`serve_eq_addBlobs`).

## What the result rests on

* `mem_opened_handleRequest`: everything a request can open is one of two paths. This is the only
  place where the handlers are gone through.
* `staysWithin_of_not_infix`: a path in which no two dots stand together leads nowhere up. It needs
  no more, whatever bytes the path holds.
* `recorded_addBlobs`, by `serve_eq_addBlobs`: the path in a record is a prefix of the data
  directory with hex digits behind it.

`opened_contained` says so after every history of requests and additions.
-/

open Bytes Paths

namespace Camlispp

open Http

variable (D : Digests) (cfg : Config) (env : Environment)

/-! ### What a request opens -/

/-- A path below the static directory: the directory, and behind a slash a string that, cut at its
first `NUL`, never steps above it. -/
def IsStaticPath (path : Bytes) : Prop :=
  ∃ s, path = cString (cfg.staticDirectory ++ s) ∧ s.head? = some 47 ∧ StaysWithin (cString s)

variable {D cfg env} {st : Store} {req : Request} {served : Served}

theorem infix_of_infix_index {r : Bytes} (h : [46, 46] <:+: r ++ 47 :: lit "index.html") :
    [46, 46] <:+: r := by
  induction r with
  | nil =>
    have hfind : find [46, 46] (47 :: lit "index.html") = none := by decide +kernel
    exact absurd h ((find_eq_none_iff (by decide)).1 hfind)
  | cons b r ih =>
    rw [List.cons_append, List.infix_cons_iff] at h
    rcases h with h | h
    · -- the two dots are in front of the slash
      obtain ⟨rfl, hrest⟩ := List.cons_prefix_cons.1 h
      rcases r with - | ⟨c, r⟩
      · exact absurd (List.cons_prefix_cons.1 hrest).1 (by decide)
      · obtain ⟨rfl, -⟩ := List.cons_prefix_cons.1 hrest
        exact ⟨[], r, rfl⟩
    · exact (ih h).trans (List.suffix_cons b r).isInfix

/-- Two dots in the path `handle_static` asks for were in the request. -/
theorem infix_of_infix_staticPath {requestPath : Bytes}
    (h : lit ".." <:+: staticPath requestPath) : lit ".." <:+: requestPath := by
  rw [show lit ".." = [46, 46] from rfl] at h ⊢
  rw [staticPath] at h
  split_ifs at h with hslash
  · obtain ⟨r, rfl⟩ := List.getLast?_eq_some_iff.1 hslash
    rw [List.append_assoc] at h
    exact (infix_of_infix_index h).trans (List.prefix_append r [47]).isInfix
  · exact h

theorem isStaticPath_of_mem {requestPath p : Bytes} (hhead : requestPath.head? = some 47)
    (hdots : ¬lit ".." <:+: requestPath) (hp : p ∈ (handleStatic cfg env requestPath).2) :
    IsStaticPath cfg p := by
  have hpath : p = cString (cfg.staticDirectory ++ staticPath requestPath) := by
    simp only [handleStatic] at hp
    split at hp
    · exact List.mem_singleton.1 hp
    · exact List.mem_singleton.1 hp
  refine ⟨_, hpath, ?_, staysWithin_of_not_infix fun h ↦ hdots (infix_of_infix_staticPath ?_)⟩
  · rw [staticPath]
    split_ifs
    · rw [List.head?_append, hhead]
      rfl
    · exact hhead
  · -- what is cut off was behind
    exact h.trans (List.takeWhile_prefix _).isInfix

theorem exists_get_of_mem {requestPath p : Bytes}
    (hp : p ∈ (handleGet env st requestPath req).2) :
    ∃ r b, st.get r = some b ∧ p = b.filePath := by
  rcases hget : st.get (requestPath.drop 1) with - | b
  · rw [handleGet, hget] at hp
    cases hp
  · refine ⟨_, b, hget, ?_⟩
    simp only [handleGet, hget] at hp
    split at hp
    · exact List.mem_singleton.1 hp
    · split at hp
      · exact List.mem_singleton.1 hp
      · exact List.mem_singleton.1 hp

/-! ### What a request can do -/

/-- The request gets to `handle_put`. -/
def reachesPut (env : Environment) (req : Request) : Bool :=
  match urlDecode req.uri with
  | none => false
  | some requestPath =>
    requestPath.head? = some 47 && !(find (lit "..") requestPath).isSome &&
      !(env.enableStatic && (lit "/static/").isPrefixOf requestPath) &&
      !(lit "/stat").isPrefixOf requestPath && (req.method = lit "PUT" || req.method = lit "POST")

/-- What can come of a request: one of the two handlers that read a file has read it, the upload was
stored, or neither has happened. -/
inductive Handles (D : Digests) (cfg : Config) (env : Environment) (st : Store) (req : Request) :
    Served → Prop
  | quiet (hput : reachesPut env req = false) (reply : Reply) :
      Handles D cfg env st req ⟨reply, st, []⟩
  | static (hput : reachesPut env req = false) (henv : env.enableStatic = true)
      {requestPath : Bytes} (hhead : requestPath.head? = some 47)
      (hdots : ¬lit ".." <:+: requestPath) :
      Handles D cfg env st req
        ⟨(handleStatic cfg env requestPath).1, st, (handleStatic cfg env requestPath).2⟩
  | get (hput : reachesPut env req = false) (requestPath : Bytes) :
      Handles D cfg env st req
        ⟨(handleGet env st requestPath req).1, st, (handleGet env st requestPath req).2⟩
  | put (hput : reachesPut env req = true) {r : Reply × Store}
      (hstore : handlePut D cfg st req = .ok r) : Handles D cfg env st req ⟨r.1, r.2, []⟩

theorem reachesPut_of_method (h : ¬(req.method = lit "PUT" ∨ req.method = lit "POST")) :
    reachesPut env req = false := by
  rw [reachesPut]
  split
  · rfl
  · simp [not_or.1 h]

/-- **Everything a request can do.** -/
theorem handles_handleRequest (h : handleRequest D cfg env st req = .ok served) :
    Handles D cfg env st req served := by
  rw [handleRequest] at h
  split at h
  · next hd =>
    obtain rfl := Except.ok.inj h
    exact .quiet (by rw [reachesPut, hd]) _
  · next requestPath hd =>
    split_ifs at h with hcheck
    · obtain rfl := Except.ok.inj h
      refine .quiet ?_ _
      rcases hcheck with hcheck | hcheck
      · simp [reachesPut, hd, hcheck]
      · simp [reachesPut, hd, hcheck]
    · obtain ⟨hhead, hfind⟩ := not_or.1 hcheck
      rw [Option.not_isSome_iff_eq_none] at hfind
      rw [route] at h
      split_ifs at h with hstatic hstat henum hmethod hget hput
      · obtain rfl := Except.ok.inj h
        exact .static (by simp [reachesPut, hd, hstatic]) hstatic.1 (not_not.1 hhead)
          ((find_eq_none_iff (by decide)).1 hfind)
      · obtain rfl := Except.ok.inj h
        exact .quiet (by simp [reachesPut, hd, hstat]) _
      · obtain rfl := Except.ok.inj h
        exact .quiet (reachesPut_of_method (by rw [henum.2]; decide)) _
      · obtain rfl := Except.ok.inj h
        exact .quiet (reachesPut_of_method (by rw [hmethod]; decide)) _
      · obtain rfl := Except.ok.inj h
        exact .get (reachesPut_of_method (by rw [hget]; decide)) requestPath
      · have hserved : (env.enableStatic && (lit "/static/").isPrefixOf requestPath) = false :=
          Bool.eq_false_iff.2 fun hboth ↦ hstatic (Bool.and_eq_true _ _ ▸ hboth)
        rcases hr : handlePut D cfg st req with e | r
        · rw [hr] at h
          cases h
        · rw [hr] at h
          obtain rfl := Except.ok.inj h
          refine .put ?_ hr
          simp [reachesPut, hd, not_not.1 hhead, hfind, Bool.eq_false_iff.2 hstat, hserved, hput]
      · obtain rfl := Except.ok.inj h
        exact .quiet (reachesPut_of_method hput) _

/-- **Everything a request can open.** -/
theorem mem_opened_handleRequest (h : handleRequest D cfg env st req = .ok served) {p : Bytes}
    (hp : p ∈ served.opened) :
    env.enableStatic = true ∧ IsStaticPath cfg p ∨ ∃ r b, st.get r = some b ∧ p = b.filePath := by
  cases handles_handleRequest h with
  | quiet | put => exact absurd hp List.not_mem_nil
  | static _ henv hhead hdots => exact Or.inl ⟨henv, isStaticPath_of_mem hhead hdots hp⟩
  | get => exact Or.inr (exists_get_of_mem hp)

/-! ### What a request adds -/

/-- The calls of `add_blob` that `handle_put` makes. -/
def putCalls (req : Request) : List AddCall :=
  if getHeader req.headers (lit "Content-Type") = [] then []
  else ((uploadParts req).filter fun part ↦ part.payload ≠ []).map fun part ↦ ⟨none, part.payload⟩

/-- The calls of `add_blob` that `handle_request` makes. -/
def requestCalls (env : Environment) (req : Request) : List AddCall :=
  if reachesPut env req then putCalls req else []

theorem addBlobs_append (st : Store) (cs cs' : List AddCall) :
    addBlobs D cfg st (cs ++ cs') = addBlobs D cfg st cs >>= fun st ↦ addBlobs D cfg st cs' := by
  induction cs generalizing st with
  | nil => rfl
  | cons c cs ih =>
    rw [List.cons_append, addBlobs, addBlobs]
    rcases addBlob D cfg st c.providedHash c.bytes with e | r
    · rfl
    · exact ih r.2

theorem addBlobs_parts (st : Store) (parts : List Part) :
    addBlobs D cfg st ((parts.filter fun part ↦ part.payload ≠ []).map fun part ↦
      ⟨none, part.payload⟩) = .ok (parts.foldl (Store.afterPart D cfg) st) := by
  rw [← storeParts_eq]
  induction parts generalizing st with
  | nil => rfl
  | cons part parts ih =>
    rw [storeParts, List.filter_cons]
    by_cases hp : part.payload = []
    · simpa [hp] using ih st
    · rw [if_pos (decide_eq_true hp), if_pos (List.length_pos_of_ne_nil hp), List.map_cons,
        addBlobs, addBlob_none hp]
      exact ih _

theorem addBlobs_putCalls {r : Reply × Store} (h : handlePut D cfg st req = .ok r) :
    addBlobs D cfg st (putCalls req) = .ok r.2 := by
  rw [handlePut_eq] at h
  rw [putCalls]
  split_ifs at h ⊢
  · cases h
    rfl
  · cases h
    exact addBlobs_parts st _

/-- **A request changes the index by the additions it makes**, and by nothing else. -/
theorem handleRequest_store (h : handleRequest D cfg env st req = .ok served) :
    addBlobs D cfg st (requestCalls env req) = .ok served.store := by
  cases handles_handleRequest h with
  | quiet hput | static hput | get hput =>
    rw [requestCalls, hput]
    rfl
  | put hput hstore =>
    rw [requestCalls, if_pos hput]
    exact addBlobs_putCalls hstore

/-! ### Any history -/

/-- What reaches the index: a request of a client, or an addition by another thread. -/
inductive Access
  | request (req : Request)
  | add (call : AddCall)

/-- The calls of `add_blob` an access makes. -/
def Access.calls (env : Environment) : Access → List AddCall
  | .request req => requestCalls env req
  | .add call => [call]

/-- The index after a sequence of accesses. -/
def serve (D : Digests) (cfg : Config) (env : Environment) (st : Store) :
    List Access → Except Fault Store
  | [] => .ok st
  | .request req :: rest => do
    let served ← handleRequest D cfg env st req
    serve D cfg env served.store rest
  | .add call :: rest => do
    let (_, st) ← addBlob D cfg st call.providedHash call.bytes
    serve D cfg env st rest

/-- **A server has the index its additions make.** -/
theorem serve_eq_addBlobs (st : Store) (history : List Access) :
    serve D cfg env st history = addBlobs D cfg st (history.flatMap (Access.calls env)) := by
  induction history generalizing st with
  | nil => rfl
  | cons access rest ih =>
    rw [List.flatMap_cons, addBlobs_append]
    cases access with
    | request req =>
      obtain ⟨served, hserved⟩ := exists_handleRequest_eq_ok D cfg env st req
      rw [serve, hserved, Access.calls, handleRequest_store hserved]
      exact ih served.store
    | add call =>
      rw [serve, Access.calls, addBlobs]
      rcases addBlob D cfg st call.providedHash call.bytes with e | r
      · rfl
      · exact ih r.2

/-- **No request reads outside the served trees.** Whatever was handled and added before, a request
is answered, and every file it opens on the way is below the static directory, or is the data file
of a content that was given to `add_blob` earlier. -/
theorem opened_contained (D : Digests) (cfg : Config) (env : Environment) (history : List Access)
    (st : Store) (req : Request) (hrun : serve D cfg env .empty history = .ok st) :
    ∃ served, handleRequest D cfg env st req = .ok served ∧ ∀ p ∈ served.opened,
      env.enableStatic = true ∧ IsStaticPath cfg p ∨
        ∃ c ∈ history.flatMap (Access.calls env), p = pathOf D cfg c.bytes := by
  obtain ⟨served, hserved⟩ := exists_handleRequest_eq_ok D cfg env st req
  refine ⟨served, hserved, fun p hp ↦ ?_⟩
  rcases mem_opened_handleRequest hserved hp with hstatic | ⟨r, b, hb, rfl⟩
  · exact Or.inl hstatic
  · rw [serve_eq_addBlobs] at hrun
    obtain ⟨past, hrec, hmem⟩ := recorded_addBlobs hrun
    obtain ⟨-, -, x, hx, -, hpath⟩ := hrec.names_of_get hb
    obtain ⟨c, hc, -, rfl⟩ := (hmem x).1 hx
    exact Or.inr ⟨c, hc, hpath⟩

/-- The file of a blob that was added is read, by a percent-encoded path. -/
theorem opened_contained_a : ∃ st served,
    serve Digests.sample {} ⟨true, fun _ ↦ none, fun _ s ↦ s⟩ .empty [.add ⟨none, [97]⟩] = .ok st ∧
    handleRequest Digests.sample {} ⟨true, fun _ ↦ none, fun _ s ↦ s⟩ st
      ⟨lit "GET", lit "/%73" ++ keyOfA.blobref.tail, 1, 1, [], []⟩ = .ok served ∧
    served.opened = [pathOf Digests.sample {} [97]] ∧ ∀ p ∈ served.opened, IsStaticPath {} p ∨
      ∃ c ∈ [(⟨none, [97]⟩ : AddCall)], p = pathOf Digests.sample {} c.bytes := by
  obtain ⟨served, hserved, hall⟩ := opened_contained Digests.sample {}
    ⟨true, fun _ ↦ none, fun _ s ↦ s⟩ [.add ⟨none, [97]⟩] _
    ⟨lit "GET", lit "/%73" ++ keyOfA.blobref.tail, 1, 1, [], []⟩ rfl
  refine ⟨_, served, rfl, hserved, ?_, fun p hp ↦ (hall p hp).imp_left And.right⟩
  have hopened : (handleRequest Digests.sample {} ⟨true, fun _ ↦ none, fun _ s ↦ s⟩
      (Store.stored Digests.sample {} .empty [97])
      ⟨lit "GET", lit "/%73" ++ keyOfA.blobref.tail, 1, 1, [], []⟩).toOption.map Served.opened =
        some [pathOf Digests.sample {} [97]] := by decide +kernel
  have hmap := congrArg (fun x ↦ x.toOption.map Served.opened) hserved
  exact Option.some.inj (hmap.symm.trans hopened)

end Camlispp
