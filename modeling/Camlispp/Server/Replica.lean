import Camlispp.Server.Containment
import Camlispp.Store.Archive
import Camlispp.Store.Paginate

/-!
# Replicas

Every handler reads the store through its catalog (`reply_eq_of_catalog`), and the catalog is a
function of the set of contents. So the server refines a server over a set of contents: what it
answers depends on the set alone, and a request adds to the set what it uploads
(`Store.Archives.handleRequest`).

Two servers that were given the same contents, in any order and any number of times, and that keep
their files in different directories, therefore cannot be told apart by any sequence of requests
(`replicas_agree`).

## What the result rests on, and what it assumes

* `look_eq` and the lemmas `handle..._congr`: each handler is a function of the catalog and of what
  does not change. This is the only place where the handlers are gone through.
* `catalog_eq_of_archives`: stores of one set have one catalog.
* `answers_eq_of_archives`: by induction on the history, since a request puts in what it uploads.

Both servers have the same environment, and their configurations are `Alike`: one static directory,
and each data directory outside of it. **The static files are then the same all the time.** A data
directory below the static one would show its files under `/static/`.

The digests have to tell the contents apart (`Separate`), those before and those after.
-/

open Bytes Paths

namespace Camlispp

open Http

variable {D : Digests} {cfg cfg' : Config} {env : Environment} {st st' : Store} {req : Request}
  {S : Set Bytes}

/-! ### Handlers read the catalog -/

theorem look_eq (st : Store) (hash : Bytes) :
    (st.get hash).map (fun b ↦ (b.size, st.files.find b.filePath)) =
      (createBlobKey hash).bind st.catalog.find := by
  rw [Store.get]
  rcases createBlobKey hash with - | k
  · rfl
  · exact (OrdMap.find_mapValues _ st.blobs k).symm

/-- What two stores with one catalog find under a reference: nothing, or records that show the
same. -/
theorem get_cases (hcat : st.catalog = st'.catalog) (hash : Bytes) :
    st.get hash = none ∧ st'.get hash = none ∨
      ∃ b b', st.get hash = some b ∧ st'.get hash = some b' ∧ b.size = b'.size ∧
        st.files.find b.filePath = st'.files.find b'.filePath := by
  have hlook := look_eq st hash
  rw [hcat, ← look_eq st'] at hlook
  rcases hb : st.get hash with - | b
  · rw [hb, Option.map_none, eq_comm, Option.map_eq_none_iff] at hlook
    exact Or.inl ⟨rfl, hlook⟩
  · rw [hb, Option.map_some, eq_comm, Option.map_eq_some_iff] at hlook
    obtain ⟨b', hb', heq⟩ := hlook
    obtain ⟨hsize, hfile⟩ := Prod.mk.inj heq
    exact Or.inr ⟨b, b', rfl, hb', hsize.symm, hfile.symm⟩

theorem handleCheck_congr (hcat : st.catalog = st'.catalog) (requestPath : Bytes) :
    handleCheck st requestPath = handleCheck st' requestPath := by
  rcases get_cases hcat (requestPath.drop 1) with ⟨hb, hb'⟩ | ⟨b, b', hb, hb', hsize, -⟩
  · simp only [handleCheck, hb, hb']
  · simp only [handleCheck, hb, hb', hsize]

theorem handleGet_congr (hcat : st.catalog = st'.catalog) (requestPath : Bytes) (req : Request) :
    (handleGet env st requestPath req).1 = (handleGet env st' requestPath req).1 := by
  rcases get_cases hcat (requestPath.drop 1) with ⟨hb, hb'⟩ | ⟨b, b', hb, hb', -, hfile⟩
  · simp only [handleGet, hb, hb']
  · simp only [handleGet, hb, hb', hfile]
    rcases st'.files.find b'.filePath with - | content
    · rfl
    · rcases compressOutput (getHeader req.headers (lit "Accept-Encoding")) with - | format
      · rfl
      · rfl

theorem statistics_congr (hcat : st.catalog = st'.catalog) (refs : List Bytes) :
    statistics st refs = statistics st' refs := by
  have hstat : refs.filterMap (fun r ↦ (st.get r).map (blobValue r)) =
      refs.filterMap fun r ↦ (st'.get r).map (blobValue r) := by
    refine List.filterMap_congr fun r _ ↦ ?_
    rcases get_cases hcat r with ⟨hb, hb'⟩ | ⟨b, b', hb, hb', hsize, -⟩
    · rw [hb, hb']
    · rw [hb, hb', Option.map_some, Option.map_some, blobValue, blobValue, hsize]
  rw [statistics, statistics, hstat]

theorem handleStat_congr (hcat : st.catalog = st'.catalog) (requestPath : Bytes)
    (req : Request) : handleStat st requestPath req = handleStat st' requestPath req := by
  simp only [handleStat, statistics_congr hcat]

/-- A page of the index, as the catalog shows it. -/
theorem map_paginate (st : Store) (last : Option Bytes) {count : ℕ} (hcount : 0 < count) :
    (st.paginate last count).map (fun e ↦ (e.1, e.2.size)) =
      (((last.bind createBlobKey).elim st.catalog.entries st.catalog.lowerBound).take count).map
        fun e ↦ (e.1, e.2.1) := by
  have hstart : st.paginate last count =
      ((last.bind createBlobKey).elim st.blobs.entries st.blobs.lowerBound).take count := by
    rcases last with - | last
    · exact Store.pushUntil_eq hcount _
    · rw [Option.bind_some, Store.paginate]
      rcases createBlobKey last with - | k
      · exact Store.pushUntil_eq hcount _
      · exact Store.pushUntil_eq hcount _
  rw [hstart, List.map_take, List.map_take]
  rcases last.bind createBlobKey with - | k
  · rw [Option.elim_none, Option.elim_none, Store.catalog, OrdMap.mapValues, List.map_map]
    rfl
  · rw [Option.elim_some, Option.elim_some, Store.catalog, OrdMap.lowerBound_mapValues,
      List.map_map]
    rfl

/-- The document of a page says the keys and the sizes. -/
theorem enumeration_congr {blobs blobs' : List (BlobKey × Blob)}
    (h : blobs.map (fun e ↦ (e.1, e.2.size)) = blobs'.map fun e ↦ (e.1, e.2.size)) :
    enumeration blobs = enumeration blobs' := by
  have hvalues : ∀ bs : List (BlobKey × Blob),
      (bs.take 25).map (fun e ↦ blobValue e.1.blobref e.2) =
        ((bs.map fun e ↦ (e.1, e.2.size)).take 25).map fun v ↦
          Json.obj [(lit "blobRef", .str v.1.blobref), (lit "size", .int v.2)] := by
    intro bs
    rw [← List.map_take, List.map_map]
    rfl
  have hlast : ∀ bs : List (BlobKey × Blob),
      bs.getLast?.map (fun last ↦ (lit "continueAfter", Json.str last.1.blobref)) =
        (bs.map fun e ↦ (e.1, e.2.size)).getLast?.map fun v ↦
          (lit "continueAfter", Json.str v.1.blobref) := by
    intro bs
    rw [List.getLast?_map, Option.map_map]
    rfl
  have hlen : blobs.length = blobs'.length := by simpa using congrArg List.length h
  simp only [enumeration, hvalues, hlast, h, hlen]

theorem handleEnumerate_congr (hcat : st.catalog = st'.catalog) (requestPath : Bytes) :
    handleEnumerate st requestPath = handleEnumerate st' requestPath := by
  rw [handleEnumerate, handleEnumerate, enumeration_congr]
  rw [map_paginate st _ (by decide), map_paginate st' _ (by decide), hcat]

/-- **What is answered depends on the catalog alone.** -/
theorem reply_eq_of_catalog (hcat : st.catalog = st'.catalog)
    (hstatic : cfg.staticDirectory = cfg'.staticDirectory) {served served' : Served}
    (h : handleRequest D cfg env st req = .ok served)
    (h' : handleRequest D cfg' env st' req = .ok served') : served.reply = served'.reply := by
  have hfiles : ∀ path, handleStatic cfg env path = handleStatic cfg' env path := fun path ↦ by
    rw [handleStatic, handleStatic, hstatic]
  rw [handleRequest] at h h'
  rcases hd : urlDecode req.uri with - | requestPath
  · rw [hd] at h h'
    obtain rfl := Except.ok.inj h
    obtain rfl := Except.ok.inj h'
    rfl
  · simp only [hd] at h h'
    split_ifs at h h' with hpath
    · obtain rfl := Except.ok.inj h
      obtain rfl := Except.ok.inj h'
      rfl
    · rw [route] at h h'
      split_ifs at h h'
      · obtain rfl := Except.ok.inj h
        obtain rfl := Except.ok.inj h'
        exact congrArg Prod.fst (hfiles requestPath)
      · obtain rfl := Except.ok.inj h
        obtain rfl := Except.ok.inj h'
        exact handleStat_congr hcat requestPath req
      · obtain rfl := Except.ok.inj h
        obtain rfl := Except.ok.inj h'
        exact handleEnumerate_congr hcat requestPath
      · obtain rfl := Except.ok.inj h
        obtain rfl := Except.ok.inj h'
        exact handleCheck_congr hcat requestPath
      · obtain rfl := Except.ok.inj h
        obtain rfl := Except.ok.inj h'
        exact handleGet_congr hcat requestPath req
      · -- an upload is answered by its Content-Type
        rw [handlePut_eq] at h h'
        split_ifs at h h'
        · obtain rfl := Except.ok.inj h
          obtain rfl := Except.ok.inj h'
          rfl
        · obtain rfl := Except.ok.inj h
          obtain rfl := Except.ok.inj h'
          rfl
      · obtain rfl := Except.ok.inj h
        obtain rfl := Except.ok.inj h'
        rfl

/-! ### Requests add to the set -/

/-- **A request puts in what it uploads.** -/
theorem Store.Archives.handleRequest (h : st.Archives D cfg S) {served : Served}
    (hserved : handleRequest D cfg env st req = .ok served) :
    served.store.Archives D cfg (S ∪ addedBy D (requestCalls env req)) :=
  h.addBlobs (handleRequest_store hserved)

/-- The contents a history puts in. -/
def Access.contents (D : Digests) (env : Environment) (history : List Access) : Set Bytes :=
  addedBy D (history.flatMap (Access.calls env))

theorem Access.contents_cons (access : Access) (history : List Access) :
    Access.contents D env (access :: history) =
      addedBy D (access.calls env) ∪ Access.contents D env history := by
  ext x
  simp only [Access.contents, addedBy, List.flatMap_cons, Set.mem_union, Set.mem_ofPred_eq,
    List.mem_append, or_and_right, exists_or]

theorem Access.contents_append (history rest : List Access) :
    Access.contents D env (history ++ rest) =
      Access.contents D env history ∪ Access.contents D env rest := by
  ext x
  simp only [Access.contents, addedBy, List.flatMap_append, Set.mem_union, Set.mem_ofPred_eq,
    List.mem_append, or_and_right, exists_or]

theorem archives_serve {history : List Access} (hrun : serve D cfg env .empty history = .ok st) :
    st.Archives D cfg (Access.contents D env history) := by
  rw [serve_eq_addBlobs] at hrun
  exact archives_addBlobs hrun

/-! ### Whole histories -/

/-- The replies to the requests of a history. -/
def answers (D : Digests) (cfg : Config) (env : Environment) (st : Store) :
    List Access → Except Fault (List Reply)
  | [] => .ok []
  | .request req :: rest => do
    let served ← handleRequest D cfg env st req
    let replies ← answers D cfg env served.store rest
    .ok (served.reply :: replies)
  | .add call :: rest => do
    let (_, st) ← addBlob D cfg st call.providedHash call.bytes
    answers D cfg env st rest

/-- **The refinement, over runs**: the answers to any history depend on the set of contents
alone. -/
theorem answers_eq_of_archives (hstatic : cfg.staticDirectory = cfg'.staticDirectory)
    {rest : List Access} (h : st.Archives D cfg S) (h' : st'.Archives D cfg' S)
    (hS : Separate D (S ∪ Access.contents D env rest)) :
    answers D cfg env st rest = answers D cfg' env st' rest := by
  induction rest generalizing st st' S with
  | nil => rfl
  | cons access rest ih =>
    rw [Access.contents_cons, ← Set.union_assoc] at hS
    cases access with
    | request req =>
      obtain ⟨served, hserved⟩ := exists_handleRequest_eq_ok D cfg env st req
      obtain ⟨served', hserved'⟩ := exists_handleRequest_eq_ok D cfg' env st' req
      have hcat := catalog_eq_of_archives h h'
        (hS.mono (Set.subset_union_left.trans Set.subset_union_left))
      have hreply := reply_eq_of_catalog hcat hstatic hserved hserved'
      have hrest := ih (h.handleRequest hserved) (h'.handleRequest hserved') hS
      simp only [answers, hserved, hserved', bind, Except.bind, hreply, hrest]
    | add call =>
      rcases hadd : addBlob D cfg st call.providedHash call.bytes with e | r
      · -- the assertion looks at the content, not at the store
        have hnil : call.bytes = [] := by
          by_contra hne
          obtain ⟨r, hr⟩ := exists_addBlob_eq_ok D cfg hne st call.providedHash
          rw [hr] at hadd
          cases hadd
        simp only [answers, addBlob_eq, hnil, if_true, bind, Except.bind]
      · obtain ⟨r', hr'⟩ : ∃ r', addBlob D cfg' st' call.providedHash call.bytes = .ok r' := by
          refine exists_addBlob_eq_ok D cfg' (fun hnil ↦ ?_) st' call.providedHash
          rw [addBlob_eq, if_pos hnil] at hadd
          cases hadd
        have hone : ∀ {cfg : Config} {st : Store} {r : Option Blob × Store},
            addBlob D cfg st call.providedHash call.bytes = .ok r →
            addBlobs D cfg st [call] = .ok r.2 := fun hr ↦ by
          rw [addBlobs, hr]
          rfl
        have hrest := ih (h.addBlobs (hone hadd)) (h'.addBlobs (hone hr')) hS
        simp only [answers, hadd, hr', bind, Except.bind, hrest]

/-- The data directory is not in the static tree, so that what `add_blob` writes is no static file.
Both paths are relative, or neither is. -/
def Config.Apart (cfg : Config) : Prop :=
  ¬resolve [] (components cfg.staticDirectory) <+: resolve [] (components cfg.directory)

instance (cfg : Config) : Decidable cfg.Apart := inferInstanceAs (Decidable (¬_))

/-- Two configurations under which a server has the same static files all the time. -/
structure Config.Alike (cfg cfg' : Config) : Prop where
  static : cfg.staticDirectory = cfg'.staticDirectory
  apart : cfg.Apart
  apart' : cfg'.Apart

/-- **Replicas cannot be told apart.** Two servers with the same static files were given the same
contents, by uploads and by their other threads, in any order and any number of times. Then any
further history is answered by both alike, request by request, if the digests tell all contents
apart. -/
theorem replicas_agree (D : Digests) (cfg cfg' : Config) (env : Environment)
    (past past' rest : List Access) (st st' : Store) (hcfg : cfg.Alike cfg')
    (hrun : serve D cfg env .empty past = .ok st)
    (hrun' : serve D cfg' env .empty past' = .ok st')
    (hsame : Access.contents D env past = Access.contents D env past')
    (hS : Separate D (Access.contents D env (past ++ rest))) :
    answers D cfg env st rest = answers D cfg' env st' rest := by
  rw [Access.contents_append] at hS
  have harch := archives_serve hrun'
  rw [← hsame] at harch
  exact answers_eq_of_archives hcfg.static (archives_serve hrun) harch hS

/-- One server was given `a` and `b`, the other `b`, `a` and `b` again, and keeps its files
elsewhere. Asked for a listing, both give the same. -/
theorem replicas_agree_a_b : ∃ st st',
    serve Digests.sample {} ⟨true, fun _ ↦ none, fun _ s ↦ s⟩ .empty
      [.add ⟨none, [97]⟩, .add ⟨none, [98]⟩] = .ok st ∧
    serve Digests.sample ⟨lit "/srv/", lit "./static/"⟩ ⟨true, fun _ ↦ none, fun _ s ↦ s⟩ .empty
      [.add ⟨none, [98]⟩, .add ⟨none, [97]⟩, .add ⟨none, [98]⟩] = .ok st' ∧ st ≠ st' ∧
    answers Digests.sample {} ⟨true, fun _ ↦ none, fun _ s ↦ s⟩ st
        [.request ⟨lit "GET", lit "/enumerate-blobs", 1, 1, [], []⟩] =
      answers Digests.sample ⟨lit "/srv/", lit "./static/"⟩ ⟨true, fun _ ↦ none, fun _ s ↦ s⟩ st'
        [.request ⟨lit "GET", lit "/enumerate-blobs", 1, 1, [], []⟩] := by
  have hcontents : ∀ env past, past = [.add ⟨none, [97]⟩, .add ⟨none, [98]⟩] ∨
      past = [.add ⟨none, [98]⟩, .add ⟨none, [97]⟩, .add ⟨none, [98]⟩] →
      Access.contents Digests.sample env past = {[97], [98]} := by
    intro env past hpast
    ext x
    rcases hpast with rfl | rfl
    · simp [Access.contents, addedBy, Access.calls, AddCall.Accepted, providedHashOk,
        @eq_comm _ x]
    · simp [Access.contents, addedBy, Access.calls, AddCall.Accepted, providedHashOk,
        @eq_comm _ x]
      tauto
  refine ⟨_, _, rfl, rfl, by decide +kernel, ?_⟩
  refine replicas_agree _ _ _ _ [.add ⟨none, [97]⟩, .add ⟨none, [98]⟩]
    [.add ⟨none, [98]⟩, .add ⟨none, [97]⟩, .add ⟨none, [98]⟩] _ _ _
    ⟨rfl, by decide +kernel, by decide +kernel⟩ rfl rfl ?_ ?_
  · rw [hcontents _ _ (Or.inl rfl), hcontents _ _ (Or.inr rfl)]
  · have hrest : Access.contents Digests.sample ⟨true, fun _ ↦ none, fun _ s ↦ s⟩
        [.request ⟨lit "GET", lit "/enumerate-blobs", 1, 1, [], []⟩] = ∅ := by
      have hput : requestCalls ⟨true, fun _ ↦ none, fun _ s ↦ s⟩
          ⟨lit "GET", lit "/enumerate-blobs", 1, 1, [], []⟩ = [] :=
        if_neg (by rw [reachesPut_of_method (by decide)]; decide)
      simp [Access.contents, addedBy, Access.calls, hput]
    rw [Access.contents_append, hcontents _ _ (Or.inl rfl), hrest, Set.union_empty]
    exact separate_sample

end Camlispp
