import Camlispp.Server.Json
import Camlispp.Server.Query
import Camlispp.Server.Upload

/-!
# The request handler

`handle_request` with every handler it routes to. A handled request yields a reply, the store
afterwards, and the paths of the files that were opened for reading on the way.

What lies outside the program is an `Environment`: the static files, the compressor, and whether
the static site was built in.

Routing goes by prefixes of the decoded path, in the order of the source: everything that begins
with `/stat` is a stat request, whatever the method, unless it begins with `/static/`.

## Faults

A handler runs in `Except Fault`. The only fault it could raise is the assertion of `add_blob`,
which `handle_put` never fails (`exists_handleRequest_eq_ok`). What a request changes is said in
`Containment`, what it depends on in `Replica`, and what several of them do at once in `Threads`.

The static files do not change. A server that kept its data directory below its static one would
serve its own blobs as static files, which this model does not say; where it matters, the two are
apart (`Config.Apart`).
-/

open Bytes

namespace Camlispp

open Http

/-- `ZopfliFormat`. -/
inductive ZopfliFormat
  | gzip
  | zlib
  | deflate
deriving DecidableEq

/-- What the handlers use from outside the program. -/
structure Environment where
  /-- `ENABLE_STATIC`, which is on by default. -/
  enableStatic : Bool := true
  /-- What reading the file at a path gives, if it can be opened. -/
  staticFile : Bytes → Option Bytes
  /-- `ZopfliCompress` with the default options. -/
  zopfliCompress : ZopfliFormat → Bytes → Bytes

/-- A handled request. -/
structure Served where
  reply : Reply
  store : Store
  /-- The paths given to `std::ifstream`, in order. -/
  opened : List Bytes

variable (D : Digests) (cfg : Config) (env : Environment)

/-! ### Static files -/

/-- `mime_types::extension_to_type`. -/
def extensionToType (extension : Bytes) : String :=
  if extension = lit "gif" then "image/gif"
  else if extension = lit "htm" then "text/html"
  else if extension = lit "html" then "text/html"
  else if extension = lit "jpg" then "image/jpeg"
  else if extension = lit "png" then "image/png"
  else if extension = lit "css" then "text/css"
  else "text/plain"

/-- The path `handle_static` asks for: a directory stands for its `index.html`. -/
def staticPath (requestPath : Bytes) : Bytes :=
  if requestPath.getLast? = some 47 then requestPath ++ lit "index.html" else requestPath

/-- The extension: what follows the last dot, if no slash follows it. -/
def extension (requestPath : Bytes) : Bytes :=
  match findLast (lit ".") requestPath with
  | some dot => if dot > (findLast (lit "/") requestPath).getD npos then requestPath.drop (dot + 1)
    else []
  | none => []

/-- `handle_static`. The path is handed over as a C string. -/
def handleStatic (requestPath : Bytes) : Reply × List Bytes :=
  let requestPath := staticPath requestPath
  let fullPath := cString (cfg.staticDirectory ++ requestPath)
  match env.staticFile fullPath with
  | none => (stockReply .notFound, [fullPath])
  | some content =>
    (.withContent .ok content (extensionToType (extension requestPath)), [fullPath])

/-! ### One blob -/

/-- `handle_check`. -/
def handleCheck (st : Store) (requestPath : Bytes) : Reply :=
  match st.get (requestPath.drop 1) with
  | none => stockReply .notFound
  | some foundBlob =>
    { status := .ok
      headers := [⟨lit "Content-Length", decimalInt foundBlob.size⟩,
        ⟨lit "Content-Type", lit "application/octet-stream"⟩]
      content := [] }

/-- The format `handle_get` chooses for an Accept-Encoding, if any. -/
def compressOutput (acceptEncoding : Bytes) : Option ZopfliFormat :=
  if (lit "gzip").isPrefixOf acceptEncoding then some .gzip
  else if (lit "deflate").isPrefixOf acceptEncoding then some .deflate
  else if (lit "zlib").isPrefixOf acceptEncoding then some .zlib
  else none

/-- The Content-Encoding of a format. -/
def ZopfliFormat.encoding : ZopfliFormat → Bytes
  | .gzip => lit "gzip"
  | .zlib => lit "zlib"
  | .deflate => lit "deflate"

/-- `handle_get`. -/
def handleGet (st : Store) (requestPath : Bytes) (req : Request) : Reply × List Bytes :=
  match st.get (requestPath.drop 1) with
  | none => (stockReply .notFound, [])
  | some foundBlob =>
    let fullPath := foundBlob.filePath
    match st.files.find fullPath with
    | none => (stockReply .notFound, [fullPath])
    | some content =>
      match compressOutput (getHeader req.headers (lit "Accept-Encoding")) with
      | none => (.withContent .ok content "application/octet-stream", [fullPath])
      | some format =>
        let rep :=
          Reply.withContent .ok (env.zopfliCompress format content) "application/octet-stream"
        ({ rep with headers := rep.headers ++ [⟨lit "Content-Encoding", format.encoding⟩] },
          [fullPath])

/-! ### Many blobs -/

/-- The JSON object of one blob. -/
def blobValue (ref : Bytes) (b : Blob) : Json :=
  .obj [(lit "blobRef", .str ref), (lit "size", .int b.size)]

/-- The document `handle_enumerate` writes for what `paginate` returned: 25 blobs, and the key of
the twenty-sixth to continue with. -/
def enumeration (blobs : List (BlobKey × Blob)) : Json :=
  let stat := (blobs.take 25).map fun e ↦ blobValue e.1.blobref e.2
  let continueAfter :=
    if blobs.length > 25 then
      (blobs.getLast?.map fun last ↦ (lit "continueAfter", Json.str last.1.blobref)).toList
    else []
  .obj ((lit "blobs", .arr stat) :: (continueAfter ++ [(lit "canLongPoll", .str (lit "false"))]))

/-- A JSON document as a reply. -/
def jsonReply (result : Json) : Reply := .withContent .ok (result.write ++ crlf) "application/json"

/-- `handle_enumerate`. -/
def handleEnumerate (st : Store) (requestPath : Bytes) : Reply :=
  jsonReply (enumeration (st.paginate (decodeQueryStringAfter requestPath) 26))

/-- The document `handle_stat` writes for the references it was asked about. -/
def statistics (st : Store) (blobs : List Bytes) : Json :=
  let stat := blobs.filterMap fun blob ↦ (st.get blob).map (blobValue blob)
  .obj [(lit "stat", .arr stat), (lit "maxUploadSize", .int 1048576),
    (lit "uploadUrl", .str (lit "/upload")), (lit "uploadUrlExpirationSeconds", .int 7200),
    (lit "canLongPoll", .bool false)]

/-- `handle_stat`. The position of `camliversion=1` is an `unsigned` and is compared with `npos`. -/
def handleStat (st : Store) (requestPath : Bytes) (req : Request) : Reply :=
  if req.method = lit "GET" then
    if findUnsigned (lit "camliversion=1") requestPath = npos then stockReply .badRequest
    else jsonReply (statistics st (decodeQueryStringBlobs requestPath))
  else if req.method = lit "POST" then
    jsonReply (statistics st (decodeQueryStringBlobs req.content))
  else jsonReply (statistics st [])

/-! ### Routing -/

/-- `handle_request` behind the checks on the path. -/
def route (st : Store) (requestPath : Bytes) (req : Request) : Except Fault Served :=
  if env.enableStatic ∧ (lit "/static/").isPrefixOf requestPath then
    let (rep, opened) := handleStatic cfg env requestPath
    .ok ⟨rep, st, opened⟩
  else if (lit "/stat").isPrefixOf requestPath then .ok ⟨handleStat st requestPath req, st, []⟩
  else if (lit "/enumerate-blobs").isPrefixOf requestPath ∧ req.method = lit "GET" then
    .ok ⟨handleEnumerate st requestPath, st, []⟩
  else if req.method = lit "HEAD" then .ok ⟨handleCheck st requestPath, st, []⟩
  else if req.method = lit "GET" then
    let (rep, opened) := handleGet env st requestPath req
    .ok ⟨rep, st, opened⟩
  else if req.method = lit "PUT" ∨ req.method = lit "POST" then do
    let (rep, st) ← handlePut D cfg st req
    .ok ⟨rep, st, []⟩
  else .ok ⟨stockReply .badRequest, st, []⟩

/-- `handle_request`. -/
def handleRequest (st : Store) (req : Request) : Except Fault Served :=
  match urlDecode req.uri with
  | none => .ok ⟨stockReply .badRequest, st, []⟩
  | some requestPath =>
    if requestPath.head? ≠ some 47 ∨ (find (lit "..") requestPath).isSome then
      .ok ⟨stockReply .badRequest, st, []⟩
    else route D cfg env st requestPath req

end Camlispp
